import Dataflow.Proofs.Summons

/-! # A bind comes to an end

  Each nested bind gives a value to one more variable, so binds nest at most as deep as there are
  free variables, and the bound on the depth is never what stops them. A nested bind is never
  refused either, since only controls without a value are served. So a bind succeeds whenever its
  variable is free and its value can be dereferenced, however controls are tied to each other and to
  other variables.
-/

namespace Dataflow

/-! ### Free variables -/

/-- The variable has no value. -/
def Cell.isFree : Cell → Bool
  | .unbound _ => true
  | .bound _ => false

namespace Heap

variable {h : Heap}

/-- The number of free variables. -/
def freeCount (h : Heap) : Nat := h.cells.toList.countP Cell.isFree

theorem freeCount_le (h : Heap) : h.freeCount ≤ h.variableCount := by
  unfold freeCount variableCount
  rw [← Array.length_toList]
  exact List.countP_le_length

/-- Writing a value leaves one free variable less. -/
theorem freeCount_setCell {v : VarRef} {ls : List Listener} (hv : h.cell v = .ok (.unbound ls))
    (x : Node) : (h.setCell v (.bound x)).freeCount + 1 = h.freeCount := by
  obtain ⟨hlt, hget⟩ := Array.getElem?_eq_some_iff.mp (cell_eq_ok_iff.mp hv)
  have hlt' : v.index < h.cells.toList.length := by simpa using hlt
  have hget' : h.cells.toList[v.index] = .unbound ls := by simpa using hget
  have hpos : 0 < h.cells.toList.countP Cell.isFree :=
    List.countP_pos_iff.mpr ⟨_, List.getElem_mem hlt', by rw [hget']; rfl⟩
  unfold freeCount setCell
  rw [Array.toList_setIfInBounds, List.countP_set hlt', hget']
  simp only [Cell.isFree, ↓reduceIte, Bool.false_eq_true]
  omega

end Heap

namespace Machine

variable {m m' : Machine}

theorem freeCount_of_bindWithin {n : Nat} {v : VarRef} {x : Node}
    (hb : bindWithin n m v x = .ok (.ok m')) : m'.heap.freeCount ≤ m.heap.freeCount :=
  bindWithin_induct (R := fun m m' => m'.heap.freeCount ≤ m.heap.freeCount) (fun _ => Nat.le_refl _)
    (fun h₁ h₂ => Nat.le_trans h₂ h₁)
    (fun x hc => Nat.le_of_lt (Nat.lt_of_succ_le (Nat.le_of_eq (Heap.freeCount_setCell hc x))))
    (fun _ _ => Nat.le_refl _) hb

/-! ### Binds that succeed -/

/-- The threads have distinct numbers, and every variable and every control can be dereferenced. -/
structure Steady (m : Machine) : Prop where
  nodup : (m.scheduler.threads.map Thread.id).Nodup
  grounded : m.heap.Grounded
  control : ∀ {c : VarRef}, m.heap.IsControl c → ∃ cell, m.heap.cell c = .ok cell

/-- What lies in the heap leads somewhere. -/
theorem Steady.deref (hs : m.Steady) {n : Node} (hn : m.heap.InRange n) :
    ∃ d, m.heap.deref n = .ok d := by
  refine Heap.Grounded.deref hs.grounded ?_
  rintro v rfl
  exact Heap.cell_of_inRange hn

theorem Steady.cascade (hs : m.Steady) {ids : List ThreadId} (hc : Cascade m m' ids) : m'.Steady where
  nodup := hc.nodup hs.nodup
  grounded := hc.grounded hs.grounded
  control := by
    rintro c ⟨v, ls, hv, hl⟩
    obtain ⟨cell, hcell⟩ := hs.control ⟨v, ls, hc.unbound_before hv, hl⟩
    rcases hc.kept hcell with hcell' | ⟨_, _, -, hcell'⟩
    · exact ⟨_, hcell'⟩
    · exact ⟨_, hcell'⟩

/-- The machine is steady between the write of a value and the serving of the controls. -/
theorem Steady.withBound (hs : m.Steady) {v : VarRef} {ls : List Listener} {x d : Node}
    (hv : m.heap.cell v = .ok (.unbound ls)) (hx : m.heap.deref x = .ok d)
    (hne : d ≠ .variable v) : (m.withBound v x).Steady where
  nodup := hs.nodup
  grounded := Heap.Grounded.setCell_bound hs.grounded hv hx hne
  control := by
    rintro c ⟨w, ks, hw, hl⟩
    have hwv : w ≠ v := by
      rintro rfl
      rw [Machine.withBound, Heap.cell_setCell_self _ (Heap.lt_of_cell hv)] at hw
      cases hw
    rw [Machine.withBound, Heap.cell_setCell_ne _ hwv] at hw
    obtain ⟨cell, hcell⟩ := hs.control ⟨w, ks, hw, hl⟩
    rw [Machine.withBound, Heap.cell_setCell (Heap.lt_of_cell hv)]
    split
    · exact ⟨_, rfl⟩
    · exact ⟨cell, hcell⟩

/-- Controls that lie in the heap are served, if free ones among them can be bound. -/
theorem serveControl_completes {n : Nat}
    (hbind : ∀ {m : Machine} {c u : VarRef}, m.Steady → m.heap.freeCount < n →
      m.heap.deref (.variable c) = .ok (.variable u) →
      ∃ m', bindWithin n m c .unit = .ok (.ok m'))
    (cs : List VarRef) {m : Machine} (hs : m.Steady) (hfree : m.heap.freeCount < n)
    (hcs : ∀ c ∈ cs, ∃ cell, m.heap.cell c = .ok cell) :
    ∃ m', cs.foldlM (serveControl fun m control => bindWithin n m control .unit) (.ok m) =
      .ok (.ok m') := by
  induction cs generalizing m with
  | nil => exact ⟨m, rfl⟩
  | cons c cs ih =>
    obtain ⟨cell, hcell⟩ := hcs c (List.mem_cons_self ..)
    obtain ⟨d, hd⟩ := hs.grounded hcell
    have hdet : m.isDetermined (.variable c) = .ok d.asVariable?.isNone := Heap.isDetermined_eq hd
    rw [List.foldlM_cons]
    rcases d.value_or_variable with hv | ⟨u, rfl⟩
    · obtain ⟨m', hm'⟩ := ih hs hfree fun c' hc' => hcs c' (List.mem_cons_of_mem _ hc')
      refine ⟨m', ?_⟩
      simp only [serveControl, hdet, hv, ok_bind]
      exact hm'
    · obtain ⟨next, hnext⟩ := hbind hs hfree hd
      obtain ⟨ids, hc, -⟩ := cascade_of_bindWithin hs.nodup hnext
      -- the nested bind has taken no variable away, and left no more of them free
      have hrest : ∀ c' ∈ cs, ∃ cell, next.heap.cell c' = .ok cell := by
        intro c' hc'
        obtain ⟨cell', hcell'⟩ := hcs c' (List.mem_cons_of_mem _ hc')
        rcases hc.kept hcell' with h | ⟨_, _, -, h⟩
        · exact ⟨_, h⟩
        · exact ⟨_, h⟩
      obtain ⟨m', hm'⟩ := ih (hs.cascade hc)
        (Nat.lt_of_le_of_lt (freeCount_of_bindWithin hnext) hfree) hrest
      refine ⟨m', ?_⟩
      simp only [serveControl, hdet, Node.asVariable?, Option.isNone_some, ok_bind,
        Bool.false_eq_true, ↓reduceIte, hnext]
      exact hm'

/-- A free variable can be bound, if there are fewer free variables than binds may nest. -/
theorem bindWithin_completes {n : Nat} {v target : VarRef} {x d : Node} (hs : m.Steady)
    (hfree : m.heap.freeCount < n) (hv : m.heap.deref (.variable v) = .ok (.variable target))
    (hx : m.heap.deref x = .ok d) : ∃ m', bindWithin n m v x = .ok (.ok m') := by
  -- on the depth, which is above the number of free variables: each bind leaves one less
  induction n generalizing m v target x d with
  | zero => cases hfree
  | succ n ih =>
    by_cases hd : d = .variable target
    · exact ⟨m, bindWithin_self hv (hd ▸ hx) n⟩
    · obtain ⟨ls, hcell⟩ := Heap.cell_of_deref hv
      have hs₁ := hs.withBound hcell hx hd
      have hfree₁ : (m.withBound target x).heap.freeCount < n := by
        show (m.heap.setCell target (.bound x)).freeCount < n
        have hless := Heap.freeCount_setCell hcell x
        omega
      have hcontrols : ∀ c ∈ ls.filterMap Listener.control?,
          ∃ cell, (m.withBound target x).heap.cell c = .ok cell := by
        intro c hc
        obtain ⟨cell, hc'⟩ := hs.control ⟨target, ls, hcell, mem_filterMap_control.mp hc⟩
        unfold withBound
        rw [Heap.cell_setCell (Heap.lt_of_cell hcell)]
        split
        · exact ⟨_, rfl⟩
        · exact ⟨cell, hc'⟩
      obtain ⟨served, hserved⟩ := serveControl_completes
        (fun hs hfree hc => ih hs hfree hc (Heap.deref_of_value rfl)) _ hs₁ hfree₁ hcontrols
      rw [bindWithin_unbound hv hx hd hcell, hserved]
      exact ⟨_, rfl⟩

/-- A bind of a free variable to something that can be dereferenced succeeds. -/
theorem bind_completes {v target : VarRef} {x d : Node} (hs : m.Steady)
    (hv : m.heap.deref (.variable v) = .ok (.variable target)) (hx : m.heap.deref x = .ok d) :
    ∃ m', m.bind v x = .ok (.ok m') :=
  bindWithin_completes hs (Nat.lt_succ_of_le m.heap.freeCount_le) hv hx

/-- A bind of a variable that has a value is refused. -/
theorem bind_refused {v : VarRef} {x d : Node} (hv : m.heap.deref (.variable v) = .ok d)
    (hd : d.asVariable? = none) : m.bind v x = .ok (.error (.alreadyBound v)) := by
  have hv' : m.deref (.variable v) = .ok d := hv
  unfold bind bindWithin
  rw [hv', ok_bind]
  cases d with
  | «variable» u => cases hd
  | _ => rfl

end Machine

theorem Waits.steady {m : Machine} (hw : Waits m.heap m.scheduler.threads m.scheduler.spawned) :
    m.Steady where
  nodup := hw.nodup
  grounded := hw.grounded
  control := fun ⟨_, hl⟩ => hw.control hl

end Dataflow
