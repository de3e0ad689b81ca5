import Dataflow.Proofs.Serving

/-! # New controls

  To wait for one of many free variables is to wait for a control that listens to all of them. If
  there is none yet, a new variable is allocated and put at the end of their lists. The heap *gains* a
  variable then, and that is all that waiting ever does to a heap: it reads nothing that could be
  missing, gives no value and takes no listener away.
-/

namespace Dataflow

namespace Heap

variable {h h' : Heap} {c : VarRef}

/-- The second heap is the first with a new free variable `c`, which has been put at the end of the
    lists of some free variables. -/
structure Gains (h h' : Heap) (c : VarRef) : Prop where
  /-- The variable is the next one. -/
  fresh : c = ⟨h.cells.size⟩
  /-- Nothing but cells is touched, and one allocation is counted. -/
  rest : h' = { h with cells := h'.cells, allocated := h.allocated + 1 }
  size : h'.cells.size = h.cells.size + 1
  /-- Nobody waits for the variable. -/
  cell : h'.cell c = .ok (.unbound [])
  bound : ∀ {v : VarRef} {x : Node}, h.cell v = .ok (.bound x) → h'.cell v = .ok (.bound x)
  unbound : ∀ {v : VarRef} {ls : List Listener}, h.cell v = .ok (.unbound ls) →
    h'.cell v = .ok (.unbound ls) ∨ h'.cell v = .ok (.unbound (ls ++ [.control c]))

theorem gains_allocateVariable (h : Heap) : h.Gains h.allocateVariable.2 h.allocateVariable.1 where
  fresh := rfl
  rest := rfl
  size := by simp [allocateVariable]
  cell := cell_allocateVariable.mpr (.inr ⟨rfl, rfl⟩)
  bound := cell_allocateVariable_of_ok
  unbound hv := .inl (cell_allocateVariable_of_ok hv)

theorem Gains.records (hg : h.Gains h' c) : h'.records = h.records := by rw [hg.rest]

theorem Gains.grows (hg : h.Gains h' c) : h.Grows h' where
  record hr := by rw [record_congr hg.records]; exact hr
  bound := hg.bound
  unbound hv := by
    rcases hg.unbound hv with hv' | hv'
    · exact .inl ⟨[], by simpa using hv'⟩
    · exact .inl ⟨_, hv'⟩

/-- A variable of the second heap is the new one, or one of the first heap. -/
theorem Gains.cell_before (hg : h.Gains h' c) {v : VarRef} {cell : Cell}
    (hv : h'.cell v = .ok cell) : v = c ∨ ∃ cell', h.cell v = .ok cell' := by
  have hlt := lt_of_cell hv
  rw [hg.size] at hlt
  rcases Nat.lt_succ_iff_lt_or_eq.mp hlt with hlt | he
  · exact .inr (cell_of_inRange (by simpa [InRange, containsVariable] using hlt))
  · obtain ⟨i⟩ := v
    cases he
    exact .inl hg.fresh.symm

theorem Gains.bound_before (hg : h.Gains h' c) {v : VarRef} {x : Node}
    (hv : h'.cell v = .ok (.bound x)) : h.cell v = .ok (.bound x) := by
  rcases hg.cell_before hv with rfl | ⟨cell, hcell⟩
  · rw [hg.cell] at hv
    cases hv
  · cases cell with
    | bound y =>
      rw [hg.bound hcell] at hv
      cases hv
      exact hcell
    | unbound ls =>
      rcases hg.unbound hcell with hv' | hv'
      · rw [hv'] at hv
        cases hv
      · rw [hv'] at hv
        cases hv

/-- The new variable comes to listen to a free variable, or does so already. -/
theorem Gains.listen (hg : h.Gains h' c) {v : VarRef} {ls : List Listener}
    (hv : h.cell v = .ok (.unbound ls)) :
    ∃ h'', h'.addListener v (.control c) = .ok (true, h'') ∧ h.Gains h'' c := by
  -- the variable has its listeners of before, or has the control among them already
  rcases hg.unbound hv with hv' | hv'
  · refine ⟨_, addListener_unbound hv' _, ?_⟩
    split
    · exact hg
    -- the control is fresh, so it is not the variable that it listens to
    · have hne : v ≠ c := by
        rintro rfl
        have hlt := lt_of_cell hv
        rw [hg.fresh] at hlt
        exact Nat.lt_irrefl _ hlt
      refine
        { fresh := hg.fresh
          rest := by rw [setCell, hg.rest]
          size := by simpa [setCell] using hg.size
          cell := by rw [cell_setCell_ne _ hne.symm]; exact hg.cell
          bound := fun {w x} hw => ?_
          unbound := fun {w ks} hw => ?_ }
      · have hwv : w ≠ v := by
          rintro rfl
          rw [hv] at hw
          cases hw
        rw [cell_setCell_ne _ hwv]
        exact hg.bound hw
      · by_cases hwv : w = v
        · subst hwv
          rw [hv] at hw
          cases hw
          exact .inr (cell_setCell_self _ (lt_of_cell hv'))
        · rw [cell_setCell_ne _ hwv]
          exact hg.unbound hw
  · exact ⟨h', by rw [addListener_unbound hv', if_pos (by simp)], hg⟩

end Heap

namespace Machine

variable {m : Machine}

/-- A new control listens to free variables. -/
theorem listenTo_gains {h : Heap} {c : VarRef} {vs : List VarRef} (hg : h.Gains m.heap c)
    (hvs : ∀ v ∈ vs, ∃ ls, h.cell v = .ok (.unbound ls)) :
    ∃ heap, m.listenTo (.control c) vs = .ok { m with heap } ∧ h.Gains heap c := by
  induction vs generalizing m with
  | nil => exact ⟨m.heap, rfl, hg⟩
  | cons v vs ih =>
    obtain ⟨ls, hv⟩ := hvs v (List.mem_cons_self ..)
    obtain ⟨heap, ha, hg'⟩ := hg.listen hv
    obtain ⟨last, hl, hlast⟩ :=
      ih (m := { m with heap }) hg' fun w hw => hvs w (List.mem_cons_of_mem _ hw)
    refine ⟨last, ?_, hlast⟩
    rw [listenTo, ha, ok_bind]
    exact hl

/-- One of many free variables can be waited for. Nothing changes if there is only one or if there
    is a control already; else there is a new control. -/
theorem waitForAny_completes (hs : m.Steady) {vs : List VarRef} (hne : vs ≠ [])
    (hvs : ∀ v ∈ vs, ∃ ls, m.heap.cell v = .ok (.unbound ls)) :
    ∃ c m', m.waitForAny vs = .ok (c, m') ∧
      (m' = m ∧ (c ∈ vs ∨ m.heap.IsControl c) ∨
        ∃ heap, m' = { m with heap } ∧ m.heap.Gains heap c) := by
  match vs, hne with
  | [v], _ => exact ⟨v, m, rfl, .inl ⟨rfl, .inl (List.mem_singleton.mpr rfl)⟩⟩
  | v :: v' :: vs, _ =>
    obtain ⟨ls, hv⟩ := hvs v (List.mem_cons_self ..)
    obtain ⟨found, hfound, -⟩ := pendingControl?_ok hs.grounded
      (fun c hc => hs.control ⟨v, ls, hv, hc⟩) fun w hw => hvs w (List.mem_cons_of_mem v hw)
    rw [waitForAny.eq_3 _ _ _ (by simp), Survey.listeners_of_unbound hv, ok_bind, hfound, ok_bind]
    cases found with
    | some c =>
      obtain ⟨hc, -⟩ := pendingControl?_eq_some hfound
      exact ⟨c, m, rfl, .inl ⟨rfl, .inr ⟨v, ls, hv, hc⟩⟩⟩
    | none =>
      have hg₀ : m.heap.Gains m.newVariable.2.heap m.newVariable.1 := Heap.gains_allocateVariable _
      obtain ⟨heap, hl, hg⟩ := listenTo_gains hg₀ hvs
      refine ⟨m.newVariable.1, { m.newVariable.2 with heap }, ?_, .inr ⟨heap, rfl, hg⟩⟩
      dsimp only
      rw [hl]
      rfl

end Machine

end Dataflow
