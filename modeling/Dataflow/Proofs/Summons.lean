import Dataflow.Proofs.Orderly

/-! # The cells that a bind writes

  A bind writes its value into one cell and serves the controls that listen to it: each control that
  has no value is bound to unit, and what is written is the cell of the variable that the control
  leads to. While no control has been bound to another variable this is the control's own cell. But a
  host can bind a control, and then the variable behind it is given the value unit as soon as one of
  the fields is bound.

  A bind *summons* these variables: those behind the controls that listen to its target, those behind
  the controls that listen to these, and so on. Main statement: a bind writes its value into its
  target and unit into the variables that it summons, and leaves all other cells.
-/

open Relation (TransGen)

namespace Dataflow

/-! ### Cells that have been given the value unit -/

namespace Heap

variable {h h' : Heap} {S : VarRef → Prop}

/-- The second heap is the first, but for some variables of a set that have been bound to unit. -/
def GivesUnit (h : Heap) (S : VarRef → Prop) (h' : Heap) : Prop :=
  ∀ (w : VarRef) (c : Cell), h'.cell w = .ok c → h.cell w = .ok c ∨
    (∃ ls, h.cell w = .ok (.unbound ls)) ∧ S w ∧ c = .bound .unit

theorem GivesUnit.unbound (hg : h.GivesUnit S h') {w : VarRef} {ls : List Listener}
    (hw : h'.cell w = .ok (.unbound ls)) : h.cell w = .ok (.unbound ls) := by
  rcases hg w _ hw with hw | ⟨-, -, he⟩
  · exact hw
  · cases he

/-- What leads to a variable led to it before: a path does not end at a variable through unit. -/
theorem GivesUnit.deref (hg : h.GivesUnit S h') {n : Node} {w : VarRef}
    (hd : h'.deref n = .ok (.variable w)) : h.deref n = .ok (.variable w) := by
  refine deref_induct (motive := fun n d => d = .variable w → h.deref n = .ok d) ?_ ?_ ?_ hd rfl
  · intro n hn _
    exact deref_of_value hn
  · intro v ls hv _
    exact deref_unbound (hg.unbound hv)
  · intro v x d hv hx ih he
    rcases hg v _ hv with hv | ⟨-, -, hunit⟩
    · rw [deref_bound hv]
      exact ih he
    · cases hunit
      rw [he, deref_of_value rfl] at hx
      cases hx

theorem GivesUnit.write (hg : h.GivesUnit S h') {v : VarRef} {ls : List Listener}
    (hv : h'.cell v = .ok (.unbound ls)) (hS : S v) : h.GivesUnit S (h'.setCell v (.bound .unit)) := by
  intro w c hw
  rw [cell_setCell (lt_of_cell hv)] at hw
  split at hw
  · next he =>
    cases hw
    exact .inr ⟨⟨ls, he ▸ hg.unbound hv⟩, he ▸ hS, rfl⟩
  · exact hg w c hw

end Heap

namespace Machine

variable {m m' : Machine}

/-! ### Summoned variables -/

/-- A control listens to the first variable, and leads to the second in the other heap. -/
def Summons (h after : Heap) (u w : VarRef) : Prop :=
  ∃ c, h.Listens (.control c) u ∧ after.deref (.variable c) = .ok (.variable w)

/-- The variable is reached through controls from the one that is bound to the node. -/
def Summoned (m : Machine) (target : VarRef) (x : Node) : VarRef → Prop :=
  TransGen (Summons m.heap (m.withBound target x).heap) target

/-- Serving controls gives unit to variables of a set, if each nested bind does. -/
theorem givesUnit_of_serveControl {h : Heap} {S : VarRef → Prop}
    {bindUnit : Machine → VarRef → Except Fault (Except Refusal Machine)}
    (hbind : ∀ {m m' : Machine} {c : VarRef}, h.GivesUnit S m.heap →
      (∀ w, h.deref (.variable c) = .ok (.variable w) → S w) →
      bindUnit m c = .ok (.ok m') → h.GivesUnit S m'.heap)
    (cs : List VarRef) {m m' : Machine} (hg : h.GivesUnit S m.heap)
    (hcs : ∀ c ∈ cs, ∀ w, h.deref (.variable c) = .ok (.variable w) → S w)
    (hs : cs.foldlM (serveControl bindUnit) (.ok m) = .ok (.ok m')) : h.GivesUnit S m'.heap := by
  induction cs generalizing m with
  | nil =>
    cases hs
    exact hg
  | cons c cs ih =>
    have hrest : ∀ c' ∈ cs, ∀ w, h.deref (.variable c') = .ok (.variable w) → S w :=
      fun c' hc' => hcs c' (List.mem_cons_of_mem _ hc')
    obtain ⟨next, hs', ⟨-, rfl⟩ | hnext⟩ := serveControl_cases hs
    · exact ih hg hrest hs'
    · exact ih (hbind hg (hcs c (List.mem_cons_self ..)) hnext) hrest hs'

/-- A nested bind gives unit to variables of a set that is closed under serving controls. -/
theorem givesUnit_of_bindWithin {h : Heap} {S : VarRef → Prop}
    (hclosed : ∀ {u w : VarRef}, S u → Summons h h u w → S w) {n : Nat} {c : VarRef}
    (hg : h.GivesUnit S m.heap) (hc : ∀ w, h.deref (.variable c) = .ok (.variable w) → S w)
    (hb : bindWithin n m c .unit = .ok (.ok m')) : h.GivesUnit S m'.heap := by
  induction n generalizing m m' c with
  | zero => cases hb
  | succ n ih =>
    obtain ⟨u, d, hu, -, ⟨-, rfl⟩ | ⟨-, ls, served, hcell, hs, rfl⟩⟩ := bindWithin_cases hb
    · exact hg
    · have hSu : S u := hc u (hg.deref hu)
      show h.GivesUnit S served.heap
      refine givesUnit_of_serveControl (fun hg hc hb => ih hg hc hb) _ (hg.write hcell hSu)
        (fun c' hc' w hw => ?_) hs
      exact hclosed hSu ⟨c', ⟨ls, hg.unbound hcell, mem_filterMap_control.mp hc'⟩, hw⟩

/-! ### What a bind writes -/

/-- All that a bind of a free variable does to the cells: the value is written, and then nothing but
    variables that are summoned is given a value, which is unit. -/
theorem givesUnit_of_bind (hnd : (m.scheduler.threads.map Thread.id).Nodup) {v target : VarRef}
    {x : Node} (hv : m.heap.deref (.variable v) = .ok (.variable target))
    (hx : m.heap.deref x ≠ .ok (.variable target)) (hb : m.bind v x = .ok (.ok m')) :
    (m.withBound target x).heap.GivesUnit (m.Summoned target x) m'.heap ∧
      (m.withBound target x).heap.Grows m'.heap := by
  obtain ⟨target', d, hv', hd, ⟨rfl, rfl⟩ | ⟨hne, ls, served, hcell, hs, rfl⟩⟩ := bindWithin_cases hb
  · rw [hv] at hv'
    cases hv'
    exact absurd hd hx
  rw [hv] at hv'
  cases hv'
  have hbound : (m.withBound target x).heap.cell target = .ok (.bound x) :=
    Heap.cell_setCell_self _ (Heap.lt_of_cell hcell)
  -- the listeners of a variable that is still free are those that it had before the value was written
  have hlistens : ∀ {u c : VarRef}, (m.withBound target x).heap.Listens (.control c) u →
      m.heap.Listens (.control c) u := by
    rintro u c ⟨ks, hu, hl⟩
    have hut : u ≠ target := by
      rintro rfl
      rw [hbound] at hu
      cases hu
    rw [withBound, Heap.cell_setCell_ne _ hut] at hu
    exact ⟨ks, hu, hl⟩
  constructor
  · show (m.withBound target x).heap.GivesUnit _ served.heap
    refine givesUnit_of_serveControl (fun hg hc hb => givesUnit_of_bindWithin ?_ hg hc hb) _
      (fun w c hw => .inl hw) (fun c hc w hw => ?_) hs
    · rintro u w hu ⟨c, hl, hw⟩
      exact hu.tail ⟨c, hlistens hl, hw⟩
    · exact .single ⟨c, ⟨ls, hcell, mem_filterMap_control.mp hc⟩, hw⟩
  · obtain ⟨ids, hcasc, -⟩ := cascade_of_serveControl
      (fun hnd hb => cascade_of_bindWithin hnd hb) _ (by simpa [withBound] using hnd) hs
    exact hcasc.grows

/-- A variable that is summoned by one that was bound is bound too: the control between them has been
    served. -/
theorem bound_of_summons {after : Heap} {ids : List ThreadId} (hc : Cascade m m' ids)
    (hg : after.Grows m'.heap) {u w : VarRef} {y : Node} (hu : m'.heap.cell u = .ok (.bound y))
    (hsummons : Summons m.heap after u w) : ∃ z, m'.heap.cell w = .ok (.bound z) := by
  obtain ⟨c, ⟨ls, hls, hl⟩, hw⟩ := hsummons
  have hdet := hc.served hls hu hl
  obtain ⟨ks, hks⟩ := Heap.cell_of_deref hw
  rcases hg.unbound hks with ⟨ms, hms⟩ | hbound
  · rw [Heap.isDetermined_eq (hg.deref_unbound hw hms)] at hdet
    cases hdet
  · exact hbound

/-- Each variable that is summoned is bound to unit, and no other is touched. -/
theorem cell_of_summoned (hnd : (m.scheduler.threads.map Thread.id).Nodup) {v target : VarRef}
    {x : Node} (hv : m.heap.deref (.variable v) = .ok (.variable target))
    (hx : m.heap.deref x ≠ .ok (.variable target)) (hb : m.bind v x = .ok (.ok m')) :
    m'.heap.cell target = .ok (.bound x) ∧ ∀ w, w ≠ target →
      (m.Summoned target x w → m'.heap.cell w = .ok (.bound .unit)) ∧
      (¬ m.Summoned target x w → m'.heap.cell w = m.heap.cell w) := by
  obtain ⟨hgives, hgrows⟩ := givesUnit_of_bind hnd hv hx hb
  obtain ⟨ids, hc, -⟩ := cascade_of_bind hnd hb
  obtain ⟨ls, hcell⟩ := Heap.cell_of_deref hv
  have htarget : m'.heap.cell target = .ok (.bound x) :=
    hgrows.bound (Heap.cell_setCell_self _ (Heap.lt_of_cell hcell))
  have hbound : ∀ {w : VarRef}, m.Summoned target x w → ∃ z, m'.heap.cell w = .ok (.bound z) := by
    intro w hw
    induction hw with
    | single hs => exact bound_of_summons hc hgrows htarget hs
    | tail _ hs ih =>
      obtain ⟨z, hz⟩ := ih
      exact bound_of_summons hc hgrows hz hs
  refine ⟨htarget, fun w hwt => ⟨fun hw => ?_, fun hw => ?_⟩⟩
  · obtain ⟨z, hz⟩ := hbound hw
    rcases hgives w _ hz with hsame | ⟨-, -, hunit⟩
    · -- what is summoned was free when the value had been written
      obtain ⟨u, -, c, -, hd⟩ := TransGen.tail'_iff.mp hw
      obtain ⟨ks, hks⟩ := Heap.cell_of_deref hd
      rw [hks] at hsame
      cases hsame
    · rw [hz, hunit]
  · cases hcw : m.heap.cell w with
    | error f => exact hc.dangling hcw
    | ok c =>
      rcases hc.kept hcw with hsame | ⟨ls', z, -, hz⟩
      · exact hsame
      · rcases hgives w _ hz with hsame | ⟨-, hS, -⟩
        · rw [withBound, Heap.cell_setCell_ne _ hwt, hcw] at hsame
          rw [hz, hsame]
        · exact absurd hS hw

/-! ### The frame of a bind -/

/-- A variable that is summoned lies behind a control. If controls lead to themselves, it is one. -/
theorem isControl_of_summoned {target w : VarRef} {x : Node}
    (hown : ∀ c u, m.heap.IsControl c →
      (m.withBound target x).heap.deref (.variable c) = .ok (.variable u) → u = c)
    (hw : m.Summoned target x w) : m.heap.IsControl w := by
  obtain ⟨u, -, c, hl, hd⟩ := TransGen.tail'_iff.mp hw
  have hc : m.heap.IsControl c := ⟨u, hl⟩
  rw [hown c w hc hd]
  exact hc

/-- What a bind of a reachable machine writes, exactly. If the value leads to the target nothing is
    written; otherwise the value goes into the target, unit into each variable that is summoned, and
    all other cells stay. So while each control leads to itself or to a value, no variable but the
    target and the controls is touched; and a free variable that the target is bound to stays free,
    and the two undetermined, unless it is summoned. -/
theorem Reachable.bind_writes_summoned (hm : Reachable m) {v target : VarRef} {x : Node}
    (hv : m.deref (.variable v) = .ok (.variable target)) (hb : m.bind v x = .ok (.ok m')) :
    (m.deref x = .ok (.variable target) → m' = m) ∧
    (m.deref x ≠ .ok (.variable target) →
      (m'.heap.cell target = .ok (.bound x) ∧ ∀ w, w ≠ target →
        (m.Summoned target x w → m'.heap.cell w = .ok (.bound .unit)) ∧
        (¬ m.Summoned target x w → m'.heap.cell w = m.heap.cell w)) ∧
      ((∀ c u, m.heap.IsControl c →
          (m.withBound target x).heap.deref (.variable c) = .ok (.variable u) → u = c) →
        ∀ w, w ≠ target → ¬ m.heap.IsControl w → m'.heap.cell w = m.heap.cell w) ∧
      ∀ y, m.deref x = .ok (.variable y) → ¬ m.Summoned target x y →
        m'.deref (.variable y) = .ok (.variable y) ∧ m'.deref (.variable v) = .ok (.variable y)) := by
  have hnd := hm.waits.nodup
  refine ⟨fun hx => ?_, fun hx => ?_⟩
  · rw [bind, bindWithin_self hv hx] at hb
    cases hb
    rfl
  have hcells := cell_of_summoned hnd hv hx hb
  refine ⟨hcells, fun hown w hwt hwc => ?_, fun y hy hyS => ?_⟩
  · exact (hcells.2 w hwt).2 fun hw => hwc (isControl_of_summoned hown hw)
  · obtain ⟨ids, hc, hvx⟩ := cascade_of_bind hnd hb
    obtain ⟨ls, hls⟩ := Heap.cell_of_deref hy
    have hyt : y ≠ target := fun he => hx (he ▸ hy)
    have hstays : m'.heap.cell y = .ok (.unbound ls) := ((hcells.2 y hyt).2 hyS).trans hls
    refine ⟨Heap.deref_unbound hstays, ?_⟩
    show m'.heap.deref (.variable v) = .ok (.variable y)
    rw [hvx, hc.grows.deref hy, Heap.deref_unbound hstays]

/-- A field is bound to a free variable that the host has bound the control to: the variable is given
    the value unit. -/
theorem aliased_summons : ∃ m', aliased.bind ⟨0⟩ (.variable ⟨3⟩) = .ok (.ok m') ∧
    aliased.deref (.variable ⟨0⟩) = .ok (.variable ⟨0⟩) ∧
    aliased.deref (.variable ⟨3⟩) = .ok (.variable ⟨3⟩) ∧ ¬ aliased.heap.IsControl ⟨3⟩ ∧
    m'.heap.cell ⟨3⟩ = .ok (.bound .unit) ∧ m'.heap.cell ⟨1⟩ = aliased.heap.cell ⟨1⟩ := by
  have hv : aliased.deref (.variable ⟨0⟩) = .ok (.variable ⟨0⟩) := rfl
  have hx : aliased.deref (.variable ⟨3⟩) = .ok (.variable ⟨3⟩) := rfl
  obtain ⟨m', hb⟩ : ∃ m', aliased.bind ⟨0⟩ (.variable ⟨3⟩) = .ok (.ok m') := ⟨_, rfl⟩
  have hcells := ((reachable_aliased.bind_writes_summoned hv hb).2 (by rw [hx]; simp)).1
  have hcontrol : ∀ {c u : VarRef}, aliased.heap.Listens (.control c) u → c = ⟨2⟩ := by
    rintro c u ⟨ls, hu, hl⟩
    have hmem := Array.mem_of_getElem? (Heap.cell_eq_ok_iff.mp hu)
    simp only [aliased, List.mem_toArray, List.mem_cons, List.not_mem_nil, or_false] at hmem
    rcases hmem with he | he | he | he
    · cases he
      simpa using hl
    · cases he
      simpa using hl
    · cases he
    · cases he
      cases hl
  refine ⟨m', hb, hv, hx, ?_, ?_, ?_⟩
  · rintro ⟨u, hl⟩
    cases hcontrol hl
  · exact (hcells.2 ⟨3⟩ (by decide)).1 (.single ⟨⟨2⟩, ⟨[.control ⟨2⟩], rfl, by simp⟩, rfl⟩)
  · refine (hcells.2 ⟨1⟩ (by decide)).2 fun hw => ?_
    obtain ⟨u, -, c, hl, hd⟩ := TransGen.tail'_iff.mp hw
    rw [hcontrol hl] at hd
    cases hd

end Machine

end Dataflow
