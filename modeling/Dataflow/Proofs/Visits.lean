import Dataflow.Proofs.Relocation

/-! # Walks in pieces

  A survey walks with a list of pending nodes, and a collector by recursion. To compare the two, a
  walk is cut into pieces: `Survey.Visits` says that a walk which has some nodes at the front of
  its list comes to another survey when it is done with them, whatever is pending behind them.

  In the meantime the survey only grows at its ends, so a place that something has is kept, and so
  are the copies of everything whose parts have their places.
-/

namespace Dataflow

namespace Survey

variable {h : Heap} {s s' s'' : Survey}

/-! ### Surveys that grow at their ends -/

/-- The second survey goes on from the first. -/
structure Extends (s s' : Survey) : Prop where
  records : s.records <+: s'.records
  vars : s.vars <+: s'.vars
  atoms : ∀ {content : String}, content ∈ s.atoms.contents → content ∈ s'.atoms.contents
  table : s'.atoms.id = s.atoms.id

namespace Extends

theorem refl (s : Survey) : s.Extends s := ⟨List.prefix_rfl, List.prefix_rfl, id, rfl⟩

theorem trans (h₁ : s.Extends s') (h₂ : s'.Extends s'') : s.Extends s'' :=
  ⟨h₁.records.trans h₂.records, h₁.vars.trans h₂.vars, fun hc => h₂.atoms (h₁.atoms hc),
    h₂.table.trans h₁.table⟩

theorem insert (s : Survey) (content : String) :
    s.Extends { s with atoms := s.atoms.insert content } := by
  refine ⟨List.prefix_rfl, List.prefix_rfl, ?_, by simp⟩
  intro other hm
  simp [hm]

theorem addRecord (s : Survey) (ref : RecordRef) :
    s.Extends { s with records := s.records ++ [ref] } :=
  ⟨List.prefix_append .., List.prefix_rfl, id, rfl⟩

theorem addVar (s : Survey) (v : VarRef) : s.Extends { s with vars := s.vars ++ [v] } :=
  ⟨List.prefix_rfl, List.prefix_append .., id, rfl⟩

theorem continues (he : s.Extends s') : s.Continues s' :=
  ⟨he.atoms, fun hm => he.records.subset hm, fun hm => he.vars.subset hm, he.table⟩

theorem covers (he : s.Extends s') {n : Node} (hn : s.Covers h n) : s'.Covers h n :=
  he.continues.covers hn

/-- What has a place keeps it. -/
theorem moved (he : s.Extends s') {n : Node} (hn : s.Covers h n) :
    s'.moved h n = s.moved h n := by
  obtain ⟨d, hd, hs⟩ := hn
  rw [moved_of_deref hd, moved_of_deref hd]
  cases d with
  | atom a => simp [place, he.table]
  | record ref =>
    have hidx := he.records.idxOf_eq_of_mem hs
    simp [place, hidx]
  | «variable» v =>
    have hidx := he.vars.idxOf_eq_of_mem hs
    simp [place, hidx]
  | _ => rfl

theorem literal (he : s.Extends s') (l : Literal) : s'.literal l = s.literal l := by
  cases l <;> simp [Survey.literal, he.table]

theorem feature (he : s.Extends s') (f : Feature) : s'.feature f = s.feature f := by
  cases f with
  | int i => rfl
  | literal l => exact congrArg Feature.literal (he.literal l)

theorem arity (he : s.Extends s') (a : Arity) : s'.arity a = s.arity a := by
  cases a with
  | tuple => rfl
  | features names =>
    have hfeatures : s'.feature = s.feature := funext he.feature
    simp only [Survey.arity, hfeatures]

theorem listener (he : s.Extends s') {l : Listener} (hl : ∀ n ∈ controls [l], s.Covers h n) :
    l.relocate (s'.moved h) = l.relocate (s.moved h) := by
  cases l with
  | thread id => rfl
  | control v =>
    have hv : s.Covers h (.variable v) := hl _ (mem_controls.mpr ⟨v, by simp, rfl⟩)
    simp [Listener.relocate, he.moved hv]

theorem copyRecord (he : s.Extends s') {r : Record} (hr : ∀ n ∈ r.edges, s.Covers h n) :
    s'.copyRecord h r = s.copyRecord h r := by
  have hfields : r.fields.map (s'.moved h) = r.fields.map (s.moved h) :=
    List.map_congr_left fun n hn => he.moved (hr n (by simp [Record.edges, hn]))
  simp only [Survey.copyRecord, he.literal, he.arity, hfields]

theorem copyCell (he : s.Extends s') {ls : List Listener}
    (hls : ∀ n ∈ controls ls, s.Covers h n) : s'.copyCell h ls = s.copyCell h ls := by
  have hsame : ∀ l ∈ ls, l.relocate (s'.moved h) = l.relocate (s.moved h) := by
    intro l hl
    apply he.listener
    intro n hn
    obtain ⟨c, hc, rfl⟩ := mem_controls.mp hn
    exact hls _ (mem_controls.mpr ⟨c, List.mem_singleton.mp hc ▸ hl, rfl⟩)
  simp only [Survey.copyCell, List.filterMap_congr hsame]

end Extends

/-! ### Pieces of a walk -/

/-- A walk that has the nodes at the front of its list gets from one survey to another with them,
    and has found them then. -/
structure Visits (h : Heap) (nodes : List Node) (s s' : Survey) : Prop where
  grows : s.Extends s'
  covers : ∀ n ∈ nodes, s'.Covers h n
  /-- What is pending behind the nodes makes no difference, and neither does what is left of the
      bound. -/
  walk : ∃ k, ∀ n rest, walk h (k + n) (nodes ++ rest) s = walk h n rest s'

namespace Visits

theorem nil (h : Heap) (s : Survey) : Visits h [] s s :=
  ⟨.refl s, nofun, 0, fun n rest => by simp⟩

theorem append {ns ms : List Node} (h₁ : Visits h ns s s') (h₂ : Visits h ms s' s'') :
    Visits h (ns ++ ms) s s'' := by
  obtain ⟨k, hk⟩ := h₁.walk
  obtain ⟨l, hl⟩ := h₂.walk
  refine ⟨h₁.grows.trans h₂.grows, ?_, k + l, ?_⟩
  · intro n hn
    rcases List.mem_append.mp hn with hn | hn
    · exact h₂.grows.covers (h₁.covers n hn)
    · exact h₂.covers n hn
  · intro n rest
    rw [List.append_assoc, Nat.add_assoc, hk, hl]

/-- One step of a walk, and then what the step makes pending. -/
theorem step {node d : Node} {new : List Node} (hd : h.deref node = .ok d)
    (hv : s.visit h d = .ok (new, s')) (hgrows : s.Extends s') (hself : s'.Holds d)
    (hnew : Visits h new s' s'') : Visits h [node] s s'' := by
  obtain ⟨k, hk⟩ := hnew.walk
  refine ⟨hgrows.trans hnew.grows, ?_, k + 1, ?_⟩
  · intro n hn
    rw [List.mem_singleton.mp hn]
    exact hnew.grows.covers ⟨d, hd, hself⟩
  · intro n rest
    rw [show k + 1 + n = k + n + 1 by omega, List.singleton_append, walk_cons, hd, ok_bind, hv,
      ok_bind]
    exact hk n rest

/-- A step that makes nothing pending. -/
theorem stop {node d : Node} (hd : h.deref node = .ok d) (hv : s.visit h d = .ok ([], s'))
    (hgrows : s.Extends s') (hself : s'.Holds d) : Visits h [node] s s' :=
  step hd hv hgrows hself (nil h s')

theorem atom (a : Atom) : Visits h [.atom a] s { s with atoms := s.atoms.insert a.content } :=
  stop (Heap.deref_of_value rfl) rfl (.insert s a.content) (by simp [Holds])

theorem inline {n : Node} (hn : n.kind.capabilities.copiesWhole = true) : Visits h [n] s s := by
  cases n with
  | atom a => cases hn
  | record ref => cases hn
  | «variable» v => cases hn
  | _ => exact stop (Heap.deref_of_value rfl) rfl (.refl s) trivial

theorem knownRecord {ref : RecordRef} (hm : ref ∈ s.records) : Visits h [.record ref] s s :=
  stop (Heap.deref_of_value rfl) (by simp [visit, hm]) (.refl s) hm

theorem knownVar {v : VarRef} {ls : List Listener} (hc : h.cell v = .ok (.unbound ls))
    (hm : v ∈ s.vars) : Visits h [.variable v] s s :=
  stop (Heap.deref_unbound hc) (by simp [visit, hm]) (.refl s) hm

theorem newRecord {ref : RecordRef} {r : Record} (hm : ref ∉ s.records) (hr : h.record ref = .ok r)
    (hnew : Visits h r.edges { s with records := s.records ++ [ref] } s') :
    Visits h [.record ref] s s' := by
  refine step (Heap.deref_of_value rfl) ?_ (.addRecord s ref) (by simp [Holds]) hnew
  simp [visit, hm, hr, pure, Except.pure]

theorem newVar {v : VarRef} {ls : List Listener} (hm : v ∉ s.vars)
    (hc : h.cell v = .ok (.unbound ls))
    (hnew : Visits h (controls ls) { s with vars := s.vars ++ [v] } s') :
    Visits h [.variable v] s s' := by
  refine step (Heap.deref_unbound hc) ?_ (.addVar s v) (by simp [Holds]) hnew
  simp [visit, hm, listeners_of_unbound hc, pure, Except.pure]

/-- A walk looks through bound variables, so it visits the variable when it visits the value. -/
theorem bound {v : VarRef} {x : Node} (hc : h.cell v = .ok (.bound x)) (hx : Visits h [x] s s') :
    Visits h [.variable v] s s' := by
  obtain ⟨k, hk⟩ := hx.walk
  have hderef : h.deref (.variable v) = h.deref x := Heap.deref_bound hc
  -- the walk takes at least one step, and its first step is the same for the two nodes
  have hpos : k ≠ 0 := by
    rintro rfl
    have hnone := hk 0 []
    simp [Survey.walk] at hnone
  obtain ⟨k, rfl⟩ := Nat.exists_eq_add_one_of_ne_zero hpos
  refine ⟨hx.grows, ?_, k + 1, ?_⟩
  · intro n hn
    obtain ⟨d, hd, hs⟩ := hx.covers x (List.mem_singleton.mpr rfl)
    rw [List.mem_singleton.mp hn]
    exact ⟨d, hderef.trans hd, hs⟩
  · intro n rest
    rw [← hk n rest, show k + 1 + n = k + n + 1 by omega, List.singleton_append,
      List.singleton_append, walk_cons, walk_cons, hderef]

/-- A whole walk in one piece makes the survey of its nodes. -/
theorem ofNodes {ns : List Node} {atoms : AtomTable} (hv : Visits h ns { atoms } s) :
    Survey.ofNodes h atoms ns = .ok s := by
  obtain ⟨k, hk⟩ := hv.walk
  have hwalk : Survey.walk h k ns { atoms } = .ok s := by
    simpa [Survey.walk] using hk 0 []
  obtain ⟨hf, -⟩ := found_walk hwalk (found_initial _ _ _)
  exact ofNodes_of_walk (fun hn => hf.inRange hn) hwalk

end Visits

end Survey

end Dataflow
