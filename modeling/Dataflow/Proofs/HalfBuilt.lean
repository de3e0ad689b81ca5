import Dataflow.Proofs.Visits

/-! # The heap that a collector builds

  While a collection is under way, the new heap is half built: some records have their copies in it,
  others have a placeholder in their place because their parts are being relocated, and variables
  whose listeners are being relocated have no listener yet. `Collector.HalfBuilt` is the invariant,
  with the list of what is *under way* as a parameter. Whatever the memos have and is not under way
  has been copied with all of its parts, and the i-th entry of a memo leads to the i-th place.

  Here the invariant is shown of every step that a collector makes: to intern an atom, to reserve
  a place, and to fill it. A collection begins and ends with nothing under way, and then the heap is
  the heap of the copies.
-/

namespace Dataflow

namespace Collector

variable {α β : Type}

/-! ### Running a part of a collection -/

theorem bind_run {x : Collecting α} {f : α → Collecting β} {c c'' : Collector} {b : β} :
    (x >>= f) c = .ok (b, c'') ↔ ∃ a c', x c = .ok (a, c') ∧ f a c' = .ok (b, c'') := by
  show (x c >>= fun p => f p.1 p.2) = _ ↔ _
  rw [bind_eq_ok]
  constructor
  · rintro ⟨⟨a, c'⟩, hx, hf⟩
    exact ⟨a, c', hx, hf⟩
  · rintro ⟨a, c', hx, hf⟩
    exact ⟨(a, c'), hx, hf⟩

theorem pure_run {a b : α} {c c' : Collector} :
    (pure a : Collecting α) c = .ok (b, c') ↔ a = b ∧ c = c' := by
  show Except.ok (a, c) = _ ↔ _
  simp

theorem get_run {c c' d : Collector} :
    (get : Collecting Collector) c = .ok (d, c') ↔ c = d ∧ c = c' := by
  show Except.ok (c, c) = _ ↔ _
  simp

theorem lift_run {x : Except Fault α} {a : α} {c c' : Collector} :
    (liftM x : Collecting α) c = .ok (a, c') ↔ x = .ok a ∧ c = c' := by
  show (x >>= fun a => pure (a, c)) = _ ↔ _
  cases x <;> simp [pure, Except.pure]

theorem intern_run (content : String) (c : Collector) : intern content c =
    .ok (⟨c.atoms.id, content⟩, { c with atoms := c.atoms.insert content }) := by
  show Except.ok ((c.atoms.intern content).1, { c with atoms := (c.atoms.intern content).2 }) = _
  rw [AtomTable.intern_eq]

/-! ### Memos -/

/-- The survey that a collector has made so far. -/
def survey (c : Collector) : Survey where
  atoms := c.atoms
  records := c.records.map Prod.fst
  vars := c.vars.map Prod.fst

theorem survey_addRecord (c : Collector) (heap : Heap) (source target : RecordRef) :
    survey { c with heap, records := c.records ++ [(source, target)] } =
      { c.survey with records := c.survey.records ++ [source] } := by
  simp [survey]

theorem survey_addVar (c : Collector) (heap : Heap) (source target : VarRef) :
    survey { c with heap, vars := c.vars ++ [(source, target)] } =
      { c.survey with vars := c.survey.vars ++ [source] } := by
  simp [survey]

/-- What a memo finds stands beside the first entry for it. -/
theorem getElem?_of_lookup [DecidableEq α] {memo : List (α × β)} {a : α} {b : β}
    (hl : memo.lookup a = some b) :
    a ∈ memo.map Prod.fst ∧ (memo.map Prod.snd)[(memo.map Prod.fst).idxOf a]? = some b := by
  induction memo with
  | nil => cases hl
  | cons e memo ih =>
    rw [List.lookup_cons] at hl
    by_cases he : a = e.1
    · simp only [he, beq_self_eq_true] at hl
      simp [he, hl]
    · have hne : (a == e.1) = false := by simpa using he
      simp only [hne] at hl
      obtain ⟨hm, hg⟩ := ih hl
      refine ⟨by simp [hm], ?_⟩
      rw [List.map_cons, List.map_cons, List.idxOf_cons_ne _ (Ne.symm he)]
      simpa using hg

theorem not_mem_of_lookup [DecidableEq α] {memo : List (α × β)} {a : α}
    (hl : memo.lookup a = none) : a ∉ memo.map Prod.fst := by
  intro hm
  obtain ⟨e, he, rfl⟩ := List.mem_map.mp hm
  have hne := List.lookup_eq_none_iff.mp hl e he
  simp at hne

/-- The i-th of some places that are numbered is the place of the number i. -/
theorem eq_of_getElem?_range {mk : Nat → β} {n i : Nat} {b : β}
    (hg : ((List.range n).map mk)[i]? = some b) : b = mk i := by
  rw [List.getElem?_map] at hg
  obtain ⟨j, hj, rfl⟩ := Option.map_eq_some_iff.mp hg
  obtain ⟨hlt, he⟩ := List.getElem?_eq_some_iff.mp hj
  rw [List.getElem_range] at he
  rw [he]

theorem idxOf_of_getElem? [DecidableEq α] {xs : List α} (hnodup : xs.Nodup) {i : Nat} {x : α}
    (hi : xs[i]? = some x) : xs.idxOf x = i := by
  obtain ⟨hlt, rfl⟩ := List.getElem?_eq_some_iff.mp hi
  exact hnodup.idxOf_getElem i hlt

/-- What stands at the end of a list stands there in every longer one. -/
theorem getElem?_of_concat_prefix {xs ys : List α} {x : α} (hp : xs ++ [x] <+: ys) :
    ys[xs.length]? = some x := by
  obtain ⟨zs, rfl⟩ := hp
  simp

/-- An entry of a list with one more entry is an old one or the new one. -/
theorem getElem?_concat_cases {xs : List α} {x y : α} {i : Nat} (hi : (xs ++ [x])[i]? = some y) :
    xs[i]? = some y ∨ i = xs.length ∧ y = x := by
  by_cases hlt : i < xs.length
  · exact .inl (by rwa [List.getElem?_append_left hlt] at hi)
  · rw [List.getElem?_append_right (Nat.le_of_not_lt hlt), List.getElem?_singleton] at hi
    by_cases hz : i - xs.length = 0
    · simp only [hz, ↓reduceIte, Option.some.injEq] at hi
      exact .inr ⟨by omega, hi.symm⟩
    · simp [hz] at hi

/-! ### The places of a memo

  The i-th entry of a memo leads to the i-th place. Here `read` reads the places, and `P` says what
  may stand in the place of which entry. -/

section Places

variable {ε : Type} {keys : List α} {P P' : α → β → Prop} {read read' : Nat → Except ε β}
  {a : α} {b : β}

/-- A place is added at the end, and the places of before are as they were. -/
theorem places_concat
    (hold : ∀ {i : Nat} {k : α}, keys[i]? = some k → ∃ x, read i = .ok x ∧ P k x)
    (hread : ∀ {i : Nat} {x : β}, read i = .ok x → read' i = .ok x)
    (hmono : ∀ {k : α} {x : β}, P k x → P' k x) (hnew : read' keys.length = .ok b) (hb : P' a b)
    {i : Nat} {k : α} (hi : (keys ++ [a])[i]? = some k) : ∃ x, read' i = .ok x ∧ P' k x := by
  rcases getElem?_concat_cases hi with hi | ⟨rfl, rfl⟩
  · obtain ⟨x, hx, hp⟩ := hold hi
    exact ⟨x, hread hx, hmono hp⟩
  · exact ⟨b, hnew, hb⟩

/-- One place is filled, and no other place is touched. -/
theorem places_fill {target : Nat} (hnodup : keys.Nodup) (htarget : keys[target]? = some a)
    (hold : ∀ {i : Nat} {k : α}, keys[i]? = some k → ∃ x, read i = .ok x ∧ P k x)
    (hread : ∀ {i : Nat}, i ≠ target → read' i = read i)
    (hmono : ∀ {k : α} {x : β}, k ≠ a → P k x → P' k x) (hfill : read' target = .ok b)
    (hb : P' a b) {i : Nat} {k : α} (hi : keys[i]? = some k) : ∃ x, read' i = .ok x ∧ P' k x := by
  by_cases hit : i = target
  · subst hit
    cases htarget.symm.trans hi
    exact ⟨b, hfill, hb⟩
  · have hne : k ≠ a := by
      -- what has a place has no second one
      rintro rfl
      have hlt := (List.getElem?_eq_some_iff.mp hi).1
      exact hit ((List.getElem?_inj hlt hnodup).mp (hi.trans htarget.symm))
    obtain ⟨x, hx, hp⟩ := hold hi
    exact ⟨x, (hread hit).trans hx, hmono hne hp⟩

end Places

/-! ### The half-built heap -/

variable {h : Heap} {busy : List Node} {c c' : Collector}

/-- What stands in the place of a record: a placeholder while the record is under way, and its
    copy when all of its parts have been relocated. -/
def RecordPlace (h : Heap) (busy : List Node) (s : Survey) (ref : RecordRef) (r' : Record) : Prop :=
  .record ref ∈ busy ∧ r' = .placeholder ∨
    ∃ r, h.record ref = .ok r ∧ (∀ n ∈ r.edges, s.Covers h n) ∧ r' = s.copyRecord h r

/-- What stands in the place of an unbound variable. -/
def VarPlace (h : Heap) (busy : List Node) (s : Survey) (v : VarRef) (cell : Cell) : Prop :=
  .variable v ∈ busy ∧ cell = .unbound [] ∨
    ∃ ls, h.cell v = .ok (.unbound ls) ∧ (∀ n ∈ controls ls, s.Covers h n) ∧ cell = s.copyCell h ls

theorem RecordPlace.mono {busy' : List Node} {s s' : Survey} {ref : RecordRef} {r' : Record}
    (hp : RecordPlace h busy s ref r') (hbusy : .record ref ∈ busy → .record ref ∈ busy')
    (he : s.Extends s') : RecordPlace h busy' s' ref r' := by
  rcases hp with ⟨hm, hr'⟩ | ⟨r, hr, hcov, hr'⟩
  · exact .inl ⟨hbusy hm, hr'⟩
  · exact .inr ⟨r, hr, fun n hn => he.covers (hcov n hn), by rw [hr', he.copyRecord hcov]⟩

theorem VarPlace.mono {busy' : List Node} {s s' : Survey} {v : VarRef} {cell : Cell}
    (hp : VarPlace h busy s v cell) (hbusy : .variable v ∈ busy → .variable v ∈ busy')
    (he : s.Extends s') : VarPlace h busy' s' v cell := by
  rcases hp with ⟨hm, hcell⟩ | ⟨ls, hc, hcov, hcell⟩
  · exact .inl ⟨hbusy hm, hcell⟩
  · exact .inr ⟨ls, hc, fun n hn => he.covers (hcov n hn), by rw [hcell, he.copyCell hcov]⟩

/-- The invariant of a collection out of a heap, with the records and variables `busy` under way. -/
structure HalfBuilt (h : Heap) (busy : List Node) (c : Collector) : Prop where
  settings : c.heap.settings = h.settings
  allocated : c.heap.allocated = c.heap.records.size + c.heap.cells.size
  /-- The entries of the memos lead to the places of the heap, in their order. -/
  recordPlaces : c.records.map Prod.snd = (List.range c.heap.records.size).map RecordRef.mk
  varPlaces : c.vars.map Prod.snd = (List.range c.heap.cells.size).map VarRef.mk
  /-- Nothing has two places. -/
  recordsNodup : c.survey.records.Nodup
  varsNodup : c.survey.vars.Nodup
  /-- Everything that has a place is under way, or has been copied. -/
  record : ∀ {i : Nat} {ref : RecordRef}, c.survey.records[i]? = some ref →
    ∃ r', c.heap.record ⟨i⟩ = .ok r' ∧ RecordPlace h busy c.survey ref r'
  var : ∀ {i : Nat} {v : VarRef}, c.survey.vars[i]? = some v →
    ∃ cell, c.heap.cell ⟨i⟩ = .ok cell ∧ VarPlace h busy c.survey v cell

namespace HalfBuilt

/-! ### What the memos find -/

theorem records_length (hb : HalfBuilt h busy c) :
    c.survey.records.length = c.heap.records.size := by
  have hlen := congrArg List.length hb.recordPlaces
  simpa [survey] using hlen

theorem vars_length (hb : HalfBuilt h busy c) : c.survey.vars.length = c.heap.cells.size := by
  have hlen := congrArg List.length hb.varPlaces
  simpa [survey] using hlen

/-- What the memo has for a record is its place in the survey. -/
theorem of_lookup_record (hb : HalfBuilt h busy c) {source target : RecordRef}
    (hl : c.records.lookup source = some target) :
    source ∈ c.survey.records ∧ target = ⟨c.survey.records.idxOf source⟩ := by
  obtain ⟨hm, hg⟩ := getElem?_of_lookup hl
  rw [hb.recordPlaces] at hg
  exact ⟨hm, eq_of_getElem?_range hg⟩

theorem of_lookup_var (hb : HalfBuilt h busy c) {source target : VarRef}
    (hl : c.vars.lookup source = some target) :
    source ∈ c.survey.vars ∧ target = ⟨c.survey.vars.idxOf source⟩ := by
  obtain ⟨hm, hg⟩ := getElem?_of_lookup hl
  rw [hb.varPlaces] at hg
  exact ⟨hm, eq_of_getElem?_range hg⟩

/-! ### What the steps of a collection keep -/

theorem initial (h : Heap) (busy : List Node) (atoms : AtomTable) :
    HalfBuilt h busy { atoms, heap := { settings := h.settings } } where
  settings := rfl
  allocated := rfl
  recordPlaces := rfl
  varPlaces := rfl
  recordsNodup := List.nodup_nil
  varsNodup := List.nodup_nil
  record := nofun
  var := nofun

theorem intern (hb : HalfBuilt h busy c) (content : String) :
    HalfBuilt h busy { c with atoms := c.atoms.insert content } where
  settings := hb.settings
  allocated := hb.allocated
  recordPlaces := hb.recordPlaces
  varPlaces := hb.varPlaces
  recordsNodup := hb.recordsNodup
  varsNodup := hb.varsNodup
  record hi := by
    obtain ⟨r', hr', hp⟩ := hb.record hi
    exact ⟨r', hr', hp.mono id (.insert c.survey content)⟩
  var hi := by
    obtain ⟨cell, hcell, hp⟩ := hb.var hi
    exact ⟨cell, hcell, hp.mono id (.insert c.survey content)⟩

/-- A place is reserved for a record that has none: it is under way from now on. -/
theorem reserveRecord (hb : HalfBuilt h busy c) {source : RecordRef}
    (hnew : source ∉ c.survey.records) :
    HalfBuilt h (.record source :: busy) { c with
      heap := (c.heap.allocateRecord .placeholder).2
      records := c.records ++ [(source, ⟨c.heap.records.size⟩)] } where
  settings := hb.settings
  allocated := by
    have hcount := hb.allocated
    simp only [Heap.allocateRecord, Array.size_push]
    omega
  recordPlaces := by simp [Heap.allocateRecord, List.range_succ, hb.recordPlaces]
  varPlaces := hb.varPlaces
  recordsNodup := by
    have hnodup : (c.survey.records ++ [source]).Nodup :=
      List.nodup_append_comm.mpr (List.nodup_cons.mpr ⟨hnew, hb.recordsNodup⟩)
    simpa [survey] using hnodup
  varsNodup := hb.varsNodup
  record hi := by
    rw [survey_addRecord] at hi ⊢
    have hplace : (c.heap.allocateRecord .placeholder).2.record ⟨c.survey.records.length⟩ =
        .ok .placeholder := by
      rw [hb.records_length]
      exact Heap.record_allocateRecord_self _ _
    exact places_concat hb.record (fun hr => Heap.record_allocateRecord_of_ok hr _)
      (fun hp => hp.mono (List.mem_cons_of_mem _) (.addRecord c.survey source)) hplace
      (.inl ⟨List.mem_cons_self .., rfl⟩) hi
  var hi := by
    rw [survey_addRecord] at hi ⊢
    obtain ⟨cell, hcell, hp⟩ := hb.var hi
    exact ⟨cell, hcell, hp.mono (List.mem_cons_of_mem _) (.addRecord c.survey source)⟩

/-- A variable is made for an unbound one that has none: it is under way from now on. -/
theorem reserveVariable (hb : HalfBuilt h busy c) {source : VarRef} (hnew : source ∉ c.survey.vars) :
    HalfBuilt h (.variable source :: busy) { c with
      heap := c.heap.allocateVariable.2
      vars := c.vars ++ [(source, ⟨c.heap.cells.size⟩)] } where
  settings := hb.settings
  allocated := by
    have hcount := hb.allocated
    simp only [Heap.allocateVariable, Array.size_push]
    omega
  recordPlaces := hb.recordPlaces
  varPlaces := by simp [Heap.allocateVariable, List.range_succ, hb.varPlaces]
  recordsNodup := hb.recordsNodup
  varsNodup := by
    have hnodup : (c.survey.vars ++ [source]).Nodup :=
      List.nodup_append_comm.mpr (List.nodup_cons.mpr ⟨hnew, hb.varsNodup⟩)
    simpa [survey] using hnodup
  record hi := by
    rw [survey_addVar] at hi ⊢
    obtain ⟨r', hr', hp⟩ := hb.record hi
    exact ⟨r', hr', hp.mono (List.mem_cons_of_mem _) (.addVar c.survey source)⟩
  var hi := by
    rw [survey_addVar] at hi ⊢
    have hplace : c.heap.allocateVariable.2.cell ⟨c.survey.vars.length⟩ = .ok (.unbound []) := by
      rw [hb.vars_length]
      exact Heap.cell_eq_ok_iff.mpr (by simp [Heap.allocateVariable])
    exact places_concat hb.var Heap.cell_allocateVariable_of_ok
      (fun hp => hp.mono (List.mem_cons_of_mem _) (.addVar c.survey source)) hplace
      (.inl ⟨List.mem_cons_self .., rfl⟩) hi

/-- A place is filled with the copy of its record: the record is not under way any more. -/
theorem fillRecord {source : RecordRef} (hb : HalfBuilt h (.record source :: busy) c)
    {target : RecordRef} {r : Record} (htarget : c.survey.records[target.index]? = some source)
    (hr : h.record source = .ok r) (hcov : ∀ n ∈ r.edges, c.survey.Covers h n) :
    HalfBuilt h busy
      { c with heap := c.heap.replaceRecord target (c.survey.copyRecord h r) } where
  settings := hb.settings
  allocated := by simpa [Heap.replaceRecord] using hb.allocated
  recordPlaces := by simpa [Heap.replaceRecord] using hb.recordPlaces
  varPlaces := hb.varPlaces
  recordsNodup := hb.recordsNodup
  varsNodup := hb.varsNodup
  record hi := by
    have hin : target.index < c.heap.records.size := by
      rw [← hb.records_length]
      exact (List.getElem?_eq_some_iff.mp htarget).1
    have hplace : RecordPlace h busy c.survey source (c.survey.copyRecord h r) :=
      .inr ⟨r, hr, hcov, rfl⟩
    have hread : ∀ {i : Nat}, i ≠ target.index →
        (c.heap.replaceRecord target (c.survey.copyRecord h r)).record ⟨i⟩ = c.heap.record ⟨i⟩ :=
      fun hne => Heap.record_replaceRecord_ne _ fun he => hne (congrArg RecordRef.index he)
    refine places_fill hb.recordsNodup htarget hb.record hread (fun hne hp => ?_)
      (Heap.record_replaceRecord_self _ hin) hplace hi
    refine hp.mono (fun hm => ?_) (.refl _)
    exact (List.mem_cons.mp hm).resolve_left fun he => hne (Node.record.inj he)
  var hi := by
    obtain ⟨cell, hcell, hp⟩ := hb.var hi
    refine ⟨cell, hcell, hp.mono (fun hm => ?_) (.refl _)⟩
    simpa using hm

/-- A variable is given those who listen to it: it is not under way any more. -/
theorem fillVariable {source : VarRef} (hb : HalfBuilt h (.variable source :: busy) c)
    {target : VarRef} {ls : List Listener} (htarget : c.survey.vars[target.index]? = some source)
    (hc : h.cell source = .ok (.unbound ls)) (hcov : ∀ n ∈ controls ls, c.survey.Covers h n) :
    HalfBuilt h busy { c with heap := c.heap.setCell target (c.survey.copyCell h ls) } where
  settings := hb.settings
  allocated := by simpa [Heap.setCell] using hb.allocated
  recordPlaces := hb.recordPlaces
  varPlaces := by simpa [Heap.setCell] using hb.varPlaces
  recordsNodup := hb.recordsNodup
  varsNodup := hb.varsNodup
  record hi := by
    obtain ⟨r', hr', hp⟩ := hb.record hi
    refine ⟨r', hr', hp.mono (fun hm => ?_) (.refl _)⟩
    simpa using hm
  var hi := by
    have hin : target.index < c.heap.cells.size := by
      rw [← hb.vars_length]
      exact (List.getElem?_eq_some_iff.mp htarget).1
    have hplace : VarPlace h busy c.survey source (c.survey.copyCell h ls) :=
      .inr ⟨ls, hc, hcov, rfl⟩
    have hread : ∀ {i : Nat}, i ≠ target.index →
        (c.heap.setCell target (c.survey.copyCell h ls)).cell ⟨i⟩ = c.heap.cell ⟨i⟩ :=
      fun hne => Heap.cell_setCell_ne _ fun he => hne (congrArg VarRef.index he)
    refine places_fill hb.varsNodup htarget hb.var hread (fun hne hp => ?_)
      (Heap.cell_setCell_self _ hin) hplace hi
    refine hp.mono (fun hm => ?_) (.refl _)
    exact (List.mem_cons.mp hm).resolve_left fun he => hne (Node.variable.inj he)

/-! ### The heap when nothing is under way -/

theorem record_done (hb : HalfBuilt h [] c) {i : Nat} {ref : RecordRef}
    (hi : c.survey.records[i]? = some ref) : ∃ r, h.record ref = .ok r ∧
      c.heap.record ⟨i⟩ = .ok (c.survey.copyRecord h r) := by
  obtain ⟨r', hr', hp⟩ := hb.record hi
  rcases hp with ⟨hm, -⟩ | ⟨r, hr, -, rfl⟩
  · cases hm
  · exact ⟨r, hr, hr'⟩

theorem var_done (hb : HalfBuilt h [] c) {i : Nat} {v : VarRef}
    (hi : c.survey.vars[i]? = some v) : ∃ ls, h.cell v = .ok (.unbound ls) ∧
      c.heap.cell ⟨i⟩ = .ok (c.survey.copyCell h ls) := by
  obtain ⟨cell, hcell, hp⟩ := hb.var hi
  rcases hp with ⟨hm, -⟩ | ⟨ls, hc, -, rfl⟩
  · cases hm
  · exact ⟨ls, hc, hcell⟩

/-- The heap is the heap of the copies. -/
theorem copyHeap_eq (hb : HalfBuilt h [] c) : c.survey.copyHeap h = .ok c.heap := by
  have hrecords : c.survey.records.mapM
      (fun ref => do return c.survey.copyRecord h (← h.record ref)) =
        .ok c.heap.records.toList := by
    refine mapM_of_getElem? (by simpa using hb.records_length) fun i ref hi => ?_
    obtain ⟨r, hr, hr'⟩ := hb.record_done hi
    exact ⟨_, by simpa using Heap.record_eq_ok_iff.mp hr', by rw [hr, ok_bind]; rfl⟩
  have hcells : c.survey.vars.mapM
      (fun v => do return c.survey.copyCell h (← h.listeners v)) = .ok c.heap.cells.toList := by
    refine mapM_of_getElem? (by simpa using hb.vars_length) fun i v hi => ?_
    obtain ⟨ls, hc, hc'⟩ := hb.var_done hi
    refine ⟨_, by simpa using Heap.cell_eq_ok_iff.mp hc', ?_⟩
    rw [Survey.listeners_of_unbound hc, ok_bind]
    rfl
  rw [Survey.copyHeap, hrecords, ok_bind, hcells, ok_bind, hb.records_length, hb.vars_length,
    ← hb.allocated, ← hb.settings]
  rfl

/-- Two collectors that are done are the same if they have made the same survey. -/
theorem unique (hb : HalfBuilt h [] c) (hb' : HalfBuilt h [] c') (hs : c.survey = c'.survey) :
    c = c' := by
  have hheap : c.heap = c'.heap := by
    have he := hb.copyHeap_eq
    rw [hs, hb'.copyHeap_eq] at he
    exact (Except.ok.inj he).symm
  have hatoms : c.atoms = c'.atoms := congrArg Survey.atoms hs
  -- the entries of a memo are the survey beside the places
  have hrecords : c.records = c'.records := by
    calc c.records
        = c.survey.records.zip ((List.range c.heap.records.size).map RecordRef.mk) :=
          List.zip_of_prod rfl hb.recordPlaces
      _ = c'.survey.records.zip ((List.range c'.heap.records.size).map RecordRef.mk) := by
          rw [hs, hheap]
      _ = c'.records := (List.zip_of_prod rfl hb'.recordPlaces).symm
  have hvars : c.vars = c'.vars := by
    calc c.vars
        = c.survey.vars.zip ((List.range c.heap.cells.size).map VarRef.mk) :=
          List.zip_of_prod rfl hb.varPlaces
      _ = c'.survey.vars.zip ((List.range c'.heap.cells.size).map VarRef.mk) := by
          rw [hs, hheap]
      _ = c'.vars := (List.zip_of_prod rfl hb'.varPlaces).symm
  cases c
  cases c'
  simp_all

end HalfBuilt

end Collector

end Dataflow
