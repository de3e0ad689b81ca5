import Dataflow.Proofs.Deref

/-! # How a heap grows

  Between two collections a heap only grows: records stay as they are, a bound variable keeps
  its value, and an unbound one keeps those who wait for it until it is bound. `Heap.Grows`
  says so of two heaps, and dereferencing is followed along it.

  A heap is *grounded* if every variable in it can be dereferenced. No change of the heap
  ties a chain of variables into a circle, so heaps stay grounded.
-/

namespace Dataflow.Heap

variable {h h' h'' : Heap}

/-! ### Growth -/

/-- The second heap is a later state of the first, with no collection between them. -/
structure Grows (h h' : Heap) : Prop where
  /-- Records stay as they are. -/
  record : ∀ {ref : RecordRef} {r : Record}, h.record ref = .ok r → h'.record ref = .ok r
  /-- A bound variable keeps its value. -/
  bound : ∀ {v : VarRef} {x : Node}, h.cell v = .ok (.bound x) → h'.cell v = .ok (.bound x)
  /-- An unbound variable keeps its listeners, in front of new ones, or is bound. -/
  unbound : ∀ {v : VarRef} {ls : List Listener}, h.cell v = .ok (.unbound ls) →
    (∃ ms, h'.cell v = .ok (.unbound (ls ++ ms))) ∨ ∃ x, h'.cell v = .ok (.bound x)

theorem Grows.refl (h : Heap) : h.Grows h where
  record hr := hr
  bound hc := hc
  unbound hc := .inl ⟨[], by simpa using hc⟩

theorem Grows.trans (hg : h.Grows h') (hg' : h'.Grows h'') : h.Grows h'' where
  record hr := hg'.record (hg.record hr)
  bound hc := hg'.bound (hg.bound hc)
  unbound hc := by
    rcases hg.unbound hc with ⟨ms, hc⟩ | ⟨x, hc⟩
    · rcases hg'.unbound hc with ⟨ms', hc⟩ | ⟨x, hc⟩
      · exact .inl ⟨ms ++ ms', by simpa using hc⟩
      · exact .inr ⟨x, hc⟩
    · exact .inr ⟨x, hg'.bound hc⟩

/-- What a variable of the grown heap was, if it existed before. -/
theorem Grows.unbound_before (hg : h.Grows h') {v : VarRef} {c : Cell} {ls : List Listener}
    (hc : h.cell v = .ok c) (hc' : h'.cell v = .ok (.unbound ls)) :
    ∃ ls₀ ms, c = .unbound ls₀ ∧ ls = ls₀ ++ ms := by
  cases c with
  | bound x => rw [hg.bound hc] at hc'; cases hc'
  | unbound ls₀ =>
    rcases hg.unbound hc with ⟨ms, h1⟩ | ⟨x, h1⟩
    · rw [h1] at hc'; cases hc'; exact ⟨ls₀, ms, rfl, rfl⟩
    · rw [h1] at hc'; cases hc'

/-- What a node stood for still stands for the same. -/
theorem Grows.deref (hg : h.Grows h') {n d : Node} (hd : h.deref n = .ok d) :
    h'.deref n = h'.deref d := by
  refine deref_induct (motive := fun n d => h'.deref n = h'.deref d) ?_ ?_ ?_ hd
  · intro n _; rfl
  · intro v ls _; rfl
  · intro v x d hc _ ih
    rw [deref_bound (hg.bound hc), ih]

/-- A value, once there, stays. -/
theorem Grows.deref_value (hg : h.Grows h') {n d : Node} (hd : h.deref n = .ok d)
    (hv : d.asVariable? = none) : h'.deref n = .ok d := by
  rw [hg.deref hd, deref_of_value hv]

/-- While the variable that a node leads to is unbound, the node leads to it. -/
theorem Grows.deref_unbound (hg : h.Grows h') {n : Node} {v : VarRef} {ls : List Listener}
    (hd : h.deref n = .ok (.variable v)) (hc : h'.cell v = .ok (.unbound ls)) :
    h'.deref n = .ok (.variable v) := by
  rw [hg.deref hd, Heap.deref_unbound hc]

theorem Grows.isDetermined (hg : h.Grows h') {n : Node} (hd : h.isDetermined n = .ok true) :
    h'.isDetermined n = .ok true := by
  unfold Heap.isDetermined at hd
  obtain ⟨d, hd, hv⟩ := bind_eq_ok.mp hd
  have hn : d.asVariable? = none := by
    cases d <;> simp [pure, Except.pure, Node.asVariable?] at hv ⊢
  rw [isDetermined_eq (hg.deref_value hd hn), hn]
  rfl

/-- While no variable is bound, a node leads to what it led to. -/
theorem Grows.keeps (hg : h.Grows h') (hstays : ∀ {v : VarRef} {ls : List Listener},
    h.cell v = .ok (.unbound ls) → ∃ ls', h'.cell v = .ok (.unbound ls')) {n d : Node}
    (hd : h.deref n = .ok d) : h'.deref n = .ok d := by
  rcases d.value_or_variable with hv | ⟨v, rfl⟩
  · exact hg.deref_value hd hv
  · obtain ⟨ls, hc⟩ := cell_of_deref hd
    obtain ⟨ls', hc'⟩ := hstays hc
    exact hg.deref_unbound hd hc'

/-! ### Single changes -/

/-- A change of the cells alone leaves the records. -/
theorem record_congr (hrecords : h'.records = h.records) (ref : RecordRef) :
    h'.record ref = h.record ref := by
  simp [record, hrecords]

theorem cell_congr (hcells : h'.cells = h.cells) (v : VarRef) : h'.cell v = h.cell v := by
  simp [cell, hcells]

theorem Grows.of_cells_eq (hrecords : ∀ {ref r}, h.record ref = .ok r → h'.record ref = .ok r)
    (hcells : h'.cells = h.cells) : h.Grows h' where
  record := hrecords
  bound hc := by rw [cell_congr hcells]; exact hc
  unbound hc := .inl ⟨[], by rw [cell_congr hcells]; simpa using hc⟩

/-- The records after a new one: the old ones, and the new one. -/
theorem record_allocateRecord {ref : RecordRef} {r new : Record} :
    (h.allocateRecord new).2.record ref = .ok r ↔
      h.record ref = .ok r ∨ ref = (h.allocateRecord new).1 ∧ r = new := by
  constructor
  · intro hr
    rw [record_eq_ok_iff] at hr
    simp only [allocateRecord, Array.getElem?_push] at hr
    split at hr
    · next href =>
      cases hr
      exact .inr ⟨by cases ref; simp_all [allocateRecord], rfl⟩
    · exact .inl (record_eq_ok_iff.mpr hr)
  · rintro (hr | ⟨rfl, rfl⟩)
    · exact record_allocateRecord_of_ok hr new
    · exact record_allocateRecord_self h r

theorem grows_allocateRecord (h : Heap) (r : Record) : h.Grows (h.allocateRecord r).2 :=
  Grows.of_cells_eq (fun hr => record_allocateRecord_of_ok hr r) rfl

/-- The cells after a new variable: the old ones, and the new one unbound. -/
theorem cell_allocateVariable {v : VarRef} {c : Cell} :
    h.allocateVariable.2.cell v = .ok c ↔
      h.cell v = .ok c ∨ v = h.allocateVariable.1 ∧ c = .unbound [] := by
  constructor
  · intro hc
    rw [cell_eq_ok_iff] at hc
    simp only [allocateVariable, Array.getElem?_push] at hc
    split at hc
    · next hv =>
      cases hc
      exact .inr ⟨by cases v; simp_all [allocateVariable], rfl⟩
    · exact .inl (cell_eq_ok_iff.mpr hc)
  · rintro (hc | ⟨rfl, rfl⟩)
    · exact cell_allocateVariable_of_ok hc
    · rw [cell_eq_ok_iff]
      simp [allocateVariable]

theorem grows_allocateVariable (h : Heap) : h.Grows h.allocateVariable.2 where
  record hr := hr
  bound hc := cell_allocateVariable_of_ok hc
  unbound hc := .inl ⟨[], by simpa using cell_allocateVariable_of_ok hc⟩

theorem cell_setCell {v w : VarRef} {c : Cell} (hv : v.index < h.cells.size) :
    (h.setCell v c).cell w = if w = v then .ok c else h.cell w := by
  split
  · next hw => rw [hw]; exact cell_setCell_self c hv
  · next hw => exact cell_setCell_ne c hw

theorem grows_setCell {v : VarRef} {ls : List Listener} {c : Cell}
    (hc : h.cell v = .ok (.unbound ls))
    (hnew : (∃ ms, c = .unbound (ls ++ ms)) ∨ ∃ x, c = .bound x) :
    h.Grows (h.setCell v c) where
  record hr := hr
  bound {w x} hw := by
    rw [cell_setCell (lt_of_cell hc)]
    split
    · next e => rw [e, hc] at hw; cases hw
    · exact hw
  unbound {w ks} hw := by
    rw [cell_setCell (lt_of_cell hc)]
    split
    · next e =>
      rw [e, hc] at hw
      cases hw
      rcases hnew with ⟨ms, rfl⟩ | ⟨x, rfl⟩
      · exact .inl ⟨ms, rfl⟩
      · exact .inr ⟨x, rfl⟩
    · exact .inl ⟨[], by simpa using hw⟩

/-! ### Listening -/

/-- Adding a listener to an unbound variable. -/
theorem addListener_unbound {v : VarRef} {ls : List Listener}
    (hc : h.cell v = .ok (.unbound ls)) (l : Listener) :
    h.addListener v l =
      .ok (true, if l ∈ ls then h else h.setCell v (.unbound (ls ++ [l]))) := by
  rw [addListener, hc]
  by_cases hl : l ∈ ls
  · simp [hl, bind, Except.bind, pure, Except.pure]
  · simp [hl, bind, Except.bind, pure, Except.pure]

/-- What adding a listener does: the variable is unbound and has the listener now, or it is bound
    and nothing has changed. -/
theorem addListener_cases {v : VarRef} {l : Listener} {parked : Bool}
    (ha : h.addListener v l = .ok (parked, h')) :
    (parked = true ∧ ∃ ls, h.cell v = .ok (.unbound ls) ∧
      (l ∈ ls ∧ h' = h ∨ l ∉ ls ∧ h' = h.setCell v (.unbound (ls ++ [l])))) ∨
    (parked = false ∧ h' = h ∧ ∃ x, h.cell v = .ok (.bound x)) := by
  unfold addListener at ha
  obtain ⟨c, hc, ha⟩ := bind_eq_ok.mp ha
  cases c with
  | bound x =>
    simp only [pure_eq_ok, Prod.mk.injEq] at ha
    exact .inr ⟨ha.1.symm, ha.2.symm, x, hc⟩
  | unbound ls =>
    refine .inl ?_
    by_cases hl : l ∈ ls
    · simp only [hl, ↓reduceIte, pure_eq_ok, Prod.mk.injEq] at ha
      exact ⟨ha.1.symm, ls, hc, .inl ⟨hl, ha.2.symm⟩⟩
    · simp only [hl, ↓reduceIte, pure_eq_ok, Prod.mk.injEq] at ha
      exact ⟨ha.1.symm, ls, hc, .inr ⟨hl, ha.2.symm⟩⟩

theorem grows_addListener {v : VarRef} {l : Listener} {parked : Bool}
    (ha : h.addListener v l = .ok (parked, h')) : h.Grows h' := by
  rcases addListener_cases ha with ⟨-, ls, hc, ⟨-, rfl⟩ | ⟨-, rfl⟩⟩ | ⟨-, rfl, -⟩
  · exact Grows.refl _
  · exact grows_setCell hc (.inl ⟨[l], rfl⟩)
  · exact Grows.refl _

theorem records_addListener {v : VarRef} {l : Listener} {parked : Bool}
    (ha : h.addListener v l = .ok (parked, h')) : h'.records = h.records := by
  rcases addListener_cases ha with ⟨-, ls, -, ⟨-, rfl⟩ | ⟨-, rfl⟩⟩ | ⟨-, rfl, -⟩ <;> rfl

/-- The listeners of a variable after adding one to another or to itself. -/
theorem cell_addListener {v w : VarRef} {l : Listener} {parked : Bool} {c : Cell}
    (ha : h.addListener v l = .ok (parked, h')) (hc : h'.cell w = .ok c) :
    h.cell w = .ok c ∨
      w = v ∧ ∃ ls, h.cell v = .ok (.unbound ls) ∧ l ∉ ls ∧ c = .unbound (ls ++ [l]) := by
  rcases addListener_cases ha with ⟨-, ls, hv, ⟨-, rfl⟩ | ⟨hl, rfl⟩⟩ | ⟨-, rfl, -⟩
  · exact .inl hc
  · rw [cell_setCell (lt_of_cell hv)] at hc
    split at hc
    · next e => cases hc; exact .inr ⟨e, ls, hv, hl, rfl⟩
    · exact .inl hc
  · exact .inl hc

/-- The variable is unbound, and the listener is among those who wait for it. -/
def Listens (h : Heap) (l : Listener) (v : VarRef) : Prop :=
  ∃ ls, h.cell v = .ok (.unbound ls) ∧ l ∈ ls

theorem Listens.unbound {l : Listener} {v : VarRef} (hl : h.Listens l v) :
    ∃ ls, h.cell v = .ok (.unbound ls) :=
  hl.imp fun _ hls => hls.1

/-- Listeners stay as long as the variable is unbound. -/
theorem Grows.listens (hg : h.Grows h') {l : Listener} {v : VarRef} {ks : List Listener}
    (hl : h.Listens l v) (hv : h'.cell v = .ok (.unbound ks)) : h'.Listens l v := by
  obtain ⟨ls, hc, hm⟩ := hl
  -- new listeners stand behind the old ones
  obtain ⟨ls₀, ms, he, rfl⟩ := hg.unbound_before hc hv
  cases he
  exact ⟨_, hv, List.mem_append_left _ hm⟩

/-- An unbound variable takes a listener. -/
theorem listens_of_addListener {v : VarRef} {l : Listener} {parked : Bool} {ls : List Listener}
    (hv : h.cell v = .ok (.unbound ls)) (ha : h.addListener v l = .ok (parked, h')) :
    parked = true ∧ h'.Listens l v := by
  rcases addListener_cases ha with ⟨rfl, ls, hc, ⟨hl, rfl⟩ | ⟨-, rfl⟩⟩ | ⟨-, -, x, hc⟩
  · exact ⟨rfl, ls, hc, hl⟩
  · exact ⟨rfl, _, cell_setCell_self _ (lt_of_cell hc), by simp⟩
  · rw [hc] at hv; cases hv

/-- Adding a listener binds no variable. -/
theorem unbound_addListener {v w : VarRef} {l : Listener} {parked : Bool} {ls : List Listener}
    (ha : h.addListener v l = .ok (parked, h')) (hw : h.cell w = .ok (.unbound ls)) :
    ∃ ks, h'.cell w = .ok (.unbound ks) := by
  rcases addListener_cases ha with ⟨-, ks, hc, ⟨-, rfl⟩ | ⟨-, rfl⟩⟩ | ⟨-, rfl, -⟩
  · exact ⟨ls, hw⟩
  · rw [cell_setCell (lt_of_cell hc)]
    by_cases hwv : w = v
    · exact ⟨_, if_pos hwv⟩
    · exact ⟨ls, by rw [if_neg hwv]; exact hw⟩
  · exact ⟨ls, hw⟩

/-- Adding a listener removes no variable. -/
theorem exists_cell_addListener {v w : VarRef} {l : Listener} {parked : Bool} {c : Cell}
    (ha : h.addListener v l = .ok (parked, h')) (hw : h.cell w = .ok c) :
    ∃ c', h'.cell w = .ok c' := by
  cases c with
  | bound x => exact ⟨_, (grows_addListener ha).bound hw⟩
  | unbound ls =>
    obtain ⟨ks, hk⟩ := unbound_addListener ha hw
    exact ⟨_, hk⟩

/-- Who listens still listens when a listener is added. -/
theorem Listens.addListener {v w : VarRef} {l l' : Listener} {parked : Bool}
    (hl : h.Listens l' w) (ha : h.addListener v l = .ok (parked, h')) : h'.Listens l' w := by
  obtain ⟨ls, hc⟩ := hl.unbound
  obtain ⟨ks, hk⟩ := unbound_addListener ha hc
  exact (grows_addListener ha).listens hl hk

/-- Who listens after a listener was added listened before, or is the one that was added. -/
theorem listens_before_addListener {v w : VarRef} {l l' : Listener} {parked : Bool}
    (ha : h.addListener v l = .ok (parked, h')) (hl : h'.Listens l' w) :
    h.Listens l' w ∨ l' = l ∧ w = v := by
  obtain ⟨ks, hk, hm⟩ := hl
  rcases cell_addListener ha hk with hk | ⟨rfl, ls, hc, -, he⟩
  · exact .inl ⟨ks, hk, hm⟩
  · cases he
    rcases List.mem_append.mp hm with hm | hm
    · exact .inl ⟨ls, hc, hm⟩
    · exact .inr ⟨List.mem_singleton.mp hm, rfl⟩

/-! ### Grounded heaps -/

/-- Every variable of the heap can be dereferenced. -/
def Grounded (h : Heap) : Prop :=
  ∀ {v : VarRef} {c : Cell}, h.cell v = .ok c → ∃ d, h.deref (.variable v) = .ok d

/-- A heap that binds no further variable stays grounded. -/
theorem Grounded.of_grows (hground : h.Grounded) (hg : h.Grows h')
    (hold : ∀ {v x}, h'.cell v = .ok (.bound x) → h.cell v = .ok (.bound x)) : h'.Grounded := by
  intro v c hc
  cases c with
  | unbound ls => exact ⟨_, Heap.deref_unbound hc⟩
  | bound x =>
    obtain ⟨d, hd⟩ := hground (hold hc)
    rcases d.value_or_variable with hdv | ⟨u, rfl⟩
    · exact ⟨d, hg.deref_value hd hdv⟩
    · obtain ⟨ls, hu⟩ := cell_of_deref hd
      -- the old path ends at an unbound variable, which has not been bound since
      rcases hg.unbound hu with ⟨ms, hu'⟩ | ⟨y, hu'⟩
      · exact ⟨_, hg.deref_unbound hd hu'⟩
      · rw [hold hu'] at hu; cases hu

theorem Grounded.allocateRecord (hground : h.Grounded) (r : Record) :
    (h.allocateRecord r).2.Grounded :=
  hground.of_grows (grows_allocateRecord h r) fun hc => hc

theorem Grounded.allocateVariable (hground : h.Grounded) : h.allocateVariable.2.Grounded := by
  refine hground.of_grows (grows_allocateVariable h) fun hc => ?_
  rcases cell_allocateVariable.mp hc with hc | ⟨-, hc⟩
  · exact hc
  · cases hc

theorem Grounded.addListener (hground : h.Grounded) {v : VarRef} {l : Listener} {parked : Bool}
    (ha : h.addListener v l = .ok (parked, h')) : h'.Grounded := by
  refine hground.of_grows (grows_addListener ha) fun hc => ?_
  rcases cell_addListener ha hc with hc | ⟨-, ls, -, -, hc⟩
  · exact hc
  · cases hc

/-- What leads elsewhere than to a variable is not changed by binding it. -/
theorem deref_setCell_bound {v : VarRef} {ls : List Listener} {x n d : Node}
    (hc : h.cell v = .ok (.unbound ls)) (hd : h.deref n = .ok d) (hne : d ≠ .variable v) :
    (h.setCell v (.bound x)).deref n = .ok d := by
  rw [(grows_setCell hc (.inr ⟨x, rfl⟩)).deref hd]
  rcases d.value_or_variable with hdv | ⟨u, rfl⟩
  · exact deref_of_value hdv
  · obtain ⟨ks, hu⟩ := cell_of_deref hd
    have huv : u ≠ v := fun e => hne (by rw [e])
    exact Heap.deref_unbound (by rw [cell_setCell_ne _ huv]; exact hu)

/-- Binding an unbound variable to something that does not lead back to it closes no circle. -/
theorem Grounded.setCell_bound (hground : h.Grounded) {v : VarRef} {ls : List Listener} {x d : Node}
    (hc : h.cell v = .ok (.unbound ls)) (hd : h.deref x = .ok d) (hne : d ≠ .variable v) :
    (h.setCell v (.bound x)).Grounded := by
  have hv : (h.setCell v (.bound x)).deref (.variable v) = .ok d := by
    rw [deref_bound (cell_setCell_self _ (lt_of_cell hc))]
    exact deref_setCell_bound hc hd hne
  intro w c hw
  -- a path that ended at `v` now goes on to where `x` leads; all others end where they did
  by_cases hwv : w = v
  · exact ⟨d, by rw [hwv]; exact hv⟩
  · rw [cell_setCell_ne _ hwv] at hw
    obtain ⟨e, he⟩ := hground hw
    by_cases hev : e = .variable v
    · refine ⟨d, ?_⟩
      rw [(grows_setCell hc (.inr ⟨x, rfl⟩)).deref he, hev]
      exact hv
    · exact ⟨e, deref_setCell_bound hc he hev⟩

/-- In a grounded heap everything that is not dangling can be dereferenced. -/
theorem Grounded.deref (hground : h.Grounded) {n : Node}
    (hn : ∀ v, n = .variable v → ∃ c, h.cell v = .ok c) : ∃ d, h.deref n = .ok d := by
  rcases n.value_or_variable with hv | ⟨v, rfl⟩
  · exact ⟨n, deref_of_value hv⟩
  · obtain ⟨c, hc⟩ := hn v rfl
    exact hground hc

end Dataflow.Heap
