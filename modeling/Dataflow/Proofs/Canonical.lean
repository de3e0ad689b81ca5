import Dataflow.Proofs.Bisimilarity

/-! # Records are canonical

  Every record of a reachable machine is canonical. Records come into a heap in few ways: the host
  builds them from fields in any order, a call that fails makes the two records of an exception, and
  a collection copies them. A copy keeps the form: its features are the old ones but for the tables
  of their atoms, which do not count in their order.

  So whether two records have the same features can be read off their arities, and this is how
  records are compared.
-/

namespace Dataflow

theorem Literal.isLiteral_toNode (l : Literal) : l.toNode.isLiteral = true := by
  simp [Node.isLiteral]

theorem Feature.isFeature_toNode (f : Feature) : f.toNode.isFeature = true := by
  simp [Node.isFeature]

theorem Literal.toNode_injective {l k : Literal} (he : l.toNode = k.toNode) : l = k := by
  have hlk := congrArg Node.asLiteral? he
  simpa using hlk

theorem Feature.toNode_injective {f g : Feature} (he : f.toNode = g.toNode) : f = g := by
  have hfg := congrArg Node.asFeature? he
  simpa using hfg

/-! ### Copies -/

/-- The copy of a canonical record is canonical if its features count as equal to the old ones. -/
theorem Record.IsImage.canonical {φ : Node → Node} {r r' : Record} (him : r.IsImage φ r')
    (hφ : ∀ names, r.arity = .features names → ∀ f ∈ names, ∀ f' : Feature,
      f'.toNode = φ f.toNode → f.compare f' = .eq)
    (hr : r.Canonical) : r'.Canonical := by
  have hwidth : r'.width = r.width := by
    rw [Record.width, him.fields, List.length_map]
    rfl
  have hne : r'.fields ≠ [] := by
    rw [him.fields]
    simpa using hr.nonempty
  rcases him.arity with ⟨-, ha'⟩ | ⟨names, names', ha, ha', hnames⟩
  · refine ⟨hne, him.balanced hr.balanced, ?_, fun names hn => ?_⟩
    · rw [Record.features, ha']
      exact Feature.ascending_countFrom 1 _
    · rw [ha'] at hn
      cases hn
  · have hfeatures : r.features = names := by rw [Record.features, ha]
    have hfeatures' : r'.features = names' := by rw [Record.features, ha']
    -- the features of the copy count as equal to the old ones, one by one
    have heq : List.Forall₂ (fun f f' => f.compare f' = .eq) names names' := by
      have hall : List.Forall₂ Eq (names'.map Feature.toNode) (names.map fun f => φ f.toNode) := by
        rw [hnames]
        exact List.forall₂_refl _
      rw [List.forall₂_map_left_iff, List.forall₂_map_right_iff] at hall
      have hmem := (List.forall₂_and_left _ _).mpr ⟨fun f (hf : f ∈ names) => hf, hall.flip⟩
      exact hmem.imp fun f f' hff' => hφ names ha f hff'.1 f' hff'.2
    refine ⟨hne, him.balanced hr.balanced, ?_, fun ns hn => ?_⟩
    · have hascending := hr.ascending
      rw [hfeatures] at hascending
      rw [hfeatures']
      exact hascending.congr heq
    · rw [ha'] at hn
      cases hn
      rw [hwidth]
      rintro rfl
      exact hr.stored names ha (Feature.eq_countFrom heq)

/-- Every record of the heap is canonical. -/
def Heap.Canonical (h : Heap) : Prop :=
  ∀ {ref : RecordRef} {r : Record}, h.record ref = .ok r → r.Canonical

namespace Machine

variable {m m' : Machine} {φ : Node → Node}

/-- A collection moves a feature to one that counts as equal. -/
theorem Relocation.compare_image (hr : Relocation m m' φ) {f f' : Feature} (hf : m.Live f.toNode)
    (he : f'.toNode = φ f.toNode) : f.compare f' = .eq := by
  rcases f with i | a | b | _
  · rw [hr.inline hf rfl] at he
    rw [Feature.toNode_injective he]
    exact Std.ReflCmp.compare_self
  · have hnode : f'.toNode = (Feature.literal (.atom ⟨m'.atoms.id, a.content⟩)).toNode :=
      he.trans (hr.atom hf).1
    rw [Feature.toNode_injective hnode, Feature.compare_atom]
    exact Std.ReflCmp.compare_self
  · rw [hr.inline hf rfl] at he
    rw [Feature.toNode_injective he]
    exact Std.ReflCmp.compare_self
  · rw [hr.inline hf rfl] at he
    rw [Feature.toNode_injective he]
    rfl

/-! ### All reachable machines -/

theorem canonical_collect (hcanon : m.heap.Canonical) (hc : m.collect = .ok m') :
    m'.heap.Canonical := by
  intro ref' r' hr'
  obtain ⟨φ, hrel⟩ := relocation_of_collect hc
  obtain ⟨ref, r, hlive, hr, -, him⟩ := hrel.record_before hr'
  refine him.canonical (fun names ha f hf f' he => hrel.compare_image ?_ he) (hcanon hr)
  exact .edge hlive hr (Heap.feature_mem_edges ha hf)

/-- A change adds canonical records only. -/
theorem record_of_change (hc : Change m m') {ref : RecordRef} {r : Record}
    (hr : m'.heap.record ref = .ok r) : m.heap.record ref = .ok r ∨ r.Canonical := by
  cases hc with
  | allocate hnew =>
    rcases Heap.record_allocateRecord.mp hr with hr | ⟨-, rfl⟩
    · exact .inl hr
    · exact .inr hnew
  | listen _ ha =>
    rw [Heap.record_congr (Heap.records_addListener ha)] at hr
    exact .inl hr
  | bind hb =>
    rw [Heap.record_congr (records_of_bind hb)] at hr
    exact .inl hr
  | _ => exact .inl hr

theorem canonical_change (hcanon : m.heap.Canonical) (hc : Change m m') : m'.heap.Canonical := by
  intro ref r hr
  rcases record_of_change hc hr with hr | hnew
  · exact hcanon hr
  · exact hnew

theorem Reachable.canonical (hm : Reachable m) : m.heap.Canonical := by
  refine hm.heap_invariant ?_ (fun hcanon _ _ hr => (hcanon hr).balanced) canonical_change ?_
    canonical_collect
  · intro id c ref r hr
    have hr := Heap.record_eq_ok_iff.mp hr
    simp [Machine.new] at hr
  · intro h h' v id parked hcanon ha ref r hr
    rw [Heap.record_congr (Heap.records_addListener ha)] at hr
    exact hcanon hr

/-- Every record of a reachable machine has a literal for its label, has features that are integers
    or literals, and is canonical. Two records whose atoms belong to the machine are found to have
    the same arity exactly if they have the same set of features. -/
theorem Reachable.records_canonical (hm : Reachable m) :
    (∀ ref r, m.heap.record ref = .ok r → r.label.toNode.isLiteral = true ∧
      (∀ f ∈ r.features, f.toNode.isFeature = true) ∧ r.Canonical) ∧
    ∀ a b r s, m.heap.record a = .ok r → m.heap.record b = .ok s →
      (∀ f ∈ r.features ++ s.features, m.heap.Fits m.id f.toNode) →
      ∃ same, r.sameArity m.id s = .ok same ∧
        (same = true ↔ ∀ f, f ∈ r.features ↔ f ∈ s.features) := by
  refine ⟨fun ref r hr => ?_, fun a b r s hr hs hown => ?_⟩
  · exact ⟨r.label.isLiteral_toNode, fun f _ => f.isFeature_toNode, hm.canonical hr⟩
  · have hcr := hm.canonical hr
    have hcs := hm.canonical hs
    have hstored : ∀ {q : Record}, q.features ⊆ r.features ++ s.features → ∀ names,
        q.arity = .features names → ∀ f ∈ names, m.heap.Fits m.id f.toNode := by
      intro q hq names ha f hf
      refine hown f (hq ?_)
      rw [Record.features, ha]
      exact hf
    obtain ⟨same, he⟩ := Heap.sameArity_ok_of_stored (hstored (List.subset_append_left _ _))
      (hstored (List.subset_append_right _ _))
    refine ⟨same, he, ?_⟩
    calc same = true
        ↔ r.arity = s.arity ∧ r.fields.length = s.fields.length :=
          Record.sameArity_iff hcr.balanced hcs.balanced he
      _ ↔ r.features = s.features := hcr.arity_eq_iff hcs
      _ ↔ ∀ f, f ∈ r.features ↔ f ∈ s.features := hcr.features_eq_iff hcs

/-- A machine with two records whose fields were given in opposite orders, after a collection. -/
def assorted : Machine :=
  { id := ⟨0⟩
    atoms := { id := ⟨⟨0⟩, 1⟩ }
    heap := {
      records := #[
        ⟨.unit, .features [.int 2, .literal (.bool true)], [.int 8, .int 7]⟩,
        ⟨.unit, .features [.int 2, .literal (.bool true)], [.unit, .record ⟨0⟩]⟩] }
    roots := [.record ⟨0⟩, .record ⟨1⟩] }

theorem reachable_assorted : Reachable assorted := by
  have h₁ := (Reachable.new ⟨0⟩ {}).step
    (.buildRecord .unit [(.bool true, .int 7), (.int 2, .int 8)] rfl)
  have h₂ := h₁.step (.buildRecord .unit [(.int 2, .unit), (.bool true, .record ⟨0⟩)] rfl)
  have h₃ := (h₂.step (.addRoot _ (.record ⟨0⟩))).step (.addRoot _ (.record ⟨1⟩))
  exact h₃.step (.collect rfl)

theorem assorted_same_arity : ∃ r s, assorted.heap.record ⟨0⟩ = .ok r ∧
    assorted.heap.record ⟨1⟩ = .ok s ∧ r.Canonical ∧ s.Canonical ∧
    (∀ f, f ∈ r.features ↔ f ∈ s.features) ∧ r.sameArity assorted.id s = .ok true := by
  obtain ⟨hform, hsame⟩ := reachable_assorted.records_canonical
  obtain ⟨same, he, hiff⟩ := hsame ⟨0⟩ ⟨1⟩ _ _ rfl rfl (by decide)
  have hfeatures : same = true := hiff.mpr fun f => Iff.rfl
  exact ⟨_, _, rfl, rfl, (hform ⟨0⟩ _ rfl).2.2, (hform ⟨1⟩ _ rfl).2.2, fun f => Iff.rfl,
    hfeatures ▸ he⟩

end Machine

end Dataflow
