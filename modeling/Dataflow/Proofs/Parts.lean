import Mathlib.Logic.Relation
import Dataflow.Proofs.Survey
import Dataflow.Snapshot

/-! # What a value is made of

  A value is made of the nodes that can be found in it: a record leads to its label, its features
  and its fields, and a bound variable leads to its value. `Heap.Parts` goes through records
  alone, `Heap.Holds` goes through records and bound variables.

  A value is *intact* if everything that it holds lies in the heap: it can be printed and hashed.
  It is *sound* for a machine if, besides, all of its atoms belong to the machine: what is said of a
  comparison is said of sound values.
-/

open Relation (ReflTransGen)

namespace Dataflow.Heap

variable {h : Heap} {owner : MachineId}

/-! ### Parts -/

/-- The first node is a record, and the second is its label, one of its features or a field. -/
def Part (h : Heap) (n x : Node) : Prop :=
  ∃ ref r, n = .record ref ∧ h.record ref = .ok r ∧ x ∈ r.edges

/-- The second node is a part of the first, or the value of the bound variable that the first is. -/
def Leads (h : Heap) (n x : Node) : Prop :=
  h.Part n x ∨ ∃ v, n = .variable v ∧ h.cell v = .ok (.bound x)

/-- The second node can be found in the first without looking through variables. -/
def Parts (h : Heap) : Node → Node → Prop := ReflTransGen h.Part

/-- The second node can be found in the first. -/
def Holds (h : Heap) : Node → Node → Prop := ReflTransGen h.Leads

/-- What a node holds apart from its parts, it holds through a bound variable among them. -/
theorem Holds.parts_or_behind {n x : Node} (hx : h.Holds n x) :
    h.Parts n x ∨ ∃ v y, h.Parts n (.variable v) ∧ h.cell v = .ok (.bound y) ∧ h.Holds y x := by
  unfold Holds at hx
  induction hx with
  | refl => exact .inl .refl
  | @tail y x _ hyx ih =>
    rcases ih with hny | ⟨v, z, hv, hc, hzy⟩
    · rcases hyx with hpart | ⟨v, rfl, hc⟩
      · exact .inl (hny.tail hpart)
      · exact .inr ⟨v, x, hny, hc, .refl⟩
    · exact .inr ⟨v, z, hv, hc, hzy.tail hyx⟩

/-- A node holds what it stands for. -/
theorem holds_deref {n d : Node} (hd : h.deref n = .ok d) : h.Holds n d := by
  refine deref_induct (motive := fun n d => h.Holds n d) ?_ ?_ ?_ hd
  · intro n _
    exact .refl
  · intro v ls _
    exact .refl
  · intro v x d hc _ ih
    exact ReflTransGen.head (.inr ⟨v, rfl, hc⟩) ih

/-! ### Intact values -/

/-- Everything that a node holds lies in the heap. -/
def Intact (h : Heap) (n : Node) : Prop := ∀ x, h.Holds n x → h.InRange x

theorem Intact.of_holds {n x : Node} (hn : h.Intact n) (hx : h.Holds n x) : h.Intact x :=
  fun y hy => hn y (hx.trans hy)

/-- An intact value can be dereferenced, to an intact one. -/
theorem Intact.deref (hground : h.Grounded) {n : Node} (hn : h.Intact n) :
    ∃ d, h.deref n = .ok d ∧ h.Intact d := by
  have hcell : ∀ v, n = .variable v → ∃ c, h.cell v = .ok c := by
    rintro v rfl
    exact cell_of_inRange (hn _ .refl)
  obtain ⟨d, hd⟩ := hground.deref hcell
  exact ⟨d, hd, hn.of_holds (holds_deref hd)⟩

/-- An intact record can be read, and its parts are intact. -/
theorem Intact.record {ref : RecordRef} (hn : h.Intact (.record ref)) :
    ∃ r, h.record ref = .ok r ∧ ∀ x ∈ r.edges, h.Intact x := by
  obtain ⟨r, hr⟩ := record_of_inRange (hn _ .refl)
  exact ⟨r, hr, fun x hx => hn.of_holds (.single (.inl ⟨ref, r, rfl, hr, hx⟩))⟩

/-! ### Sound values -/

/-- A reference lies in the heap, and an atom belongs to the machine `owner`. -/
def Fits (h : Heap) (owner : MachineId) : Node → Prop
  | .atom a => a.owner = owner
  | n => h.InRange n

instance (h : Heap) (owner : MachineId) : (n : Node) → Decidable (h.Fits owner n)
  | .atom a => inferInstanceAs (Decidable (a.owner = owner))
  | .record ref => inferInstanceAs (Decidable (h.InRange (.record ref)))
  | .variable v => inferInstanceAs (Decidable (h.InRange (.variable v)))
  | .int _ | .float _ | .bool _ | .unit => .isTrue trivial

/-- Everything that a node holds lies in the heap, and its atoms belong to the machine `owner`. -/
def Sound (h : Heap) (owner : MachineId) (n : Node) : Prop := ∀ x, h.Holds n x → h.Fits owner x

theorem Sound.fits {n : Node} (hn : h.Sound owner n) : h.Fits owner n := hn n .refl

theorem Sound.of_holds {n x : Node} (hn : h.Sound owner n) (hx : h.Holds n x) :
    h.Sound owner x :=
  fun y hy => hn y (hx.trans hy)

theorem Fits.inRange {n : Node} (hn : h.Fits owner n) : h.InRange n := by
  cases n with
  | atom a => trivial
  | _ => exact hn

theorem Sound.intact {n : Node} (hn : h.Sound owner n) : h.Intact n :=
  fun x hx => (hn x hx).inRange

/-- A sound value can be dereferenced, to a sound one. -/
theorem Sound.deref (hground : h.Grounded) {n : Node} (hn : h.Sound owner n) :
    ∃ d, h.deref n = .ok d ∧ h.Sound owner d := by
  obtain ⟨d, hd, -⟩ := hn.intact.deref hground
  exact ⟨d, hd, hn.of_holds (holds_deref hd)⟩

/-- A sound record can be read, and its parts are sound. -/
theorem Sound.record {ref : RecordRef} (hn : h.Sound owner (.record ref)) :
    ∃ r, h.record ref = .ok r ∧ ∀ x ∈ r.edges, h.Sound owner x := by
  obtain ⟨r, hr, -⟩ := hn.intact.record
  exact ⟨r, hr, fun x hx => hn.of_holds (.single (.inl ⟨ref, r, rfl, hr, hx⟩))⟩

/-- If all nodes of records and cells fit, then every node that fits is sound. -/
theorem sound_of_forall (hrecords : ∀ r ∈ h.records.toList, ∀ x ∈ r.edges, h.Fits owner x)
    (hcells : ∀ c ∈ h.cells.toList, ∀ x ∈ Snapshot.cellNodes c, h.Fits owner x) {n : Node}
    (hn : h.Fits owner n) : h.Sound owner n := by
  intro x hx
  unfold Holds at hx
  induction hx with
  | refl => exact hn
  | tail _ hstep _ =>
    rcases hstep with ⟨ref, r, -, hr, hmem⟩ | ⟨v, -, hc⟩
    · have hin := Array.mem_of_getElem? (record_eq_ok_iff.mp hr)
      exact hrecords r (Array.mem_toList_iff.mpr hin) _ hmem
    · have hin := Array.mem_of_getElem? (cell_eq_ok_iff.mp hc)
      exact hcells _ (Array.mem_toList_iff.mpr hin) _ (List.mem_singleton.mpr rfl)

/-! ### The nodes of a record -/

theorem label_mem_edges (r : Record) : r.label.toNode ∈ r.edges := by
  simp [Record.edges]

theorem field_mem_edges {r : Record} {x : Node} (hx : x ∈ r.fields) : x ∈ r.edges := by
  simp [Record.edges, hx]

theorem feature_mem_edges {r : Record} {names : List Feature} (hr : r.arity = .features names)
    {f : Feature} (hf : f ∈ names) : f.toNode ∈ r.edges := by
  have hmem : f.toNode ∈ names.map Feature.toNode := List.mem_map_of_mem hf
  simp only [Record.edges, hr]
  exact List.mem_append_left _ (List.mem_cons_of_mem _ hmem)

end Dataflow.Heap
