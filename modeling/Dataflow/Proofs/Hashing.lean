import Dataflow.Hash
import Dataflow.Proofs.Alike
import Dataflow.Proofs.Bisimilarity

/-! # Equal values hash alike

  A hash is read off a value down to a depth, while equality goes as deep as the value does, and
  around its circles. Two bisimilar nodes stand for nodes that correspond, so they feed the same
  items at the top: a record feeds nothing but its kind, its width and its label, and equal floats
  feed the same bits because both zeros feed those of zero. Their fields are bisimilar again. So by
  induction on the depth bisimilar nodes feed the same items down to every depth, however their
  circles are unrolled.
-/

namespace Dataflow

/-! ### The items of corresponding nodes -/

/-- Equal simple values feed the same items. -/
theorem Node.Same.hashItems_eq {x y : Node} (hxy : x.Same y) : x.hashItems = y.hashItems := by
  cases hxy with
  | @float f g he =>
    obtain ⟨-, -, hbits⟩ := Binary64.numEq_iff.mp he
    rcases hbits with rfl | ⟨hf, hg⟩
    · rfl
    · simp [Node.hashItems, Node.kind, hf, hg]
  | _ => rfl

namespace Heap

variable {h : Heap} {owner : MachineId}

theorem Corresponds.hashItems_eq {R : Node → Node → Prop} {x y : Node}
    (hxy : h.Corresponds R x y) : x.hashItems = y.hashItems := by
  cases hxy with
  | value hs => exact hs.hashItems_eq
  | itself ref => rfl
  | records _ _ _ _ _ => rfl

/-- Labels that are bisimilar feed the same items. -/
theorem Bisimilar.label_hashItems_eq {l l' : Literal}
    (hll : h.Bisimilar l.toNode l'.toNode) : l.toNode.hashItems = l'.toNode.hashItems := by
  obtain ⟨x, y, hx, hy, hxy⟩ := hll.dest
  rw [deref_of_value (Literal.asVariable?_toNode l)] at hx
  rw [deref_of_value (Literal.asVariable?_toNode l')] at hy
  cases hx
  cases hy
  exact hxy.hashItems_eq

/-! ### The items of a node, by what it stands for -/

/-- The items of a record from those of its fields. -/
def recordItems (r : Record) (fields : List (List HashItem)) : List HashItem :=
  .kind .record :: r.label.toNode.hashItems ++ .width r.width :: fields.flatten

theorem hashItems_zero {n d : Node} (hd : h.deref n = .ok d) :
    h.hashItems 0 n = .ok d.hashItems := by
  rw [hashItems, hd]
  rfl

theorem hashItems_value {n d : Node} (hd : h.deref n = .ok d) (hr : d.asRecord? = none)
    (depth : Nat) : h.hashItems depth n = .ok d.hashItems := by
  cases depth with
  | zero => exact hashItems_zero hd
  | succ depth =>
    rw [hashItems, hd]
    cases d with
    | record ref => cases hr
    | _ => rfl

theorem hashItems_record {n : Node} {ref : RecordRef} {r : Record}
    (hd : h.deref n = .ok (.record ref)) (hr : h.record ref = .ok r) (depth : Nat) :
    h.hashItems (depth + 1) n =
      (r.fields.mapM (h.hashItems depth) >>= fun fields => .ok (recordItems r fields)) := by
  rw [hashItems, hd, ok_bind]
  show (h.record ref >>= _) = _
  rw [hr, ok_bind]
  rfl

/-! ### Bisimilar nodes feed the same items -/

theorem mapM_congr_of_forall₂ {ε α β : Type} {R : α → α → Prop} {f : α → Except ε β}
    {xs ys : List α} (hxy : List.Forall₂ R xs ys) (hf : ∀ x y, R x y → f x = f y) :
    xs.mapM f = ys.mapM f := by
  induction hxy with
  | nil => rfl
  | cons hab _ ih => rw [List.mapM_cons, List.mapM_cons, hf _ _ hab, ih]

theorem Bisimilar.hashItems_eq {a b : Node} (hab : h.Bisimilar a b) (depth : Nat) :
    h.hashItems depth a = h.hashItems depth b := by
  -- by induction on the depth: what is left of it is enough for the fields, which are bisimilar
  induction depth generalizing a b with
  | zero =>
    obtain ⟨x, y, hx, hy, hxy⟩ := hab.dest
    rw [hashItems_zero hx, hashItems_zero hy, hxy.hashItems_eq]
  | succ depth ih =>
    obtain ⟨x, y, hx, hy, hxy⟩ := hab.dest
    cases hxy with
    | value hs =>
      have hleft : x.asRecord? = none := by cases hs <;> rfl
      have hright : y.asRecord? = none := by cases hs <;> rfl
      rw [hashItems_value hx hleft, hashItems_value hy hright, hs.hashItems_eq]
    | itself ref =>
      -- both nodes stand for one record, whose items need not be looked at
      rw [hashItems, hashItems, hx, hy]
    | @records c d r s hr hs harity hlabel hfields =>
      have hitems : r.fields.mapM (h.hashItems depth) = s.fields.mapM (h.hashItems depth) :=
        mapM_congr_of_forall₂ hfields fun _ _ hxy => ih hxy
      have hwidth : r.width = s.width := hfields.length_eq
      rw [hashItems_record hx hr, hashItems_record hy hs, hitems]
      simp only [recordItems, hlabel.label_hashItems_eq, hwidth]

/-! ### Intact values can be hashed -/

theorem Intact.hashItems_ok (hground : h.Grounded) (depth : Nat) {n : Node} (hn : h.Intact n) :
    ∃ items, h.hashItems depth n = .ok items := by
  induction depth generalizing n with
  | zero =>
    obtain ⟨d, hd, -⟩ := hn.deref hground
    exact ⟨_, hashItems_zero hd⟩
  | succ depth ih =>
    obtain ⟨d, hd, hintact⟩ := hn.deref hground
    cases d with
    | record ref =>
      obtain ⟨r, hr, hparts⟩ := hintact.record
      have hmem : ∀ x ∈ r.fields, ∃ items, h.hashItems depth x = .ok items :=
        fun x hx => ih (hparts x (field_mem_edges hx))
      obtain ⟨fields, hfields⟩ := mapM_exists hmem
      refine ⟨recordItems r fields, ?_⟩
      rw [hashItems_record hd hr, hfields, ok_bind]
    | _ => exact ⟨_, hashItems_value hd rfl _⟩

theorem hashItems_ok (hground : h.Grounded) (depth : Nat) {n : Node} (hn : h.Sound owner n) :
    ∃ items, h.hashItems depth n = .ok items :=
  hn.intact.hashItems_ok hground depth

end Heap

namespace Machine

variable {m : Machine}

/-- Equal values of a reachable machine feed the same items into their hashes, to whatever depth the
    machine prints: so their hashes are equal, whatever function of the items is taken for it. -/
theorem Reachable.equal_values_hash_alike (hm : Reachable m) {left right : Node}
    (hl : m.heap.Sound m.id left) (hr : m.heap.Sound m.id right)
    (he : m.equals left right = .ok true) (depth : Nat) :
    ∃ items, { m with settings.printDepth := depth }.hashItems left = .ok items ∧
      { m with settings.printDepth := depth }.hashItems right = .ok items := by
  have hground : m.heap.Grounded := hm.waits.grounded
  have hlr : m.heap.Bisimilar left right := (hm.equals_iff_bisimilar hl hr).mp he
  obtain ⟨items, hitems⟩ := Heap.hashItems_ok hground depth hl
  refine ⟨items, hitems, ?_⟩
  show m.heap.hashItems depth right = .ok items
  rw [← hlr.hashItems_eq depth, hitems]

/-- Two circles of different lengths feed the same items. -/
theorem unrolled_hash_alike : unrolled.equals (.record ⟨0⟩) (.record ⟨1⟩) = .ok true ∧
    ∃ items, unrolled.hashItems (.record ⟨0⟩) = .ok items ∧
      unrolled.hashItems (.record ⟨1⟩) = .ok items := by
  have hl : unrolled.heap.Sound unrolled.id (.record ⟨0⟩) := sound_unrolled (by decide)
  have hr : unrolled.heap.Sound unrolled.id (.record ⟨1⟩) := sound_unrolled (by decide)
  have hyes : unrolled.equals (.record ⟨0⟩) (.record ⟨1⟩) = .ok true := by decide
  exact ⟨hyes, reachable_unrolled.equal_values_hash_alike hl hr hyes unrolled.settings.printDepth⟩

end Machine

end Dataflow
