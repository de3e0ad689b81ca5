import Dataflow.Proofs.Hashing
import Dataflow.Proofs.Ownership

/-! # Chains of bound variables end

  No bind closes a chain of bound variables into a circle, so from every variable of a reachable
  machine the chain comes to a value or to an unbound variable, and visits no variable twice. What
  looks through variables ends for that reason: dereferencing at the end of the chain, printing and
  hashing at their depth, and a relocation once every record and every variable has its place,
  although values may contain themselves.
-/

namespace Dataflow

namespace Heap

variable {h : Heap}

/-! ### Intact values can be printed -/

theorem print_zero {n d : Node} (hd : h.deref n = .ok d) : h.print 0 n = .ok d.leafText := by
  rw [print, hd]
  rfl

theorem print_value {n d : Node} (hd : h.deref n = .ok d) (hr : d.asRecord? = none)
    (depth : Nat) : h.print depth n = .ok d.leafText := by
  cases depth with
  | zero => exact print_zero hd
  | succ depth =>
    rw [print, hd]
    cases d with
    | record ref => cases hr
    | _ => rfl

theorem print_record {n : Node} {ref : RecordRef} {r : Record}
    (hd : h.deref n = .ok (.record ref)) (hr : h.record ref = .ok r) (depth : Nat) :
    h.print (depth + 1) n =
      (r.fields.mapM (h.print depth) >>= fun texts => .ok (r.text texts)) := by
  rw [print, hd, ok_bind]
  show (h.record ref >>= _) = _
  rw [hr, ok_bind]
  rfl

theorem Intact.print_ok (hground : h.Grounded) (depth : Nat) {n : Node} (hn : h.Intact n) :
    ∃ text, h.print depth n = .ok text := by
  -- each level of records costs one of the depth, so circles of records are cut off
  induction depth generalizing n with
  | zero =>
    obtain ⟨d, hd, -⟩ := hn.deref hground
    exact ⟨_, print_zero hd⟩
  | succ depth ih =>
    obtain ⟨d, hd, hintact⟩ := hn.deref hground
    cases d with
    | record ref =>
      obtain ⟨r, hr, hparts⟩ := hintact.record
      have hmem : ∀ x ∈ r.fields, ∃ text, h.print depth x = .ok text :=
        fun x hx => ih (hparts x (field_mem_edges hx))
      obtain ⟨texts, htexts⟩ := mapM_exists hmem
      refine ⟨r.text texts, ?_⟩
      rw [print_record hd hr, htexts, ok_bind]
    | _ => exact ⟨_, print_value hd rfl _⟩

end Heap

namespace Machine

variable {m : Machine}

/-- In a reachable machine the chain of every node that lies in the heap visits no variable twice
    and ends at a value or an unbound variable, which is what the node is dereferenced to. An intact
    value can be printed and hashed to every depth. Nodes are relocated by a collector if nothing that
    they reach dangles, with one result at every depth of recursion from some depth on: their places
    in the copy of what a survey of them finds. -/
theorem Reachable.bound_chains_end (hm : Reachable m) :
    (∀ n, m.heap.InRange n → ∃ vs e, m.heap.Path n vs e ∧ vs.Nodup ∧
      (∀ w, e = .variable w → ∃ ls, m.heap.cell w = .ok (.unbound ls)) ∧ m.deref n = .ok e) ∧
    (∀ n, m.heap.Intact n → ∀ depth, (∃ text, m.print n depth = .ok text) ∧
      ∃ items, { m with settings.printDepth := depth }.hashItems n = .ok items) ∧
    ∀ ns, (∀ x, m.heap.Reaches ns x → m.heap.InRange x) → ∃ s copy images c,
      m.survey ns = .ok s ∧ s.copyHeap m.heap = .ok copy ∧
        ns.mapM (s.image m.heap) = .ok images ∧ c.atoms = s.atoms ∧ c.heap = copy ∧
        ∀ depth, m.heap.relocationDepth ≤ depth →
          (ns.mapM (Collector.relocate m.heap depth)).run (.new m) = .ok (images, c) := by
  have hground : m.heap.Grounded := hm.waits.grounded
  refine ⟨fun n hn => ?_, fun n hn depth => ?_, fun ns hns => relocate_nodes_ok hground hns⟩
  · obtain ⟨d, hd⟩ := hground.deref (n := n) fun v hv => Heap.cell_of_inRange (hv ▸ hn)
    obtain ⟨vs, hp⟩ := Heap.path_of_deref hd
    exact ⟨vs, d, hp, hp.nodup, fun w hw => Heap.cell_of_deref (hw ▸ hd), hd⟩
  · exact ⟨hn.print_ok hground depth, hn.hashItems_ok hground depth⟩

/-- A value that contains itself through a variable, and one that contains itself directly since a
    collection. -/
theorem circles_are_followed :
    (∃ vs e, looped.heap.Path (.variable ⟨0⟩) vs e ∧ looped.deref (.variable ⟨0⟩) = .ok e) ∧
    (∃ text, looped.print (.variable ⟨0⟩) 10 = .ok text) ∧
    (∃ text, knotted.print (.record ⟨0⟩) 10 = .ok text) ∧
    (∃ items, knotted.hashItems (.record ⟨0⟩) = .ok items) ∧
    ∃ s copy images c, knotted.survey knotted.liveNodes = .ok s ∧
      s.copyHeap knotted.heap = .ok copy ∧
      knotted.liveNodes.mapM (s.image knotted.heap) = .ok images ∧
      c.atoms = s.atoms ∧ c.heap = copy ∧ ∀ depth, knotted.heap.relocationDepth ≤ depth →
        (knotted.liveNodes.mapM (Collector.relocate knotted.heap depth)).run (.new knotted) =
          .ok (images, c) := by
  have hloop : looped.heap.Sound looped.id (.variable ⟨0⟩) :=
    Heap.sound_of_forall (by decide) (by decide) (by decide)
  have hknot : knotted.heap.Sound knotted.id (.record ⟨0⟩) :=
    Heap.sound_of_forall (by decide) (by decide) (by decide)
  have hlive : ∀ x, knotted.heap.Reaches knotted.liveNodes x → knotted.heap.InRange x :=
    fun x hx => inRange_of_live (by decide) (by decide) (by decide) hx
  obtain ⟨hchains, htexts, -⟩ := reachable_looped.bound_chains_end
  obtain ⟨-, hvalues, hmoves⟩ := reachable_knotted.bound_chains_end
  obtain ⟨vs, e, hp, -, -, hd⟩ := hchains (.variable ⟨0⟩) (by decide)
  exact ⟨⟨vs, e, hp, hd⟩, (htexts _ hloop.intact 10).1, (hvalues _ hknot.intact 10).1,
    (hvalues _ hknot.intact 10).2, hmoves _ hlive⟩

end Machine

end Dataflow
