import Dataflow.Proofs.Answers

/-! # Requests in step

  What a host asks of two machines in step, other than to run or to collect: to build records, to
  pin nodes, to start and to remove threads. Both machines do it, or refuse it with the same words.
-/

namespace Dataflow

variable {w : World} {a b : View} {m m' : Machine}

/-! ### Building records -/

/-- Machines in step make the same. -/
theorem Lockstep.workshop (hs : Lockstep w m m') : Workshop w m m' (Made w m m') where
  repr := hs.repr
  literal {l _} hl := ⟨w, hs, .refl w _ _, .of_value hl (Literal.asVariable?_toNode l)⟩
  allocate := hs.allocate

/-! ### Pinning nodes -/

theorem Lockstep.addRoot (hs : Lockstep w m m') {n n' : Node} (hn : Alike w m.view m'.view n n') :
    (m.addRoot n).1 = (m'.addRoot n').1 ∧ Lockstep w (m.addRoot n).2 (m'.addRoot n').2 :=
  ⟨hs.roots.length_eq, { hs with roots := List.rel_append hs.roots (.cons hn .nil) }⟩

/-! ### Threads come and go -/

theorem Lockstep.spawn (hs : Lockstep w m m') (code : List Instruction) {ns ns' : List Node}
    (hns : List.Forall₂ (Alike w m.view m'.view) ns ns') :
    Agree (fun r r' => r.1 = r'.1 ∧ Lockstep w r.2 r'.2 ∧
        Later w m.view m'.view w r.2.view r'.2.view)
      (m.spawn code ns) (m'.spawn code ns') := by
  unfold Machine.spawn
  rw [hns.length_eq]
  refine (Agree.of_eq rfl).bind fun _ _ _ _ _ => ?_
  have hid : (⟨m.scheduler.spawned + 1⟩ : ThreadId) = ⟨m'.scheduler.spawned + 1⟩ := by
    rw [hs.spawned]
  refine .ok ⟨hid, ⟨hs.toInStep.reschedule ?_ ?_ ?_, hs.waitsLeft.spawn rfl rfl,
    hs.waitsRight.spawn rfl rfl⟩, .refl w _ _⟩
  · exact List.rel_append hs.threads (.cons ⟨hid, rfl, rfl, hns, .runnable⟩ .nil)
  · show m.scheduler.ready ++ [_] = m'.scheduler.ready ++ [_]
    rw [hs.ready, hid]
  · show m.scheduler.spawned + 1 = m'.scheduler.spawned + 1
    rw [hs.spawned]

theorem Lockstep.kill (hs : Lockstep w m m') (id : ThreadId) :
    Agree (fun r r' => Lockstep w r r' ∧ Later w m.view m'.view w r.view r'.view) (m.kill id)
      (m'.kill id) := by
  unfold Machine.kill Scheduler.kill
  rcases hs.thread? id with ⟨hf, hf'⟩ | ⟨t, t', hf, hf', ht⟩
  · rw [hf, hf']
    exact .error _
  · rw [hf, hf']
    refine .ok ⟨⟨hs.toInStep.reschedule ?_ hs.ready hs.spawned, hs.waitsLeft.filter _,
      hs.waitsRight.filter _⟩, .refl w _ _⟩
    refine List.rel_filter (fun t t' ht => ?_) hs.threads
    show (t.id != id) = true ↔ (t'.id != id) = true
    rw [ht.id]

end Dataflow
