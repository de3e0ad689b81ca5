import Dataflow.Proofs.Waits

/-! # What a turn does to the threads

  Calls wake threads and do nothing else to them: `Machine.Wakes` is this relation. So a turn takes
  the next thread off the queue, wakes some of the others and puts the thread back, and after it the
  machine may collect. `Machine.runNext_cases` says so once for all invariants of turns.
-/

open Relation (ReflTransGen)

namespace Dataflow

theorem ThreadState.isRunnable_iff {state : ThreadState} :
    state.isRunnable = true ↔ state = .runnable := by
  cases state <;> simp [isRunnable]

namespace Scheduler

theorem wake_append (s : Scheduler) (ids ids' : List ThreadId) :
    s.wake (ids ++ ids') = (s.wake ids).wake ids' :=
  List.foldl_append

end Scheduler

namespace Machine

variable {m m' : Machine}

/-! ### Steps that only wake threads -/

/-- The second machine has the threads of the first, some of them woken. -/
def Wakes (m m' : Machine) : Prop := ∃ ids, m'.scheduler = m.scheduler.wake ids

theorem Wakes.of_eq (he : m'.scheduler = m.scheduler) : Wakes m m' := ⟨[], he⟩

theorem Wakes.trans {m'' : Machine} (h₁ : Wakes m m') (h₂ : Wakes m' m'') : Wakes m m'' := by
  obtain ⟨ids, h₁⟩ := h₁
  obtain ⟨ids', h₂⟩ := h₂
  refine ⟨ids ++ ids', ?_⟩
  rw [h₂, h₁, Scheduler.wake_append]

theorem wakes_of_bindWithin {n : Nat} {m m' : Machine} {v : VarRef} {x : Node}
    (hb : bindWithin n m v x = .ok (.ok m')) : Wakes m m' :=
  bindWithin_induct (fun _ => .of_eq rfl) .trans (fun _ _ => .of_eq rfl) (fun _ ids => ⟨ids, rfl⟩) hb

theorem wakes_of_changes (hc : ReflTransGen Change m m') : Wakes m m' := by
  induction hc with
  | refl => exact .of_eq rfl
  | tail _ hstep ih =>
    refine ih.trans ?_
    cases hstep with
    | bind hb => exact wakes_of_bindWithin hb
    | _ => exact .of_eq rfl

/-- A turn wakes threads, and does not change the number of its own. -/
theorem wakes_of_turn {n : Nat} {t t' : Thread}
    (hw : Waits m.heap m.scheduler.threads m.scheduler.spawned)
    (hrun : Waits.Running m.scheduler.threads t.id) (ht : turn n m t = .ok (m', t')) :
    Wakes m m' ∧ t'.id = t.id := by
  induction n generalizing m t with
  | zero =>
    cases ht
    exact ⟨.of_eq rfl, rfl⟩
  | succ n ih =>
    rw [turn] at ht
    cases hi : t.code[t.pc]? with
    | none =>
      rw [hi] at ht
      cases ht
      exact ⟨.of_eq rfl, rfl⟩
    | some i =>
      rw [hi] at ht
      obtain ⟨operands, -, ht⟩ := bind_eq_ok.mp ht
      obtain ⟨⟨outcome, m₁⟩, hcall, ht⟩ := bind_eq_ok.mp ht
      have hchanges := (does_of_call hw.balanced hcall).changes
      obtain ⟨hw₁, hrun₁⟩ := hw.running_changes hrun hchanges
      have hwakes : Wakes m m₁ := wakes_of_changes hchanges
      cases outcome with
      | proceed results =>
        obtain ⟨hrest, hid⟩ := ih (t := t.advance i.outputs results) hw₁ hrun₁ ht
        exact ⟨hwakes.trans hrest, hid⟩
      | raise exception =>
        cases ht
        exact ⟨hwakes, rfl⟩
      | suspend v =>
        obtain ⟨⟨parked, heap⟩, ha, ht⟩ := bind_eq_ok.mp ht
        cases parked with
        | true =>
          cases ht
          exact ⟨hwakes.trans (.of_eq rfl), rfl⟩
        | false =>
          -- nothing was changed, and the call is made again
          rcases Heap.addListener_cases ha with ⟨hf, -⟩ | ⟨-, rfl, -⟩
          · cases hf
          · obtain ⟨hrest, hid⟩ := ih hw₁ hrun₁ ht
            exact ⟨hwakes.trans hrest, hid⟩

/-! ### The turn of the next thread -/

/-- The next thread is a runnable one of the table; the queue alone is changed. -/
theorem nextFrom_cases {s s' : Scheduler} {ids : List ThreadId} {next : Option Thread}
    (hn : s.nextFrom ids = (next, s')) :
    s'.threads = s.threads ∧ s'.spawned = s.spawned ∧
      ∀ t, next = some t → t ∈ s.threads ∧ t.state = .runnable := by
  induction ids with
  | nil => cases hn; exact ⟨rfl, rfl, nofun⟩
  | cons id rest ih =>
    rw [Scheduler.nextFrom] at hn
    cases hf : s.thread? id with
    | none => rw [hf] at hn; exact ih hn
    | some t =>
      rw [hf] at hn
      dsimp only at hn
      split at hn
      · next hrun =>
        cases hn
        refine ⟨rfl, rfl, fun u hu => ?_⟩
        cases hu
        exact ⟨(Scheduler.mem_of_thread? hf).1, ThreadState.isRunnable_iff.mp hrun⟩
      · exact ih hn

/-- All that the turn of the next thread does: if there is none the queue is emptied, and otherwise
    the thread is put back after its turn, and the machine may collect. -/
theorem runNext_cases (hw : Waits m.heap m.scheduler.threads m.scheduler.spawned) {ran : Bool}
    (hr : m.runNext = .ok (ran, m')) :
    (ran = false ∧ ∃ s, m.scheduler.next? = (none, s) ∧ m' = { m with scheduler := s }) ∨
    (ran = true ∧ ∃ t s after t', m.scheduler.next? = (some t, s) ∧
      Wakes { m with scheduler := s } after ∧ t'.id = t.id ∧
      Waits (after.putBack t').heap (after.putBack t').scheduler.threads
        (after.putBack t').scheduler.spawned ∧
      (m' = after.putBack t' ∨ (after.putBack t').collect = .ok m')) := by
  rcases runNext_slices hr with hidle | ⟨hran, t, s, after, t', hn, hturn, hor⟩
  · exact .inl hidle
  · obtain ⟨hthreads, hspawned, hnext⟩ := nextFrom_cases hn
    obtain ⟨ht, hs⟩ := hnext t rfl
    rw [← hthreads, ← hspawned] at hw
    rw [← hthreads] at ht
    have hrun : Waits.Running s.threads t.id := ⟨t, ht, rfl, hs⟩
    have hafter := Waits.turn (m := { m with scheduler := s }) hw hrun hs hturn
    obtain ⟨hwakes, hid⟩ := wakes_of_turn (m := { m with scheduler := s }) hw hrun hturn
    exact .inr ⟨hran, t, s, after, t', hn, hwakes, hid, hafter, hor⟩

end Machine

end Dataflow
