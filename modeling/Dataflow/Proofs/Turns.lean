import Dataflow.Proofs.Answers
import Dataflow.Proofs.Moving

/-! # Running in step

  Machines in step give their turns to the same threads, which make the same calls and stop at the
  same places. Either machine may collect its garbage after a turn, on its own account. So the two
  take the same number of turns, and report the same.
-/

namespace Dataflow

open Waits (Running)

variable {w w₁ : World} {a b a₁ b₁ : View} {P Q : VarRef → VarRef → Prop} {m m' : Machine}

/-! ### Registers -/

theorem operands_agree {R : Node → Node → Prop} {t t' : Thread}
    (ht : List.Forall₂ R t.registers t'.registers) (rs : List Nat) :
    Agree (List.Forall₂ R) (rs.mapM t.register) (rs.mapM t'.register) := by
  refine Agree.mapM (R := (· = ·)) (List.forall₂_eq_eq_eq ▸ rfl) fun r r' hr => ?_
  subst hr
  unfold Thread.register
  rw [← ht.length_eq]
  exact entry_agree ht r _

theorem forall₂_set {α β : Type} {R : α → β → Prop} {xs : List α} {ys : List β}
    (hxy : List.Forall₂ R xs ys) {x : α} {y : β} (h : R x y) (i : Nat) :
    List.Forall₂ R (xs.set i x) (ys.set i y) := by
  induction hxy generalizing i with
  | nil => exact .nil
  | cons hab hrest ih =>
    cases i with
    | zero => exact .cons h hrest
    | succ i => exact .cons hab (ih i)

theorem store_alike {R : Node → Node → Prop} {xs ys ns ns' : List Node}
    (hxy : List.Forall₂ R xs ys) (hn : List.Forall₂ R ns ns') (rs : List Nat) :
    List.Forall₂ R (Thread.store xs rs ns) (Thread.store ys rs ns') := by
  induction rs generalizing xs ys ns ns' with
  | nil => simpa only [Thread.store] using hxy
  | cons r rs ih =>
    cases hn with
    | nil => exact hxy
    | cons h hn => exact ih (forall₂_set hxy h r) hn

theorem ThreadAlike.advance {t t' : Thread} (ht : ThreadAlike P w a b t t') (rs : List Nat)
    {results results' : List Node} (hr : List.Forall₂ (Alike w a b) results results') :
    ThreadAlike P w a b (t.advance rs results) (t'.advance rs results') where
  id := ht.id
  code := ht.code
  pc := by
    show t.pc + 1 = t'.pc + 1
    rw [ht.pc]
  registers := store_alike ht.registers hr rs
  state := ht.state

theorem StateAlike.runnable_iff {s s' : ThreadState} (hs : StateAlike P w a b s s') :
    s = .runnable ↔ s' = .runnable := by
  cases hs <;> simp

/-- A thread that runs is not concerned by what becomes of the variables that others wait for. -/
theorem ThreadAlike.running {t t' : Thread} (ht : ThreadAlike P w a b t t')
    (hrun : t.state = .runnable) (hl : Later w a b w₁ a₁ b₁) : ThreadAlike Q w₁ a₁ b₁ t t' where
  id := ht.id
  code := ht.code
  pc := ht.pc
  registers := hl.nodes ht.registers
  state := by
    rw [hrun, ht.state.runnable_iff.mp hrun]
    exact .runnable

/-! ### Putting a thread back -/

theorem InStep.update (hs : InStep P w m m') {t t' : Thread}
    (ht : ThreadAlike P w m.view m'.view t t') :
    InStep P w { m with scheduler := m.scheduler.update t }
      { m' with scheduler := m'.scheduler.update t' } :=
  hs.reschedule (threadsAlike_update hs.threads ht) hs.ready hs.spawned

theorem InStep.putBack (hs : InStep P w m m') {t t' : Thread}
    (ht : ThreadAlike P w m.view m'.view t t') : InStep P w (m.putBack t) (m'.putBack t') := by
  have hfinished : t.isFinished = t'.isFinished := by
    unfold Thread.isFinished
    rw [ht.code, ht.pc]
  unfold Machine.putBack
  rw [← ht.state.isRunnable, ← hfinished]
  by_cases hr : t.state.isRunnable = true
  · rw [if_pos hr, if_pos hr]
    by_cases hf : t.isFinished = true
    · rw [if_pos hf, if_pos hf]
      exact hs.update { ht with state := .terminated }
    · rw [if_neg hf, if_neg hf]
      refine hs.reschedule (threadsAlike_update hs.threads ht) ?_ hs.spawned
      show m.scheduler.ready ++ [t.id] = m'.scheduler.ready ++ [t'.id]
      rw [hs.ready, ht.id]
  · rw [if_neg hr, if_neg hr]
    exact hs.update ht

/-- A thread that does not wait is put back. -/
theorem Lockstep.putBack (hs : Lockstep w m m') {t t' : Thread}
    (ht : ThreadAlike w.cell w m.view m'.view t t') (hrun : Running m.scheduler.threads t.id)
    (hrun' : Running m'.scheduler.threads t'.id) (hidle : t.state.isWaiting = false) :
    Lockstep w (m.putBack t) (m'.putBack t') where
  toInStep := hs.toInStep.putBack ht
  waitsLeft := hs.waitsLeft.putBack_idle hrun hidle
  waitsRight := hs.waitsRight.putBack_idle hrun' (ht.state.isWaiting.symm.trans hidle)

/-! ### A turn -/

/-- After a turn the machines are in step once the threads are put back. -/
theorem Lockstep.turn (n : Nat) (hs : Lockstep w m m') {t t' : Thread}
    (ht : ThreadAlike w.cell w m.view m'.view t t') (hstate : t.state = .runnable)
    (hrun : Running m.scheduler.threads t.id) (hrun' : Running m'.scheduler.threads t'.id) :
    Agree (fun r r' => ∃ w₁, Lockstep w₁ (r.1.putBack r.2) (r'.1.putBack r'.2))
      (Machine.turn n m t) (Machine.turn n m' t') := by
  have hidle : t.state.isWaiting = false := by rw [hstate]; rfl
  induction n generalizing w m m' t t' with
  | zero => exact .ok ⟨w, hs.putBack ht hrun hrun' hidle⟩
  | succ n ih =>
    have hsame : t'.code[t'.pc]? = t.code[t.pc]? := by rw [ht.code, ht.pc]
    rw [Machine.turn, Machine.turn, hsame]
    cases hi : t.code[t.pc]? with
    | none => exact .ok ⟨w, hs.putBack ht hrun hrun' hidle⟩
    | some i =>
      have hi' := hsame.trans hi
      refine (operands_agree ht.registers i.inputs).bind fun ns ns' ho ho' hns => ?_
      refine (hs.call i.builtin hns).bind fun r r' hcall hcall' hr => ?_
      obtain ⟨o, m₁⟩ := r
      obtain ⟨o', m₁'⟩ := r'
      obtain ⟨w₁, hs₁, hl₁, hoo⟩ := hr
      have hdoes := Machine.does_of_call hs.waitsLeft.balanced hcall
      have hdoes' := Machine.does_of_call hs.waitsRight.balanced hcall'
      have hrun₁ := (hs.waitsLeft.running_changes hrun hdoes.changes).2
      have hrun₁' := (hs.waitsRight.running_changes hrun' hdoes'.changes).2
      have ht₁ : ThreadAlike w₁.cell w₁ m₁.view m₁'.view t t' := ht.running hstate hl₁
      cases hoo with
      | proceed hres => exact ih hs₁ (ht₁.advance i.outputs hres) hstate hrun₁ hrun₁' hidle
      | @raise e e' he =>
        have ht₂ : ThreadAlike w₁.cell w₁ m₁.view m₁'.view { t with state := .failed e }
            { t' with state := .failed e' } := { ht₁ with state := .failed he }
        exact .ok ⟨w₁, hs₁.putBack ht₂ hrun₁ hrun₁' rfl⟩
      | @suspend v v' hv _ =>
        -- the variable is unbound on both sides, so both threads are parked
        obtain ⟨h₁, h₁', ha, ha', hlike, hlater⟩ :=
          hs₁.like.addListener hv (.thread t.id) fun _ => ⟨t.id, rfl⟩
        have hstep := hs₁.toInStep.later hlater hlike fun _ _ h => h
        have ht₂ : ThreadAlike w₁.cell w₁ ⟨m₁.atoms.id, h₁⟩ ⟨m₁'.atoms.id, h₁'⟩
            { t with state := .waiting v } { t' with state := .waiting v' } :=
          { ht₁.later hlater fun _ _ h => h with state := .waiting hv }
        have hpark : m₁.heap.addListener v (.thread t.id) = .ok (true, h₁) := ha
        have hpark' : m₁'.heap.addListener v' (.thread t'.id) = .ok (true, h₁') := by
          rw [← ht.id]
          exact ha'
        dsimp only
        rw [hpark, hpark']
        exact .ok ⟨w₁, hstep.putBack ht₂,
          hs₁.waitsLeft.update_waiting hrun₁ hi ho (hdoes.awaits v rfl) hpark,
          hs₁.waitsRight.update_waiting hrun₁' hi' ho' (hdoes'.awaits v' rfl) hpark'⟩

/-! ### The next turn -/

theorem InStep.nextFrom (hs : InStep P w m m') (ids : List ThreadId) :
    ∃ ready, (m.scheduler.nextFrom ids = (none, { m.scheduler with ready }) ∧
        m'.scheduler.nextFrom ids = (none, { m'.scheduler with ready })) ∨
      ∃ t t', m.scheduler.nextFrom ids = (some t, { m.scheduler with ready }) ∧
        m'.scheduler.nextFrom ids = (some t', { m'.scheduler with ready }) ∧
        ThreadAlike P w m.view m'.view t t' := by
  induction ids with
  | nil => exact ⟨[], .inl ⟨rfl, rfl⟩⟩
  | cons id ids ih =>
    rw [Scheduler.nextFrom, Scheduler.nextFrom]
    rcases hs.thread? id with ⟨hf, hf'⟩ | ⟨t, t', hf, hf', ht⟩
    · rw [hf, hf']
      exact ih
    · rw [hf, hf']
      dsimp only
      rw [← ht.state.isRunnable]
      by_cases hr : t.state.isRunnable = true
      · rw [if_pos hr, if_pos hr]
        exact ⟨ids, .inr ⟨t, t', rfl, rfl, ht⟩⟩
      · rw [if_neg hr, if_neg hr]
        exact ih

theorem Lockstep.setReady (hs : Lockstep w m m') (ready : List ThreadId) :
    Lockstep w { m with scheduler := { m.scheduler with ready } }
      { m' with scheduler := { m'.scheduler with ready } } :=
  { hs with ready := rfl }

/-- After a turn each machine collects its garbage if its own heap asks for it. -/
theorem Lockstep.afterTurn (hs : Lockstep w m m') :
    Agree (fun r r' => r.1 = r'.1 ∧ ∃ w₁, Lockstep w₁ r.2 r'.2)
      (if m.heap.needsCollection then (do return (true, ← m.collect)) else return (true, m))
      (if m'.heap.needsCollection then (do return (true, ← m'.collect))
        else return (true, m')) := by
  obtain ⟨m₁, w₁, hc, hs₁⟩ := hs.collect_left
  by_cases hn : m.heap.needsCollection = true
  · rw [if_pos hn, hc]
    by_cases hn' : m'.heap.needsCollection = true
    · obtain ⟨m₁', w₂, hc', hs₂⟩ := hs₁.collect_right
      rw [if_pos hn', hc']
      exact .ok ⟨rfl, w₂, hs₂⟩
    · rw [if_neg hn']
      exact .ok ⟨rfl, w₁, hs₁⟩
  · rw [if_neg hn]
    by_cases hn' : m'.heap.needsCollection = true
    · obtain ⟨m₁', w₂, hc', hs₂⟩ := hs.collect_right
      rw [if_pos hn', hc']
      exact .ok ⟨rfl, w₂, hs₂⟩
    · rw [if_neg hn']
      exact .ok ⟨rfl, w, hs⟩

theorem Lockstep.runNext (hs : Lockstep w m m') :
    Agree (fun r r' => r.1 = r'.1 ∧ ∃ w₁, Lockstep w₁ r.2 r'.2) m.runNext m'.runNext := by
  have hnext : ∀ m : Machine, m.scheduler.next? = m.scheduler.nextFrom m.scheduler.ready :=
    fun _ => rfl
  unfold Machine.runNext
  obtain ⟨ready, ⟨hn, hn'⟩ | ⟨t, t', hn, hn', ht⟩⟩ := hs.toInStep.nextFrom m.scheduler.ready
  · rw [hs.ready] at hn'
    rw [hnext, hnext, hn, hn']
    exact .ok ⟨rfl, w, hs.setReady ready⟩
  · rw [hs.ready] at hn'
    obtain ⟨-, -, hmem⟩ := Machine.nextFrom_cases hn
    obtain ⟨-, -, hmem'⟩ := Machine.nextFrom_cases hn'
    obtain ⟨hmem, hstate⟩ := hmem t rfl
    obtain ⟨hmem', hstate'⟩ := hmem' t' rfl
    have hquantum : m'.settings.quantum = m.settings.quantum := by rw [hs.settings]
    rw [hnext, hnext, hn, hn', hquantum]
    refine ((hs.setReady ready).turn _ ht hstate ⟨t, hmem, rfl, hstate⟩
      ⟨t', hmem', rfl, hstate'⟩).bind fun r r' _ _ hr => ?_
    obtain ⟨w₁, hs₁⟩ := hr
    exact hs₁.afterTurn

/-! ### Running until nothing is ready -/

theorem Lockstep.turns (n : Nat) (hs : Lockstep w m m') :
    Agree (fun r r' => r.1 = r'.1 ∧ ∃ w₁, Lockstep w₁ r.2 r'.2) (Machine.turns n m)
      (Machine.turns n m') := by
  induction n generalizing w m m' with
  | zero => exact .error _
  | succ n ih =>
    rw [Machine.turns, Machine.turns]
    refine hs.runNext.bind fun r r' _ _ hr => ?_
    obtain ⟨ran, m₁⟩ := r
    obtain ⟨ran', m₁'⟩ := r'
    obtain ⟨rfl, w₁, hs₁⟩ := hr
    cases ran with
    | false => exact .ok ⟨rfl, w₁, hs₁⟩
    | true =>
      refine (ih hs₁).bind fun c c' _ _ hc => ?_
      obtain ⟨hcount, hs₂⟩ := hc
      exact .ok ⟨congrArg (· + 1) hcount, hs₂⟩

theorem InStep.turnBound (hs : InStep P w m m') : m.turnBound = m'.turnBound := by
  have hremaining : m.scheduler.threads.map Thread.remaining =
      m'.scheduler.threads.map Thread.remaining := by
    refine map_eq_of_forall₂ hs.threads fun t t' ht => ?_
    unfold Thread.remaining
    rw [ht.code, ht.pc]
  unfold Machine.turnBound Machine.remaining
  rw [hremaining, hs.threads.length_eq, hs.ready]

/-- A question about states that does not look at nodes is answered in the same way. -/
theorem InStep.threadsWhere (hs : InStep P w m m') {p : ThreadState → Bool}
    (hp : ∀ {s s'}, StateAlike P w m.view m'.view s s' → p s = p s') :
    m.threadsWhere p = m'.threadsWhere p := by
  refine map_eq_of_forall₂ (List.rel_filter (fun t t' ht => ?_) hs.threads) fun t t' ht => ht.id
  show p t.state = true ↔ p t'.state = true
  rw [hp ht.state]

theorem Lockstep.run (hs : Lockstep w m m') :
    Agree (fun r r' => r.1 = r'.1 ∧ ∃ w₁, Lockstep w₁ r.2 r'.2) m.run m'.run := by
  unfold Machine.run
  rw [← hs.turnBound]
  refine (hs.turns _).bind fun r r' _ _ hr => ?_
  obtain ⟨count, m₁⟩ := r
  obtain ⟨count', m₁'⟩ := r'
  obtain ⟨hcount, w₁, hs₁⟩ := hr
  refine .ok ⟨?_, w₁, hs₁⟩
  rw [Machine.Report.mk.injEq]
  refine ⟨hcount, hs₁.threadsWhere ?_, hs₁.threadsWhere ?_, hs₁.threadsWhere ?_⟩
  · intro s s' h
    cases h <;> rfl
  · intro s s' h
    exact h.isWaiting
  · intro s s' h
    cases h <;> rfl

end Dataflow
