import Mathlib.Algebra.Order.BigOperators.Group.List
import Mathlib.Algebra.Order.Group.Nat
import Dataflow.Proofs.Closure
import Dataflow.Proofs.Completion

/-! # Turns of an orderly machine

  In an orderly machine the next thread can have its turn: all of its calls complete, and so does the
  collection after it. Each call of the turn either proceeds, and the thread goes on by an
  instruction, or it is the last: then the thread has failed, or waits for a variable that is unbound,
  and no other thread has been woken by that call.

  So the rank of the machine decreases with each turn. Instructions that are done are not done again,
  and a turn that does no instruction leaves one thread less that is runnable.
-/

namespace Dataflow

/-! ### Threads that work on trusted nodes -/

namespace Thread

variable {m m' : Machine} {t : Thread}

theorem Orderly.advances (ht : t.Orderly m) (ha : m.Advances m') : t.Orderly m' :=
  ⟨fun n hn => ha.trusts (ht.registers n hn), ht.code, fun e he => ha.trusts (ht.exception e he)⟩

theorem Orderly.within (ht : t.Orderly m) : t.Within m.Trusts :=
  ⟨ht.registers, ht.code, ht.exception⟩

theorem Within.orderly (ht : t.Within m.Trusts) : t.Orderly m :=
  ⟨ht.registers, ht.code, ht.exception⟩

end Thread

namespace Machine

open Waits (Running)

variable {m m' : Machine} {t t' : Thread} {φ : Node → Node}

/-! ### A turn -/

/-- What a turn of the thread `t` leaves. -/
structure Took (m : Machine) (t : Thread) (m' : Machine) (t' : Thread) : Prop where
  advances : m.Advances m'
  thread : t'.Orderly m'
  code : t'.code = t.code
  pc : t.pc ≤ t'.pc

/-- The thread has done an instruction; or it has none left, or has stopped, and wakes nobody. -/
def Moves (m : Machine) (t : Thread) (m' : Machine) (t' : Thread) : Prop :=
  t.pc < t.code.length ∧ t.pc < t'.pc ∨
    m'.scheduler = m.scheduler ∧ (t'.state ≠ .runnable ∨ t'.isFinished = true)

/-- A turn completes, and does something if it has at least one call. -/
theorem Orderly.turn (n : Nat) (ho : m.Orderly)
    (hw : Waits m.heap m.scheduler.threads m.scheduler.spawned)
    (hrun : Running m.scheduler.threads t.id) (ht : t.Orderly m) :
    ∃ m' t', turn n m t = .ok (m', t') ∧ Took m t m' t' ∧ (1 ≤ n → Moves m t m' t') := by
  induction n generalizing m t with
  | zero => exact ⟨m, t, rfl, ⟨ho.advances, ht, rfl, Nat.le_refl _⟩, by simp⟩
  | succ n ih =>
    rw [Machine.turn]
    cases hi : t.code[t.pc]? with
    | none =>
      have hfinished : t.isFinished = true := decide_eq_true (List.getElem?_eq_none_iff.mp hi)
      exact ⟨m, t, rfl, ⟨ho.advances, ht, rfl, Nat.le_refl _⟩, fun _ => .inr ⟨rfl, .inr hfinished⟩⟩
    | some i =>
      obtain ⟨operands, hops, hlen, htrusted⟩ := ht.within.operands (List.mem_of_getElem? hi)
      obtain ⟨o, m₁, hcall, hdone⟩ := settles_call ho hw hlen htrusted
      have hdoes := does_of_call hw.balanced hcall
      obtain ⟨hw₁, hrun₁⟩ := hw.running_changes hrun hdoes.changes
      have ht₁ : t.Orderly m₁ := ht.advances hdone.advances
      simp only [hops, hcall, ok_bind]
      cases o with
      | proceed results =>
        obtain ⟨m', t', hturn, htook, -⟩ := ih (t := t.advance i.outputs results)
          hdone.advances.orderly hw₁ hrun₁ (ht₁.within.advance i.outputs hdone.proper).orderly
        have hpc : t.pc + 1 ≤ t'.pc := htook.pc
        have hlt : t.pc < t.code.length := (List.getElem?_eq_some_iff.mp hi).1
        exact ⟨m', t', hturn, ⟨hdone.advances.trans htook.advances, htook.thread, htook.code,
          Nat.le_of_succ_le hpc⟩, fun _ => .inl ⟨hlt, hpc⟩⟩
      | raise exception =>
        refine ⟨m₁, { t with state := .failed exception }, rfl,
          ⟨hdone.advances, ⟨ht₁.registers, ht₁.code, fun e he => ?_⟩, rfl, Nat.le_refl _⟩,
          fun _ => .inr ⟨hdone.idle (by simp), .inl (by simp)⟩⟩
        cases he
        exact hdone.proper
      | suspend v =>
        -- the variable is unbound, so the thread is parked
        obtain ⟨ls, hv⟩ := hdone.proper
        obtain ⟨heap, ha⟩ : ∃ heap, m₁.heap.addListener v (.thread t.id) = .ok (true, heap) :=
          ⟨_, Heap.addListener_unbound hv _⟩
        have hpark : m₁.Advances { m₁ with heap } :=
          hdone.advances.orderly.advance_idle rfl rfl rfl rfl rfl
            (hdone.advances.orderly.heap.park ha)
        have ht₂ := ht₁.advances hpark
        simp only [ha, ok_bind]
        exact ⟨{ m₁ with heap }, { t with state := .waiting v }, rfl,
          ⟨hdone.advances.trans hpark, ⟨ht₂.registers, ht₂.code, by simp⟩, rfl, Nat.le_refl _⟩,
          fun _ => .inr ⟨hdone.idle (by simp), .inl (by simp)⟩⟩

/-- To put a thread back touches nothing but the threads. -/
theorem putBack_rest (m : Machine) (t : Thread) :
    m.putBack t = { m with scheduler := (m.putBack t).scheduler } ∧
      (m.putBack t).scheduler.spawned = m.scheduler.spawned := by
  unfold Machine.putBack
  split
  · split <;> exact ⟨rfl, rfl⟩
  · exact ⟨rfl, rfl⟩

theorem Orderly.putBack (ho : m.Orderly) (ht : t.Orderly m) : (m.putBack t).Orderly := by
  have hthreads := putBack_threads m t
  rw [(putBack_rest m t).1]
  refine ho.of_heap_eq rfl rfl rfl rfl ho.roots fun u hu => ?_
  rw [hthreads] at hu
  rcases Waits.mem_update hu with rfl | ⟨hu, -⟩
  · exact ht.within.ended.orderly
  · exact ho.threads u hu

/-! ### A collection -/

/-- What is trusted fits. -/
theorem Orderly.closed (ho : m.Orderly) : m.Closed where
  canonical := ho.heap.canonical
  edges hr n hn := (ho.heap.edges hr n hn).fits
  values hv := (ho.heap.values hv).fits
  table := ho.table
  roots n hn := (ho.roots n hn).fits
  threads t ht := (ho.threads t ht).within.mono fun _ hn => hn.fits

/-- A control of the new heap is the image of one that threads wait for. -/
theorem Relocation.control_before (hr : Relocation m m' φ) (ho : m.Orderly) {c' : VarRef}
    (hc' : m'.heap.IsControl c') : ∃ c ids, m.Live (.variable c) ∧ m.heap.IsControl c ∧
      φ (.variable c) = .variable c' ∧
      m.heap.cell c = .ok (.unbound (List.map Listener.thread ids)) := by
  obtain ⟨w, hl'⟩ := hc'
  obtain ⟨v, l, hlive, -, ⟨ls, hv, hl⟩, he⟩ := hr.listens_before hl'
  cases l with
  | thread id => cases he
  | control c =>
    have hφ : φ (.variable c) = .variable c' := by
      cases hn : φ (.variable c) <;> simp [Listener.relocate, hn, Node.asVariable?] at he
      rw [he]
    have hcontrol : m.heap.IsControl c := ⟨v, ls, hv, hl⟩
    have hlc : m.Live (.variable c) := .control hlive hv hl
    rcases ho.heap.controls hcontrol with hunit | ⟨ids, hids⟩
    · -- a control that is bound to unit is not moved to a variable
      rw [hr.deref hlc (Heap.deref_bound hunit), hr.inline (hlc.deref (Heap.deref_bound hunit)) rfl]
        at hφ
      cases hφ
    · exact ⟨c, ids, hlc, hcontrol, hφ, hids⟩

/-- What is trusted and alive is moved to a trusted node. -/
theorem Relocation.trusts_image (hr : Relocation m m' φ) (ho : m.Orderly) {n : Node}
    (hlive : m.Live n) (hn : m.Trusts n) : m'.Trusts (φ n) := by
  refine ⟨hr.fits_image ho.table hlive, fun c' he hc' => ?_⟩
  obtain ⟨d, hd, -⟩ := hr.inRange hlive
  have hld : m.Live d := hlive.deref hd
  rw [hr.deref hlive hd] at he
  -- the node stands for a variable, and the control that `c'` comes from would be this variable
  rcases d.value_or_variable with hv | ⟨v, rfl⟩
  · have hkind := Node.asVariable?_of_kind (hr.kind hld (Heap.deref_of_value hv)) hv
    rw [he] at hkind
    cases hkind
  · obtain ⟨ls, hv⟩ := Heap.cell_of_deref hd
    obtain ⟨c, ids, hlc, hcontrol, hφc, hids⟩ := hr.control_before ho hc'
    rw [hr.var_injective hlc hld hids hv (hφc.trans he.symm)] at hcontrol
    exact (ho.heap.trusted_deref hn hd).free v rfl hcontrol

/-- A collection leaves an orderly machine orderly. -/
theorem Orderly.relocation (ho : m.Orderly) (hr : Relocation m m' φ)
    (hcanonical : m'.heap.Canonical) : m'.Orderly := by
  have hid : m'.id = m.id := hr.rest.1
  refine ⟨⟨hcanonical, ?_, ?_, ?_⟩, ?_, ?_, ?_, ?_⟩
  · intro ref' r' hr' n' hn'
    obtain ⟨ref, r, hlive, href, -, him⟩ := hr.record_before hr'
    obtain ⟨n, hn, rfl⟩ := him.mem_edges hn'
    exact hr.trusts_image ho (.edge hlive href hn) (ho.heap.edges href n hn)
  · -- no variable of the new heap is bound
    intro w x hc
    obtain ⟨v, ls, -, -, -, he⟩ := hr.cell_before hc
    cases he
  · intro c' hc'
    obtain ⟨c, ids, hlive, -, hφ, hids⟩ := hr.control_before ho hc'
    obtain ⟨w, hφ', hw⟩ := hr.var hlive hids
    rw [hφ] at hφ'
    cases hφ'
    have hsame : (ids.map Listener.thread).filterMap (Listener.relocate φ) =
        ids.map Listener.thread := by
      rw [List.filterMap_map]
      exact congrFun (List.filterMap_eq_map (f := Listener.thread)) ids
    exact .inr ⟨ids, hsame ▸ hw⟩
  · rw [hr.table, hid]
    exact ho.table
  · rw [hr.rest.2.1]
    exact ho.quantum
  · intro n' hn'
    rw [hr.roots] at hn'
    obtain ⟨n, hn, rfl⟩ := List.mem_map.mp hn'
    exact hr.trusts_image ho (.start (List.mem_append_left _ hn)) (ho.roots n hn)
  · intro t' ht'
    rw [hr.threads] at ht'
    obtain ⟨t, ht, rfl⟩ := List.mem_map.mp ht'
    refine ((ho.threads t ht).within.relocate (fun n hn => ?_) fun e hs => ?_).orderly
    · exact hr.trusts_image ho (live_register ht hn)
    · exact hr.trusts_image ho (live_failed ht hs)

theorem Orderly.collect (ho : m.Orderly)
    (hw : Waits m.heap m.scheduler.threads m.scheduler.spawned) :
    ∃ m', m.collect = .ok m' ∧ m'.Orderly := by
  obtain ⟨m', hc⟩ := collect_ok hw.grounded (ho.closed.inRange hw)
  obtain ⟨φ, hr⟩ := relocation_of_collect hc
  exact ⟨m', hc, ho.relocation hr (canonical_collect ho.heap.canonical hc)⟩

/-! ### The rank of a machine -/

/-- The number of runnable threads. -/
def awake (m : Machine) : Nat :=
  (m.scheduler.threads.map fun t => t.state.isRunnable.toNat).sum

/-- A measure that decreases with each turn. An instruction counts for more than all threads: it may
    wake every one of them, but is done once. -/
def rank (m : Machine) : Nat := m.remaining * (m.scheduler.threads.length + 1) + m.awake

theorem awake_le (m : Machine) : m.awake ≤ m.scheduler.threads.length := by
  have hle : ∀ x ∈ m.scheduler.threads.map fun t => t.state.isRunnable.toNat, x ≤ 1 := by
    intro x hx
    obtain ⟨t, -, rfl⟩ := List.mem_map.mp hx
    exact Bool.toNat_le _
  have hsum := List.sum_le_card_nsmul _ 1 hle
  simpa [awake] using hsum

theorem rank_lt (hlen : m'.scheduler.threads.length = m.scheduler.threads.length)
    (hless : m'.remaining < m.remaining ∨ m'.remaining ≤ m.remaining ∧ m'.awake < m.awake) :
    m'.rank < m.rank := by
  have hawake := m'.awake_le
  unfold rank
  rw [hlen] at hawake ⊢
  rcases hless with hless | ⟨hle, hless⟩
  · have hmul := Nat.mul_le_mul_right (m.scheduler.threads.length + 1) hless
    rw [Nat.succ_mul] at hmul
    omega
  · have hmul := Nat.mul_le_mul_right (m.scheduler.threads.length + 1) hle
    omega

/-- A sum over the threads, after one of them is put back. -/
theorem sum_update {s : Scheduler} (hnd : (s.threads.map Thread.id).Nodup) (ht : t ∈ s.threads)
    (hid : t'.id = t.id) (f : Thread → Nat) :
    ((s.update t').threads.map f).sum + f t = (s.threads.map f).sum + f t' := by
  unfold Scheduler.update
  dsimp only
  generalize s.threads = threads at hnd ht
  induction threads with
  | nil => cases ht
  | cons u us ih =>
    rw [List.map_cons, List.nodup_cons] at hnd
    simp only [List.map_cons, List.sum_cons]
    rcases List.mem_cons.mp ht with rfl | ht
    · -- the others have other numbers
      have hrest : (us.map fun w => if w.id = t'.id then t' else w) = us.map fun w => w := by
        refine List.map_congr_left fun w hw => if_neg fun he => hnd.1 ?_
        rw [← hid, ← he]
        exact List.mem_map_of_mem hw
      rw [List.map_id_fun', id_eq] at hrest
      rw [if_pos hid.symm, hrest]
      omega
    · have hne : u.id ≠ t'.id := by
        intro he
        rw [he, hid] at hnd
        exact hnd.1 (List.mem_map_of_mem ht)
      have hsum := ih hnd.2 ht
      rw [if_neg hne]
      omega

/-- Waking threads changes neither their instructions nor how many are done. -/
theorem Wakes.threads (hwakes : Wakes m m') (hnd : (m.scheduler.threads.map Thread.id).Nodup) :
    m'.remaining = m.remaining ∧
      m'.scheduler.threads.length = m.scheduler.threads.length ∧
      (m'.scheduler.threads.map Thread.id).Nodup ∧
      ∀ t ∈ m.scheduler.threads, t.state = .runnable → t ∈ m'.scheduler.threads := by
  obtain ⟨ids, he⟩ := hwakes
  obtain ⟨hthreads, -⟩ := Scheduler.wake_threads hnd ids
  unfold remaining
  rw [he, hthreads]
  refine ⟨?_, List.length_map .., ?_, fun t ht hs => ?_⟩
  · rw [List.map_map]
    refine congrArg (List.foldr (· + ·) 0) (List.map_congr_left fun t _ => ?_)
    simp only [Function.comp_apply, Thread.wakeIf]
    split <;> rfl
  · rw [List.map_map]
    simpa [Function.comp_def] using hnd
  · exact List.mem_map.mpr ⟨t, ht, Thread.wakeIf_runnable hs⟩

/-- The rank decreases by a turn that does something. -/
theorem rank_putBack (hnd : (m.scheduler.threads.map Thread.id).Nodup)
    (ht : t ∈ m.scheduler.threads) (hs : t.state = .runnable) (hwakes : Wakes m m')
    (hid : t'.id = t.id) (htook : Took m t m' t') (hmoves : Moves m t m' t') :
    (m'.putBack t').rank < m.rank := by
  obtain ⟨hremaining, hlen, hnd', hstill⟩ := hwakes.threads hnd
  have hsum := sum_update hnd' (hstill t ht hs) ((Thread.ended_id t').trans hid)
  rw [← putBack_threads] at hsum
  have hlen' : (m'.putBack t').scheduler.threads.length = m.scheduler.threads.length := by
    rw [putBack_threads, ← hlen]
    exact List.length_map ..
  have hrest : (m'.putBack t').remaining + t.remaining = m.remaining + t'.remaining := by
    have hrest := hsum Thread.remaining
    have hended : t'.ended.remaining = t'.remaining := by simp [Thread.remaining]
    rw [hended] at hrest
    rw [← hremaining]
    exact hrest
  have hcode := htook.code
  have hpc := htook.pc
  refine rank_lt hlen' ?_
  unfold Thread.remaining at hrest
  rw [hcode] at hrest
  rcases hmoves with ⟨hlt, hless⟩ | ⟨hidle, hstop⟩
  · left
    omega
  · right
    refine ⟨by omega, ?_⟩
    -- the thread was runnable and is not any more, and the others are as before
    have hawake := hsum fun t => t.state.isRunnable.toNat
    have hbefore : t.state.isRunnable = true := ThreadState.isRunnable_iff.mpr hs
    have hafter : t'.ended.state.isRunnable = false := by
      rw [← Bool.not_eq_true, ThreadState.isRunnable_iff]
      exact Thread.ended_not_runnable hstop
    rw [hbefore, hafter, hidle] at hawake
    unfold awake
    simp only [Bool.toNat_true, Bool.toNat_false] at hawake
    omega

/-! ### The next turn -/

/-- After a turn the machine may collect. That changes neither its rank nor how far its threads
    are. -/
theorem Orderly.afterTurn (ho : m.Orderly)
    (hw : Waits m.heap m.scheduler.threads m.scheduler.spawned) :
    ∃ m', (if m.heap.needsCollection then (do return (true, ← m.collect)) else return (true, m)) =
        (.ok (true, m') : Except Fault (Bool × Machine)) ∧ m'.Orderly ∧ m'.rank = m.rank ∧
      ∀ t ∈ m.scheduler.threads, ∃ t' ∈ m'.scheduler.threads, t'.id = t.id ∧ t'.pc = t.pc ∧
        (t'.state = .runnable ↔ t.state = .runnable) := by
  by_cases hn : m.heap.needsCollection = true
  · obtain ⟨m', hc, ho'⟩ := ho.collect hw
    obtain ⟨φ, hr⟩ := relocation_of_collect hc
    rw [if_pos hn, hc]
    refine ⟨m', rfl, ho', ?_, fun t ht => ?_⟩
    · have hremaining : m'.remaining = m.remaining := by
        unfold remaining
        rw [hr.threads, List.map_map]
        rfl
      have hawake : m'.awake = m.awake := by
        unfold awake
        rw [hr.threads, List.map_map]
        refine congrArg List.sum (List.map_congr_left fun t ht => ?_)
        have hiff := hr.runnable_iff hw ht
        rw [← ThreadState.isRunnable_iff, ← ThreadState.isRunnable_iff, ← Bool.eq_iff_iff] at hiff
        exact congrArg Bool.toNat hiff
      unfold rank
      rw [hremaining, hawake, hr.threads, List.length_map]
    · refine ⟨t.relocate φ, ?_, rfl, rfl, hr.runnable_iff hw ht⟩
      rw [hr.threads]
      exact List.mem_map_of_mem ht
  · rw [if_neg hn]
    exact ⟨m, rfl, ho, rfl, fun t ht => ⟨t, ht, rfl, rfl, Iff.rfl⟩⟩

/-- The thread whose turn it is goes on by an instruction, or is not runnable any more. -/
def Progress (m m' : Machine) : Prop :=
  ∃ t, m.scheduler.next?.1 = some t ∧ ∃ t' ∈ m'.scheduler.threads, t'.id = t.id ∧
    (t.pc < t'.pc ∨ t'.state ≠ .runnable)

/-- In an orderly machine the next thread has its turn, if there is one. The turn makes progress, and
    the rank decreases. -/
theorem Orderly.runNext (ho : m.Orderly)
    (hw : Waits m.heap m.scheduler.threads m.scheduler.spawned) :
    ∃ ran m', m.runNext = .ok (ran, m') ∧ m'.Orderly ∧
      (ran = true → m.Progress m' ∧ m'.rank < m.rank) := by
  obtain ⟨next, s, hn⟩ : ∃ next s, m.scheduler.next? = (next, s) := ⟨_, _, rfl⟩
  obtain ⟨hthreads, hspawned, hnext⟩ := nextFrom_cases hn
  have ho₀ : { m with scheduler := s }.Orderly :=
    ho.of_heap_eq rfl rfl rfl rfl ho.roots fun t ht => ho.threads t (hthreads ▸ ht)
  unfold Machine.runNext
  rw [hn]
  cases next with
  | none => exact ⟨false, _, rfl, ho₀, by simp⟩
  | some t =>
    obtain ⟨ht, hs⟩ := hnext t rfl
    rw [← hthreads] at ht
    have hw₀ : Waits m.heap s.threads s.spawned := by
      rw [hthreads, hspawned]
      exact hw
    have hrun : Running s.threads t.id := ⟨t, ht, rfl, hs⟩
    -- the turn, with the thread still in the table
    obtain ⟨after, t', hturn, htook, hmoves⟩ := Orderly.turn (m := { m with scheduler := s })
      m.settings.quantum ho₀ hw₀ hrun (ho₀.threads t ht)
    obtain ⟨hwakes, hid⟩ := wakes_of_turn (m := { m with scheduler := s }) hw₀ hrun hturn
    have hw₁ := Waits.turn (m := { m with scheduler := s }) hw₀ hrun hs hturn
    have ho₁ := htook.advances.orderly.putBack htook.thread
    have hrank : (after.putBack t').rank < m.rank := by
      have hlt := rank_putBack (m := { m with scheduler := s }) hw₀.nodup ht hs hwakes hid htook
        (hmoves ho.quantum)
      have hsame : { m with scheduler := s }.rank = m.rank := by
        unfold rank remaining awake
        rw [hthreads]
      rwa [hsame] at hlt
    -- the turn is over
    obtain ⟨m', hafter, ho', hrank', hall⟩ := ho₁.afterTurn hw₁
    simp only [hturn, ok_bind]
    refine ⟨true, m', hafter, ho', fun _ => ⟨⟨t, by rw [hn], ?_⟩, hrank' ▸ hrank⟩⟩
    have hmem : t'.ended ∈ (after.putBack t').scheduler.threads := by
      obtain ⟨-, -, -, hstill⟩ := hwakes.threads hw₀.nodup
      rw [putBack_threads]
      exact List.mem_map.mpr ⟨t, hstill t ht hs, if_pos (by simp [hid])⟩
    obtain ⟨u, hu, huid, hupc, hustate⟩ := hall _ hmem
    refine ⟨u, hu, by rw [huid, Thread.ended_id, hid], ?_⟩
    rcases hmoves ho.quantum with ⟨-, hlt⟩ | ⟨-, hstop⟩
    · left
      rw [hupc, Thread.ended_pc]
      exact hlt
    · right
      rw [Ne, hustate]
      exact Thread.ended_not_runnable hstop

end Machine

end Dataflow
