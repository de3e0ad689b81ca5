import Dataflow.Proofs.Collecting

/-! # The ready queue

  Between two operations a thread of the table is in the ready queue once if it is runnable, and
  not at all otherwise. During a turn this holds of all threads but the one whose turn it is: it is
  kept in the table as runnable, and is in the queue again only after its turn. `Scheduler.Queued`
  is this invariant, with the running thread as a parameter.

  The queue is changed in a few ways: entries are taken off its front, a thread is put back at its
  end, waiting threads are woken, and a new thread is appended. The invariant is proved for each of
  them, then for the operations that are made of them.
-/

open Relation (ReflTransGen)

namespace Dataflow

namespace Scheduler

variable {s s' : Scheduler} {running : Option ThreadId}

/-! ### The invariant -/

/-- The number has been given to a thread. -/
def Issued (s : Scheduler) (id : ThreadId) : Prop := 1 ≤ id.number ∧ id.number ≤ s.spawned

/-- The queue agrees with the table, while the thread `running` has its turn. -/
structure Queued (s : Scheduler) (running : Option ThreadId) : Prop where
  /-- The table is in the order of the numbers. -/
  ascending : (s.threads.map Thread.id).Pairwise (·.number < ·.number)
  /-- The numbers in the table and in the queue have been given out. -/
  issued : ∀ id, id ∈ s.threads.map Thread.id ∨ id ∈ s.ready → s.Issued id
  /-- The running thread is in the table, and runnable. -/
  busy : ∀ id, running = some id → Waits.Running s.threads id
  /-- A runnable thread is in the queue once, unless it runs. -/
  once : ∀ t ∈ s.threads, t.state = .runnable → running ≠ some t.id → s.ready.count t.id = 1
  /-- No other thread of the table is in the queue. -/
  absent : ∀ t ∈ s.threads, t.state ≠ .runnable ∨ running = some t.id → t.id ∉ s.ready

theorem Queued.nodup (hq : s.Queued running) : (s.threads.map Thread.id).Nodup := by
  refine hq.ascending.imp fun hlt he => ?_
  rw [he] at hlt
  exact Nat.lt_irrefl _ hlt

/-- A thread that is not runnable does not run. -/
theorem Queued.not_running (hq : s.Queued running) {t : Thread} (ht : t ∈ s.threads)
    (hs : t.state ≠ .runnable) : running ≠ some t.id := by
  intro hr
  obtain ⟨u, hu, hid, hrun⟩ := hq.busy t.id hr
  rw [eq_of_id hq.nodup hu ht hid] at hrun
  exact hs hrun

/-! ### Schedulers with the same threads -/

/-- The second scheduler has the threads of the first, and has given out no number since. -/
structure SameThreads (s s' : Scheduler) : Prop where
  ids : s'.threads.map Thread.id = s.threads.map Thread.id
  spawned : s'.spawned = s.spawned

theorem SameThreads.refl (s : Scheduler) : SameThreads s s := ⟨rfl, rfl⟩

theorem SameThreads.trans {s'' : Scheduler} (h₁ : SameThreads s s') (h₂ : SameThreads s' s'') :
    SameThreads s s'' :=
  ⟨h₂.ids.trans h₁.ids, h₂.spawned.trans h₁.spawned⟩

/-- What is left to show of a scheduler with the same threads are its entries. -/
theorem Queued.of_same {running' : Option ThreadId} (hq : s.Queued running)
    (hsame : SameThreads s s')
    (hready : ∀ id ∈ s'.ready, id ∈ s.ready ∨ id ∈ s.threads.map Thread.id)
    (hbusy : ∀ id, running' = some id → Waits.Running s'.threads id)
    (honce : ∀ t ∈ s'.threads, t.state = .runnable → running' ≠ some t.id →
      s'.ready.count t.id = 1)
    (habsent : ∀ t ∈ s'.threads, t.state ≠ .runnable ∨ running' = some t.id → t.id ∉ s'.ready) :
    s'.Queued running' := by
  refine ⟨?_, ?_, hbusy, honce, habsent⟩
  · rw [hsame.ids]
    exact hq.ascending
  · intro id hid
    have hissued : s.Issued id := by
      apply hq.issued
      rcases hid with hid | hid
      · rw [hsame.ids] at hid
        exact .inl hid
      · exact (hready id hid).symm
    unfold Issued
    rw [hsame.spawned]
    exact hissued

/-! ### A thread is put back -/

theorem mem_update_of_ne {t u : Thread} (hu : u ∈ s.threads) (hne : u.id ≠ t.id) :
    u ∈ (s.update t).threads :=
  List.mem_map.mpr ⟨u, hu, if_neg hne⟩

/-- A thread that is not in the queue is put back, and to the end of the queue if it is runnable. It
    does not run any more. -/
theorem Queued.put {running' : Option ThreadId} (hq : s.Queued running) {t : Thread}
    (ht : t.id ∈ s.threads.map Thread.id) (hout : t.id ∉ s.ready) (hidle : running' ≠ some t.id)
    (hothers : ∀ id, id ≠ t.id → (running' = some id ↔ running = some id)) :
    (t.state = .runnable → ((s.update t).enqueue t.id).Queued running') ∧
    (t.state ≠ .runnable → (s.update t).Queued running') := by
  -- who is busy now was busy before, and is not the thread that is put back
  have hbusy : ∀ id, running' = some id → Waits.Running (s.update t).threads id := by
    intro id hr
    have hne : id ≠ t.id := fun he => hidle (he ▸ hr)
    obtain ⟨u, hu, rfl, hrun⟩ := hq.busy id ((hothers id hne).mp hr)
    exact ⟨u, mem_update_of_ne hu hne, rfl, hrun⟩
  constructor
  · -- a runnable thread gets an entry, which is its only one
    intro hs
    refine hq.of_same ⟨Waits.map_id_update, rfl⟩ ?_ hbusy ?_ ?_
    · intro id hid
      rcases List.mem_append.mp hid with hid | hid
      · exact .inl hid
      · rw [List.mem_singleton.mp hid]
        exact .inr ht
    · intro u hu hrun hr
      show (s.ready ++ [t.id]).count u.id = 1
      rw [List.count_append]
      rcases Waits.mem_update hu with rfl | ⟨hu, hne⟩
      · simp [List.count_eq_zero.mpr hout]
      · have hr' : running ≠ some u.id := fun hr' => hr ((hothers _ hne).mpr hr')
        simp [hq.once u hu hrun hr', hne.symm]
    · intro u hu hor hmem
      rcases Waits.mem_update hu with rfl | ⟨hu, hne⟩
      · rcases hor with hor | hor
        · exact hor hs
        · exact hidle hor
      · rw [hothers _ hne] at hor
        rcases List.mem_append.mp hmem with hmem | hmem
        · exact hq.absent u hu hor hmem
        · exact hne (List.mem_singleton.mp hmem)
  · -- any other thread stays out of the queue
    intro hs
    refine hq.of_same ⟨Waits.map_id_update, rfl⟩ (fun id hid => .inl hid) hbusy ?_ ?_
    · intro u hu hrun hr
      rcases Waits.mem_update hu with rfl | ⟨hu, hne⟩
      · exact absurd hrun hs
      · exact hq.once u hu hrun fun hr' => hr ((hothers _ hne).mpr hr')
    · intro u hu hor
      rcases Waits.mem_update hu with rfl | ⟨hu, hne⟩
      · exact hout
      · rw [hothers _ hne] at hor
        exact hq.absent u hu hor

/-! ### Threads are woken -/

/-- All that waking a thread does. -/
theorem wakeOne_cases (s : Scheduler) (id : ThreadId) :
    s.wakeOne id = s ∨ ∃ t ∈ s.threads, t.id = id ∧ t.state.isWaiting = true ∧
      s.wakeOne id = (s.update { t with state := .runnable }).enqueue id := by
  unfold wakeOne
  cases hf : s.thread? id with
  | none => exact .inl rfl
  | some t =>
    obtain ⟨ht, hid⟩ := mem_of_thread? hf
    by_cases hw : t.state.isWaiting = true
    · exact .inr ⟨t, ht, hid, hw, if_pos hw⟩
    · exact .inl (if_neg hw)

theorem Queued.wakeOne (hq : s.Queued running) (id : ThreadId) :
    (s.wakeOne id).Queued running := by
  rcases wakeOne_cases s id with he | ⟨t, ht, rfl, hw, he⟩
  · rw [he]
    exact hq
  · rw [he]
    -- the thread waits, so it does not run and is not in the queue
    have hs : t.state ≠ .runnable := by
      intro hs
      rw [hs] at hw
      cases hw
    have hidle : running ≠ some t.id := hq.not_running ht hs
    have hout : t.id ∉ s.ready := hq.absent t ht (.inl hs)
    have hmem : t.id ∈ s.threads.map Thread.id := List.mem_map_of_mem ht
    have hput := hq.put (t := { t with state := .runnable }) hmem hout hidle fun _ _ => Iff.rfl
    exact hput.1 rfl

theorem Queued.wake (hq : s.Queued running) (ids : List ThreadId) :
    (s.wake ids).Queued running := by
  induction ids generalizing s with
  | nil => exact hq
  | cons id ids ih => exact ih (hq.wakeOne id)

theorem sameThreads_wake (s : Scheduler) (ids : List ThreadId) : SameThreads s (s.wake ids) := by
  induction ids generalizing s with
  | nil => exact .refl s
  | cons id ids ih =>
    have hone : SameThreads s (s.wakeOne id) := by
      rcases wakeOne_cases s id with he | ⟨t, -, -, -, he⟩
      · rw [he]
        exact .refl s
      · rw [he]
        exact ⟨Waits.map_id_update, rfl⟩
    exact hone.trans (ih _)

/-! ### The next thread -/

/-- An entry of no thread is taken off the queue. -/
theorem Queued.drop {id : ThreadId} {rest : List ThreadId}
    (hq : ({ s with ready := id :: rest } : Scheduler).Queued running)
    (hnone : ∀ t ∈ s.threads, t.id ≠ id) :
    ({ s with ready := rest } : Scheduler).Queued running := by
  refine hq.of_same ⟨rfl, rfl⟩ (fun i hi => .inl (List.mem_cons_of_mem _ hi)) hq.busy ?_ ?_
  · intro t ht hs hr
    have hcount := hq.once t ht hs hr
    rwa [List.count_cons_of_ne (hnone t ht).symm] at hcount
  · intro t ht hor hmem
    exact hq.absent t ht hor (List.mem_cons_of_mem _ hmem)

/-- The entry of a runnable thread is taken off the queue, and its turn begins. -/
theorem Queued.start {t : Thread} {rest : List ThreadId}
    (hq : ({ s with ready := t.id :: rest } : Scheduler).Queued none) (ht : t ∈ s.threads)
    (hs : t.state = .runnable) : ({ s with ready := rest } : Scheduler).Queued (some t.id) := by
  have hbusy : ∀ id, some t.id = some id → Waits.Running s.threads id := by
    intro id he
    cases he
    exact ⟨t, ht, rfl, hs⟩
  refine hq.of_same ⟨rfl, rfl⟩ (fun i hi => .inl (List.mem_cons_of_mem _ hi)) hbusy ?_ ?_
  · intro u hu hrun hr
    have hne : t.id ≠ u.id := fun he => hr (congrArg some he)
    have hcount := hq.once u hu hrun nofun
    rwa [List.count_cons_of_ne hne] at hcount
  · intro u hu hor hmem
    rcases hor with hor | hor
    · exact hq.absent u hu (.inl hor) (List.mem_cons_of_mem _ hmem)
    · -- the thread has one entry, which is the one at the front
      have he : t.id = u.id := Option.some.inj hor
      have hcount := hq.once t ht hs nofun
      simp only [List.count_cons_self, he] at hcount
      exact List.count_eq_zero.mp (Nat.succ.inj hcount) hmem

/-- Entries are taken off the queue up to that of a runnable thread, which begins its turn. If there
    is none, then no thread is runnable. -/
theorem Queued.nextFrom {ids : List ThreadId} {next : Option Thread}
    (hq : ({ s with ready := ids } : Scheduler).Queued none) (hn : s.nextFrom ids = (next, s')) :
    s'.Queued (next.map Thread.id) ∧ (next = none → ∀ t ∈ s'.threads, t.state ≠ .runnable) := by
  induction ids with
  | nil =>
    cases hn
    -- nothing is left in the queue, where a runnable thread would have an entry
    refine ⟨hq, fun _ t ht hs => ?_⟩
    have hcount := hq.once t ht hs (Option.some_ne_none _).symm
    simp at hcount
  | cons id rest ih =>
    rw [Scheduler.nextFrom] at hn
    cases hf : s.thread? id with
    | none =>
      rw [hf] at hn
      have hnone : ∀ t ∈ s.threads, t.id ≠ id := by
        intro t ht
        have hne := List.find?_eq_none.mp hf t ht
        simpa using hne
      exact ih (hq.drop hnone) hn
    | some t =>
      obtain ⟨ht, rfl⟩ := mem_of_thread? hf
      -- a thread of the table that is in the queue is runnable, so it is not skipped
      have hs : t.state = .runnable := by
        by_contra hs
        exact hq.absent t ht (.inl hs) (List.mem_cons_self ..)
      have hrun : t.state.isRunnable = true := ThreadState.isRunnable_iff.mpr hs
      simp only [hf, hrun, ↓reduceIte] at hn
      cases hn
      exact ⟨hq.start ht hs, fun hnone => absurd hnone (Option.some_ne_none t)⟩

/-! ### Threads come and go -/

theorem Queued.spawn (hq : s.Queued none) (code : List Instruction) (registers : List Node) :
    (s.spawn code registers).2.Queued none := by
  -- the new number is greater than all others, also than those that killed threads left behind
  have hfresh : ∀ id, id ∈ s.threads.map Thread.id ∨ id ∈ s.ready → id.number < s.spawned + 1 :=
    fun id hid => Nat.lt_succ_of_le (hq.issued id hid).2
  have hold : ∀ t ∈ s.threads, t.id ≠ ⟨s.spawned + 1⟩ := by
    intro t ht he
    have hlt := hfresh t.id (.inl (List.mem_map_of_mem ht))
    rw [he] at hlt
    exact Nat.lt_irrefl _ hlt
  have hnew : (⟨s.spawned + 1⟩ : ThreadId) ∉ s.ready := by
    intro hmem
    have hlt := hfresh _ (.inr hmem)
    exact Nat.lt_irrefl _ hlt
  refine ⟨?_, ?_, nofun, ?_, ?_⟩
  · show ((s.threads ++ [_]).map Thread.id).Pairwise _
    rw [List.map_append, List.pairwise_append]
    refine ⟨hq.ascending, List.pairwise_singleton .., fun a ha b hb => ?_⟩
    rw [List.mem_singleton.mp hb]
    exact hfresh a (.inl ha)
  · intro id hid
    have hcases : (id ∈ s.threads.map Thread.id ∨ id ∈ s.ready) ∨ id = ⟨s.spawned + 1⟩ := by
      simp only [Scheduler.spawn, List.map_append, List.map_cons, List.map_nil, List.mem_append,
        List.mem_singleton] at hid
      rcases hid with (hid | hid) | (hid | hid)
      · exact .inl (.inl hid)
      · exact .inr hid
      · exact .inl (.inr hid)
      · exact .inr hid
    show 1 ≤ id.number ∧ id.number ≤ s.spawned + 1
    rcases hcases with hid | rfl
    · have hissued := hq.issued id hid
      exact ⟨hissued.1, Nat.le_succ_of_le hissued.2⟩
    · exact ⟨Nat.succ_pos _, Nat.le_refl _⟩
  · intro t ht hs _
    show (s.ready ++ [_]).count t.id = 1
    rw [List.count_append]
    rcases List.mem_append.mp ht with ht | ht
    · have hne := hold t ht
      simp [hq.once t ht hs nofun, hne.symm]
    · rw [List.mem_singleton.mp ht]
      simp [List.count_eq_zero.mpr hnew]
  · intro t ht hor hmem
    have hs : t.state ≠ .runnable := by simpa using hor
    rcases List.mem_append.mp ht with ht | ht
    · rcases List.mem_append.mp hmem with hmem | hmem
      · exact hq.absent t ht (.inl hs) hmem
      · exact hold t ht (List.mem_singleton.mp hmem)
    · rw [List.mem_singleton.mp ht] at hs
      exact hs rfl

/-- All ways in which a thread is killed. -/
theorem kill_eq_ok {id : ThreadId} (hk : s.kill id = .ok s') :
    (∃ t ∈ s.threads, t.id = id) ∧ s' = { s with threads := s.threads.filter (·.id != id) } := by
  unfold kill at hk
  cases hf : s.thread? id with
  | none =>
    rw [hf] at hk
    cases hk
  | some t =>
    rw [hf] at hk
    cases hk
    exact ⟨⟨t, mem_of_thread? hf⟩, rfl⟩

theorem Queued.kill (hq : s.Queued none) {id : ThreadId} (hk : s.kill id = .ok s') :
    s'.Queued none := by
  obtain ⟨-, rfl⟩ := kill_eq_ok hk
  have hsub : ((s.threads.filter (·.id != id)).map Thread.id).Sublist (s.threads.map Thread.id) :=
    List.filter_sublist.map _
  refine ⟨hq.ascending.sublist hsub, ?_, nofun, ?_, ?_⟩
  · intro i hi
    exact hq.issued i (hi.imp_left fun hi => hsub.subset hi)
  · intro t ht
    exact hq.once t (List.mem_of_mem_filter ht)
  · intro t ht
    exact hq.absent t (List.mem_of_mem_filter ht)

end Scheduler

namespace Machine

variable {m m' : Machine}

/-! ### Turns and collections -/

theorem sameThreads_putBack (m : Machine) (t : Thread) :
    m.scheduler.SameThreads (m.putBack t).scheduler := by
  unfold putBack
  split
  · split
    · exact ⟨Waits.map_id_update, rfl⟩
    · exact ⟨Waits.map_id_update, rfl⟩
  · exact ⟨Waits.map_id_update, rfl⟩

theorem queued_putBack {t : Thread} (hq : m.scheduler.Queued (some t.id)) :
    (m.putBack t).scheduler.Queued none := by
  obtain ⟨u, hu, hid, hrun⟩ := hq.busy t.id rfl
  have hmem : t.id ∈ m.scheduler.threads.map Thread.id := hid ▸ List.mem_map_of_mem hu
  -- its entry was taken off the queue when its turn began, and nobody has woken it since
  have hout : t.id ∉ m.scheduler.ready := by
    rw [← hid]
    exact hq.absent u hu (.inr (congrArg some hid.symm))
  have hidle : (none : Option ThreadId) ≠ some t.id := nofun
  have hothers : ∀ id, id ≠ t.id → ((none : Option ThreadId) = some id ↔ some t.id = some id) := by
    intro id hne
    simp [hne.symm]
  unfold putBack
  split
  · next hs =>
    split
    · exact (hq.put (t := { t with state := .terminated }) hmem hout hidle hothers).2 nofun
    · exact (hq.put hmem hout hidle hothers).1 (ThreadState.isRunnable_iff.mp hs)
  · next hs =>
    rw [ThreadState.isRunnable_iff] at hs
    exact (hq.put hmem hout hidle hothers).2 hs

/-- A thread is runnable after a collection if it was before. -/
theorem Relocation.runnable_iff {φ : Node → Node} (hr : Relocation m m' φ)
    (hw : Waits m.heap m.scheduler.threads m.scheduler.spawned) {t : Thread}
    (ht : t ∈ m.scheduler.threads) : (t.relocate φ).state = .runnable ↔ t.state = .runnable := by
  show t.state.relocate φ = .runnable ↔ _
  cases hs : t.state with
  | waiting v =>
    obtain ⟨w, -, hrel⟩ := hr.waiting hw ht hs
    rw [hs] at hrel
    rw [hrel]
    simp
  | _ => simp [ThreadState.relocate]

theorem sameThreads_collect (hc : m.collect = .ok m') : m.scheduler.SameThreads m'.scheduler := by
  obtain ⟨φ, hr⟩ := relocation_of_collect hc
  refine ⟨?_, hr.spawned⟩
  rw [hr.threads, List.map_map]
  rfl

theorem queued_collect (hw : Waits m.heap m.scheduler.threads m.scheduler.spawned)
    (hq : m.scheduler.Queued none) (hc : m.collect = .ok m') : m'.scheduler.Queued none := by
  obtain ⟨φ, hr⟩ := relocation_of_collect hc
  have hready : m'.scheduler.ready = m.scheduler.ready := hr.ready_eq hw
  -- a collection neither wakes threads nor puts them to sleep
  have himage : ∀ t' ∈ m'.scheduler.threads, ∃ t ∈ m.scheduler.threads, t'.id = t.id ∧
      (t'.state = .runnable ↔ t.state = .runnable) := by
    intro t' ht'
    rw [hr.threads] at ht'
    obtain ⟨t, ht, rfl⟩ := List.mem_map.mp ht'
    exact ⟨t, ht, rfl, hr.runnable_iff hw ht⟩
  refine hq.of_same (sameThreads_collect hc) ?_ nofun ?_ ?_
  · intro id hid
    rw [hready] at hid
    exact .inl hid
  · intro t' ht' hs _
    obtain ⟨t, ht, hid, hiff⟩ := himage t' ht'
    rw [hready, hid]
    exact hq.once t ht (hiff.mp hs) nofun
  · intro t' ht' hor
    obtain ⟨t, ht, hid, hiff⟩ := himage t' ht'
    rw [hready, hid]
    rcases hor with hs | hnone
    · exact hq.absent t ht (.inl fun h => hs (hiff.mpr h))
    · cases hnone

theorem Wakes.queued {running : Option ThreadId} (hwakes : Wakes m m')
    (hq : m.scheduler.Queued running) : m'.scheduler.Queued running := by
  obtain ⟨ids, he⟩ := hwakes
  rw [he]
  exact hq.wake ids

theorem Wakes.sameThreads (hwakes : Wakes m m') : m.scheduler.SameThreads m'.scheduler := by
  obtain ⟨ids, he⟩ := hwakes
  rw [he]
  exact Scheduler.sameThreads_wake _ ids

/-- The turn of the next thread preserves the invariant. If there was none, then no thread is
    runnable. -/
theorem queued_runNext (hw : Waits m.heap m.scheduler.threads m.scheduler.spawned)
    (hq : m.scheduler.Queued none) {ran : Bool} (hr : m.runNext = .ok (ran, m')) :
    m'.scheduler.Queued none ∧
      (ran = false → ∀ t ∈ m'.scheduler.threads, t.state ≠ .runnable) := by
  rcases runNext_cases hw hr with ⟨-, s, hn, rfl⟩ |
    ⟨rfl, t, s, after, t', hn, hwakes, hid, hw', hor⟩
  · obtain ⟨hq', hidle⟩ := Scheduler.Queued.nextFrom hq hn
    exact ⟨hq', fun _ => hidle rfl⟩
  · obtain ⟨hq', -⟩ := Scheduler.Queued.nextFrom hq hn
    have hturn : after.scheduler.Queued (some t'.id) := by
      rw [hid]
      exact hwakes.queued hq'
    have hback := queued_putBack hturn
    refine ⟨?_, nofun⟩
    rcases hor with rfl | hc
    · exact hback
    · exact queued_collect hw' hback hc

theorem sameThreads_runNext (hw : Waits m.heap m.scheduler.threads m.scheduler.spawned)
    {ran : Bool} (hr : m.runNext = .ok (ran, m')) : m.scheduler.SameThreads m'.scheduler := by
  rcases runNext_cases hw hr with ⟨-, s, hn, rfl⟩ |
    ⟨-, t, s, after, t', hn, hwakes, -, -, hor⟩
  · obtain ⟨hthreads, hspawned, -⟩ := nextFrom_cases hn
    exact ⟨by rw [hthreads], hspawned⟩
  · obtain ⟨hthreads, hspawned, -⟩ := nextFrom_cases hn
    have hnext : m.scheduler.SameThreads s := ⟨by rw [hthreads], hspawned⟩
    have hback := (hnext.trans hwakes.sameThreads).trans (sameThreads_putBack after t')
    rcases hor with rfl | hc
    · exact hback
    · exact hback.trans (sameThreads_collect hc)

/-! ### All reachable machines -/

theorem queued_new (id : MachineId) (c : Configuration) :
    (Machine.new id c).scheduler.Queued none := by
  refine ⟨List.Pairwise.nil, ?_, nofun, nofun, nofun⟩
  intro i hi
  rcases hi with hi | hi
  · cases hi
  · cases hi

theorem queued_spawn (hq : m.scheduler.Queued none) {code : List Instruction}
    {registers : List Node} {id : ThreadId} (hs : m.spawn code registers = .ok (id, m')) :
    m'.scheduler.Queued none := by
  obtain ⟨-, -, hs⟩ := bind_eq_ok.mp hs
  cases hs
  exact hq.spawn code registers

theorem queued_kill (hq : m.scheduler.Queued none) {id : ThreadId} (hk : m.kill id = .ok m') :
    m'.scheduler.Queued none := by
  obtain ⟨s, hs, hk⟩ := bind_eq_ok.mp hk
  cases hk
  exact hq.kill hs

/-- Between the operations of a host the queue agrees with the table. -/
theorem Reachable.queued (hm : Reachable m) : m.scheduler.Queued none := by
  have hboth : Waits m.heap m.scheduler.threads m.scheduler.spawned ∧ m.scheduler.Queued none :=
    hm.invariant (P := fun m => Waits m.heap m.scheduler.threads m.scheduler.spawned ∧
        m.scheduler.Queued none)
      (fun id c => ⟨waits_new id c, queued_new id c⟩) (fun hP => hP.1.balanced)
      (fun hP hc => ⟨hP.1.change hc, (wakes_of_changes (.single hc)).queued hP.2⟩)
      (fun hP hs => ⟨waits_spawn hP.1 hs, queued_spawn hP.2 hs⟩)
      (fun hP hk => ⟨waits_kill hP.1 hk, queued_kill hP.2 hk⟩)
      (fun hP hr => ⟨waits_runNext hP.1 hr, (queued_runNext hP.1 hP.2 hr).1⟩)
      (fun hP hc => ⟨waits_collect hP.1 hc, queued_collect hP.1 hP.2 hc⟩)
  exact hboth.2

end Machine

end Dataflow
