import Dataflow.Proofs.Queue

/-! # The life of a machine's threads

  The chronicle of a machine lists the numbers that its host was given for new threads, and those of
  the threads that the host killed. No number is given out twice, and the table has just the
  threads that were spawned and not killed. So an entry of the ready queue is either that of a
  runnable thread or one that a killed thread has left behind.

  A run ends when the queue has no entry of a runnable thread, so then no thread is runnable. Its
  report names every thread of the table once, in the list for the state that the thread is in.
-/

namespace Dataflow

namespace Machine

variable {m m' : Machine} {spawned killed : List ThreadId}

/-! ### Chronicles -/

/-- The machine has come about in steps of a host that spawned and killed these threads, the latest
    first. -/
inductive Chronicle : Machine → List ThreadId → List ThreadId → Prop where
  | new (id : MachineId) (c : Configuration) : Chronicle (Machine.new id c) [] []
  | spawn {m m' : Machine} {spawned killed : List ThreadId} {id : ThreadId}
      (code : List Instruction) (registers : List Node) : Chronicle m spawned killed →
      m.spawn code registers = .ok (id, m') → Chronicle m' (id :: spawned) killed
  | kill {m m' : Machine} {spawned killed : List ThreadId} (id : ThreadId) :
      Chronicle m spawned killed → m.kill id = .ok m' → Chronicle m' spawned (id :: killed)
  /-- Any other step. -/
  | other {m m' : Machine} {spawned killed : List ThreadId} : Chronicle m spawned killed →
      HostStep m m' → (∀ code registers id, m.spawn code registers ≠ .ok (id, m')) →
      (∀ id, m.kill id ≠ .ok m') → Chronicle m' spawned killed

theorem Chronicle.reachable (hm : Chronicle m spawned killed) : Reachable m := by
  induction hm with
  | new id c => exact .new id c
  | spawn code registers _ hs ih => exact ih.step (.spawn code registers hs)
  | kill id _ hk ih => exact ih.step (.kill id hk)
  | other _ hstep _ _ ih => exact ih.step hstep

/-- Every reachable machine has a chronicle. -/
theorem Reachable.chronicle (hm : Reachable m) : ∃ spawned killed, Chronicle m spawned killed := by
  induction hm with
  | new id c => exact ⟨[], [], .new id c⟩
  | @step m m' _ hstep ih =>
    obtain ⟨spawned, killed, hm⟩ := ih
    -- what led to the machine is forgotten, so the step is taken for a spawn or a kill if it can be
    by_cases hspawn : ∃ code registers id, m.spawn code registers = .ok (id, m')
    · obtain ⟨code, registers, id, hs⟩ := hspawn
      exact ⟨_, _, hm.spawn code registers hs⟩
    · by_cases hkill : ∃ id, m.kill id = .ok m'
      · obtain ⟨id, hk⟩ := hkill
        exact ⟨_, _, hm.kill id hk⟩
      · have hnoSpawn : ∀ code registers id, m.spawn code registers ≠ .ok (id, m') :=
          fun code registers id hs => hspawn ⟨code, registers, id, hs⟩
        have hnoKill : ∀ id, m.kill id ≠ .ok m' := fun id hk => hkill ⟨id, hk⟩
        exact ⟨_, _, hm.other hstep hnoSpawn hnoKill⟩

/-! ### What a chronicle records -/

/-- The chronicle agrees with the table. -/
structure Recorded (s : Scheduler) (spawned killed : List ThreadId) : Prop where
  /-- No number is given out twice. -/
  nodup : spawned.Nodup
  /-- The numbers of the chronicle are those that have been given out. -/
  issued : ∀ id, id ∈ spawned ↔ s.Issued id
  /-- A thread is killed after it was spawned. -/
  alive : ∀ id ∈ killed, id ∈ spawned
  /-- The table has the threads that were spawned and not killed. -/
  table : ∀ id, id ∈ s.threads.map Thread.id ↔ id ∈ spawned ∧ id ∉ killed

theorem recorded_new (id : MachineId) (c : Configuration) :
    Recorded (Machine.new id c).scheduler [] [] := by
  refine ⟨List.nodup_nil, ?_, nofun, ?_⟩
  · intro i
    show i ∈ [] ↔ 1 ≤ i.number ∧ i.number ≤ 0
    simp only [List.not_mem_nil, false_iff]
    omega
  · intro i
    simp [Machine.new]

theorem Recorded.spawn {s : Scheduler} (hrec : Recorded s spawned killed)
    (code : List Instruction) (registers : List Node) :
    Recorded (s.spawn code registers).2 ((s.spawn code registers).1 :: spawned) killed := by
  have hfresh : (⟨s.spawned + 1⟩ : ThreadId) ∉ spawned := by
    intro hmem
    have hissued : s.spawned + 1 ≤ s.spawned := ((hrec.issued _).mp hmem).2
    omega
  -- nobody can have killed it yet
  have halive : (⟨s.spawned + 1⟩ : ThreadId) ∉ killed := fun hmem => hfresh (hrec.alive _ hmem)
  refine ⟨List.nodup_cons.mpr ⟨hfresh, hrec.nodup⟩, ?_, ?_, ?_⟩
  · intro id
    have hold := hrec.issued id
    have hnew : id = ⟨s.spawned + 1⟩ ↔ id.number = s.spawned + 1 := by
      cases id
      simp
    show id ∈ ⟨s.spawned + 1⟩ :: spawned ↔ 1 ≤ id.number ∧ id.number ≤ s.spawned + 1
    rw [List.mem_cons, hold, hnew]
    unfold Scheduler.Issued
    omega
  · intro id hid
    exact List.mem_cons_of_mem _ (hrec.alive id hid)
  · intro id
    have hold := hrec.table id
    show id ∈ (s.threads ++ [_]).map Thread.id ↔ id ∈ ⟨s.spawned + 1⟩ :: spawned ∧ id ∉ killed
    rw [List.map_append, List.mem_append, hold, List.map_singleton, List.mem_singleton,
      List.mem_cons]
    constructor
    · rintro (⟨hid, hnot⟩ | rfl)
      · exact ⟨.inr hid, hnot⟩
      · exact ⟨.inl rfl, halive⟩
    · rintro ⟨rfl | hid, hnot⟩
      · exact .inr rfl
      · exact .inl ⟨hid, hnot⟩

theorem Recorded.kill {s s' : Scheduler} (hrec : Recorded s spawned killed) {id : ThreadId}
    (hk : s.kill id = .ok s') : Recorded s' spawned (id :: killed) := by
  obtain ⟨⟨t, ht, rfl⟩, rfl⟩ := Scheduler.kill_eq_ok hk
  refine ⟨hrec.nodup, hrec.issued, ?_, ?_⟩
  · intro i hi
    rcases List.mem_cons.mp hi with rfl | hi
    · exact ((hrec.table t.id).mp (List.mem_map_of_mem ht)).1
    · exact hrec.alive i hi
  · intro i
    have hold := hrec.table i
    have hfilter : i ∈ (s.threads.filter (·.id != t.id)).map Thread.id ↔
        i ∈ s.threads.map Thread.id ∧ i ≠ t.id := by
      simp only [List.mem_map, List.mem_filter, bne_iff_ne]
      constructor
      · rintro ⟨u, ⟨hu, hne⟩, rfl⟩
        exact ⟨⟨u, hu, rfl⟩, hne⟩
      · rintro ⟨⟨u, hu, rfl⟩, hne⟩
        exact ⟨u, ⟨hu, hne⟩, rfl⟩
    rw [hfilter, hold, List.mem_cons]
    tauto

theorem Recorded.same {s s' : Scheduler} (hrec : Recorded s spawned killed)
    (hsame : s.SameThreads s') : Recorded s' spawned killed := by
  refine ⟨hrec.nodup, ?_, hrec.alive, ?_⟩
  · intro id
    rw [hrec.issued]
    unfold Scheduler.Issued
    rw [hsame.spawned]
  · intro id
    rw [hsame.ids]
    exact hrec.table id

/-- A step that neither spawns nor kills a thread leaves the numbers of the table as they are. -/
theorem sameThreads_of_hostStep (hm : Reachable m) (hstep : HostStep m m')
    (hspawn : ∀ code registers id, m.spawn code registers ≠ .ok (id, m'))
    (hkill : ∀ id, m.kill id ≠ .ok m') : m.scheduler.SameThreads m'.scheduler := by
  rcases hstep.kinds hm.waits.balanced with
    hc | ⟨code, registers, id, hs⟩ | ⟨id, hk⟩ | ⟨ran, hr⟩ | ⟨report, hr⟩ | hc
  · exact (wakes_of_changes hc).sameThreads
  · exact absurd hs (hspawn code registers id)
  · exact absurd hk (hkill id)
  · exact sameThreads_runNext hm.waits hr
  · obtain ⟨count, ht, -⟩ := turns_of_run hr
    have hturns : Reachable m' ∧ m.scheduler.SameThreads m'.scheduler :=
      turns_induct (P := fun m' => Reachable m' ∧ m.scheduler.SameThreads m'.scheduler)
        (fun hP hr => ⟨hP.1.step (.runNext hr), hP.2.trans (sameThreads_runNext hP.1.waits hr)⟩)
        ⟨hm, .refl _⟩ ht
    exact hturns.2
  · exact sameThreads_collect hc

theorem Chronicle.recorded (hm : Chronicle m spawned killed) :
    Recorded m.scheduler spawned killed := by
  induction hm with
  | new id c => exact recorded_new id c
  | spawn code registers _ hs ih =>
    obtain ⟨-, -, hs⟩ := bind_eq_ok.mp hs
    cases hs
    exact ih.spawn code registers
  | kill id _ hk ih =>
    obtain ⟨s, hs, hk⟩ := bind_eq_ok.mp hk
    cases hk
    exact ih.kill hs
  | other hm hstep hspawn hkill ih =>
    exact ih.same (sameThreads_of_hostStep hm.reachable hstep hspawn hkill)

/-- An entry of the queue is that of a runnable thread, or a killed thread has left it behind. -/
theorem Chronicle.mem_ready (hm : Chronicle m spawned killed) {id : ThreadId}
    (hid : id ∈ m.scheduler.ready) :
    id ∈ killed ∨ ∃ t ∈ m.scheduler.threads, t.id = id ∧ t.state = .runnable := by
  have hq : m.scheduler.Queued none := hm.reachable.queued
  have hrec := hm.recorded
  by_cases hkilled : id ∈ killed
  · exact .inl hkilled
  · have hspawned : id ∈ spawned := (hrec.issued id).mpr (hq.issued id (.inr hid))
    obtain ⟨t, ht, rfl⟩ := List.mem_map.mp ((hrec.table id).mpr ⟨hspawned, hkilled⟩)
    refine .inr ⟨t, ht, rfl, ?_⟩
    -- a thread of the table that is not runnable has no entry
    by_contra hs
    exact hq.absent t ht (.inl hs) hid

/-! ### Reports -/

/-- A run that ends leaves no thread runnable. -/
theorem idle_of_turns {n count : Nat} (hm : Reachable m) (ht : turns n m = .ok (count, m')) :
    ∀ t ∈ m'.scheduler.threads, t.state ≠ .runnable := by
  induction n generalizing m count with
  | zero => cases ht
  | succ n ih =>
    rw [turns] at ht
    obtain ⟨⟨ran, next⟩, hr, ht⟩ := bind_eq_ok.mp ht
    cases ran with
    | false =>
      -- the last turn found no runnable thread
      cases ht
      exact (queued_runNext hm.waits hm.queued hr).2 rfl
    | true =>
      obtain ⟨⟨k, last⟩, hrest, ht⟩ := bind_eq_ok.mp ht
      cases ht
      exact ih (hm.step (.runNext hr)) hrest

section ThreadsWhere

variable {p q : ThreadState → Bool}

theorem threadsWhere_sublist (m : Machine) (p : ThreadState → Bool) :
    (m.threadsWhere p).Sublist (m.scheduler.threads.map Thread.id) :=
  List.filter_sublist.map _

theorem exists_of_mem_threadsWhere {id : ThreadId} (hid : id ∈ m.threadsWhere p) :
    ∃ t ∈ m.scheduler.threads, t.id = id ∧ p t.state = true := by
  obtain ⟨t, ht, rfl⟩ := List.mem_map.mp hid
  obtain ⟨hmem, hp⟩ := List.mem_filter.mp ht
  exact ⟨t, hmem, rfl, hp⟩

/-- A list of a report has the threads of its state, and no other. -/
theorem mem_threadsWhere (hnd : (m.scheduler.threads.map Thread.id).Nodup) {t : Thread}
    (ht : t ∈ m.scheduler.threads) : t.id ∈ m.threadsWhere p ↔ p t.state = true := by
  constructor
  · intro hid
    obtain ⟨u, hu, he, hp⟩ := exists_of_mem_threadsWhere hid
    rw [Scheduler.eq_of_id hnd hu ht he] at hp
    exact hp
  · intro hp
    exact List.mem_map_of_mem (List.mem_filter.mpr ⟨ht, hp⟩)

theorem disjoint_threadsWhere (hnd : (m.scheduler.threads.map Thread.id).Nodup)
    (hpq : ∀ state, p state = true → q state = false) :
    (m.threadsWhere p).Disjoint (m.threadsWhere q) := by
  intro id hmem hmem'
  obtain ⟨t, ht, rfl, hp⟩ := exists_of_mem_threadsWhere hmem
  rw [mem_threadsWhere hnd ht, hpq t.state hp] at hmem'
  cases hmem'

/-- Whether a thread was spawned before another, or is the same. -/
def spawnOrder (i j : ThreadId) : Bool := i.number ≤ j.number

theorem spawnOrder_iff {i j : ThreadId} : spawnOrder i j = true ↔ i.number ≤ j.number :=
  decide_eq_true_iff

/-- However the threads are enumerated, those of a state come in the order of `threadsWhere` when
    they are sorted. -/
theorem Reachable.mergeSort_eq_threadsWhere (hm : Reachable m) {threads : List Thread}
    (henum : threads.Perm m.scheduler.threads) :
    ((threads.filter fun t => p t.state).map Thread.id).mergeSort spawnOrder =
      m.threadsWhere p := by
  have hperm : ((threads.filter fun t => p t.state).map Thread.id).Perm (m.threadsWhere p) :=
    (henum.filter _).map _
  have hsorted : (((threads.filter fun t => p t.state).map Thread.id).mergeSort
      spawnOrder).Pairwise fun i j => spawnOrder i j = true := by
    apply List.pairwise_mergeSort
    · intro i j k hij hjk
      rw [spawnOrder_iff] at hij hjk ⊢
      omega
    · intro i j
      rw [Bool.or_eq_true, spawnOrder_iff, spawnOrder_iff]
      omega
  have hascending : (m.threadsWhere p).Pairwise fun i j => spawnOrder i j = true :=
    (hm.queued.ascending.sublist (threadsWhere_sublist m p)).imp fun hlt =>
      spawnOrder_iff.mpr (Nat.le_of_lt hlt)
  refine ((List.mergeSort_perm _ _).trans hperm).eq_of_pairwise ?_ hsorted hascending
  -- a number is given once, so the order is antisymmetric
  intro ⟨i⟩ ⟨j⟩ _ _ hij hji
  rw [spawnOrder_iff] at hij hji
  exact congrArg ThreadId.mk (Nat.le_antisymm hij hji)

end ThreadsWhere

/-- A thread is in one state. -/
theorem disjoint_states (hnd : (m.scheduler.threads.map Thread.id).Nodup) :
    (m.threadsWhere ThreadState.isTerminated).Disjoint (m.threadsWhere ThreadState.isWaiting) ∧
    (m.threadsWhere ThreadState.isTerminated).Disjoint (m.threadsWhere ThreadState.isFailed) ∧
    (m.threadsWhere ThreadState.isWaiting).Disjoint (m.threadsWhere ThreadState.isFailed) := by
  refine ⟨disjoint_threadsWhere hnd ?_, disjoint_threadsWhere hnd ?_,
    disjoint_threadsWhere hnd ?_⟩
  · intro state hs
    cases state with
    | terminated => rfl
    | _ => cases hs
  · intro state hs
    cases state with
    | terminated => rfl
    | _ => cases hs
  · intro state hs
    cases state with
    | waiting v => rfl
    | _ => cases hs

/-- If no thread is runnable, then every thread is done, waits or has failed. -/
theorem perm_states (hnd : (m.scheduler.threads.map Thread.id).Nodup)
    (hidle : ∀ t ∈ m.scheduler.threads, t.state ≠ .runnable) :
    (m.threadsWhere ThreadState.isTerminated ++ m.threadsWhere ThreadState.isWaiting ++
      m.threadsWhere ThreadState.isFailed).Perm (m.scheduler.threads.map Thread.id) := by
  obtain ⟨htw, htf, hwf⟩ := disjoint_states hnd
  have hnodup : ∀ p, (m.threadsWhere p).Nodup := fun p => hnd.sublist (threadsWhere_sublist m p)
  have hall : (m.threadsWhere ThreadState.isTerminated ++ m.threadsWhere ThreadState.isWaiting ++
      m.threadsWhere ThreadState.isFailed).Nodup := by
    refine List.Nodup.append (List.Nodup.append (hnodup _) (hnodup _) htw) (hnodup _) ?_
    exact List.disjoint_append_left.mpr ⟨htf, hwf⟩
  -- no list repeats a number, so it is enough to compare their members
  rw [List.perm_ext_iff_of_nodup hall hnd]
  intro id
  constructor
  · intro hid
    rcases List.mem_append.mp hid with hid | hid
    · rcases List.mem_append.mp hid with hid | hid
      · exact (threadsWhere_sublist m _).subset hid
      · exact (threadsWhere_sublist m _).subset hid
    · exact (threadsWhere_sublist m _).subset hid
  · intro hid
    obtain ⟨t, ht, rfl⟩ := List.mem_map.mp hid
    simp only [List.mem_append, mem_threadsWhere hnd ht]
    cases hs : t.state with
    | runnable => exact absurd hs (hidle t ht)
    | waiting v => exact .inl (.inr rfl)
    | terminated => exact .inl (.inl rfl)
    | failed exception => exact .inr rfl

/-- No thread is runnable, and the report has every thread of the table in the list for its
    state. -/
structure Report.Accounts (report : Report) (m : Machine) : Prop where
  idle : ∀ t ∈ m.scheduler.threads, t.state ≠ .runnable
  ascending : report.terminated.Pairwise (·.number < ·.number) ∧
    report.waiting.Pairwise (·.number < ·.number) ∧ report.failed.Pairwise (·.number < ·.number)
  disjoint : report.terminated.Disjoint report.waiting ∧
    report.terminated.Disjoint report.failed ∧ report.waiting.Disjoint report.failed
  complete : (report.terminated ++ report.waiting ++ report.failed).Perm
    (m.scheduler.threads.map Thread.id)
  filed : ∀ t ∈ m.scheduler.threads, (t.id ∈ report.terminated ↔ t.state.isTerminated = true) ∧
    (t.id ∈ report.waiting ↔ t.state.isWaiting = true) ∧
    (t.id ∈ report.failed ↔ t.state.isFailed = true)

theorem Report.accounts_of_run (hm : Reachable m) {report : Report}
    (hr : m.run = .ok (report, m')) : report.Accounts m' := by
  have hq : m'.scheduler.Queued none := (hm.step (.run hr)).queued
  have hnd := hq.nodup
  obtain ⟨count, ht, rfl⟩ := turns_of_run hr
  have hidle := idle_of_turns hm ht
  have hascending : ∀ p, (m'.threadsWhere p).Pairwise (·.number < ·.number) :=
    fun p => hq.ascending.sublist (threadsWhere_sublist m' p)
  exact
    { idle := hidle
      ascending := ⟨hascending _, hascending _, hascending _⟩
      disjoint := disjoint_states hnd
      complete := perm_states hnd hidle
      filed := fun t ht =>
        ⟨mem_threadsWhere hnd ht, mem_threadsWhere hnd ht, mem_threadsWhere hnd ht⟩ }

/-! ### The theorem -/

/-- Between the operations of a host, no two threads of the table have the same number, a thread is
    in the ready queue once if it is runnable and not at all otherwise, and every other entry was
    left behind by a thread that was killed. No number is ever given to two threads. A run that ends
    leaves no thread runnable, and its report accounts for the whole table. -/
theorem Reachable.ready_queue_exact (hm : Reachable m) :
    (m.scheduler.threads.map Thread.id).Nodup ∧
    (∀ t ∈ m.scheduler.threads,
      m.scheduler.ready.count t.id = if t.state = .runnable then 1 else 0) ∧
    (∃ spawned killed, Chronicle m spawned killed) ∧
    (∀ spawned killed, Chronicle m spawned killed → spawned.Nodup ∧
      (∀ id, id ∈ m.scheduler.threads.map Thread.id ↔ id ∈ spawned ∧ id ∉ killed) ∧
      (∀ id ∈ m.scheduler.ready,
        id ∈ killed ∨ ∃ t ∈ m.scheduler.threads, t.id = id ∧ t.state = .runnable)) ∧
    (∀ report m', m.run = .ok (report, m') → report.Accounts m') := by
  have hq := hm.queued
  refine ⟨hq.nodup, ?_, hm.chronicle, ?_, ?_⟩
  · intro t ht
    by_cases hs : t.state = .runnable
    · rw [if_pos hs]
      exact hq.once t ht hs nofun
    · rw [if_neg hs]
      exact List.count_eq_zero.mpr (hq.absent t ht (.inl hs))
  · intro spawned killed hc
    have hrec := hc.recorded
    exact ⟨hrec.nodup, hrec.table, fun id hid => hc.mem_ready hid⟩
  · intro report m' hr
    exact Report.accounts_of_run hm hr

/-- A machine with a thread that will wait, one that has nothing to do, and the entry of a thread
    that was killed between these two. -/
def bereaved : Machine :=
  { id := ⟨0⟩
    heap := { cells := #[.unbound []], allocated := 1 }
    scheduler := {
      ready := [⟨1⟩, ⟨2⟩, ⟨3⟩]
      threads := [
        { id := ⟨1⟩, registers := [.variable ⟨0⟩], code := [⟨.wait, [0], []⟩] },
        { id := ⟨3⟩, registers := [], code := [] }]
      spawned := 3 } }

theorem chronicle_bereaved : Chronicle bereaved [⟨3⟩, ⟨2⟩, ⟨1⟩] [⟨2⟩] := by
  have h₀ : Chronicle (Machine.new ⟨0⟩ {}).newVariable.2 [] [] := by
    refine (Chronicle.new ⟨0⟩ {}).other (.newVariable _) ?_ ?_
    · intro code registers id hs
      obtain ⟨-, -, hs⟩ := bind_eq_ok.mp hs
      cases hs
    · intro id hk
      cases hk
  have h₁ := h₀.spawn [⟨.wait, [0], []⟩] [.variable ⟨0⟩] rfl
  have h₂ := h₁.spawn [] [] rfl
  have h₃ := h₂.spawn [] [] rfl
  exact h₃.kill ⟨2⟩ rfl

theorem bereaved_queue : Reachable bereaved ∧ Chronicle bereaved [⟨3⟩, ⟨2⟩, ⟨1⟩] [⟨2⟩] ∧
    bereaved.scheduler.ready.count ⟨1⟩ = 1 ∧ (⟨2⟩ : ThreadId) ∈ bereaved.scheduler.ready ∧
    ∃ report m', bereaved.run = .ok (report, m') ∧ report = ⟨2, [⟨3⟩], [⟨1⟩], []⟩ ∧
      report.Accounts m' := by
  have hm : Reachable bereaved := chronicle_bereaved.reachable
  obtain ⟨m', hr⟩ : ∃ m', bereaved.run = .ok (⟨2, [⟨3⟩], [⟨1⟩], []⟩, m') := ⟨_, rfl⟩
  obtain ⟨-, hcount, -, -, hrun⟩ := hm.ready_queue_exact
  have hone : bereaved.scheduler.ready.count ⟨1⟩ = 1 := hcount _ (List.mem_cons_self ..)
  exact ⟨hm, chronicle_bereaved, hone, by decide, _, m', hr, rfl, hrun _ m' hr⟩

end Machine

end Dataflow
