import Dataflow.Proofs.Chronicle
import Dataflow.Proofs.Slices

/-! # A run comes to an end

  A careful host passes to the machine only nodes that it has had from this machine since the last
  collection, and keeps its hands off the controls of calls. Such a host leaves the machine orderly.
  So each turn of a run completes and makes progress, and there are at most as many turns as the rank
  of the machine allows: no run is endless, and none is cut short by the bound on its turns.
-/

namespace Dataflow.Machine

variable {m m' : Machine}

/-! ### Turns until nothing is ready -/

/-- The first machine comes to the second in so many turns, each of which makes progress, and then no
    thread is ready. -/
inductive Runs : Nat → Machine → Machine → Prop where
  | idle {m m' : Machine} : m.runNext = .ok (false, m') → Runs 0 m m'
  | turn {m next m' : Machine} {count : Nat} : m.runNext = .ok (true, next) → m.Progress next →
      Runs count next m' → Runs (count + 1) m m'

/-- An orderly machine takes turns until nothing is ready, if there are as many as its rank. -/
theorem Orderly.turns {n : Nat} (ho : m.Orderly)
    (hw : Waits m.heap m.scheduler.threads m.scheduler.spawned) (hn : m.rank < n) :
    ∃ count m', turns n m = .ok (count, m') ∧ Runs count m m' ∧ count ≤ m.rank := by
  induction n generalizing m with
  | zero => cases hn
  | succ n ih =>
    obtain ⟨ran, next, hr, ho', hran⟩ := ho.runNext hw
    rw [Machine.turns, hr, ok_bind]
    cases ran with
    | false => exact ⟨0, next, rfl, .idle hr, Nat.zero_le _⟩
    | true =>
      obtain ⟨hprogress, hrank⟩ := hran rfl
      obtain ⟨count, last, ht, hruns, hle⟩ := ih ho' (waits_runNext hw hr) (by omega)
      simp only [ht, ok_bind]
      exact ⟨count + 1, last, rfl, .turn hr hprogress hruns, by omega⟩

theorem rank_lt_mul (m : Machine) :
    m.rank < (m.remaining + 1) * (m.scheduler.threads.length + 1) := by
  have hawake := m.awake_le
  unfold rank
  rw [Nat.succ_mul]
  omega

/-- The bound on the turns of a run is greater than the rank. -/
theorem rank_lt_turnBound (m : Machine) : m.rank < m.turnBound := by
  unfold turnBound
  generalize hr : m.scheduler.ready.length = r
  generalize ht : m.scheduler.threads.length = t
  calc m.rank
      < (m.remaining + 1) * (t + 1) := ht ▸ m.rank_lt_mul
    _ ≤ (m.remaining + 2) * (t + r + 2) := Nat.mul_le_mul (by omega) (by omega)
    _ ≤ (m.remaining + 2) * (t + r + 2) * (2 * (t + r) + 4) := Nat.le_mul_of_pos_right _ (by omega)

theorem Orderly.run (ho : m.Orderly)
    (hw : Waits m.heap m.scheduler.threads m.scheduler.spawned) :
    ∃ report m', m.run = .ok (report, m') ∧ Runs report.turns m m' ∧ report.turns ≤ m.rank := by
  obtain ⟨count, m', ht, hruns, hle⟩ := ho.turns hw m.rank_lt_turnBound
  unfold Machine.run
  simp only [ht, ok_bind]
  exact ⟨_, m', rfl, hruns, hle⟩

/-! ### Careful hosts -/

/-- What a careful host does with a machine: the nodes that it passes are trusted. -/
inductive CarefulStep : Machine → Machine → Prop where
  | newAtom (m : Machine) (content : String) : CarefulStep m (m.newAtom content).2
  | newVariable (m : Machine) : CarefulStep m m.newVariable.2
  | addRoot (m : Machine) (n : Node) : m.Trusts n → CarefulStep m (m.addRoot n).2
  | takeOutput (m : Machine) : CarefulStep m m.takeOutput.2
  | newException (m : Machine) (kind : String) (arguments : List Node) :
      (∀ n ∈ arguments, m.Trusts n) → CarefulStep m (m.newException kind arguments).2
  | buildRecord {m m' : Machine} {n : Node} (label : Node) (fields : List (Node × Node)) :
      m.Trusts label → (∀ e ∈ fields, m.Trusts e.1 ∧ m.Trusts e.2) →
      m.buildRecord label fields = .ok (.ok (n, m')) → CarefulStep m m'
  | buildTuple {m m' : Machine} {n : Node} (label : Node) (values : List Node) :
      m.Trusts label → (∀ x ∈ values, m.Trusts x) →
      m.buildTuple label values = .ok (.ok (n, m')) → CarefulStep m m'
  | bind {m m' : Machine} (v : VarRef) (value : Node) : m.Trusts (.variable v) → m.Trusts value →
      m.bind v value = .ok (.ok m') → CarefulStep m m'
  | call {m m' : Machine} {o : Outcome} (b : Builtin) (operands : List Node) :
      (∀ n ∈ operands, m.Trusts n) → m.call b operands = .ok (o, m') → CarefulStep m m'
  | dotNumber {m m' : Machine} {o : Outcome} (value : Node) (i : Int) : m.Trusts value →
      m.dotNumber value i = .ok (o, m') → CarefulStep m m'
  | spawn {m m' : Machine} {id : ThreadId} (code : List Instruction) (registers : List Node) :
      (∀ n ∈ registers, m.Trusts n) → m.spawn code registers = .ok (id, m') → CarefulStep m m'
  | kill {m m' : Machine} (id : ThreadId) : m.kill id = .ok m' → CarefulStep m m'
  | runNext {m m' : Machine} {ran : Bool} : m.runNext = .ok (ran, m') → CarefulStep m m'
  | run {m m' : Machine} {report : Report} : m.run = .ok (report, m') → CarefulStep m m'
  | collect {m m' : Machine} : m.collect = .ok m' → CarefulStep m m'

theorem CarefulStep.hostStep (hstep : CarefulStep m m') : HostStep m m' := by
  cases hstep with
  | newAtom content => exact .newAtom _ content
  | newVariable => exact .newVariable _
  | addRoot n _ => exact .addRoot _ n
  | takeOutput => exact .takeOutput _
  | newException kind arguments _ => exact .newException _ kind arguments
  | buildRecord label fields _ _ hb => exact .buildRecord label fields hb
  | buildTuple label values _ _ hb => exact .buildTuple label values hb
  | bind v value _ _ hb => exact .bind v value hb
  | call b operands _ hc => exact .call b operands hc
  | dotNumber value i _ hc => exact .dotNumber value i hc
  | spawn code registers _ hs => exact .spawn code registers hs
  | kill id hk => exact .kill id hk
  | runNext hr => exact .runNext hr
  | run hr => exact .run hr
  | collect hc => exact .collect hc

/-- A machine that a careful host can bring about. -/
inductive Tended : Machine → Prop where
  | new (id : MachineId) (c : Configuration) : Tended (Machine.new id c)
  | step {m m' : Machine} : Tended m → CarefulStep m m' → Tended m'

theorem Tended.reachable (hm : Tended m) : Reachable m := by
  induction hm with
  | new id c => exact .new id c
  | step _ hstep ih => exact ih.step hstep.hostStep

/-! ### Careful hosts leave the machine orderly -/

theorem orderly_new (id : MachineId) (c : Configuration) : (Machine.new id c).Orderly := by
  have hcell : ∀ {v : VarRef} {cell : Cell}, (Machine.new id c).heap.cell v ≠ .ok cell := by
    intro v cell hc
    have hlt := Heap.lt_of_cell hc
    simp [Machine.new] at hlt
  have hrecord : ∀ {ref : RecordRef} {r : Record}, (Machine.new id c).heap.record ref ≠ .ok r := by
    intro ref r hr
    have hr := Heap.record_eq_ok_iff.mp hr
    simp [Machine.new] at hr
  refine ⟨⟨fun hr => absurd hr hrecord, fun hr => absurd hr hrecord, fun hc => absurd hc hcell, ?_⟩,
    rfl, ?_, fun _ hn => absurd hn List.not_mem_nil, fun _ ht => absurd ht List.not_mem_nil⟩
  · rintro c' ⟨v, ls, hc, -⟩
    exact absurd hc hcell
  · -- a quantum of zero is raised to one
    show 1 ≤ (c.quantum.map (max 1)).getD 64
    cases c.quantum with
    | none => decide
    | some q => exact Nat.le_max_left 1 q

theorem Orderly.spawn (ho : m.Orderly) {code : List Instruction} {registers : List Node}
    {id : ThreadId} (hregisters : ∀ n ∈ registers, m.Trusts n)
    (hs : m.spawn code registers = .ok (id, m')) : m'.Orderly := by
  obtain ⟨u, hcheck, hs⟩ := bind_eq_ok.mp hs
  cases hs
  refine ho.of_heap_eq rfl rfl rfl rfl ho.roots fun t ht => ?_
  rcases List.mem_append.mp ht with ht | ht
  · exact ho.threads t ht
  · rw [List.mem_singleton.mp ht]
    exact ⟨hregisters, forM_eq_ok hcheck, by simp⟩

theorem Orderly.kill (ho : m.Orderly) {id : ThreadId} (hk : m.kill id = .ok m') : m'.Orderly := by
  obtain ⟨s, hs, hk⟩ := bind_eq_ok.mp hk
  cases hk
  obtain ⟨-, rfl⟩ := Scheduler.kill_eq_ok hs
  exact ho.of_heap_eq rfl rfl rfl rfl ho.roots fun t ht => ho.threads t (List.mem_of_mem_filter ht)

theorem Orderly.addRoot (ho : m.Orderly) {n : Node} (hn : m.Trusts n) : (m.addRoot n).2.Orderly := by
  refine ho.of_heap_eq rfl rfl rfl rfl (fun x hx => ?_) ho.threads
  rcases List.mem_append.mp hx with hx | hx
  · exact ho.roots x hx
  · rw [List.mem_singleton.mp hx]
    exact hn

theorem Settles.orderly {x : Except Fault (Outcome × Machine)} {o : Outcome} (hs : m.Settles x)
    (hx : x = .ok (o, m')) : m'.Orderly := by
  obtain ⟨o', m'', hx', hdone⟩ := hs
  rw [hx] at hx'
  cases hx'
  exact hdone.advances.orderly

theorem Orderly.step (ho : m.Orderly)
    (hw : Waits m.heap m.scheduler.threads m.scheduler.spawned) (hstep : CarefulStep m m') :
    m'.Orderly := by
  -- a turn, which a run repeats
  have hnext : ∀ {m m' : Machine} {ran : Bool},
      m.Orderly ∧ Waits m.heap m.scheduler.threads m.scheduler.spawned →
      m.runNext = .ok (ran, m') →
      m'.Orderly ∧ Waits m'.heap m'.scheduler.threads m'.scheduler.spawned := by
    rintro m m' ran ⟨ho, hw⟩ hr
    obtain ⟨ran', next, hr', ho', -⟩ := ho.runNext hw
    rw [hr] at hr'
    cases hr'
    exact ⟨ho', waits_runNext hw hr⟩
  cases hstep with
  | newAtom content =>
    rw [newAtom_eq]
    exact (ho.intern content).orderly
  | newVariable => exact ho.newVariable.orderly
  | addRoot n hn => exact ho.addRoot hn
  | takeOutput =>
    have hadv : m.Advances m.takeOutput.2 :=
      ho.advance_idle rfl rfl rfl rfl rfl ⟨.refl _, ho.heap⟩
    exact hadv.orderly
  | newException kind arguments ha =>
    exact (advances_making.newException ho.advances kind ha).1.orderly
  | buildRecord label fields hl hf hb =>
    exact (advances_making.buildRecord ho.heap.trusted_deref ho.advances hl hf hb).1.orderly
  | buildTuple label values hl hv hb =>
    exact (advances_making.buildTuple ho.heap.trusted_deref ho.advances hl hv hb).1.orderly
  | bind v value hv hx hb =>
    obtain ⟨target, -, hd, -⟩ := bindWithin_cases hb
    obtain ⟨m'', hb', hadv⟩ := ho.bind hw hv hx hd
    rw [hb] at hb'
    cases hb'
    exact hadv.orderly
  | call b operands ht hc => exact (settles_call ho hw (length_of_call hc) ht).orderly hc
  | dotNumber value i hv hc => exact ((ho.discipline hw .dotNumber).dotNumber hv i).orderly hc
  | spawn code registers hr hs => exact ho.spawn hr hs
  | kill id hk => exact ho.kill hk
  | runNext hr => exact (hnext ⟨ho, hw⟩ hr).1
  | run hr =>
    obtain ⟨count, ht, -⟩ := turns_of_run hr
    exact (turns_induct (P := fun m => m.Orderly ∧
      Waits m.heap m.scheduler.threads m.scheduler.spawned) hnext ⟨ho, hw⟩ ht).1
  | collect hc =>
    obtain ⟨m'', hc', ho'⟩ := ho.collect hw
    rw [hc] at hc'
    cases hc'
    exact ho'

theorem Tended.orderly (hm : Tended m) : m.Orderly := by
  induction hm with
  | new id c => exact orderly_new id c
  | step hm hstep ih => exact ih.step hm.reachable.waits hstep

/-! ### The theorem -/

/-- In the hands of a careful host a run of a machine ends, whatever its settings and its threads.
    Each turn makes progress: the thread that has its turn does an instruction, or is not runnable any
    more. The instructions still to be done and the threads bound the number of turns, and after the
    run no thread is runnable. -/
theorem Tended.run_ends (hm : Tended m) :
    ∃ report m', m.run = .ok (report, m') ∧ Runs report.turns m m' ∧
      report.turns < (m.remaining + 1) * (m.scheduler.threads.length + 1) ∧
      ∀ t ∈ m'.scheduler.threads, t.state ≠ .runnable := by
  obtain ⟨report, m', hr, hruns, hle⟩ := hm.orderly.run hm.reachable.waits
  obtain ⟨count, ht, -⟩ := turns_of_run hr
  exact ⟨report, m', hr, hruns, Nat.lt_of_le_of_lt hle m.rank_lt_mul, idle_of_turns hm.reachable ht⟩

/-- As long as no variable has a control, what fits is trusted. -/
theorem trusts_of_forall (hcells : ∀ c ∈ m.heap.cells.toList, cellControls c = []) {n : Node}
    (hn : m.heap.Fits m.id n) : m.Trusts n := by
  refine ⟨hn, ?_⟩
  rintro c - ⟨v, ls, hv, hl⟩
  have hin := Array.mem_toList_iff.mpr (Array.mem_of_getElem? (Heap.cell_eq_ok_iff.mp hv))
  have hmem : .variable c ∈ cellControls (.unbound ls) := mem_controls.mpr ⟨c, hl, rfl⟩
  rw [hcells _ hin] at hmem
  cases hmem

/-- A machine that collects after every turn of one call, with a thread that waits for one of two
    variables and a thread that binds the first of them. -/
def contested : Machine :=
  { id := ⟨0⟩
    settings := { quantum := 1 }
    heap := {
      settings := { threshold := 0 }
      records := #[⟨.unit, .tuple, [.variable ⟨0⟩, .variable ⟨1⟩]⟩]
      cells := #[.unbound [], .unbound []]
      allocated := 3 }
    scheduler := {
      ready := [⟨1⟩, ⟨2⟩]
      threads := [
        { id := ⟨1⟩, registers := [.record ⟨0⟩, .unit], code := [⟨.waitOr, [0], [1]⟩] },
        { id := ⟨2⟩, registers := [.variable ⟨0⟩, .int 7], code := [⟨.bind, [0, 1], []⟩] }]
      spawned := 2 } }

theorem tended_contested : Tended contested := by
  have h₂ := ((Tended.new ⟨0⟩ { quantum := some 0, threshold := some 0 }).step
    (.newVariable _)).step (.newVariable _)
  have h₃ := h₂.step (.buildTuple .unit [.variable ⟨0⟩, .variable ⟨1⟩]
    (trusts_of_forall (by decide) (by decide))
    (fun x hx => trusts_of_forall (by decide) (by revert x; decide)) rfl)
  have h₄ := h₃.step (.spawn [⟨.waitOr, [0], [1]⟩] [.record ⟨0⟩, .unit]
    (fun x hx => trusts_of_forall (by decide) (by revert x; decide)) rfl)
  exact h₄.step (.spawn [⟨.bind, [0, 1], []⟩] [.variable ⟨0⟩, .int 7]
    (fun x hx => trusts_of_forall (by decide) (by revert x; decide)) rfl)

theorem contested_run_ends : Tended contested ∧ ∃ report m', contested.run = .ok (report, m') ∧
    report = ⟨3, [⟨1⟩, ⟨2⟩], [], []⟩ ∧ Runs 3 contested m' ∧
    3 < (contested.remaining + 1) * (contested.scheduler.threads.length + 1) ∧
    ∀ t ∈ m'.scheduler.threads, t.state ≠ .runnable := by
  have hreport : contested.run.map Prod.fst = .ok ⟨3, [⟨1⟩, ⟨2⟩], [], []⟩ := by decide +kernel
  obtain ⟨report, m', hr, hruns, hlt, hidle⟩ := tended_contested.run_ends
  rw [hr] at hreport
  cases hreport
  exact ⟨tended_contested, _, m', hr, rfl, hruns, hlt, hidle⟩

end Dataflow.Machine
