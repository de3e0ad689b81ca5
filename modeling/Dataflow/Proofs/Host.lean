import Dataflow.Machine.Construct
import Dataflow.Machine.Run
import Dataflow.Proofs.Calls

/-! # Machines at the hands of a host

  A host makes nodes, builds records, pins roots, binds variables, calls builtins, spawns, kills
  and runs threads, and collects. `Machine.HostStep` has one rule for each of these, with
  arguments of any kind: nothing is assumed of the nodes that a host passes in. A request that is
  refused leaves the machine as it was, and a fault ends it, so neither is a step. The
  *reachable* machines are those that a host can bring about.

  Most steps of a host are changes of the machine. What is left are the steps that have to do
  with threads, and collections: an invariant of machines is proved for these and for changes.
-/

open Relation (ReflTransGen)

namespace Dataflow.Machine

/-! ### Reachable machines -/

/-- What a host does with a machine. -/
inductive HostStep : Machine → Machine → Prop where
  | newAtom (m : Machine) (content : String) : HostStep m (m.newAtom content).2
  | newVariable (m : Machine) : HostStep m m.newVariable.2
  | addRoot (m : Machine) (n : Node) : HostStep m (m.addRoot n).2
  | takeOutput (m : Machine) : HostStep m m.takeOutput.2
  | newException (m : Machine) (kind : String) (arguments : List Node) :
      HostStep m (m.newException kind arguments).2
  | buildRecord {m m' : Machine} {n : Node} (label : Node) (fields : List (Node × Node)) :
      m.buildRecord label fields = .ok (.ok (n, m')) → HostStep m m'
  | buildTuple {m m' : Machine} {n : Node} (label : Node) (values : List Node) :
      m.buildTuple label values = .ok (.ok (n, m')) → HostStep m m'
  | bind {m m' : Machine} (v : VarRef) (value : Node) :
      m.bind v value = .ok (.ok m') → HostStep m m'
  | call {m m' : Machine} {o : Outcome} (b : Builtin) (operands : List Node) :
      m.call b operands = .ok (o, m') → HostStep m m'
  | dotNumber {m m' : Machine} {o : Outcome} (value : Node) (i : Int) :
      m.dotNumber value i = .ok (o, m') → HostStep m m'
  | spawn {m m' : Machine} {id : ThreadId} (code : List Instruction) (registers : List Node) :
      m.spawn code registers = .ok (id, m') → HostStep m m'
  | kill {m m' : Machine} (id : ThreadId) : m.kill id = .ok m' → HostStep m m'
  | runNext {m m' : Machine} {ran : Bool} : m.runNext = .ok (ran, m') → HostStep m m'
  | run {m m' : Machine} {report : Report} : m.run = .ok (report, m') → HostStep m m'
  | collect {m m' : Machine} : m.collect = .ok m' → HostStep m m'

/-- A machine that a host can bring about. -/
inductive Reachable : Machine → Prop where
  | new (id : MachineId) (c : Configuration) : Reachable (Machine.new id c)
  | step {m m' : Machine} : Reachable m → HostStep m m' → Reachable m'

variable {m m' : Machine}

/-! ### Building records -/

/-- Every field keeps its place while its feature is looked at. -/
theorem length_featuresOf {fields : List (Node × Node)} {fs : List (Feature × Node)}
    (hf : m.featuresOf fields = .ok (.ok fs)) : fs.length = fields.length := by
  induction fields generalizing fs with
  | nil => cases hf; rfl
  | cons e rest ih =>
    rw [featuresOf] at hf
    obtain ⟨d, -, hf⟩ := bind_eq_ok.mp hf
    split at hf
    · obtain ⟨es, hes, hf⟩ := bind_eq_ok.mp hf
      cases es with
      | error e => cases hf
      | ok es =>
        cases hf
        simp [ih hes]
    · obtain ⟨text, -, hf⟩ := bind_eq_ok.mp hf
      cases hf

/-- All ways in which a record is built: it is its label, or it is allocated. -/
theorem buildRecord_cases {label n : Node} {fields : List (Node × Node)}
    (hb : m.buildRecord label fields = .ok (.ok (n, m'))) :
    (∃ l, m.labelOf label = .ok (.ok l) ∧ n = l.toNode ∧ m' = m) ∨
    ∃ l fs, m.labelOf label = .ok (.ok l) ∧ m.featuresOf fields = .ok (.ok fs) ∧
      (Record.ofSorted l (sortFields fs)).Canonical ∧
      (n, m') = m.allocate (.ofSorted l (sortFields fs)) := by
  unfold buildRecord at hb
  obtain ⟨l, hl, hb⟩ := bind_eq_ok.mp hb
  cases l with
  | error e => cases hb
  | ok l =>
    dsimp only at hb
    split at hb
    · cases hb; exact .inl ⟨l, hl, rfl, rfl⟩
    · next hempty =>
      obtain ⟨fs, hfs, hb⟩ := bind_eq_ok.mp hb
      cases fs with
      | error e => cases hb
      | ok fs =>
        dsimp only at hb
        split at hb
        · obtain ⟨text, -, hb⟩ := bind_eq_ok.mp hb
          cases hb
        · next hd =>
          have he := Except.ok.inj (Except.ok.inj hb)
          have hne : fs ≠ [] := by
            intro hnil
            have hlen := length_featuresOf hfs
            rw [hnil] at hlen
            exact hempty (List.isEmpty_iff.mpr (List.eq_nil_of_length_eq_zero hlen.symm))
          exact .inr ⟨l, fs, hl, hfs, Record.canonical_sortFields _ hne hd, he.symm⟩

/-- All ways in which a tuple is built. -/
theorem buildTuple_cases {label n : Node} {values : List Node}
    (hb : m.buildTuple label values = .ok (.ok (n, m'))) :
    (∃ l, m.labelOf label = .ok (.ok l) ∧ n = l.toNode ∧ m' = m) ∨
    ∃ l, m.labelOf label = .ok (.ok l) ∧ values ≠ [] ∧
      (n, m') = m.allocate ⟨l, .tuple, values⟩ := by
  unfold buildTuple at hb
  obtain ⟨l, hl, hb⟩ := bind_eq_ok.mp hb
  cases l with
  | error e => cases hb
  | ok l =>
    dsimp only at hb
    split at hb
    · cases hb; exact .inl ⟨l, hl, rfl, rfl⟩
    · next hempty =>
      have he := Except.ok.inj (Except.ok.inj hb)
      exact .inr ⟨l, hl, fun hnil => hempty (List.isEmpty_iff.mpr hnil), he.symm⟩

theorem changes_buildRecord {label n : Node} {fields : List (Node × Node)}
    (hb : m.buildRecord label fields = .ok (.ok (n, m'))) : ReflTransGen Change m m' := by
  rcases buildRecord_cases hb with ⟨l, -, -, rfl⟩ | ⟨l, fs, -, -, hcanon, he⟩
  · exact .refl
  · rw [show m' = (m.allocate (.ofSorted l (sortFields fs))).2 from congrArg Prod.snd he]
    exact .single (.allocate m hcanon)

theorem changes_buildTuple {label n : Node} {values : List Node}
    (hb : m.buildTuple label values = .ok (.ok (n, m'))) : ReflTransGen Change m m' := by
  rcases buildTuple_cases hb with ⟨l, -, -, rfl⟩ | ⟨l, -, hne, he⟩
  · exact .refl
  · rw [show m' = (m.allocate ⟨l, .tuple, values⟩).2 from congrArg Prod.snd he]
    exact .single (.allocate m (Record.canonical_tuple _ hne))

/-! ### Kinds of steps -/

/-- All that a step of a host comes down to. A call makes changes if records are balanced. -/
theorem HostStep.kinds (hbal : m.heap.Balanced) (hstep : HostStep m m') :
    ReflTransGen Change m m' ∨
    (∃ code registers id, m.spawn code registers = .ok (id, m')) ∨
    (∃ id, m.kill id = .ok m') ∨
    (∃ ran, m.runNext = .ok (ran, m')) ∨
    (∃ report, m.run = .ok (report, m')) ∨
    m.collect = .ok m' := by
  cases hstep with
  | newAtom content =>
    rw [newAtom_eq]
    exact .inl (.single (.intern _ content))
  | newVariable => exact .inl (.single (.newVariable _))
  | addRoot n => exact .inl (.single (.pin _ n))
  | takeOutput => exact .inl (.single (.print _ ""))
  | newException kind arguments => exact .inl (changes_newException _ kind arguments)
  | buildRecord label fields hb => exact .inl (changes_buildRecord hb)
  | buildTuple label values hb => exact .inl (changes_buildTuple hb)
  | bind v value hb => exact .inl (.single (.bind hb))
  | call b operands hc => exact .inl (does_of_call hbal hc).changes
  | dotNumber value i hc => exact .inl (does_dotNumber (f := .unit) hc).changes
  | spawn code registers hs => exact .inr (.inl ⟨code, registers, _, hs⟩)
  | kill id hk => exact .inr (.inr (.inl ⟨id, hk⟩))
  | runNext hr => exact .inr (.inr (.inr (.inl ⟨_, hr⟩)))
  | run hr => exact .inr (.inr (.inr (.inr (.inl ⟨_, hr⟩))))
  | collect hc => exact .inr (.inr (.inr (.inr (.inr hc))))

/-- A run takes turns, and reports on the machine that they lead to. -/
theorem turns_of_run {report : Report} (hr : m.run = .ok (report, m')) :
    ∃ count, turns m.turnBound m = .ok (count, m') ∧
      report = {
        turns := count
        terminated := m'.threadsWhere ThreadState.isTerminated
        waiting := m'.threadsWhere ThreadState.isWaiting
        failed := m'.threadsWhere ThreadState.isFailed } := by
  obtain ⟨⟨count, last⟩, ht, hr⟩ := bind_eq_ok.mp hr
  cases hr
  exact ⟨count, ht, rfl⟩

/-! ### Invariants -/

/-- Turns preserve what a turn preserves. -/
theorem turns_induct {P : Machine → Prop}
    (next : ∀ {m m' : Machine} {ran : Bool}, P m → m.runNext = .ok (ran, m') → P m') {n count : Nat}
    (hm : P m) (ht : turns n m = .ok (count, m')) : P m' := by
  induction n generalizing m count with
  | zero => cases ht
  | succ n ih =>
    rw [turns] at ht
    obtain ⟨⟨ran, m₁⟩, h₁, ht⟩ := bind_eq_ok.mp ht
    cases ran with
    | false => cases ht; exact next hm h₁
    | true =>
      obtain ⟨⟨k, m₂⟩, h₂, ht⟩ := bind_eq_ok.mp ht
      cases ht
      exact ih (next hm h₁) h₂

/-- What is preserved by changes, by spawning, killing and running threads and by collections is
    preserved by each step of a host. A call makes changes if records are balanced, so an invariant
    says so. -/
theorem HostStep.preserves {P : Machine → Prop} (hbalanced : ∀ {m : Machine}, P m → m.heap.Balanced)
    (hchange : ∀ {m m' : Machine}, P m → Change m m' → P m')
    (hspawn : ∀ {m m' : Machine} {code : List Instruction} {registers : List Node} {id : ThreadId},
      P m → m.spawn code registers = .ok (id, m') → P m')
    (hkill : ∀ {m m' : Machine} {id : ThreadId}, P m → m.kill id = .ok m' → P m')
    (hnext : ∀ {m m' : Machine} {ran : Bool}, P m → m.runNext = .ok (ran, m') → P m')
    (hcollect : ∀ {m m' : Machine}, P m → m.collect = .ok m' → P m') (hstep : HostStep m m')
    (hm : P m) : P m' := by
  have hchanges : ∀ {m m' : Machine}, P m → ReflTransGen Change m m' → P m' := by
    intro m m' hP hc
    induction hc with
    | refl => exact hP
    | tail _ hstep ih => exact hchange ih hstep
  rcases hstep.kinds (hbalanced hm) with
    hc | ⟨code, registers, id, hs⟩ | ⟨id, hk⟩ | ⟨ran, hr⟩ | ⟨report, hr⟩ | hc
  · exact hchanges hm hc
  · exact hspawn hm hs
  · exact hkill hm hk
  · exact hnext hm hr
  · obtain ⟨count, ht, -⟩ := turns_of_run hr
    exact turns_induct hnext hm ht
  · exact hcollect hm hc

/-- What holds of new machines and is preserved by each step of a host holds of all reachable
    machines. -/
theorem Reachable.invariant {P : Machine → Prop} (hnew : ∀ id c, P (.new id c))
    (hbalanced : ∀ {m : Machine}, P m → m.heap.Balanced)
    (hchange : ∀ {m m' : Machine}, P m → Change m m' → P m')
    (hspawn : ∀ {m m' : Machine} {code : List Instruction} {registers : List Node} {id : ThreadId},
      P m → m.spawn code registers = .ok (id, m') → P m')
    (hkill : ∀ {m m' : Machine} {id : ThreadId}, P m → m.kill id = .ok m' → P m')
    (hnext : ∀ {m m' : Machine} {ran : Bool}, P m → m.runNext = .ok (ran, m') → P m')
    (hcollect : ∀ {m m' : Machine}, P m → m.collect = .ok m' → P m') (hm : Reachable m) : P m := by
  induction hm with
  | new id c => exact hnew id c
  | step _ hstep ih => exact hstep.preserves hbalanced hchange hspawn hkill hnext hcollect ih

/-! ### Turns -/

/-- What is preserved by changes, and by parking a thread, is preserved by a turn. -/
theorem turn_induct {P : Machine → Prop} (hbalanced : ∀ {m : Machine}, P m → m.heap.Balanced)
    (hchange : ∀ {m m' : Machine}, P m → Change m m' → P m')
    (hpark : ∀ {m : Machine} {heap : Heap} {v : VarRef} {id : ThreadId} {parked : Bool}, P m →
      m.heap.addListener v (.thread id) = .ok (parked, heap) → P { m with heap }) {n : Nat}
    {t t' : Thread} (hP : P m) (ht : turn n m t = .ok (m', t')) : P m' := by
  have hchanges : ∀ {m m' : Machine}, P m → ReflTransGen Change m m' → P m' := by
    intro m m' hP hc
    induction hc with
    | refl => exact hP
    | tail _ hstep ih => exact hchange ih hstep
  -- on the calls of the turn
  induction n generalizing m t with
  | zero => cases ht; exact hP
  | succ n ih =>
    rw [turn] at ht
    cases hi : t.code[t.pc]? with
    | none =>
      rw [hi] at ht
      cases ht
      exact hP
    | some i =>
      rw [hi] at ht
      obtain ⟨operands, -, ht⟩ := bind_eq_ok.mp ht
      obtain ⟨⟨outcome, m₁⟩, hcall, ht⟩ := bind_eq_ok.mp ht
      have hP₁ : P m₁ := hchanges hP (does_of_call (hbalanced hP) hcall).changes
      cases outcome with
      | proceed results => exact ih hP₁ ht
      | raise exception => cases ht; exact hP₁
      | suspend v =>
        obtain ⟨⟨parked, heap⟩, ha, ht⟩ := bind_eq_ok.mp ht
        have hP₂ : P { m₁ with heap } := hpark hP₁ ha
        cases parked with
        | true => cases ht; exact hP₂
        | false => exact ih hP₂ ht

/-! ### Invariants of the heap -/

/-- A turn changes the heap by changes of the machine and by parking its thread. -/
theorem turn_heap_induct {P : Heap → Prop} (hbalanced : ∀ {h : Heap}, P h → h.Balanced)
    (hchange : ∀ {m m' : Machine}, P m.heap → Change m m' → P m'.heap)
    (hpark : ∀ {h h' : Heap} {v : VarRef} {id : ThreadId} {parked : Bool}, P h →
      h.addListener v (.thread id) = .ok (parked, h') → P h') {n : Nat} {t t' : Thread}
    (hP : P m.heap) (ht : turn n m t = .ok (m', t')) : P m'.heap :=
  turn_induct (P := fun m => P m.heap) hbalanced hchange hpark hP ht

/-- The turn of the next thread: there is none, or the thread is put back after its turn, and the
    machine may collect. -/
theorem runNext_slices {ran : Bool} (hr : m.runNext = .ok (ran, m')) :
    (ran = false ∧ ∃ s, m.scheduler.next? = (none, s) ∧ m' = { m with scheduler := s }) ∨
    (ran = true ∧ ∃ t s after t', m.scheduler.next? = (some t, s) ∧
      turn m.settings.quantum { m with scheduler := s } t = .ok (after, t') ∧
      (m' = after.putBack t' ∨ (after.putBack t').collect = .ok m')) := by
  unfold runNext at hr
  obtain ⟨next, s, hn⟩ : ∃ next s, m.scheduler.next? = (next, s) := ⟨_, _, rfl⟩
  rw [hn] at hr
  cases next with
  | none =>
    cases hr
    exact .inl ⟨rfl, s, hn, rfl⟩
  | some t =>
    obtain ⟨⟨after, t'⟩, hturn, hr⟩ := bind_eq_ok.mp hr
    dsimp only at hr
    split at hr
    · obtain ⟨m₂, hc, hr⟩ := bind_eq_ok.mp hr
      cases hr
      exact .inr ⟨rfl, t, s, after, t', hn, hturn, .inr hc⟩
    · cases hr
      exact .inr ⟨rfl, t, s, after, t', hn, hturn, .inl rfl⟩

theorem putBack_heap (m : Machine) (t : Thread) : (m.putBack t).heap = m.heap := by
  unfold putBack
  split
  · split <;> rfl
  · rfl

/-- What holds of the empty heap and is preserved by changes, by parking threads and by collections
    holds of the heaps of all reachable machines. -/
theorem Reachable.heap_invariant {P : Heap → Prop} (hnew : ∀ id c, P (Machine.new id c).heap)
    (hbalanced : ∀ {h : Heap}, P h → h.Balanced)
    (hchange : ∀ {m m' : Machine}, P m.heap → Change m m' → P m'.heap)
    (hpark : ∀ {h h' : Heap} {v : VarRef} {id : ThreadId} {parked : Bool}, P h →
      h.addListener v (.thread id) = .ok (parked, h') → P h')
    (hcollect : ∀ {m m' : Machine}, P m.heap → m.collect = .ok m' → P m'.heap)
    (hm : Reachable m) : P m.heap := by
  refine hm.invariant (P := fun m => P m.heap) hnew hbalanced hchange ?_ ?_ ?_ hcollect
  · intro m m' code registers id hP hs
    obtain ⟨-, -, hs⟩ := bind_eq_ok.mp hs
    cases hs
    exact hP
  · intro m m' id hP hk
    obtain ⟨s, -, hk⟩ := bind_eq_ok.mp hk
    cases hk
    exact hP
  · intro m m' ran hP hr
    rcases runNext_slices hr with ⟨-, s, -, rfl⟩ | ⟨-, t, s, after, t', -, hturn, hor⟩
    · exact hP
    · have hafter : P (after.putBack t').heap := by
        rw [putBack_heap]
        exact turn_heap_induct (m := { m with scheduler := s }) hbalanced hchange hpark hP hturn
      rcases hor with rfl | hc
      · exact hafter
      · exact hcollect hafter hc

end Dataflow.Machine
