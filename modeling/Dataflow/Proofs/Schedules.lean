import Dataflow.Proofs.Transparency
import Dataflow.Proofs.Twins

/-! # Schedules cannot be seen

  A host makes nodes, pins them, binds variables, starts and removes threads, and lets them run until
  none of them is runnable. If no thread binds a variable, then what has become of the threads when a
  run has returned does not depend on the quantum, and so not on the order in which they were given
  their turns: not on who came first to a `waitOr`, who found its control there, nor on when garbage
  was collected.

  The proof follows a script on two machines, which stay twins from request to request and from run
  to run.
-/

namespace Dataflow

namespace Script

/-! ### Scripts whose threads bind nothing -/

/-- Whether the host makes or pins a node, binds a variable, or starts or removes a thread, which is
    not to bind anything. -/
def Request.isPlain : Request → Bool
  | .call _ _ | .dotNumber _ _ | .takeOutput => false
  | .spawn code _ => code.all (·.builtin != .bind)
  | _ => true

/-- Whether the host makes plain requests, or lets the threads run until none is runnable. -/
def Step.isPlain : Step → Bool
  | .visit requests => requests.all Request.isPlain
  | .run => true
  | .runNext | .collect => false

/-- All threads of a machine, with their registers printed to the given depth. -/
def seeThreads (depth : Nat) (m : Machine) : List ThreadSight :=
  m.scheduler.threads.map (seeThread depth m)

/-- What can be seen of the threads each time that a run has returned. Nothing is seen any more after
    a fault. -/
def watch (depth : Nat) (m : Machine) : List Step → List (List ThreadSight)
  | [] => []
  | s :: ss =>
    match s.perform depth m with
    | .error _ => []
    | .ok (_, m) => if s = .run then seeThreads depth m :: watch depth m ss else watch depth m ss

/-! ### Visits to twins -/

variable {β : VarRef → VarRef → Prop} {m m' : Machine} {v v' : Visit}

/-- The host visits twins, and has received the same nodes from them. -/
structure VisitTwins (β : VarRef → VarRef → Prop) (v v' : Visit) : Prop where
  twins : Twins β v.machine v'.machine
  held : List.Forall₂ (Handed β v.machine v'.machine) v.held v'.held

/-- Both visits went on, whatever was replied. -/
def WentOn {α : Type} (r r' : α × Visit) : Prop := ∃ β₁, VisitTwins β₁ r.2 r'.2

theorem VisitTwins.read (hv : VisitTwins β v v') (x : Operand) :
    Agree (Handed β v.machine v'.machine) (v.read x) (v'.read x) := by
  cases x with
  | int i => exact .ok ⟨.of_value (.int i) rfl, .of_value trivial rfl, .of_value trivial rfl⟩
  | float x => exact .ok ⟨.of_value (.float x) rfl, .of_value trivial rfl, .of_value trivial rfl⟩
  | bool x => exact .ok ⟨.of_value (.bool x) rfl, .of_value trivial rfl, .of_value trivial rfl⟩
  | unit => exact .ok ⟨.of_value .unit rfl, .of_value trivial rfl, .of_value trivial rfl⟩
  | held i => exact entry_alike hv.held i
  | root slot => exact entry_alike hv.twins.root slot

theorem VisitTwins.readAll (hv : VisitTwins β v v') (xs : List Operand) :
    Agree (List.Forall₂ (Handed β v.machine v'.machine)) (xs.mapM v.read) (xs.mapM v'.read) :=
  Agree.mapM (List.forall₂_same.mpr fun _ _ => rfl) fun x _ hx => hx ▸ hv.read x

theorem VisitTwins.readFields (hv : VisitTwins β v v') (xs : List (Operand × Operand)) :
    Agree (List.Forall₂ fun e e' => Handed β v.machine v'.machine e.1 e'.1 ∧
        Handed β v.machine v'.machine e.2 e'.2)
      (xs.mapM v.readField) (xs.mapM v'.readField) := by
  refine Agree.mapM (List.forall₂_same.mpr fun _ _ => rfl) fun x x' hx => ?_
  subst hx
  refine (hv.read x.1).bind fun n n' _ _ hn => ?_
  refine (hv.read x.2).bind fun k k' _ _ hk => ?_
  exact .ok ⟨hn, hk⟩

/-- The host keeps what it has received when the machines go on. -/
theorem VisitTwins.onward (hv : VisitTwins β v v') {β₁ : VarRef → VarRef → Prop}
    (h : Onward β v.machine v'.machine β₁ m m') :
    VisitTwins β₁ { v with machine := m } { v' with machine := m' } :=
  ⟨h.twins, hv.held.imp fun _ _ hn => h.handed hn⟩

theorem VisitTwins.receive (hv : VisitTwins β v v') (depth : Nat) {r r' : Node × Machine}
    (hr : Received β v.machine v'.machine r r') :
    Agree WentOn (v.receive depth r) (v'.receive depth r') := by
  obtain ⟨β₁, h, hn⟩ := hr
  have htext : r.2.print r.1 depth = r'.2.print r'.1 depth := hn.resembles.print depth
  refine (Agree.of_eq htext).bind fun text text' _ _ _ => ?_
  exact .ok ⟨β₁, h.twins, List.rel_append (hv.onward h).held (.cons hn .nil)⟩

theorem VisitTwins.receive? (hv : VisitTwins β v v') (depth : Nat)
    {r r' : Except Refusal (Node × Machine)}
    (hr : Agree (Received β v.machine v'.machine) r r') :
    Agree WentOn (v.receive? depth r) (v'.receive? depth r') := by
  cases hr with
  | ok hr => exact hv.receive depth hr
  | error e => exact .ok ⟨β, hv⟩

theorem VisitTwins.bind (hv : VisitTwins β v v') {n n' x x' : Node}
    (hn : Handed β v.machine v'.machine n n') (hx : Handed β v.machine v'.machine x x') :
    Agree WentOn (v.bind n x) (v'.bind n' x') := by
  obtain ⟨d, d', hd, hd', hm⟩ := hn.resembles
  have hdet : v.machine.isDetermined n = .ok d.asVariable?.isNone := Heap.isDetermined_eq hd
  have hdet' : v'.machine.isDetermined n' = .ok d'.asVariable?.isNone := Heap.isDetermined_eq hd'
  cases hm with
  | «variable» hu =>
    obtain ⟨y, rfl⟩ := variable_of_deref hd
    obtain ⟨y', rfl⟩ := variable_of_deref hd'
    obtain ⟨m₁, m₁', β₁, hb, hb', h⟩ := hv.twins.bind hn hx hd hd' hu
    unfold Visit.bind
    rw [hdet, hdet']
    simp only [ok_bind, Node.asVariable?, Option.isNone_some, hb, hb']
    exact .ok ⟨β₁, hv.onward h⟩
  | _ =>
    rw [Visit.bind_determined hdet, Visit.bind_determined hdet']
    exact .ok ⟨β, hv⟩

/-- A plain request leaves twins. -/
theorem VisitTwins.perform (hv : VisitTwins β v v') (depth : Nat) {r : Request}
    (hr : r.isPlain = true) : Agree WentOn (v.perform depth r) (v'.perform depth r) := by
  -- as for two hosts in step, for the requests that a plain script makes
  cases r with
  | newAtom content => exact hv.receive depth (hv.twins.newAtom content)
  | newVariable => exact hv.receive depth hv.twins.newVariable
  | newException kind arguments =>
    refine (hv.readAll arguments).bind fun ns ns' _ _ hns => ?_
    exact hv.receive depth (hv.twins.newException kind hns)
  | buildTuple label values =>
    refine (hv.read label).bind fun n n' _ _ hn => ?_
    refine (hv.readAll values).bind fun ns ns' _ _ hns => ?_
    refine (hv.twins.buildTuple hn hns).bind fun made made' _ _ hmade => ?_
    exact hv.receive? depth hmade
  | buildRecord label fields =>
    refine (hv.read label).bind fun n n' _ _ hn => ?_
    refine (hv.readFields fields).bind fun fs fs' _ _ hfs => ?_
    refine (hv.twins.buildRecord hn hfs).bind fun made made' _ _ hmade => ?_
    exact hv.receive? depth hmade
  | addRoot value =>
    refine (hv.read value).bind fun n n' _ _ hn => ?_
    exact .ok ⟨β, hv.onward (hv.twins.addRoot hn)⟩
  | bind target value =>
    refine (hv.read target).bind fun n n' _ _ hn => ?_
    exact (hv.read value).bind fun x x' _ _ hx => hv.bind hn hx
  | call b operands => cases hr
  | dotNumber value i => cases hr
  | takeOutput => cases hr
  | spawn code registers =>
    -- plain code does not bind
    have hcode : ∀ i ∈ code, i.builtin ≠ .bind := by simpa [Request.isPlain] using hr
    refine (hv.readAll registers).bind fun ns ns' _ _ hns => ?_
    have hspawn := hv.twins.spawn hcode hns
    generalize v.machine.spawn code ns = started at hspawn ⊢
    generalize v'.machine.spawn code ns' = started' at hspawn ⊢
    cases hspawn with
    | ok h => exact .ok ⟨β, hv.onward h⟩
    | error e => exact .ok ⟨β, hv⟩
  | kill id =>
    have hkill := hv.twins.kill id
    rw [Visit.perform, Visit.perform]
    generalize v.machine.kill id = killed at hkill ⊢
    generalize v'.machine.kill id = killed' at hkill ⊢
    cases hkill with
    | ok h => exact .ok ⟨β, hv.onward h⟩
    | error e => exact .ok ⟨β, hv⟩

theorem VisitTwins.performAll (hv : VisitTwins β v v') (depth : Nat) {rs : List Request}
    (hrs : ∀ r ∈ rs, r.isPlain = true) :
    Agree WentOn (v.performAll depth rs) (v'.performAll depth rs) := by
  induction rs generalizing β v v' with
  | nil => exact .ok ⟨β, hv⟩
  | cons r rs ih =>
    rw [Visit.performAll, Visit.performAll]
    refine (hv.perform depth (hrs r (List.mem_cons_self ..))).bind fun p p' _ _ hp => ?_
    obtain ⟨β₁, hv₁⟩ := hp
    refine (ih hv₁ fun r' hr' => hrs r' (List.mem_cons_of_mem _ hr')).bind fun q q' _ _ hq => ?_
    exact .ok hq

/-! ### Scripts followed by twins -/

/-- A step leaves twins. If it was a run, then their threads look the same, and none is runnable. -/
theorem Step.perform_twins (h : Twins β m m') (depth : Nat) {s : Step} (hs : s.isPlain = true) :
    Agree (fun r r' => (∃ γ, Twins γ r.2 r'.2) ∧ (s = .run →
        seeThreads depth r.2 = seeThreads depth r'.2 ∧
        ∀ t ∈ seeThreads depth r.2, t.state ≠ .runnable))
      (s.perform depth m) (s.perform depth m') := by
  cases s with
  | visit requests =>
    have hplain : ∀ r ∈ requests, r.isPlain = true := List.all_eq_true.mp hs
    refine (VisitTwins.performAll ⟨h, .nil⟩ depth hplain).bind fun r r' _ _ hr => ?_
    obtain ⟨β₁, hv⟩ := hr
    exact .ok ⟨⟨β₁, hv.twins⟩, by simp⟩
  | runNext => cases hs
  | collect => cases hs
  | run =>
    obtain ⟨⟨report, m₁⟩, ⟨report', m₁'⟩, γ, hrun, hrun', h₁, hhalted⟩ := h.run
    obtain ⟨count, hturns, -⟩ := Machine.turns_of_run hrun
    -- the reports may differ in the number of turns, and are not looked at
    rw [Step.perform, Step.perform, hrun, hrun']
    refine .ok ⟨⟨γ, h₁⟩, fun _ => ⟨?_, ?_⟩⟩
    · exact map_eq_of_forall₂ hhalted fun t t' ht =>
        seeThread_eq (faithful_resemblance γ m₁.view m₁'.view) depth ht
    · intro sight hsight
      obtain ⟨t, ht, rfl⟩ := List.mem_map.mp hsight
      have hidle := Machine.idle_of_turns h.tendedLeft.reachable hturns t ht
      show seeState depth m₁ t.state ≠ .runnable
      cases hstate : t.state with
      | runnable => exact absurd hstate hidle
      | waiting v => simp [seeState]
      | terminated => simp [seeState]
      | failed e => simp [seeState]

theorem watch_twins (h : Twins β m m') (depth : Nat) {script : List Step}
    (hscript : ∀ s ∈ script, s.isPlain = true) :
    watch depth m script = watch depth m' script ∧
      ∀ threads ∈ watch depth m script, ∀ t ∈ threads, t.state ≠ .runnable := by
  induction script generalizing β m m' with
  | nil => exact ⟨rfl, nofun⟩
  | cons s script ih =>
    have hstep := Step.perform_twins h depth (hscript s (List.mem_cons_self ..))
    unfold watch
    generalize s.perform depth m = r at hstep ⊢
    generalize s.perform depth m' = r' at hstep ⊢
    cases hstep with
    | error f => exact ⟨rfl, nofun⟩
    | ok h₁ =>
      obtain ⟨⟨γ, h₁⟩, hseen⟩ := h₁
      obtain ⟨hlater, hidle⟩ := ih h₁ fun s' hs' => hscript s' (List.mem_cons_of_mem _ hs')
      -- a run is watched when it ends
      by_cases hs : s = .run
      · obtain ⟨hsame, hnow⟩ := hseen hs
        simp only [if_pos hs]
        refine ⟨by rw [hsame, hlater], ?_⟩
        intro threads ht
        rcases List.mem_cons.mp ht with rfl | ht
        · exact hnow
        · exact hidle threads ht
      · simp only [if_neg hs]
        exact ⟨hlater, hidle⟩

theorem follow_twins (h : Twins β m m') (depth : Nat) {script : List Step}
    (hscript : ∀ s ∈ script, s.isPlain = true) :
    Agree (fun r r' => ∃ γ, Twins γ r.2 r'.2) (follow depth m script) (follow depth m' script) := by
  induction script generalizing β m m' with
  | nil => exact .ok ⟨β, h⟩
  | cons s script ih =>
    have hstep := Step.perform_twins h depth (hscript s (List.mem_cons_self ..))
    rw [follow, follow]
    refine hstep.bind fun r r' _ _ hr => ?_
    obtain ⟨⟨γ, h₁⟩, -⟩ := hr
    have hrest := ih h₁ fun s' hs' => hscript s' (List.mem_cons_of_mem _ hs')
    exact hrest.bind fun q q' _ _ hq => .ok hq

/-! ### The theorem -/

/-- Whenever a run has returned, the threads look the same on machines that differ in their quanta
    alone: each one waits, has terminated or has failed, at the same place, with the same registers
    and the same exception. And wherever a script leads to, a run returns. -/
theorem schedule_independent (id : MachineId) (c : Configuration) (quantum : Option Nat)
    {script : List Step} (hscript : ∀ s ∈ script, s.isPlain = true) (depth : Nat) :
    watch depth (.new id { c with quantum }) script = watch depth (.new id c) script ∧
      (∀ threads ∈ watch depth (.new id c) script, ∀ t ∈ threads, t.state ≠ .runnable) ∧
      ∀ r, follow depth (.new id c) script = .ok r → ∃ after, r.2.run = .ok after := by
  have hnew := twins_new id { c with quantum } c rfl
  obtain ⟨hsame, hidle⟩ := watch_twins hnew depth hscript
  refine ⟨hsame, hsame ▸ hidle, fun r hr => ?_⟩
  obtain ⟨r', -, γ, h⟩ := (follow_twins hnew depth hscript).ok_right hr
  obtain ⟨-, after, -, -, hafter, -⟩ := h.run
  exact ⟨after, hafter⟩

/-- Two threads show their numbers and wait for one of two fields, and a third one waits for the first
    field. Then the host binds the second field: one of the threads ends, and the other fails. -/
def contest : List Step :=
  [.visit [.newAtom "pair", .newVariable, .newVariable, .buildTuple (.held 0) [.held 1, .held 2],
      .addRoot (.held 2),
      .spawn [⟨.show, [1], []⟩, ⟨.show, [1], []⟩, ⟨.waitOr, [0], [1]⟩, ⟨.dot, [0, 1], [1]⟩,
        ⟨.label, [1], [1]⟩] [.held 3, .int 1],
      .spawn [⟨.show, [1], []⟩, ⟨.show, [1], []⟩, ⟨.waitOr, [0], [1]⟩] [.held 3, .int 2],
      .spawn [⟨.wait, [0], []⟩] [.held 1]],
    .run,
    .visit [.bind (.root 0) (.int 7)],
    .run]

/-- The turns are taken in another order, as the output tells, and the threads end at the same
    places. -/
theorem contest_independent :
    (∀ s ∈ contest, s.isPlain = true) ∧
      (follow 3 (.new ⟨0⟩ { quantum := some 1 }) contest).toOption.map (·.2.output) ≠
        (follow 3 (.new ⟨0⟩ {}) contest).toOption.map (·.2.output) ∧
      (watch 3 (.new ⟨0⟩ {}) contest).map (·.map (·.pc)) = [[2, 2, 0], [4, 3, 0]] ∧
      watch 3 (.new ⟨0⟩ { quantum := some 1 }) contest = watch 3 (.new ⟨0⟩ {}) contest :=
  ⟨by decide, by decide, by decide, (schedule_independent ⟨0⟩ {} (some 1) (by decide) 3).1⟩

end Script

end Dataflow
