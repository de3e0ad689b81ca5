import Dataflow.Proofs.Requests
import Dataflow.Proofs.Turns

/-! # Collections cannot be seen

  A host works with a machine by a *script*. It visits the machine and makes requests: it has atoms,
  variables, records and exceptions made, pins nodes, binds variables, calls builtins, takes the
  output, starts and removes threads. Between two visits it lets threads run or has the garbage
  collected. A node that it has received is good for the rest of the visit; from one visit to the
  next it keeps only what it has pinned, and reads it back from there. The variable on which a
  `waitOr` suspends is not handed out.

  The host is told what its requests came to, with all values as text, and at the end it may look at
  the output, the threads and the roots. The theorem is that none of this depends on when garbage is
  collected: neither on the collections of the script nor on the threshold of the machine.
-/

namespace Dataflow

namespace Script

/-! ### Scripts -/

/-- What a host hands over. -/
inductive Operand where
  | int (i : Int)
  | float (x : Binary64)
  | bool (x : Bool)
  | unit
  /-- A node received in the same visit, by its number. -/
  | held (i : Nat)
  /-- A node that is pinned. -/
  | root (slot : Nat)
  deriving DecidableEq

/-- What a host asks of a machine during a visit. -/
inductive Request where
  | newAtom (content : String)
  | newVariable
  | newException (kind : String) (arguments : List Operand)
  | buildTuple (label : Operand) (values : List Operand)
  | buildRecord (label : Operand) (fields : List (Operand × Operand))
  | addRoot (value : Operand)
  /-- Bind an unbound variable. -/
  | bind (target value : Operand)
  | call (b : Builtin) (operands : List Operand)
  /-- Ask for a field by its number, without a call. -/
  | dotNumber (value : Operand) (i : Int)
  | takeOutput
  | spawn (code : List Instruction) (registers : List Operand)
  | kill (id : ThreadId)
  deriving DecidableEq

/-- One step of a script. -/
inductive Step where
  | visit (requests : List Request)
  /-- Give the next thread its turn. -/
  | runNext
  /-- Run until no thread is runnable. -/
  | run
  | collect
  deriving DecidableEq

/-- What a host is told. Values are given as text. -/
inductive Reply where
  | value (text : String)
  | pinned (slot : Nat)
  | bound
  /-- The target of a bind is no unbound variable, and nothing was done. -/
  | notUnbound
  | proceeded (results : List String)
  | raised (exception : String)
  | suspended
  | output (text : String)
  | spawned (id : ThreadId)
  | killed
  | refused (r : Refusal)
  | ran (turn : Bool)
  | report (r : Machine.Report)
  deriving DecidableEq

/-! ### Following a script -/

/-- A machine during a visit, with the nodes that the host has received. -/
structure Visit where
  /-- The machine. -/
  machine : Machine
  /-- The nodes received, the first one first. -/
  held : List Node := []

/-- An entry of a list that the host names by its number. -/
def entry (ns : List Node) (i : Nat) : Except Fault Node :=
  match ns[i]? with
  | some n => .ok n
  | none => .error (.outOfRange ns.length i)

namespace Visit

/-- The node that a host hands over. -/
def read (v : Visit) : Operand → Except Fault Node
  | .int i => .ok (.int i)
  | .float x => .ok (.float x)
  | .bool x => .ok (.bool x)
  | .unit => .ok .unit
  | .held i => entry v.held i
  | .root slot => entry v.machine.roots slot

/-- A feature and its field. -/
def readField (v : Visit) (field : Operand × Operand) : Except Fault (Node × Node) := do
  return (← v.read field.1, ← v.read field.2)

/-- Hands a new node to the host. -/
def receive (depth : Nat) (v : Visit) (made : Node × Machine) : Except Fault (Reply × Visit) := do
  return (.value (← made.2.print made.1 depth), ⟨made.2, v.held ++ [made.1]⟩)

/-- Hands a new node to the host, unless the machine refused to make it. -/
def receive? (depth : Nat) (v : Visit) (made : Except Refusal (Node × Machine)) :
    Except Fault (Reply × Visit) :=
  match made with
  | .ok made => v.receive depth made
  | .error e => .ok (.refused e, v)

/-- What a call has come to. -/
def answer (depth : Nat) (v : Visit) (b : Builtin) (called : Outcome × Machine) :
    Except Fault (Reply × Visit) := do
  let m := called.2
  match called.1 with
  | .proceed results =>
    return (.proceeded (← results.mapM (m.print · depth)), ⟨m, v.held ++ results⟩)
  | .raise e => return (.raised (← m.print e depth), ⟨m, v.held ++ [e]⟩)
  | .suspend u =>
    -- the variable of a `waitOr` may be a control, and stays with the machine
    return (.suspended, ⟨m, if b = .waitOr then v.held else v.held ++ [.variable u]⟩)

/-- Binds a variable that has no value. -/
def bind (v : Visit) (target value : Node) : Except Fault (Reply × Visit) := do
  match target, ← v.machine.isDetermined target with
  | .variable u, false =>
    match ← v.machine.bind u value with
    | .ok m => return (.bound, { v with machine := m })
    | .error e => return (.refused e, v)
  | _, _ => return (.notUnbound, v)

/-- Does what the host asks. -/
def perform (depth : Nat) (v : Visit) : Request → Except Fault (Reply × Visit)
  | .newAtom content => v.receive depth (v.machine.newAtom content)
  | .newVariable =>
    v.receive depth (.variable v.machine.newVariable.1, v.machine.newVariable.2)
  | .newException kind arguments => do
    v.receive depth (v.machine.newException kind (← arguments.mapM v.read))
  | .buildTuple label values => do
    v.receive? depth (← v.machine.buildTuple (← v.read label) (← values.mapM v.read))
  | .buildRecord label fields => do
    v.receive? depth (← v.machine.buildRecord (← v.read label) (← fields.mapM v.readField))
  | .addRoot value => do
    let (slot, m) := v.machine.addRoot (← v.read value)
    return (.pinned slot, { v with machine := m })
  | .bind target value => do v.bind (← v.read target) (← v.read value)
  | .call b operands => do v.answer depth b (← v.machine.call b (← operands.mapM v.read))
  | .dotNumber value i => do v.answer depth .dotNumber (← v.machine.dotNumber (← v.read value) i)
  | .takeOutput =>
    .ok (.output v.machine.takeOutput.1, { v with machine := v.machine.takeOutput.2 })
  | .spawn code registers => do
    match v.machine.spawn code (← registers.mapM v.read) with
    | .ok (id, m) => return (.spawned id, { v with machine := m })
    | .error e => return (.refused e, v)
  | .kill id =>
    match v.machine.kill id with
    | .ok m => return (.killed, { v with machine := m })
    | .error e => return (.refused e, v)

/-- Does all that the host asks during a visit. -/
def performAll (depth : Nat) (v : Visit) : List Request → Except Fault (List Reply × Visit)
  | [] => .ok ([], v)
  | r :: rs => do
    let (reply, v) ← v.perform depth r
    let (replies, v) ← v.performAll depth rs
    return (reply :: replies, v)

end Visit

/-- One step of a script. A collection is not replied to. -/
def Step.perform (depth : Nat) (m : Machine) : Step → Except Fault (List Reply × Machine)
  | .visit requests => do
    let (replies, v) ← Visit.performAll depth ⟨m, []⟩ requests
    return (replies, v.machine)
  | .runNext => do
    let (turn, m) ← m.runNext
    return ([.ran turn], m)
  | .run => do
    let (report, m) ← m.run
    return ([.report report], m)
  | .collect => do return ([], ← m.collect)

/-- Follows a script. Values in replies are printed to the given depth. -/
def follow (depth : Nat) (m : Machine) : List Step → Except Fault (List Reply × Machine)
  | [] => .ok ([], m)
  | s :: ss => do
    let (replies, m) ← s.perform depth m
    let (later, m) ← follow depth m ss
    return (replies ++ later, m)

/-- The script without its collections. -/
def withoutCollections (script : List Step) : List Step := script.filter (· != .collect)

/-! ### What can be seen -/

/-- What can be seen of a thread's state. -/
inductive StateSight where
  | runnable
  | waiting
  | terminated
  | failed (exception : Except Fault String)

/-- What can be seen of a thread. -/
structure ThreadSight where
  id : ThreadId
  code : List Instruction
  pc : Nat
  state : StateSight
  /-- The texts of its registers. -/
  registers : List (Except Fault String)

/-- What can be seen of a machine. -/
structure Sight where
  output : String
  threads : List ThreadSight
  /-- The texts of the roots. -/
  roots : List (Except Fault String)
  /-- Which roots are equal. -/
  equal : List (List (Except Fault Bool))

/-- The state of a thread, with an exception printed to the given depth. -/
def seeState (depth : Nat) (m : Machine) : ThreadState → StateSight
  | .runnable => .runnable
  | .waiting _ => .waiting
  | .terminated => .terminated
  | .failed e => .failed (m.print e depth)

/-- A thread, with its registers printed to the given depth. -/
def seeThread (depth : Nat) (m : Machine) (t : Thread) : ThreadSight where
  id := t.id
  code := t.code
  pc := t.pc
  state := seeState depth m t.state
  registers := t.registers.map (m.print · depth)

/-- A machine, with all values printed to the given depth. -/
def see (depth : Nat) (m : Machine) : Sight where
  output := m.output
  threads := m.scheduler.threads.map (seeThread depth m)
  roots := m.roots.map (m.print · depth)
  equal := m.roots.map fun x => m.roots.map fun y => m.equals x y

/-- All that a host learns by following a script and looking at the machine in the end. -/
def outcome (depth : Nat) (m : Machine) (script : List Step) : Except Fault (List Reply × Sight) :=
  (follow depth m script).map fun r => (r.1, see depth r.2)

/-! ### Visits in step -/

variable {w : World} {m m' : Machine} {v v' : Visit}

/-- Two visits stand for each other. -/
structure VisitAlike (w : World) (v v' : Visit) : Prop where
  step : Lockstep w v.machine v'.machine
  held : List.Forall₂ (Alike w v.machine.view v'.machine.view) v.held v'.held

/-- Both visits went on with the same reply. -/
def Replied {α : Type} (r r' : α × Visit) : Prop := r.1 = r'.1 ∧ ∃ w₁, VisitAlike w₁ r.2 r'.2

theorem entry_alike {R : Node → Node → Prop} {ns ns' : List Node} (hn : List.Forall₂ R ns ns')
    (i : Nat) : Agree R (entry ns i) (entry ns' i) := by
  unfold entry
  rw [← hn.length_eq]
  exact entry_agree hn i _

theorem VisitAlike.read (hv : VisitAlike w v v') (x : Operand) :
    Agree (Alike w v.machine.view v'.machine.view) (v.read x) (v'.read x) := by
  cases x with
  | int i => exact .ok (.of_value (.int i) rfl)
  | float x => exact .ok (.of_value (.float x) rfl)
  | bool x => exact .ok (.of_value (.bool x) rfl)
  | unit => exact .ok (.of_value .unit rfl)
  | held i => exact entry_alike hv.held i
  | root slot => exact entry_alike hv.step.roots slot

theorem VisitAlike.readAll (hv : VisitAlike w v v') (xs : List Operand) :
    Agree (List.Forall₂ (Alike w v.machine.view v'.machine.view)) (xs.mapM v.read)
      (xs.mapM v'.read) :=
  Agree.mapM (List.forall₂_same.mpr fun _ _ => rfl) fun x _ hx => hx ▸ hv.read x

theorem VisitAlike.readFields (hv : VisitAlike w v v') (xs : List (Operand × Operand)) :
    Agree (List.Forall₂ fun e e' => Alike w v.machine.view v'.machine.view e.1 e'.1 ∧
        Alike w v.machine.view v'.machine.view e.2 e'.2)
      (xs.mapM v.readField) (xs.mapM v'.readField) := by
  refine Agree.mapM (List.forall₂_same.mpr fun _ _ => rfl) fun x x' hx => ?_
  subst hx
  refine (hv.read x.1).bind fun n n' _ _ hn => ?_
  refine (hv.read x.2).bind fun k k' _ _ hk => ?_
  exact .ok ⟨hn, hk⟩

/-- The visits go on with machines that are in step again. -/
theorem VisitAlike.machine (hv : VisitAlike w v v') {w₁ : World} (hs : Lockstep w₁ m m')
    (hl : Later w v.machine.view v'.machine.view w₁ m.view m'.view) :
    VisitAlike w₁ { v with machine := m } { v' with machine := m' } :=
  ⟨hs, hl.nodes hv.held⟩

/-- They may hold more nodes than before. -/
theorem VisitAlike.later (hv : VisitAlike w v v') {w₁ : World} (hs : Lockstep w₁ m m')
    (hl : Later w v.machine.view v'.machine.view w₁ m.view m'.view) {ns ns' : List Node}
    (hn : List.Forall₂ (Alike w₁ m.view m'.view) ns ns') :
    VisitAlike w₁ ⟨m, v.held ++ ns⟩ ⟨m', v'.held ++ ns'⟩ :=
  ⟨hs, List.rel_append (hl.nodes hv.held) hn⟩

theorem VisitAlike.receive (hv : VisitAlike w v v') (depth : Nat) {r r' : Node × Machine}
    (hr : Made w v.machine v'.machine r r') :
    Agree Replied (v.receive depth r) (v'.receive depth r') := by
  obtain ⟨w₁, hs, hl, hn⟩ := hr
  refine (Agree.of_eq (hs.print hn depth)).bind fun text text' _ _ htext => ?_
  subst htext
  exact .ok ⟨rfl, w₁, hv.later hs hl (.cons hn .nil)⟩

theorem VisitAlike.receive? (hv : VisitAlike w v v') (depth : Nat)
    {r r' : Except Refusal (Node × Machine)} (hr : Agree (Made w v.machine v'.machine) r r') :
    Agree Replied (v.receive? depth r) (v'.receive? depth r') := by
  cases hr with
  | ok hr => exact hv.receive depth hr
  | error e => exact .ok ⟨rfl, w, hv⟩

theorem VisitAlike.answer (hv : VisitAlike w v v') (depth : Nat) (b : Builtin)
    {r r' : Outcome × Machine} (hr : Answered b w v.machine v'.machine r r') :
    Agree Replied (v.answer depth b r) (v'.answer depth b r') := by
  obtain ⟨o, m⟩ := r
  obtain ⟨o', m'⟩ := r'
  obtain ⟨w₁, hs, hl, ho⟩ := hr
  cases ho with
  | proceed hres =>
    have htexts := Agree.mapM hres fun n n' hn => Agree.of_eq (hs.print hn depth)
    refine htexts.bind fun ts ts' _ _ hts => ?_
    rw [List.forall₂_eq_eq_eq] at hts
    subst hts
    exact .ok ⟨rfl, w₁, hv.later hs hl hres⟩
  | raise he =>
    refine (Agree.of_eq (hs.print he depth)).bind fun text text' _ _ htext => ?_
    subst htext
    exact .ok ⟨rfl, w₁, hv.later hs hl (.cons he .nil)⟩
  | suspend hu hvar =>
    refine .ok ⟨rfl, w₁, ?_⟩
    by_cases hb : b = .waitOr
    · rw [if_pos hb, if_pos hb]
      exact ⟨hs, hl.nodes hv.held⟩
    · rw [if_neg hb, if_neg hb]
      exact hv.later hs hl (.cons (hs.like.alike_var (hvar hb)) .nil)

/-- What leads to an unbound variable is a variable. -/
theorem variable_of_deref {h : Heap} {n : Node} {u : VarRef} (hd : h.deref n = .ok (.variable u)) :
    ∃ x, n = .variable x := by
  rcases n.value_or_variable with hv | hx
  · rw [Heap.deref_of_value hv] at hd
    cases hd
    cases hv
  · exact hx

theorem Visit.bind_determined {n x : Node} (hd : v.machine.isDetermined n = .ok true) :
    v.bind n x = .ok (.notUnbound, v) := by
  unfold Visit.bind
  rw [hd]
  cases n <;> rfl

theorem VisitAlike.bind (hv : VisitAlike w v v') {n n' x x' : Node}
    (hn : Alike w v.machine.view v'.machine.view n n')
    (hx : Alike w v.machine.view v'.machine.view x x') :
    Agree Replied (v.bind n x) (v'.bind n' x') := by
  obtain ⟨d, d', hd, hd', hm⟩ := hn
  have hdet : v.machine.isDetermined n = .ok d.asVariable?.isNone := Heap.isDetermined_eq hd
  have hdet' : v'.machine.isDetermined n' = .ok d'.asVariable?.isNone := Heap.isDetermined_eq hd'
  cases hm with
  | «variable» hu =>
    obtain ⟨y, rfl⟩ := variable_of_deref hd
    obtain ⟨y', rfl⟩ := variable_of_deref hd'
    obtain ⟨m₁, m₁', w₁, hb, hb', hs₁, hl₁⟩ := hv.step.bind hd hd' hu hx
    unfold Visit.bind
    rw [hdet, hdet']
    simp only [ok_bind, Node.asVariable?, Option.isNone_some, hb, hb']
    exact .ok ⟨rfl, w₁, hv.machine hs₁ hl₁⟩
  | _ =>
    rw [Visit.bind_determined hdet, Visit.bind_determined hdet']
    exact .ok ⟨rfl, w, hv⟩

/-- Every request is replied to in the same way. -/
theorem VisitAlike.perform (hv : VisitAlike w v v') (depth : Nat) (r : Request) :
    Agree Replied (v.perform depth r) (v'.perform depth r) := by
  -- each request reads its operands from what both hosts hold, and then does the same on both sides
  cases r with
  | newAtom content => exact hv.receive depth (lockstep_crafting.newAtom hv.step content)
  | newVariable => exact hv.receive depth hv.step.newVariable
  | newException kind arguments =>
    refine (hv.readAll arguments).bind fun ns ns' _ _ hns => ?_
    exact hv.receive depth (lockstep_crafting.newException hv.step kind hns)
  | buildTuple label values =>
    refine (hv.read label).bind fun n n' _ _ hn => ?_
    refine (hv.readAll values).bind fun ns ns' _ _ hns => ?_
    refine (hv.step.workshop.buildTuple hn hns).bind fun made made' _ _ hmade => ?_
    exact hv.receive? depth hmade
  | buildRecord label fields =>
    refine (hv.read label).bind fun n n' _ _ hn => ?_
    refine (hv.readFields fields).bind fun fs fs' _ _ hfs => ?_
    refine (hv.step.workshop.buildRecord hn hfs).bind fun made made' _ _ hmade => ?_
    exact hv.receive? depth hmade
  | addRoot value =>
    refine (hv.read value).bind fun n n' _ _ hn => ?_
    obtain ⟨hslot, hs⟩ := hv.step.addRoot hn
    exact .ok ⟨congrArg Reply.pinned hslot, w, hs, hv.held⟩
  | bind target value =>
    refine (hv.read target).bind fun n n' _ _ hn => ?_
    exact (hv.read value).bind fun x x' _ _ hx => hv.bind hn hx
  | call b operands =>
    refine (hv.readAll operands).bind fun ns ns' _ _ hns => ?_
    exact (hv.step.call b hns).bind fun o o' _ _ ho => hv.answer depth b ho
  | dotNumber value i =>
    refine (hv.read value).bind fun n n' _ _ hn => ?_
    exact (hv.step.dialogue.dotNumber hn i).bind fun o o' _ _ ho => hv.answer depth .dotNumber ho
  | takeOutput =>
    exact .ok ⟨congrArg Reply.output hv.step.output, w, { hv.step with output := rfl }, hv.held⟩
  | spawn code registers =>
    refine (hv.readAll registers).bind fun ns ns' _ _ hns => ?_
    have hspawn := hv.step.spawn code hns
    -- both sides refuse, or both start the thread
    generalize v.machine.spawn code ns = started at hspawn ⊢
    generalize v'.machine.spawn code ns' = started' at hspawn ⊢
    cases hspawn with
    | ok h => exact .ok ⟨congrArg Reply.spawned h.1, w, hv.machine h.2.1 h.2.2⟩
    | error e => exact .ok ⟨rfl, w, hv⟩
  | kill id =>
    have hkill := hv.step.kill id
    rw [Visit.perform, Visit.perform]
    -- likewise for the thread to be removed
    generalize v.machine.kill id = killed at hkill ⊢
    generalize v'.machine.kill id = killed' at hkill ⊢
    cases hkill with
    | ok h => exact .ok ⟨rfl, w, hv.machine h.1 h.2⟩
    | error e => exact .ok ⟨rfl, w, hv⟩

theorem VisitAlike.performAll (hv : VisitAlike w v v') (depth : Nat) (rs : List Request) :
    Agree Replied (v.performAll depth rs) (v'.performAll depth rs) := by
  induction rs generalizing w v v' with
  | nil => exact .ok ⟨rfl, w, hv⟩
  | cons r rs ih =>
    rw [Visit.performAll, Visit.performAll]
    refine (hv.perform depth r).bind fun p p' _ _ hp => ?_
    obtain ⟨hreply, w₁, hv₁⟩ := hp
    refine (ih hv₁).bind fun q q' _ _ hq => ?_
    obtain ⟨hreplies, hv₂⟩ := hq
    exact .ok ⟨by rw [hreply, hreplies], hv₂⟩

/-! ### Scripts in step -/

/-- Both machines went on with the same replies. -/
def Followed (r r' : List Reply × Machine) : Prop := r.1 = r'.1 ∧ ∃ w₁, Lockstep w₁ r.2 r'.2

theorem Step.perform_agree (hs : Lockstep w m m') (depth : Nat) (s : Step) :
    Agree Followed (s.perform depth m) (s.perform depth m') := by
  cases s with
  | visit requests =>
    refine (VisitAlike.performAll ⟨hs, .nil⟩ depth requests).bind fun r r' _ _ hr => ?_
    obtain ⟨hreplies, w₁, hv⟩ := hr
    exact .ok ⟨hreplies, w₁, hv.step⟩
  | runNext =>
    refine hs.runNext.bind fun r r' _ _ hr => ?_
    exact .ok ⟨by rw [hr.1], hr.2⟩
  | run =>
    refine hs.run.bind fun r r' _ _ hr => ?_
    exact .ok ⟨by rw [hr.1], hr.2⟩
  | collect =>
    obtain ⟨m₁, w₁, hc, hs₁⟩ := hs.collect_left
    obtain ⟨m₁', w₂, hc', hs₂⟩ := hs₁.collect_right
    rw [Step.perform, Step.perform, hc, hc']
    exact .ok ⟨rfl, w₂, hs₂⟩

/-- A script is followed as if it had no collections. -/
theorem follow_agree (hs : Lockstep w m m') (depth : Nat) (script : List Step) :
    Agree Followed (follow depth m (withoutCollections script)) (follow depth m' script) := by
  induction script generalizing w m m' with
  | nil => exact .ok ⟨rfl, w, hs⟩
  | cons s script ih =>
    by_cases hcollect : s = .collect
    · -- one machine collects, and the other one does nothing
      subst hcollect
      obtain ⟨m₁', w₁, hc', hs₁⟩ := hs.collect_right
      have hcollect : follow depth m' (.collect :: script) = follow depth m₁' script := by
        rw [follow, Step.perform, hc']
        cases hf : follow depth m₁' script with
        | ok r => simp [hf, pure, Except.pure]
        | error f => simp [hf, pure, Except.pure]
      rw [hcollect]
      exact ih hs₁
    · have hkeep : withoutCollections (s :: script) = s :: withoutCollections script :=
        List.filter_cons_of_pos (by simpa using hcollect)
      rw [hkeep, follow, follow]
      refine (Step.perform_agree hs depth s).bind fun r r' _ _ hr => ?_
      obtain ⟨hreplies, w₁, hs₁⟩ := hr
      refine (ih hs₁).bind fun q q' _ _ hq => ?_
      obtain ⟨hlater, hs₂⟩ := hq
      exact .ok ⟨by rw [hreplies, hlater], hs₂⟩

/-! ### What can be seen of machines in step -/

theorem seeThread_eq {P : VarRef → VarRef → Prop} (hw : w.Faithful m.view m'.view) (depth : Nat)
    {t t' : Thread} (ht : ThreadAlike P w m.view m'.view t t') :
    seeThread depth m t = seeThread depth m' t' := by
  have hstate : seeState depth m t.state = seeState depth m' t'.state := by
    have hs := ht.state
    generalize t.state = s at hs ⊢
    generalize t'.state = s' at hs ⊢
    cases hs with
    | failed he => exact congrArg StateSight.failed (hw.print depth he)
    | _ => rfl
  have hregisters : t.registers.map (m.print · depth) = t'.registers.map (m'.print · depth) :=
    map_eq_of_forall₂ ht.registers fun _ _ h => hw.print depth h
  unfold seeThread
  rw [ht.id, ht.code, ht.pc, hstate, hregisters]

theorem see_eq (hs : Lockstep w m m') (depth : Nat) : see depth m = see depth m' := by
  have hthreads : m.scheduler.threads.map (seeThread depth m) =
      m'.scheduler.threads.map (seeThread depth m') :=
    map_eq_of_forall₂ hs.threads fun t t' ht => seeThread_eq hs.like.faithful depth ht
  have hroots : m.roots.map (m.print · depth) = m'.roots.map (m'.print · depth) :=
    map_eq_of_forall₂ hs.roots fun _ _ h => hs.print h depth
  have hequal : (m.roots.map fun x => m.roots.map fun y => m.equals x y) =
      m'.roots.map fun x => m'.roots.map fun y => m'.equals x y :=
    map_eq_of_forall₂ hs.roots fun x x' hx =>
      map_eq_of_forall₂ hs.roots fun y y' hy => hs.equals hx hy
  unfold see
  rw [hs.output, hthreads, hroots, hequal]

theorem outcome_eq (hs : Lockstep w m m') (depth : Nat) (script : List Step) :
    outcome depth m (withoutCollections script) = outcome depth m' script := by
  have hfollow := follow_agree hs depth script
  unfold outcome
  generalize follow depth m (withoutCollections script) = r at hfollow ⊢
  generalize follow depth m' script = r' at hfollow ⊢
  cases hfollow with
  | error f => rfl
  | ok h =>
    obtain ⟨hreplies, w₁, hs₁⟩ := h
    exact congrArg Except.ok (Prod.ext hreplies (see_eq hs₁ depth))

/-! ### The theorem -/

/-- A world in which nothing is related. -/
def noWorld : World := ⟨fun _ _ => False, fun _ _ => False, fun _ _ => False⟩

theorem likeness_noWorld (a b : View) : Likeness noWorld a b := by
  have hcell : ∀ {v v' : VarRef}, ¬ noWorld.cell v v' := by
    rintro v v' (h | h)
    · exact h
    · exact h
  exact
    { record := False.elim, record_left := fun h => h.elim, record_right := fun h => h.elim
      var := False.elim, control := False.elim, cell_left := fun h => (hcell h).elim
      cell_right := fun h => (hcell h).elim, disjoint := False.elim }

/-- New machines are in step, whenever they are to collect their garbage. -/
theorem lockstep_new (id : MachineId) (c c' : Configuration) (hc : c.settings = c'.settings) :
    Lockstep noWorld (.new id c) (.new id c') where
  like := likeness_noWorld _ _
  roots := .nil
  threads := .nil
  ready := rfl
  spawned := rfl
  output := rfl
  settings := hc
  id := rfl
  ownerLeft := rfl
  ownerRight := rfl
  waitsLeft := waits_new id c
  waitsRight := waits_new id c'

/-- Scripts that differ in their collections alone tell the host the same, on new machines that
    differ in their thresholds alone. -/
theorem collections_transparent (id : MachineId) (c : Configuration) (threshold : Option Nat)
    {script script' : List Step}
    (hscript : withoutCollections script' = withoutCollections script) (depth : Nat) :
    outcome depth (.new id { c with threshold }) script' = outcome depth (.new id c) script := by
  have hleft := lockstep_new id c { c with threshold } rfl
  have hright := lockstep_new id c c rfl
  rw [← outcome_eq hleft depth script', ← outcome_eq hright depth script, hscript]

/-- A thread waits for one of two fields, shows which one it was, and fails; the host waits for the
    same fields and binds one of them. -/
def race : List Step :=
  [.visit [.newAtom "race", .newVariable, .newVariable, .buildTuple (.held 0) [.held 1, .held 2],
      .addRoot (.held 3), .addRoot (.held 2),
      .spawn [⟨.waitOr, [0], [1]⟩, ⟨.show, [1], []⟩, ⟨.dot, [0, 1], [1]⟩, ⟨.label, [1], [1]⟩]
        [.held 3, .unit]],
    .runNext,
    .visit [.call .waitOr [.root 0], .bind (.root 1) (.int 7)],
    .run]

theorem race_transparent :
    withoutCollections (race.flatMap fun s => [.collect, s, .collect]) = withoutCollections race ∧
      (outcome 3 (.new ⟨0⟩ {}) race).isOk = true ∧
      outcome 3 (.new ⟨0⟩ { threshold := some 0 })
        (race.flatMap fun s => [.collect, s, .collect]) = outcome 3 (.new ⟨0⟩ {}) race :=
  ⟨by decide, by decide, collections_transparent ⟨0⟩ {} (some 0) (by decide) 3⟩

end Script

end Dataflow
