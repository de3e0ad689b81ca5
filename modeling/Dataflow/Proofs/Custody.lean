import Dataflow.Proofs.Closure
import Dataflow.Proofs.Hashing

/-! # Hosts that pass back what they were given

  A host receives nodes from a machine: those that it asks the machine to make, the results of its
  calls, and what it reads from roots, threads, records and variables. An *honest* host passes to the
  machine only nodes that it has received from it since the last collection, and numbers, booleans and
  unit, which it makes itself. A collection moves everything, so what was received before it counts no
  longer, whether the host has asked for the collection or a turn has ended with one. Controls count
  like all other variables: an honest host may bind them, and store them in records.

  Main statement: whatever an honest host asks for, the machine does, or refuses, without a fault. The
  one request that may stay without an answer is a run, and then because it never ends.
-/

namespace Dataflow.Machine

/-! ### Requests -/

/-- What a host asks of a machine. A builtin is called on as many operands as it takes. -/
inductive Operation where
  | newAtom (content : String)
  | newVariable
  | addRoot (n : Node)
  | takeOutput
  | newException (kind : String) (arguments : List Node)
  | buildRecord (label : Node) (fields : List (Node × Node))
  | buildTuple (label : Node) (values : List Node)
  | bind (v : VarRef) (value : Node)
  | call (b : Builtin) (operands : List Node) (arity : operands.length = b.inputs)
  | dotNumber (value : Node) (i : Int)
  | spawn (code : List Instruction) (registers : List Node)
  | kill (id : ThreadId)
  | runNext
  | run
  | collect
  | deref (n : Node)
  | isDetermined (n : Node)
  | equals (left right : Node)
  | hashItems (n : Node)
  | print (n : Node) (depth : Nat)
  | exceptionKind (n : Node)
  | root (slot : Nat)
  | thread (id : ThreadId)
  | record (ref : RecordRef)
  | variable (v : VarRef)

namespace Operation

/-- The nodes that the host passes. -/
def nodes : Operation → List Node
  | .addRoot n | .dotNumber n _ | .deref n | .isDetermined n | .hashItems n | .print n _
  | .exceptionKind n => [n]
  | .newException _ arguments => arguments
  | .buildRecord label fields => label :: fields.flatMap fun e => [e.1, e.2]
  | .buildTuple label values => label :: values
  | .bind v value => [.variable v, value]
  | .call _ operands _ => operands
  | .spawn _ registers => registers
  | .equals left right => [left, right]
  | .record ref => [.record ref]
  | .variable v => [.variable v]
  | .newAtom _ | .newVariable | .takeOutput | .kill _ | .runNext | .run | .collect | .root _
  | .thread _ => []

/-- The nodes that the host receives, and the machine afterwards. A request that is refused leaves the
    machine as it was. -/
def perform (m : Machine) : Operation → Except Fault (List Node × Machine)
  | .newAtom content => .ok ([(m.newAtom content).1], (m.newAtom content).2)
  | .newVariable => .ok ([.variable m.newVariable.1], m.newVariable.2)
  | .addRoot n => .ok ([], (m.addRoot n).2)
  | .takeOutput => .ok ([], m.takeOutput.2)
  | .newException kind arguments =>
    .ok ([(m.newException kind arguments).1], (m.newException kind arguments).2)
  | .buildRecord label fields => do
    match ← m.buildRecord label fields with
    | .ok (n, m) => return ([n], m)
    | .error _ => return ([], m)
  | .buildTuple label values => do
    match ← m.buildTuple label values with
    | .ok (n, m) => return ([n], m)
    | .error _ => return ([], m)
  | .bind v value => do
    match ← m.bind v value with
    | .ok m => return ([], m)
    | .error _ => return ([], m)
  | .call b operands _ => do
    let (o, m) ← m.call b operands
    return (o.nodes, m)
  | .dotNumber value i => do
    let (o, m) ← m.dotNumber value i
    return (o.nodes, m)
  | .spawn code registers =>
    match m.spawn code registers with
    | .ok (_, m) => .ok ([], m)
    | .error _ => .ok ([], m)
  | .kill id =>
    match m.kill id with
    | .ok m => .ok ([], m)
    | .error _ => .ok ([], m)
  | .runNext => do return ([], (← m.runNext).2)
  | .run => do return ([], (← m.run).2)
  | .collect => do return ([], ← m.collect)
  | .deref n => do return ([← m.deref n], m)
  | .isDetermined n => do let _ ← m.isDetermined n; return ([], m)
  | .equals left right => do let _ ← m.equals left right; return ([], m)
  | .hashItems n => do let _ ← m.hashItems n; return ([], m)
  | .print n depth => do let _ ← m.print n depth; return ([], m)
  | .exceptionKind n => do let _ ← m.exceptionKind n; return ([], m)
  | .root slot => .ok ((m.root? slot).toList, m)
  | .thread id => .ok (((m.thread? id).map Thread.nodes).getD [], m)
  | .record ref => do return ((← m.heap.record ref).edges, m)
  | .variable v => do return (Snapshot.cellNodes (← m.heap.cell v), m)

end Operation

/-! ### Honest hosts -/

/-- The node has been received, or is a number, a boolean or unit. -/
def MayPass (held : List Node) (n : Node) : Prop :=
  n ∈ held ∨ n.kind.capabilities.copiesWhole = true

instance (held : List Node) (n : Node) : Decidable (MayPass held n) :=
  inferInstanceAs (Decidable (n ∈ held ∨ n.kind.capabilities.copiesWhole = true))

/-- What counts as received after a step: each collection begins a new table of atoms. -/
def surviving (m m' : Machine) (held : List Node) : List Node :=
  if m'.atoms.id = m.atoms.id then held else []

/-- A machine in the hands of an honest host, and what the host has received since the last
    collection. -/
inductive Honest : Machine → List Node → Prop where
  | new (id : MachineId) (c : Configuration) : Honest (Machine.new id c) []
  | step {m m' : Machine} {held received : List Node} (op : Operation) : Honest m held →
      (∀ n ∈ op.nodes, MayPass held n) → op.perform m = .ok (received, m') →
      Honest m' (surviving m m' held ++ received)

variable {m m' : Machine} {held : List Node}

/-! ### Requests on nodes that fit -/

/-- The request is granted or refused: the machine is closed, and what the host receives fits. -/
def Granted (x : Except Fault (List Node × Machine)) : Prop :=
  ∃ received m', x = .ok (received, m') ∧ m'.Closed ∧ ∀ n ∈ received, m'.Fits n

theorem Closed.granted (hc : m.Closed) {received : List Node} (hr : ∀ n ∈ received, m.Fits n) :
    Granted (.ok (received, m)) := ⟨received, m, rfl, hc, hr⟩

/-- A request that is only looked at, once its answer is known to exist. -/
theorem Closed.granted_read (hc : m.Closed) {α : Type} {x : Except Fault α} (hx : ∃ a, x = .ok a) :
    Granted (do let _ ← x; return ([], m)) := by
  obtain ⟨a, rfl⟩ := hx
  exact hc.granted nofun

theorem Sustains.granted (hs : m.Sustains m') {n : Node} (hn : m'.Fits n) :
    Granted (.ok ([n], m')) :=
  ⟨[n], m', rfl, hs.closed, fun x hx => by rw [List.mem_singleton.mp hx]; exact hn⟩

theorem Delivers.granted {x : Except Fault (Outcome × Machine)} (hx : m.Delivers x) :
    Granted (do let (o, m) ← x; return (o.nodes, m)) := by
  obtain ⟨o, m', rfl, hs, ho⟩ := hx
  exact ⟨o.nodes, m', rfl, hs.closed, ho⟩

theorem Closed.addRoot (hc : m.Closed) {n : Node} (hn : m.Fits n) :
    m.Sustains (m.addRoot n).2 := by
  refine hc.of_heap_eq rfl rfl rfl (fun x hx => ?_) hc.threads
  rcases List.mem_append.mp hx with hx | hx
  · exact hc.roots x hx
  · rw [List.mem_singleton.mp hx]
    exact hn

theorem Closed.spawn (hc : m.Closed) {code : List Instruction} {registers : List Node}
    {id : ThreadId} (hr : ∀ n ∈ registers, m.Fits n) (hs : m.spawn code registers = .ok (id, m')) :
    m.Sustains m' := by
  obtain ⟨u, hcheck, hs⟩ := bind_eq_ok.mp hs
  cases hs
  refine hc.of_heap_eq rfl rfl rfl hc.roots fun t ht => ?_
  rcases List.mem_append.mp ht with ht | ht
  · exact hc.threads t ht
  · rw [List.mem_singleton.mp ht]
    exact ⟨hr, forM_eq_ok hcheck, nofun⟩

theorem Closed.kill (hc : m.Closed) {id : ThreadId} (hk : m.kill id = .ok m') : m.Sustains m' := by
  obtain ⟨s, hs, hk⟩ := bind_eq_ok.mp hk
  cases hk
  obtain ⟨-, rfl⟩ := Scheduler.kill_eq_ok hs
  exact hc.of_heap_eq rfl rfl rfl hc.roots fun t ht => hc.threads t (List.mem_of_mem_filter ht)

theorem Closed.firstFieldOf (hc : m.Closed) (hground : m.heap.Grounded) (label : String) {n : Node}
    (hn : m.Fits n) : ∃ field, m.firstFieldOf label n = .ok field ∧ ∀ x ∈ field, m.Fits x := by
  obtain ⟨d, hd, hfd⟩ := hc.deref hground hn
  rw [Machine.firstFieldOf, Machine.deref, hd, ok_bind]
  cases d with
  | record ref =>
    obtain ⟨r, href⟩ := Heap.record_of_inRange hfd
    dsimp only
    rw [href, ok_bind]
    split
    · refine ⟨_, rfl, fun x hx => ?_⟩
      split at hx
      · exact hc.edges href x (Heap.field_mem_edges (Record.mem_fields_of_lookupNumber hx))
      · cases hx
    · exact ⟨none, rfl, fun x hx => by cases hx⟩
  | _ => exact ⟨none, rfl, fun x hx => by cases hx⟩

theorem Closed.exceptionKind (hc : m.Closed) (hground : m.heap.Grounded) {n : Node}
    (hn : m.Fits n) : ∃ kind, m.exceptionKind n = .ok kind := by
  obtain ⟨detail, hdetail, hfits⟩ := hc.firstFieldOf hground "error" hn
  rw [Machine.exceptionKind, hdetail, ok_bind]
  cases detail with
  | none => exact ⟨none, rfl⟩
  | some detail =>
    obtain ⟨kind, hkind, hfits⟩ := hc.firstFieldOf hground "kernel" (hfits _ rfl)
    dsimp only
    rw [hkind, ok_bind]
    cases kind with
    | none => exact ⟨none, rfl⟩
    | some kind =>
      obtain ⟨d, hd, -⟩ := hc.deref hground (hfits _ rfl)
      exact ⟨_, by dsimp only; rw [Machine.deref, hd]; rfl⟩

/-- What a host reads from a thread fits: its variable, if it waits for one, lies in the heap. -/
theorem Closed.fits_thread (hc : m.Closed)
    (hw : Waits m.heap m.scheduler.threads m.scheduler.spawned) {t : Thread}
    (ht : t ∈ m.scheduler.threads) {n : Node} (hn : n ∈ t.nodes) : m.Fits n := by
  rcases Thread.mem_nodes.mp hn with hn | ⟨v, hs, rfl⟩ | hs
  · exact (hc.threads t ht).registers n hn
  · obtain ⟨ls, hv⟩ := (hw.parked t ht hs).unbound
    exact Heap.inRange_of_cell hv
  · exact (hc.threads t ht).exception n hs

/-- What a host reads from a variable fits: its value, or its controls. -/
theorem Closed.fits_cell (hc : m.Closed)
    (hw : Waits m.heap m.scheduler.threads m.scheduler.spawned) {v : VarRef} {cell : Cell}
    (hcell : m.heap.cell v = .ok cell) {n : Node} (hn : n ∈ Snapshot.cellNodes cell) : m.Fits n := by
  cases cell with
  | bound x =>
    rw [List.mem_singleton.mp hn]
    exact hc.values hcell
  | unbound ls =>
    obtain ⟨c, hl, rfl⟩ := mem_controls.mp hn
    obtain ⟨_, hcc⟩ := hw.control ⟨ls, hcell, hl⟩
    exact Heap.inRange_of_cell hcc

/-- Every request on nodes that fit is answered, but for a run that does not end. -/
theorem Closed.perform (hc : m.Closed)
    (hw : Waits m.heap m.scheduler.threads m.scheduler.spawned) (op : Operation)
    (hn : ∀ n ∈ op.nodes, m.Fits n) :
    Granted (op.perform m) ∨ op = .run ∧ op.perform m = .error .endless := by
  have hground : m.heap.Grounded := hw.grounded
  have hone : ∀ {n : Node}, op.nodes = [n] → m.Fits n :=
    fun he => hn _ (he ▸ List.mem_singleton.mpr rfl)
  cases op with
  -- requests that make or store something give out fitting nodes
  | newAtom content =>
    rw [Operation.perform, newAtom_eq]
    exact .inl ((sustains_making.intern hc.sustains content).1.granted
      (sustains_making.intern hc.sustains content).2)
  | newVariable =>
    obtain ⟨hs, hv⟩ := hc.gains (Heap.gains_allocateVariable m.heap)
    exact .inl (hs.granted hv)
  | addRoot n => exact .inl ⟨[], _, rfl, (hc.addRoot (hone rfl)).closed, nofun⟩
  | takeOutput =>
    have hs : m.Sustains m.takeOutput.2 := hc.of_heap_eq rfl rfl rfl hc.roots hc.threads
    exact .inl ⟨[], _, rfl, hs.closed, nofun⟩
  | newException kind arguments =>
    obtain ⟨hs, he⟩ := sustains_making.newException hc.sustains kind hn
    exact .inl (hs.granted he)
  | buildRecord label fields =>
    have hfields : ∀ e ∈ fields, m.Fits e.1 ∧ m.Fits e.2 := by
      intro e he
      have hmem : ∀ n ∈ [e.1, e.2], m.Fits n := fun n hne =>
        hn n (List.mem_cons_of_mem _ (List.mem_flatMap.mpr ⟨e, he, hne⟩))
      exact ⟨hmem _ (List.mem_cons_self ..), hmem _ (List.mem_cons_of_mem _ (List.mem_cons_self ..))⟩
    left
    rcases hc.buildRecord hground (hn label (List.mem_cons_self ..)) hfields with
      ⟨e, hb⟩ | ⟨n, m', hb, hs, hfn⟩
    · rw [Operation.perform, hb]
      exact hc.granted nofun
    · rw [Operation.perform, hb]
      exact hs.granted hfn
  | buildTuple label values =>
    left
    rcases hc.buildTuple hground (hn label (List.mem_cons_self ..))
      (fun x hx => hn x (List.mem_cons_of_mem _ hx)) with ⟨e, hb⟩ | ⟨n, m', hb, hs, hfn⟩
    · rw [Operation.perform, hb]
      exact hc.granted nofun
    · rw [Operation.perform, hb]
      exact hs.granted hfn
  | bind v value =>
    left
    obtain ⟨d, hd, -⟩ := hc.deref hground (hn _ (List.mem_cons_self ..))
    -- a variable that is bound already is refused
    rcases d.value_or_variable with hv | ⟨target, rfl⟩
    · rw [Operation.perform, bind_refused hd hv]
      exact hc.granted nofun
    · obtain ⟨m', hb, hs⟩ :=
        hc.bind hw hd (hn _ (List.mem_cons_of_mem _ (List.mem_cons_self ..)))
      rw [Operation.perform, hb]
      exact ⟨[], m', rfl, hs.closed, nofun⟩
  | call b operands arity => exact .inl ((hc.discipline hw b).call arity hn).granted
  | dotNumber value i => exact .inl ((hc.discipline hw .dotNumber).dotNumber (hone rfl) i).granted
  | spawn code registers =>
    left
    rw [Operation.perform]
    cases hs : m.spawn code registers with
    | error e => exact hc.granted nofun
    | ok r => exact ⟨[], r.2, rfl, (hc.spawn hn hs).closed, nofun⟩
  | kill id =>
    left
    rw [Operation.perform]
    cases hk : m.kill id with
    | error e => exact hc.granted nofun
    | ok m' => exact ⟨[], m', rfl, (hc.kill hk).closed, nofun⟩
  | runNext =>
    obtain ⟨ran, m', hr, hc'⟩ := hc.runNext hw
    exact .inl ⟨[], m', by rw [Operation.perform, hr]; rfl, hc', nofun⟩
  | run =>
    -- a run is the one request that may not end
    rcases hc.turns m.turnBound hw with hend | ⟨count, m', ht, hc'⟩
    · exact .inr ⟨rfl, by rw [Operation.perform, Machine.run, hend]; rfl⟩
    · exact .inl ⟨[], m', by rw [Operation.perform, Machine.run, ht]; rfl, hc', nofun⟩
  | collect =>
    obtain ⟨m', hcollect, hc'⟩ := hc.collect hw
    exact .inl ⟨[], m', by rw [Operation.perform, hcollect]; rfl, hc', nofun⟩
  -- questions have answers, since every reference can be followed
  | deref n =>
    obtain ⟨d, hd, hfd⟩ := hc.deref hground (hone rfl)
    left
    rw [Operation.perform, Machine.deref, hd]
    exact hc.sustains.granted hfd
  | isDetermined n =>
    obtain ⟨d, hd, -⟩ := hc.deref hground (hone rfl)
    exact .inl (hc.granted_read ⟨_, Heap.isDetermined_eq hd⟩)
  | equals left right =>
    exact .inl (hc.granted_read (hc.equals hw (hn _ (List.mem_cons_self ..))
      (hn _ (List.mem_cons_of_mem _ (List.mem_cons_self ..)))))
  | hashItems n =>
    exact .inl (hc.granted_read (Heap.hashItems_ok hground _ (hc.sound (hone rfl))))
  | print n depth => exact .inl (hc.granted_read (hc.print hground (hone rfl) depth))
  | exceptionKind n => exact .inl (hc.granted_read (hc.exceptionKind hground (hone rfl)))
  | root slot =>
    refine .inl (hc.granted fun n hn => hc.roots n ?_)
    exact List.mem_of_getElem? (Option.mem_toList.mp hn)
  | thread id =>
    refine .inl (hc.granted fun n hn => ?_)
    cases ht : m.thread? id with
    | none =>
      rw [ht] at hn
      cases hn
    | some t =>
      rw [ht] at hn
      exact hc.fits_thread hw (List.mem_of_find?_eq_some ht) hn
  | record ref =>
    obtain ⟨r, href⟩ := Heap.record_of_inRange (hone rfl)
    left
    rw [Operation.perform, href]
    exact hc.granted (hc.edges href)
  | «variable» v =>
    obtain ⟨cell, hcell⟩ := Heap.cell_of_inRange (hone rfl)
    left
    rw [Operation.perform, hcell]
    exact hc.granted fun n hn => hc.fits_cell hw hcell hn

/-! ### What an honest host has received -/

/-- A request that is answered is a step of a host, or leaves the machine. -/
theorem Operation.hostStep {op : Operation} {received : List Node}
    (hp : op.perform m = .ok (received, m')) : m' = m ∨ HostStep m m' := by
  cases op with
  -- a request that is granted is a step
  | newAtom content => cases hp; exact .inr (.newAtom m content)
  | newVariable => cases hp; exact .inr (.newVariable m)
  | addRoot n => cases hp; exact .inr (.addRoot m n)
  | takeOutput => cases hp; exact .inr (.takeOutput m)
  | newException kind arguments => cases hp; exact .inr (.newException m kind arguments)
  | buildRecord label fields =>
    obtain ⟨made, hb, hp⟩ := bind_eq_ok.mp hp
    cases made with
    -- a refused request changes nothing
    | error e => cases hp; exact .inl rfl
    | ok made => cases hp; exact .inr (.buildRecord label fields hb)
  | buildTuple label values =>
    obtain ⟨made, hb, hp⟩ := bind_eq_ok.mp hp
    cases made with
    | error e => cases hp; exact .inl rfl
    | ok made => cases hp; exact .inr (.buildTuple label values hb)
  | bind v value =>
    obtain ⟨bound, hb, hp⟩ := bind_eq_ok.mp hp
    cases bound with
    | error e => cases hp; exact .inl rfl
    | ok bound => cases hp; exact .inr (.bind v value hb)
  | call b operands arity =>
    obtain ⟨⟨o, m₁⟩, hcall, hp⟩ := bind_eq_ok.mp hp
    cases hp
    exact .inr (.call b operands hcall)
  | dotNumber value i =>
    obtain ⟨⟨o, m₁⟩, hcall, hp⟩ := bind_eq_ok.mp hp
    cases hp
    exact .inr (.dotNumber value i hcall)
  | spawn code registers =>
    rw [Operation.perform] at hp
    cases hs : m.spawn code registers with
    | error e => rw [hs] at hp; cases hp; exact .inl rfl
    | ok r => rw [hs] at hp; cases hp; exact .inr (.spawn code registers hs)
  | kill id =>
    rw [Operation.perform] at hp
    cases hk : m.kill id with
    | error e => rw [hk] at hp; cases hp; exact .inl rfl
    | ok m₁ => rw [hk] at hp; cases hp; exact .inr (.kill id hk)
  | runNext =>
    obtain ⟨⟨ran, m₁⟩, hr, hp⟩ := bind_eq_ok.mp hp
    cases hp
    exact .inr (.runNext hr)
  | run =>
    obtain ⟨⟨report, m₁⟩, hr, hp⟩ := bind_eq_ok.mp hp
    cases hp
    exact .inr (.run hr)
  | collect =>
    obtain ⟨m₁, hcollect, hp⟩ := bind_eq_ok.mp hp
    cases hp
    exact .inr (.collect hcollect)
  -- the others only read
  | root slot => cases hp; exact .inl rfl
  | thread id => cases hp; exact .inl rfl
  | _ =>
    obtain ⟨answer, -, hp⟩ := bind_eq_ok.mp hp
    cases hp
    exact .inl rfl

/-- The machine of an honest host is closed, and all that the host may pass fits. -/
structure Kept (m : Machine) (held : List Node) : Prop where
  reachable : Reachable m
  closed : m.Closed
  held : ∀ n ∈ held, m.Fits n

theorem Kept.mayPass (hk : m.Kept held) {n : Node} (hn : MayPass held n) : m.Fits n := by
  rcases hn with hn | hn
  · exact hk.held n hn
  · exact fits_inline hn

theorem closed_new (id : MachineId) (c : Configuration) : (Machine.new id c).Closed := by
  refine ⟨fun hr => ?_, fun hr => ?_, fun hv => ?_, rfl, nofun, nofun⟩
  · have hr := Heap.record_eq_ok_iff.mp hr
    simp [Machine.new] at hr
  · have hr := Heap.record_eq_ok_iff.mp hr
    simp [Machine.new] at hr
  · have hlt := Heap.lt_of_cell hv
    simp [Machine.new] at hlt

/-- A step of an honest host keeps what it has, or there is a collection in it. -/
theorem Kept.step (hk : m.Kept held) {op : Operation} {received : List Node}
    (hop : ∀ n ∈ op.nodes, MayPass held n) (hp : op.perform m = .ok (received, m')) :
    m'.Kept (surviving m m' held ++ received) := by
  have hw := hk.reachable.waits
  have hgranted := hk.closed.perform hw op fun n hn => hk.mayPass (hop n hn)
  rw [hp] at hgranted
  obtain ⟨received', m'', he, hc', hreceived⟩ | ⟨-, he⟩ := hgranted
  · cases he
    have hsame : m'.atoms.id = m.atoms.id → Continues m m' := by
      intro hid
      rcases op.hostStep hp with rfl | hstep
      · exact .of_eq rfl rfl rfl
      · exact (hstep.ages hw).2.continues hid
    refine ⟨?_, hc', fun n hn => ?_⟩
    · rcases op.hostStep hp with rfl | hstep
      · exact hk.reachable
      · exact hk.reachable.step hstep
    · rcases List.mem_append.mp hn with hn | hn
      · unfold surviving at hn
        split at hn
        · next hid => exact (hk.held n hn).grows (hsame hid).id (hsame hid).heap
        · cases hn
      · exact hreceived n hn
  · cases he

theorem Honest.kept (hm : Honest m held) : m.Kept held := by
  induction hm with
  | new id c => exact ⟨.new id c, closed_new id c, nofun⟩
  | step op _ hop hp ih => exact ih.step hop hp

/-- All that is read by its place is there: records have a field, and one feature for each; the
    instructions of threads have the operands that their builtins take, all of them registers of the
    thread; and the table makes atoms of the machine's own. -/
structure InPlace (m : Machine) : Prop where
  records : ∀ {ref : RecordRef} {r : Record}, m.heap.record ref = .ok r →
    r.fields ≠ [] ∧ r.features.length = r.fields.length
  threads : ∀ t ∈ m.scheduler.threads, ∀ i ∈ t.code, i.inputs.length = i.builtin.inputs ∧
    i.outputs.length = i.builtin.outputs ∧ ∀ r ∈ i.inputs ++ i.outputs, r < t.registers.length
  table : m.atoms.id.owner = m.id

theorem Closed.inPlace (hc : m.Closed) : m.InPlace where
  records hr := ⟨(hc.canonical hr).nonempty, (hc.canonical hr).balanced⟩
  threads t ht i hi := checkInstruction_eq_ok ((hc.threads t ht).code i hi)
  table := hc.table

/-- A machine does all that an honest host asks for without a fault: it gives an answer, which for
    some requests may be a refusal. A run may fail to end; then every turn of it is taken without a
    fault. All along, what is read by its place is there. -/
theorem Honest.never_faults (hm : Honest m held) :
    (∀ op : Operation, (∀ n ∈ op.nodes, MayPass held n) →
      (∃ received m', op.perform m = .ok (received, m') ∧ m'.InPlace) ∨
        op = .run ∧ op.perform m = .error .endless) ∧
    (∀ k, turns k m = .error .endless ∨ ∃ count m', turns k m = .ok (count, m') ∧ m'.InPlace) ∧
    m.InPlace := by
  have hk := hm.kept
  have hw := hk.reachable.waits
  refine ⟨fun op hop => ?_, fun k => ?_, hk.closed.inPlace⟩
  · rcases hk.closed.perform hw op fun n hn => hk.mayPass (hop n hn) with
      ⟨received, m', hp, hc', -⟩ | hend
    · exact .inl ⟨received, m', hp, hc'.inPlace⟩
    · exact .inr hend
  · rcases hk.closed.turns k hw with hend | ⟨count, m', ht, hc'⟩
    · exact .inl hend
    · exact .inr ⟨count, m', ht, hc'.inPlace⟩

/-- After a collection the host reads from a thread for which control it waits, and binds that control
    to a new variable. -/
theorem passes_control_back : Honest waitingForAny.newVariable.2
      [.record ⟨0⟩, .unit, .variable ⟨1⟩, .variable ⟨3⟩] ∧
    waitingForAny.newVariable.2.heap.IsControl ⟨1⟩ ∧ ∃ received m',
      (Operation.bind ⟨1⟩ (.variable ⟨3⟩)).perform waitingForAny.newVariable.2 =
        .ok (received, m') := by
  have h₂ := ((Honest.new ⟨0⟩ {}).step .newVariable nofun rfl).step .newVariable nofun rfl
  have h₃ := h₂.step (.buildTuple .unit [.variable ⟨0⟩, .variable ⟨1⟩]) (by decide) rfl
  have h₄ := h₃.step (.spawn [⟨.waitOr, [0], [1]⟩] [.record ⟨0⟩, .unit]) (by decide) rfl
  have h₅ : Honest suspendedForAny [.variable ⟨0⟩, .variable ⟨1⟩, .record ⟨0⟩] :=
    h₄.step .runNext nofun rfl
  have h₆ : Honest waitingForAny [] := h₅.step .collect nofun rfl
  have h₇ : Honest waitingForAny [.record ⟨0⟩, .unit, .variable ⟨1⟩] :=
    h₆.step (.thread ⟨1⟩) nofun rfl
  have h₈ : Honest waitingForAny.newVariable.2
      [.record ⟨0⟩, .unit, .variable ⟨1⟩, .variable ⟨3⟩] := h₇.step .newVariable nofun rfl
  refine ⟨h₈, ⟨⟨0⟩, [.control ⟨1⟩], rfl, List.mem_singleton.mpr rfl⟩, ?_⟩
  rcases h₈.never_faults.1 (.bind ⟨1⟩ (.variable ⟨3⟩)) (by decide) with
    ⟨received, m', hp, -⟩ | ⟨he, -⟩
  · exact ⟨received, m', hp⟩
  · cases he

end Dataflow.Machine
