import Mathlib.Data.Set.Card
import Dataflow.Proofs.Custody
import Dataflow.Proofs.Residence

/-! # Atoms over whole runs

  In the hands of an honest host a machine stays stocked, whatever it collects: each atom in it, and
  each atom that the host holds, is the one atom that the current table gives for its content. So two
  atoms are the same if and only if they have the same content.

  The *ledger* of a machine is the set of contents that have survived its last collection or have been
  interned since. It is kept along the steps of an honest host, with the turns of threads and the
  collections after them one by one. Main statement: the table has just the contents of the ledger.
-/

namespace Dataflow.Machine

variable {m m' : Machine} {held : List Node}

/-! ### Ledgers -/

/-- The request neither runs threads nor collects. -/
def Operation.isInstant : Operation → Bool
  | .runNext | .run | .collect => false
  | _ => true

/-- The contents that a request interns. A call may raise an exception, which holds the atoms that
    were interned for it. -/
def Operation.interns (m' : Machine) (received : List Node) : Operation → Set String
  | .newAtom content => {content}
  | .newException kind _ => {"kernel", kind, "error", "debug"}
  | .call _ _ _ | .dotNumber _ _ => {content | ∃ n ∈ received, m'.heap.Mentions n content}
  | _ => ∅

/-- A machine in the hands of an honest host, what the host holds, and the contents that have survived
    the last collection or have been interned since. -/
inductive Ledger : Machine → List Node → Set String → Prop where
  | new (id : MachineId) (c : Configuration) : Ledger (Machine.new id c) [] ∅
  | request {m m' : Machine} {held received : List Node} {known : Set String} (op : Operation) :
      Ledger m held known → (∀ n ∈ op.nodes, MayPass held n) → op.isInstant = true →
      op.perform m = .ok (received, m') →
      Ledger m' (held ++ received) (known ∪ op.interns m' received)
  /-- A thread has its turn. If it fails, its exception holds the atoms that were interned. -/
  | slice {m after : Machine} {held : List Node} {known : Set String} {s : Scheduler}
      {t t' : Thread} : Ledger m held known → m.scheduler.next? = (some t, s) →
      turn m.settings.quantum { m with scheduler := s } t = .ok (after, t') →
      Ledger (after.putBack t') held (known ∪
        {content | ∃ e, t'.state = .failed e ∧ (after.putBack t').heap.Mentions e content})
  /-- No thread is ready. -/
  | idle {m : Machine} {held : List Node} {known : Set String} {s : Scheduler} :
      Ledger m held known → m.scheduler.next? = (none, s) → Ledger { m with scheduler := s } held known
  /-- The atoms that are alive survive. -/
  | collect {m m' : Machine} {held : List Node} {known : Set String} : Ledger m held known →
      m.collect = .ok m' → Ledger m' [] {content | ∃ a, m.Live (.atom a) ∧ a.content = content}

/-! ### Requests on listed nodes -/

/-- The request leaves the machine stocked and gives out listed nodes, and the table has grown by what
    it has interned. -/
structure Supplies (m : Machine) (op : Operation) (received : List Node) (m' : Machine) : Prop where
  stocks : m.Stocks m'
  nodes : ∀ n ∈ received, m'.Listed n
  contents : ∀ content, content ∈ m'.atoms.contents ↔
    content ∈ m.atoms.contents ∨ content ∈ op.interns m' received

/-- A request that interns nothing. -/
theorem Stocks.supplies {op : Operation} {received : List Node} (hs : m.Stocks m')
    (hatoms : m'.atoms = m.atoms) (hop : op.interns m' received = ∅)
    (hr : ∀ n ∈ received, m'.Listed n) : m.Supplies op received m' :=
  ⟨hs, hr, fun content => by rw [hatoms, hop]; simp⟩

/-- A request that is only looked at. -/
theorem Stocked.supplies_read (hs : m.Stocked) {op : Operation} {received : List Node}
    (hop : op.interns m received = ∅) (hr : ∀ n ∈ received, m.Listed n) :
    m.Supplies op received m :=
  hs.stocks.supplies rfl hop hr

/-- A request that passes on the outcome of a call. -/
theorem Issues.supplies {x : Except Fault (Outcome × Machine)} (hx : m.Issues x) {op : Operation}
    {received : List Node}
    (hop : op.interns m' received = {content | ∃ n ∈ received, m'.heap.Mentions n content})
    (hp : (do let (o, m) ← x; return (o.nodes, m)) = Except.ok (received, m')) :
    m.Supplies op received m' := by
  obtain ⟨⟨o, m₁⟩, rfl, hp⟩ := bind_eq_ok.mp hp
  cases hp
  obtain ⟨hs, hlisted, hnew⟩ := hx o m' rfl
  refine ⟨hs, hlisted, fun content => ⟨fun hc => ?_, ?_⟩⟩
  · rw [hop]
    rcases hnew content hc with hc | ⟨e, rfl, hm⟩
    · exact .inl hc
    · exact .inr ⟨e, List.mem_singleton.mpr rfl, hm⟩
  · rw [hop]
    rintro (hc | ⟨n, hn, hm⟩)
    · exact hs.continues.interned _ hc
    · exact hs.stocked.mem_of_mentions (hlisted n hn) hm

theorem atoms_buildRecord {label n : Node} {fields : List (Node × Node)}
    (hb : m.buildRecord label fields = .ok (.ok (n, m'))) : m'.atoms = m.atoms := by
  rcases buildRecord_cases hb with ⟨l, -, -, rfl⟩ | ⟨l, fs, -, -, -, he⟩
  · rfl
  · exact congrArg (fun made => made.2.atoms) he

theorem atoms_buildTuple {label n : Node} {values : List Node}
    (hb : m.buildTuple label values = .ok (.ok (n, m'))) : m'.atoms = m.atoms := by
  rcases buildTuple_cases hb with ⟨l, -, -, rfl⟩ | ⟨l, -, -, he⟩
  · rfl
  · exact congrArg (fun made => made.2.atoms) he

theorem atoms_spawn {code : List Instruction} {registers : List Node} {r : ThreadId × Machine}
    (hs : m.spawn code registers = .ok r) : r.2.atoms = m.atoms := by
  obtain ⟨u, -, hs⟩ := bind_eq_ok.mp hs
  cases hs
  rfl

theorem atoms_kill {id : ThreadId} (hk : m.kill id = .ok m') : m'.atoms = m.atoms := by
  obtain ⟨s, -, hk⟩ := bind_eq_ok.mp hk
  cases hk
  rfl

theorem Stocked.spawn (hs : m.Stocked) {code : List Instruction} {registers : List Node}
    {r : ThreadId × Machine} (hn : ∀ n ∈ registers, m.Listed n)
    (hspawn : m.spawn code registers = .ok r) : m.Stocks r.2 := by
  obtain ⟨u, hcheck, hspawn⟩ := bind_eq_ok.mp hspawn
  cases hspawn
  refine hs.of_eq rfl rfl rfl hs.roots fun t ht => ?_
  rcases List.mem_append.mp ht with ht | ht
  · exact hs.threads t ht
  · rw [List.mem_singleton.mp ht]
    exact ⟨hn, forM_eq_ok hcheck, nofun⟩

theorem Stocked.kill (hs : m.Stocked) {id : ThreadId} (hk : m.kill id = .ok m') : m.Stocks m' := by
  obtain ⟨s, hkill, hk⟩ := bind_eq_ok.mp hk
  cases hk
  obtain ⟨-, rfl⟩ := Scheduler.kill_eq_ok hkill
  exact hs.of_eq rfl rfl rfl hs.roots fun t ht => hs.threads t (List.mem_of_mem_filter ht)

theorem Stocked.listed_cell (hs : m.Stocked) {v : VarRef} {cell : Cell}
    (hcell : m.heap.cell v = .ok cell) {n : Node} (hn : n ∈ Snapshot.cellNodes cell) :
    m.Listed n := by
  cases cell with
  | bound x =>
    rw [List.mem_singleton.mp hn]
    exact hs.values hcell
  | unbound ls =>
    obtain ⟨c, -, rfl⟩ := mem_controls.mp hn
    exact listed_of_asAtom? rfl

theorem Stocked.listed_thread (hs : m.Stocked) {t : Thread} (ht : t ∈ m.scheduler.threads) {n : Node}
    (hn : n ∈ t.nodes) : m.Listed n := hs.listed_live (live_thread ht hn)

/-- A request on listed nodes supplies listed nodes. -/
theorem Stocked.perform (hs : m.Stocked)
    (hw : Waits m.heap m.scheduler.threads m.scheduler.spawned) {op : Operation}
    (hn : ∀ n ∈ op.nodes, m.Listed n) (hinstant : op.isInstant = true) {received : List Node}
    (hp : op.perform m = .ok (received, m')) : m.Supplies op received m' := by
  have hone : ∀ {n : Node}, op.nodes = [n] → m.Listed n :=
    fun he => hn _ (he ▸ List.mem_singleton.mpr rfl)
  have hderef : ∀ {n d : Node}, m.Listed n → m.heap.deref n = .ok d → m.Listed d := hs.listed_deref
  cases op with
  -- requests that make something: the table grows by the contents that they mention
  | newAtom content =>
    rw [Operation.perform, newAtom_eq] at hp
    cases hp
    obtain ⟨hs', hl⟩ := stocks_making.intern hs.stocks content
    refine ⟨hs', fun n hn => by rw [List.mem_singleton.mp hn]; exact hl, fun other => ?_⟩
    rw [AtomTable.mem_contents_insert]
    exact or_comm
  | newVariable =>
    cases hp
    have hg := Heap.gains_allocateVariable m.heap
    refine (hs.withHeap hg.grows hg.records hg.bound_before).supplies rfl rfl fun n hn => ?_
    rw [List.mem_singleton.mp hn]
    exact listed_of_asAtom? rfl
  | addRoot n =>
    cases hp
    have hroots : ∀ x ∈ (m.addRoot n).2.roots, m.Listed x := by
      intro x hx
      rcases List.mem_append.mp hx with hx | hx
      · exact hs.roots x hx
      · rw [List.mem_singleton.mp hx]
        exact hone rfl
    have hs' : m.Stocks (m.addRoot n).2 := hs.of_eq rfl rfl rfl hroots hs.threads
    exact hs'.supplies rfl rfl (List.forall_mem_nil _)
  | takeOutput =>
    cases hp
    have hs' : m.Stocks m.takeOutput.2 := hs.of_eq rfl rfl rfl hs.roots hs.threads
    exact hs'.supplies rfl rfl (List.forall_mem_nil _)
  | newException kind arguments =>
    cases hp
    obtain ⟨hs', hl⟩ := stocks_making.newException hs.stocks kind hn
    refine ⟨hs', fun n hn => by rw [List.mem_singleton.mp hn]; exact hl, fun other => ?_⟩
    simp only [contents_newException, AtomTable.mem_contents_insert, Operation.interns,
      Set.mem_insert_iff, Set.mem_singleton_iff]
    tauto
  | buildRecord label fields =>
    obtain ⟨made, hb, hp⟩ := bind_eq_ok.mp hp
    cases made with
    | error e =>
      cases hp
      exact hs.supplies_read rfl (List.forall_mem_nil _)
    | ok made =>
      cases hp
      have hfields : ∀ e ∈ fields, m.Listed e.1 ∧ m.Listed e.2 := by
        intro e he
        have hmem : ∀ n ∈ [e.1, e.2], m.Listed n := fun n hne =>
          hn n (List.mem_cons_of_mem _ (List.mem_flatMap.mpr ⟨e, he, hne⟩))
        exact ⟨hmem _ (List.mem_cons_self ..),
          hmem _ (List.mem_cons_of_mem _ (List.mem_cons_self ..))⟩
      obtain ⟨hs', hl⟩ :=
        stocks_making.buildRecord hderef hs.stocks (hn label (List.mem_cons_self ..)) hfields hb
      refine hs'.supplies (atoms_buildRecord hb) rfl fun n hn => ?_
      rw [List.mem_singleton.mp hn]
      exact hl
  | buildTuple label values =>
    obtain ⟨made, hb, hp⟩ := bind_eq_ok.mp hp
    cases made with
    | error e =>
      cases hp
      exact hs.supplies_read rfl (List.forall_mem_nil _)
    | ok made =>
      cases hp
      obtain ⟨hs', hl⟩ := stocks_making.buildTuple hderef hs.stocks (hn label (List.mem_cons_self ..))
        (fun x hx => hn x (List.mem_cons_of_mem _ hx)) hb
      refine hs'.supplies (atoms_buildTuple hb) rfl fun n hn => ?_
      rw [List.mem_singleton.mp hn]
      exact hl
  | bind v value =>
    obtain ⟨bound, hb, hp⟩ := bind_eq_ok.mp hp
    cases bound with
    | error e =>
      cases hp
      exact hs.supplies_read rfl (List.forall_mem_nil _)
    | ok bound =>
      cases hp
      have hatoms : m'.atoms = m.atoms := by
        obtain ⟨ids, hcasc, -⟩ := cascade_of_bind hw.nodup hb
        rw [hcasc.rest]
      have hx : m.Listed value := hn _ (List.mem_cons_of_mem _ (List.mem_cons_self ..))
      exact (hs.bind hw hx hb).supplies hatoms rfl (List.forall_mem_nil _)
  | call b operands arity => exact (hs.call hw hn).supplies rfl hp
  | dotNumber value i =>
    exact ((hs.discipline hw .dotNumber).dotNumber (hone rfl) i).supplies rfl hp
  | spawn code registers =>
    rw [Operation.perform] at hp
    cases hsp : m.spawn code registers with
    | error e =>
      rw [hsp] at hp
      cases hp
      exact hs.supplies_read rfl (List.forall_mem_nil _)
    | ok r =>
      rw [hsp] at hp
      cases hp
      exact (hs.spawn hn hsp).supplies (atoms_spawn hsp) rfl (List.forall_mem_nil _)
  | kill id =>
    rw [Operation.perform] at hp
    cases hk : m.kill id with
    | error e =>
      rw [hk] at hp
      cases hp
      exact hs.supplies_read rfl (List.forall_mem_nil _)
    | ok m₁ =>
      rw [hk] at hp
      cases hp
      exact (hs.kill hk).supplies (atoms_kill hk) rfl (List.forall_mem_nil _)
  | runNext => cases hinstant
  | run => cases hinstant
  | collect => cases hinstant
  -- questions give out what is listed already, and leave the table alone
  | deref n =>
    obtain ⟨d, hd, hp⟩ := bind_eq_ok.mp hp
    cases hp
    refine hs.supplies_read rfl fun x hx => ?_
    rw [List.mem_singleton.mp hx]
    exact hderef (hone rfl) hd
  | root slot =>
    cases hp
    refine hs.supplies_read rfl fun n hn => hs.roots n ?_
    exact List.mem_of_getElem? (Option.mem_toList.mp hn)
  | thread id =>
    cases hp
    refine hs.supplies_read rfl fun n hn => ?_
    cases ht : m.thread? id with
    | none =>
      rw [ht] at hn
      cases hn
    | some t =>
      rw [ht] at hn
      exact hs.listed_thread (List.mem_of_find?_eq_some ht) hn
  | record ref =>
    obtain ⟨r, hr, hp⟩ := bind_eq_ok.mp hp
    cases hp
    exact hs.supplies_read rfl (hs.edges hr)
  | «variable» v =>
    obtain ⟨cell, hcell, hp⟩ := bind_eq_ok.mp hp
    cases hp
    exact hs.supplies_read rfl fun n hn => hs.listed_cell hcell hn
  | _ =>
    obtain ⟨answer, -, hp⟩ := bind_eq_ok.mp hp
    cases hp
    exact hs.supplies_read rfl (List.forall_mem_nil _)

/-! ### What a ledger records -/

/-- The machine is stocked, what the host holds is listed, and the table has the contents of the
    ledger. -/
structure Reconciled (m : Machine) (held : List Node) (known : Set String) : Prop where
  waits : Waits m.heap m.scheduler.threads m.scheduler.spawned
  stocked : m.Stocked
  held : ∀ n ∈ held, m.Listed n
  contents : ∀ content, content ∈ m.atoms.contents ↔ content ∈ known

theorem stocked_new (id : MachineId) (c : Configuration) : (Machine.new id c).Stocked := by
  have hc := closed_new id c
  refine ⟨hc.canonical, rfl, List.nodup_nil, fun hr => ?_, fun hv => ?_, nofun, nofun⟩
  · have hr := Heap.record_eq_ok_iff.mp hr
    simp [Machine.new] at hr
  · have hlt := Heap.lt_of_cell hv
    simp [Machine.new] at hlt

theorem Reconciled.mayPass {known : Set String} (hb : m.Reconciled held known) {n : Node}
    (hn : MayPass held n) : m.Listed n := by
  rcases hn with hn | hn
  · exact hb.held n hn
  · exact stocks_making.inline hn

theorem Ledger.reconciled {known : Set String} (hl : Ledger m held known) : m.Reconciled held known := by
  -- over the run: the table has just the contents of the ledger, since it only grows between
  -- collections
  induction hl with
  | new id c => exact ⟨waits_new id c, stocked_new id c, nofun, fun _ => by simp [Machine.new]⟩
  | @request m m' held received known op _ hop hinstant hp ih =>
    have hsup := ih.stocked.perform ih.waits (fun n hn => ih.mayPass (hop n hn)) hinstant hp
    refine ⟨?_, hsup.stocks.stocked, fun n hn => ?_, fun content => ?_⟩
    · rcases op.hostStep hp with rfl | hstep
      · exact ih.waits
      · exact (hstep.ages ih.waits).1
    · rcases List.mem_append.mp hn with hn | hn
      · exact hsup.stocks.listed (ih.held n hn)
      · exact hsup.nodes n hn
    · rw [hsup.contents, ih.contents]
      rfl
  | @slice m after held known s t t' _ hnext hturn ih =>
    obtain ⟨hs', ht', hnew⟩ := ih.stocked.slice ih.waits hnext hturn
    refine ⟨(continues_of_slice ih.waits hnext hturn).1, hs'.stocked,
      fun n hn => hs'.listed (ih.held n hn), fun content => ⟨fun hc => ?_, ?_⟩⟩
    · exact (hnew content hc).imp_left (ih.contents content).mp
    · rintro (hc | ⟨e, he, hm⟩)
      · exact hs'.continues.interned _ ((ih.contents content).mpr hc)
      · exact hs'.stocked.mem_of_mentions (ht'.exception e he) hm
  | @idle m held known s _ hnext ih =>
    obtain ⟨hthreads, hspawned, -⟩ := nextFrom_cases hnext
    refine ⟨?_, ?_, ih.held, ih.contents⟩
    · show Waits m.heap s.threads s.spawned
      rw [hthreads, hspawned]
      exact ih.waits
    · have hs : m.Stocks { m with scheduler := s } :=
        ih.stocked.of_eq rfl rfl rfl ih.stocked.roots fun t ht => ih.stocked.threads t (hthreads ▸ ht)
      exact hs.stocked
  | collect _ hc ih =>
    obtain ⟨-, hcontents⟩ := contents_collect hc
    -- after a collection the ledger starts again with what was alive
    exact ⟨waits_collect ih.waits hc, ih.stocked.collect hc, nofun, hcontents⟩

/-! ### Every honest host has a ledger -/

theorem Ages.trans {m'' : Machine} (h₁ : Ages m m') (h₂ : Ages m' m'') : Ages m m'' := by
  rcases h₂ with hc | hlt
  · exact h₁.trans_continues hc
  · rcases h₁ with hc | hlt'
    · exact .inr (by rw [← hc.table]; exact hlt)
    · exact .inr (Nat.lt_trans hlt' hlt)

/-- What has survived two steps has survived both of them. -/
theorem surviving_trans {m'' : Machine} (h₁ : Ages m m') (h₂ : Ages m' m'') (held : List Node) :
    surviving m' m'' (surviving m m' held) = surviving m m'' held := by
  unfold surviving
  rcases h₁ with hc | hlt
  · rw [if_pos hc.table, hc.table]
  · have hne : m''.atoms.id ≠ m.atoms.id := by
      intro he
      rcases h₂ with hc | hlt'
      · rw [← hc.table, he] at hlt
        exact Nat.lt_irrefl _ hlt
      · rw [he] at hlt'
        exact Nat.lt_irrefl _ (Nat.lt_trans hlt hlt')
    have hne' : m'.atoms.id ≠ m.atoms.id := by
      intro he
      rw [he] at hlt
      exact Nat.lt_irrefl _ hlt
    rw [if_neg hne, if_neg hne', ite_self]

/-- Nothing survives a collection. -/
theorem surviving_collect {m'' : Machine} (hc : Continues m m') (hcollect : m'.collect = .ok m'')
    (held : List Node) : surviving m m'' held = [] := by
  refine if_neg fun he => ?_
  have hnext := generation_collect hcollect
  rw [he, hc.table] at hnext
  omega

/-- The ledger of a turn, and of the collection after it. -/
theorem Ledger.runNext {known : Set String} {ran : Bool} (hl : Ledger m held known)
    (hr : m.runNext = .ok (ran, m')) :
    (∃ known', Ledger m' (surviving m m' held) known') ∧ Ages m m' := by
  have hw := hl.reconciled.waits
  rcases runNext_slices hr with ⟨-, s, hn, rfl⟩ | ⟨-, t, s, after, t', hn, hturn, hor⟩
  · rw [surviving, if_pos rfl]
    exact ⟨⟨_, hl.idle hn⟩, .inl (.of_eq rfl rfl rfl)⟩
  · have hslice := hl.slice hn hturn
    have hcont := (continues_of_slice hw hn hturn).2
    rcases hor with rfl | hc
    · rw [surviving, if_pos hcont.table]
      exact ⟨⟨_, hslice⟩, .inl hcont⟩
    · rw [surviving_collect hcont hc]
      exact ⟨⟨_, hslice.collect hc⟩, Ages.trans_collect (.inl hcont) hc⟩

theorem Ledger.turns {known : Set String} {n count : Nat} (hl : Ledger m held known)
    (ht : turns n m = .ok (count, m')) :
    (∃ known', Ledger m' (surviving m m' held) known') ∧ Ages m m' := by
  induction n generalizing m held known count with
  | zero => cases ht
  | succ n ih =>
    rw [Machine.turns] at ht
    obtain ⟨⟨ran, next⟩, hnext, ht⟩ := bind_eq_ok.mp ht
    obtain ⟨⟨known₁, hl₁⟩, ha₁⟩ := hl.runNext hnext
    cases ran with
    | false =>
      cases ht
      exact ⟨⟨known₁, hl₁⟩, ha₁⟩
    | true =>
      obtain ⟨⟨k, last⟩, hrest, ht⟩ := bind_eq_ok.mp ht
      cases ht
      obtain ⟨⟨known₂, hl₂⟩, ha₂⟩ := ih hl₁ hrest
      rw [surviving_trans ha₁ ha₂] at hl₂
      exact ⟨⟨known₂, hl₂⟩, ha₁.trans ha₂⟩

theorem Honest.ledger (hm : Honest m held) : ∃ known, Ledger m held known := by
  induction hm with
  | new id c => exact ⟨∅, .new id c⟩
  | @step m m' held received op _ hop hp ih =>
    obtain ⟨known, hl⟩ := ih
    -- an instant request is a step of the ledger; turns and collections are taken apart first
    by_cases hinstant : op.isInstant = true
    · have hb := hl.reconciled
      have hsup := hb.stocked.perform hb.waits (fun n hn => hb.mayPass (hop n hn)) hinstant hp
      rw [surviving, if_pos hsup.stocks.continues.table]
      exact ⟨_, hl.request op hop hinstant hp⟩
    · cases op with
      | runNext =>
        obtain ⟨⟨ran, next⟩, hr, hp⟩ := bind_eq_ok.mp hp
        cases hp
        rw [List.append_nil]
        exact (hl.runNext hr).1
      | run =>
        obtain ⟨⟨report, last⟩, hr, hp⟩ := bind_eq_ok.mp hp
        cases hp
        obtain ⟨count, ht, -⟩ := turns_of_run hr
        rw [List.append_nil]
        exact (hl.turns ht).1
      | collect =>
        obtain ⟨last, hc, hp⟩ := bind_eq_ok.mp hp
        cases hp
        rw [surviving_collect (.of_eq rfl rfl rfl) hc]
        exact ⟨_, hl.collect hc⟩
      | _ => exact absurd rfl hinstant

/-! ### The theorem -/

/-- The node stands somewhere in the machine. -/
inductive Stores (m : Machine) : Node → Prop where
  | root {n : Node} : n ∈ m.roots → Stores m n
  | register {t : Thread} {n : Node} : t ∈ m.scheduler.threads → n ∈ t.registers → Stores m n
  | exception {t : Thread} {e : Node} : t ∈ m.scheduler.threads → t.state = .failed e → Stores m e
  /-- It is a label, a feature or a field of a record. -/
  | edge {ref : RecordRef} {r : Record} {n : Node} : m.heap.record ref = .ok r → n ∈ r.edges →
      Stores m n
  | value {v : VarRef} {n : Node} : m.heap.cell v = .ok (.bound n) → Stores m n

theorem Stocked.listed_stores (hs : m.Stocked) {n : Node} (hn : m.Stores n) : m.Listed n := by
  cases hn with
  | root hn => exact hs.roots _ hn
  | register ht hn => exact (hs.threads _ ht).registers _ hn
  | exception ht he => exact (hs.threads _ ht).exception _ he
  | edge hr hn => exact hs.edges hr _ hn
  | value hv => exact hs.values hv

/-- A table is as long as it has contents. -/
theorem Stocked.size_eq (hs : m.Stocked) :
    m.atoms.size = Set.ncard {content | content ∈ m.atoms.contents} := by
  rw [← List.coe_toFinset, Set.ncard_coe_finset, List.toFinset_card_of_nodup hs.nodup]
  rfl

/-- In the hands of an honest host, every atom that stands in the machine, or that the host holds,
    belongs to the machine and is the atom that its table gives for the content. So two such atoms are
    the same, and equal for the machine, exactly if they have the same content. Interning a text and
    interning its characters gives the same atom, and it gives the atom that is there already. The
    table has just the contents that have survived the last collection or have been interned since,
    and its size is their number. -/
theorem Honest.atoms_canonical (hm : Honest m held) :
    (∀ a, m.Stores (.atom a) ∨ .atom a ∈ held →
      a.owner = m.id ∧ m.atoms.find? a.content = some a ∧ m.atoms.intern a.content = (a, m.atoms)) ∧
    (∀ a b, m.Stores (.atom a) ∨ .atom a ∈ held → m.Stores (.atom b) ∨ .atom b ∈ held →
      (a = b ↔ a.content = b.content) ∧
      m.equals (.atom a) (.atom b) = .ok (decide (a.content = b.content))) ∧
    (∀ text : String, m.atoms.internScalars text.toList = m.atoms.intern text) ∧
    (∃ known, Ledger m held known) ∧
    ∀ known, Ledger m held known →
      (∀ content, (m.atoms.find? content).isSome = true ↔ content ∈ known) ∧
      m.atoms.size = known.ncard := by
  obtain ⟨known, hl⟩ := hm.ledger
  have hb := hl.reconciled
  -- what is stored or held is the very entry of the table, and all four parts follow from that
  have hlisted : ∀ a, m.Stores (.atom a) ∨ .atom a ∈ held → m.Listed (.atom a) := by
    rintro a (ha | ha)
    · exact hb.stocked.listed_stores ha
    · exact hb.held _ ha
  have hown : ∀ a, m.Listed (.atom a) → a.owner = m.id := fun a ha => by
    rw [Atom.owner, (listed_atom.mp ha).2]
    exact hb.stocked.table
  refine ⟨fun a ha => ?_, fun a b ha hb => ?_, fun text => ?_, ⟨known, hl⟩, fun known hl => ?_⟩
  · have hla := hlisted a ha
    obtain ⟨hmem, htable⟩ := listed_atom.mp hla
    refine ⟨hown a hla, hla a rfl, ?_⟩
    rw [AtomTable.intern_eq, AtomTable.insert, if_pos hmem, ← htable]
  · have hla := hlisted a ha
    have hlb := hlisted b hb
    have hiff : a = b ↔ a.content = b.content := by
      refine ⟨congrArg Atom.content, fun he => ?_⟩
      -- one content has one entry
      have hfind := hla a rfl
      rw [he, hlb b rfl] at hfind
      exact (Option.some.inj hfind).symm
    refine ⟨hiff, ?_⟩
    rw [equals_atoms (hown a hla) (hown b hlb)]
    exact congrArg Except.ok (decide_eq_decide.mpr hiff)
  · rw [AtomTable.internScalars, String.ofList_toList]
  · have hb := hl.reconciled
    have hset : {content | content ∈ m.atoms.contents} = known :=
      Set.ext fun content => hb.contents content
    refine ⟨fun content => ?_, ?_⟩
    · rw [AtomTable.isSome_find?, hb.contents]
    · rw [hb.stocked.size_eq, hset]

/-- A machine after a collection, with the atom that was behind a variable as its root. -/
def renewed : Machine :=
  { id := ⟨0⟩
    atoms := { id := ⟨⟨0⟩, 1⟩, contents := ["kept"] }
    roots := [.atom ⟨⟨⟨0⟩, 1⟩, "kept"⟩] }

/-- The host reads the atom from the root, and interns its content once more. Another atom has not
    survived. -/
theorem renewed_canonical : ∃ a, Honest renewed [.atom a, .atom ⟨⟨⟨0⟩, 1⟩, "kept"⟩] ∧
    renewed.Stores (.atom a) ∧ renewed.atoms.find? "kept" = some a ∧
    renewed.equals (.atom a) (.atom ⟨⟨⟨0⟩, 1⟩, "kept"⟩) = .ok true ∧
    renewed.atoms.find? "lost" = none := by
  have h₁ := ((Honest.new ⟨0⟩ {}).step (.newAtom "kept") nofun rfl).step (.newAtom "lost") nofun rfl
  have h₂ := (h₁.step .newVariable nofun rfl).step
    (.bind ⟨0⟩ (.atom ⟨⟨⟨0⟩, 0⟩, "kept"⟩)) (by decide) rfl
  have h₃ := h₂.step (.addRoot (.variable ⟨0⟩)) (by decide) rfl
  have h₄ : Honest renewed [] := h₃.step .collect nofun rfl
  have h₅ : Honest renewed [.atom ⟨⟨⟨0⟩, 1⟩, "kept"⟩, .atom ⟨⟨⟨0⟩, 1⟩, "kept"⟩] :=
    (h₄.step (.root 0) nofun rfl).step (.newAtom "kept") nofun rfl
  have hstores : renewed.Stores (.atom ⟨⟨⟨0⟩, 1⟩, "kept"⟩) := .root (List.mem_singleton.mpr rfl)
  obtain ⟨hlisted, hsame, -⟩ := h₅.atoms_canonical
  exact ⟨_, h₅, hstores, (hlisted _ (.inl hstores)).2.1,
    (hsame _ _ (.inl hstores) (.inr (List.mem_singleton.mpr rfl |> List.mem_cons_of_mem _))).2, rfl⟩

end Dataflow.Machine
