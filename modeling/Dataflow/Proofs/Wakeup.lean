import Dataflow.Proofs.Ending
import Dataflow.Proofs.Scheduling

/-! # No wake-up is lost

  A collection moves the threads, the variables that they wait for and the lists of those who
  wait, and keeps them in agreement. So the invariant `Waits` holds of all reachable machines. A
  thread that waits in a reachable machine is woken by the bind of the variable that it waits
  for, it can be found there, and making its call again would suspend again.
-/

namespace Dataflow

/-! ### Collections -/

theorem Node.isSelectable_of_kind {n n' : Node} (hk : n'.kind = n.kind) :
    n'.isSelectable = n.isSelectable := by
  cases n <;> cases n' <;> first | rfl | cases hk

theorem filterMap_threads_relocate (φ : Node → Node) (ls : List Listener) :
    (ls.filterMap (Listener.relocate φ)).filterMap Listener.thread? =
      ls.filterMap Listener.thread? := by
  rw [List.filterMap_filterMap]
  refine List.filterMap_congr fun l _ => ?_
  cases l with
  | thread id => rfl
  | control c =>
    cases hφ : φ (.variable c) <;>
      simp [Listener.relocate, hφ, Node.asVariable?, Listener.thread?]

theorem Record.IsImage.balanced {φ : Node → Node} {r r' : Record} (him : r.IsImage φ r')
    (hr : r.Balanced) : r'.Balanced := by
  have hlen : r'.fields.length = r.fields.length := by rw [him.fields, List.length_map]
  unfold Record.Balanced Record.features at hr ⊢
  rcases him.arity with ⟨-, ha'⟩ | ⟨names, names', ha, ha', hnames⟩
  · rw [ha']
    simp [Record.width]
  · rw [ha] at hr
    have hnames' : names'.length = names.length := by
      simpa using congrArg List.length hnames
    rw [ha', hlen, ← hr]
    exact hnames'

/-- A thread waits after a move if it waited before for a variable that is moved to a variable. -/
theorem ThreadState.relocate_eq_waiting {φ : Node → Node} {state : ThreadState} {w : VarRef} :
    state.relocate φ = .waiting w ↔ ∃ v, state = .waiting v ∧ φ (.variable v) = .variable w := by
  constructor
  · intro hs
    cases state with
    | waiting v =>
      refine ⟨v, rfl, ?_⟩
      simp only [ThreadState.relocate] at hs
      split at hs
      · next he => cases hs; exact he
      · cases hs
    | _ => cases hs
  · rintro ⟨v, rfl, hv⟩
    simp [ThreadState.relocate, hv]

theorem mapM_register_relocate {φ : Node → Node} {t : Thread} {inputs : List Nat}
    {operands : List Node} (ho : inputs.mapM t.register = .ok operands) :
    inputs.mapM (t.relocate φ).register = .ok (operands.map φ) ∧
      ∀ n ∈ operands, n ∈ t.registers := by
  induction inputs generalizing operands with
  | nil => cases ho; exact ⟨rfl, nofun⟩
  | cons i inputs ih =>
    rw [List.mapM_cons] at ho
    obtain ⟨n, hn, ho⟩ := bind_eq_ok.mp ho
    obtain ⟨ns, hns, ho⟩ := bind_eq_ok.mp ho
    cases ho
    obtain ⟨hmap, hmem⟩ := ih hns
    have hget : t.registers[i]? = some n := by
      unfold Thread.register at hn
      split at hn
      · next he => cases hn; exact he
      · cases hn
    have hreg : (t.relocate φ).register i = .ok (φ n) := by
      simp [Thread.register, Thread.relocate, hget]
    refine ⟨by simp [hreg, hmap, pure, Except.pure], ?_⟩
    intro x hx
    rcases List.mem_cons.mp hx with rfl | hx
    · exact List.mem_of_getElem? hget
    · exact hmem x hx

namespace Machine

variable {m m' : Machine} {φ : Node → Node}

namespace Relocation

/-- What a call awaits is moved to what the call on the images awaits. -/
theorem awaits (hr : Relocation m m' φ) {b : Builtin} {operands : List Node} {v w : VarRef}
    (hlive : ∀ n ∈ operands, m.Live n) (ha : m.heap.Awaits b operands v)
    (hv : φ (.variable v) = .variable w) : m'.heap.Awaits b (operands.map φ) w := by
  have hvar : ∀ {n : Node}, m.Live n → m.heap.deref n = .ok (.variable v) →
      m'.heap.deref (φ n) = .ok (.variable w) := by
    intro n hn hd
    rw [← hv]
    exact hr.deref_image hn hd
  have hkind : ∀ {n d : Node}, m.Live n → m.heap.deref n = .ok d → (φ d).kind = d.kind :=
    fun hn hd => hr.kind (hn.deref hd) (Heap.deref_deref hd)
  -- one case for each way to suspend: what the call reads is alive, so it reads the images
  cases ha with
  | operand hb hn => exact .operand hb (hvar (hlive _ (by simp)) hn)
  | receiver hb hn => exact .receiver hb (hvar (hlive _ (by simp)) hn)
  | feature hn hs hf =>
    have hln := hlive _ (List.mem_cons_self ..)
    refine .feature (hr.deref_image hln hn) ?_ (hvar (hlive _ (by simp)) hf)
    rw [Node.isSelectable_of_kind (hkind hln hn), hs]
  | number hn hd hf =>
    have hln := hlive _ (List.mem_cons_self ..)
    exact .number (hr.deref_image hln hn) (Node.asVariable?_of_kind (hkind hln hn) hd)
      (hvar (hlive _ (by simp)) hf)
  | equal hn hd hx =>
    have hln := hlive _ (List.mem_cons_self ..)
    exact .equal (hr.deref_image hln hn) (Node.asVariable?_of_kind (hkind hln hn) hd)
      (hvar (hlive _ (by simp)) hx)
  | field hn href hx hd =>
    have hln := hlive _ (List.mem_cons_self ..)
    obtain ⟨ref', r', hφ, href', him⟩ := hr.record (hln.deref hn) href
    have hn' := hr.deref_image hln hn
    rw [hφ] at hn'
    refine .field hn' href' (by rw [him.fields, hx, List.map_singleton]) (hvar ?_ hd)
    exact .edge (hln.deref hn) href (by simp [Record.edges, hx])
  | control hn href hlen hall =>
    have hln := hlive _ (List.mem_cons_self ..)
    obtain ⟨ref', r', hφ, href', him⟩ := hr.record (hln.deref hn) href
    have hn' := hr.deref_image hln hn
    rw [hφ] at hn'
    refine .control hn' href' (by rwa [him.fields, List.length_map]) ?_
    intro x' hx'
    rw [him.fields] at hx'
    obtain ⟨x, hx, rfl⟩ := List.mem_map.mp hx'
    obtain ⟨u, hxu, hl⟩ := hall x hx
    have hlx : m.Live x := .edge (hln.deref hn) href (by simp [Record.edges, hx])
    -- the control has a variable as its image, so it is kept in every list
    have hcontrol : Listener.relocate φ (.control v) = some (.control w) := by
      simp [Listener.relocate, hv, Node.asVariable?]
    obtain ⟨u', hφu, hl'⟩ := hr.listens (hlx.deref hxu) hl hcontrol
    have hd' := hr.deref_image hlx hxu
    rw [hφu] at hd'
    exact ⟨u', hd', hl'⟩

/-- A node that is moved to a variable is moved to an unbound one. -/
theorem unbound_image (hr : Relocation m m' φ) {n : Node} {w : VarRef} (hn : m.Live n)
    (hφ : φ n = .variable w) : ∃ ks, m'.heap.cell w = .ok (.unbound ks) := by
  obtain ⟨d, hd, -⟩ := hr.inRange hn
  have himage := hr.deref_image hn hd
  rw [← hr.deref hn hd, hφ] at himage
  exact Heap.cell_of_deref himage

end Relocation

/-- A collection keeps threads and lists in agreement. -/
theorem waits_relocation (hw : Waits m.heap m.scheduler.threads m.scheduler.spawned)
    (hr : Relocation m m' φ) : Waits m'.heap m'.scheduler.threads m'.scheduler.spawned := by
  rw [hr.threads, hr.spawned]
  -- every cell, record and thread of the new machine is the image of one before, for which the fact
  -- is known
  refine
    { grounded := ?_, balanced := ?_, control := ?_, nodup := ?_, numbered := ?_, called := ?_
      once := ?_, listed := ?_, parked := ?_, blocked := ?_ }
  · intro w c hc
    obtain ⟨v, ls, -, -, -, rfl⟩ := hr.cell_before hc
    exact ⟨_, Heap.deref_unbound hc⟩
  · intro ref' r' href'
    obtain ⟨ref, r, -, href, -, him⟩ := hr.record_before href'
    exact him.balanced (hw.balanced href)
  · intro w c' hl'
    obtain ⟨v, l, hlive, -, ⟨ls, hv, hm⟩, he⟩ := hr.listens_before hl'
    cases l with
    | thread id => cases he
    -- a listener that was kept has a variable as its image, so its control is still there
    | control c =>
      have hφ : φ (.variable c) = .variable c' := by
        cases hn : φ (.variable c) <;> simp [Listener.relocate, hn, Node.asVariable?] at he
        rw [he]
      obtain ⟨ks, hk⟩ := hr.unbound_image (.control hlive hv hm) hφ
      exact ⟨_, hk⟩
  · rw [List.map_map]
    exact hw.nodup
  · intro t' ht'
    obtain ⟨t, ht, rfl⟩ := List.mem_map.mp ht'
    exact hw.numbered t ht
  · intro w id hl'
    obtain ⟨v, -, -, hl⟩ := hr.thread_listens_before hl'
    exact hw.called hl
  · intro w ls' hc
    obtain ⟨v, ls, -, hv, -, he⟩ := hr.cell_before hc
    cases he
    rw [filterMap_threads_relocate]
    exact hw.once hv
  · intro w t' ht' hl'
    obtain ⟨t, ht, rfl⟩ := List.mem_map.mp ht'
    have hl'' : m'.heap.Listens (.thread t.id) w := hl'
    obtain ⟨v, -, hφ, hl⟩ := hr.thread_listens_before hl''
    exact ThreadState.relocate_eq_waiting.mpr ⟨v, hw.listed t ht hl, hφ⟩
  · intro w t' ht' hs'
    obtain ⟨t, ht, rfl⟩ := List.mem_map.mp ht'
    obtain ⟨v, hs, hφ⟩ := ThreadState.relocate_eq_waiting.mp hs'
    obtain ⟨w', hφ', hl'⟩ := hr.listens (live_waiting ht hs) (hw.parked t ht hs) rfl
    -- the image of the variable is the one that the thread now waits for
    rw [hφ] at hφ'
    cases hφ'
    exact hl'
  · intro w t' ht' hs'
    obtain ⟨t, ht, rfl⟩ := List.mem_map.mp ht'
    obtain ⟨v, hs, hφ⟩ := ThreadState.relocate_eq_waiting.mp hs'
    obtain ⟨i, operands, hi, ho, ha⟩ := hw.blocked t ht hs
    obtain ⟨hmap, hmem⟩ := mapM_register_relocate (φ := φ) ho
    exact ⟨i, operands.map φ, hi, hmap,
      hr.awaits (fun n hn => live_register ht (hmem n hn)) ha hφ⟩

theorem waits_collect (hw : Waits m.heap m.scheduler.threads m.scheduler.spawned)
    (hc : m.collect = .ok m') : Waits m'.heap m'.scheduler.threads m'.scheduler.spawned := by
  obtain ⟨φ, hr⟩ := relocation_of_collect hc
  exact waits_relocation hw hr

/-! ### All reachable machines -/

theorem waits_runNext (hw : Waits m.heap m.scheduler.threads m.scheduler.spawned) {ran : Bool}
    (hr : m.runNext = .ok (ran, m')) : Waits m'.heap m'.scheduler.threads m'.scheduler.spawned := by
  rcases runNext_cases hw hr with ⟨-, s, hn, rfl⟩ | ⟨-, t, s, after, t', -, -, -, hw', hor⟩
  · obtain ⟨hthreads, hspawned, -⟩ := nextFrom_cases hn
    rw [← hthreads, ← hspawned] at hw
    exact hw
  · rcases hor with rfl | hc
    · exact hw'
    · exact waits_collect hw' hc

theorem waits_spawn (hw : Waits m.heap m.scheduler.threads m.scheduler.spawned)
    {code : List Instruction} {registers : List Node} {id : ThreadId}
    (hs : m.spawn code registers = .ok (id, m')) :
    Waits m'.heap m'.scheduler.threads m'.scheduler.spawned := by
  obtain ⟨-, -, hs⟩ := bind_eq_ok.mp hs
  cases hs
  exact hw.spawn rfl rfl

theorem waits_kill (hw : Waits m.heap m.scheduler.threads m.scheduler.spawned) {id : ThreadId}
    (hk : m.kill id = .ok m') : Waits m'.heap m'.scheduler.threads m'.scheduler.spawned := by
  obtain ⟨s, hs, hk⟩ := bind_eq_ok.mp hk
  cases hk
  unfold Scheduler.kill at hs
  split at hs
  · cases hs
    exact hw.filter _
  · cases hs

/-- In a reachable machine the threads and the lists of those who wait agree. -/
theorem Reachable.waits (hm : Reachable m) :
    Waits m.heap m.scheduler.threads m.scheduler.spawned :=
  hm.invariant (P := fun m => Waits m.heap m.scheduler.threads m.scheduler.spawned)
    waits_new (fun hw => hw.balanced) (fun hw hc => hw.change hc)
    (fun hw hs => waits_spawn hw hs) (fun hw hk => waits_kill hw hk)
    (fun hw hr => waits_runNext hw hr) waits_collect

/-! ### Making the call again -/

theorem withReceiver_suspends {n : Node} {v : VarRef}
    {call : Receiver → Except Fault (Outcome × Machine)} (hn : m.heap.deref n = .ok (.variable v)) :
    m.withReceiver n call = .ok (.suspend v, m) := by
  have hd : m.deref n = .ok (.variable v) := hn
  rw [withReceiver, hd]
  rfl

theorem withReceiver_receiver {n : Node} (receiver : Receiver)
    {call : Receiver → Except Fault (Outcome × Machine)}
    (hn : m.heap.deref n = .ok receiver.toNode) : m.withReceiver n call = call receiver := by
  have hd : m.deref n = .ok receiver.toNode := hn
  rw [withReceiver, hd]
  cases receiver with
  | literal l => cases l <;> rfl
  | record ref => rfl

theorem waitOr_suspends {n : Node} {ref : RecordRef} {r : Record} {vs : List VarRef} {w : VarRef}
    (hn : m.heap.deref n = .ok (.record ref)) (href : m.heap.record ref = .ok r)
    (hfirst : m.firstDetermined (r.features.zip r.fields) = .ok (.inr vs))
    (hwait : m.waitForAny vs = .ok (w, m')) : m.waitOr n = .ok (.suspend w, m') := by
  rw [waitOr, withReceiver_receiver (.record ref) hn]
  simp only [href, hfirst, hwait, ok_bind]
  rfl

theorem exists_receiver {d : Node} (hs : d.isSelectable = true) :
    ∃ receiver : Receiver, d = receiver.toNode := by
  cases d with
  | atom a => exact ⟨.literal (.atom a), rfl⟩
  | bool b => exact ⟨.literal (.bool b), rfl⟩
  | unit => exact ⟨.literal .unit, rfl⟩
  | record ref => exact ⟨.record ref, rfl⟩
  | _ => cases hs

theorem listensToAll_ok {l : Listener} {vs : List VarRef}
    (hvs : ∀ v ∈ vs, ∃ ls, m.heap.cell v = .ok (.unbound ls)) :
    ∃ all, m.listensToAll l vs = .ok all ∧ ((∀ v ∈ vs, m.heap.Listens l v) → all = true) := by
  induction vs with
  | nil => exact ⟨true, rfl, fun _ => rfl⟩
  | cons v vs ih =>
    obtain ⟨ls, hv⟩ := hvs v (List.mem_cons_self ..)
    obtain ⟨all, hall, htrue⟩ := ih fun w hw => hvs w (List.mem_cons_of_mem _ hw)
    rw [listensToAll, Survey.listeners_of_unbound hv]
    by_cases hm : l ∈ ls
    · refine ⟨all, by simp [hm, hall], fun h => ?_⟩
      exact htrue fun w hw => h w (List.mem_cons_of_mem _ hw)
    · refine ⟨false, by simp [hm, pure, Except.pure], fun h => ?_⟩
      obtain ⟨ks, hk, hl⟩ := h v (List.mem_cons_self ..)
      rw [hv] at hk
      cases hk
      exact absurd hl hm

/-- The search for a pending control ends, and finds one if there is one. -/
theorem pendingControl?_ok (hground : m.heap.Grounded) {others : List VarRef} {ls : List Listener}
    (hls : ∀ c, .control c ∈ ls → ∃ cell, m.heap.cell c = .ok cell)
    (hothers : ∀ v ∈ others, ∃ ks, m.heap.cell v = .ok (.unbound ks)) :
    ∃ found, m.pendingControl? others ls = .ok found ∧
      ∀ c ks, .control c ∈ ls → m.heap.cell c = .ok (.unbound ks) →
        (∀ v ∈ others, m.heap.Listens (.control c) v) → found.isSome = true := by
  induction ls with
  | nil => exact ⟨none, rfl, nofun⟩
  | cons l rest ih =>
    obtain ⟨found, hfound, hsome⟩ := ih fun c hc => hls c (List.mem_cons_of_mem _ hc)
    cases l with
    | thread id =>
      refine ⟨found, hfound, fun c ks hm => ?_⟩
      rcases List.mem_cons.mp hm with he | hm
      · cases he
      · exact hsome c ks hm
    | control c' =>
      obtain ⟨cell, hcell⟩ := hls c' (List.mem_cons_self ..)
      obtain ⟨d, hd⟩ := hground hcell
      have hdet : m.isDetermined (.variable c') = .ok d.asVariable?.isNone :=
        Heap.isDetermined_eq hd
      obtain ⟨all, hall, htrue⟩ := listensToAll_ok (l := .control c') hothers
      rw [pendingControl?, hdet, ok_bind, hall]
      -- unless the search stops here, this is not a control that is pending
      have hskip : d.asVariable?.isNone = true ∨ all = false → ∀ c ks, .control c ∈
          .control c' :: rest → m.heap.cell c = .ok (.unbound ks) →
          (∀ v ∈ others, m.heap.Listens (.control c) v) → found.isSome = true := by
        intro hor c ks hm hc hlistens
        rcases List.mem_cons.mp hm with he | hm
        · cases he
          rw [Heap.deref_unbound hc] at hd
          cases hd
          rw [htrue hlistens] at hor
          simp [Node.asVariable?] at hor
        · exact hsome c ks hm hc hlistens
      cases hdv : d.asVariable?.isNone with
      | true => exact ⟨found, by simpa using hfound, hskip (.inl hdv)⟩
      | false =>
        cases all with
        | true => exact ⟨some c', rfl, fun _ _ _ _ _ => rfl⟩
        | false => exact ⟨found, by simpa using hfound, hskip (.inr rfl)⟩

/-- While an unbound control listens to all of many variables, waiting for one of them makes no
    new control. -/
theorem waitForAny_pending (hw : Waits m.heap m.scheduler.threads m.scheduler.spawned)
    {vs : List VarRef} {v : VarRef} {ls : List Listener} (hlen : 2 ≤ vs.length)
    (hlistens : ∀ w ∈ vs, m.heap.Listens (.control v) w) (hv : m.heap.cell v = .ok (.unbound ls)) :
    ∃ c, m.waitForAny vs = .ok (c, m) := by
  match vs, hlen with
  | u :: u' :: us, _ =>
    obtain ⟨ks, hk, hm⟩ := hlistens u (List.mem_cons_self ..)
    have hothers : ∀ w ∈ u' :: us, m.heap.Listens (.control v) w :=
      fun w hw => hlistens w (List.mem_cons_of_mem u hw)
    obtain ⟨found, hfound, hsome⟩ := pendingControl?_ok hw.grounded
      (fun c' hc' => hw.control ⟨ks, hk, hc'⟩) fun w hw => (hothers w hw).unbound
    obtain ⟨c, rfl⟩ := Option.isSome_iff_exists.mp (hsome v ls hm hv hothers)
    refine ⟨c, ?_⟩
    rw [waitForAny.eq_3 _ _ _ (by simp), Survey.listeners_of_unbound hk, ok_bind, hfound]
    rfl

/-- None of the fields has a value, so the search for one gives all their variables. -/
theorem firstDetermined_ok {r : Record} (hbal : r.Balanced)
    (hall : ∀ x ∈ r.fields, ∃ w, m.heap.deref x = .ok (.variable w)) :
    ∃ vs, m.firstDetermined (r.features.zip r.fields) = .ok (.inr vs) ∧
      List.Forall₂ (fun x v => m.heap.deref x = .ok (.variable v)) r.fields vs := by
  have hvs : ∃ vs, List.Forall₂ (fun x v => m.heap.deref x = .ok (.variable v)) r.fields vs := by
    generalize r.fields = xs at hall
    induction xs with
    | nil => exact ⟨[], .nil⟩
    | cons x xs ih =>
      obtain ⟨w, hw⟩ := hall x (List.mem_cons_self ..)
      obtain ⟨vs, hvs⟩ := ih fun y hy => hall y (List.mem_cons_of_mem _ hy)
      exact ⟨w :: vs, .cons hw hvs⟩
  obtain ⟨vs, hvs⟩ := hvs
  refine ⟨vs, firstDetermined_eq_inr.mpr ?_, hvs⟩
  rw [← List.map_snd_zip (Nat.le_of_eq hbal.symm), List.forall₂_map_left_iff] at hvs
  exact hvs

/-- A call that awaits an unbound variable suspends and changes nothing. -/
theorem call_suspends (hw : Waits m.heap m.scheduler.threads m.scheduler.spawned) {b : Builtin}
    {operands : List Node} {v : VarRef} {ls : List Listener} (ha : m.heap.Awaits b operands v)
    (hv : m.heap.cell v = .ok (.unbound ls)) : ∃ w, m.call b operands = .ok (.suspend w, m) := by
  cases ha with
  | operand hb hn =>
    have hd : m.deref _ = .ok (.variable v) := hn
    simp only [List.mem_cons, List.not_mem_nil, or_false] at hb
    rcases hb with rfl | rfl | rfl | rfl
    · exact ⟨v, by rw [call, label, withReceiver_suspends hn]⟩
    · exact ⟨v, by rw [call, width, withReceiver_suspends hn]⟩
    · exact ⟨v, by rw [call, waitOr, withReceiver_suspends hn]⟩
    · exact ⟨v, by rw [call, callWait, hd]; rfl⟩
  | receiver hb hn =>
    have hd : m.deref _ = .ok (.variable v) := hn
    simp only [List.mem_cons, List.not_mem_nil, or_false] at hb
    rcases hb with rfl | rfl
    · exact ⟨v, by rw [call, dot, withReceiver_suspends hn]⟩
    · exact ⟨v, by rw [call, callDotNumber, hd]; rfl⟩
  | feature hn hs hf =>
    obtain ⟨receiver, rfl⟩ := exists_receiver hs
    have hd : m.deref _ = .ok (.variable v) := hf
    refine ⟨v, ?_⟩
    rw [call, dot, withReceiver_receiver receiver hn, hd]
    rfl
  | @number n d f _ hn hd hf =>
    have hn' : m.deref n = .ok d := hn
    have hf' : m.deref f = .ok (.variable v) := hf
    refine ⟨v, ?_⟩
    rw [call, callDotNumber, hn']
    cases d <;> first | (rw [ok_bind, hf']; rfl) | cases hd
  | @equal n d x _ hn hd hx =>
    have hn' : m.deref n = .ok d := hn
    have hx' : m.deref x = .ok (.variable v) := hx
    refine ⟨v, ?_⟩
    rw [call, callBind, hn']
    cases d <;> first | (rw [ok_bind, hx']; rfl) | cases hd
  | @field n x ref r _ hn href hx hd =>
    obtain ⟨vs, hfirst, hvs⟩ := firstDetermined_ok (m := m) (hw.balanced href) (by
      intro y hy
      rw [hx, List.mem_singleton] at hy
      exact ⟨v, hy ▸ hd⟩)
    rw [hx] at hvs
    obtain ⟨w, ws, hw', hnil, rfl⟩ := List.forall₂_cons_left_iff.mp hvs
    rw [List.forall₂_nil_left_iff] at hnil
    subst hnil
    exact ⟨w, waitOr_suspends hn href hfirst rfl⟩
  | @control n ref r _ hn href hlen hall =>
    obtain ⟨vs, hfirst, hvs⟩ := firstDetermined_ok (m := m) (hw.balanced href) fun x hx =>
      (hall x hx).imp fun _ h => h.1
    -- the control listens to all the variables
    have hlistens : ∀ w ∈ vs, m.heap.Listens (.control v) w := by
      intro w hw
      obtain ⟨x, hx, hxw⟩ := exists_of_forall₂_right hvs hw
      obtain ⟨u, hxu, hl⟩ := hall x hx
      rw [hxw] at hxu
      cases hxu
      exact hl
    rw [hvs.length_eq] at hlen
    obtain ⟨c, hc⟩ := waitForAny_pending hw hlen hlistens hv
    exact ⟨c, waitOr_suspends hn href hfirst hc⟩

/-! ### No wake-up is lost -/

/-- The thread is where a bind of the variable finds it, and cannot go on before. -/
structure ParkedAt (m : Machine) (t : Thread) (v : VarRef) : Prop where
  /-- The variable is unbound. -/
  unbound : ∃ ls, m.heap.cell v = .ok (.unbound ls)
  /-- The thread is in the list of the variable once, and in no other list. -/
  listed : ∀ {w : VarRef} {ls : List Listener}, m.heap.cell w = .ok (.unbound ls) →
    ls.count (.thread t.id) = if w = v then 1 else 0
  /-- The call that the thread is to make again suspends. If it waits for one field of a record,
      none of the fields has a value. -/
  suspends : ∃ i operands, t.code[t.pc]? = some i ∧ i.inputs.mapM t.register = .ok operands ∧
    (∃ w, m.call i.builtin operands = .ok (.suspend w, m)) ∧
    (i.builtin = .waitOr → ∀ n ∈ operands, ∀ ref r, m.heap.deref n = .ok (.record ref) →
      m.heap.record ref = .ok r → ∀ x ∈ r.fields, m.heap.isDetermined x = .ok false)

theorem count_thread_eq_zero {ls : List Listener} {id : ThreadId} (hid : .thread id ∉ ls) :
    ls.count (.thread id) = 0 :=
  List.count_eq_zero.mpr hid

theorem count_thread_eq_one {ls : List Listener} {id : ThreadId}
    (hnd : (ls.filterMap Listener.thread?).Nodup) (hid : .thread id ∈ ls) :
    ls.count (.thread id) = 1 := by
  have hcount : ∀ ls : List Listener,
      ls.count (.thread id) = (ls.filterMap Listener.thread?).count id := by
    intro ls
    induction ls with
    | nil => rfl
    | cons l ls ih =>
      cases l with
      | thread id' => by_cases he : id' = id <;> simp [Listener.thread?, ih, he]
      | control c =>
        rw [List.count_cons_of_ne (by simp), List.filterMap_cons_none rfl]
        exact ih
  rw [hcount]
  exact List.count_eq_one_of_mem hnd (mem_threads.mpr hid)

/-- While a call that waits for one field awaits a variable, no field has a value. -/
theorem fields_undetermined {operands : List Node} {v : VarRef}
    (ha : m.heap.Awaits .waitOr operands v) {n : Node} (hmem : n ∈ operands) {ref : RecordRef}
    {r : Record} (hn : m.heap.deref n = .ok (.record ref)) (href : m.heap.record ref = .ok r)
    {x : Node} (hx : x ∈ r.fields) : m.heap.isDetermined x = .ok false := by
  -- of the ways to suspend, two are those of waiting for a record's fields
  cases ha with
  | receiver hb _ => exact absurd hb (by decide)
  | operand _ hn' =>
    rw [List.mem_singleton] at hmem
    rw [← hmem, hn] at hn'
    cases hn'
  | field hn' href' hfields hd =>
    rw [List.mem_singleton] at hmem
    rw [← hmem, hn] at hn'
    cases hn'
    rw [href] at href'
    cases href'
    rw [hfields, List.mem_singleton] at hx
    rw [hx]
    exact Heap.isDetermined_eq hd
  | control hn' href' _ hall =>
    rw [List.mem_singleton] at hmem
    rw [← hmem, hn] at hn'
    cases hn'
    rw [href] at href'
    cases href'
    obtain ⟨w, hd, -⟩ := hall x hx
    exact Heap.isDetermined_eq hd

/-- In every reachable machine a thread that waits for a variable is parked at it, and a thread
    that does not wait is in no list. -/
theorem Reachable.waiting_parked (hm : Reachable m) {t : Thread} (ht : t ∈ m.scheduler.threads) :
    (∀ v, t.state = .waiting v → m.ParkedAt t v) ∧
    ((∀ v, t.state ≠ .waiting v) → ∀ w ls, m.heap.cell w = .ok (.unbound ls) →
      .thread t.id ∉ ls) := by
  have hw := hm.waits
  refine ⟨fun v hs => ?_, fun hidle w ls hc hl => hidle w (hw.listed t ht ⟨ls, hc, hl⟩)⟩
  obtain ⟨ls, hv, hl⟩ := hw.parked t ht hs
  obtain ⟨i, operands, hi, ho, ha⟩ := hw.blocked t ht hs
  refine ⟨⟨ls, hv⟩, ?_, i, operands, hi, ho, call_suspends hw ha hv, ?_⟩
  · intro w ks hk
    by_cases hwv : w = v
    · subst hwv
      rw [hv] at hk
      cases hk
      rw [if_pos rfl]
      exact count_thread_eq_one (hw.once hv) hl
    · rw [if_neg hwv]
      refine count_thread_eq_zero fun hl' => hwv ?_
      have hs' := hw.listed t ht ⟨ks, hk, hl'⟩
      rw [hs] at hs'
      cases hs'
      rfl
  · intro hb n hn ref r hd href x hx
    rw [hb] at ha
    exact fields_undetermined ha hn hd href hx

/-- A machine with a thread that waits for one of two fields, after a collection. -/
def waitingForAny : Machine :=
  { id := ⟨0⟩
    atoms := { id := ⟨⟨0⟩, 1⟩ }
    heap := {
      records := #[⟨.unit, .tuple, [.variable ⟨0⟩, .variable ⟨2⟩]⟩]
      cells := #[.unbound [.control ⟨1⟩], .unbound [.thread ⟨1⟩], .unbound [.control ⟨1⟩]] }
    scheduler := {
      threads := [{
        id := ⟨1⟩
        state := .waiting ⟨1⟩
        registers := [.record ⟨0⟩, .unit]
        code := [⟨.waitOr, [0], [1]⟩] }]
      spawned := 1 } }

/-- The same machine before the collection. -/
def suspendedForAny : Machine :=
  { id := ⟨0⟩
    heap := {
      records := #[⟨.unit, .tuple, [.variable ⟨0⟩, .variable ⟨1⟩]⟩]
      cells := #[.unbound [.control ⟨2⟩], .unbound [.control ⟨2⟩], .unbound [.thread ⟨1⟩]]
      allocated := 4 }
    scheduler := {
      threads := [{
        id := ⟨1⟩
        state := .waiting ⟨2⟩
        registers := [.record ⟨0⟩, .unit]
        code := [⟨.waitOr, [0], [1]⟩] }]
      spawned := 1 } }

theorem reachable_suspendedForAny : Reachable suspendedForAny := by
  have h₂ := ((Reachable.new ⟨0⟩ {}).step (.newVariable _)).step (.newVariable _)
  have h₃ := h₂.step (.buildTuple .unit [.variable ⟨0⟩, .variable ⟨1⟩] rfl)
  have h₄ := h₃.step (.spawn [⟨.waitOr, [0], [1]⟩] [.record ⟨0⟩, .unit] rfl)
  exact h₄.step (.runNext rfl)

theorem reachable_waitingForAny : Reachable waitingForAny :=
  reachable_suspendedForAny.step (.collect rfl)

theorem waitingForAny_parked : ∃ t ∈ waitingForAny.scheduler.threads,
    t.state = .waiting ⟨1⟩ ∧ waitingForAny.ParkedAt t ⟨1⟩ :=
  ⟨_, List.mem_cons_self .., rfl,
    (reachable_waitingForAny.waiting_parked (List.mem_cons_self ..)).1 _ rfl⟩

end Machine

end Dataflow
