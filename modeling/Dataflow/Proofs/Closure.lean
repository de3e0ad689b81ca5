import Dataflow.Proofs.Assignment
import Dataflow.Proofs.Chains
import Dataflow.Proofs.Controls
import Dataflow.Proofs.Discipline
import Dataflow.Proofs.Making
import Dataflow.Proofs.Queue
import Dataflow.Proofs.Threads

/-! # Closed machines

  A machine is *closed* if all that it holds *fits*: references lead into its heap, and atoms are its
  own. Nothing is asked of controls, which a host may bind and pass on like any other variable.

  Calls, turns and collections of a closed machine end without a fault, as long as the nodes that they
  start from fit, and leave it closed. What was handed out before still fits, unless there was a
  collection, which moves everything.
-/

namespace Dataflow

/-- The reference lies in the heap of the machine, or the atom belongs to it. -/
def Machine.Fits (m : Machine) (n : Node) : Prop := m.heap.Fits m.id n

/-- A machine of which all references lead into its heap. -/
structure Machine.Closed (m : Machine) : Prop where
  /-- Records are canonical. -/
  canonical : m.heap.Canonical
  /-- What records hold fits. -/
  edges : ∀ {ref : RecordRef} {r : Record}, m.heap.record ref = .ok r → ∀ n ∈ r.edges, m.Fits n
  /-- What variables are bound to fits. -/
  values : ∀ {v : VarRef} {x : Node}, m.heap.cell v = .ok (.bound x) → m.Fits x
  /-- Its table makes atoms of its own. -/
  table : m.atoms.id.owner = m.id
  /-- Its roots fit. -/
  roots : ∀ n ∈ m.roots, m.Fits n
  /-- What its threads hold fits, and their code has been checked. -/
  threads : ∀ t ∈ m.scheduler.threads, t.Within m.Fits

/-- The nodes that the caller of a builtin receives. -/
def Outcome.nodes : Outcome → List Node
  | .proceed results => results
  | .raise exception => [exception]
  | .suspend v => [.variable v]

theorem Thread.Within.wakeIf {T : Node → Prop} {t : Thread} (ht : t.Within T)
    (ids : List ThreadId) : (t.wakeIf ids).Within T := by
  unfold Thread.wakeIf
  split
  · exact ht.state nofun
  · exact ht

namespace Machine

variable {m m' m'' : Machine}

/-! ### Nodes that fit -/

theorem fits_inline {n : Node} (hn : n.kind.capabilities.copiesWhole = true) : m.Fits n := by
  cases n with
  | int _ | float _ | bool _ | unit => trivial
  | _ => cases hn

theorem Fits.grows {n : Node} (hn : m.Fits n) (hid : m'.id = m.id) (hg : m.heap.Grows m'.heap) :
    m'.Fits n := by
  cases n with
  | atom a =>
    have ha : a.owner = m.id := hn
    exact ha.trans hid.symm
  | _ => exact hg.inRange (Heap.Fits.inRange hn)

theorem Closed.sound (hc : m.Closed) {n : Node} (hn : m.Fits n) : m.heap.Sound m.id n := by
  intro x hx
  unfold Heap.Holds at hx
  induction hx with
  | refl => exact hn
  | tail _ hstep _ =>
    rcases hstep with ⟨ref, r, -, hr, hmem⟩ | ⟨v, -, hv⟩
    · exact hc.edges hr _ hmem
    · exact hc.values hv

theorem Closed.fits_deref (hc : m.Closed) {n d : Node} (hn : m.Fits n)
    (hd : m.heap.deref n = .ok d) : m.Fits d :=
  ((hc.sound hn).of_holds (Heap.holds_deref hd)).fits

theorem Closed.deref (hc : m.Closed) (hground : m.heap.Grounded) {n : Node} (hn : m.Fits n) :
    ∃ d, m.heap.deref n = .ok d ∧ m.Fits d := by
  obtain ⟨d, hd, -⟩ := (hc.sound hn).deref hground
  exact ⟨d, hd, hc.fits_deref hn hd⟩

theorem Closed.print (hc : m.Closed) (hground : m.heap.Grounded) {n : Node} (hn : m.Fits n)
    (depth : Nat) : ∃ text, m.print n depth = .ok text :=
  (hc.sound hn).intact.print_ok hground depth

theorem Closed.equals (hc : m.Closed)
    (hw : Waits m.heap m.scheduler.threads m.scheduler.spawned) {x y : Node} (hx : m.Fits x)
    (hy : m.Fits y) : ∃ same, m.equals x y = .ok same := by
  obtain ⟨same, he, -⟩ := Heap.equals_decides hw.grounded hw.balanced (hc.sound hx) (hc.sound hy)
  exact ⟨same, he⟩

/-! ### Steps from one closed machine to the next -/

/-- The second machine is closed, and what fitted the first fits it. -/
structure Sustains (m m' : Machine) : Prop where
  closed : m'.Closed
  fits : ∀ {n : Node}, m.Fits n → m'.Fits n

theorem Closed.sustains (hc : m.Closed) : m.Sustains m := ⟨hc, fun hn => hn⟩

theorem Sustains.trans (h₁ : m.Sustains m') (h₂ : m'.Sustains m'') : m.Sustains m'' :=
  ⟨h₂.closed, fun hn => h₂.fits (h₁.fits hn)⟩

/-- A machine that has grown is closed if what it has got fits. -/
theorem Closed.extend (hc : m.Closed) (hid : m'.id = m.id) (htable : m'.atoms.id = m.atoms.id)
    (hg : m.heap.Grows m'.heap)
    (hrecords : ∀ {ref : RecordRef} {r : Record}, m'.heap.record ref = .ok r →
      m.heap.record ref = .ok r ∨ r.Canonical ∧ ∀ n ∈ r.edges, m.Fits n)
    (hvalues : ∀ {v : VarRef} {x : Node}, m'.heap.cell v = .ok (.bound x) →
      m.heap.cell v = .ok (.bound x) ∨ m.Fits x)
    (hroots : ∀ n ∈ m'.roots, m.Fits n)
    (hthreads : ∀ t ∈ m'.scheduler.threads, t.Within m.Fits) : m.Sustains m' := by
  have hfits : ∀ {n : Node}, m.Fits n → m'.Fits n := fun hn => hn.grows hid hg
  refine ⟨⟨fun hr => ?_, fun hr n hn => ?_, fun hv => ?_, ?_, fun n hn => hfits (hroots n hn),
    fun t ht => (hthreads t ht).mono fun n hn => hfits hn⟩, hfits⟩
  · rcases hrecords hr with hr | ⟨hcanon, -⟩
    · exact hc.canonical hr
    · exact hcanon
  · rcases hrecords hr with hr | ⟨-, hedges⟩
    · exact hfits (hc.edges hr n hn)
    · exact hfits (hedges n hn)
  · rcases hvalues hv with hv | hx
    · exact hfits (hc.values hv)
    · exact hfits hx
  · rw [htable, hid]
    exact hc.table

/-- Steps that leave the heap. -/
theorem Closed.of_heap_eq (hc : m.Closed) (hheap : m'.heap = m.heap) (hid : m'.id = m.id)
    (htable : m'.atoms.id = m.atoms.id) (hroots : ∀ n ∈ m'.roots, m.Fits n)
    (hthreads : ∀ t ∈ m'.scheduler.threads, t.Within m.Fits) : m.Sustains m' :=
  hc.extend hid htable (by rw [hheap]; exact .refl _) (fun hr => .inl (by rwa [hheap] at hr))
    (fun hv => .inl (by rwa [hheap] at hv)) hroots hthreads

/-- Steps that change who waits for whom, and allocate variables. -/
theorem Closed.withHeap (hc : m.Closed) {heap : Heap} (hg : m.heap.Grows heap)
    (hrecords : heap.records = m.heap.records)
    (hvalues : ∀ {v : VarRef} {x : Node}, heap.cell v = .ok (.bound x) →
      m.heap.cell v = .ok (.bound x)) : m.Sustains { m with heap } :=
  hc.extend rfl rfl hg (fun hr => .inl (by rwa [Heap.record_congr hrecords] at hr))
    (fun hv => .inl (hvalues hv)) hc.roots hc.threads

theorem Closed.allocate (hc : m.Closed) {r : Record} (hcanon : r.Canonical)
    (hedges : ∀ n ∈ r.edges, m.Fits n) :
    m.Sustains (m.allocate r).2 ∧ (m.allocate r).2.Fits (m.allocate r).1 := by
  refine ⟨hc.extend rfl rfl (Heap.grows_allocateRecord m.heap r) (fun hr => ?_) .inl hc.roots
    hc.threads, Heap.inRange_of_record (Heap.record_allocateRecord_self m.heap r)⟩
  rcases Heap.record_allocateRecord.mp hr with hr | ⟨-, rfl⟩
  · exact .inl hr
  · exact .inr ⟨hcanon, hedges⟩

/-- What is made of nodes that fit, fits. -/
theorem sustains_making : Making Sustains Fits where
  again hs := hs.closed.sustains
  trans := .trans
  keeps hs hn := hs.fits hn
  inline hn := fits_inline hn
  intern hs _ := ⟨hs.closed.of_heap_eq rfl rfl (AtomTable.insert_id _ _) hs.closed.roots
    hs.closed.threads, hs.closed.table⟩
  allocate hs hcanon hedges := hs.closed.allocate hcanon hedges

theorem Closed.gains (hc : m.Closed) {heap : Heap} {c : VarRef} (hg : m.heap.Gains heap c) :
    m.Sustains { m with heap } ∧ Fits { m with heap } (.variable c) :=
  ⟨hc.withHeap hg.grows hg.records hg.bound_before, Heap.inRange_of_cell hg.cell⟩

/-- A variable takes a thread as a listener. -/
theorem Closed.park (hc : m.Closed) {v : VarRef} {l : Listener} {parked : Bool} {heap : Heap}
    (ha : m.heap.addListener v l = .ok (parked, heap)) : m.Sustains { m with heap } := by
  refine hc.withHeap (Heap.grows_addListener ha) (Heap.records_addListener ha) fun hv => ?_
  rcases Heap.cell_addListener ha hv with hv | ⟨-, ls, -, -, he⟩
  · exact hv
  · cases he

/-- A free variable is bound. The cells that are written hold the value, or unit. -/
theorem Closed.bind (hc : m.Closed) (hw : Waits m.heap m.scheduler.threads m.scheduler.spawned)
    {v target : VarRef} {x : Node} (hv : m.heap.deref (.variable v) = .ok (.variable target))
    (hx : m.Fits x) : ∃ m', m.bind v x = .ok (.ok m') ∧ m.Sustains m' := by
  obtain ⟨d, hd, -⟩ := hc.deref hw.grounded hx
  obtain ⟨m', hb⟩ := bind_completes hw.steady hv hd
  obtain ⟨ids, hcasc, -⟩ := cascade_of_bind hw.nodup hb
  refine ⟨m', hb, ?_⟩
  by_cases hdt : d = .variable target
  · rw [Machine.bind, bindWithin_self hv (hdt ▸ hd)] at hb
    cases hb
    exact hc.sustains
  have hne : m.heap.deref x ≠ .ok (.variable target) := by
    rw [hd]
    exact fun he => hdt (Except.ok.inj he)
  obtain ⟨hgives, -⟩ := givesUnit_of_bind hw.nodup hv hne hb
  obtain ⟨ls, hcell⟩ := Heap.cell_of_deref hv
  refine hc.extend ?_ ?_ hcasc.grows (fun hr => .inl (by rwa [hcasc.record] at hr)) (fun hw' => ?_)
    ?_ fun t ht => ?_
  -- nothing but cells and threads is touched
  · rw [hcasc.rest]
  · rw [hcasc.rest]
  · rcases hgives _ _ hw' with hw' | ⟨-, -, hunit⟩
    · rw [withBound, Heap.cell_setCell (Heap.lt_of_cell hcell)] at hw'
      split at hw'
      · cases hw'
        exact .inr hx
      · exact .inl hw'
    · cases hunit
      exact .inr trivial
  · rw [hcasc.rest]
    exact hc.roots
  · rw [hcasc.threads] at ht
    obtain ⟨u, hu, rfl⟩ := List.mem_map.mp ht
    exact (hc.threads u hu).wakeIf ids

/-! ### Calls -/

/-- The call ends in a closed machine, and its caller receives nodes that fit. -/
def Delivers (m : Machine) (x : Except Fault (Outcome × Machine)) : Prop :=
  ∃ o m', x = .ok (o, m') ∧ m.Sustains m' ∧ ∀ n ∈ o.nodes, m'.Fits n

/-- A call that ends by waiting for one of many variables. -/
theorem Closed.delivers_wait (hc : m.Closed)
    (hw : Waits m.heap m.scheduler.threads m.scheduler.spawned) {vs : List VarRef} (hne : vs ≠ [])
    (hvs : ∀ v ∈ vs, m.heap.deref (.variable v) = .ok (.variable v)) :
    m.Delivers (do let (v, m) ← m.waitForAny vs; return (.suspend v, m)) := by
  have hcells : ∀ v ∈ vs, ∃ ls, m.heap.cell v = .ok (.unbound ls) :=
    fun v hv => Heap.cell_of_deref (hvs v hv)
  obtain ⟨c, m', hwait, ⟨rfl, hor⟩ | ⟨heap, rfl, hg⟩⟩ := waitForAny_completes hw.steady hne hcells
  · obtain ⟨cell, hcell⟩ : ∃ cell, m'.heap.cell c = .ok cell := by
      rcases hor with hin | hcontrol
      · obtain ⟨ls, hls⟩ := hcells c hin
        exact ⟨_, hls⟩
      · exact hw.steady.control hcontrol
    rw [hwait]
    refine ⟨_, m', rfl, hc.sustains, fun n hn => ?_⟩
    rw [List.mem_singleton.mp hn]
    exact Heap.inRange_of_cell hcell
  · obtain ⟨hs, hfits⟩ := hc.gains hg
    rw [hwait]
    refine ⟨_, _, rfl, hs, fun n hn => ?_⟩
    rw [List.mem_singleton.mp hn]
    exact hfits

/-- A call on nodes that fit is delivered, whatever the builtin. -/
theorem Closed.discipline (hc : m.Closed)
    (hw : Waits m.heap m.scheduler.threads m.scheduler.spawned) (b : Builtin) :
    m.Discipline b m.Fits m.Delivers where
  canonical := hc.canonical
  int _ := trivial
  bool _ := trivial
  -- every read has an answer, for nothing that fits dangles
  deref hn next := by
    obtain ⟨d, hd, hfd⟩ := hc.deref hw.grounded hn
    rw [Machine.deref, hd]
    exact next d hd hfd
  record hn next := by
    obtain ⟨r, href⟩ := Heap.record_of_inRange hn
    rw [href]
    exact next r href (hc.edges href)
  equals hx hy next := by
    obtain ⟨same, he⟩ := hc.equals hw hx hy
    rw [he]
    exact next same
  -- what a call gives out fits the machine that it leaves
  proceed hr := ⟨_, m, rfl, hc.sustains, hr⟩
  suspend _ hv := ⟨_, m, rfl, hc.sustains, fun n hn => by rw [List.mem_singleton.mp hn]; exact hv⟩
  raise kind _ ha := by
    obtain ⟨hs, he⟩ := sustains_making.newException hc.sustains kind ha
    exact ⟨_, _, rfl, hs, fun n hn => by rw [List.mem_singleton.mp hn]; exact he⟩
  typeError expected _ hn := by
    obtain ⟨e, m', he, hs, hfe⟩ := sustains_making.raiseTypeError hc.sustains expected hn
    rw [he]
    exact ⟨_, m', rfl, hs, fun n hn => by rw [List.mem_singleton.mp hn]; exact hfe⟩
  bind _ _ _ _ hd hx := by
    obtain ⟨m', hb, hs⟩ := hc.bind hw hd hx
    rw [hb]
    exact ⟨_, m', rfl, hs, nofun⟩
  wait _ _ hne hvs := hc.delivers_wait hw hne fun v hv => (hvs v hv).2
  shows _ _ hn := by
    obtain ⟨text, ht⟩ := hc.print hw.grounded hn m.settings.printDepth
    have ht' : m.repr _ = .ok text := ht
    rw [callShow, ht']
    exact ⟨_, _, rfl, hc.of_heap_eq rfl rfl rfl hc.roots hc.threads, nofun⟩

/-! ### Turns -/

/-- The thread has a turn, whatever it waits for in the end. -/
theorem Closed.turn (n : Nat) {t : Thread} (hc : m.Closed)
    (hw : Waits m.heap m.scheduler.threads m.scheduler.spawned)
    (hrun : Waits.Running m.scheduler.threads t.id) (ht : t.Within m.Fits) :
    ∃ m' t', turn n m t = .ok (m', t') ∧ m.Sustains m' ∧ t'.Within m'.Fits := by
  induction n generalizing m t with
  | zero => exact ⟨m, t, rfl, hc.sustains, ht⟩
  | succ n ih =>
    rw [Machine.turn]
    cases hi : t.code[t.pc]? with
    | none => exact ⟨m, t, rfl, hc.sustains, ht⟩
    | some i =>
      obtain ⟨operands, hops, hlen, hfits⟩ := ht.operands (List.mem_of_getElem? hi)
      obtain ⟨o, m₁, hcall, hs₁, hnodes⟩ := (hc.discipline hw i.builtin).call hlen hfits
      obtain ⟨hw₁, hrun₁⟩ := hw.running_changes hrun (does_of_call hw.balanced hcall).changes
      have ht₁ : t.Within m₁.Fits := ht.mono fun _ hn => hs₁.fits hn
      simp only [hops, hcall, ok_bind]
      cases o with
      | proceed results =>
        obtain ⟨m', t', hturn, hs', ht'⟩ := ih (t := t.advance i.outputs results) hs₁.closed hw₁ hrun₁
          (ht₁.advance i.outputs hnodes)
        exact ⟨m', t', hturn, hs₁.trans hs', ht'⟩
      | raise exception =>
        refine ⟨m₁, _, rfl, hs₁, ht₁.state fun e he => ?_⟩
        cases he
        exact hnodes _ (List.mem_singleton.mpr rfl)
      | suspend v =>
        have hv : m₁.Fits (.variable v) := hnodes _ (List.mem_singleton.mpr rfl)
        obtain ⟨cell, hcell⟩ := Heap.cell_of_inRange hv
        cases cell with
        | unbound ls =>
          obtain ⟨heap, ha⟩ : ∃ heap, m₁.heap.addListener v (.thread t.id) = .ok (true, heap) :=
            ⟨_, Heap.addListener_unbound hcell _⟩
          have hpark := hs₁.closed.park ha
          simp only [ha, ok_bind]
          refine ⟨{ m₁ with heap }, _, rfl, hs₁.trans hpark,
            (ht₁.mono fun _ hn => hpark.fits hn).state fun e he => ?_⟩
          cases he
        | bound x =>
          -- the call is made again by what is left of the turn
          have ha : m₁.heap.addListener v (.thread t.id) = .ok (false, m₁.heap) := by
            rw [Heap.addListener, hcell]
            rfl
          obtain ⟨m', t', hturn, hs', ht'⟩ := ih hs₁.closed hw₁ hrun₁ ht₁
          simp only [ha, ok_bind]
          exact ⟨m', t', hturn, hs₁.trans hs', ht'⟩

theorem Closed.putBack (hc : m.Closed) {t : Thread} (ht : t.Within m.Fits) :
    m.Sustains (m.putBack t) := by
  have hrest := continues_putBack m t
  have hroots : (m.putBack t).roots = m.roots := by
    unfold Machine.putBack
    split
    · split <;> rfl
    · rfl
  refine hc.of_heap_eq (putBack_heap m t) hrest.id hrest.table (hroots ▸ hc.roots) fun u hu => ?_
  rw [putBack_threads] at hu
  rcases Waits.mem_update hu with rfl | ⟨hu, -⟩
  · exact ht.ended
  · exact hc.threads u hu

/-! ### Collections -/

/-- Nothing that is alive in a closed machine dangles. -/
theorem Closed.inRange (hc : m.Closed)
    (hw : Waits m.heap m.scheduler.threads m.scheduler.spawned) {n : Node} (hn : m.Live n) :
    m.heap.InRange n := by
  unfold Live at hn
  induction hn with
  | start hn =>
    rcases List.mem_append.mp hn with hn | hn
    · exact (hc.roots _ hn).inRange
    · obtain ⟨t, ht, hn⟩ := List.mem_flatMap.mp hn
      rcases Thread.mem_nodes.mp hn with hn | ⟨v, hs, rfl⟩ | hs
      · exact ((hc.threads t ht).registers _ hn).inRange
      · obtain ⟨ls, hv⟩ := (hw.parked t ht hs).unbound
        exact Heap.inRange_of_cell hv
      · exact ((hc.threads t ht).exception _ hs).inRange
  | edge _ hr hn => exact (hc.edges hr _ hn).inRange
  | value _ hv => exact (hc.values hv).inRange
  | control _ hv hl =>
    obtain ⟨cell, hcell⟩ := hw.control ⟨_, hv, hl⟩
    exact Heap.inRange_of_cell hcell

theorem Closed.collect (hc : m.Closed)
    (hw : Waits m.heap m.scheduler.threads m.scheduler.spawned) :
    ∃ m', m.collect = .ok m' ∧ m'.Closed := by
  obtain ⟨m', hcollect⟩ := collect_ok hw.grounded (hc.inRange hw)
  obtain ⟨φ, hr⟩ := relocation_of_collect hcollect
  have hfits : ∀ {n : Node}, m.Live n → m'.Fits (φ n) := fun hn => hr.fits_image hc.table hn
  refine ⟨m', hcollect, canonical_collect hc.canonical hcollect, fun hr' n' hn' => ?_,
    fun hv => ?_, ?_, fun n' hn' => ?_, fun t' ht' => ?_⟩
  · obtain ⟨ref, r, hlive, href, -, him⟩ := hr.record_before hr'
    obtain ⟨n, hn, rfl⟩ := him.mem_edges hn'
    exact hfits (.edge hlive href hn)
  · -- no variable of the new heap is bound
    obtain ⟨v, ls, -, -, -, he⟩ := hr.cell_before hv
    cases he
  · rw [hr.table, hr.rest.1]
    exact hc.table
  · rw [hr.roots] at hn'
    obtain ⟨n, hn, rfl⟩ := List.mem_map.mp hn'
    exact hfits (.start (List.mem_append_left _ hn))
  · rw [hr.threads] at ht'
    obtain ⟨t, ht, rfl⟩ := List.mem_map.mp ht'
    exact (hc.threads t ht).relocate (fun n hn _ => hfits (live_register ht hn))
      fun e hs _ => hfits (live_failed ht hs)

/-! ### Runs -/

theorem Closed.runNext (hc : m.Closed)
    (hw : Waits m.heap m.scheduler.threads m.scheduler.spawned) :
    ∃ ran m', m.runNext = .ok (ran, m') ∧ m'.Closed := by
  unfold Machine.runNext
  obtain ⟨next, s, hn⟩ : ∃ next s, m.scheduler.next? = (next, s) := ⟨_, _, rfl⟩
  obtain ⟨hthreads, hspawned, hfound⟩ := nextFrom_cases hn
  have hs : m.Sustains { m with scheduler := s } :=
    hc.of_heap_eq rfl rfl rfl hc.roots fun t ht => hc.threads t (hthreads ▸ ht)
  rw [hn]
  cases next with
  | none => exact ⟨false, _, rfl, hs.closed⟩
  | some t =>
    obtain ⟨hmem, hstate⟩ := hfound t rfl
    rw [← hthreads, ← hspawned] at hw
    rw [← hthreads] at hmem
    have hrun : Waits.Running s.threads t.id := ⟨t, hmem, rfl, hstate⟩
    obtain ⟨after, t', hturn, hs', ht'⟩ :=
      hs.closed.turn m.settings.quantum hw hrun (hs.closed.threads t hmem)
    have hput := hs'.closed.putBack ht'
    have hw' := Waits.turn (m := { m with scheduler := s }) hw hrun hstate hturn
    -- a collection may follow the turn, and would succeed
    obtain ⟨m', hcollect, hc'⟩ := hput.closed.collect hw'
    simp only [hturn, ok_bind]
    split
    · rw [hcollect]
      exact ⟨true, m', rfl, hc'⟩
    · exact ⟨true, _, rfl, hput.closed⟩

/-- Turns go on without a fault, for as long as there are threads to run. -/
theorem Closed.turns (n : Nat) (hc : m.Closed)
    (hw : Waits m.heap m.scheduler.threads m.scheduler.spawned) :
    turns n m = .error .endless ∨ ∃ count m', turns n m = .ok (count, m') ∧ m'.Closed := by
  induction n generalizing m with
  | zero => exact .inl rfl
  | succ n ih =>
    obtain ⟨ran, m₁, hr, hc₁⟩ := hc.runNext hw
    rw [Machine.turns, hr, ok_bind]
    cases ran with
    | false => exact .inr ⟨0, m₁, rfl, hc₁⟩
    | true =>
      rcases ih hc₁ (waits_runNext hw hr) with hend | ⟨count, m', ht, hc'⟩
      · exact .inl (by dsimp only; rw [hend]; rfl)
      · exact .inr ⟨count + 1, m', by dsimp only; rw [ht]; rfl, hc'⟩

/-! ### Building records -/

theorem Closed.labelOf (hc : m.Closed) (hground : m.heap.Grounded) {label : Node}
    (hl : m.Fits label) : ∃ l, m.labelOf label = .ok l := by
  obtain ⟨d, hd, hfd⟩ := hc.deref hground hl
  obtain ⟨text, ht⟩ := hc.print hground hfd m.settings.printDepth
  have ht' : m.repr d = .ok text := ht
  rw [Machine.labelOf, Machine.deref, hd, ok_bind]
  cases d.asLiteral? with
  | some l => exact ⟨_, rfl⟩
  | none => exact ⟨.error (.invalidLabel text), by dsimp only; rw [ht']; rfl⟩

theorem Closed.featuresOf (hc : m.Closed) (hground : m.heap.Grounded) {fields : List (Node × Node)}
    (hf : ∀ e ∈ fields, m.Fits e.1 ∧ m.Fits e.2) : ∃ fs, m.featuresOf fields = .ok fs := by
  induction fields with
  | nil => exact ⟨_, rfl⟩
  | cons e rest ih =>
    obtain ⟨fs, hfs⟩ := ih fun e' he' => hf e' (List.mem_cons_of_mem _ he')
    obtain ⟨d, hd, hfd⟩ := hc.deref hground (hf e (List.mem_cons_self ..)).1
    obtain ⟨text, ht⟩ := hc.print hground hfd m.settings.printDepth
    have ht' : m.repr d = .ok text := ht
    rw [Machine.featuresOf, Machine.deref, hd, ok_bind]
    cases d.asFeature? with
    | some f => exact ⟨fs.map ((f, e.2) :: ·), by dsimp only; rw [hfs]; rfl⟩
    | none => exact ⟨.error (.invalidFeature text), by dsimp only; rw [ht']; rfl⟩

/-- A record is built, or refused. -/
theorem Closed.buildRecord (hc : m.Closed) (hground : m.heap.Grounded) {label : Node}
    {fields : List (Node × Node)} (hlabel : m.Fits label)
    (hf : ∀ e ∈ fields, m.Fits e.1 ∧ m.Fits e.2) :
    (∃ e, m.buildRecord label fields = .ok (.error e)) ∨
      ∃ n m', m.buildRecord label fields = .ok (.ok (n, m')) ∧ m.Sustains m' ∧ m'.Fits n := by
  have hbuilt : ∃ r, m.buildRecord label fields = .ok r := by
    obtain ⟨l, hl⟩ := hc.labelOf hground hlabel
    obtain ⟨fs, hfs⟩ := hc.featuresOf hground hf
    rw [Machine.buildRecord, hl, hfs, ok_bind]
    cases l with
    | error e => exact ⟨_, rfl⟩
    | ok l =>
      dsimp only
      split
      · exact ⟨_, rfl⟩
      · cases fs with
        | error e => exact ⟨_, rfl⟩
        | ok fs =>
          have hkinds := kind_of_featuresOf (T := m.Fits) hc.fits_deref hf hfs
          rw [ok_bind]
          dsimp only
          split
          · next f hdup =>
            -- the feature that occurs twice is one of those that were looked at
            obtain ⟨e, he, rfl⟩ := mem_of_duplicate? hdup
            have hfe := (hkinds e ((sortFields_perm fs).mem_iff.mp he)).1
            obtain ⟨text, ht⟩ := hc.print hground hfe m.settings.printDepth
            have ht' : m.repr e.1.toNode = .ok text := ht
            exact ⟨_, by rw [ht']; rfl⟩
          · exact ⟨_, rfl⟩
  obtain ⟨r, hr⟩ := hbuilt
  cases r with
  | error e => exact .inl ⟨e, hr⟩
  | ok made =>
    obtain ⟨n, m'⟩ := made
    obtain ⟨hs, hn⟩ := sustains_making.buildRecord hc.fits_deref hc.sustains hlabel hf hr
    exact .inr ⟨n, m', hr, hs, hn⟩

/-- A tuple is built, or refused. -/
theorem Closed.buildTuple (hc : m.Closed) (hground : m.heap.Grounded) {label : Node}
    {values : List Node} (hlabel : m.Fits label) (hv : ∀ n ∈ values, m.Fits n) :
    (∃ e, m.buildTuple label values = .ok (.error e)) ∨
      ∃ n m', m.buildTuple label values = .ok (.ok (n, m')) ∧ m.Sustains m' ∧ m'.Fits n := by
  have hbuilt : ∃ r, m.buildTuple label values = .ok r := by
    obtain ⟨l, hl⟩ := hc.labelOf hground hlabel
    rw [Machine.buildTuple, hl, ok_bind]
    cases l with
    | error e => exact ⟨_, rfl⟩
    | ok l =>
      dsimp only
      split
      · exact ⟨_, rfl⟩
      · exact ⟨_, rfl⟩
  obtain ⟨r, hr⟩ := hbuilt
  cases r with
  | error e => exact .inl ⟨e, hr⟩
  | ok made =>
    obtain ⟨n, m'⟩ := made
    obtain ⟨hs, hn⟩ := sustains_making.buildTuple hc.fits_deref hc.sustains hlabel hv hr
    exact .inr ⟨n, m', hr, hs, hn⟩

end Machine

end Dataflow
