import Dataflow.Proofs.Chains
import Dataflow.Proofs.Discipline
import Dataflow.Proofs.Making
import Dataflow.Proofs.Orderly

/-! # Calls complete

  A machine is *orderly* if its heap is and if its roots and the registers of its threads are
  trusted. In an orderly machine a call of any builtin on trusted operands completes: it has an
  outcome, its results are trusted, and the machine stays orderly. In particular a call that suspends
  names an unbound variable, since no control is bound to a variable.
-/

namespace Dataflow

/-- The node may be passed to the machine. -/
def Machine.Trusts (m : Machine) (n : Node) : Prop := m.heap.Trusted m.id n

/-- A thread that works on trusted nodes and has been checked. -/
structure Thread.Orderly (m : Machine) (t : Thread) : Prop where
  /-- Its registers hold trusted nodes. -/
  registers : ∀ n ∈ t.registers, m.Trusts n
  /-- Its instructions have as many operands as they need, all of them among its registers. -/
  code : ∀ i ∈ t.code, Machine.checkInstruction t.registers.length i = .ok ()
  /-- What it has raised is trusted. -/
  exception : ∀ e, t.state = .failed e → m.Trusts e

/-- A machine that holds trusted nodes only. -/
structure Machine.Orderly (m : Machine) : Prop where
  /-- Its heap is orderly. -/
  heap : m.heap.Orderly m.id
  /-- Its table makes atoms of its own. -/
  table : m.atoms.id.owner = m.id
  /-- A turn has at least one call. -/
  quantum : 1 ≤ m.settings.quantum
  /-- Its roots are trusted. -/
  roots : ∀ n ∈ m.roots, m.Trusts n
  /-- Its threads are orderly. -/
  threads : ∀ t ∈ m.scheduler.threads, t.Orderly m

namespace Machine

variable {m m' m'' : Machine}

/-! ### Orderly steps -/

/-- The second machine is an orderly later state of the first. -/
structure Advances (m m' : Machine) : Prop where
  orderly : m'.Orderly
  keeps : m.heap.Keeps m'.heap
  id : m'.id = m.id

theorem Advances.trusts (ha : m.Advances m') {n : Node} (hn : m.Trusts n) : m'.Trusts n := by
  unfold Trusts
  rw [ha.id]
  exact Heap.Trusted.keeps hn ha.keeps

theorem Orderly.advances (ho : m.Orderly) : m.Advances m := ⟨ho, .refl _, rfl⟩

theorem Advances.trans (h₁ : m.Advances m') (h₂ : m'.Advances m'') : m.Advances m'' :=
  ⟨h₂.orderly, h₁.keeps.trans h₂.keeps, h₂.id.trans h₁.id⟩

theorem Orderly.deref (ho : m.Orderly) (hground : m.heap.Grounded) {n : Node} (hn : m.Trusts n) :
    ∃ d, m.deref n = .ok d ∧ m.Trusts d :=
  ho.heap.deref hground hn

theorem Orderly.trusts_atom (ho : m.Orderly) (content : String) :
    m.Trusts (.atom ⟨m.atoms.id, content⟩) :=
  .of_value ho.table rfl

/-- A later state is orderly if its heap is and its threads are the same but for being woken. -/
theorem Orderly.advance (ho : m.Orderly) (hid : m'.id = m.id) (hsettings : m'.settings = m.settings)
    (htable : m'.atoms.id = m.atoms.id) (hroots : m'.roots = m.roots)
    (hheap : m.heap.Keeps m'.heap ∧ m'.heap.Orderly m.id)
    (hthreads : ∀ t' ∈ m'.scheduler.threads, ∃ t ∈ m.scheduler.threads, ∃ state,
      t' = { t with state } ∧ (state = t.state ∨ state = .runnable)) : m.Advances m' := by
  obtain ⟨hk, hheap⟩ := hheap
  have htrusts : ∀ {n : Node}, m.Trusts n → m'.Trusts n := by
    intro n hn
    unfold Trusts
    rw [hid]
    exact Heap.Trusted.keeps hn hk
  refine ⟨⟨hid ▸ hheap, ?_, hsettings ▸ ho.quantum, ?_, ?_⟩, hk, hid⟩
  · rw [htable, hid]
    exact ho.table
  · intro n hn
    rw [hroots] at hn
    exact htrusts (ho.roots n hn)
  · intro t' ht'
    obtain ⟨t, ht, state, rfl, hstate⟩ := hthreads t' ht'
    have hto := ho.threads t ht
    refine ⟨fun n hn => htrusts (hto.registers n hn), hto.code, fun e he => ?_⟩
    rcases hstate with rfl | rfl
    · exact htrusts (hto.exception e he)
    · cases he

/-- A machine with the same heap is orderly if its roots are trusted and its threads are orderly. -/
theorem Orderly.of_heap_eq (ho : m.Orderly) (hheap : m'.heap = m.heap) (hid : m'.id = m.id)
    (hsettings : m'.settings = m.settings) (htable : m'.atoms = m.atoms)
    (hroots : ∀ n ∈ m'.roots, m.Trusts n)
    (hthreads : ∀ t ∈ m'.scheduler.threads, t.Orderly m) : m'.Orderly := by
  have htrusts : ∀ {n : Node}, m.Trusts n → m'.Trusts n := by
    intro n hn
    unfold Trusts
    rw [hheap, hid]
    exact hn
  refine ⟨?_, ?_, ?_, fun n hn => htrusts (hroots n hn), fun t ht => ?_⟩
  · rw [hheap, hid]
    exact ho.heap
  · rw [htable, hid]
    exact ho.table
  · rw [hsettings]
    exact ho.quantum
  · have hto := hthreads t ht
    exact ⟨fun n hn => htrusts (hto.registers n hn), hto.code,
      fun e he => htrusts (hto.exception e he)⟩

/-- A step that leaves the threads. -/
theorem Orderly.advance_idle (ho : m.Orderly) (hid : m'.id = m.id)
    (hsettings : m'.settings = m.settings) (htable : m'.atoms.id = m.atoms.id)
    (hroots : m'.roots = m.roots) (hscheduler : m'.scheduler = m.scheduler)
    (hheap : m.heap.Keeps m'.heap ∧ m'.heap.Orderly m.id) : m.Advances m' :=
  ho.advance hid hsettings htable hroots hheap fun t ht =>
    ⟨t, hscheduler ▸ ht, t.state, rfl, .inl rfl⟩

theorem Orderly.intern (ho : m.Orderly) (content : String) :
    m.Advances { m with atoms := m.atoms.insert content } :=
  ho.advance_idle rfl rfl (AtomTable.insert_id _ _) rfl rfl ⟨.refl _, ho.heap⟩

theorem Orderly.allocate (ho : m.Orderly) {r : Record} (hc : r.Canonical)
    (he : ∀ n ∈ r.edges, m.Trusts n) :
    m.Advances (m.allocate r).2 ∧ (m.allocate r).2.Trusts (m.allocate r).1 := by
  refine ⟨ho.advance_idle rfl rfl rfl rfl rfl (ho.heap.allocateRecord hc he), .of_value ?_ rfl⟩
  exact Heap.inRange_of_record (Heap.record_allocateRecord_self m.heap r)

theorem Orderly.newVariable (ho : m.Orderly) : m.Advances m.newVariable.2 := by
  obtain ⟨hk, hheap, -⟩ := ho.heap.allocateVariable
  exact ho.advance_idle rfl rfl rfl rfl rfl ⟨hk, hheap⟩

/-- A variable without a value is bound to a trusted node. -/
theorem Orderly.bind (ho : m.Orderly) (hw : Waits m.heap m.scheduler.threads m.scheduler.spawned)
    {v target : VarRef} {x : Node} (hv : m.Trusts (.variable v)) (hx : m.Trusts x)
    (hd : m.heap.deref (.variable v) = .ok (.variable target)) :
    ∃ m', m.bind v x = .ok (.ok m') ∧ m.Advances m' := by
  obtain ⟨m', hb, hheap, hk⟩ := bind_ok ho.heap hw.grounded hv hx hd
  obtain ⟨ids, hc, -⟩ := cascade_of_bind hw.nodup hb
  refine ⟨m', hb, ho.advance ?_ ?_ ?_ ?_ ⟨hk, hheap⟩ fun t' ht' => ?_⟩
  -- nothing but cells and threads is touched
  · rw [hc.rest]
  · rw [hc.rest]
  · rw [hc.rest]
  · rw [hc.rest]
  · rw [hc.threads] at ht'
    obtain ⟨t, ht, rfl⟩ := List.mem_map.mp ht'
    refine ⟨t, ht, (t.wakeIf ids).state, ?_, ?_⟩
    · unfold Thread.wakeIf
      split <;> rfl
    · unfold Thread.wakeIf
      split
      · exact .inr rfl
      · exact .inl rfl

/-- What is made of trusted nodes is trusted. -/
theorem advances_making : Making Advances Trusts where
  again ha := ha.orderly.advances
  trans := .trans
  keeps ha hn := ha.trusts hn
  inline {m n} hn := by
    cases n with
    | int _ | float _ | bool _ | unit => exact .of_value trivial rfl
    | _ => cases hn
  intern ha content :=
    have h := ha.orderly.intern content
    ⟨h, h.trusts (ha.orderly.trusts_atom content)⟩
  allocate ha hc he := ha.orderly.allocate hc he

/-! ### Outcomes -/

/-- What may become of a call on trusted nodes. -/
def Proper (m : Machine) : Outcome → Prop
  | .proceed results => ∀ n ∈ results, m.Trusts n
  | .raise exception => m.Trusts exception
  | .suspend v => ∃ ls, m.heap.cell v = .ok (.unbound ls)

/-- A call leaves an orderly machine and has a proper outcome. Unless it proceeds, no thread is
    woken. -/
structure Completes (m : Machine) (o : Outcome) (m' : Machine) : Prop where
  advances : m.Advances m'
  proper : m'.Proper o
  idle : (∀ results, o ≠ .proceed results) → m'.scheduler = m.scheduler

/-- The call does not fault, and completes. -/
def Settles (m : Machine) (x : Except Fault (Outcome × Machine)) : Prop :=
  ∃ o m', x = .ok (o, m') ∧ m.Completes o m'

theorem Orderly.settles_proceed (ho : m.Orderly) {results : List Node}
    (hr : ∀ n ∈ results, m.Trusts n) : m.Settles (.ok (.proceed results, m)) :=
  ⟨_, m, rfl, ho.advances, hr, fun _ => rfl⟩

theorem Orderly.settles_suspend (ho : m.Orderly) {v : VarRef}
    (hd : m.heap.deref (.variable v) = .ok (.variable v)) : m.Settles (.ok (.suspend v, m)) :=
  ⟨_, m, rfl, ho.advances, Heap.cell_of_deref hd, fun _ => rfl⟩

theorem Orderly.settles_raise (ho : m.Orderly) (kind : String) {arguments : List Node}
    (ha : ∀ n ∈ arguments, m.Trusts n) :
    m.Settles (.ok (.raise (m.newException kind arguments).1, (m.newException kind arguments).2)) :=
  have ⟨hadv, he⟩ := advances_making.newException ho.advances kind ha
  ⟨_, _, rfl, hadv, he, fun _ => rfl⟩

theorem Orderly.settles_typeError (ho : m.Orderly) (expected : String) {value : Node}
    (hv : m.Trusts value) : m.Settles (.ok (m.raiseTypeError expected value)) := by
  obtain ⟨e, m', he, hadv, hte⟩ := advances_making.raiseTypeError ho.advances expected hv
  have hidle : (m.raiseTypeError expected value).2.scheduler = m.scheduler := rfl
  rw [he] at hidle ⊢
  exact ⟨_, m', rfl, hadv, hte, fun _ => hidle⟩

/-- A variable without a value is bound by a call. -/
theorem Orderly.settles_bind (ho : m.Orderly)
    (hw : Waits m.heap m.scheduler.threads m.scheduler.spawned) {v : VarRef} {x : Node}
    (hv : m.Trusts (.variable v)) (hd : m.heap.deref (.variable v) = .ok (.variable v))
    (hx : m.Trusts x) :
    m.Settles (do
      match ← m.bind v x with
      | .ok m => return (.proceed [], m)
      | .error _ => throw (.derefBound v)) := by
  obtain ⟨m', hb, hadv⟩ := ho.bind hw hv hx hd
  rw [hb, ok_bind]
  exact ⟨_, m', rfl, hadv, fun _ hn => absurd hn List.not_mem_nil, fun hno => absurd rfl (hno [])⟩

theorem Orderly.settles_callShow (ho : m.Orderly) (hground : m.heap.Grounded) {n : Node}
    (hn : m.Trusts n) : m.Settles (m.callShow n) := by
  obtain ⟨text, ht⟩ := (ho.heap.sound hn.fits).intact.print_ok hground m.settings.printDepth
  have ht' : m.repr n = .ok text := ht
  rw [callShow, ht', ok_bind]
  exact ⟨_, _, rfl, ho.advance_idle rfl rfl rfl rfl rfl ⟨.refl _, ho.heap⟩,
    fun _ hn => absurd hn List.not_mem_nil, fun _ => rfl⟩

/-! ### Waiting for one field of many -/

/-- A new control listens to variables that are no controls. -/
theorem listenTo_hears {h : Heap} {c : VarRef} {vs : List VarRef} (hh : h.Hears m.heap c)
    (hvs : ∀ v ∈ vs, ¬ h.IsControl v ∧ ∃ ls, h.cell v = .ok (.unbound ls))
    (hun : ∀ v ∈ vs, ∃ ls, m.heap.cell v = .ok (.unbound ls)) :
    ∃ heap, m.listenTo (.control c) vs = .ok { m with heap } ∧ h.Hears heap c := by
  induction vs generalizing m with
  | nil => exact ⟨m.heap, rfl, hh⟩
  | cons v vs ih =>
    obtain ⟨ls, hv⟩ := hun v (List.mem_cons_self ..)
    obtain ⟨hfree, ks, hin⟩ := hvs v (List.mem_cons_self ..)
    obtain ⟨heap, ha⟩ : ∃ heap, m.heap.addListener v (.control c) = .ok (true, heap) :=
      ⟨_, Heap.addListener_unbound hv _⟩
    have hh' : h.Hears heap c := hh.listen (Heap.inRange_of_cell hin) hfree ha
    obtain ⟨last, hl, hlast⟩ := ih (m := { m with heap }) hh'
      (fun w hw => hvs w (List.mem_cons_of_mem _ hw)) fun w hw => by
        obtain ⟨ms, hms⟩ := hun w (List.mem_cons_of_mem _ hw)
        exact Heap.unbound_addListener ha hms
    refine ⟨last, ?_, hlast⟩
    rw [listenTo, ha, ok_bind]
    exact hl

/-- Variables without a value, one at least, can be waited for. -/
theorem waitForAny_settles (ho : m.Orderly)
    (hw : Waits m.heap m.scheduler.threads m.scheduler.spawned) {vs : List VarRef} (hne : vs ≠ [])
    (hvs : ∀ v ∈ vs, m.Trusts (.variable v) ∧ ∃ ls, m.heap.cell v = .ok (.unbound ls)) :
    ∃ c m', m.waitForAny vs = .ok (c, m') ∧ m.Completes (.suspend c) m' := by
  match vs, hne with
  | [v], _ => exact ⟨v, m, rfl, ho.advances, (hvs v (List.mem_singleton.mpr rfl)).2, fun _ => rfl⟩
  | v :: v' :: vs, _ =>
    obtain ⟨ls, hv⟩ := (hvs v (List.mem_cons_self ..)).2
    have hcontrols : ∀ c, .control c ∈ ls → ∃ cell, m.heap.cell c = .ok cell :=
      fun c hc => hw.control ⟨ls, hv, hc⟩
    obtain ⟨found, hfound, -⟩ := pendingControl?_ok hw.grounded hcontrols
      fun w hw => (hvs w (List.mem_cons_of_mem v hw)).2
    rw [waitForAny.eq_3 _ _ _ (by simp), Survey.listeners_of_unbound hv, ok_bind, hfound, ok_bind]
    cases found with
    | some c =>
      -- the control has no value, so it is not bound to unit and threads wait for it
      obtain ⟨hc, hdet, -⟩ := pendingControl?_eq_some hfound
      refine ⟨c, m, rfl, ho.advances, ?_, fun _ => rfl⟩
      rcases ho.heap.controls ⟨v, ls, hv, hc⟩ with hunit | ⟨ids, hunbound⟩
      · rw [Heap.isDetermined_eq (Heap.deref_bound hunit)] at hdet
        cases hdet
      · exact ⟨_, hunbound⟩
    | none =>
      have hh : m.heap.Hears m.newVariable.2.heap m.newVariable.1 := ho.heap.hears_allocateVariable
      have hfree : ∀ w ∈ v :: v' :: vs,
          ¬ m.heap.IsControl w ∧ ∃ ls, m.heap.cell w = .ok (.unbound ls) :=
        fun w hw => ⟨(hvs w hw).1.free w rfl, (hvs w hw).2⟩
      obtain ⟨heap, hl, hheap⟩ := listenTo_hears (m := m.newVariable.2) hh hfree
        fun w hw => (hvs w hw).2.imp fun _ hc => Heap.cell_allocateVariable_of_ok hc
      refine ⟨m.newVariable.1, { m.newVariable.2 with heap }, ?_, ?_, ⟨_, hheap.cell⟩, fun _ => rfl⟩
      · dsimp only
        rw [hl]
        rfl
      · exact ho.advance_idle rfl rfl rfl rfl rfl ⟨hheap.keeps, ho.heap.hears hheap⟩

/-! ### All builtins -/

/-- A call on trusted nodes completes, whatever the builtin. -/
theorem Orderly.discipline (ho : m.Orderly)
    (hw : Waits m.heap m.scheduler.threads m.scheduler.spawned) (b : Builtin) :
    m.Discipline b m.Trusts m.Settles where
  canonical := ho.heap.canonical
  int _ := .of_value trivial rfl
  bool _ := .of_value trivial rfl
  deref hn next := by
    obtain ⟨d, hd, htd⟩ := ho.deref hw.grounded hn
    rw [hd]
    exact next d hd htd
  record hn next := by
    obtain ⟨r, href⟩ := Heap.record_of_inRange hn.fits.inRange
    rw [href]
    exact next r href (ho.heap.edges href)
  equals hx hy next := by
    obtain ⟨same, he, -⟩ := Heap.equals_decides hw.grounded hw.balanced
      (ho.heap.sound hx.fits) (ho.heap.sound hy.fits)
    have he' : m.equals _ _ = .ok same := he
    rw [he']
    exact next same
  proceed hr := ho.settles_proceed hr
  suspend hd _ := ho.settles_suspend hd
  raise kind _ ha := ho.settles_raise kind ha
  typeError expected _ hn := ho.settles_typeError expected hn
  bind _ _ _ hv hd hx := ho.settles_bind hw hv hd hx
  wait _ _ hne hvs := by
    obtain ⟨c, m', hwait, hdone⟩ := waitForAny_settles ho hw hne fun v hv =>
      ⟨(hvs v hv).1, Heap.cell_of_deref (hvs v hv).2⟩
    rw [hwait]
    exact ⟨_, m', rfl, hdone⟩
  shows _ _ hn := ho.settles_callShow hw.grounded hn

/-- In an orderly machine a call of any builtin on trusted operands completes. -/
theorem settles_call (ho : m.Orderly) (hw : Waits m.heap m.scheduler.threads m.scheduler.spawned)
    {b : Builtin} {operands : List Node} (hlen : operands.length = b.inputs)
    (ht : ∀ n ∈ operands, m.Trusts n) : m.Settles (m.call b operands) :=
  (ho.discipline hw b).call hlen ht

end Machine

end Dataflow
