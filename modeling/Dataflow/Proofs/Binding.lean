import Dataflow.Proofs.Lockstep

/-! # Listening and binding in step

  A bind on both sides gives related variables values that are alike, serves related controls in
  the same order and wakes the same threads. A control that only one side still lists has been
  served before, so passing over it changes nothing.

  While the controls are served, threads may still wait for a variable that is bound already. Only
  when all threads have been woken is everyone who waits back at an unbound variable: that is where
  `InStep` becomes `Lockstep` again.
-/

namespace Dataflow

variable {w w₁ : World} {a b a₁ b₁ : View} {P : VarRef → VarRef → Prop} {m m' : Machine}

/-! ### Changes of the cells -/

/-- Heaps stay alike if the records are kept and the cells of what is still related are alike. -/
theorem Likeness.of_cells (hl : Likeness w a b) (hlater : Later w a b w₁ a₁ b₁)
    (hrecord : ∀ {r r'}, w₁.record r r' → w.record r r')
    (hvar : ∀ {v v'}, w₁.var v v' → w.var v v')
    (hcontrol : ∀ {v v'}, w₁.control v v' → w.control v v')
    (hra : ∀ ref, a₁.heap.record ref = a.heap.record ref)
    (hrb : ∀ ref, b₁.heap.record ref = b.heap.record ref)
    (hvars : ∀ {v v'}, w₁.var v v' → ∃ ls ls', a₁.heap.cell v = .ok (.unbound ls) ∧
      b₁.heap.cell v' = .ok (.unbound ls') ∧ ListenersAlike w₁ a₁ b₁ ls ls')
    (hcontrols : ∀ {c c'}, w₁.control c c' → ∃ ids : List ThreadId,
      a₁.heap.cell c = .ok (.unbound (ids.map .thread)) ∧
        b₁.heap.cell c' = .ok (.unbound (ids.map .thread))) : Likeness w₁ a₁ b₁ where
  record h := by
    obtain ⟨s, s', hs, hs', hss⟩ := hl.record (hrecord h)
    exact ⟨s, s', by rw [hra, hs], by rw [hrb, hs'], hlater.record hss⟩
  record_left h h' := hl.record_left (hrecord h) (hrecord h')
  record_right h h' := hl.record_right (hrecord h) (hrecord h')
  var := hvars
  control := hcontrols
  cell_left h h' := hl.cell_left (h.imp hvar hcontrol) (h'.imp hvar hcontrol)
  cell_right h h' := hl.cell_right (h.imp hvar hcontrol) (h'.imp hvar hcontrol)
  disjoint h h' := hl.disjoint (hvar h) (hcontrol h')

/-- A control that is related has not been served. -/
theorem Likeness.deref_control (hl : Likeness w a b) {c c' : VarRef} (hc : w.control c c') :
    a.heap.deref (.variable c) = .ok (.variable c) ∧
      b.heap.deref (.variable c') = .ok (.variable c') := by
  obtain ⟨ids, h, h'⟩ := hl.control hc
  exact ⟨Heap.deref_unbound h, Heap.deref_unbound h'⟩

/-! ### Listening -/

/-- Two listeners stand for each other. -/
inductive ListenerAlike (w : World) : Listener → Listener → Prop where
  | thread (id : ThreadId) : ListenerAlike w (.thread id) (.thread id)
  | control {c c' : VarRef} : w.control c c' → ListenerAlike w (.control c) (.control c')

theorem ListenersAlike.concat {ls ls' : List Listener} {l l' : Listener}
    (hls : ListenersAlike w a b ls ls') (hl : ListenerAlike w l l') :
    ListenersAlike w a b (ls ++ [l]) (ls' ++ [l']) := by
  induction hls with
  | nil =>
    cases hl with
    | thread id => exact .thread id .nil
    | control hc => exact .control hc .nil
  | thread id _ ih => exact .thread id ih
  | control hc _ ih => exact .control hc ih
  | servedLeft hc _ ih => exact .servedLeft hc ih
  | servedRight hc _ ih => exact .servedRight hc ih

/-- A listener is in a list exactly if what stands for it is in the other one. -/
theorem Likeness.mem_listeners (hlike : Likeness w a b) {ls ls' : List Listener} {l l' : Listener}
    (hl : ListenerAlike w l l') (hls : ListenersAlike w a b ls ls') : l ∈ ls ↔ l' ∈ ls' := by
  induction hls with
  | nil => simp
  | thread id _ ih =>
    rw [List.mem_cons, List.mem_cons, ih]
    cases hl with
    | thread i => rfl
    | control hc => simp
  | @control c c' ls ls' hc _ ih =>
    rw [List.mem_cons, List.mem_cons, ih]
    cases hl with
    | thread i => simp
    | control hd => rw [Listener.control.injEq, Listener.control.injEq,
        hlike.cell_eq (.inr hd) (.inr hc)]
  | @servedLeft c ls ls' hc _ ih =>
    -- the listener has not been served, so it is not the one that was dropped
    have hne : l ≠ .control c := by
      rintro rfl
      cases hl with
      | control hd => rw [(hlike.deref_control hd).1] at hc; cases hc
    rw [List.mem_cons, ih]
    simp [hne]
  | @servedRight c ls ls' hc _ ih =>
    have hne : l' ≠ .control c := by
      rintro rfl
      cases hl with
      | control hd => rw [(hlike.deref_control hd).2] at hc; cases hc
    rw [List.mem_cons, ih]
    simp [hne]

theorem Heap.extends_addListener {h h₁ : Heap} {v : VarRef} {l : Listener} {parked : Bool}
    (ha : h.addListener v l = .ok (parked, h₁)) : h.Extends h₁ :=
  { Heap.grows_addListener ha with stays := fun hc => Heap.unbound_addListener ha hc }

theorem Later.of_addListener {v v' : VarRef} {l l' : Listener} {p p' : Bool} {h₁ h₁' : Heap}
    (ha : a.heap.addListener v l = .ok (p, h₁)) (hb : b.heap.addListener v' l' = .ok (p', h₁')) :
    Later w a b w ⟨a.table, h₁⟩ ⟨b.table, h₁'⟩ :=
  .of_extends ⟨fun h => h, fun h => h, fun h => h⟩ rfl rfl (Heap.extends_addListener ha)
    (Heap.extends_addListener hb)

/-- Related variables take listeners that stand for each other. A control takes threads only. -/
theorem Likeness.addListener (hlike : Likeness w a b) {v v' : VarRef} {l l' : Listener}
    (hv : w.cell v v') (hl : ListenerAlike w l l')
    (hthread : w.control v v' → ∃ id, l = .thread id) :
    ∃ h₁ h₁', a.heap.addListener v l = .ok (true, h₁) ∧ b.heap.addListener v' l' = .ok (true, h₁') ∧
      Likeness w ⟨a.table, h₁⟩ ⟨b.table, h₁'⟩ ∧ Later w a b w ⟨a.table, h₁⟩ ⟨b.table, h₁'⟩ := by
  obtain ⟨ls, ls', hc, hc', hls⟩ := hlike.cell hv
  have ha := Heap.addListener_unbound hc l
  have hb := Heap.addListener_unbound hc' l'
  have hlater := Later.of_addListener (w := w) ha hb
  refine ⟨_, _, ha, hb, ?_, hlater⟩
  -- both lists have the listener already, or neither has
  by_cases hm : l ∈ ls
  · rw [if_pos hm, if_pos ((hlike.mem_listeners hl hls).mp hm)]
    exact hlike
  · have hm' : l' ∉ ls' := fun h => hm ((hlike.mem_listeners hl hls).mpr h)
    rw [if_neg hm, if_neg hm'] at hlater ⊢
    have hcell : ∀ u, (a.heap.setCell v (.unbound (ls ++ [l]))).cell u =
        if u = v then .ok (.unbound (ls ++ [l])) else a.heap.cell u :=
      fun u => Heap.cell_setCell (Heap.lt_of_cell hc)
    have hcell' : ∀ u, (b.heap.setCell v' (.unbound (ls' ++ [l']))).cell u =
        if u = v' then .ok (.unbound (ls' ++ [l'])) else b.heap.cell u :=
      fun u => Heap.cell_setCell (Heap.lt_of_cell hc')
    refine hlike.of_cells hlater (fun h => h) (fun h => h) (fun h => h) (fun _ => rfl)
      (fun _ => rfl) ?_ ?_
    · intro u u' hu
      by_cases huv : u = v
      · have huv' : u' = v' := (hlike.cell_eq (.inl hu) hv).mp huv
        exact ⟨_, _, by rw [hcell, if_pos huv], by rw [hcell', if_pos huv'],
          hlater.listeners (hls.concat hl)⟩
      · have huv' : u' ≠ v' := fun h => huv ((hlike.cell_eq (.inl hu) hv).mpr h)
        obtain ⟨ks, ks', hk, hk', hks⟩ := hlike.var hu
        exact ⟨ks, ks', by rw [hcell, if_neg huv, hk], by rw [hcell', if_neg huv', hk'],
          hlater.listeners hks⟩
    · intro u u' hu
      obtain ⟨ids, hk, hk'⟩ := hlike.control hu
      by_cases huv : u = v
      · have huv' : u' = v' := (hlike.cell_eq (.inr hu) hv).mp huv
        subst huv huv'
        -- only threads listen to a control, and they are the same on both sides
        obtain ⟨id, rfl⟩ := hthread hu
        cases hl
        rw [hc] at hk
        rw [hc'] at hk'
        cases hk
        cases hk'
        exact ⟨ids ++ [id], by rw [hcell, if_pos rfl]; simp, by rw [hcell', if_pos rfl]; simp⟩
      · have huv' : u' ≠ v' := fun h => huv ((hlike.cell_eq (.inr hu) hv).mpr h)
        exact ⟨ids, by rw [hcell, if_neg huv, hk], by rw [hcell', if_neg huv', hk']⟩

/-- Related controls start to listen to related variables. -/
theorem Lockstep.listen (hs : Lockstep w m m') {v v' c c' : VarRef} (hv : w.var v v')
    (hc : w.control c c') :
    ∃ h₁ h₁', m.heap.addListener v (.control c) = .ok (true, h₁) ∧
      m'.heap.addListener v' (.control c') = .ok (true, h₁') ∧
      Lockstep w { m with heap := h₁ } { m' with heap := h₁' } ∧
      Later w m.view m'.view w ⟨m.atoms.id, h₁⟩ ⟨m'.atoms.id, h₁'⟩ := by
  obtain ⟨h₁, h₁', ha, hb, hlike, hlater⟩ := hs.like.addListener (.inl hv) (.control hc)
    fun h => absurd h (hs.like.disjoint hv)
  obtain ⟨ids, hcell, hcell'⟩ := hs.like.control hc
  exact ⟨h₁, h₁', ha, hb, ⟨hs.toInStep.later hlater hlike fun _ _ h => h,
    hs.waitsLeft.listen hcell ha, hs.waitsRight.listen hcell' hb⟩, hlater⟩

/-! ### Giving a variable its value -/

/-- The world without a variable that has been bound. -/
def World.drop (w : World) (u : VarRef) : World :=
  { w with
    var := fun v v' => w.var v v' ∧ v ≠ u
    control := fun v v' => w.control v v' ∧ v ≠ u }

theorem Matches.drop {u : VarRef} {d d' : Node} (hm : Matches w a b d d') (hne : d ≠ .variable u)
    (ha : a₁.table = a.table) (hb : b₁.table = b.table) : Matches (w.drop u) a₁ b₁ d d' := by
  cases hm with
  | atom content =>
    rw [← ha, ← hb]
    exact .atom content
  | int i => exact .int i
  | float x => exact .float x
  | bool x => exact .bool x
  | unit => exact .unit
  | record hr => exact .record hr
  | «variable» hv => exact .variable ⟨hv, fun h => hne (by rw [h])⟩

/-- A node leads to one of two related variables exactly if what stands for it leads to the
    other. -/
theorem Likeness.variable_iff (hl : Likeness w a b) {u u' : VarRef} {d d' : Node}
    (hu : w.cell u u') (hm : Matches w a b d d') : d = .variable u ↔ d' = .variable u' := by
  cases hm with
  | «variable» hv => rw [Node.variable.injEq, Node.variable.injEq, hl.cell_eq (.inl hv) hu]
  | _ => simp

/-- Related variables are given values that are alike; a control is given unit. -/
theorem Likeness.setBound (hl : Likeness w a b) {u u' : VarRef} {x x' d d' : Node}
    (hu : w.cell u u') (hd : a.heap.deref x = .ok d) (hd' : b.heap.deref x' = .ok d')
    (hm : Matches w a b d d') (hne : d ≠ .variable u) (hunit : w.control u u' → d = .unit) :
    Likeness (w.drop u) ⟨a.table, a.heap.setCell u (.bound x)⟩
        ⟨b.table, b.heap.setCell u' (.bound x')⟩ ∧
      Later w a b (w.drop u) ⟨a.table, a.heap.setCell u (.bound x)⟩
        ⟨b.table, b.heap.setCell u' (.bound x')⟩ := by
  obtain ⟨ls, ls', hc, hc', -⟩ := hl.cell hu
  have hne' : d' ≠ .variable u' := fun h => hne ((hl.variable_iff hu hm).mpr h)
  have hga := Heap.grows_setCell hc (.inr ⟨x, rfl⟩)
  have hgb := Heap.grows_setCell hc' (.inr ⟨x', rfl⟩)
  have hcell : ∀ v, (a.heap.setCell u (.bound x)).cell v =
      if v = u then .ok (.bound x) else a.heap.cell v :=
    fun v => Heap.cell_setCell (Heap.lt_of_cell hc)
  have hcell' : ∀ v, (b.heap.setCell u' (.bound x')).cell v =
      if v = u' then .ok (.bound x') else b.heap.cell v :=
    fun v => Heap.cell_setCell (Heap.lt_of_cell hc')
  -- the variables now lead to what their values lead to
  have hvalue : (a.heap.setCell u (.bound x)).deref (.variable u) = .ok d := by
    rw [Heap.deref_bound (by rw [hcell, if_pos rfl]), Heap.deref_setCell_bound hc hd hne]
  have hvalue' : (b.heap.setCell u' (.bound x')).deref (.variable u') = .ok d' := by
    rw [Heap.deref_bound (by rw [hcell', if_pos rfl]), Heap.deref_setCell_bound hc' hd' hne']
  have hlater : Later w a b (w.drop u) ⟨a.table, a.heap.setCell u (.bound x)⟩
      ⟨b.table, b.heap.setCell u' (.bound x')⟩ := by
    refine { node := ?_, control := ?_, servedLeft := fun h => hga.deref_value h rfl
             servedRight := fun h => hgb.deref_value h rfl, cell := ?_, bound := hga.bound }
    · rintro n n' ⟨e, e', he, he', hme⟩
      by_cases heu : e = .variable u
      · have heu' : e' = .variable u' := (hl.variable_iff hu hme).mp heu
        refine ⟨d, d', ?_, ?_, hm.drop hne rfl rfl⟩
        · rw [hga.deref he, heu]; exact hvalue
        · rw [hgb.deref he', heu']; exact hvalue'
      · have heu' : e' ≠ .variable u' := fun h => heu ((hl.variable_iff hu hme).mpr h)
        exact ⟨e, e', Heap.deref_setCell_bound hc he heu, Heap.deref_setCell_bound hc' he' heu',
          hme.drop heu rfl rfl⟩
    · intro c c' hcc
      by_cases hcu : c = u
      · have hcu' : c' = u' := (hl.cell_eq (.inr hcc) hu).mp hcu
        subst hcu hcu'
        obtain rfl := hunit hcc
        cases hm
        exact .inr ⟨hvalue, hvalue'⟩
      · exact .inl ⟨hcc, hcu⟩
    · intro v v' hv
      by_cases hvu : v = u
      · exact .inr ⟨x, by rw [hcell, if_pos hvu]⟩
      · exact .inl (hv.imp (⟨·, hvu⟩) (⟨·, hvu⟩))
  refine ⟨hl.of_cells hlater (fun h => h) (fun h => h.1) (fun h => h.1) (fun _ => rfl)
    (fun _ => rfl) ?_ ?_, hlater⟩
  · rintro v v' ⟨hv, hvu⟩
    have hvu' : v' ≠ u' := fun h => hvu ((hl.cell_eq (.inl hv) hu).mpr h)
    obtain ⟨ks, ks', hk, hk', hks⟩ := hl.var hv
    exact ⟨ks, ks', by rw [hcell, if_neg hvu, hk], by rw [hcell', if_neg hvu', hk'],
      hlater.listeners hks⟩
  · rintro c c' ⟨hcc, hcu⟩
    have hcu' : c' ≠ u' := fun h => hcu ((hl.cell_eq (.inr hcc) hu).mpr h)
    obtain ⟨ids, hk, hk'⟩ := hl.control hcc
    exact ⟨ids, by rw [hcell, if_neg hcu, hk], by rw [hcell', if_neg hcu', hk']⟩

/-! ### Waking threads -/

theorem StateAlike.isWaiting {s s' : ThreadState} (hs : StateAlike P w a b s s') :
    s.isWaiting = s'.isWaiting := by
  cases hs <;> rfl

theorem StateAlike.isRunnable {s s' : ThreadState} (hs : StateAlike P w a b s s') :
    s.isRunnable = s'.isRunnable := by
  cases hs <;> rfl

/-- Tables of threads in step find the same thread by its number. -/
theorem find?_sameIds {R : Thread → Thread → Prop} (hid : ∀ t t', R t t' → t.id = t'.id)
    {ts ts' : List Thread} (ht : List.Forall₂ R ts ts') (id : ThreadId) :
    ts.find? (·.id == id) = none ∧ ts'.find? (·.id == id) = none ∨
      ∃ t t', ts.find? (·.id == id) = some t ∧ ts'.find? (·.id == id) = some t' ∧ R t t' := by
  induction ht with
  | nil => exact .inl ⟨rfl, rfl⟩
  | @cons t t' ts ts' htt _ ih =>
    rw [List.find?_cons, List.find?_cons, ← hid t t' htt]
    cases t.id == id with
    | true => exact .inr ⟨t, t', rfl, rfl, htt⟩
    | false => exact ih

theorem InStep.thread? (hs : InStep P w m m') (id : ThreadId) :
    m.scheduler.thread? id = none ∧ m'.scheduler.thread? id = none ∨
      ∃ t t', m.scheduler.thread? id = some t ∧ m'.scheduler.thread? id = some t' ∧
        ThreadAlike P w m.view m'.view t t' :=
  find?_sameIds (fun _ _ ht => ht.id) hs.threads id

/-- Threads in step are put into the tables. -/
theorem threadsAlike_update {s s' : Scheduler} {t t' : Thread}
    (hs : List.Forall₂ (ThreadAlike P w a b) s.threads s'.threads) (ht : ThreadAlike P w a b t t') :
    List.Forall₂ (ThreadAlike P w a b) (s.update t).threads (s'.update t').threads := by
  refine List.forall₂_map_left_iff.mpr (List.forall₂_map_right_iff.mpr (hs.imp fun u u' hu => ?_))
  rw [← hu.id, ← ht.id]
  by_cases hid : u.id = t.id
  · rw [if_pos hid, if_pos hid]
    exact ht
  · rw [if_neg hid, if_neg hid]
    exact hu

/-- Machines stay in step when their schedulers change in the same way. -/
theorem InStep.reschedule (hs : InStep P w m m') {s s' : Scheduler}
    (ht : List.Forall₂ (ThreadAlike P w m.view m'.view) s.threads s'.threads)
    (hr : s.ready = s'.ready) (hn : s.spawned = s'.spawned) :
    InStep P w { m with scheduler := s } { m' with scheduler := s' } :=
  { hs with threads := ht, ready := hr, spawned := hn }

theorem InStep.wakeOne (hs : InStep P w m m') (id : ThreadId) :
    InStep P w { m with scheduler := m.scheduler.wakeOne id }
      { m' with scheduler := m'.scheduler.wakeOne id } := by
  unfold Scheduler.wakeOne
  rcases hs.thread? id with ⟨hf, hf'⟩ | ⟨t, t', hf, hf', ht⟩
  · rw [hf, hf']
    exact hs
  · rw [hf, hf']
    dsimp only
    rw [← ht.state.isWaiting]
    by_cases hw : t.state.isWaiting = true
    · rw [if_pos hw, if_pos hw]
      refine hs.reschedule (threadsAlike_update hs.threads { ht with state := .runnable }) ?_
        hs.spawned
      show m.scheduler.ready ++ [id] = m'.scheduler.ready ++ [id]
      rw [hs.ready]
    · rw [if_neg hw, if_neg hw]
      exact hs

/-- The same threads are woken in the same order. -/
theorem InStep.wake (hs : InStep P w m m') (ids : List ThreadId) :
    InStep P w { m with scheduler := m.scheduler.wake ids }
      { m' with scheduler := m'.scheduler.wake ids } := by
  induction ids generalizing m m' with
  | nil => exact hs
  | cons id ids ih => exact ih (hs.wakeOne id)

theorem ListenersAlike.threads {ls ls' : List Listener} (hls : ListenersAlike w a b ls ls') :
    ls.filterMap Listener.thread? = ls'.filterMap Listener.thread? := by
  induction hls with
  | nil => rfl
  | thread id _ ih => simp [Listener.thread?, ih]
  | control _ _ ih => exact ih
  | servedLeft _ _ ih => exact ih
  | servedRight _ _ ih => exact ih

/-! ### Serving controls -/

/-- Related controls are bound to unit, and the same threads are woken. -/
theorem InStep.serve (hs : InStep P w m m') {c c' : VarRef} (hc : w.control c c') (n n' : Nat) :
    ∃ m₁ m₁' w₁, Machine.bindWithin (n + 1) m c .unit = .ok (.ok m₁) ∧
      Machine.bindWithin (n' + 1) m' c' .unit = .ok (.ok m₁') ∧ InStep P w₁ m₁ m₁' ∧
      Later w m.view m'.view w₁ m₁.view m₁'.view := by
  obtain ⟨ids, hcell, hcell'⟩ := hs.like.control hc
  obtain ⟨hlike, hlater⟩ := hs.like.setBound (.inr hc) (Heap.deref_of_value rfl)
    (Heap.deref_of_value rfl) .unit nofun fun _ => rfl
  exact ⟨_, _, _, Machine.bindWithin_control hcell n, Machine.bindWithin_control hcell' n',
    (hs.later hlater hlike fun _ _ h => h).wake ids, hlater⟩

/-- The controls of two lists are served. The lists were alike when the serving began, and may by
    now hold controls that have been served. -/
theorem InStep.serveAll {w₀ : World} {ls ls' : List Listener}
    (hls : ListenersAlike w₀ a b ls ls') (hs : InStep P w m m')
    (hlater : Later w₀ a b w m.view m'.view) (n n' : Nat) :
    ∃ m₁ m₁' w₁,
      (ls.filterMap Listener.control?).foldlM
        (Machine.serveControl fun m c => Machine.bindWithin (n + 1) m c .unit) (.ok m) =
          .ok (.ok m₁) ∧
      (ls'.filterMap Listener.control?).foldlM
        (Machine.serveControl fun m c => Machine.bindWithin (n' + 1) m c .unit) (.ok m') =
          .ok (.ok m₁') ∧
      InStep P w₁ m₁ m₁' ∧ Later w m.view m'.view w₁ m₁.view m₁'.view := by
  -- along both lists: partners are served together, and who has been served already is passed over
  induction hls generalizing w m m' with
  | nil => exact ⟨m, m', w, rfl, rfl, hs, .refl w _ _⟩
  | thread id _ ih => exact ih hs hlater
  | @control c c' ls ls' hc _ ih =>
    rw [List.filterMap_cons_some (show (Listener.control c).control? = some c from rfl),
      List.filterMap_cons_some (show (Listener.control c').control? = some c' from rfl),
      List.foldlM_cons, List.foldlM_cons]
    rcases hlater.control hc with hc | ⟨hd, hd'⟩
    · obtain ⟨hd, hd'⟩ := hs.like.deref_control hc
      obtain ⟨m₁, m₁', w₁, hb, hb', hs₁, hl₁⟩ := hs.serve hc n n'
      obtain ⟨m₂, m₂', w₂, hf, hf', hs₂, hl₂⟩ := ih hs₁ (hlater.trans hl₁)
      refine ⟨m₂, m₂', w₂, ?_, ?_, hs₂, hl₁.trans hl₂⟩
      · rw [Machine.serveControl_of_unbound hd, hb]; exact hf
      · rw [Machine.serveControl_of_unbound hd', hb']; exact hf'
    · rw [Machine.serveControl_of_determined hd, Machine.serveControl_of_determined hd']
      exact ih hs hlater
  | @servedLeft c ls ls' hc _ ih =>
    rw [List.filterMap_cons_some (show (Listener.control c).control? = some c from rfl),
      List.foldlM_cons, Machine.serveControl_of_determined (hlater.servedLeft hc)]
    exact ih hs hlater
  | @servedRight c ls ls' hc _ ih =>
    rw [List.filterMap_cons_some (show (Listener.control c).control? = some c from rfl),
      List.foldlM_cons, Machine.serveControl_of_determined (hlater.servedRight hc)]
    exact ih hs hlater

/-! ### Binding -/

/-- Once no thread waits for a variable that has a value, all threads wait for variables that are
    related now. -/
theorem InStep.settle (hs : InStep w.cell w₁ m m') (hlater : Later w a b w₁ m.view m'.view)
    (hw : Waits m.heap m.scheduler.threads m.scheduler.spawned) : InStep w₁.cell w₁ m m' := by
  have hstate : ∀ {s s' : ThreadState}, StateAlike w.cell w₁ m.view m'.view s s' →
      (∀ v, s = .waiting v → ∃ ls, m.heap.cell v = .ok (.unbound ls)) →
      StateAlike w₁.cell w₁ m.view m'.view s s' := by
    intro s s' hss hunbound
    cases hss with
    | runnable => exact .runnable
    | terminated => exact .terminated
    | failed he => exact .failed he
    | @waiting v v' hv =>
      rcases hlater.cell hv with hv | ⟨x, hx⟩
      · exact .waiting hv
      · obtain ⟨ls, hc⟩ := hunbound v rfl
        rw [show m.heap.cell v = .ok (.bound x) from hx] at hc
        cases hc
  refine { hs with threads := forall₂_imp_left hs.threads fun t ht t' htt => ?_ }
  exact { htt with state := hstate htt.state fun v hv => (hw.parked t ht hv).unbound }

/-- Machines in step bind related variables to values that are alike. -/
theorem Lockstep.bind (hs : Lockstep w m m') {v v' u u' : VarRef} {x x' : Node}
    (hv : m.heap.deref (.variable v) = .ok (.variable u))
    (hv' : m'.heap.deref (.variable v') = .ok (.variable u')) (hu : w.var u u')
    (hx : Alike w m.view m'.view x x') :
    ∃ m₁ m₁' w₁, m.bind v x = .ok (.ok m₁) ∧ m'.bind v' x' = .ok (.ok m₁') ∧
      Lockstep w₁ m₁ m₁' ∧ Later w m.view m'.view w₁ m₁.view m₁'.view := by
  obtain ⟨d, d', hd, hd', hm⟩ := hx
  by_cases hdu : d = .variable u
  · -- the variable is bound to itself on both sides
    have hdu' : d' = .variable u' := (hs.like.variable_iff (.inl hu) hm).mp hdu
    subst hdu hdu'
    exact ⟨m, m', w, Machine.bindWithin_self hv hd _, Machine.bindWithin_self hv' hd' _, hs,
      .refl w _ _⟩
  · have hdu' : d' ≠ .variable u' := fun h => hdu ((hs.like.variable_iff (.inl hu) hm).mpr h)
    obtain ⟨ls, ls', hc, hc', hls⟩ := hs.like.var hu
    obtain ⟨hlike, hlater⟩ := hs.like.setBound (.inl hu) hd hd' hm hdu
      fun h => absurd h (hs.like.disjoint hu)
    -- binds nest twice at most, and there is at least one variable
    have hfuel : ∀ {h : Heap} {v : VarRef} {c : Cell}, h.cell v = .ok c →
        ∃ n, h.variableCount + 1 = (n + 1) + 1 := by
      intro h v c hc
      have hlt := Heap.lt_of_cell hc
      exact ⟨h.cells.size - 1, by unfold Heap.variableCount; omega⟩
    obtain ⟨n, hn⟩ : ∃ n, m.heap.variableCount + 1 = (n + 1) + 1 := hfuel hc
    obtain ⟨n', hn'⟩ : ∃ n, m'.heap.variableCount + 1 = (n + 1) + 1 := hfuel hc'
    have hstep : InStep w.cell (w.drop u) (m.withBound u x) (m'.withBound u' x') :=
      hs.toInStep.later hlater hlike fun _ _ h => h
    obtain ⟨m₁, m₁', w₁, hf, hf', hs₁, hl₁⟩ := hstep.serveAll hls hlater n n'
    have hb : m.bind v x = .ok (.ok { m₁ with
        scheduler := m₁.scheduler.wake (ls.filterMap Listener.thread?) }) := by
      rw [Machine.bind, hn, Machine.bindWithin_unbound hv hd hdu hc, hf]
      rfl
    have hb' : m'.bind v' x' = .ok (.ok { m₁' with
        scheduler := m₁'.scheduler.wake (ls.filterMap Listener.thread?) }) := by
      rw [Machine.bind, hn', Machine.bindWithin_unbound hv' hd' hdu' hc', hf', hls.threads]
      rfl
    have hall := hlater.trans hl₁
    have hw := hs.waitsLeft.change (.bind hb)
    exact ⟨_, _, w₁, hb, hb', ⟨(hs₁.wake _).settle hall hw, hw, hs.waitsRight.change (.bind hb')⟩,
      hall⟩

end Dataflow
