import Dataflow.Machine.Bind
import Dataflow.Proofs.Growth

/-! # What a bind does

  A bind gives one variable its value, then binds the control variables that listen to it,
  and theirs in turn, and wakes the threads that wait for any of these. `Machine.Cascade`
  says all that such a cascade does: which cells are bound, that the controls of a bound
  cell have a value, and that exactly the threads listed in the bound cells are woken.
-/

namespace Dataflow

/-! ### Waking threads -/

theorem mem_threads {ls : List Listener} {id : ThreadId} :
    id ∈ ls.filterMap Listener.thread? ↔ .thread id ∈ ls := by
  rw [List.mem_filterMap]
  constructor
  · rintro ⟨l, hl, he⟩
    cases l with
    | thread i => cases he; exact hl
    | control c => cases he
  · intro hl
    exact ⟨_, hl, rfl⟩

theorem mem_filterMap_control {ls : List Listener} {c : VarRef} :
    c ∈ ls.filterMap Listener.control? ↔ .control c ∈ ls := by
  rw [List.mem_filterMap]
  constructor
  · rintro ⟨l, hl, he⟩
    cases l with
    | thread i => cases he
    | control c => cases he; exact hl
  · intro hl
    exact ⟨_, hl, rfl⟩

/-- The thread after the threads `ids` have been woken. -/
def Thread.wakeIf (ids : List ThreadId) (t : Thread) : Thread :=
  if t.state.isWaiting ∧ t.id ∈ ids then { t with state := .runnable } else t

@[simp] theorem ThreadState.isWaiting_runnable : ThreadState.runnable.isWaiting = false := rfl

@[simp] theorem ThreadState.isWaiting_waiting (v : VarRef) :
    (ThreadState.waiting v).isWaiting = true := rfl

namespace Thread

@[simp] theorem wakeIf_id (ids : List ThreadId) (t : Thread) : (t.wakeIf ids).id = t.id := by
  unfold wakeIf; split <;> rfl

@[simp] theorem wakeIf_nil : Thread.wakeIf [] = fun t => t := by
  funext t
  simp [wakeIf]

theorem wakeIf_wakeIf (ids ids' : List ThreadId) (t : Thread) :
    (t.wakeIf ids).wakeIf ids' = t.wakeIf (ids ++ ids') := by
  by_cases hw : t.state.isWaiting
  · by_cases hm : t.id ∈ ids
    · simp [wakeIf, hw, hm]
    · simp [wakeIf, hw, hm]
  · simp [wakeIf, hw]

/-- A thread that is waiting after others were woken was waiting before. -/
theorem wakeIf_waiting {ids : List ThreadId} {t : Thread} {v : VarRef}
    (ht : (t.wakeIf ids).state = .waiting v) : t.wakeIf ids = t ∧ t.id ∉ ids := by
  by_cases hc : t.state.isWaiting ∧ t.id ∈ ids
  · simp [wakeIf, hc] at ht
  · have he : t.wakeIf ids = t := by simp [wakeIf, hc]
    refine ⟨he, fun hm => hc ⟨?_, hm⟩⟩
    rw [he] at ht
    simp [ht]

theorem wakeIf_of_not_mem {ids : List ThreadId} {t : Thread} (ht : t.id ∉ ids) :
    t.wakeIf ids = t := by
  simp [wakeIf, ht]

theorem wakeIf_runnable {ids : List ThreadId} {t : Thread} (ht : t.state = .runnable) :
    t.wakeIf ids = t := by
  simp [wakeIf, ht]

end Thread

namespace Scheduler

variable {s : Scheduler}

/-- With distinct numbers a thread is found by its own. -/
theorem eq_of_id (hnd : (s.threads.map Thread.id).Nodup) {t u : Thread} (ht : t ∈ s.threads)
    (hu : u ∈ s.threads) (hid : t.id = u.id) : t = u :=
  List.inj_on_of_nodup_map hnd ht hu hid

theorem mem_of_thread? {id : ThreadId} {t : Thread} (ht : s.thread? id = some t) :
    t ∈ s.threads ∧ t.id = id := by
  have hp := List.find?_some ht
  exact ⟨List.mem_of_find?_eq_some ht, by simpa using hp⟩

theorem wakeOne_threads (hnd : (s.threads.map Thread.id).Nodup) (id : ThreadId) :
    (s.wakeOne id).threads = s.threads.map (Thread.wakeIf [id]) := by
  unfold wakeOne
  cases hf : s.thread? id with
  | none =>
    -- no thread has this number, so no thread is changed
    have hne : ∀ u ∈ s.threads, u.id ≠ id := by
      intro u hu he
      have := List.find?_eq_none.mp hf u hu
      simp [he] at this
    have hsame : s.threads.map (Thread.wakeIf [id]) = s.threads.map fun t => t :=
      List.map_congr_left fun u hu => Thread.wakeIf_of_not_mem (by simpa using hne u hu)
    simp [hsame]
  | some t =>
    obtain ⟨ht, rfl⟩ := mem_of_thread? hf
    by_cases hw : t.state.isWaiting
    · simp only [hw, ↓reduceIte, enqueue, update]
      -- numbers are distinct, so the thread that is written back replaces itself only
      refine List.map_congr_left fun u hu => ?_
      by_cases hid : u.id = t.id
      · obtain rfl := eq_of_id hnd hu ht hid
        simp [Thread.wakeIf, hw]
      · rw [Thread.wakeIf_of_not_mem (by simpa using hid)]
        simp [hid]
    · have hsame : s.threads.map (Thread.wakeIf [t.id]) = s.threads.map fun t => t := by
        refine List.map_congr_left fun u hu => ?_
        by_cases hid : u.id = t.id
        · obtain rfl := eq_of_id hnd hu ht hid
          simp [Thread.wakeIf, hw]
        · exact Thread.wakeIf_of_not_mem (by simpa using hid)
      simp [hw, hsame]

theorem wakeOne_spawned (id : ThreadId) : (s.wakeOne id).spawned = s.spawned := by
  unfold wakeOne
  cases s.thread? id with
  | none => rfl
  | some t => by_cases hw : t.state.isWaiting <;> simp [hw, enqueue, update]

/-- Waking threads changes the state of those among them that wait, and of no other. -/
theorem wake_threads (hnd : (s.threads.map Thread.id).Nodup) (ids : List ThreadId) :
    (s.wake ids).threads = s.threads.map (Thread.wakeIf ids) ∧
      (s.wake ids).spawned = s.spawned := by
  induction ids generalizing s with
  | nil => simp [wake]
  | cons id ids ih =>
    have h1 := wakeOne_threads hnd id
    have hnd1 : ((s.wakeOne id).threads.map Thread.id).Nodup := by
      rw [h1, List.map_map]
      simpa [Function.comp_def] using hnd
    obtain ⟨h2, h3⟩ := ih hnd1
    refine ⟨?_, h3.trans (wakeOne_spawned id)⟩
    have hw : s.wake (id :: ids) = (s.wakeOne id).wake ids := rfl
    rw [hw, h2, h1, List.map_map]
    refine List.map_congr_left fun u _ => ?_
    exact Thread.wakeIf_wakeIf [id] ids u

end Scheduler

/-! ### Cascades -/

namespace Machine

/-- All that a bind does to a machine, `ids` being the threads that it wakes. -/
structure Cascade (m m' : Machine) (ids : List ThreadId) : Prop where
  /-- Nothing but cells and threads is touched. -/
  rest : m' = { m with
    heap := { m.heap with cells := m'.heap.cells }
    scheduler := m'.scheduler }
  /-- No variable comes or goes. -/
  size : m'.heap.cells.size = m.heap.cells.size
  /-- A variable keeps its state, or is bound. -/
  kept : ∀ {v : VarRef} {c : Cell}, m.heap.cell v = .ok c → m'.heap.cell v = .ok c ∨
    ∃ ls x, c = .unbound ls ∧ m'.heap.cell v = .ok (.bound x)
  /-- The controls that listened to a variable have a value once it is bound. -/
  served : ∀ {v : VarRef} {ls : List Listener} {x : Node} {c : VarRef},
    m.heap.cell v = .ok (.unbound ls) → m'.heap.cell v = .ok (.bound x) → .control c ∈ ls →
    m'.heap.isDetermined (.variable c) = .ok true
  /-- No circle of variables is closed. -/
  grounded : m.heap.Grounded → m'.heap.Grounded
  /-- The threads `ids` are woken. -/
  threads : m'.scheduler.threads = m.scheduler.threads.map (Thread.wakeIf ids)
  /-- No thread is spawned. -/
  spawned : m'.scheduler.spawned = m.scheduler.spawned
  /-- Those are woken that are listed in a cell that is bound. -/
  woken : ∀ {id : ThreadId}, id ∈ ids ↔ ∃ v ls x, m.heap.cell v = .ok (.unbound ls) ∧
    m'.heap.cell v = .ok (.bound x) ∧ .thread id ∈ ls

namespace Cascade

variable {m m' m'' : Machine} {ids ids' : List ThreadId}

theorem refl (m : Machine) : Cascade m m [] where
  rest := rfl
  size := rfl
  kept hc := .inl hc
  served hc hc' := by rw [hc] at hc'; cases hc'
  grounded hg := hg
  threads := by simp
  spawned := rfl
  woken {id} := by
    refine ⟨nofun, ?_⟩
    rintro ⟨v, ls, x, hc, hc', -⟩
    rw [hc] at hc'
    cases hc'

theorem record (hc : Cascade m m' ids) (ref : RecordRef) :
    m'.heap.record ref = m.heap.record ref := by
  rw [hc.rest]
  rfl

theorem grows (hc : Cascade m m' ids) : m.heap.Grows m'.heap where
  record hr := by rw [hc.record]; exact hr
  bound hv := by
    rcases hc.kept hv with h | ⟨ls, x, h, -⟩
    · exact h
    · cases h
  unbound hv := by
    rcases hc.kept hv with h | ⟨ls, x, -, h⟩
    · exact .inl ⟨[], by simpa using h⟩
    · exact .inr ⟨x, h⟩

/-- A cell of the machine after the cascade was there before it. -/
theorem cell_before (hc : Cascade m m' ids) {v : VarRef} {c : Cell} (hv : m'.heap.cell v = .ok c) :
    ∃ c₀, m.heap.cell v = .ok c₀ := by
  have hlt := Heap.lt_of_cell hv
  rw [hc.size] at hlt
  exact ⟨m.heap.cells[v.index], Heap.cell_eq_ok_iff.mpr (by simp [hlt])⟩

/-- A variable that dangles is not brought about. -/
theorem dangling (hc : Cascade m m' ids) {v : VarRef} {f : Fault} (hv : m.heap.cell v = .error f) :
    m'.heap.cell v = .error f := by
  cases hv' : m'.heap.cell v with
  | ok c =>
    obtain ⟨c₀, h₀⟩ := hc.cell_before hv'
    rw [h₀] at hv
    cases hv
  | error f' =>
    have hdangling : ∀ {h : Heap} {f : Fault}, h.cell v = .error f → f = .danglingVariable v := by
      intro h f hf
      unfold Heap.cell at hf
      split at hf
      · cases hf
      · cases hf; rfl
    rw [hdangling hv, hdangling hv']

/-- A variable that is still unbound has kept its listeners. -/
theorem unbound_before (hc : Cascade m m' ids) {v : VarRef} {ls : List Listener}
    (hv : m'.heap.cell v = .ok (.unbound ls)) : m.heap.cell v = .ok (.unbound ls) := by
  obtain ⟨c₀, h₀⟩ := hc.cell_before hv
  rcases hc.kept h₀ with h | ⟨ls', x, -, h⟩
  · rw [hv] at h; cases h; exact h₀
  · rw [hv] at h; cases h

theorem trans (h₁ : Cascade m m' ids) (h₂ : Cascade m' m'' ids') : Cascade m m'' (ids ++ ids') where
  rest := by
    rw [h₂.rest, h₁.rest]
  size := h₂.size.trans h₁.size
  kept hc := by
    rcases h₁.kept hc with h | ⟨ls, x, rfl, h⟩
    · exact h₂.kept h
    · exact .inr ⟨ls, x, rfl, h₂.grows.bound h⟩
  served {v ls x c} hc hc'' hl := by
    rcases h₁.kept hc with h | ⟨ls, y, -, h⟩
    · exact h₂.served h hc'' hl
    · exact h₂.grows.isDetermined (h₁.served hc h hl)
  grounded hg := h₂.grounded (h₁.grounded hg)
  threads := by
    rw [h₂.threads, h₁.threads, List.map_map]
    refine List.map_congr_left fun t _ => ?_
    exact Thread.wakeIf_wakeIf ids ids' t
  spawned := h₂.spawned.trans h₁.spawned
  woken {id} := by
    rw [List.mem_append, h₁.woken, h₂.woken]
    constructor
    · rintro (⟨v, ls, x, hc, hc', hl⟩ | ⟨v, ls, x, hc', hc'', hl⟩)
      · exact ⟨v, ls, x, hc, h₂.grows.bound hc', hl⟩
      · exact ⟨v, ls, x, h₁.unbound_before hc', hc'', hl⟩
    · rintro ⟨v, ls, x, hc, hc'', hl⟩
      rcases h₁.kept hc with h | ⟨ls', y, he, h⟩
      · exact .inr ⟨v, ls, x, h, hc'', hl⟩
      · exact .inl ⟨v, ls, y, hc, h, hl⟩

theorem nodup (hc : Cascade m m' ids) (hnd : (m.scheduler.threads.map Thread.id).Nodup) :
    (m'.scheduler.threads.map Thread.id).Nodup := by
  rw [hc.threads, List.map_map]
  simpa [Function.comp_def] using hnd

end Cascade

/-! ### A bind is a cascade -/

/-- The machine with a value written into one of its cells, before anybody is served. -/
def withBound (m : Machine) (v : VarRef) (x : Node) : Machine :=
  { m with heap := m.heap.setCell v (.bound x) }

/-- A variable that is bound to itself stays unbound. -/
theorem bindWithin_self {m : Machine} {v u : VarRef} {x : Node}
    (hv : m.heap.deref (.variable v) = .ok (.variable u)) (hx : m.heap.deref x = .ok (.variable u))
    (n : Nat) : bindWithin (n + 1) m v x = .ok (.ok m) := by
  have hv' : m.deref (.variable v) = .ok (.variable u) := hv
  have hx' : m.deref x = .ok (.variable u) := hx
  simp [bindWithin, hv', hx', pure, Except.pure]

/-- The bind of an unbound variable: its controls are served, then its threads are woken. -/
theorem bindWithin_unbound {m : Machine} {v u : VarRef} {x d : Node} {ls : List Listener}
    (hv : m.heap.deref (.variable v) = .ok (.variable u)) (hx : m.heap.deref x = .ok d)
    (hne : d ≠ .variable u) (hc : m.heap.cell u = .ok (.unbound ls)) (n : Nat) :
    bindWithin (n + 1) m v x = (do
      let served ← (ls.filterMap Listener.control?).foldlM
        (serveControl fun m control => bindWithin n m control .unit) (.ok (m.withBound u x))
      return served.map fun m =>
        { m with scheduler := m.scheduler.wake (ls.filterMap Listener.thread?) }) := by
  have hv' : m.deref (.variable v) = .ok (.variable u) := hv
  have hx' : m.deref x = .ok d := hx
  rw [bindWithin, hv']
  simp only [ok_bind, hx', if_neg hne, hc]
  rfl

/-- The bind of a control: only threads listen to it. -/
theorem bindWithin_control {m : Machine} {c : VarRef} {ids : List ThreadId}
    (hc : m.heap.cell c = .ok (.unbound (ids.map .thread))) (n : Nat) :
    bindWithin (n + 1) m c .unit =
      .ok (.ok { m.withBound c .unit with scheduler := m.scheduler.wake ids }) := by
  have hcontrols : (ids.map Listener.thread).filterMap Listener.control? = [] := by
    simp [Listener.control?]
  have hthreads : (ids.map Listener.thread).filterMap Listener.thread? = ids := by
    rw [List.filterMap_map]
    exact List.filterMap_some
  have hunit : m.heap.deref .unit = .ok .unit := Heap.deref_of_value rfl
  rw [bindWithin_unbound (Heap.deref_unbound hc) hunit nofun hc, hcontrols, hthreads]
  rfl

theorem serveControl_of_determined
    {bindUnit : Machine → VarRef → Except Fault (Except Refusal Machine)} {m : Machine} {c : VarRef}
    (hd : m.heap.deref (.variable c) = .ok .unit) :
    serveControl bindUnit (.ok m) c = .ok (.ok m) := by
  have hdet : m.isDetermined (.variable c) = .ok true := Heap.isDetermined_eq hd
  simp [serveControl, hdet, pure, Except.pure]

theorem serveControl_of_unbound
    {bindUnit : Machine → VarRef → Except Fault (Except Refusal Machine)} {m : Machine} {c : VarRef}
    (hd : m.heap.deref (.variable c) = .ok (.variable c)) :
    serveControl bindUnit (.ok m) c = bindUnit m c := by
  have hdet : m.isDetermined (.variable c) = .ok false := Heap.isDetermined_eq hd
  simp [serveControl, hdet]

/-- All ways in which a bind succeeds. -/
theorem bindWithin_cases {n : Nat} {m m' : Machine} {v : VarRef} {x : Node}
    (hb : bindWithin (n + 1) m v x = .ok (.ok m')) :
    ∃ target d, m.heap.deref (.variable v) = .ok (.variable target) ∧ m.heap.deref x = .ok d ∧
      (d = .variable target ∧ m' = m ∨
        d ≠ .variable target ∧ ∃ ls served, m.heap.cell target = .ok (.unbound ls) ∧
          (ls.filterMap Listener.control?).foldlM
            (serveControl fun m control => bindWithin n m control .unit)
            (.ok (m.withBound target x)) = .ok (.ok served) ∧
          m' = { served with
            scheduler := served.scheduler.wake (ls.filterMap Listener.thread?) }) := by
  unfold bindWithin at hb
  obtain ⟨t, ht, hb⟩ := bind_eq_ok.mp hb
  rcases t.value_or_variable with htv | ⟨target, rfl⟩
  · cases t <;> simp_all [Node.asVariable?]
  · obtain ⟨d, hd, hb⟩ := bind_eq_ok.mp hb
    refine ⟨target, d, ht, hd, ?_⟩
    by_cases hdt : d = .variable target
    · simp only [hdt, ↓reduceIte, pure_eq_ok, Except.ok.injEq] at hb
      exact .inl ⟨hdt, hb.symm⟩
    · simp only [hdt, ↓reduceIte] at hb
      obtain ⟨c, hc, hb⟩ := bind_eq_ok.mp hb
      cases c with
      | bound y => cases hb
      | unbound ls =>
        obtain ⟨served, hs, hb⟩ := bind_eq_ok.mp hb
        cases served with
        | error e => simp [Except.map] at hb
        | ok served =>
          simp only [Except.map, pure_eq_ok, Except.ok.injEq] at hb
          exact .inr ⟨hdt, ls, served, hc, hs, hb.symm⟩

theorem serveControl_refused {bindUnit : Machine → VarRef → Except Fault (Except Refusal Machine)}
    (e : Refusal) (cs : List VarRef) :
    cs.foldlM (serveControl bindUnit) (.error e) = .ok (.error e) := by
  induction cs with
  | nil => rfl
  | cons c cs ih => simpa [serveControl, pure, Except.pure] using ih

/-- All ways in which the controls of a list are served: the first one has a value or is bound,
    then the others are served. -/
theorem serveControl_cases {bindUnit : Machine → VarRef → Except Fault (Except Refusal Machine)}
    {c : VarRef} {cs : List VarRef} {m m' : Machine}
    (hs : (c :: cs).foldlM (serveControl bindUnit) (.ok m) = .ok (.ok m')) :
    ∃ next, cs.foldlM (serveControl bindUnit) (.ok next) = .ok (.ok m') ∧
      (m.heap.isDetermined (.variable c) = .ok true ∧ next = m ∨
        bindUnit m c = .ok (.ok next)) := by
  rw [List.foldlM_cons] at hs
  obtain ⟨first, h1, hs⟩ := bind_eq_ok.mp hs
  cases first with
  | error e => rw [serveControl_refused] at hs; cases hs
  | ok next =>
    refine ⟨next, hs, ?_⟩
    simp only [serveControl] at h1
    obtain ⟨det, hdet, h1⟩ := bind_eq_ok.mp h1
    cases det with
    | true =>
      simp only [↓reduceIte, pure_eq_ok, Except.ok.injEq] at h1
      exact .inl ⟨hdet, h1.symm⟩
    | false => exact .inr h1

/-- A bind is made of two kinds of steps: it writes a value into an unbound cell, and it wakes
    threads. A relation that allows for both allows for the bind. -/
theorem bindWithin_induct {R : Machine → Machine → Prop} (hrefl : ∀ m, R m m)
    (htrans : ∀ {m₁ m₂ m₃ : Machine}, R m₁ m₂ → R m₂ m₃ → R m₁ m₃)
    (hwrite : ∀ {m : Machine} {v : VarRef} {ls : List Listener} (x : Node),
      m.heap.cell v = .ok (.unbound ls) → R m (m.withBound v x))
    (hwake : ∀ (m : Machine) (ids : List ThreadId),
      R m { m with scheduler := m.scheduler.wake ids }) {n : Nat} {m m' : Machine} {v : VarRef}
    {x : Node} (hb : bindWithin n m v x = .ok (.ok m')) : R m m' := by
  -- by induction on the depth to which binds nest, and there on the list of controls
  induction n generalizing m m' v x with
  | zero => cases hb
  | succ n ih =>
    have hserved : ∀ (cs : List VarRef) {m m' : Machine},
        cs.foldlM (serveControl fun m control => bindWithin n m control .unit) (.ok m) =
          .ok (.ok m') → R m m' := by
      intro cs
      induction cs with
      | nil =>
        intro m m' hs
        cases hs
        exact hrefl m
      | cons c cs ihs =>
        intro m m' hs
        obtain ⟨next, hrest, ⟨-, rfl⟩ | hnext⟩ := serveControl_cases hs
        · exact ihs hrest
        · exact htrans (ih hnext) (ihs hrest)
    obtain ⟨target, d, -, -, ⟨-, rfl⟩ | ⟨-, ls, served, hcell, hs, rfl⟩⟩ := bindWithin_cases hb
    · exact hrefl m'
    · exact htrans (hwrite x hcell) (htrans (hserved _ hs) (hwake served _))

/-- A bind leaves the records. -/
theorem records_of_bind {m m' : Machine} {v : VarRef} {x : Node}
    (hb : m.bind v x = .ok (.ok m')) : m'.heap.records = m.heap.records :=
  bindWithin_induct (R := fun m m' => m'.heap.records = m.heap.records) (fun _ => rfl)
    (fun h₁ h₂ => h₂.trans h₁) (fun _ _ => rfl) (fun _ _ => rfl) hb

/-- After a bind the variable stands for what it was bound to. -/
theorem Cascade.deref_eq {m m' : Machine} {ids : List ThreadId} (hc : Cascade m m' ids)
    {v target : VarRef} {x : Node} (hv : m.heap.deref (.variable v) = .ok (.variable target))
    (ht : m'.heap.cell target = .ok (.bound x)) :
    m'.heap.deref (.variable v) = m'.heap.deref x := by
  rw [hc.grows.deref hv, Heap.deref_bound ht]

/-- One bind and its nested ones, taken together. -/
theorem Cascade.of_served {m served : Machine} {target : VarRef} {x d : Node} {ls : List Listener}
    {ids : List ThreadId} (hnd : (m.scheduler.threads.map Thread.id).Nodup)
    (hcell : m.heap.cell target = .ok (.unbound ls)) (hd : m.heap.deref x = .ok d)
    (hne : d ≠ .variable target) (hc : Cascade (m.withBound target x) served ids)
    (hdet : ∀ c ∈ ls.filterMap Listener.control?,
      served.heap.isDetermined (.variable c) = .ok true) :
    Cascade m
      { served with scheduler := served.scheduler.wake (ls.filterMap Listener.thread?) }
      (ids ++ ls.filterMap Listener.thread?) := by
  have hlt := Heap.lt_of_cell hcell
  -- the first bind wrote one cell, and the nested ones kept it; all other cells are as the nested
  -- binds left them
  have hself : served.heap.cell target = .ok (.bound x) :=
    hc.grows.bound (Heap.cell_setCell_self _ hlt)
  have hother : ∀ {w : VarRef} {c : Cell}, w ≠ target → m.heap.cell w = .ok c →
      (m.withBound target x).heap.cell w = .ok c := by
    intro w c hw hwc
    rw [withBound, Heap.cell_setCell_ne _ hw]
    exact hwc
  have hback : ∀ {w : VarRef} {c : Cell}, w ≠ target →
      (m.withBound target x).heap.cell w = .ok c → m.heap.cell w = .ok c := by
    intro w c hw hwc
    rwa [withBound, Heap.cell_setCell_ne _ hw] at hwc
  obtain ⟨hwoken, hspawned⟩ := Scheduler.wake_threads (hc.nodup hnd) (ls.filterMap Listener.thread?)
  refine
    { rest := ?_, size := ?_, kept := ?_, served := ?_, grounded := ?_, threads := ?_
      spawned := hspawned.trans hc.spawned, woken := ?_ }
  · have hrest := hc.rest
    rw [hrest]
    rfl
  · have hsize := hc.size
    simpa [withBound, Heap.setCell] using hsize
  · intro w c hw
    by_cases hwt : w = target
    · subst hwt
      rw [hcell] at hw
      cases hw
      exact .inr ⟨ls, x, rfl, hself⟩
    · exact hc.kept (hother hwt hw)
  · intro w ks y c hw hw' hl
    by_cases hwt : w = target
    · subst hwt
      rw [hcell] at hw
      cases hw
      exact hdet c (List.mem_filterMap.mpr ⟨_, hl, rfl⟩)
    · exact hc.served (hother hwt hw) hw' hl
  · intro hg
    exact hc.grounded (hg.setCell_bound hcell hd hne)
  · rw [hwoken, hc.threads, List.map_map]
    refine List.map_congr_left fun t _ => ?_
    exact Thread.wakeIf_wakeIf _ _ t
  · intro id
    rw [List.mem_append, hc.woken, mem_threads]
    constructor
    · rintro (⟨w, ks, y, hw, hw', hl⟩ | hl)
      -- the nested binds did not bind the target, as it had its value before them
      · have hwt : w ≠ target := by
          rintro rfl
          rw [withBound, Heap.cell_setCell_self _ hlt] at hw
          cases hw
        exact ⟨w, ks, y, hback hwt hw, hw', hl⟩
      · exact ⟨target, ls, x, hcell, hself, hl⟩
    · rintro ⟨w, ks, y, hw, hw', hl⟩
      by_cases hwt : w = target
      · subst hwt
        rw [hcell] at hw
        cases hw
        exact .inr hl
      · exact .inl ⟨w, ks, y, hother hwt hw, hw', hl⟩

/-- Serving a list of controls is a chain of cascades that leaves each of them with a value. -/
theorem cascade_of_serveControl
    {bindUnit : Machine → VarRef → Except Fault (Except Refusal Machine)}
    (hbind : ∀ {m m' : Machine} {c : VarRef}, (m.scheduler.threads.map Thread.id).Nodup →
      bindUnit m c = .ok (.ok m') →
      ∃ ids, Cascade m m' ids ∧ m'.heap.deref (.variable c) = m'.heap.deref .unit)
    (cs : List VarRef) {m m' : Machine} (hnd : (m.scheduler.threads.map Thread.id).Nodup)
    (hs : cs.foldlM (serveControl bindUnit) (.ok m) = .ok (.ok m')) :
    ∃ ids, Cascade m m' ids ∧ ∀ c ∈ cs, m'.heap.isDetermined (.variable c) = .ok true := by
  induction cs generalizing m with
  | nil =>
    cases hs
    exact ⟨[], Cascade.refl _, nofun⟩
  | cons c cs ih =>
    obtain ⟨next, hrest, ⟨hdet, rfl⟩ | hnext⟩ := serveControl_cases hs
    · -- the control has a value already, and a cascade does not take it away
      obtain ⟨ids, hc, hall⟩ := ih hnd hrest
      refine ⟨ids, hc, fun c' hc' => ?_⟩
      rcases List.mem_cons.mp hc' with rfl | hc'
      · exact hc.grows.isDetermined hdet
      · exact hall c' hc'
    · obtain ⟨ids₁, hc₁, hval⟩ := hbind hnd hnext
      obtain ⟨ids₂, hc₂, hall⟩ := ih (hc₁.nodup hnd) hrest
      refine ⟨ids₁ ++ ids₂, hc₁.trans hc₂, fun c' hc' => ?_⟩
      rcases List.mem_cons.mp hc' with rfl | hc'
      · have hunit : next.heap.deref (.variable c') = .ok .unit := by
          rw [hval, Heap.deref_of_value rfl]
        exact hc₂.grows.isDetermined (Heap.isDetermined_eq hunit)
      · exact hall c' hc'

/-- A bind that succeeds is a cascade, and gives the variable its value. -/
theorem cascade_of_bindWithin {n : Nat} {m m' : Machine} {v : VarRef} {x : Node}
    (hnd : (m.scheduler.threads.map Thread.id).Nodup)
    (hb : bindWithin n m v x = .ok (.ok m')) :
    ∃ ids, Cascade m m' ids ∧ m'.heap.deref (.variable v) = m'.heap.deref x := by
  -- by induction on the depth to which binds nest: those of the controls are one level deeper
  induction n generalizing m m' v x with
  | zero => cases hb
  | succ n ih =>
    obtain ⟨target, d, hv, hd, ⟨rfl, rfl⟩ | ⟨hne, ls, served, hcell, hs, rfl⟩⟩ :=
      bindWithin_cases hb
    · exact ⟨[], Cascade.refl _, by rw [hv, hd]⟩
    · obtain ⟨ids, hc, hdet⟩ :=
        cascade_of_serveControl (fun hnd hb => ih hnd hb) _ (by simpa [withBound] using hnd) hs
      have hcasc := Cascade.of_served hnd hcell hd hne hc hdet
      refine ⟨_, hcasc, hcasc.deref_eq hv ?_⟩
      exact hc.grows.bound (Heap.cell_setCell_self _ (Heap.lt_of_cell hcell))

theorem cascade_of_bind {m m' : Machine} {v : VarRef} {x : Node}
    (hnd : (m.scheduler.threads.map Thread.id).Nodup) (hb : m.bind v x = .ok (.ok m')) :
    ∃ ids, Cascade m m' ids ∧ m'.heap.deref (.variable v) = m'.heap.deref x :=
  cascade_of_bindWithin hnd hb

end Machine

end Dataflow
