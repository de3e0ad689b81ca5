import Dataflow.Proofs.Serving
import Dataflow.Proofs.Queue
import Dataflow.Proofs.Wakeup

/-! # A bind happens as a whole or not at all

  A bind writes its cell first, then binds one control after the other, and wakes threads at the
  end. If one of the nested binds were refused, the bind would stop half way: the cell would keep
  its value, and the listeners behind the refused control would never be served.
  `Machine.bindInPlace` is a bind that shows this, as it keeps the machine that a refusal leaves
  behind. The two binds agree, with the machine at entry in place of what is left behind, because
  no nested bind is ever refused.

  The threads that a bind wakes are added to the ready queue, each of them once, and these are the
  waiting threads that are listed in a cell that the bind has written.
-/

open Relation (TransGen)

namespace Dataflow

/-! ### Binding in place -/

namespace Machine

/-- Serves controls in place: at the first one that is refused the others are left out, and the
    machine stays as it has become by then. -/
def serveInPlace (bindUnit : Machine → VarRef → Except Fault (Except Refusal Unit × Machine)) :
    List VarRef → Machine → Except Fault (Except Refusal Unit × Machine)
  | [], m => .ok (.ok (), m)
  | c :: cs, m => do
    if ← m.isDetermined (.variable c) then serveInPlace bindUnit cs m
    else
      match ← bindUnit m c with
      | (.error e, m) => return (.error e, m)
      | (.ok (), m) => serveInPlace bindUnit cs m

/-- Binds a variable in place, with at most `n - 1` binds nested in each other. -/
def bindInPlaceWithin : Nat → Machine → VarRef → Node →
    Except Fault (Except Refusal Unit × Machine)
  | 0, _, _, _ => .error .endless
  | n + 1, m, v, value => do
    match ← m.deref (.variable v) with
    | .variable target =>
      if (← m.deref value) = .variable target then return (.ok (), m)
      else
        match ← m.heap.cell target with
        | .bound _ => throw (.derefBound target)
        | .unbound listeners =>
          match ← serveInPlace (fun m control => bindInPlaceWithin n m control .unit)
            (listeners.filterMap Listener.control?) (m.withBound target value) with
          -- nobody is woken after a refusal
          | (.error e, m) => return (.error e, m)
          | (.ok (), m) =>
            return (.ok (), { m with
              scheduler := m.scheduler.wake (listeners.filterMap Listener.thread?) })
    | _ => return (.error (.alreadyBound v), m)

/-- Binds a variable in place. -/
def bindInPlace (m : Machine) (v : VarRef) (value : Node) :
    Except Fault (Except Refusal Unit × Machine) :=
  bindInPlaceWithin (m.heap.variableCount + 1) m v value

/-- The result of an operation that leaves the machine `m` if it is refused. -/
def orElseKeep (m : Machine) : Except Refusal Machine → Except Refusal Unit × Machine
  | .ok m' => (.ok (), m')
  | .error e => (.error e, m)

variable {m m' : Machine}

/-! ### Nested binds are not refused -/

theorem deref_of_not_determined {n : Node} (hn : m.isDetermined n = .ok false) :
    ∃ u, m.heap.deref n = .ok (.variable u) := by
  obtain ⟨d, hd, -⟩ := bind_eq_ok.mp hn
  have hnone : m.isDetermined n = .ok d.asVariable?.isNone := Heap.isDetermined_eq hd
  rcases d.value_or_variable with hv | ⟨u, rfl⟩
  · rw [hn, hv] at hnone
    cases hnone
  · exact ⟨u, hd⟩

/-- Serving is not refused if no bind of a free control is. -/
theorem serveControl_not_refused
    {bindUnit : Machine → VarRef → Except Fault (Except Refusal Machine)}
    (hbind : ∀ {m : Machine} {c u : VarRef} (e : Refusal),
      m.heap.deref (.variable c) = .ok (.variable u) → bindUnit m c ≠ .ok (.error e))
    (cs : List VarRef) (m : Machine) (e : Refusal) :
    cs.foldlM (serveControl bindUnit) (.ok m) ≠ .ok (.error e) := by
  induction cs generalizing m with
  | nil => nofun
  | cons c cs ih =>
    intro hs
    rw [List.foldlM_cons] at hs
    obtain ⟨first, hfirst, hs⟩ := bind_eq_ok.mp hs
    simp only [serveControl] at hfirst
    obtain ⟨det, hdet, hfirst⟩ := bind_eq_ok.mp hfirst
    cases det with
    | true =>
      cases hfirst
      exact ih m hs
    | false =>
      obtain ⟨u, hu⟩ := deref_of_not_determined hdet
      cases first with
      | error e' => exact hbind e' hu hfirst
      | ok next => exact ih next hs

/-- The bind of a free variable is not refused. -/
theorem bindWithin_not_refused {n : Nat} {v u : VarRef} {x : Node} (e : Refusal)
    (hv : m.heap.deref (.variable v) = .ok (.variable u)) :
    bindWithin n m v x ≠ .ok (.error e) := by
  -- by induction on the depth to which binds nest: those that are nested are of free controls
  induction n generalizing m v u x e with
  | zero => nofun
  | succ n ih =>
    intro hb
    have hv' : m.deref (.variable v) = .ok (.variable u) := hv
    rw [bindWithin, hv', ok_bind] at hb
    obtain ⟨d, hd, hb⟩ := bind_eq_ok.mp hb
    by_cases hdu : d = .variable u
    · rw [if_pos hdu] at hb
      cases hb
    · obtain ⟨ls, hcell⟩ := Heap.cell_of_deref hv
      rw [if_neg hdu, hcell, ok_bind] at hb
      obtain ⟨served, hserved, hb⟩ := bind_eq_ok.mp hb
      cases served with
      | error e' => exact serveControl_not_refused (fun e hc => ih e hc) _ _ e' hserved
      | ok served => cases hb

/-- Serving in place leaves what serving gives; as it is not refused, it does not matter what a
    refusal would leave. -/
theorem serveInPlace_eq
    {bindUnit : Machine → VarRef → Except Fault (Except Refusal Machine)}
    {inPlace : Machine → VarRef → Except Fault (Except Refusal Unit × Machine)}
    (hbind : ∀ {m : Machine} {c u : VarRef} (e : Refusal),
      m.heap.deref (.variable c) = .ok (.variable u) → bindUnit m c ≠ .ok (.error e))
    (heq : ∀ m c, inPlace m c = (bindUnit m c).map m.orElseKeep) (cs : List VarRef)
    (kept m : Machine) :
    serveInPlace inPlace cs m =
      (cs.foldlM (serveControl bindUnit) (.ok m)).map kept.orElseKeep := by
  induction cs generalizing m with
  | nil => rfl
  | cons c cs ih =>
    rw [serveInPlace, List.foldlM_cons]
    simp only [serveControl]
    cases hdet : m.isDetermined (.variable c) with
    | error f => rfl
    | ok det =>
      cases det with
      | true => exact ih m
      | false =>
        simp only [ok_bind, Bool.false_eq_true, ↓reduceIte, heq]
        obtain ⟨u, hu⟩ := deref_of_not_determined hdet
        cases hb : bindUnit m c with
        | error f => rfl
        | ok r =>
          cases r with
          | error e => exact absurd hb (hbind e hu)
          | ok next => exact ih next

/-- A bind in place does what the bind does, and leaves the machine as it was if it is refused. -/
theorem bindInPlaceWithin_eq (n : Nat) (m : Machine) (v : VarRef) (x : Node) :
    bindInPlaceWithin n m v x = (bindWithin n m v x).map m.orElseKeep := by
  -- on the depth to which binds may nest
  induction n generalizing m v x with
  | zero => rfl
  | succ n ih =>
    rw [bindInPlaceWithin, bindWithin]
    cases hv : m.deref (.variable v) with
    | error f => rfl
    | ok t =>
      simp only [ok_bind]
      cases t with
      | «variable» target =>
        dsimp only
        cases hx : m.deref x with
        | error f => rfl
        | ok d =>
          simp only [ok_bind]
          by_cases hd : d = .variable target
          · rw [if_pos hd, if_pos hd]
            rfl
          · rw [if_neg hd, if_neg hd]
            obtain ⟨ls, hcell⟩ := Heap.cell_of_deref hv
            have hserve := serveInPlace_eq (fun e hc => bindWithin_not_refused e hc)
              (fun m c => ih m c .unit) (ls.filterMap Listener.control?) m (m.withBound target x)
            simp only [hcell, ok_bind, hserve]
            rw [← withBound]
            cases hs : (ls.filterMap Listener.control?).foldlM
                (serveControl fun m control => bindWithin n m control .unit)
                (.ok (m.withBound target x)) with
            | error f => rfl
            | ok served =>
              cases served with
              | error e =>
                -- a refusal here would leave a written cell behind, but there is none
                exact absurd hs (serveControl_not_refused
                  (fun e hc => bindWithin_not_refused e hc) _ _ e)
              | ok served => rfl
      | _ => rfl

theorem bindInPlace_eq (m : Machine) (v : VarRef) (x : Node) :
    m.bindInPlace v x = (m.bind v x).map m.orElseKeep :=
  bindInPlaceWithin_eq _ m v x

/-! ### Calls of bind -/

/-- A call of bind, with the depth to which binds may nest in it. -/
structure BindCall where
  depth : Nat
  machine : Machine
  var : VarRef
  value : Node

/-- What becomes of the call. -/
def BindCall.result (call : BindCall) : Except Fault (Except Refusal Machine) :=
  bindWithin call.depth call.machine call.var call.value

/-- The first call makes the second: it has written its cell, has served the controls `before`, and
    finds that the next one has no value. -/
inductive BindCall.Makes : BindCall → BindCall → Prop where
  | control {n : Nat} {m served : Machine} {v target c : VarRef} {x d : Node} {ls : List Listener}
      {before after : List VarRef} :
      m.heap.deref (.variable v) = .ok (.variable target) → m.heap.deref x = .ok d →
      d ≠ .variable target → m.heap.cell target = .ok (.unbound ls) →
      ls.filterMap Listener.control? = before ++ c :: after →
      before.foldlM (serveControl fun m control => bindWithin n m control .unit)
        (.ok (m.withBound target x)) = .ok (.ok served) →
      served.isDetermined (.variable c) = .ok false →
      Makes ⟨n + 1, m, v, x⟩ ⟨n, served, c, .unit⟩

/-- The calls that a successful one makes succeed. -/
theorem BindCall.Makes.result {call inner : BindCall} (hmakes : call.Makes inner) {m' : Machine}
    (hr : call.result = .ok (.ok m')) : ∃ after, inner.result = .ok (.ok after) := by
  cases hmakes with
  | @control n m served v target c x d ls before after hv hx hne hcell hcs hbefore hdet =>
    unfold BindCall.result at hr ⊢
    dsimp only at hr ⊢
    rw [bindWithin_unbound hv hx hne hcell, hcs, List.foldlM_append, hbefore] at hr
    obtain ⟨all, hall, hr⟩ := bind_eq_ok.mp hr
    rw [ok_bind, List.foldlM_cons] at hall
    simp only [serveControl, hdet, ok_bind, Bool.false_eq_true, ↓reduceIte] at hall
    obtain ⟨next, hnext, hall⟩ := bind_eq_ok.mp hall
    cases next with
    | error e =>
      obtain ⟨u, hu⟩ := deref_of_not_determined hdet
      exact absurd hnext (bindWithin_not_refused e hu)
    | ok next => exact ⟨next, hnext⟩

/-- The calls that are made in the course of a successful one succeed. -/
theorem BindCall.result_of_transGen {call inner : BindCall} (hmakes : TransGen Makes call inner)
    {m' : Machine} (hr : call.result = .ok (.ok m')) : ∃ after, inner.result = .ok (.ok after) := by
  induction hmakes with
  | single h => exact h.result hr
  | tail _ h ih =>
    obtain ⟨after, hafter⟩ := ih
    exact h.result hafter

end Machine

/-! ### The threads that a bind wakes -/

namespace Scheduler

variable {s s' s'' : Scheduler} {woken woken' : List ThreadId}

/-- The threads that wait, in the order of the table. -/
def waiting (s : Scheduler) : List ThreadId :=
  (s.threads.filter (·.state.isWaiting)).map Thread.id

theorem mem_waiting {id : ThreadId} :
    id ∈ s.waiting ↔ ∃ t ∈ s.threads, t.id = id ∧ t.state.isWaiting = true := by
  unfold waiting
  rw [List.mem_map]
  constructor
  · rintro ⟨t, ht, hid⟩
    exact ⟨t, (List.mem_filter.mp ht).1, hid, (List.mem_filter.mp ht).2⟩
  · rintro ⟨t, ht, hid, hw⟩
    exact ⟨t, List.mem_filter.mpr ⟨ht, hw⟩, hid⟩

/-- The threads `woken` stop waiting, in this order, and each of them gets an entry at the end of
    the queue. -/
structure Rouses (s s' : Scheduler) (woken : List ThreadId) : Prop where
  ready : s'.ready = s.ready ++ woken
  waiting : s.waiting.Perm (woken ++ s'.waiting)
  ids : s'.threads.map Thread.id = s.threads.map Thread.id

theorem Rouses.refl (s : Scheduler) : s.Rouses s [] := ⟨by simp, .refl _, rfl⟩

theorem Rouses.trans (h₁ : s.Rouses s' woken) (h₂ : s'.Rouses s'' woken') :
    s.Rouses s'' (woken ++ woken') where
  ready := by rw [h₂.ready, h₁.ready, List.append_assoc]
  waiting := by
    rw [List.append_assoc]
    exact h₁.waiting.trans (h₂.waiting.append_left woken)
  ids := h₂.ids.trans h₁.ids

/-- A thread is taken from those that wait. -/
theorem waiting_update (hnd : (s.threads.map Thread.id).Nodup) {t : Thread} (ht : t ∈ s.threads)
    (hw : t.state.isWaiting = true) :
    s.waiting.Perm (t.id :: (s.update { t with state := .runnable }).waiting) := by
  obtain ⟨before, after, hsplit⟩ := List.append_of_mem ht
  have hother : ∀ u ∈ before ++ after, u.id ≠ t.id := by
    intro u hu hid
    rw [hsplit, List.map_append, List.map_cons, List.nodup_middle, List.nodup_cons,
      ← List.map_append] at hnd
    exact hnd.1 (hid ▸ List.mem_map_of_mem hu)
  have hkept : ∀ us : List Thread, (∀ u ∈ us, u.id ≠ t.id) →
      us.map (fun u => if u.id = t.id then { t with state := .runnable } else u) = us := by
    intro us hus
    have hsame : us.map (fun u => if u.id = t.id then { t with state := .runnable } else u) =
        us.map fun u => u := List.map_congr_left fun u hu => if_neg (hus u hu)
    rw [hsame, List.map_id']
  have hbefore := hkept before fun u hu => hother u (List.mem_append_left _ hu)
  have hafter := hkept after fun u hu => hother u (List.mem_append_right _ hu)
  unfold Scheduler.waiting update
  rw [hsplit]
  simp only [List.map_append, List.map_cons, hbefore, hafter, ↓reduceIte, List.filter_append,
    List.filter_cons, hw, ThreadState.isWaiting_runnable, Bool.false_eq_true]
  exact List.perm_middle

theorem rouses_wakeOne (hnd : (s.threads.map Thread.id).Nodup) (id : ThreadId) :
    ∃ woken, s.Rouses (s.wakeOne id) woken := by
  rcases wakeOne_cases s id with he | ⟨t, ht, rfl, hw, he⟩
  · rw [he]
    exact ⟨[], .refl s⟩
  · rw [he]
    exact ⟨[t.id], rfl, waiting_update hnd ht hw, Waits.map_id_update⟩

theorem rouses_wake (hnd : (s.threads.map Thread.id).Nodup) (ids : List ThreadId) :
    ∃ woken, s.Rouses (s.wake ids) woken := by
  induction ids generalizing s with
  | nil => exact ⟨[], .refl s⟩
  | cons id ids ih =>
    obtain ⟨one, h₁⟩ := rouses_wakeOne hnd id
    obtain ⟨others, h₂⟩ := ih (h₁.ids ▸ hnd)
    exact ⟨one ++ others, h₁.trans h₂⟩

/-- No thread is roused twice, and those are roused that wait no more. -/
theorem Rouses.nodup (hr : s.Rouses s' woken) (hnd : (s.threads.map Thread.id).Nodup) :
    woken.Nodup ∧ ∀ id, id ∈ woken ↔ id ∈ s.waiting ∧ id ∉ s'.waiting := by
  have hwaiting : s.waiting.Nodup := hnd.sublist (List.filter_sublist.map Thread.id)
  have happend := (hr.waiting.nodup_iff.mp hwaiting)
  obtain ⟨hwoken, -, hdisjoint⟩ := List.nodup_append'.mp happend
  refine ⟨hwoken, fun id => ?_⟩
  rw [hr.waiting.mem_iff, List.mem_append]
  constructor
  · intro hid
    exact ⟨.inl hid, fun hid' => hdisjoint hid hid'⟩
  · rintro ⟨hid | hid, hnot⟩
    · exact hid
    · exact absurd hid hnot

end Scheduler

namespace Machine

variable {m m' : Machine}

/-- A bind puts the threads that it wakes at the end of the queue. -/
theorem rouses_of_bind (hnd : (m.scheduler.threads.map Thread.id).Nodup) {v : VarRef} {x : Node}
    (hb : m.bind v x = .ok (.ok m')) : ∃ woken, m.scheduler.Rouses m'.scheduler woken := by
  refine bindWithin_induct (R := fun m m' => (m.scheduler.threads.map Thread.id).Nodup →
    ∃ woken, m.scheduler.Rouses m'.scheduler woken) ?_ ?_ ?_ ?_ hb hnd
  · exact fun m _ => ⟨[], .refl _⟩
  · intro m₁ m₂ m₃ h₁ h₂ hnd
    obtain ⟨first, hr₁⟩ := h₁ hnd
    obtain ⟨second, hr₂⟩ := h₂ (hr₁.ids ▸ hnd)
    exact ⟨first ++ second, hr₁.trans hr₂⟩
  · exact fun _ _ _ => ⟨[], .refl _⟩
  · exact fun m ids hnd => Scheduler.rouses_wake hnd ids

/-! ### All or nothing -/

/-- The variable had these listeners, and has been bound. -/
def BoundSince (m m' : Machine) (w : VarRef) (ls : List Listener) : Prop :=
  m.heap.cell w = .ok (.unbound ls) ∧ ∃ y, m'.heap.cell w = .ok (.bound y)

/-- Nobody who listened to a variable that has been bound was forgotten, and nobody else was
    served. -/
structure ServesAll (m m' : Machine) (woken : List ThreadId) : Prop where
  /-- Every control that listened to such a variable has a value. -/
  controls {w c : VarRef} {ls : List Listener} : BoundSince m m' w ls → .control c ∈ ls →
    m'.isDetermined (.variable c) = .ok true
  /-- The threads that were woken are runnable and at the end of the queue. Nothing else about the
      threads and the queue has changed. -/
  scheduler : m'.scheduler = { m.scheduler with
    ready := m.scheduler.ready ++ woken
    threads := m.scheduler.threads.map fun t =>
      if t.id ∈ woken then { t with state := .runnable } else t }
  /-- Nobody is woken twice. -/
  once : woken.Nodup
  /-- Those are woken who waited and listened to such a variable. -/
  listed {id : ThreadId} : id ∈ woken ↔
    id ∈ m.scheduler.waiting ∧ ∃ w ls, BoundSince m m' w ls ∧ .thread id ∈ ls

/-- Among the threads that waited, those that a cascade wakes wait no more. -/
theorem Cascade.mem_waiting {ids : List ThreadId} (hc : Cascade m m' ids) {id : ThreadId}
    (hid : id ∈ m.scheduler.waiting) : id ∉ m'.scheduler.waiting ↔ id ∈ ids := by
  constructor
  · intro hnot
    by_contra hids
    obtain ⟨t, ht, rfl, hw⟩ := Scheduler.mem_waiting.mp hid
    refine hnot (Scheduler.mem_waiting.mpr ⟨t, ?_, rfl, hw⟩)
    rw [hc.threads]
    exact List.mem_map.mpr ⟨t, ht, Thread.wakeIf_of_not_mem hids⟩
  · intro hids hwaits
    obtain ⟨t', ht', rfl, hw⟩ := Scheduler.mem_waiting.mp hwaits
    rw [hc.threads] at ht'
    obtain ⟨t, -, rfl⟩ := List.mem_map.mp ht'
    cases hs : (t.wakeIf ids).state with
    | waiting u =>
      obtain ⟨-, hnot⟩ := Thread.wakeIf_waiting hs
      rw [Thread.wakeIf_id] at hids
      exact hnot hids
    | _ => rw [hs] at hw; cases hw

theorem servesAll_of_bind (hnd : (m.scheduler.threads.map Thread.id).Nodup) {v : VarRef} {x : Node}
    (hb : m.bind v x = .ok (.ok m')) : ∃ woken, m.ServesAll m' woken := by
  obtain ⟨ids, hc, -⟩ := cascade_of_bind hnd hb
  obtain ⟨woken, hr⟩ := rouses_of_bind hnd hb
  obtain ⟨honce, hmem⟩ := hr.nodup hnd
  have hwoken : ∀ id, id ∈ woken ↔ id ∈ m.scheduler.waiting ∧ id ∈ ids := by
    intro id
    rw [hmem]
    exact and_congr_right fun hid => hc.mem_waiting hid
  refine ⟨woken, ?_, ?_, honce, ?_⟩
  · rintro w c ls ⟨hw, y, hw'⟩ hl
    exact hc.served hw hw' hl
  · have hthreads : m'.scheduler.threads = m.scheduler.threads.map fun t =>
        if t.id ∈ woken then { t with state := .runnable } else t := by
      rw [hc.threads]
      refine List.map_congr_left fun t ht => ?_
      -- a thread of the table waits exactly if its number is among those of the waiting threads
      have hwaits : t.id ∈ m.scheduler.waiting ↔ t.state.isWaiting = true := by
        rw [Scheduler.mem_waiting]
        constructor
        · rintro ⟨u, hu, hid, hw⟩
          rwa [Scheduler.eq_of_id hnd hu ht hid] at hw
        · exact fun hw => ⟨t, ht, rfl, hw⟩
      unfold Thread.wakeIf
      simp only [hwoken, hwaits]
    rw [← hthreads, ← hr.ready]
    dsimp only
    rw [← hc.spawned]
  · intro id
    rw [hwoken, hc.woken]
    refine and_congr_right fun _ => ⟨?_, ?_⟩
    · rintro ⟨w, ls, y, hw, hw', hl⟩
      exact ⟨w, ls, ⟨hw, y, hw'⟩, hl⟩
    · rintro ⟨w, ls, ⟨hw, y, hw'⟩, hl⟩
      exact ⟨w, ls, y, hw, hw', hl⟩

/-- After a bind its variable and its value stand for the same. -/
theorem deref_of_bind (hs : m.Steady) {v : VarRef} {x : Node} (hx : m.heap.InRange x)
    (hb : m.bind v x = .ok (.ok m')) :
    ∃ d, m'.deref (.variable v) = .ok d ∧ m'.deref x = .ok d := by
  obtain ⟨ids, hc, heq⟩ := cascade_of_bind hs.nodup hb
  obtain ⟨d, hd⟩ := Heap.Grounded.deref (hs.cascade hc).grounded (n := x) fun w hw => by
    obtain ⟨cell, hcell⟩ := Heap.cell_of_inRange (hw ▸ hx)
    rcases hc.kept hcell with hcell' | ⟨_, y, -, hcell'⟩
    · exact ⟨_, hcell'⟩
    · exact ⟨_, hcell'⟩
  exact ⟨d, heq.trans hd, hd⟩

/-- A bind of a reachable machine is refused if its variable has a value, and then nothing has
    changed. Otherwise it succeeds, and so does every bind that is nested in it: the variable stands
    for its value, all listeners of the variables that were bound are served, and each waiting
    thread among them has one entry in the queue. Nothing changes if the variable is bound to
    itself. -/
theorem Reachable.bind_atomic (hm : Reachable m) {v : VarRef} {x : Node}
    (hv : m.heap.InRange (.variable v)) (hx : m.heap.InRange x) :
    (m.isDetermined (.variable v) = .ok true ∧ m.bind v x = .ok (.error (.alreadyBound v)) ∧
      m.bindInPlace v x = .ok (.error (.alreadyBound v), m)) ∨
    (m.isDetermined (.variable v) = .ok false ∧ ∃ m' woken,
      m.bind v x = .ok (.ok m') ∧ m.bindInPlace v x = .ok (.ok (), m') ∧
      (∀ inner, TransGen BindCall.Makes ⟨m.heap.variableCount + 1, m, v, x⟩ inner →
        ∃ after, inner.result = .ok (.ok after)) ∧
      (∃ d, m'.deref (.variable v) = .ok d ∧ m'.deref x = .ok d) ∧
      m.ServesAll m' woken ∧ (∀ id ∈ woken, m'.scheduler.ready.count id = 1) ∧
      (m.deref x = m.deref (.variable v) → m' = m)) := by
  have hs : m.Steady := hm.waits.steady
  obtain ⟨d, hd⟩ := hs.deref hv
  obtain ⟨e, he⟩ := hs.deref hx
  have hdet : m.isDetermined (.variable v) = .ok d.asVariable?.isNone := Heap.isDetermined_eq hd
  rcases d.value_or_variable with hvalue | ⟨target, rfl⟩
  · rw [hvalue] at hdet
    have hb : m.bind v x = .ok (.error (.alreadyBound v)) := bind_refused hd hvalue
    refine .inl ⟨hdet, hb, ?_⟩
    rw [bindInPlace_eq, hb]
    rfl
  · obtain ⟨m', hb⟩ := bind_completes hs hd he
    obtain ⟨woken, hserves⟩ := servesAll_of_bind hs.nodup hb
    refine .inr ⟨hdet, m', woken, hb, ?_, ?_, deref_of_bind hs hx hb, hserves, ?_, ?_⟩
    · rw [bindInPlace_eq, hb]
      rfl
    · intro inner hmakes
      exact BindCall.result_of_transGen hmakes hb
    · intro id hid
      -- who waits has no entry before the bind
      obtain ⟨t, ht, rfl, hw⟩ := Scheduler.mem_waiting.mp (hserves.listed.mp hid).1
      have hout : t.id ∉ m.scheduler.ready := by
        refine hm.queued.absent t ht (.inl fun hrun => ?_)
        rw [hrun] at hw
        cases hw
      rw [hserves.scheduler, List.count_append, List.count_eq_zero.mpr hout,
        List.count_eq_one_of_mem hserves.once hid]
    · intro hself
      have hb' : m.bind v x = .ok (.ok m) := bindWithin_self hd (hself.trans hd) _
      rw [hb] at hb'
      cases hb'
      rfl

/-- The bind of a field makes a nested bind of the control that listens to it, which succeeds and
    wakes the thread that waits for the control; a second bind of the field is refused. -/
theorem waitingForAny_bind_atomic : ∃ m' woken inner,
    waitingForAny.bind ⟨0⟩ (.int 5) = .ok (.ok m') ∧
    TransGen BindCall.Makes ⟨4, waitingForAny, ⟨0⟩, .int 5⟩ inner ∧ inner.var = ⟨1⟩ ∧
    (∃ after, inner.result = .ok (.ok after)) ∧ waitingForAny.ServesAll m' woken ∧
    BoundSince waitingForAny m' ⟨1⟩ [.thread ⟨1⟩] ∧ ⟨1⟩ ∈ woken ∧
    m'.scheduler.ready.count ⟨1⟩ = 1 ∧
    m'.bindInPlace ⟨0⟩ (.int 6) = .ok (.error (.alreadyBound ⟨0⟩), m') := by
  have hrange : ∀ {m : Machine} {i : Int}, m.heap.InRange (.int i) := trivial
  have hcontrols : [Listener.control ⟨1⟩].filterMap Listener.control? = [] ++ ⟨1⟩ :: [] := rfl
  have hmakes : BindCall.Makes ⟨4, waitingForAny, ⟨0⟩, .int 5⟩
      ⟨3, waitingForAny.withBound ⟨0⟩ (.int 5), ⟨1⟩, .unit⟩ :=
    .control rfl rfl nofun rfl hcontrols rfl rfl
  rcases reachable_waitingForAny.bind_atomic (v := ⟨0⟩) (x := .int 5) (by decide) hrange with
    ⟨hdet, -⟩ | ⟨-, m', woken, hb, -, hnested, -, hserves, hcount, -⟩
  · cases hdet
  · have hbound : BoundSince waitingForAny m' ⟨1⟩ [.thread ⟨1⟩] := by
      cases hb
      exact ⟨rfl, .unit, rfl⟩
    have hwoken : ⟨1⟩ ∈ woken :=
      hserves.listed.mpr ⟨by decide, ⟨1⟩, _, hbound, List.mem_cons_self ..⟩
    refine ⟨m', woken, _, hb, .single hmakes, rfl, hnested _ (.single hmakes), hserves, hbound,
      hwoken, hcount _ hwoken, ?_⟩
    have hm' : Reachable m' := reachable_waitingForAny.step (.bind ⟨0⟩ (.int 5) hb)
    have hin : m'.heap.InRange (.variable ⟨0⟩) := by
      cases hb
      decide
    rcases hm'.bind_atomic (x := .int 6) hin hrange with ⟨-, -, hrefused⟩ | ⟨hdet, -⟩
    · exact hrefused
    · cases hb
      cases hdet

end Machine

end Dataflow
