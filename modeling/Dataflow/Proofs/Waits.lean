import Dataflow.Proofs.Cascade
import Dataflow.Proofs.Host

/-! # Threads that wait

  A thread that waits for a variable is in the list of that variable, once, and in no other
  list; the variable is unbound; and the call that the thread would make again still awaits it.
  `Waits` is this invariant. A bind that gives the variable its value wakes the thread, and a
  control variable is bound as soon as a variable is that it listens to: so while a thread waits
  for a control variable, all fields of the record are without a value.

  Here the invariant is proved for each change of a machine, for spawning and killing, and for a
  turn of a thread.
-/

open Relation (ReflTransGen)

namespace Dataflow

/-! ### The invariant -/

/-- The threads of the table and the lists of those who wait agree. -/
structure Waits (h : Heap) (threads : List Thread) (spawned : Nat) : Prop where
  /-- Every variable can be dereferenced. -/
  grounded : h.Grounded
  /-- Records have as many features as fields. -/
  balanced : h.Balanced
  /-- Control variables that listen are in the heap. -/
  control : ∀ {v c : VarRef}, h.Listens (.control c) v → ∃ cell, h.cell c = .ok cell
  /-- No two threads have the same number. -/
  nodup : (threads.map Thread.id).Nodup
  /-- The numbers of threads have been given out. -/
  numbered : ∀ t ∈ threads, t.id.number ≤ spawned
  /-- So have the numbers in the lists. -/
  called : ∀ {v : VarRef} {id : ThreadId}, h.Listens (.thread id) v → id.number ≤ spawned
  /-- A list names a thread once. -/
  once : ∀ {v : VarRef} {ls : List Listener}, h.cell v = .ok (.unbound ls) →
    (ls.filterMap Listener.thread?).Nodup
  /-- A thread in a list waits for the variable. -/
  listed : ∀ {v : VarRef}, ∀ t ∈ threads, h.Listens (.thread t.id) v → t.state = .waiting v
  /-- A waiting thread is in the list. -/
  parked : ∀ {v : VarRef}, ∀ t ∈ threads, t.state = .waiting v → h.Listens (.thread t.id) v
  /-- The next call of a waiting thread awaits the variable. -/
  blocked : ∀ {v : VarRef}, ∀ t ∈ threads, t.state = .waiting v → ∃ i operands,
    t.code[t.pc]? = some i ∧ i.inputs.mapM t.register = .ok operands ∧
      h.Awaits i.builtin operands v

theorem waits_new (id : MachineId) (c : Configuration) :
    Waits (Machine.new id c).heap (Machine.new id c).scheduler.threads
      (Machine.new id c).scheduler.spawned := by
  have hcell : ∀ {v : VarRef} {c' : Cell}, (Machine.new id c).heap.cell v ≠ .ok c' := by
    intro v c' hc
    have hlt := Heap.lt_of_cell hc
    simp [Machine.new] at hlt
  have hlistens : ∀ {v : VarRef} {l : Listener}, ¬ (Machine.new id c).heap.Listens l v := by
    rintro v l ⟨ls, hc, -⟩
    exact hcell hc
  exact
    { grounded := fun hc => absurd hc hcell
      balanced := fun {ref r} hr => by
        have hr := Heap.record_eq_ok_iff.mp hr
        simp [Machine.new] at hr
      control := fun hl => absurd hl hlistens
      nodup := List.nodup_nil
      numbered := nofun
      called := fun hl => absurd hl hlistens
      once := fun hc => absurd hc hcell
      listed := nofun
      parked := nofun
      blocked := nofun }

/-! ### What is awaited stays awaited -/

namespace Heap

variable {h h' : Heap}

theorem isDetermined_unbound {v : VarRef} {ls : List Listener} (hc : h.cell v = .ok (.unbound ls)) :
    h.isDetermined (.variable v) = .ok false :=
  isDetermined_eq (deref_unbound hc)

/-- As long as the variable is unbound, a call awaits it, if the controls of variables that were
    bound have a value. -/
theorem Awaits.grows {b : Builtin} {operands : List Node} {v : VarRef} {ls : List Listener}
    (ha : h.Awaits b operands v) (hg : h.Grows h') (hv : h'.cell v = .ok (.unbound ls))
    (hserved : ∀ {w : VarRef} {x : Node} {c : VarRef}, h.Listens (.control c) w →
      h'.cell w = .ok (.bound x) → h'.isDetermined (.variable c) = .ok true) :
    h'.Awaits b operands v := by
  cases ha with
  | operand hb hn => exact .operand hb (hg.deref_unbound hn hv)
  | receiver hb hn => exact .receiver hb (hg.deref_unbound hn hv)
  | feature hn hs hf =>
    have hd := Node.asVariable?_of_isSelectable hs
    exact .feature (hg.deref_value hn hd) hs (hg.deref_unbound hf hv)
  | number hn hd hf => exact .number (hg.deref_value hn hd) hd (hg.deref_unbound hf hv)
  | equal hn hd hx => exact .equal (hg.deref_value hn hd) hd (hg.deref_unbound hx hv)
  | field hn hr hx hd =>
    exact .field (hg.deref_value hn rfl) (hg.record hr) hx (hg.deref_unbound hd hv)
  | control hn hr hlen hall =>
    refine .control (hg.deref_value hn rfl) (hg.record hr) hlen fun x hx => ?_
    obtain ⟨w, hxw, hl⟩ := hall x hx
    obtain ⟨ks, hw⟩ := hl.unbound
    rcases hg.unbound hw with ⟨ms, hw'⟩ | ⟨y, hw'⟩
    · exact ⟨w, hg.deref_unbound hxw hw', hg.listens hl hw'⟩
    · -- a field was bound, so the control has a value and is not unbound
      have htrue := hserved hl hw'
      rw [isDetermined_unbound hv] at htrue
      cases htrue

/-- As long as no variable is bound, a call awaits what it awaited. -/
theorem Awaits.stays {b : Builtin} {operands : List Node} {v : VarRef} {ls : List Listener}
    (ha : h.Awaits b operands v) (hg : h.Grows h')
    (hstays : ∀ {v : VarRef} {ls : List Listener}, h.cell v = .ok (.unbound ls) →
      ∃ ls', h'.cell v = .ok (.unbound ls')) (hv : h.cell v = .ok (.unbound ls)) :
    h'.Awaits b operands v := by
  obtain ⟨ls', hv'⟩ := hstays hv
  refine ha.grows hg hv' fun hl hx => ?_
  obtain ⟨ks, hk⟩ := hl.unbound
  obtain ⟨ks', hk'⟩ := hstays hk
  rw [hk'] at hx
  cases hx

end Heap

/-! ### Changes -/

namespace Waits

variable {h h' : Heap} {threads : List Thread} {spawned : Nat}

/-- A thread that does not wait is in no list. -/
theorem not_listed (hw : Waits h threads spawned) {t : Thread} (ht : t ∈ threads)
    (hidle : t.state.isWaiting = false) (v : VarRef) : ¬ h.Listens (.thread t.id) v := by
  intro hl
  rw [hw.listed t ht hl] at hidle
  cases hidle

/-- The invariant survives a change of the heap that binds no variable and adds no thread to a
    list. -/
theorem extend (hw : Waits h threads spawned) (hg : h.Grows h') (hground : h'.Grounded)
    (hbal : h'.Balanced)
    (hctrl : ∀ {v c : VarRef}, h'.Listens (.control c) v → ∃ cell, h'.cell c = .ok cell)
    (hstays : ∀ {v : VarRef} {ls : List Listener}, h.cell v = .ok (.unbound ls) →
      ∃ ls', h'.cell v = .ok (.unbound ls'))
    (hsame : ∀ {v : VarRef} {ls' : List Listener}, h'.cell v = .ok (.unbound ls') →
      ls'.filterMap Listener.thread? = [] ∨ ∃ ls, h.cell v = .ok (.unbound ls) ∧
        ls'.filterMap Listener.thread? = ls.filterMap Listener.thread?) :
    Waits h' threads spawned := by
  -- the threads in the lists are those of before
  have hback : ∀ {id : ThreadId} {v : VarRef}, h'.Listens (.thread id) v →
      h.Listens (.thread id) v := by
    rintro id v ⟨ls', hc', hm⟩
    rw [← mem_threads] at hm
    rcases hsame hc' with he | ⟨ls, hc, he⟩
    · rw [he] at hm; cases hm
    · rw [he] at hm
      exact ⟨ls, hc, mem_threads.mp hm⟩
  refine
    { grounded := hground, balanced := hbal, control := hctrl, nodup := hw.nodup
      numbered := hw.numbered, called := fun hl => hw.called (hback hl), once := ?_
      listed := fun t ht hl => hw.listed t ht (hback hl), parked := ?_, blocked := ?_ }
  · intro v ls' hc'
    rcases hsame hc' with he | ⟨ls, hc, he⟩
    · rw [he]; exact List.nodup_nil
    · rw [he]; exact hw.once hc
  · intro v t ht hs
    have hl := hw.parked t ht hs
    obtain ⟨ls, hc⟩ := hl.unbound
    obtain ⟨ls', hc'⟩ := hstays hc
    exact hg.listens hl hc'
  · intro v t ht hs
    obtain ⟨i, operands, hi, ho, ha⟩ := hw.blocked t ht hs
    obtain ⟨ls, hc⟩ := (hw.parked t ht hs).unbound
    exact ⟨i, operands, hi, ho, ha.stays hg hstays hc⟩

theorem allocateRecord (hw : Waits h threads spawned) {r : Record} (hr : r.Balanced) :
    Waits (h.allocateRecord r).2 threads spawned := by
  refine hw.extend (Heap.grows_allocateRecord h r) (Heap.Grounded.allocateRecord hw.grounded r) ?_
    (fun hl => hw.control hl) (fun hc => ⟨_, hc⟩) (fun hc => .inr ⟨_, hc, rfl⟩)
  intro ref r' hr'
  rcases Heap.record_allocateRecord.mp hr' with hr' | ⟨-, rfl⟩
  · exact hw.balanced hr'
  · exact hr

theorem allocateVariable (hw : Waits h threads spawned) :
    Waits h.allocateVariable.2 threads spawned := by
  refine hw.extend (Heap.grows_allocateVariable h) (Heap.Grounded.allocateVariable hw.grounded)
    (fun hr => hw.balanced hr) ?_ (fun hc => ⟨_, Heap.cell_allocateVariable_of_ok hc⟩) ?_
  · rintro v c ⟨ls, hc, hm⟩
    rcases Heap.cell_allocateVariable.mp hc with hc | ⟨-, he⟩
    · exact (hw.control ⟨ls, hc, hm⟩).imp fun _ => Heap.cell_allocateVariable_of_ok
    · cases he; cases hm
  · intro v ls' hc'
    rcases Heap.cell_allocateVariable.mp hc' with hc | ⟨-, he⟩
    · exact .inr ⟨ls', hc, rfl⟩
    · cases he; exact .inl rfl

/-- A control variable starts to listen. -/
theorem listen (hw : Waits h threads spawned) {v c : VarRef} {cell : Cell} {parked : Bool}
    (hcell : h.cell c = .ok cell) (ha : h.addListener v (.control c) = .ok (parked, h')) :
    Waits h' threads spawned := by
  have hg := Heap.grows_addListener ha
  refine hw.extend hg (Heap.Grounded.addListener hw.grounded ha) ?_ ?_
    (Heap.unbound_addListener ha) ?_
  · intro ref r hr
    rw [Heap.record_congr (Heap.records_addListener ha)] at hr
    exact hw.balanced hr
  · intro w c' hl
    rcases Heap.listens_before_addListener ha hl with hl | ⟨he, -⟩
    · obtain ⟨cell', hcell'⟩ := hw.control hl
      exact Heap.exists_cell_addListener ha hcell'
    · cases he
      exact Heap.exists_cell_addListener ha hcell
  · intro w ls' hc'
    rcases Heap.cell_addListener ha hc' with hc' | ⟨rfl, ls, hc, -, he⟩
    · exact .inr ⟨ls', hc', rfl⟩
    · cases he
      exact .inr ⟨ls, hc, by simp [Listener.thread?]⟩

/-- A bind wakes the threads that waited for the variables that were bound. -/
theorem cascade {m m' : Machine} {ids : List ThreadId}
    (hw : Waits m.heap m.scheduler.threads m.scheduler.spawned) (hc : Machine.Cascade m m' ids) :
    Waits m'.heap m'.scheduler.threads m'.scheduler.spawned := by
  have hback : ∀ {l : Listener} {v : VarRef}, m'.heap.Listens l v → m.heap.Listens l v := by
    rintro l v ⟨ls, hv, hm⟩
    exact ⟨ls, hc.unbound_before hv, hm⟩
  -- a thread that still waits was not woken, so its variable is still unbound
  have hstill : ∀ {v : VarRef} {t : Thread}, t ∈ m.scheduler.threads → t.state = .waiting v →
      t.id ∉ ids → m'.heap.Listens (.thread t.id) v := by
    intro v t ht hs hid
    obtain ⟨ls, hv, hm⟩ := hw.parked t ht hs
    rcases hc.kept hv with hv' | ⟨ls', x, -, hv'⟩
    · exact ⟨ls, hv', hm⟩
    · exact absurd (hc.woken.mpr ⟨v, ls, x, hv, hv', hm⟩) hid
  rw [hc.threads, hc.spawned]
  refine
    { grounded := hc.grounded hw.grounded
      balanced := fun hr => hw.balanced (by rwa [hc.record] at hr)
      control := ?_, nodup := ?_, numbered := ?_, called := fun hl => hw.called (hback hl)
      once := fun hv => hw.once (hc.unbound_before hv), listed := ?_, parked := ?_, blocked := ?_ }
  · intro v c hl
    obtain ⟨cell, hcell⟩ := hw.control (hback hl)
    rcases hc.kept hcell with h | ⟨_, _, -, h⟩
    · exact ⟨_, h⟩
    · exact ⟨_, h⟩
  · rw [List.map_map]
    simpa [Function.comp_def] using hw.nodup
  · intro t' ht'
    obtain ⟨t, ht, rfl⟩ := List.mem_map.mp ht'
    simpa using hw.numbered t ht
  · intro v t' ht' hl
    obtain ⟨t, ht, rfl⟩ := List.mem_map.mp ht'
    rw [Thread.wakeIf_id] at hl
    have hs := hw.listed t ht (hback hl)
    have hid : t.id ∉ ids := by
      intro hid
      obtain ⟨w, ls, x, hw₀, hw₁, hm⟩ := hc.woken.mp hid
      have hs' := hw.listed t ht ⟨ls, hw₀, hm⟩
      rw [hs] at hs'
      cases hs'
      obtain ⟨ks, hk⟩ := hl.unbound
      rw [hw₁] at hk
      cases hk
    rw [Thread.wakeIf_of_not_mem hid]
    exact hs
  · intro v t' ht' hs
    obtain ⟨t, ht, rfl⟩ := List.mem_map.mp ht'
    obtain ⟨he, hid⟩ := Thread.wakeIf_waiting hs
    rw [he] at hs ⊢
    exact hstill ht hs hid
  · intro v t' ht' hs
    obtain ⟨t, ht, rfl⟩ := List.mem_map.mp ht'
    obtain ⟨he, hid⟩ := Thread.wakeIf_waiting hs
    rw [he] at hs ⊢
    obtain ⟨i, operands, hi, ho, ha⟩ := hw.blocked t ht hs
    obtain ⟨ls, hv⟩ := (hstill ht hs hid).unbound
    refine ⟨i, operands, hi, ho, ha.grows hc.grows hv ?_⟩
    rintro w x c ⟨ks, hk, hm⟩ hx
    exact hc.served hk hx hm

theorem change {m m' : Machine} (hw : Waits m.heap m.scheduler.threads m.scheduler.spawned)
    (hc : Machine.Change m m') : Waits m'.heap m'.scheduler.threads m'.scheduler.spawned := by
  cases hc with
  | intern => exact hw
  | allocate hr => exact hw.allocateRecord hr.balanced
  | newVariable => exact hw.allocateVariable
  | listen hcell ha => exact hw.listen hcell ha
  | bind hb =>
    obtain ⟨ids, hc, -⟩ := Machine.cascade_of_bind hw.nodup hb
    exact hw.cascade hc
  | pin => exact hw
  | print => exact hw

/-! ### Threads come, go and are put back -/

/-- A new thread has a number that is in no list. -/
theorem spawn (hw : Waits h threads spawned) {t : Thread} (hid : t.id = ⟨spawned + 1⟩)
    (hs : t.state = .runnable) : Waits h (threads ++ [t]) (spawned + 1) := by
  have hnew : ∀ {u : Thread}, u ∈ threads ++ [t] → u ∈ threads ∨ u = t := by
    intro u hu
    simpa using hu
  -- the new thread waits for nothing
  have hidle : ∀ {v : VarRef}, t.state ≠ .waiting v := by
    intro v hv
    rw [hs] at hv
    cases hv
  refine
    { grounded := hw.grounded, balanced := hw.balanced, control := hw.control, nodup := ?_
      numbered := ?_, called := fun hl => Nat.le_succ_of_le (hw.called hl), once := hw.once
      listed := ?_, parked := ?_, blocked := ?_ }
  -- its number is above all numbers of the table
  · rw [List.map_append, List.nodup_append_comm]
    refine List.nodup_cons.mpr ⟨fun hmem => ?_, hw.nodup⟩
    obtain ⟨u, hu, hut⟩ := List.mem_map.mp hmem
    have hnum := hw.numbered u hu
    rw [hut, hid] at hnum
    exact absurd hnum (Nat.not_succ_le_self _)
  · intro u hu
    rcases hnew hu with hu | rfl
    · exact Nat.le_succ_of_le (hw.numbered u hu)
    · simp [hid]
  · intro v u hu hl
    rcases hnew hu with hu | rfl
    · exact hw.listed u hu hl
    -- nor does any list have it yet
    · have hnum := hw.called hl
      rw [hid] at hnum
      exact absurd hnum (Nat.not_succ_le_self _)
  · intro v u hu hv
    rcases hnew hu with hu | rfl
    · exact hw.parked u hu hv
    · exact absurd hv hidle
  · intro v u hu hv
    rcases hnew hu with hu | rfl
    · exact hw.blocked u hu hv
    · exact absurd hv hidle

/-- Threads may be taken out of the table. -/
theorem filter (hw : Waits h threads spawned) (p : Thread → Bool) :
    Waits h (threads.filter p) spawned where
  grounded := hw.grounded
  balanced := hw.balanced
  control := hw.control
  nodup := hw.nodup.sublist (List.filter_sublist.map _)
  numbered t ht := hw.numbered t (List.mem_of_mem_filter ht)
  called := hw.called
  once := hw.once
  listed t ht := hw.listed t (List.mem_of_mem_filter ht)
  parked t ht := hw.parked t (List.mem_of_mem_filter ht)
  blocked t ht := hw.blocked t (List.mem_of_mem_filter ht)

/-- The thread's entry in the table while it runs. -/
def Running (threads : List Thread) (id : ThreadId) : Prop :=
  ∃ u ∈ threads, u.id = id ∧ u.state = .runnable

/-- The threads after one of them is put back: it, or another one that was there before. -/
theorem mem_update {s : Scheduler} {t u : Thread} (hu : u ∈ (s.update t).threads) :
    u = t ∨ u ∈ s.threads ∧ u.id ≠ t.id := by
  obtain ⟨w, hw, rfl⟩ := List.mem_map.mp hu
  by_cases hid : w.id = t.id
  · exact .inl (if_pos hid)
  · rw [if_neg hid]
    exact .inr ⟨hw, hid⟩

theorem map_id_update {s : Scheduler} {t : Thread} :
    (s.update t).threads.map Thread.id = s.threads.map Thread.id := by
  rw [Scheduler.update, List.map_map]
  refine List.map_congr_left fun u _ => ?_
  by_cases hid : u.id = t.id
  · simp [hid]
  · simp [hid]

/-- A thread is put back that does not wait. -/
theorem update_idle {s : Scheduler} (hw : Waits h s.threads spawned) {t : Thread}
    (hrun : Running s.threads t.id) (hidle : t.state.isWaiting = false) :
    Waits h (s.update t).threads spawned := by
  obtain ⟨u₀, hu₀, hid₀, hs₀⟩ := hrun
  have hwaits : ∀ {v : VarRef}, t.state ≠ .waiting v := by
    intro v hv
    rw [hv] at hidle
    cases hidle
  refine
    { grounded := hw.grounded, balanced := hw.balanced, control := hw.control, nodup := ?_
      numbered := ?_, called := hw.called, once := hw.once
      listed := ?_, parked := ?_, blocked := ?_ }
  · rw [map_id_update]
    exact hw.nodup
  · intro u hu
    rcases mem_update hu with rfl | ⟨hu, -⟩
    · exact hid₀ ▸ hw.numbered u₀ hu₀
    · exact hw.numbered u hu
  · intro v u hu hl
    rcases mem_update hu with rfl | ⟨hu, -⟩
    · rw [← hid₀] at hl
      -- the thread was runnable, so no list has it
      exact absurd hl (hw.not_listed hu₀ (by rw [hs₀]; rfl) v)
    · exact hw.listed u hu hl
  · intro v u hu hv
    rcases mem_update hu with rfl | ⟨hu, -⟩
    · exact absurd hv hwaits
    · exact hw.parked u hu hv
  · intro v u hu hv
    rcases mem_update hu with rfl | ⟨hu, -⟩
    · exact absurd hv hwaits
    · exact hw.blocked u hu hv

/-- A thread is put back that starts to wait. -/
theorem update_waiting {s : Scheduler} (hw : Waits h s.threads spawned) {t : Thread}
    (hrun : Running s.threads t.id) {v : VarRef} {i : Instruction} {operands : List Node}
    (hi : t.code[t.pc]? = some i) (ho : i.inputs.mapM t.register = .ok operands)
    (haw : h.Awaits i.builtin operands v) (ha : h.addListener v (.thread t.id) = .ok (true, h')) :
    Waits h' (s.update { t with state := .waiting v }).threads spawned := by
  obtain ⟨u₀, hu₀, hid₀, hs₀⟩ := hrun
  -- a runnable thread is in no list
  have hnone : ∀ w, ¬ h.Listens (.thread t.id) w :=
    fun w => hid₀ ▸ hw.not_listed hu₀ (by rw [hs₀]; rfl) w
  obtain ⟨ls, hv⟩ : ∃ ls, h.cell v = .ok (.unbound ls) := by
    rcases Heap.addListener_cases ha with ⟨-, ls, hv, -⟩ | ⟨hf, -⟩
    · exact ⟨ls, hv⟩
    · cases hf
  have hnumber : t.id.number ≤ spawned := hid₀ ▸ hw.numbered u₀ hu₀
  refine
    { grounded := Heap.Grounded.addListener hw.grounded ha
      balanced := ?_, control := ?_, nodup := ?_, numbered := ?_, called := ?_, once := ?_
      listed := ?_, parked := ?_, blocked := ?_ }
  -- the records, the controls and the numbers are those of before
  · intro ref r hr
    rw [Heap.record_congr (Heap.records_addListener ha)] at hr
    exact hw.balanced hr
  · intro w c hl
    rcases Heap.listens_before_addListener ha hl with hl | ⟨he, -⟩
    · obtain ⟨cell, hcell⟩ := hw.control hl
      exact Heap.exists_cell_addListener ha hcell
    · cases he
  · rw [map_id_update]
    exact hw.nodup
  · intro u hu
    rcases mem_update hu with rfl | ⟨hu, -⟩
    · exact hnumber
    · exact hw.numbered u hu
  · intro w id hl
    rcases Heap.listens_before_addListener ha hl with hl | ⟨he, -⟩
    · exact hw.called hl
    · cases he
      exact hnumber
  · intro w ks hk
    rcases Heap.cell_addListener ha hk with hk | ⟨rfl, ls', hk₀, hm, he⟩
    · exact hw.once hk
    · -- the thread is added to a list that did not have it
      cases he
      rw [List.filterMap_append, List.nodup_append_comm]
      exact List.nodup_cons.mpr ⟨fun hid => hm (mem_threads.mp hid), hw.once hk₀⟩
  -- the thread is in the list of its own variable only, and the others stay where they were
  · intro w u hu hl
    rcases mem_update hu with rfl | ⟨hu, hne⟩
    · rcases Heap.listens_before_addListener ha hl with hl | ⟨-, rfl⟩
      · exact absurd hl (hnone w)
      · rfl
    · rcases Heap.listens_before_addListener ha hl with hl | ⟨he, -⟩
      · exact hw.listed u hu hl
      · exact absurd (Listener.thread.inj he) hne
  -- who is parked has one entry: the new one, or the one that it had
  · intro w u hu hs
    rcases mem_update hu with rfl | ⟨hu, -⟩
    · cases hs
      exact (Heap.listens_of_addListener hv ha).2
    · exact (hw.parked u hu hs).addListener ha
  -- a call that suspends still does so when a listener has been added
  · have hawaits : ∀ {b : Builtin} {operands : List Node} {w : VarRef} {ks : List Listener},
        h.Awaits b operands w → h.cell w = .ok (.unbound ks) → h'.Awaits b operands w :=
      fun haw hk => haw.stays (Heap.grows_addListener ha) (Heap.unbound_addListener ha) hk
    intro w u hu hs
    rcases mem_update hu with rfl | ⟨hu, -⟩
    · cases hs
      exact ⟨i, operands, hi, ho, hawaits haw hv⟩
    · obtain ⟨j, js, hj, hjs, haw⟩ := hw.blocked u hu hs
      obtain ⟨ks, hk⟩ := (hw.parked u hu hs).unbound
      exact ⟨j, js, hj, hjs, hawaits haw hk⟩

/-! ### A turn -/

/-- The threads after a change are those before it, some of them woken. -/
theorem running_change {m m' : Machine} {id : ThreadId}
    (hnd : (m.scheduler.threads.map Thread.id).Nodup) (hrun : Running m.scheduler.threads id)
    (hc : Machine.Change m m') : Running m'.scheduler.threads id := by
  cases hc with
  | bind hb =>
    obtain ⟨ids, hc, -⟩ := Machine.cascade_of_bind hnd hb
    obtain ⟨u, hu, hid, hs⟩ := hrun
    rw [hc.threads]
    exact ⟨u, List.mem_map.mpr ⟨u, hu, Thread.wakeIf_runnable hs⟩, hid, hs⟩
  | _ => exact hrun

theorem running_changes {m m' : Machine} {id : ThreadId}
    (hw : Waits m.heap m.scheduler.threads m.scheduler.spawned)
    (hrun : Running m.scheduler.threads id) (hc : ReflTransGen Machine.Change m m') :
    Waits m'.heap m'.scheduler.threads m'.scheduler.spawned ∧ Running m'.scheduler.threads id := by
  induction hc with
  | refl => exact ⟨hw, hrun⟩
  | tail _ hstep ih => exact ⟨ih.1.change hstep, running_change ih.1.nodup ih.2 hstep⟩

/-- A runnable or failed thread is put back after its turn. -/
theorem putBack_idle {m : Machine} (hw : Waits m.heap m.scheduler.threads m.scheduler.spawned)
    {t : Thread} (hrun : Running m.scheduler.threads t.id) (hidle : t.state.isWaiting = false) :
    Waits (m.putBack t).heap (m.putBack t).scheduler.threads (m.putBack t).scheduler.spawned := by
  unfold Machine.putBack
  split
  · split
    · exact hw.update_idle (t := { t with state := .terminated }) hrun rfl
    · exact hw.update_idle hrun hidle
  · exact hw.update_idle hrun hidle

/-- A turn preserves the invariant, once its thread is put back. -/
theorem turn {n : Nat} {m m' : Machine} {t t' : Thread}
    (hw : Waits m.heap m.scheduler.threads m.scheduler.spawned)
    (hrun : Running m.scheduler.threads t.id) (hs : t.state = .runnable)
    (ht : Machine.turn n m t = .ok (m', t')) :
    Waits (m'.putBack t').heap (m'.putBack t').scheduler.threads
      (m'.putBack t').scheduler.spawned := by
  induction n generalizing m t with
  | zero =>
    cases ht
    exact hw.putBack_idle hrun (by rw [hs]; rfl)
  | succ n ih =>
    rw [Machine.turn] at ht
    cases hi : t.code[t.pc]? with
    | none =>
      rw [hi] at ht
      cases ht
      exact hw.putBack_idle hrun (by rw [hs]; rfl)
    | some i =>
      rw [hi] at ht
      obtain ⟨operands, ho, ht⟩ := bind_eq_ok.mp ht
      obtain ⟨⟨outcome, m₁⟩, hcall, ht⟩ := bind_eq_ok.mp ht
      have hdoes := Machine.does_of_call hw.balanced hcall
      obtain ⟨hw₁, hrun₁⟩ := hw.running_changes hrun hdoes.changes
      cases outcome with
      | proceed results => exact ih (t := t.advance i.outputs results) hw₁ hrun₁ hs ht
      | raise exception =>
        cases ht
        exact hw₁.putBack_idle (t := { t with state := .failed exception }) hrun₁ rfl
      | suspend v =>
        obtain ⟨⟨parked, heap⟩, ha, ht⟩ := bind_eq_ok.mp ht
        cases parked with
        | true =>
          cases ht
          exact hw₁.update_waiting hrun₁ hi ho (hdoes.awaits v rfl) ha
        | false =>
          -- the variable is bound already, and the call is made again
          rcases Heap.addListener_cases ha with ⟨hf, -⟩ | ⟨-, rfl, -⟩
          · cases hf
          · exact ih hw₁ hrun₁ hs ht

end Waits

end Dataflow
