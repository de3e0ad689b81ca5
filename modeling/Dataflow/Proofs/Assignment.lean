import Dataflow.Proofs.Orderly
import Dataflow.Proofs.Wakeup

/-! # Single assignment

  From one collection to the next nothing that has been written is written again. A machine
  *continues* another one if its heap has grown out of the other's and its atoms stand in the same
  table. All changes, calls and turns continue the machine that they start from, and a collection
  begins a new table. So the table says whether a step has collected, and what happens from one
  collection to the next, a *span*, is made of the steps that keep it.

  Main statement: of two machines of one span the later has grown out of the earlier, and a node
  that has a value keeps it.
-/

open Relation (ReflTransGen)

namespace Dataflow.Machine

variable {m m' m'' : Machine}

/-! ### Continuing a machine -/

/-- The second machine is a later state of the first, with no collection between them. -/
structure Continues (m m' : Machine) : Prop where
  /-- The machine is the same one. -/
  id : m'.id = m.id
  /-- The table of atoms is the same one. -/
  table : m'.atoms.id = m.atoms.id
  /-- It has lost no atom. -/
  interned : ∀ content ∈ m.atoms.contents, content ∈ m'.atoms.contents
  /-- The heap has grown. -/
  heap : m.heap.Grows m'.heap

theorem Continues.of_grows (hid : m'.id = m.id) (hatoms : m'.atoms = m.atoms)
    (hg : m.heap.Grows m'.heap) : Continues m m' where
  id := hid
  table := by rw [hatoms]
  interned content hcontent := by rw [hatoms]; exact hcontent
  heap := hg

theorem Continues.of_eq (hid : m'.id = m.id) (hatoms : m'.atoms = m.atoms)
    (hheap : m'.heap = m.heap) : Continues m m' :=
  .of_grows hid hatoms (by rw [hheap]; exact .refl _)

theorem Continues.trans (h₁ : Continues m m') (h₂ : Continues m' m'') : Continues m m'' where
  id := h₂.id.trans h₁.id
  table := h₂.table.trans h₁.table
  interned content hcontent := h₂.interned content (h₁.interned content hcontent)
  heap := h₁.heap.trans h₂.heap

/-- A bind writes into unbound cells only. -/
theorem continues_of_bindWithin {n : Nat} {v : VarRef} {x : Node}
    (hb : bindWithin n m v x = .ok (.ok m')) : Continues m m' :=
  bindWithin_induct (fun _ => .of_eq rfl rfl rfl) .trans
    (fun x hc => .of_grows rfl rfl (Heap.grows_setCell hc (.inr ⟨x, rfl⟩))) (fun _ _ => .of_eq rfl rfl rfl) hb

theorem continues_of_change (hc : Change m m') : Continues m m' := by
  cases hc with
  | intern content =>
    exact
      { id := rfl
        table := AtomTable.insert_id _ _
        interned := fun other hother => (AtomTable.mem_contents_insert _ _ _).mpr (.inr hother)
        heap := .refl _ }
  | allocate _ => exact .of_grows rfl rfl (Heap.grows_allocateRecord _ _)
  | newVariable => exact .of_grows rfl rfl (Heap.grows_allocateVariable _)
  | listen _ ha => exact .of_grows rfl rfl (Heap.grows_addListener ha)
  | bind hb => exact continues_of_bindWithin hb
  | pin n => exact .of_eq rfl rfl rfl
  | print output => exact .of_eq rfl rfl rfl

theorem continues_of_changes (hc : ReflTransGen Change m m') : Continues m m' := by
  induction hc with
  | refl => exact .of_eq rfl rfl rfl
  | tail _ hstep ih => exact ih.trans (continues_of_change hstep)

/-! ### Turns -/

/-- A turn makes calls, and parks its thread at most. -/
theorem continues_of_turn {n : Nat} {t t' : Thread}
    (hw : Waits m.heap m.scheduler.threads m.scheduler.spawned)
    (hrun : Waits.Running m.scheduler.threads t.id) (ht : turn n m t = .ok (m', t')) :
    Continues m m' := by
  -- on the calls of the turn: each of them continues the state that it finds
  induction n generalizing m t with
  | zero =>
    cases ht
    exact .of_eq rfl rfl rfl
  | succ n ih =>
    rw [turn] at ht
    cases hi : t.code[t.pc]? with
    | none =>
      rw [hi] at ht
      cases ht
      exact .of_eq rfl rfl rfl
    | some i =>
      rw [hi] at ht
      obtain ⟨operands, -, ht⟩ := bind_eq_ok.mp ht
      obtain ⟨⟨outcome, m₁⟩, hcall, ht⟩ := bind_eq_ok.mp ht
      have hchanges := (does_of_call hw.balanced hcall).changes
      obtain ⟨hw₁, hrun₁⟩ := hw.running_changes hrun hchanges
      have hcont : Continues m m₁ := continues_of_changes hchanges
      cases outcome with
      | proceed results => exact hcont.trans (ih (t := t.advance i.outputs results) hw₁ hrun₁ ht)
      | raise exception => cases ht; exact hcont
      | suspend v =>
        obtain ⟨⟨parked, heap⟩, ha, ht⟩ := bind_eq_ok.mp ht
        cases parked with
        | true =>
          cases ht
          exact hcont.trans (.of_grows rfl rfl (Heap.grows_addListener ha))
        | false =>
          -- nobody can wait for a bound variable, and the call is made again
          rcases Heap.addListener_cases ha with ⟨hf, -⟩ | ⟨-, rfl, -⟩
          · cases hf
          · exact hcont.trans (ih hw₁ hrun₁ ht)

theorem continues_putBack (m : Machine) (t : Thread) : Continues m (m.putBack t) := by
  unfold putBack
  split
  · split <;> exact .of_eq rfl rfl rfl
  · exact .of_eq rfl rfl rfl

/-- A turn of any length of the next thread, put back after it. -/
theorem continues_of_slice (hw : Waits m.heap m.scheduler.threads m.scheduler.spawned)
    {s : Scheduler} {t t' : Thread} {after : Machine} {n : Nat}
    (hnext : m.scheduler.next? = (some t, s))
    (ht : turn n { m with scheduler := s } t = .ok (after, t')) :
    Waits (after.putBack t').heap (after.putBack t').scheduler.threads
      (after.putBack t').scheduler.spawned ∧ Continues m (after.putBack t') := by
  obtain ⟨hthreads, hspawned, hfound⟩ := nextFrom_cases hnext
  obtain ⟨hmem, hs⟩ := hfound t rfl
  rw [← hthreads, ← hspawned] at hw
  rw [← hthreads] at hmem
  have hrun : Waits.Running s.threads t.id := ⟨t, hmem, rfl, hs⟩
  have htaken : Continues m { m with scheduler := s } := .of_eq rfl rfl rfl
  have hcont := continues_of_turn (m := { m with scheduler := s }) hw hrun ht
  exact ⟨Waits.turn (m := { m with scheduler := s }) hw hrun hs ht,
    htaken.trans (hcont.trans (continues_putBack after t'))⟩

/-! ### Spans -/

/-- A step within a span: a step of a host that keeps the table, or a turn of any length of the next
    thread, after which the machine might collect. -/
inductive SpanStep : Machine → Machine → Prop where
  | host {m m' : Machine} : HostStep m m' → m'.atoms.id = m.atoms.id → SpanStep m m'
  | slice {m after : Machine} {s : Scheduler} {t t' : Thread} (n : Nat) :
      m.scheduler.next? = (some t, s) → turn n { m with scheduler := s } t = .ok (after, t') →
      SpanStep m (after.putBack t')

/-- A collection begins the next table. -/
theorem generation_collect (hc : m.collect = .ok m') :
    m'.atoms.id.generation = m.atoms.id.generation + 1 := by
  obtain ⟨φ, hr⟩ := relocation_of_collect hc
  rw [hr.table]
  rfl

/-- The second machine continues the first, or has collected since. -/
def Ages (m m' : Machine) : Prop :=
  Continues m m' ∨ m.atoms.id.generation < m'.atoms.id.generation

theorem Ages.continues (ha : Ages m m') (hid : m'.atoms.id = m.atoms.id) : Continues m m' := by
  rcases ha with hc | hlt
  · exact hc
  · rw [hid] at hlt
    exact absurd hlt (Nat.lt_irrefl _)

theorem Ages.trans_continues (ha : Ages m m') (hc : Continues m' m'') : Ages m m'' := by
  rcases ha with h₁ | hlt
  · exact .inl (h₁.trans hc)
  · exact .inr (by rw [hc.table]; exact hlt)

theorem Ages.trans_collect (ha : Ages m m') (hc : m'.collect = .ok m'') : Ages m m'' := by
  have hnext := generation_collect hc
  rcases ha with h₁ | hlt
  · rw [h₁.table] at hnext
    exact .inr (by omega)
  · exact .inr (by omega)

/-- The turn of the next thread: it is no collection, or it ends with one. -/
theorem runNext_span (hw : Waits m.heap m.scheduler.threads m.scheduler.spawned) {ran : Bool}
    (hr : m.runNext = .ok (ran, m')) :
    Continues m m' ∨ ∃ m₁, SpanStep m m₁ ∧ Continues m m₁ ∧ m₁.collect = .ok m' := by
  rcases runNext_slices hr with ⟨-, s, -, rfl⟩ | ⟨-, t, s, after, t', hn, hturn, hor⟩
  · exact .inl (.of_eq rfl rfl rfl)
  · obtain ⟨-, hcont⟩ := continues_of_slice hw hn hturn
    rcases hor with rfl | hc
    · exact .inl hcont
    · exact .inr ⟨after.putBack t', .slice _ hn hturn, hcont, hc⟩

/-- A step of a host continues the machine, or there is a collection in it. -/
theorem HostStep.ages (hstep : HostStep m m')
    (hw : Waits m.heap m.scheduler.threads m.scheduler.spawned) :
    Waits m'.heap m'.scheduler.threads m'.scheduler.spawned ∧ Ages m m' := by
  -- whatever is no collection continues the machine, and a turn may end with one
  refine hstep.preserves (P := fun m' =>
    Waits m'.heap m'.scheduler.threads m'.scheduler.spawned ∧ Ages m m')
    (fun h => h.1.balanced) ?_ ?_ ?_ ?_ ?_ ⟨hw, .inl (.of_eq rfl rfl rfl)⟩
  · rintro m₁ m₂ ⟨hw₁, ha⟩ hc
    exact ⟨hw₁.change hc, ha.trans_continues (continues_of_change hc)⟩
  · rintro m₁ m₂ code registers id ⟨hw₁, ha⟩ hs
    refine ⟨waits_spawn hw₁ hs, ha.trans_continues ?_⟩
    obtain ⟨-, -, hs⟩ := bind_eq_ok.mp hs
    cases hs
    exact .of_eq rfl rfl rfl
  · rintro m₁ m₂ id ⟨hw₁, ha⟩ hk
    refine ⟨waits_kill hw₁ hk, ha.trans_continues ?_⟩
    obtain ⟨s, -, hk⟩ := bind_eq_ok.mp hk
    cases hk
    exact .of_eq rfl rfl rfl
  · rintro m₁ m₂ ran ⟨hw₁, ha⟩ hr
    refine ⟨waits_runNext hw₁ hr, ?_⟩
    rcases runNext_span hw₁ hr with hc | ⟨m₃, -, hc, hcollect⟩
    · exact ha.trans_continues hc
    · exact (ha.trans_continues hc).trans_collect hcollect
  · rintro m₁ m₂ ⟨hw₁, ha⟩ hc
    exact ⟨waits_collect hw₁ hc, ha.trans_collect hc⟩

theorem SpanStep.continues (hspan : SpanStep m m')
    (hw : Waits m.heap m.scheduler.threads m.scheduler.spawned) :
    Waits m'.heap m'.scheduler.threads m'.scheduler.spawned ∧ Continues m m' := by
  cases hspan with
  | host hstep hid =>
    obtain ⟨hw', ha⟩ := hstep.ages hw
    exact ⟨hw', ha.continues hid⟩
  | slice n hnext ht => exact continues_of_slice hw hnext ht

theorem continues_of_span (hspan : ReflTransGen SpanStep m m')
    (hw : Waits m.heap m.scheduler.threads m.scheduler.spawned) :
    Waits m'.heap m'.scheduler.threads m'.scheduler.spawned ∧ Continues m m' := by
  induction hspan with
  | refl => exact ⟨hw, .of_eq rfl rfl rfl⟩
  | tail _ hstep ih =>
    obtain ⟨hw', hc⟩ := hstep.continues ih.1
    exact ⟨hw', ih.2.trans hc⟩

/-! ### The end of a span -/

/-- Turns that change the table come to the end of the span. -/
theorem turns_span {n count : Nat} (hw : Waits m.heap m.scheduler.threads m.scheduler.spawned)
    (ht : turns n m = .ok (count, m')) :
    m'.atoms.id = m.atoms.id ∨
      ∃ m₁ m₂, ReflTransGen SpanStep m m₁ ∧ m₁.collect = .ok m₂ := by
  induction n generalizing m count with
  | zero => cases ht
  | succ n ih =>
    rw [turns] at ht
    obtain ⟨⟨ran, next⟩, hnext, ht⟩ := bind_eq_ok.mp ht
    rcases runNext_span hw hnext with hcont | ⟨m₁, hspan, -, hc⟩
    · cases ran with
      | false =>
        cases ht
        exact .inl hcont.table
      | true =>
        obtain ⟨⟨k, last⟩, hrest, ht⟩ := bind_eq_ok.mp ht
        cases ht
        rcases ih (waits_runNext hw hnext) hrest with hid | ⟨m₁, m₂, hspan, hc⟩
        · exact .inl (hid.trans hcont.table)
        · exact .inr ⟨m₁, m₂, .head (.host (.runNext hnext) hcont.table) hspan, hc⟩
    · exact .inr ⟨m₁, _, .single hspan, hc⟩

/-- A step of a host stays within its span, or comes to the collection that ends the span. -/
theorem HostStep.span_or_collects (hstep : HostStep m m')
    (hw : Waits m.heap m.scheduler.threads m.scheduler.spawned) :
    SpanStep m m' ∨ ∃ m₁ m₂, ReflTransGen SpanStep m m₁ ∧ m₁.collect = .ok m₂ := by
  rcases hstep.kinds hw.balanced with
    hc | ⟨code, registers, id, hs⟩ | ⟨id, hk⟩ | ⟨ran, hr⟩ | ⟨report, hr⟩ | hc
  · exact .inl (.host hstep (continues_of_changes hc).table)
  · obtain ⟨-, -, hs⟩ := bind_eq_ok.mp hs
    cases hs
    exact .inl (.host hstep rfl)
  · obtain ⟨s, -, hk⟩ := bind_eq_ok.mp hk
    cases hk
    exact .inl (.host hstep rfl)
  · rcases runNext_span hw hr with hcont | ⟨m₁, hspan, -, hc⟩
    · exact .inl (.host hstep hcont.table)
    · exact .inr ⟨m₁, m', .single hspan, hc⟩
  · obtain ⟨count, ht, -⟩ := turns_of_run hr
    rcases turns_span hw ht with hid | hcollects
    · exact .inl (.host hstep hid)
    · exact .inr hcollects
  · exact .inr ⟨m, m', .refl, hc⟩

/-! ### Single assignment -/

/-- Between two collections nothing is written twice. Each step of a host on a reachable machine stays
    within the span or comes to the collection at its end; and of two machines of a span the later
    one has grown out of the earlier one: records and bound cells are as they were, lists of
    listeners have grown at their ends, references are valid still, and what had a value has it
    still. -/
theorem Reachable.single_assignment (hm : Reachable m) :
    (∀ m', HostStep m m' →
      SpanStep m m' ∨ ∃ m₁ m₂, ReflTransGen SpanStep m m₁ ∧ m₁.collect = .ok m₂) ∧
    ∀ m₁ m₂, ReflTransGen SpanStep m m₁ → ReflTransGen SpanStep m₁ m₂ →
      m₁.heap.Grows m₂.heap ∧ (∀ n, m₁.heap.InRange n → m₂.heap.InRange n) ∧
      ∀ n d, m₁.deref n = .ok d →
        m₂.deref n = m₂.deref d ∧ (d.asVariable? = none → m₂.deref n = .ok d) := by
  refine ⟨fun m' hstep => hstep.span_or_collects hm.waits, fun m₁ m₂ h₁ h₂ => ?_⟩
  obtain ⟨hw₁, -⟩ := continues_of_span h₁ hm.waits
  obtain ⟨-, hc⟩ := continues_of_span h₂ hw₁
  refine ⟨hc.heap, fun n hn => hc.heap.inRange hn, fun n d hd => ?_⟩
  exact ⟨hc.heap.deref hd, fun hv => hc.heap.deref_value hd hv⟩

/-- A field is bound, its control with it, and the thread that waited has its turn. -/
theorem waitingForAny_keeps : ∃ m₁ m₂, SpanStep waitingForAny m₁ ∧ SpanStep m₁ m₂ ∧
    m₁.deref (.variable ⟨0⟩) = .ok (.int 5) ∧ m₁.deref (.variable ⟨1⟩) = .ok .unit ∧
    m₂.deref (.variable ⟨0⟩) = .ok (.int 5) ∧ m₂.deref (.variable ⟨1⟩) = .ok .unit := by
  have hkeeps : ∀ m₁ m₂ n d, SpanStep waitingForAny m₁ → SpanStep m₁ m₂ → m₁.deref n = .ok d →
      d.asVariable? = none → m₂.deref n = .ok d := fun m₁ m₂ n d h₁ h₂ hd =>
    ((reachable_waitingForAny.single_assignment.2 m₁ m₂ (.single h₁) (.single h₂)).2.2 n d hd).2
  have hbind : SpanStep waitingForAny _ := .host (.bind ⟨0⟩ (.int 5) rfl) rfl
  refine ⟨_, _, hbind, .host (.runNext rfl) rfl, rfl, rfl, ?_, ?_⟩
  · exact hkeeps _ _ _ _ hbind (.host (.runNext rfl) rfl) rfl rfl
  · exact hkeeps _ _ _ _ hbind (.host (.runNext rfl) rfl) rfl rfl

end Dataflow.Machine
