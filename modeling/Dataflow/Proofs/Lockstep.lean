import Dataflow.Proofs.Dialogue
import Dataflow.Proofs.Waits

/-! # Machines in step

  Two machines are in step if their heaps are alike, their roots and registers are alike, their
  threads stand at the same places and are queued in the same order, and they have shown the
  same. Machines in step stay so when both intern an atom, allocate, add a listener, or bind a
  variable: then the world grows by what is new, or loses what was bound.
-/

namespace Dataflow

variable {w w₁ : World} {a b a₁ b₁ : View}

/-! ### Threads and machines -/

/-- Two threads stand at the same place. What is asked of the variables that they wait for is left
    open. -/
inductive StateAlike (P : VarRef → VarRef → Prop) (w : World) (a b : View) :
    ThreadState → ThreadState → Prop where
  | runnable : StateAlike P w a b .runnable .runnable
  | terminated : StateAlike P w a b .terminated .terminated
  | waiting {v v' : VarRef} : P v v' → StateAlike P w a b (.waiting v) (.waiting v')
  | failed {e e' : Node} : Alike w a b e e' → StateAlike P w a b (.failed e) (.failed e')

/-- Two threads have done the same. -/
structure ThreadAlike (P : VarRef → VarRef → Prop) (w : World) (a b : View) (t t' : Thread) :
    Prop where
  id : t.id = t'.id
  code : t.code = t'.code
  pc : t.pc = t'.pc
  registers : List.Forall₂ (Alike w a b) t.registers t'.registers
  state : StateAlike P w a b t.state t'.state

/-- Two machines hold the same, up to the variables that threads wait for. -/
structure InStep (P : VarRef → VarRef → Prop) (w : World) (m m' : Machine) : Prop where
  like : Likeness w m.view m'.view
  roots : List.Forall₂ (Alike w m.view m'.view) m.roots m'.roots
  threads : List.Forall₂ (ThreadAlike P w m.view m'.view) m.scheduler.threads m'.scheduler.threads
  ready : m.scheduler.ready = m'.scheduler.ready
  spawned : m.scheduler.spawned = m'.scheduler.spawned
  output : m.output = m'.output
  settings : m.settings = m'.settings
  id : m.id = m'.id
  /-- The atom tables are those of the machine. -/
  ownerLeft : m.atoms.id.owner = m.id
  ownerRight : m'.atoms.id.owner = m'.id

/-- Two machines have done the same. -/
structure Lockstep (w : World) (m m' : Machine) : Prop extends InStep w.cell w m m' where
  waitsLeft : Waits m.heap m.scheduler.threads m.scheduler.spawned
  waitsRight : Waits m'.heap m'.scheduler.threads m'.scheduler.spawned

variable {P Q : VarRef → VarRef → Prop} {m m' : Machine}

theorem StateAlike.later (hl : Later w a b w₁ a₁ b₁) (hpq : ∀ v v', P v v' → Q v v')
    {s s' : ThreadState} (hs : StateAlike P w a b s s') : StateAlike Q w₁ a₁ b₁ s s' := by
  cases hs with
  | runnable => exact .runnable
  | terminated => exact .terminated
  | waiting hv => exact .waiting (hpq _ _ hv)
  | failed he => exact .failed (hl.node he)

theorem ThreadAlike.later (hl : Later w a b w₁ a₁ b₁) (hpq : ∀ v v', P v v' → Q v v')
    {t t' : Thread} (ht : ThreadAlike P w a b t t') : ThreadAlike Q w₁ a₁ b₁ t t' where
  id := ht.id
  code := ht.code
  pc := ht.pc
  registers := hl.nodes ht.registers
  state := ht.state.later hl hpq

/-- Machines stay in step when their heaps go on to a later state. -/
theorem InStep.later {h₁ h₁' : Heap} (hs : InStep P w m m')
    (hlater : Later w m.view m'.view w₁ ⟨m.atoms.id, h₁⟩ ⟨m'.atoms.id, h₁'⟩)
    (hlike : Likeness w₁ ⟨m.atoms.id, h₁⟩ ⟨m'.atoms.id, h₁'⟩) (hpq : ∀ v v', P v v' → Q v v') :
    InStep Q w₁ { m with heap := h₁ } { m' with heap := h₁' } where
  like := hlike
  roots := hlater.nodes hs.roots
  threads := hs.threads.imp fun _ _ ht => ht.later hlater hpq
  ready := hs.ready
  spawned := hs.spawned
  output := hs.output
  settings := hs.settings
  id := hs.id
  ownerLeft := hs.ownerLeft
  ownerRight := hs.ownerRight

theorem StateAlike.flip {s s' : ThreadState} (hs : StateAlike P w a b s s') :
    StateAlike (fun v v' => P v' v) w.flip b a s' s := by
  cases hs with
  | runnable => exact .runnable
  | terminated => exact .terminated
  | waiting hv => exact .waiting hv
  | failed he => exact .failed he.flip

theorem Lockstep.flip (hs : Lockstep w m m') : Lockstep w.flip m' m where
  like := hs.like.flip
  roots := forall₂_flip hs.roots fun _ _ h => h.flip
  threads := forall₂_flip hs.threads fun _ _ ht =>
    { id := ht.id.symm, code := ht.code.symm, pc := ht.pc.symm
      registers := forall₂_flip ht.registers fun _ _ h => h.flip
      state := ht.state.flip }
  ready := hs.ready.symm
  spawned := hs.spawned.symm
  output := hs.output.symm
  settings := hs.settings.symm
  id := hs.id.symm
  ownerLeft := hs.ownerRight
  ownerRight := hs.ownerLeft
  waitsLeft := hs.waitsRight
  waitsRight := hs.waitsLeft

/-! ### Interning -/

theorem Lockstep.intern (hs : Lockstep w m m') (content : String) :
    Lockstep w { m with atoms := m.atoms.insert content }
      { m' with atoms := m'.atoms.insert content } where
  like := by rw [Machine.view_intern, Machine.view_intern]; exact hs.like
  roots := by rw [Machine.view_intern, Machine.view_intern]; exact hs.roots
  threads := by rw [Machine.view_intern, Machine.view_intern]; exact hs.threads
  ready := hs.ready
  spawned := hs.spawned
  output := hs.output
  settings := hs.settings
  id := hs.id
  ownerLeft := by rw [AtomTable.insert_id]; exact hs.ownerLeft
  ownerRight := by rw [AtomTable.insert_id]; exact hs.ownerRight
  waitsLeft := hs.waitsLeft
  waitsRight := hs.waitsRight

/-! ### Heaps that grow -/

/-- A world that relates all that another one does. -/
structure World.Le (w w₁ : World) : Prop where
  record : ∀ {r r' : RecordRef}, w.record r r' → w₁.record r r'
  var : ∀ {v v' : VarRef}, w.var v v' → w₁.var v v'
  control : ∀ {v v' : VarRef}, w.control v v' → w₁.control v v'

theorem World.Le.cell (hle : w.Le w₁) {v v' : VarRef} (hv : w.cell v v') : w₁.cell v v' :=
  hv.imp hle.var hle.control

theorem Matches.mono (hrecord : ∀ r r', w.record r r' → w₁.record r r')
    (hvar : ∀ v v', w.var v v' → w₁.var v v') (ha : a₁.table = a.table) (hb : b₁.table = b.table)
    {d d' : Node} (hm : Matches w a b d d') : Matches w₁ a₁ b₁ d d' := by
  cases hm with
  | atom content =>
    rw [← ha, ← hb]
    exact .atom content
  | int i => exact .int i
  | float x => exact .float x
  | bool x => exact .bool x
  | unit => exact .unit
  | record hr => exact .record (hrecord _ _ hr)
  | «variable» hv => exact .variable (hvar _ _ hv)

theorem Matches.le (hle : w.Le w₁) (ha : a₁.table = a.table) (hb : b₁.table = b.table) {d d' : Node}
    (hm : Matches w a b d d') : Matches w₁ a₁ b₁ d d' :=
  hm.mono (fun _ _ => hle.record) (fun _ _ => hle.var) ha hb

/-- What a heap does that binds no variable. -/
structure Heap.Extends (h h₁ : Heap) : Prop extends h.Grows h₁ where
  stays : ∀ {v : VarRef} {ls : List Listener}, h.cell v = .ok (.unbound ls) →
    ∃ ls', h₁.cell v = .ok (.unbound ls')

theorem Heap.Extends.refl (h : Heap) : h.Extends h :=
  { Heap.Grows.refl h with stays := fun hc => ⟨_, hc⟩ }

theorem Heap.Extends.trans {h h₁ h₂ : Heap} (he : h.Extends h₁) (he₁ : h₁.Extends h₂) :
    h.Extends h₂ where
  toGrows := he.toGrows.trans he₁.toGrows
  stays hc := by
    obtain ⟨ls, hc₁⟩ := he.stays hc
    exact he₁.stays hc₁

theorem Later.of_extends (hle : w.Le w₁) (ha : a₁.table = a.table) (hb : b₁.table = b.table)
    (hea : a.heap.Extends a₁.heap) (heb : b.heap.Extends b₁.heap) : Later w a b w₁ a₁ b₁ where
  node := by
    rintro n n' ⟨d, d', hd, hd', hm⟩
    exact ⟨d, d', hea.keeps hea.stays hd, heb.keeps heb.stays hd', hm.le hle ha hb⟩
  control hc := .inl (hle.control hc)
  servedLeft hd := hea.keeps hea.stays hd
  servedRight hd := heb.keeps heb.stays hd
  cell hv := .inl (hle.cell hv)
  bound hv := hea.bound hv

/-! ### Allocating records -/

/-- Both machines have made a node, and are in step again. -/
def Made (w : World) (m m' : Machine) (r r' : Node × Machine) : Prop :=
  ∃ w₁, Lockstep w₁ r.2 r'.2 ∧ Later w m.view m'.view w₁ r.2.view r'.2.view ∧
    Alike w₁ r.2.view r'.2.view r.1 r'.1

/-- The world with one more pair of records. -/
def World.addRecord (w : World) (r r' : RecordRef) : World :=
  { w with record := fun x x' => w.record x x' ∨ x = r ∧ x' = r' }

theorem Heap.extends_allocateRecord (h : Heap) (r : Record) : h.Extends (h.allocateRecord r).2 :=
  { Heap.grows_allocateRecord h r with stays := fun hc => ⟨_, hc⟩ }

theorem Heap.record_fresh {h : Heap} {r s : Record} : h.record (h.allocateRecord r).1 ≠ .ok s := by
  intro hs
  have hlt := (Array.getElem?_eq_some_iff.mp (Heap.record_eq_ok_iff.mp hs)).1
  exact absurd hlt (Nat.lt_irrefl _)

/-- Records that are alike may be allocated on both sides. -/
theorem World.Faithful.allocateRecord (hw : w.Faithful a b) {r r' : Record}
    (hr : RecordAlike w a b r r') :
    let w₁ := w.addRecord (a.heap.allocateRecord r).1 (b.heap.allocateRecord r').1
    let a₁ : View := ⟨a.table, (a.heap.allocateRecord r).2⟩
    let b₁ : View := ⟨b.table, (b.heap.allocateRecord r').2⟩
    w₁.Faithful a₁ b₁ ∧ Later w a b w₁ a₁ b₁ := by
  intro w₁ a₁ b₁
  have hlater : Later w a b w₁ a₁ b₁ :=
    .of_extends ⟨.inl, fun h => h, fun h => h⟩ rfl rfl (Heap.extends_allocateRecord _ _)
      (Heap.extends_allocateRecord _ _)
  refine ⟨?_, hlater⟩
  rintro x x' (h | ⟨rfl, rfl⟩)
  · obtain ⟨s, s', hs, hs', hss⟩ := hw x x' h
    exact ⟨s, s', Heap.record_allocateRecord_of_ok hs r, Heap.record_allocateRecord_of_ok hs' r',
      hlater.record hss⟩
  · exact ⟨r, r', Heap.record_allocateRecord_self _ r, Heap.record_allocateRecord_self _ r',
      hlater.record hr⟩

theorem Likeness.allocateRecord (hl : Likeness w a b) {r r' : Record}
    (hr : RecordAlike w a b r r') :
    let w₁ := w.addRecord (a.heap.allocateRecord r).1 (b.heap.allocateRecord r').1
    let a₁ : View := ⟨a.table, (a.heap.allocateRecord r).2⟩
    let b₁ : View := ⟨b.table, (b.heap.allocateRecord r').2⟩
    Likeness w₁ a₁ b₁ ∧ Later w a b w₁ a₁ b₁ := by
  intro w₁ a₁ b₁
  obtain ⟨hfaithful, hlater⟩ := hl.faithful.allocateRecord hr
  -- a record that was related before is not one of the new ones
  have hleft : ∀ {x' : RecordRef}, ¬ w.record (a.heap.allocateRecord r).1 x' := by
    intro x' h
    obtain ⟨s, s', hs, -⟩ := hl.record h
    exact Heap.record_fresh hs
  have hright : ∀ {x : RecordRef}, ¬ w.record x (b.heap.allocateRecord r').1 := by
    intro x h
    obtain ⟨s, s', -, hs', -⟩ := hl.record h
    exact Heap.record_fresh hs'
  refine ⟨{ record := hfaithful _ _, record_left := ?_, record_right := ?_, var := ?_, control := ?_
            cell_left := fun h h' => hl.cell_left h h', cell_right := fun h h' => hl.cell_right h h'
            disjoint := fun h h' => hl.disjoint h h' }, hlater⟩
  · rintro x x' x'' (h | ⟨rfl, rfl⟩) (h' | ⟨hx, rfl⟩)
    · exact hl.record_left h h'
    · exact absurd (hx ▸ h) hleft
    · exact absurd h' hleft
    · rfl
  · rintro x x' x'' (h | ⟨rfl, rfl⟩) (h' | ⟨rfl, hx⟩)
    · exact hl.record_right h h'
    · exact absurd (hx ▸ h) hright
    · exact absurd h' hright
    · rfl
  · intro v v' hv
    obtain ⟨ls, ls', hc, hc', hls⟩ := hl.var hv
    exact ⟨ls, ls', hc, hc', hlater.listeners hls⟩
  · intro c c' hc
    exact hl.control hc

theorem RecordAlike.balanced {r r' : Record} (hr : RecordAlike w a b r r') (hbal : r.Balanced) :
    r'.Balanced := by
  unfold Record.Balanced at hbal ⊢
  rw [← hr.features.length_eq, ← hr.fields.length_eq, hbal]

theorem Lockstep.allocate (hs : Lockstep w m m') {r r' : Record}
    (hr : RecordAlike w m.view m'.view r r') (hbal : r.Balanced) :
    Made w m m' (m.allocate r) (m'.allocate r') := by
  obtain ⟨hlike, hlater⟩ := hs.like.allocateRecord hr
  refine ⟨_, ⟨hs.toInStep.later hlater hlike fun _ _ h => h,
    hs.waitsLeft.allocateRecord hbal, hs.waitsRight.allocateRecord (hr.balanced hbal)⟩, hlater, ?_⟩
  exact .of_value (.record (.inr ⟨rfl, rfl⟩)) rfl

/-- Machines in step make what they make in step. -/
theorem lockstep_crafting : Crafting Lockstep where
  intern hs := hs.intern
  allocate hs _ _ hr hbal := hs.allocate hr hbal

/-! ### Allocating variables -/

theorem Heap.extends_allocateVariable (h : Heap) : h.Extends h.allocateVariable.2 :=
  { Heap.grows_allocateVariable h with
    stays := fun hc => ⟨_, Heap.cell_allocateVariable_of_ok hc⟩ }

theorem Heap.cell_fresh {h : Heap} {c : Cell} : h.cell h.allocateVariable.1 ≠ .ok c := by
  intro hc
  exact absurd (Heap.lt_of_cell hc) (Nat.lt_irrefl _)

theorem Likeness.cell (hl : Likeness w a b) {v v' : VarRef} (hv : w.cell v v') :
    ∃ ls ls', a.heap.cell v = .ok (.unbound ls) ∧ b.heap.cell v' = .ok (.unbound ls') ∧
      ListenersAlike w a b ls ls' := by
  have hthreads : ∀ ids : List ThreadId,
      ListenersAlike w a b (ids.map .thread) (ids.map .thread) := by
    intro ids
    induction ids with
    | nil => exact .nil
    | cons id ids ih => exact .thread id ih
  rcases hv with hv | hc
  · exact hl.var hv
  · obtain ⟨ids, h, h'⟩ := hl.control hc
    exact ⟨_, _, h, h', hthreads ids⟩

/-- New variables may be related, as variables or as controls. -/
theorem Likeness.allocateVariable (hl : Likeness w a b) (hle : w.Le w₁)
    (hrecord : ∀ {r r'}, w₁.record r r' → w.record r r')
    (hvar : ∀ {v v'}, w₁.var v v' → w.var v v' ∨
      v = a.heap.allocateVariable.1 ∧ v' = b.heap.allocateVariable.1)
    (hcontrol : ∀ {v v'}, w₁.control v v' → w.control v v' ∨
      v = a.heap.allocateVariable.1 ∧ v' = b.heap.allocateVariable.1)
    (hdisjoint : ∀ {v v'}, w₁.var v v' → ¬ w₁.control v v') :
    Likeness w₁ ⟨a.table, a.heap.allocateVariable.2⟩ ⟨b.table, b.heap.allocateVariable.2⟩ ∧
      Later w a b w₁ ⟨a.table, a.heap.allocateVariable.2⟩ ⟨b.table, b.heap.allocateVariable.2⟩ := by
  have hlater : Later w a b w₁ ⟨a.table, a.heap.allocateVariable.2⟩
      ⟨b.table, b.heap.allocateVariable.2⟩ :=
    .of_extends hle rfl rfl (Heap.extends_allocateVariable _) (Heap.extends_allocateVariable _)
  have hcell : ∀ {v v'}, w₁.cell v v' → w.cell v v' ∨
      v = a.heap.allocateVariable.1 ∧ v' = b.heap.allocateVariable.1 := by
    rintro v v' (h | h)
    · exact (hvar h).imp_left .inl
    · exact (hcontrol h).imp_left .inr
  -- the new variables were in no pair before
  have hleft : ∀ {v'}, ¬ w.cell a.heap.allocateVariable.1 v' := by
    intro v' h
    obtain ⟨ls, ls', hc, -⟩ := hl.cell h
    exact Heap.cell_fresh hc
  have hright : ∀ {v}, ¬ w.cell v b.heap.allocateVariable.1 := by
    intro v h
    obtain ⟨ls, ls', -, hc', -⟩ := hl.cell h
    exact Heap.cell_fresh hc'
  -- and nobody listens to them yet
  have hnew : ∀ h : Heap, h.allocateVariable.2.cell h.allocateVariable.1 = .ok (.unbound []) :=
    fun h => Heap.cell_allocateVariable.mpr (.inr ⟨rfl, rfl⟩)
  refine ⟨{ record := ?_, record_left := fun h h' => hl.record_left (hrecord h) (hrecord h')
            record_right := fun h h' => hl.record_right (hrecord h) (hrecord h'), var := ?_
            control := ?_, cell_left := ?_, cell_right := ?_, disjoint := hdisjoint }, hlater⟩
  · intro r r' h
    obtain ⟨s, s', hs, hs', hss⟩ := hl.record (hrecord h)
    exact ⟨s, s', hs, hs', hlater.record hss⟩
  · intro v v' h
    rcases hvar h with h | ⟨rfl, rfl⟩
    · obtain ⟨ls, ls', hc, hc', hls⟩ := hl.var h
      exact ⟨ls, ls', Heap.cell_allocateVariable_of_ok hc, Heap.cell_allocateVariable_of_ok hc',
        hlater.listeners hls⟩
    · exact ⟨[], [], hnew _, hnew _, .nil⟩
  · intro c c' h
    rcases hcontrol h with h | ⟨rfl, rfl⟩
    · obtain ⟨ids, hc, hc'⟩ := hl.control h
      exact ⟨ids, Heap.cell_allocateVariable_of_ok hc, Heap.cell_allocateVariable_of_ok hc'⟩
    · exact ⟨[], hnew _, hnew _⟩
  -- pairs of old variables stay functional, and the new pair meets none of them on either side
  · intro v v' v'' h h'
    rcases hcell h with h | ⟨hv, rfl⟩
    · rcases hcell h' with h' | ⟨hv, rfl⟩
      · exact hl.cell_left h h'
      · exact absurd (hv ▸ h) hleft
    · rcases hcell h' with h' | ⟨-, rfl⟩
      · exact absurd (hv ▸ h') hleft
      · rfl
  · intro v v' v'' h h'
    rcases hcell h with h | ⟨rfl, hv⟩
    · rcases hcell h' with h' | ⟨rfl, hv⟩
      · exact hl.cell_right h h'
      · exact absurd (hv ▸ h) hright
    · rcases hcell h' with h' | ⟨rfl, -⟩
      · exact absurd (hv ▸ h') hright
      · rfl

/-- The world with one more pair of variables. -/
def World.addVar (w : World) (v v' : VarRef) : World :=
  { w with var := fun x x' => w.var x x' ∨ x = v ∧ x' = v' }

/-- The world with one more pair of controls. -/
def World.addControl (w : World) (v v' : VarRef) : World :=
  { w with control := fun x x' => w.control x x' ∨ x = v ∧ x' = v' }

theorem Lockstep.newVariable (hs : Lockstep w m m') :
    Made w m m' (.variable m.newVariable.1, m.newVariable.2)
      (.variable m'.newVariable.1, m'.newVariable.2) := by
  have hle : w.Le (w.addVar m.newVariable.1 m'.newVariable.1) :=
    ⟨fun h => h, .inl, fun h => h⟩
  obtain ⟨hlike, hlater⟩ := hs.like.allocateVariable hle (fun h => h) (fun h => h) .inl (by
    rintro v v' (h | ⟨rfl, rfl⟩) hc
    · exact hs.like.disjoint h hc
    · obtain ⟨ids, hc, -⟩ := hs.like.control hc
      exact Heap.cell_fresh hc)
  refine ⟨_, ⟨hs.toInStep.later hlater hlike fun _ _ h => hle.cell h,
    hs.waitsLeft.allocateVariable, hs.waitsRight.allocateVariable⟩, hlater, ?_⟩
  obtain ⟨ls, ls', hc, hc', -⟩ := hlike.var (.inr ⟨rfl, rfl⟩)
  exact ⟨_, _, Heap.deref_unbound hc, Heap.deref_unbound hc', .variable (.inr ⟨rfl, rfl⟩)⟩

theorem Lockstep.newControl (hs : Lockstep w m m') :
    ∃ w₁, Lockstep w₁ m.newVariable.2 m'.newVariable.2 ∧ w.Le w₁ ∧
      Later w m.view m'.view w₁ m.newVariable.2.view m'.newVariable.2.view ∧
      w₁.control m.newVariable.1 m'.newVariable.1 := by
  have hle : w.Le (w.addControl m.newVariable.1 m'.newVariable.1) :=
    ⟨fun h => h, fun h => h, .inl⟩
  obtain ⟨hlike, hlater⟩ := hs.like.allocateVariable hle (fun h => h) .inl (fun h => h) (by
    rintro v v' h (hc | ⟨rfl, rfl⟩)
    · exact hs.like.disjoint h hc
    · obtain ⟨ls, ls', hc, -⟩ := hs.like.var h
      exact Heap.cell_fresh hc)
  exact ⟨_, ⟨hs.toInStep.later hlater hlike fun _ _ h => hle.cell h,
    hs.waitsLeft.allocateVariable, hs.waitsRight.allocateVariable⟩, hle, hlater, .inr ⟨rfl, rfl⟩⟩

end Dataflow
