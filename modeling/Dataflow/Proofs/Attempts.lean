import Dataflow.Proofs.Controls
import Dataflow.Proofs.Discipline
import Dataflow.Proofs.Lockstep
import Dataflow.Proofs.Making
import Dataflow.Proofs.Suspension

/-! # Calls that do not proceed

  A call that raises or suspends has committed nothing. To raise an exception is to make it, of new
  records and atoms. To suspend changes nothing at all, but that a call which waits for one of many
  fields may leave a new control behind.
-/

namespace Dataflow

theorem Heap.Gains.extends {h h' : Heap} {c : VarRef} (hg : h.Gains h' c) : h.Extends h' :=
  { hg.grows with
    stays := fun hv => (hg.unbound hv).elim (fun h => ⟨_, h⟩) fun h => ⟨_, h⟩ }

namespace Machine

variable {m m' m'' : Machine} {b : Builtin} {operands : List Node} {o : Outcome}

/-! ### Exceptions -/

/-- The second machine is the first with new atoms and new records. -/
def Prolongs (m m' : Machine) : Prop :=
  ∃ (contents : List String) (records : Array Record), contents.Disjoint m.atoms.contents ∧
    m' = { m with
      atoms := { m.atoms with contents := contents ++ m.atoms.contents }
      heap := { m.heap with
        records := m.heap.records ++ records
        allocated := m.heap.allocated + records.size } }

theorem Prolongs.refl (m : Machine) : m.Prolongs m := ⟨[], #[], by simp, by simp⟩

theorem Prolongs.trans (h₁ : m.Prolongs m') (h₂ : m'.Prolongs m'') : m.Prolongs m'' := by
  obtain ⟨cs, rs, hd, rfl⟩ := h₁
  obtain ⟨cs', rs', hd', rfl⟩ := h₂
  refine ⟨cs' ++ cs, rs ++ rs', List.disjoint_append_left.mpr ⟨?_, hd⟩, ?_⟩
  · exact (List.disjoint_append_right.mp hd').2
  · simp [Nat.add_assoc]

theorem prolongs_intern (m : Machine) (content : String) :
    m.Prolongs { m with atoms := m.atoms.insert content } := by
  unfold AtomTable.insert
  split
  · exact .refl m
  · next hnew => exact ⟨[content], #[], by simpa using hnew, by simp⟩

theorem prolongs_allocate (m : Machine) (r : Record) : m.Prolongs (m.allocate r).2 :=
  ⟨[], #[r], by simp, by simp [allocate, Heap.allocateRecord]⟩

/-- Whatever is made is made of new atoms and new records. -/
theorem prolongs_making : Making Prolongs fun _ _ => True where
  again _ := .refl _
  trans := .trans
  keeps _ _ := trivial
  inline _ := trivial
  intern _ content := ⟨prolongs_intern _ content, trivial⟩
  allocate _ _ _ := ⟨prolongs_allocate _ _, trivial⟩

theorem prolongs_typeError (m : Machine) (expected : String) (n : Node) :
    ∃ e m', m.raiseTypeError expected n = (.raise e, m') ∧ m.Prolongs m' := by
  obtain ⟨e, m', he, hp, -⟩ : ∃ e m', m.raiseTypeError expected n = (.raise e, m') ∧
      m.Prolongs m' ∧ True := prolongs_making.raiseTypeError (.refl m) expected trivial
  exact ⟨e, m', he, hp⟩

theorem Prolongs.extends (hp : m.Prolongs m') : m.heap.Extends m'.heap := by
  obtain ⟨contents, records, -, rfl⟩ := hp
  refine
    { record := fun {ref r} hr => ?_
      bound := fun hv => hv
      unbound := fun hv => .inl ⟨[], by rw [List.append_nil]; exact hv⟩
      stays := fun hv => ⟨_, hv⟩ }
  have hget := Heap.record_eq_ok_iff.mp hr
  refine Heap.record_eq_ok_iff.mpr ?_
  rw [Array.getElem?_append_left (Array.getElem?_eq_some_iff.mp hget).1]
  exact hget

/-! ### Attempts -/

/-- What a call of `b` that does not proceed has come to. -/
inductive Attempt (m : Machine) (b : Builtin) : Outcome → Machine → Prop where
  /-- An exception has been made. -/
  | raise {e : Node} {m' : Machine} : m.Prolongs m' → Attempt m b (.raise e) m'
  /-- The call waits for a variable that was there before, and nothing has changed. -/
  | suspend {v : VarRef} {cell : Cell} : m.heap.cell v = .ok cell → Attempt m b (.suspend v) m
  /-- The call waits for one of many fields through a new control. -/
  | control {c : VarRef} {heap : Heap} : b = .waitOr → m.heap.Gains heap c →
      Attempt m b (.suspend c) { m with heap }

theorem attempt_ends (hcanon : m.heap.Canonical) (hs : m.Steady) (b : Builtin) :
    m.Ends b fun o m' => (∀ results, o ≠ .proceed results) → m.Attempt b o m' where
  canonical := hcanon
  proceed results ho := absurd rfl (ho results)
  suspend v hv _ := by
    obtain ⟨ls, hcell⟩ := Heap.cell_of_deref hv
    exact .suspend hcell
  raise kind _ _ := .raise (prolongs_making.newException (.refl m) kind fun _ _ => trivial).1
  typeError expected n _ := by
    obtain ⟨e, last, he, hp⟩ := prolongs_typeError m expected n
    rw [he]
    exact .raise hp
  bind _ _ _ _ _ ho := absurd rfl (ho [])
  wait hb vs c m' hne hvs hwait _ := by
    obtain ⟨c', last, hw, hcases⟩ :=
      waitForAny_completes hs hne fun v hv => Heap.cell_of_deref (hvs v hv)
    rw [hw] at hwait
    cases hwait
    -- the control is one that is pending already, or a new one
    rcases hcases with ⟨rfl, hc | hc⟩ | ⟨heap, rfl, hg⟩
    · obtain ⟨ls, hcell⟩ := Heap.cell_of_deref (hvs c hc)
      exact .suspend hcell
    · obtain ⟨cell, hcell⟩ := hs.control hc
      exact .suspend hcell
    · exact .control hb hg
  shows _ _ ho := absurd rfl (ho [])

/-- Every call of a reachable machine that does not proceed is an attempt. -/
theorem Reachable.attempt (hm : Reachable m) (hc : m.call b operands = .ok (o, m'))
    (ho : ∀ results, o ≠ .proceed results) : m.Attempt b o m' :=
  (attempt_ends hm.canonical hm.waits.steady b).call hc ho

/-- All that a program can see is as it was: the text shown, the threads and their queue, the roots,
    the records and the values of variables. No variable has been given a value. -/
structure Uncommitted (m m' : Machine) : Prop where
  id : m'.id = m.id
  settings : m'.settings = m.settings
  output : m'.output = m.output
  scheduler : m'.scheduler = m.scheduler
  roots : m'.roots = m.roots
  heap : m.heap.Extends m'.heap

theorem Attempt.uncommitted (ha : m.Attempt b o m') : m.Uncommitted m' := by
  cases ha with
  | raise hp =>
    have hheap := hp.extends
    obtain ⟨contents, records, -, rfl⟩ := hp
    exact ⟨rfl, rfl, rfl, rfl, rfl, hheap⟩
  | suspend _ =>
    exact ⟨rfl, rfl, rfl, rfl, rfl, .refl _⟩
  | control _ hg => exact ⟨rfl, rfl, rfl, rfl, rfl, hg.extends⟩

/-- A thread whose call does not proceed keeps its registers and its place. -/
theorem Attempt.turn (ha : m.Attempt b o m') (hc : m.call b operands = .ok (o, m')) {t : Thread}
    {i : Instruction} (hi : t.code[t.pc]? = some i) (hb : i.builtin = b)
    (hops : i.inputs.mapM t.register = .ok operands) :
    ∃ last t', turn 1 m t = .ok (last, t') ∧ t'.registers = t.registers ∧ t'.pc = t.pc := by
  subst hb
  have hparks : ∀ {v : VarRef} {cell : Cell}, o = .suspend v → m'.heap.cell v = .ok cell →
      ∃ last t', Machine.turn 1 m t = .ok (last, t') ∧ t'.registers = t.registers ∧
        t'.pc = t.pc := by
    rintro v cell rfl hcell
    rw [Machine.turn, hi]
    simp only [hops, ok_bind, hc]
    cases cell with
    | unbound ls =>
      rw [Heap.addListener_unbound hcell]
      exact ⟨_, _, rfl, rfl, rfl⟩
    | bound x =>
      rw [addListener_bound _ hcell]
      exact ⟨_, _, rfl, rfl, rfl⟩
  cases ha with
  | raise _ =>
    rw [Machine.turn, hi]
    simp only [hops, ok_bind, hc]
    exact ⟨_, _, rfl, rfl, rfl⟩
  | suspend hcell => exact hparks rfl hcell
  | control _ hg => exact hparks rfl hg.cell

end Machine

end Dataflow
