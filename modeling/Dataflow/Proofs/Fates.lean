import Dataflow.Proofs.Attempts
import Dataflow.Proofs.Resemblance
import Dataflow.Proofs.Slices
import Dataflow.Proofs.Turns

/-! # What becomes of a thread

  A thread that binds nothing writes nothing that another thread could read. So its calls come to the
  same whenever they are made, and what becomes of it can be told from the machine as it stands: it
  makes one call after the other until it is done, a call raises an exception, or a call suspends.
  This is the *fate* of the thread.

  Two machines stand *abreast* if they hold the same roots, up to a relation between the variables
  without a value, which is one to one. Main statement: on machines that stand abreast, threads that
  work on the same nodes have the same fate.
-/

namespace Dataflow

namespace Machine

variable {m m' m'' : Machine} {b : Builtin} {operands : List Node} {o : Outcome}

/-! ### Calls that bind nothing -/

/-- What a thread can see is as it was, but for what has been shown. -/
structure Quiet (m m' : Machine) : Prop where
  table : m'.atoms.id = m.atoms.id
  settings : m'.settings = m.settings
  scheduler : m'.scheduler = m.scheduler
  roots : m'.roots = m.roots
  heap : m.heap.Extends m'.heap

theorem Quiet.refl (m : Machine) : m.Quiet m := ⟨rfl, rfl, rfl, rfl, .refl _⟩

theorem Quiet.trans (h₁ : m.Quiet m') (h₂ : m'.Quiet m'') : m.Quiet m'' where
  table := h₂.table.trans h₁.table
  settings := h₂.settings.trans h₁.settings
  scheduler := h₂.scheduler.trans h₁.scheduler
  roots := h₂.roots.trans h₁.roots
  heap := h₁.heap.trans h₂.heap

theorem Prolongs.quiet (hp : m.Prolongs m') : m.Quiet m' := by
  have hheap := hp.extends
  obtain ⟨contents, records, -, rfl⟩ := hp
  exact ⟨rfl, rfl, rfl, rfl, hheap⟩

theorem quiet_ends (hcanon : m.heap.Canonical) (hs : m.Steady) (hb : b ≠ .bind) :
    m.Ends b fun _ m' => m.Quiet m' where
  canonical := hcanon
  proceed _ := .refl m
  suspend _ _ := .refl m
  raise kind _ := (prolongs_making.newException (.refl m) kind fun _ _ => trivial).1.quiet
  typeError expected n := by
    obtain ⟨e, last, he, hp⟩ := prolongs_typeError m expected n
    rw [he]
    exact hp.quiet
  bind h := absurd h hb
  wait _ vs c m' hne hvs hwait := by
    obtain ⟨c', last, hw, hcases⟩ :=
      waitForAny_completes hs hne fun v hv => Heap.cell_of_deref (hvs v hv)
    rw [hw] at hwait
    cases hwait
    rcases hcases with ⟨rfl, -⟩ | ⟨heap, rfl, hg⟩
    · exact .refl _
    · exact ⟨rfl, rfl, rfl, rfl, hg.extends⟩
  shows _ _ := ⟨rfl, rfl, rfl, rfl, .refl _⟩

/-! ### Machines abreast -/

/-- An orderly machine whose waiting threads are in their lists. -/
structure Poised (m : Machine) : Prop where
  orderly : m.Orderly
  waits : Waits m.heap m.scheduler.threads m.scheduler.spawned

theorem Poised.quiet_call (hm : m.Poised) (hb : b ≠ .bind)
    (hc : m.call b operands = .ok (o, m')) : m.Quiet m' :=
  (quiet_ends hm.orderly.heap.canonical hm.waits.steady hb).call hc

/-- The variable has no value, and is no control. -/
def Free (m : Machine) (v : VarRef) : Prop :=
  m.Trusts (.variable v) ∧ ∃ ls, m.heap.cell v = .ok (.unbound ls)

theorem Free.deref {v : VarRef} (hv : m.Free v) :
    m.heap.deref (.variable v) = .ok (.variable v) := by
  obtain ⟨-, ls, hcell⟩ := hv
  exact Heap.deref_unbound hcell

theorem Free.advances {v : VarRef} (hv : m.Free v) (ha : m.Advances m')
    (he : m.heap.Extends m'.heap) : m'.Free v := by
  obtain ⟨htrusts, ls, hc⟩ := hv
  exact ⟨ha.trusts htrusts, he.stays hc⟩

end Machine

open Machine (Poised Free)

variable {β γ : VarRef → VarRef → Prop} {a b : View} {m m' m'' : Machine}

/-- Two machines hold roots that resemble each other, for variables related by `β`. -/
structure Abreast (β : VarRef → VarRef → Prop) (m m' : Machine) : Prop where
  left : m.Poised
  right : m'.Poised
  depth : m.settings.printDepth = m'.settings.printDepth
  spawned : m.scheduler.spawned = m'.scheduler.spawned
  roots : List.Forall₂ (Resembles β m.view m'.view) m.roots m'.roots
  /-- Related variables have no value, and are no controls. -/
  free : ∀ {v v' : VarRef}, β v v' → m.Free v ∧ m'.Free v'
  /-- A variable is related to one variable. -/
  unique_left : ∀ {v v' v'' : VarRef}, β v v' → β v v'' → v' = v''
  unique_right : ∀ {v v' v'' : VarRef}, β v v'' → β v' v'' → v = v'

namespace Abreast

theorem flip (h : Abreast β m m') : Abreast (flip β) m' m where
  left := h.right
  right := h.left
  depth := h.depth.symm
  spawned := h.spawned.symm
  roots := forall₂_flip h.roots fun _ _ hn => hn.flip
  free hv := (h.free hv).symm
  unique_left hv hv' := h.unique_right hv hv'
  unique_right hv hv' := h.unique_left hv hv'

theorem trans (h : Abreast β m m') (h₁ : Abreast γ m' m'') :
    Abreast (Relation.Comp β γ) m m'' where
  left := h.left
  right := h₁.right
  depth := h.depth.trans h₁.depth
  spawned := h.spawned.trans h₁.spawned
  roots := forall₂_trans h.roots h₁.roots fun _ _ _ hn hn₁ => hn.trans hn₁
  free := by
    intro v v'' hv
    obtain ⟨v', hv, hv₁⟩ := hv
    exact ⟨(h.free hv).1, (h₁.free hv₁).2⟩
  unique_left := by
    intro v u u' hu hu'
    obtain ⟨x, hx, hu⟩ := hu
    obtain ⟨x', hx', hu'⟩ := hu'
    rw [h.unique_left hx hx'] at hu
    exact h₁.unique_left hu hu'
  unique_right := by
    intro u u' v hu hu'
    obtain ⟨x, hu, hx⟩ := hu
    obtain ⟨x', hu', hx'⟩ := hu'
    rw [h₁.unique_right hx hx'] at hu
    exact h.unique_right hu hu'

end Abreast

/-! ### Calls on machines abreast -/

/-- Two calls have come to the same end. It is left open which variables they wait for. -/
inductive Corresponds (β : VarRef → VarRef → Prop) (a b : View) :
    Outcome × Machine → Outcome × Machine → Prop where
  | proceed {results results' : List Node} {m m' : Machine} :
      List.Forall₂ (Resembles β a b) results results' →
      Corresponds β a b (.proceed results, m) (.proceed results', m')
  | suspend {v v' : VarRef} {m m' : Machine} : Corresponds β a b (.suspend v, m) (.suspend v', m')
  | raise {e e' : Node} {m m' : Machine} : Resembles β m.view m'.view e e' →
      Corresponds β a b (.raise e, m) (.raise e', m')

theorem dialogue_resemblance (β : VarRef → VarRef → Prop) (m m' : Machine) :
    Dialogue (resemblance β m.view m'.view) m m' (Corresponds β m.view m'.view) where
  faithful := faithful_resemblance β m.view m'.view
  proceed hr := .proceed hr
  suspend _ := .suspend
  raise kind _ _ ha :=
    .raise ((resembling_crafting β).newException (resembling_resemblance β m m') kind ha).resembles
  typeError expected _ _ hn := by
    obtain ⟨e, e', he, he', hmade⟩ :=
      (resembling_crafting β).typeError (resembling_resemblance β m m') expected hn
    rw [he, he']
    exact .raise hmade.resembles

theorem forall_of_forall₂ {α γ : Type} {R : α → γ → Prop} {P : α → Prop} {xs : List α} {ys : List γ}
    (hxy : List.Forall₂ R xs ys) (hP : ∀ x y, R x y → P x) : ∀ x ∈ xs, P x := by
  induction hxy with
  | nil => exact fun x hx => absurd hx List.not_mem_nil
  | cons hr _ ih =>
    intro x hx
    rcases List.mem_cons.mp hx with rfl | hx
    · exact hP _ _ hr
    · exact ih x hx

namespace Abreast

/-- Either both wait for one of many variables, or there is none to wait for. -/
theorem waitForAny (h : Abreast β m m') {vs vs' : List VarRef} (hv : List.Forall₂ β vs vs') :
    Agree (Corresponds β m.view m'.view)
      (do let (v, m) ← m.waitForAny vs; return (.suspend v, m))
      (do let (v, m) ← m'.waitForAny vs'; return (.suspend v, m)) := by
  have hfree : ∀ v ∈ vs, m.Free v := forall_of_forall₂ hv fun _ _ h' => (h.free h').1
  have hfree' : ∀ v' ∈ vs', m'.Free v' := forall_of_forall₂ hv.flip fun _ _ h' => (h.free h').2
  by_cases hne : vs = []
  · subst hne
    cases hv
    exact .error _
  · have hne' : vs' ≠ [] := by
      intro hnil
      subst hnil
      cases hv
      exact hne rfl
    obtain ⟨c, m₁, hw, -⟩ :=
      Machine.waitForAny_settles h.left.orderly h.left.waits hne hfree
    obtain ⟨c', m₁', hw', -⟩ :=
      Machine.waitForAny_settles h.right.orderly h.right.waits hne' hfree'
    rw [hw, hw']
    exact .ok .suspend

theorem repr (h : Abreast β m m') {n n' : Node} (hn : Resembles β m.view m'.view n n') :
    m.repr n = m'.repr n' := by
  unfold Machine.repr Machine.print
  rw [← h.depth]
  exact hn.print _

/-- A call that binds nothing comes to the same end on both machines. -/
theorem call (h : Abreast β m m') {op : Builtin} (hop : op ≠ .bind) {ns ns' : List Node}
    (hn : List.Forall₂ (Resembles β m.view m'.view) ns ns') :
    Agree (Corresponds β m.view m'.view) (m.call op ns) (m'.call op ns') := by
  refine (dialogue_resemblance β m m').call op ?_ ?_ (fun hbind => absurd hbind hop) hn
  · intro _ vs vs' hvs
    exact h.waitForAny hvs
  · intro n n' hn
    unfold Machine.callShow
    refine (Agree.of_eq (h.repr hn)).bind fun text text' _ _ htext => ?_
    exact .ok (.proceed .nil)

end Abreast

/-! ### Threads -/

/-- Whether the thread still has calls to make. -/
def ThreadState.isActive : ThreadState → Bool
  | .runnable | .waiting _ => true
  | .terminated | .failed _ => false

/-- No instruction of the thread is a bind. -/
def Thread.BindFree (t : Thread) : Prop := ∀ i ∈ t.code, i.builtin ≠ .bind

/-- Two threads are at the same place, with registers that resemble each other. -/
structure Peers (β : VarRef → VarRef → Prop) (a b : View) (t t' : Thread) : Prop where
  id : t.id = t'.id
  code : t.code = t'.code
  pc : t.pc = t'.pc
  registers : List.Forall₂ (Resembles β a b) t.registers t'.registers

namespace Peers

variable {t t' t'' : Thread}

theorem imp {a₁ b₁ : View} {β₁ : VarRef → VarRef → Prop}
    (himp : ∀ n n', Resembles β a b n n' → Resembles β₁ a₁ b₁ n n') (ht : Peers β a b t t') :
    Peers β₁ a₁ b₁ t t' :=
  { ht with registers := ht.registers.imp himp }

theorem flip (ht : Peers β a b t t') : Peers (flip β) b a t' t where
  id := ht.id.symm
  code := ht.code.symm
  pc := ht.pc.symm
  registers := forall₂_flip ht.registers fun _ _ hn => hn.flip

theorem trans {c : View} (ht : Peers β a b t t') (ht' : Peers γ b c t' t'') :
    Peers (Relation.Comp β γ) a c t t'' where
  id := ht.id.trans ht'.id
  code := ht.code.trans ht'.code
  pc := ht.pc.trans ht'.pc
  registers := forall₂_trans ht.registers ht'.registers fun _ _ _ hn hn' => hn.trans hn'

theorem advance (ht : Peers β a b t t') (outputs : List Nat) {results results' : List Node}
    (hr : List.Forall₂ (Resembles β a b) results results') :
    Peers β a b (t.advance outputs results) (t'.advance outputs results') where
  id := ht.id
  code := ht.code
  pc := by
    show t.pc + 1 = t'.pc + 1
    rw [ht.pc]
  registers := store_alike ht.registers hr outputs

end Peers

/-! ### Fates -/

/-- How a thread ends that is left to itself. -/
inductive Ending where
  /-- It has made all of its calls. -/
  | done
  /-- Its next call suspends. -/
  | blocked
  /-- Its next call raises an exception, which lies in the heap of the machine after the call. -/
  | raised (exception : Node) (m : Machine)

namespace Machine

/-- Makes at most `n` calls of a thread, all of them on the machine as it stands. -/
def fateWithin (m : Machine) : Nat → Thread → Except Fault (Thread × Ending)
  | 0, t => .ok (t, .done)
  | n + 1, t =>
    match t.code[t.pc]? with
    | none => .ok (t, .done)
    | some i => do
      match ← m.call i.builtin (← i.inputs.mapM t.register) with
      | (.proceed results, _) => m.fateWithin n (t.advance i.outputs results)
      | (.suspend _, _) => return (t, .blocked)
      | (.raise e, after) => return (t, .raised e after)

/-- The thread as it ends, and how. A thread that has ended stays as it is. -/
def fate (m : Machine) (t : Thread) : Except Fault (Thread × Ending) :=
  match t.state with
  | .terminated => .ok (t, .done)
  | .failed e => .ok (t, .raised e m)
  | .runnable | .waiting _ => m.fateWithin t.remaining t

variable {t : Thread}

theorem fate_active (ht : t.state.isActive = true) : m.fate t = m.fateWithin t.remaining t := by
  unfold fate
  cases hs : t.state with
  | runnable => rfl
  | waiting v => rfl
  | terminated => rw [hs] at ht; cases ht
  | failed e => rw [hs] at ht; cases ht

theorem fate_finished (ht : t.state.isActive = true) (hf : t.isFinished = true) :
    m.fate t = .ok (t, .done) := by
  have hle : t.code.length ≤ t.pc := by simpa [Thread.isFinished] using hf
  have hzero : t.remaining = 0 := by
    unfold Thread.remaining
    omega
  rw [fate_active ht, hzero, fateWithin]

/-- The fate of a thread is decided by its next call, and then by the fate of what it has become. -/
theorem fate_call (ht : t.state.isActive = true) {i : Instruction} (hi : t.code[t.pc]? = some i)
    {operands : List Node} (ho : i.inputs.mapM t.register = .ok operands) :
    m.fate t = (do
      match ← m.call i.builtin operands with
      | (.proceed results, _) => m.fate (t.advance i.outputs results)
      | (.suspend _, _) => return (t, .blocked)
      | (.raise e, after) => return (t, .raised e after)) := by
  have hlt : t.pc < t.code.length := (List.getElem?_eq_some_iff.mp hi).1
  have hsucc : ∀ results, t.remaining = (t.advance i.outputs results).remaining + 1 := by
    intro results
    show t.code.length - t.pc = t.code.length - (t.pc + 1) + 1
    omega
  rw [fate_active ht, hsucc [], fateWithin, hi]
  simp only [ho, ok_bind]
  refine congrArg _ (funext fun r => ?_)
  obtain ⟨o, after⟩ := r
  cases o with
  | proceed results =>
    have hactive : (t.advance i.outputs results).state.isActive = true := ht
    exact (fate_active hactive).symm
  | raise e => rfl
  | suspend v => rfl

end Machine

/-- Two endings are the same, with exceptions that resemble each other. -/
inductive EndingAlike (β : VarRef → VarRef → Prop) : Ending → Ending → Prop where
  | done : EndingAlike β .done .done
  | blocked : EndingAlike β .blocked .blocked
  | raised {e e' : Node} {m m' : Machine} : Resembles β m.view m'.view e e' →
      EndingAlike β (.raised e m) (.raised e' m')

/-- Two fates are the same. -/
def FateAlike (β : VarRef → VarRef → Prop) (a b : View) (f f' : Thread × Ending) : Prop :=
  Peers β a b f.1 f'.1 ∧ EndingAlike β f.2 f'.2

/-- Two threads have calls to make, or have ended in the same way. -/
inductive Akin (β : VarRef → VarRef → Prop) (a b : View) : ThreadState → ThreadState → Prop where
  | active {s s' : ThreadState} : s.isActive = true → s'.isActive = true → Akin β a b s s'
  | terminated : Akin β a b .terminated .terminated
  | failed {e e' : Node} : Resembles β a b e e' → Akin β a b (.failed e) (.failed e')

/-- Two threads are at the same place, and have calls to make or have ended in the same way. -/
structure Mates (β : VarRef → VarRef → Prop) (a b : View) (t t' : Thread) : Prop
    extends Peers β a b t t' where
  state : Akin β a b t.state t'.state

namespace Abreast

variable {t t' : Thread}

theorem fateWithin (h : Abreast β m m') (n : Nat) (hfree : t.BindFree)
    (ht : Peers β m.view m'.view t t') :
    Agree (FateAlike β m.view m'.view) (m.fateWithin n t) (m'.fateWithin n t') := by
  induction n generalizing t t' with
  | zero => exact .ok ⟨ht, .done⟩
  | succ n ih =>
    rw [Machine.fateWithin, Machine.fateWithin, ← ht.code, ← ht.pc]
    cases hi : t.code[t.pc]? with
    | none => exact .ok ⟨ht, .done⟩
    | some i =>
      have hop : i.builtin ≠ .bind := hfree i (List.mem_of_getElem? hi)
      refine (operands_agree ht.registers i.inputs).bind fun ns ns' _ _ hns => ?_
      refine (h.call hop hns).bind fun r r' _ _ hr => ?_
      cases hr with
      | proceed hresults => exact ih hfree (ht.advance i.outputs hresults)
      | suspend => exact .ok ⟨ht, .blocked⟩
      | raise he => exact .ok ⟨ht, .raised he⟩

/-- Threads that work on the same nodes have the same fate. -/
theorem fate (h : Abreast β m m') (hfree : t.BindFree) (ht : Mates β m.view m'.view t t') :
    Agree (FateAlike β m.view m'.view) (m.fate t) (m'.fate t') := by
  have hs := ht.state
  generalize hst : t.state = s at hs
  generalize hst' : t'.state = s' at hs
  cases hs with
  | active ha ha' =>
    have hremaining : t'.remaining = t.remaining := by
      unfold Thread.remaining
      rw [ht.code, ht.pc]
    rw [Machine.fate_active (hst ▸ ha), Machine.fate_active (hst' ▸ ha'), hremaining]
    exact h.fateWithin t.remaining hfree ht.toPeers
  | terminated =>
    unfold Machine.fate
    rw [hst, hst']
    exact .ok ⟨ht.toPeers, .done⟩
  | failed he =>
    unfold Machine.fate
    rw [hst, hst']
    exact .ok ⟨ht.toPeers, .raised he⟩

end Abreast

end Dataflow
