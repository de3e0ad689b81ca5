import Dataflow.Proofs.Binding
import Dataflow.Proofs.Dialogue

/-! # Calls in step

  Machines in step answer a call in the same way: both proceed with results that are alike, both
  raise exceptions that are alike, or both suspend on related variables. It is shown for the ends of
  a call, and for those builtins that look at who waits for whom; `Lockstep.call` is for all.
-/

namespace Dataflow

variable {w w₁ : World} {a b : View} {m m' : Machine} {op : Builtin}

/-! ### Answers -/

/-- Two outcomes of a call stand for each other. Only a call that waits for one field of many may
    name a control. -/
inductive OutcomeAlike (op : Builtin) (w : World) (a b : View) : Outcome → Outcome → Prop where
  | proceed {results results' : List Node} : List.Forall₂ (Alike w a b) results results' →
      OutcomeAlike op w a b (.proceed results) (.proceed results')
  | raise {e e' : Node} : Alike w a b e e' → OutcomeAlike op w a b (.raise e) (.raise e')
  | suspend {v v' : VarRef} : w.cell v v' → (op ≠ .waitOr → w.var v v') →
      OutcomeAlike op w a b (.suspend v) (.suspend v')

/-- Two machines in step have answered a call in the same way, and are in step again. -/
def Answered (op : Builtin) (w : World) (m m' : Machine) (o o' : Outcome × Machine) : Prop :=
  ∃ w₁, Lockstep w₁ o.2 o'.2 ∧ Later w m.view m'.view w₁ o.2.view o'.2.view ∧
    OutcomeAlike op w₁ o.2.view o'.2.view o.1 o'.1

theorem Answered.proceed (hs : Lockstep w m m') {results results' : List Node}
    (hr : List.Forall₂ (Alike w m.view m'.view) results results') :
    Answered op w m m' (.proceed results, m) (.proceed results', m') :=
  ⟨w, hs, .refl w _ _, .proceed hr⟩

theorem Answered.suspend (hs : Lockstep w m m') {v v' : VarRef} (hv : w.var v v') :
    Answered op w m m' (.suspend v, m) (.suspend v', m') :=
  ⟨w, hs, .refl w _ _, .suspend (.inl hv) fun _ => hv⟩

/-! ### Exceptions -/

theorem Answered.raise (hs : Lockstep w m m') (kind : String) {args args' : List Node}
    (ha : List.Forall₂ (Alike w m.view m'.view) args args') :
    Answered op w m m' (.raise (m.newException kind args).1, (m.newException kind args).2)
      (.raise (m'.newException kind args').1, (m'.newException kind args').2) := by
  obtain ⟨w₁, hs₁, hlater, he⟩ := lockstep_crafting.newException hs kind ha
  exact ⟨w₁, hs₁, hlater, .raise he⟩

theorem Answered.raiseTypeError (hs : Lockstep w m m') (expected : String) {n n' : Node}
    (hn : Alike w m.view m'.view n n') :
    Answered op w m m' (m.raiseTypeError expected n) (m'.raiseTypeError expected n') := by
  obtain ⟨e, e', he, he', w₁, hs₁, hlater, halike⟩ := lockstep_crafting.typeError hs expected hn
  rw [he, he']
  exact ⟨w₁, hs₁, hlater, .raise halike⟩

/-! ### The ends of a call -/

/-- What two machines in step are asked they answer in the same way. -/
theorem Lockstep.dialogue (hs : Lockstep w m m') : Dialogue w m m' (Answered op w m m') where
  faithful := hs.like.faithful
  proceed := .proceed hs
  suspend := .suspend hs
  raise kind _ _ := .raise hs kind
  typeError expected _ _ := .raiseTypeError hs expected

/-! ### Waiting for one field of many -/

theorem Likeness.listeners (hl : Likeness w a b) {v v' : VarRef} (hv : w.cell v v') :
    Agree (ListenersAlike w a b) (a.heap.listeners v) (b.heap.listeners v') := by
  obtain ⟨ls, ls', hc, hc', hls⟩ := hl.cell hv
  rw [Heap.listeners, Heap.listeners, hc, hc']
  exact .ok hls

theorem Lockstep.listensToAll (hs : Lockstep w m m') {l l' : Listener} (hl : ListenerAlike w l l')
    {vs vs' : List VarRef} (hv : List.Forall₂ w.var vs vs') :
    Agree (· = ·) (m.listensToAll l vs) (m'.listensToAll l' vs') := by
  induction hv with
  | nil => exact .ok rfl
  | @cons v v' vs vs' hvv _ ih =>
    rw [Machine.listensToAll, Machine.listensToAll]
    refine (hs.like.listeners (.inl hvv)).bind fun ls ls' _ _ hls => ?_
    have hiff := hs.like.mem_listeners hl hls
    by_cases hm : l ∈ ls
    · rw [if_pos hm, if_pos (hiff.mp hm)]
      exact ih
    · rw [if_neg hm, if_neg fun h => hm (hiff.mpr h)]
      exact .ok rfl

/-- The search for a control passes over those that have been served, whether they are still listed
    or not. -/
theorem Lockstep.pendingControl? (hs : Lockstep w m m') {others others' : List VarRef}
    (ho : List.Forall₂ w.var others others') {ls ls' : List Listener}
    (hls : ListenersAlike w m.view m'.view ls ls') :
    Agree (Option.Rel w.control) (m.pendingControl? others ls)
      (m'.pendingControl? others' ls') := by
  have hserved : ∀ {h : Heap} {c : VarRef}, h.deref (.variable c) = .ok .unit →
      h.isDetermined (.variable c) = .ok true := fun hd => Heap.isDetermined_eq hd
  have hopen : ∀ {h : Heap} {c : VarRef}, h.deref (.variable c) = .ok (.variable c) →
      h.isDetermined (.variable c) = .ok false := fun hd => Heap.isDetermined_eq hd
  -- along both lists: controls that were served are passed over, on either side
  induction hls with
  | nil => exact .ok .none
  | thread id _ ih => exact ih
  | @control c c' ls ls' hc _ ih =>
    obtain ⟨hd, hd'⟩ := hs.like.deref_control hc
    have hdet : m.isDetermined (.variable c) = .ok false := hopen hd
    have hdet' : m'.isDetermined (.variable c') = .ok false := hopen hd'
    rw [Machine.pendingControl?, Machine.pendingControl?, hdet, hdet']
    refine (hs.listensToAll (.control hc) ho).bind fun all all' _ _ hall => ?_
    subst hall
    cases all with
    | true => exact .ok (.some hc)
    | false => exact ih
  | @servedLeft c ls ls' hc _ ih =>
    have hdet : m.isDetermined (.variable c) = .ok true := hserved hc
    rw [Machine.pendingControl?, hdet]
    exact ih
  | @servedRight c ls ls' hc _ ih =>
    have hdet : m'.isDetermined (.variable c) = .ok true := hserved hc
    rw [Machine.pendingControl?, hdet]
    exact ih

theorem Lockstep.listenTo (hs : Lockstep w m m') {c c' : VarRef} (hc : w.control c c')
    {vs vs' : List VarRef} (hv : List.Forall₂ w.var vs vs') :
    ∃ m₁ m₁', m.listenTo (.control c) vs = .ok m₁ ∧ m'.listenTo (.control c') vs' = .ok m₁' ∧
      Lockstep w m₁ m₁' ∧ Later w m.view m'.view w m₁.view m₁'.view := by
  induction hv generalizing m m' with
  | nil => exact ⟨m, m', rfl, rfl, hs, .refl w _ _⟩
  | @cons v v' vs vs' hvv _ ih =>
    obtain ⟨h₁, h₁', ha, ha', hs₁, hl₁⟩ := hs.listen hvv hc
    obtain ⟨m₂, m₂', hm, hm', hs₂, hl₂⟩ := ih hs₁
    refine ⟨m₂, m₂', ?_, ?_, hs₂, hl₁.trans hl₂⟩
    · rw [Machine.listenTo, ha]; exact hm
    · rw [Machine.listenTo, ha']; exact hm'

theorem Lockstep.waitForAny (hs : Lockstep w m m') {vs vs' : List VarRef}
    (hv : List.Forall₂ w.var vs vs') :
    Agree (fun r r' => ∃ w₁, Lockstep w₁ r.2 r'.2 ∧
        Later w m.view m'.view w₁ r.2.view r'.2.view ∧ w₁.cell r.1 r'.1)
      (m.waitForAny vs) (m'.waitForAny vs') := by
  cases hv with
  | nil => exact .error _
  | cons hvv hvs =>
    cases hvs with
    | nil => exact .ok ⟨w, hs, .refl w _ _, .inl hvv⟩
    | cons hvv' hvs =>
      have hall := List.Forall₂.cons hvv (.cons hvv' hvs)
      rw [Machine.waitForAny.eq_3 _ _ _ (by simp), Machine.waitForAny.eq_3 _ _ _ (by simp)]
      refine (hs.like.listeners (.inl hvv)).bind fun ls ls' _ _ hls => ?_
      refine (hs.pendingControl? (.cons hvv' hvs) hls).bind fun found found' _ _ hfound => ?_
      cases hfound with
      | some hc => exact .ok ⟨w, hs, .refl w _ _, .inr hc⟩
      | none =>
        obtain ⟨w₁, hs₁, hle, hl₁, hc⟩ := hs.newControl
        obtain ⟨m₂, m₂', hm, hm', hs₂, hl₂⟩ := hs₁.listenTo hc (hall.imp fun _ _ h => hle.var h)
        dsimp only
        rw [hm, hm']
        exact .ok ⟨w₁, hs₂, hl₁.trans hl₂, .inr hc⟩

/-- Both machines wait for one of many, through related variables. -/
theorem Lockstep.answerWait (hs : Lockstep w m m') {vs vs' : List VarRef}
    (hv : List.Forall₂ w.var vs vs') (hop : op = .waitOr) :
    Agree (Answered op w m m') (do let (v, m) ← m.waitForAny vs; return (.suspend v, m))
      (do let (v, m) ← m'.waitForAny vs'; return (.suspend v, m)) := by
  refine (hs.waitForAny hv).bind fun c c' _ _ hc => ?_
  obtain ⟨w₁, hs₁, hl₁, hc⟩ := hc
  exact .ok ⟨w₁, hs₁, hl₁, .suspend hc fun h => absurd hop h⟩

/-! ### The other builtins -/

theorem Lockstep.equals (hs : Lockstep w m m') {x x' y y' : Node}
    (hx : Alike w m.view m'.view x x') (hy : Alike w m.view m'.view y y') :
    m.equals x y = m'.equals x' y' := by
  unfold Machine.equals
  rw [← hs.id]
  refine hs.like.equals hs.waitsLeft.grounded hs.waitsRight.grounded hs.ownerLeft ?_ hx hy
  rw [hs.id]
  exact hs.ownerRight

theorem Lockstep.print (hs : Lockstep w m m') {n n' : Node} (hn : Alike w m.view m'.view n n')
    (depth : Nat) : m.print n depth = m'.print n' depth :=
  hs.like.faithful.print depth hn

theorem Lockstep.repr (hs : Lockstep w m m') {n n' : Node} (hn : Alike w m.view m'.view n n') :
    m.repr n = m'.repr n' := by
  unfold Machine.repr
  rw [hs.settings]
  exact hs.print hn _

theorem Lockstep.callBind (hs : Lockstep w m m') {n n' x x' : Node}
    (hn : Alike w m.view m'.view n n') (hx : Alike w m.view m'.view x x') :
    Agree (Answered op w m m') (m.callBind n x) (m'.callBind n' x') := by
  have hcompare : ∀ {d d' : Node}, Alike w m.view m'.view d d' → Agree (Answered op w m m')
      (do if ← m.equals d x then return (.proceed [], m) else return m.raiseFailure d x)
      (do if ← m'.equals d' x' then return (.proceed [], m') else return m'.raiseFailure d' x') := by
    intro d d' hd
    refine (Agree.of_eq (hs.equals hd hx)).bind fun same same' _ _ hsame => ?_
    subst hsame
    cases same with
    | true => exact .ok (.proceed hs .nil)
    | false => exact .ok (.raise hs "failure" (.cons hd (.cons hx .nil)))
  refine hn.deref.bind fun d d' hd hd' hm => ?_
  have hvalue := Alike.of_value hm
  cases hm with
  | «variable» hv =>
    obtain ⟨m₁, m₁', w₁, hb, hb', hs₁, hl₁⟩ :=
      hs.bind (Heap.deref_deref hd) (Heap.deref_deref hd') hv hx
    dsimp only
    rw [hb, hb']
    exact .ok ⟨w₁, hs₁, hl₁, .proceed .nil⟩
  | _ =>
    -- a target that has a value is compared with the value it should have
    refine hx.deref.bind fun e e' _ _ hm => ?_
    cases hm with
    | «variable» hv => exact .ok (.suspend hs hv)
    | _ => exact hcompare (hvalue rfl)

/-- Both machines show the same text. -/
theorem Lockstep.show (hs : Lockstep w m m') (text : String) :
    Lockstep w { m with output := m.output ++ text ++ "\n" }
      { m' with output := m'.output ++ text ++ "\n" } :=
  { hs with output := by rw [hs.output] }

theorem Lockstep.callShow (hs : Lockstep w m m') {n n' : Node} (hn : Alike w m.view m'.view n n') :
    Agree (Answered op w m m') (m.callShow n) (m'.callShow n') := by
  refine (Agree.of_eq (hs.repr hn)).bind fun text text' _ _ htext => ?_
  subst htext
  exact .ok ⟨w, hs.show text, .refl w _ _, .proceed .nil⟩

/-! ### All builtins -/

/-- Machines in step answer every call in the same way. -/
theorem Lockstep.call (hs : Lockstep w m m') (op : Builtin) {ns ns' : List Node}
    (hn : List.Forall₂ (Alike w m.view m'.view) ns ns') :
    Agree (Answered op w m m') (m.call op ns) (m'.call op ns') := by
  refine hs.dialogue.call op (fun hop vs vs' hvs => ?_) (fun n n' hn => ?_) ?_ hn
  · exact hs.answerWait hvs hop
  · exact hs.callShow hn
  · intro _ n n' x x' hn hx
    exact hs.callBind hn hx

end Dataflow
