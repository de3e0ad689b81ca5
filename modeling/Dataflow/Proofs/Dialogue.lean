import Dataflow.Machine.Call
import Dataflow.Machine.Construct
import Dataflow.Proofs.Observation

/-! # The same question to two machines

  Two machines are asked to call a builtin, or to build a record, on nodes that are alike. They look
  at their nodes in the same way: what they dereference is alike, and records that stand for each
  other can be read on both sides, part by part. So they come to the same end. What it means that two
  machines have come to the same end is left open here: `Dialogue` and `Workshop` name the ends, and
  it has to be said for each of them only.
-/

namespace Dataflow

variable {w : World} {a b : View} {m m' : Machine}

/-! ### Reading records -/

/-- Related records can be read, and are alike. -/
theorem World.Faithful.readRecord (hw : w.Faithful a b) {r r' : RecordRef} (hr : w.record r r') :
    Agree (RecordAlike w a b) (a.heap.record r) (b.heap.record r') := by
  obtain ⟨s, s', hs, hs', hss⟩ := hw _ _ hr
  rw [hs, hs']
  exact .ok hss

/-! ### Fields with their features -/

/-- A field with its feature. -/
def EntryAlike (w : World) (a b : View) (e e' : Feature × Node) : Prop :=
  FeatureAlike w a b e.1 e'.1 ∧ Alike w a b e.2 e'.2

theorem countFrom_alike {fs fs' : List Feature} (hf : List.Forall₂ (FeatureAlike w a b) fs fs')
    (k : Int) (n : Nat) : fs = countFrom k n ↔ fs' = countFrom k n := by
  induction hf generalizing k n with
  | nil => rfl
  | @cons f f' fs fs' hff _ ih =>
    cases n with
    | zero => simp [countFrom]
    | succ n => rw [countFrom, List.cons.injEq, List.cons.injEq, hff.eq_int k, ih (k + 1) n]

theorem recordAlike_ofSorted {l l' : Literal} (hl : Matches w a b l.toNode l'.toNode)
    {es es' : List (Feature × Node)} (he : List.Forall₂ (EntryAlike w a b) es es') :
    RecordAlike w a b (.ofSorted l es) (.ofSorted l' es') := by
  have hnames : List.Forall₂ (FeatureAlike w a b) (es.map (·.1)) (es'.map (·.1)) :=
    List.forall₂_map_left_iff.mpr (List.forall₂_map_right_iff.mpr (he.imp fun _ _ h => h.1))
  have hfields : List.Forall₂ (Alike w a b) (es.map (·.2)) (es'.map (·.2)) :=
    List.forall₂_map_left_iff.mpr (List.forall₂_map_right_iff.mpr (he.imp fun _ _ h => h.2))
  refine ⟨hl, ?_, hfields⟩
  have hcount := countFrom_alike hnames 1 es.length
  unfold Record.ofSorted
  dsimp only
  rw [← he.length_eq]
  by_cases hc : es.map (·.1) = countFrom 1 es.length
  · exact .inl ⟨if_pos hc, if_pos (hcount.mp hc)⟩
  · exact .inr ⟨_, _, if_neg hc, if_neg fun h => hc (hcount.mpr h), hnames⟩

/-- Of entries in step, the same one is found by a feature. -/
theorem find?_alike {es es' : List (Feature × Node)} (he : List.Forall₂ (EntryAlike w a b) es es')
    {f f' : Feature} (hf : FeatureAlike w a b f f') :
    Option.Rel (Alike w a b) ((es.find? fun e => e.1.compare f == .eq).map (·.2))
      ((es'.find? fun e => e.1.compare f' == .eq).map (·.2)) := by
  induction he with
  | nil => exact .none
  | @cons e e' es es' hee _ ih =>
    rw [List.find?_cons, List.find?_cons, hee.1.compare hf]
    cases Feature.compare e'.1 f' == .eq with
    | true => exact .some hee.2
    | false => exact ih

theorem getElem?_alike {R : Node → Node → Prop} {xs ys : List Node} (hxy : List.Forall₂ R xs ys)
    (i : Nat) : Option.Rel R xs[i]? ys[i]? := by
  induction hxy generalizing i with
  | nil => exact .none
  | cons hab _ ih =>
    cases i with
    | zero => exact .some hab
    | succ i => exact ih i

/-- Lists in step are read at the same place, with the same fault if there is no such place. -/
theorem entry_agree {R : Node → Node → Prop} {xs ys : List Node} (hxy : List.Forall₂ R xs ys)
    (i : Nat) (f : Fault) :
    Agree R (match xs[i]? with | some n => .ok n | none => .error f)
      (match ys[i]? with | some n => .ok n | none => .error f) := by
  have hget := getElem?_alike hxy i
  generalize xs[i]? = x at hget ⊢
  generalize ys[i]? = y at hget ⊢
  cases hget with
  | some h => exact .ok h
  | none => exact .error f

theorem RecordAlike.lookupNumber {r r' : Record} (hr : RecordAlike w a b r r') (i : Int) :
    Option.Rel (Alike w a b) (r.lookupNumber i) (r'.lookupNumber i) := by
  unfold Record.lookupNumber
  rcases hr.arity with ⟨ha, ha'⟩ | ⟨names, names', ha, ha', hn⟩
  · rw [ha, ha']
    by_cases hi : 1 ≤ i
    · simp only [if_pos hi]
      exact getElem?_alike hr.fields (i - 1).toNat
    · simp only [if_neg hi]
      exact .none
  · rw [ha, ha']
    exact find?_alike (forall₂_zip hn hr.fields) (f := .int i) (Matches.int i)

theorem RecordAlike.lookup {r r' : Record} (hr : RecordAlike w a b r r') {f f' : Feature}
    (hf : FeatureAlike w a b f f') : Option.Rel (Alike w a b) (r.lookup f) (r'.lookup f') := by
  unfold Record.lookup
  rcases hr.arity with ⟨ha, ha'⟩ | ⟨names, names', ha, ha', hn⟩
  · rw [ha, ha']
    rcases hf.cases with ⟨i, rfl, rfl⟩ | ⟨content, rfl, rfl⟩ | ⟨x, rfl, rfl⟩ | ⟨rfl, rfl⟩
    · exact hr.lookupNumber i
    · exact .none
    · exact .none
    · exact .none
  · rw [ha, ha']
    exact find?_alike (forall₂_zip hn hr.fields) hf

theorem Matches.asFeature? {d d' : Node} (hm : Matches w a b d d') :
    d.asFeature? = none ∧ d'.asFeature? = none ∨
      ∃ f f', d.asFeature? = some f ∧ d'.asFeature? = some f' ∧ FeatureAlike w a b f f' := by
  cases hm with
  | int i => exact .inr ⟨_, _, rfl, rfl, Matches.int i⟩
  | atom content => exact .inr ⟨_, _, rfl, rfl, Matches.atom content⟩
  | bool x => exact .inr ⟨_, _, rfl, rfl, Matches.bool x⟩
  | unit => exact .inr ⟨_, _, rfl, rfl, Matches.unit⟩
  | _ => exact .inl ⟨rfl, rfl⟩

/-! ### Atoms, literals and features -/

/-- Atoms of the current tables with the same content stand for each other. -/
theorem matches_atom {t t' : TableId} (ht : t = a.table) (ht' : t' = b.table) (content : String) :
    Matches w a b (.atom ⟨t, content⟩) (.atom ⟨t', content⟩) := by
  rw [ht, ht']
  exact .atom content

theorem Matches.asLiteral? {d d' : Node} (hm : Matches w a b d d') :
    d.asLiteral? = none ∧ d'.asLiteral? = none ∨
      ∃ l l', d.asLiteral? = some l ∧ d'.asLiteral? = some l' ∧
        Matches w a b l.toNode l'.toNode := by
  cases hm with
  | atom content => exact .inr ⟨_, _, rfl, rfl, .atom content⟩
  | bool x => exact .inr ⟨_, _, rfl, rfl, .bool x⟩
  | unit => exact .inr ⟨_, _, rfl, rfl, .unit⟩
  | _ => exact .inl ⟨rfl, rfl⟩

/-! ### Calls -/

/-- The relation `Q` holds between the outcomes of two calls whenever both come to the same end. -/
structure Dialogue (w : World) (m m' : Machine) (Q : Outcome × Machine → Outcome × Machine → Prop) :
    Prop where
  faithful : w.Faithful m.view m'.view
  proceed : ∀ {results results' : List Node},
    List.Forall₂ (Alike w m.view m'.view) results results' →
    Q (.proceed results, m) (.proceed results', m')
  suspend : ∀ {v v' : VarRef}, w.var v v' → Q (.suspend v, m) (.suspend v', m')
  raise : ∀ (kind : String) {args args' : List Node},
    List.Forall₂ (Alike w m.view m'.view) args args' →
    Q (.raise (m.newException kind args).1, (m.newException kind args).2)
      (.raise (m'.newException kind args').1, (m'.newException kind args').2)
  typeError : ∀ (expected : String) {n n' : Node}, Alike w m.view m'.view n n' →
    Q (m.raiseTypeError expected n) (m'.raiseTypeError expected n')

/-- The search for a field with a value ends in the same way on both sides. -/
theorem firstDetermined_alike {es es' : List (Feature × Node)}
    (he : List.Forall₂ (EntryAlike w m.view m'.view) es es') :
    Agree (Sum.LiftRel (FeatureAlike w m.view m'.view) (List.Forall₂ w.var))
      (m.firstDetermined es) (m'.firstDetermined es') := by
  induction he with
  | nil => exact .ok (.inr .nil)
  | @cons e e' es es' hee _ ih =>
    obtain ⟨f, n⟩ := e
    obtain ⟨f', n'⟩ := e'
    obtain ⟨hf, hn⟩ := hee
    rw [Machine.firstDetermined, Machine.firstDetermined]
    refine hn.deref.bind fun d d' _ _ hm => ?_
    cases hm with
    | «variable» hv =>
      refine ih.bind fun found found' _ _ hfound => ?_
      cases hfound with
      | inl hg => exact .ok (.inl hg)
      | inr hvs => exact .ok (.inr (.cons hv hvs))
    | _ => exact .ok (.inl hf)

namespace Dialogue

variable {Q : Outcome × Machine → Outcome × Machine → Prop} (hQ : Dialogue w m m' Q)
  {n n' f f' : Node}

include hQ

theorem proceed_one (hn : Alike w m.view m'.view n n') : Q (.proceed [n], m) (.proceed [n'], m') :=
  hQ.proceed (.cons hn .nil)

theorem raise_pair (kind : String) (hn : Alike w m.view m'.view n n')
    (hf : Alike w m.view m'.view f f') :
    Q (.raise (m.newException kind [n, f]).1, (m.newException kind [n, f]).2)
      (.raise (m'.newException kind [n', f']).1, (m'.newException kind [n', f']).2) :=
  hQ.raise kind (.cons hn (.cons hf .nil))

theorem withReceiver (hn : Alike w m.view m'.view n n')
    {call call' : Receiver → Except Fault (Outcome × Machine)}
    (hliteral : ∀ l l', Matches w m.view m'.view l.toNode l'.toNode →
      Agree Q (call (.literal l)) (call' (.literal l')))
    (hrecord : ∀ r r', w.record r r' → Agree Q (call (.record r)) (call' (.record r'))) :
    Agree Q (m.withReceiver n call) (m'.withReceiver n' call') := by
  refine hn.deref.bind fun d d' _ _ hm => ?_
  have hvalue := Alike.of_value hm
  cases hm with
  | record hr => exact hrecord _ _ hr
  | «variable» hv => exact .ok (hQ.suspend hv)
  | atom content => exact hliteral (.atom _) (.atom _) (.atom content)
  | bool x => exact hliteral (.bool _) (.bool _) (.bool x)
  | unit => exact hliteral .unit .unit .unit
  | int i => exact .ok (hQ.typeError "Record" (hvalue rfl))
  | float x => exact .ok (hQ.typeError "Record" (hvalue rfl))

theorem label (hn : Alike w m.view m'.view n n') : Agree Q (m.label n) (m'.label n') := by
  refine hQ.withReceiver hn (fun l l' hl => .ok (hQ.proceed_one ?_)) fun r r' hr => ?_
  · exact .of_value hl (Literal.asVariable?_toNode l)
  · refine (hQ.faithful.readRecord hr).bind fun s s' _ _ hss => .ok (hQ.proceed_one ?_)
    exact .of_value hss.label (Literal.asVariable?_toNode s.label)

theorem width (hn : Alike w m.view m'.view n n') : Agree Q (m.width n) (m'.width n') := by
  refine hQ.withReceiver hn (fun l l' _ => .ok (hQ.proceed_one ?_)) fun r r' hr => ?_
  · exact .of_value (.int 0) rfl
  · refine (hQ.faithful.readRecord hr).bind fun s s' _ _ hss => .ok (hQ.proceed_one ?_)
    rw [← hss.width]
    exact .of_value (.int _) rfl

/-- A field that is found is the result; otherwise the selection is illegal. -/
theorem select (hn : Alike w m.view m'.view n n') (hf : Alike w m.view m'.view f f')
    {found found' : Option Node} : Option.Rel (Alike w m.view m'.view) found found' →
    Agree (ε := Fault) Q
      (match found with
        | some field => pure (.proceed [field], m)
        | none => pure (m.raiseIllegalFieldSelection n f))
      (match found' with
        | some field => pure (.proceed [field], m')
        | none => pure (m'.raiseIllegalFieldSelection n' f')) := by
  intro hfound
  cases hfound with
  | some h => exact .ok (hQ.proceed_one h)
  | none => exact .ok (hQ.raise_pair "illegalFieldSelection" hn hf)

theorem dot (hn : Alike w m.view m'.view n n') (hf : Alike w m.view m'.view f f') :
    Agree Q (m.dot n f) (m'.dot n' f') := by
  refine hQ.withReceiver hn (fun l l' hl => hf.deref.bind fun d d' _ _ hm => ?_) fun r r' hr =>
    hf.deref.bind fun d d' _ _ hm => ?_
  -- literals have no fields, so every feature is missing
  · have hl := Alike.of_value hl (Literal.asVariable?_toNode l)
    have hvalue := Alike.of_value hm
    cases hm with
    | «variable» hv => exact .ok (hQ.suspend hv)
    | record _ => exact .ok (hQ.typeError "Feature" (hvalue rfl))
    | float _ => exact .ok (hQ.typeError "Feature" (hvalue rfl))
    | _ => exact .ok (hQ.raise_pair "illegalFieldSelection" hl (hvalue rfl))
  -- records on both sides have their fields at features that are alike
  · have hselect : ∀ {g g' : Feature}, FeatureAlike w m.view m'.view g g' →
        Alike w m.view m'.view g.toNode g'.toNode →
        Agree Q
          (do match (← m.heap.record r).lookup g with
              | some field => return (.proceed [field], m)
              | none => return m.raiseIllegalFieldSelection (.record r) g.toNode)
          (do match (← m'.heap.record r').lookup g' with
              | some field => return (.proceed [field], m')
              | none => return m'.raiseIllegalFieldSelection (.record r') g'.toNode) := by
      intro g g' hg hvalue
      refine (hQ.faithful.readRecord hr).bind fun s s' _ _ hss => ?_
      exact hQ.select (.of_value (.record hr) rfl) hvalue (hss.lookup hg)
    have hvalue := Alike.of_value hm
    cases hm with
    | «variable» hv => exact .ok (hQ.suspend hv)
    | record _ => exact .ok (hQ.typeError "Feature" (hvalue rfl))
    | float _ => exact .ok (hQ.typeError "Feature" (hvalue rfl))
    | int i => exact hselect (g := .int i) (Matches.int i) (hvalue rfl)
    | atom content => exact hselect (g := .literal (.atom _)) (Matches.atom content) (hvalue rfl)
    | bool x => exact hselect (g := .literal (.bool x)) (Matches.bool x) (hvalue rfl)
    | unit => exact hselect (g := .literal .unit) Matches.unit (hvalue rfl)

theorem dotNumber (hn : Alike w m.view m'.view n n') (i : Int) :
    Agree Q (m.dotNumber n i) (m'.dotNumber n' i) := by
  have hi : Alike w m.view m'.view (.int i) (.int i) := .of_value (.int i) rfl
  refine hQ.withReceiver hn (fun l l' hl => .ok ?_) fun r r' hr => ?_
  · exact hQ.raise_pair "illegalFieldSelection" (.of_value hl (Literal.asVariable?_toNode l)) hi
  · refine (hQ.faithful.readRecord hr).bind fun s s' _ _ hss => ?_
    exact hQ.select (.of_value (.record hr) rfl) hi (hss.lookupNumber i)

theorem callDotNumber (hn : Alike w m.view m'.view n n') (hf : Alike w m.view m'.view f f') :
    Agree Q (m.callDotNumber n f) (m'.callDotNumber n' f') := by
  refine hn.deref.bind fun d d' _ _ hm => ?_
  cases hm with
  | «variable» hv => exact .ok (hQ.suspend hv)
  | _ =>
    -- the receiver has a value, now the number is looked at
    refine hf.deref.bind fun e e' _ _ hm => ?_
    have hvalue := Alike.of_value hm
    cases hm with
    | «variable» hv => exact .ok (hQ.suspend hv)
    | int i => exact hQ.dotNumber hn i
    | _ => exact .ok (hQ.typeError "Int" (hvalue rfl))

theorem callWait (hn : Alike w m.view m'.view n n') : Agree Q (m.callWait n) (m'.callWait n') := by
  refine hn.deref.bind fun d d' _ _ hm => ?_
  cases hm with
  | «variable» hv => exact .ok (hQ.suspend hv)
  | _ => exact .ok (hQ.proceed .nil)

theorem callIsDet (hn : Alike w m.view m'.view n n') :
    Agree Q (do return (.proceed [.bool (← m.isDetermined n)], m))
      (do return (.proceed [.bool (← m'.isDetermined n')], m')) := by
  refine (Agree.of_eq hn.isDetermined).bind fun x x' _ _ hx => ?_
  subst hx
  exact .ok (hQ.proceed_one (.of_value (.bool x) rfl))

/-- Either both machines find a field with a value, or both wait for one of many. -/
theorem waitOr (hn : Alike w m.view m'.view n n')
    (hwait : ∀ vs vs', List.Forall₂ w.var vs vs' →
      Agree Q (do let (v, m) ← m.waitForAny vs; return (.suspend v, m))
        (do let (v, m) ← m'.waitForAny vs'; return (.suspend v, m))) :
    Agree Q (m.waitOr n) (m'.waitOr n') := by
  refine hQ.withReceiver hn (fun l l' hl => .ok (hQ.proceed_one ?_)) fun r r' hr => ?_
  · exact .of_value hl (Literal.asVariable?_toNode l)
  · refine (hQ.faithful.readRecord hr).bind fun s s' _ _ hss => ?_
    refine (firstDetermined_alike (forall₂_zip hss.features hss.fields)).bind
      fun found found' _ _ hfound => ?_
    cases hfound with
    | inl hf => exact .ok (hQ.proceed_one (.of_value hf (Feature.asVariable?_toNode _)))
    | inr hvs => exact hwait _ _ hvs

/-- Both machines come to the same end, whatever the builtin, if they do so where they wait for one
    of many, show a text or bind. -/
theorem call (op : Builtin)
    (hwait : op = .waitOr → ∀ vs vs', List.Forall₂ w.var vs vs' →
      Agree Q (do let (v, m) ← m.waitForAny vs; return (.suspend v, m))
        (do let (v, m) ← m'.waitForAny vs'; return (.suspend v, m)))
    (hshow : ∀ n n', Alike w m.view m'.view n n' → Agree Q (m.callShow n) (m'.callShow n'))
    (hbind : op = .bind → ∀ n n' x x', Alike w m.view m'.view n n' →
      Alike w m.view m'.view x x' → Agree Q (m.callBind n x) (m'.callBind n' x'))
    {ns ns' : List Node} (hn : List.Forall₂ (Alike w m.view m'.view) ns ns') :
    Agree Q (m.call op ns) (m'.call op ns') := by
  cases hn with
  | nil => cases op <;> exact .error _
  | cons hn₁ hn =>
    cases hn with
    | nil =>
      cases op with
      | label => exact hQ.label hn₁
      | width => exact hQ.width hn₁
      | waitOr => exact hQ.waitOr hn₁ (hwait rfl)
      | wait => exact hQ.callWait hn₁
      | isDet => exact hQ.callIsDet hn₁
      | «show» => exact hshow _ _ hn₁
      | _ => exact .error _
    | cons hn₂ hn =>
      cases hn with
      | nil =>
        cases op with
        | dot => exact hQ.dot hn₁ hn₂
        | dotNumber => exact hQ.callDotNumber hn₁ hn₂
        | bind => exact hbind rfl _ _ _ _ hn₁ hn₂
        | _ => exact .error _
      | @cons n₃ n₃' ns ns' hn₃ hn =>
        have hmany : ∀ (m : Machine) (n₁ n₂ n₃ : Node) (ns : List Node),
            m.call op (n₁ :: n₂ :: n₃ :: ns) =
              .error (.outOfRange (ns.length + 3) (ns.length + 3)) := by
          intro m n₁ n₂ n₃ ns
          cases op <;> rfl
        rw [hmany, hmany, hn.length_eq]
        exact .error _

end Dialogue

/-! ### Sorting features -/

theorem insertField_alike {e e' : Feature × Node} {es es' : List (Feature × Node)}
    (he : EntryAlike w a b e e') (hes : List.Forall₂ (EntryAlike w a b) es es') :
    List.Forall₂ (EntryAlike w a b) (insertField e es) (insertField e' es') := by
  induction hes with
  | nil => exact .cons he .nil
  | cons hd hrest ih =>
    rw [insertField, insertField, he.1.compare hd.1]
    split
    · exact .cons hd ih
    · exact .cons he (.cons hd hrest)

theorem sortFields_alike {es es' : List (Feature × Node)}
    (hes : List.Forall₂ (EntryAlike w a b) es es') :
    List.Forall₂ (EntryAlike w a b) (sortFields es) (sortFields es') := by
  induction hes with
  | nil => exact .nil
  | cons he _ ih => exact insertField_alike he ih

theorem duplicate?_alike {es es' : List (Feature × Node)}
    (hes : List.Forall₂ (EntryAlike w a b) es es') :
    Option.Rel (FeatureAlike w a b) (duplicate? es) (duplicate? es') := by
  induction hes with
  | nil => exact .none
  | cons he hrest ih =>
    cases hrest with
    | nil => exact .none
    | cons hd _ =>
      rw [duplicate?, duplicate?, he.1.compare hd.1]
      split
      · exact .some he.1
      · exact ih

/-! ### Building records -/

/-- The relation `M` holds between what two machines have made whenever both have made the same. -/
structure Workshop (w : World) (m m' : Machine) (M : Node × Machine → Node × Machine → Prop) :
    Prop where
  repr : ∀ {n n' : Node}, Alike w m.view m'.view n n' → m.repr n = m'.repr n'
  /-- A record without fields is its label. -/
  literal : ∀ {l l' : Literal}, Matches w m.view m'.view l.toNode l'.toNode →
    M (l.toNode, m) (l'.toNode, m')
  allocate : ∀ {r r' : Record}, RecordAlike w m.view m'.view r r' → r.Balanced →
    M (m.allocate r) (m'.allocate r')

namespace Workshop

variable {M : Node × Machine → Node × Machine → Prop} (hM : Workshop w m m' M) {n n' : Node}

include hM

theorem labelOf (hn : Alike w m.view m'.view n n') :
    Agree (Agree fun l l' => Matches w m.view m'.view l.toNode l'.toNode) (m.labelOf n)
      (m'.labelOf n') := by
  refine hn.deref.bind fun d d' hd hd' hm => ?_
  rcases hm.asLiteral? with ⟨hl, hl'⟩ | ⟨l, l', hl, hl', hll⟩
  · rw [hl, hl']
    have hdd : Alike w m.view m'.view d d' :=
      ⟨d, d', Heap.deref_deref hd, Heap.deref_deref hd', hm⟩
    refine (Agree.of_eq (hM.repr hdd)).bind fun text text' _ _ htext => ?_
    subst htext
    exact .ok (.error _)
  · rw [hl, hl']
    exact .ok (.ok hll)

theorem featuresOf {fs fs' : List (Node × Node)}
    (hf : List.Forall₂ (fun e e' => Alike w m.view m'.view e.1 e'.1 ∧
      Alike w m.view m'.view e.2 e'.2) fs fs') :
    Agree (Agree (List.Forall₂ (EntryAlike w m.view m'.view))) (m.featuresOf fs)
      (m'.featuresOf fs') := by
  induction hf with
  | nil => exact .ok (.ok .nil)
  | @cons e e' fs fs' he _ ih =>
    obtain ⟨f, n⟩ := e
    obtain ⟨f', n'⟩ := e'
    obtain ⟨hf, hn⟩ := he
    rw [Machine.featuresOf, Machine.featuresOf]
    refine hf.deref.bind fun d d' hd hd' hm => ?_
    rcases hm.asFeature? with ⟨hl, hl'⟩ | ⟨g, g', hl, hl', hg⟩
    · rw [hl, hl']
      have hdd : Alike w m.view m'.view d d' :=
        ⟨d, d', Heap.deref_deref hd, Heap.deref_deref hd', hm⟩
      refine (Agree.of_eq (hM.repr hdd)).bind fun text text' _ _ htext => ?_
      subst htext
      exact .ok (.error _)
    · rw [hl, hl']
      refine ih.bind fun found found' _ _ hfound => ?_
      cases hfound with
      | ok hes => exact .ok (.ok (.cons ⟨hg, hn⟩ hes))
      | error r => exact .ok (.error r)

theorem buildTuple {ns ns' : List Node} (hn : Alike w m.view m'.view n n')
    (hns : List.Forall₂ (Alike w m.view m'.view) ns ns') :
    Agree (Agree M) (m.buildTuple n ns) (m'.buildTuple n' ns') := by
  refine (hM.labelOf hn).bind fun l l' _ _ hl => ?_
  cases hl with
  | error r => exact .ok (.error r)
  | ok hl =>
    cases hns with
    | nil => exact .ok (.ok (hM.literal hl))
    | cons h hrest =>
      exact .ok (.ok (hM.allocate ⟨hl, .inl ⟨rfl, rfl⟩, .cons h hrest⟩ (Record.balanced_tuple _ _)))

/-- Sorted fields make a record, unless a feature occurs twice. -/
theorem buildSorted {l l' : Literal} (hl : Matches w m.view m'.view l.toNode l'.toNode)
    {es es' : List (Feature × Node)} (hes : List.Forall₂ (EntryAlike w m.view m'.view) es es') :
    Agree (ε := Fault) (Agree (ε := Refusal) M)
      (match duplicate? es with
        | some f => do return .error (.duplicateFeature (← m.repr f.toNode))
        | none => return .ok (m.allocate (.ofSorted l es)))
      (match duplicate? es' with
        | some f => do return .error (.duplicateFeature (← m'.repr f.toNode))
        | none => return .ok (m'.allocate (.ofSorted l' es'))) := by
  have hdup := duplicate?_alike hes
  generalize duplicate? es = f at hdup ⊢
  generalize duplicate? es' = f' at hdup ⊢
  cases hdup with
  | some hf =>
    refine (Agree.of_eq (hM.repr ?_)).bind fun text text' _ _ htext => ?_
    · exact .of_value hf (Feature.asVariable?_toNode _)
    · subst htext
      exact .ok (.error _)
  | none =>
    exact .ok (.ok (hM.allocate (recordAlike_ofSorted hl hes) (Record.balanced_ofSorted _ _)))

theorem buildRecord {fs fs' : List (Node × Node)} (hn : Alike w m.view m'.view n n')
    (hf : List.Forall₂ (fun e e' => Alike w m.view m'.view e.1 e'.1 ∧
      Alike w m.view m'.view e.2 e'.2) fs fs') :
    Agree (Agree M) (m.buildRecord n fs) (m'.buildRecord n' fs') := by
  refine (hM.labelOf hn).bind fun l l' _ _ hl => ?_
  cases hl with
  | error r => exact .ok (.error r)
  | ok hl =>
    cases hf with
    | nil => exact .ok (.ok (hM.literal hl))
    | cons he hrest =>
      refine (hM.featuresOf (.cons he hrest)).bind fun found found' _ _ hfound => ?_
      cases hfound with
      | error r => exact .ok (.error r)
      | ok hes => exact hM.buildSorted hl (sortFields_alike hes)

end Workshop

/-! ### Making nodes -/

/-- Two machines of a kind `G` have made a node, and are of that kind again. -/
def MadeWith (G : World → Machine → Machine → Prop) (w : World) (m m' : Machine)
    (r r' : Node × Machine) : Prop :=
  ∃ w₁, G w₁ r.2 r'.2 ∧ Later w m.view m'.view w₁ r.2.view r'.2.view ∧
    Alike w₁ r.2.view r'.2.view r.1 r'.1

/-- Two machines stay of a kind when both intern an atom or allocate a record. -/
structure Crafting (G : World → Machine → Machine → Prop) : Prop where
  intern : ∀ {w : World} {m m' : Machine}, G w m m' → ∀ content,
    G w { m with atoms := m.atoms.insert content } { m' with atoms := m'.atoms.insert content }
  allocate : ∀ {w : World} {m m' : Machine}, G w m m' → ∀ r r' : Record,
    RecordAlike w m.view m'.view r r' → r.Balanced →
    MadeWith G w m m' (m.allocate r) (m'.allocate r')

theorem Machine.view_intern (m : Machine) (content : String) :
    Machine.view { m with atoms := m.atoms.insert content } = m.view := by
  simp [Machine.view]

namespace Crafting

variable {G : World → Machine → Machine → Prop} (hG : Crafting G)

include hG

theorem newAtom (hs : G w m m') (content : String) :
    MadeWith G w m m' (m.newAtom content) (m'.newAtom content) := by
  rw [m.newAtom_eq, m'.newAtom_eq]
  have hview := m.view_intern content
  have hview' := m'.view_intern content
  refine ⟨w, hG.intern hs content, ?_, ?_⟩
  · rw [hview, hview']
    exact .refl w _ _
  · rw [hview, hview']
    exact .of_value (matches_atom rfl rfl content) rfl

/-- Two atoms are interned, and a record is allocated. -/
theorem internAllocate (hs : G w m m') (x y : String) {r r' : Record}
    (hr : RecordAlike w m.view m'.view r r') (hbal : r.Balanced) :
    MadeWith G w m m' ({ m with atoms := (m.atoms.insert x).insert y }.allocate r)
      ({ m' with atoms := (m'.atoms.insert x).insert y }.allocate r') := by
  have hview : ∀ m : Machine,
      Machine.view { m with atoms := (m.atoms.insert x).insert y } = m.view := by
    intro m
    exact (Machine.view_intern { m with atoms := m.atoms.insert x } y).trans (m.view_intern x)
  rw [← hview m, ← hview m'] at hr
  obtain ⟨w₁, hs₁, hlater, he⟩ := hG.allocate (hG.intern (hG.intern hs x) y) r r' hr hbal
  rw [hview m, hview m'] at hlater
  exact ⟨w₁, hs₁, hlater, he⟩

theorem newException (hs : G w m m') (kind : String) {args args' : List Node}
    (ha : List.Forall₂ (Alike w m.view m'.view) args args') :
    MadeWith G w m m' (m.newException kind args) (m'.newException kind args') := by
  have htable : ∀ (m : Machine) (x : String), (m.atoms.insert x).id = m.view.table :=
    fun m x => AtomTable.insert_id _ _
  -- `kernel(kind argument …)`
  obtain ⟨w₁, hs₁, hl₁, hd⟩ : MadeWith G w m m' (m.exceptionDetail kind args)
      (m'.exceptionDetail kind args') := by
    rw [m.exceptionDetail_eq, m'.exceptionDetail_eq]
    exact hG.internAllocate hs "kernel" kind
      ⟨matches_atom rfl rfl _, .inl ⟨rfl, rfl⟩,
        .cons (.of_value (matches_atom (htable m _) (htable m' _) kind) rfl) ha⟩
      (Record.balanced_tuple _ _)
  -- `error(detail debug:unit)`
  rw [Machine.newException_eq, Machine.newException_eq]
  generalize m.exceptionDetail kind args = e at hs₁ hl₁ hd ⊢
  generalize m'.exceptionDetail kind args' = e' at hs₁ hl₁ hd ⊢
  obtain ⟨detail, m₁⟩ := e
  obtain ⟨detail', m₁'⟩ := e'
  have hlabel : Matches w₁ m₁.view m₁'.view (Literal.atom ⟨m₁.atoms.id, "error"⟩).toNode
      (Literal.atom ⟨m₁'.atoms.id, "error"⟩).toNode := matches_atom rfl rfl _
  have hfields : List.Forall₂ (EntryAlike w₁ m₁.view m₁'.view)
      [(.int 1, detail), (.literal (.atom ⟨(m₁.atoms.insert "error").id, "debug"⟩), .unit)]
      [(.int 1, detail'), (.literal (.atom ⟨(m₁'.atoms.insert "error").id, "debug"⟩), .unit)] :=
    .cons ⟨Matches.int 1, hd⟩
      (.cons ⟨matches_atom (htable _ _) (htable _ _) "debug", .of_value .unit rfl⟩ .nil)
  obtain ⟨w₂, hs₂, hl₂, he⟩ := hG.internAllocate hs₁ "error" "debug"
    (recordAlike_ofSorted hlabel hfields) (Record.balanced_ofSorted _ _)
  exact ⟨w₂, hs₂, hl₁.trans hl₂, he⟩

theorem typeError (hs : G w m m') (expected : String) {n n' : Node}
    (hn : Alike w m.view m'.view n n') :
    ∃ e e', m.raiseTypeError expected n = (.raise e.1, e.2) ∧
      m'.raiseTypeError expected n' = (.raise e'.1, e'.2) ∧ MadeWith G w m m' e e' := by
  obtain ⟨w₁, hs₁, hl₁, he⟩ := hG.newAtom hs expected
  obtain ⟨w₂, hs₂, hl₂, he⟩ :=
    hG.newException hs₁ "typeError" (.cons he (.cons (hl₁.node hn) .nil))
  exact ⟨_, _, rfl, rfl, w₂, hs₂, hl₁.trans hl₂, he⟩

end Crafting

end Dataflow
