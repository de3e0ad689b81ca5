import Dataflow.Proofs.Canonical

/-! # Reasoning about all builtins at once

  The builtins look at their operands in few ways: they dereference a node, read a record, compare two
  values. What they do in the end is one of a few things as well: they proceed, suspend or raise, bind
  a variable, wait for one of many, or show a text. A *discipline* is a property of computations that
  can be carried through each of these steps, for operands of some kind. Then it holds of every call
  on operands of that kind.

  Reads are stated with what follows them, so that a discipline may say that a call completes, or what
  is true of a call if it does.
-/

namespace Dataflow

/-! ### The nodes of a record -/

theorem Record.mem_fields_of_search {names : List Feature} {fields : List Node} {f : Feature}
    {x : Node} (hs : Record.search names fields f = some x) : x ∈ fields := by
  obtain ⟨⟨g, y⟩, he, rfl⟩ := Option.map_eq_some_iff.mp hs
  exact (List.of_mem_zip (List.mem_of_find?_eq_some he)).2

theorem Record.mem_fields_of_lookupNumber {r : Record} {i : Int} {x : Node}
    (hl : r.lookupNumber i = some x) : x ∈ r.fields := by
  unfold Record.lookupNumber at hl
  split at hl
  · split at hl
    · exact List.mem_of_getElem? hl
    · cases hl
  · exact Record.mem_fields_of_search hl

theorem Record.mem_fields_of_lookup {r : Record} {f : Feature} {x : Node}
    (hl : r.lookup f = some x) : x ∈ r.fields := by
  unfold Record.lookup at hl
  split at hl
  · exact Record.mem_fields_of_lookupNumber hl
  · cases hl
  · exact Record.mem_fields_of_search hl

namespace Machine

/-- A call that has an outcome has as many operands as its builtin takes. -/
theorem length_of_call {m m' : Machine} {b : Builtin} {operands : List Node} {o : Outcome}
    (hc : m.call b operands = .ok (o, m')) : operands.length = b.inputs := by
  unfold call at hc
  split at hc
  · rfl
  · rfl
  · rfl
  · rfl
  · rfl
  · rfl
  · rfl
  · rfl
  · rfl
  · cases hc

/-! ### Disciplines -/

/-- The property `S` of computations can be carried through the steps of a call of the builtin `b`
    on operands for which `T` holds. -/
structure Discipline (m : Machine) (b : Builtin) (T : Node → Prop)
    (S : Except Fault (Outcome × Machine) → Prop) : Prop where
  /-- Records are canonical. -/
  canonical : m.heap.Canonical
  /-- Integers and booleans may be results. -/
  int : ∀ i, T (.int i)
  bool : ∀ b, T (.bool b)
  /-- A node is dereferenced. -/
  deref : ∀ {n : Node} {next : Node → Except Fault (Outcome × Machine)}, T n →
    (∀ d, m.heap.deref n = .ok d → T d → S (next d)) → S (m.deref n >>= next)
  /-- A record is read. -/
  record : ∀ {ref : RecordRef} {next : Record → Except Fault (Outcome × Machine)}, T (.record ref) →
    (∀ r, m.heap.record ref = .ok r → (∀ x ∈ r.edges, T x) → S (next r)) →
    S (m.heap.record ref >>= next)
  /-- Two values are compared. -/
  equals : ∀ {x y : Node} {next : Bool → Except Fault (Outcome × Machine)}, T x → T y →
    (∀ same, S (next same)) → S (m.equals x y >>= next)
  /-- The call proceeds and changes nothing. -/
  proceed : ∀ {results : List Node}, (∀ n ∈ results, T n) → S (.ok (.proceed results, m))
  /-- The call suspends on a free variable and changes nothing. -/
  suspend : ∀ {v : VarRef}, m.heap.deref (.variable v) = .ok (.variable v) → T (.variable v) →
    S (.ok (.suspend v, m))
  /-- The call raises an exception. -/
  raise : ∀ (kind : String) {arguments : List Node}, (∀ n ∈ arguments, T n) →
    S (.ok (.raise (m.newException kind arguments).1, (m.newException kind arguments).2))
  typeError : ∀ (expected : String) {n : Node}, T n → S (.ok (m.raiseTypeError expected n))
  /-- A free variable is bound. -/
  bind : b = .bind → ∀ {v : VarRef} {x : Node}, T (.variable v) →
    m.heap.deref (.variable v) = .ok (.variable v) → T x →
    S (do
      match ← m.bind v x with
      | .ok m => return (.proceed [], m)
      | .error _ => throw (.derefBound v))
  /-- One of many free variables is waited for. -/
  wait : b = .waitOr → ∀ {vs : List VarRef}, vs ≠ [] →
    (∀ v ∈ vs, T (.variable v) ∧ m.heap.deref (.variable v) = .ok (.variable v)) →
    S (do let (v, m) ← m.waitForAny vs; return (.suspend v, m))
  /-- A text is shown. -/
  shows : b = .show → ∀ {n : Node}, T n → S (m.callShow n)

namespace Discipline

variable {m : Machine} {b : Builtin} {T : Node → Prop}
  {S : Except Fault (Outcome × Machine) → Prop} (hD : m.Discipline b T S) {value feature : Node}

include hD

/-! ### Calls on a receiver -/

theorem proceed_one {n : Node} (hn : T n) : S (.ok (.proceed [n], m)) :=
  hD.proceed fun n' hn' => by rw [List.mem_singleton.mp hn']; exact hn

theorem suspend_deref {n : Node} {v : VarRef} (hd : m.heap.deref n = .ok (.variable v))
    (hv : T (.variable v)) : S (.ok (.suspend v, m)) :=
  hD.suspend (Heap.deref_deref hd) hv

theorem raise_pair (kind : String) {x y : Node} (hx : T x) (hy : T y) :
    S (.ok (.raise (m.newException kind [x, y]).1, (m.newException kind [x, y]).2)) := by
  refine hD.raise kind fun n hn => ?_
  rcases List.mem_pair.mp hn with rfl | rfl
  · exact hx
  · exact hy

theorem withReceiver (hv : T value) {call : Receiver → Except Fault (Outcome × Machine)}
    (hcall : ∀ receiver : Receiver, T receiver.toNode → S (call receiver)) :
    S (m.withReceiver value call) := by
  unfold Machine.withReceiver
  refine hD.deref hv fun d hd htd => ?_
  cases d with
  | «variable» v => exact hD.suspend_deref hd htd
  | record ref => exact hcall (.record ref) htd
  | atom a => exact hcall (.literal (.atom a)) htd
  | bool b => exact hcall (.literal (.bool b)) htd
  | unit => exact hcall (.literal .unit) htd
  | int i => exact hD.typeError "Record" htd
  | float x => exact hD.typeError "Record" htd

theorem label (hv : T value) : S (m.label value) := by
  refine hD.withReceiver hv fun receiver hr => ?_
  cases receiver with
  | literal l => exact hD.proceed_one hr
  | record ref =>
    exact hD.record hr fun r _ hedges => hD.proceed_one (hedges _ (Heap.label_mem_edges r))

theorem width (hv : T value) : S (m.width value) := by
  refine hD.withReceiver hv fun receiver hr => ?_
  cases receiver with
  | literal l => exact hD.proceed_one (hD.int 0)
  | record ref => exact hD.record hr fun r _ _ => hD.proceed_one (hD.int r.width)

/-- The receiver is known, and then the feature. -/
theorem dot (hv : T value) (hf : T feature) : S (m.dot value feature) := by
  refine hD.withReceiver hv fun receiver hr => hD.deref hf fun f hfd htf => ?_
  split
  · exact hD.suspend_deref hfd htf
  · exact hD.typeError "Feature" htf
  · cases receiver with
    | literal l => exact hD.raise_pair "illegalFieldSelection" hr htf
    | record ref =>
      refine hD.record hr fun r _ hedges => ?_
      split
      · next hl =>
        exact hD.proceed_one (hedges _ (Heap.field_mem_edges (Record.mem_fields_of_lookup hl)))
      · exact hD.raise_pair "illegalFieldSelection" hr htf

theorem dotNumber (hv : T value) (i : Int) : S (m.dotNumber value i) := by
  refine hD.withReceiver hv fun receiver hr => ?_
  cases receiver with
  | literal l => exact hD.raise_pair "illegalFieldSelection" hr (hD.int i)
  | record ref =>
    refine hD.record hr fun r _ hedges => ?_
    split
    · next hl =>
      exact hD.proceed_one (hedges _ (Heap.field_mem_edges (Record.mem_fields_of_lookupNumber hl)))
    · exact hD.raise_pair "illegalFieldSelection" hr (hD.int i)

theorem callDotNumber (hv : T value) (hf : T feature) : S (m.callDotNumber value feature) := by
  unfold Machine.callDotNumber
  refine hD.deref hv fun d hd htd => ?_
  split
  · exact hD.suspend_deref hd htd
  · refine hD.deref hf fun f hfd htf => ?_
    split
    · exact hD.suspend_deref hfd htf
    · exact hD.dotNumber hv _
    · exact hD.typeError "Int" htf

/-! ### Waiting, binding and showing -/

theorem callWait (hv : T value) : S (m.callWait value) := by
  unfold Machine.callWait
  refine hD.deref hv fun d hd htd => ?_
  split
  · exact hD.suspend_deref hd htd
  · exact hD.proceed nofun

theorem isDet (hv : T value) :
    S (do return (.proceed [.bool (← m.isDetermined value)], m)) := by
  unfold Machine.isDetermined Heap.isDetermined
  rw [bind_assoc]
  refine hD.deref hv fun d _ _ => ?_
  cases d with
  | «variable» v => exact hD.proceed_one (hD.bool false)
  | _ => exact hD.proceed_one (hD.bool true)

/-- The first operand is bound if it is free, and compared with the second if it is not. -/
theorem callBind (hb : b = .bind) {target : Node} (ht : T target) (hv : T value) :
    S (m.callBind target value) := by
  unfold Machine.callBind
  refine hD.deref ht fun d hd htd => ?_
  split
  · exact hD.bind hb htd (Heap.deref_deref hd) hv
  · refine hD.deref hv fun x hx htx => ?_
    split
    · exact hD.suspend_deref hx htx
    · refine hD.equals htd hv fun same => ?_
      cases same with
      | true => exact hD.proceed nofun
      | false => exact hD.raise_pair "failure" htd hv

/-! ### Waiting for one field of many -/

/-- The search for a field with a value finds the feature of one, or the variables of them all. -/
theorem firstDetermined {entries : List (Feature × Node)}
    {next : Feature ⊕ List VarRef → Except Fault (Outcome × Machine)}
    (he : ∀ e ∈ entries, T e.2) (hfound : ∀ e ∈ entries, S (next (.inl e.1)))
    (hnone : ∀ vs : List VarRef, vs.length = entries.length →
      (∀ v ∈ vs, T (.variable v) ∧ m.heap.deref (.variable v) = .ok (.variable v)) →
      S (next (.inr vs))) : S (m.firstDetermined entries >>= next) := by
  induction entries generalizing next with
  | nil => exact hnone [] rfl nofun
  | cons e rest ih =>
    obtain ⟨f, n⟩ := e
    rw [Machine.firstDetermined, bind_assoc]
    refine hD.deref (he _ (List.mem_cons_self ..)) fun d hd htd => ?_
    cases d with
    | «variable» v =>
      dsimp only
      rw [bind_assoc]
      refine ih (fun e' he' => he e' (List.mem_cons_of_mem _ he')) (fun e' he' => ?_) fun vs hlen hvs => ?_
      · exact hfound e' (List.mem_cons_of_mem _ he')
      · refine hnone (v :: vs) (by simp [hlen]) fun w hw => ?_
        rcases List.mem_cons.mp hw with rfl | hw
        · exact ⟨htd, Heap.deref_deref hd⟩
        · exact hvs w hw
    | _ => exact hfound _ (List.mem_cons_self ..)

/-- The features of a record are integers, or stored in it. -/
theorem feature_of_edges {r : Record} (hedges : ∀ x ∈ r.edges, T x) {f : Feature}
    (hf : f ∈ r.features) : T f.toNode := by
  unfold Record.features at hf
  cases ha : r.arity with
  | tuple =>
    rw [ha] at hf
    obtain ⟨i, -, rfl⟩ := Feature.mem_countFrom hf
    exact hD.int i
  | features names =>
    rw [ha] at hf
    exact hedges _ (Heap.feature_mem_edges ha hf)

theorem waitOr (hb : b = .waitOr) (hv : T value) : S (m.waitOr value) := by
  refine hD.withReceiver hv fun receiver hr => ?_
  cases receiver with
  | literal l => exact hD.proceed_one hr
  | record ref =>
    refine hD.record hr fun r href hedges => ?_
    refine hD.firstDetermined (fun e he => ?_) (fun e he => ?_) fun vs hlen hvs => ?_
    · exact hedges _ (Heap.field_mem_edges (List.of_mem_zip he).2)
    · exact hD.proceed_one (hD.feature_of_edges hedges (List.of_mem_zip he).1)
    · -- a canonical record has fields, so there is a variable to wait for
      refine hD.wait hb ?_ hvs
      rintro rfl
      have hcanon := hD.canonical href
      rw [List.length_zip, hcanon.balanced, Nat.min_self] at hlen
      exact hcanon.nonempty (List.eq_nil_of_length_eq_zero hlen.symm)

/-! ### All builtins -/

/-- A discipline holds of every call on operands of its kind. -/
theorem call {operands : List Node} (hlen : operands.length = b.inputs)
    (ht : ∀ n ∈ operands, T n) : S (m.call b operands) := by
  match operands with
  | [] => cases b <;> cases hlen
  | [n] =>
    have hn : T n := ht n (List.mem_singleton.mpr rfl)
    cases b with
    | label => exact hD.label hn
    | width => exact hD.width hn
    | waitOr => exact hD.waitOr rfl hn
    | wait => exact hD.callWait hn
    | isDet => exact hD.isDet hn
    | «show» => exact hD.shows rfl hn
    | _ => cases hlen
  | [n, x] =>
    have hn : T n := ht n (List.mem_pair.mpr (.inl rfl))
    have hx : T x := ht x (List.mem_pair.mpr (.inr rfl))
    cases b with
    | dot => exact hD.dot hn hx
    | dotNumber => exact hD.callDotNumber hn hx
    | bind => exact hD.callBind rfl hn hx
    | _ => cases hlen
  | _ :: _ :: _ :: _ => cases b <;> cases hlen

end Discipline

/-! ### The ends of a call -/

/-- The property `P` holds of all that a call of `b` may come to. -/
structure Ends (m : Machine) (b : Builtin) (P : Outcome → Machine → Prop) : Prop where
  canonical : m.heap.Canonical
  proceed : ∀ results, P (.proceed results) m
  suspend : ∀ v, m.heap.deref (.variable v) = .ok (.variable v) → P (.suspend v) m
  raise : ∀ kind arguments,
    P (.raise (m.newException kind arguments).1) (m.newException kind arguments).2
  typeError : ∀ expected n, P (m.raiseTypeError expected n).1 (m.raiseTypeError expected n).2
  bind : b = .bind → ∀ v x m', m.bind v x = .ok (.ok m') → P (.proceed []) m'
  wait : b = .waitOr → ∀ vs c m', vs ≠ [] →
    (∀ v ∈ vs, m.heap.deref (.variable v) = .ok (.variable v)) →
    m.waitForAny vs = .ok (c, m') → P (.suspend c) m'
  shows : b = .show → ∀ text : String, P (.proceed []) { m with output := text }

variable {m m' : Machine} {b : Builtin} {P : Outcome → Machine → Prop}

/-- Nothing is asked of the operands: what is read is read, or there is a fault. -/
theorem Ends.discipline (hE : m.Ends b P) :
    m.Discipline b (fun _ => True) fun x => ∀ o m', x = .ok (o, m') → P o m' where
  canonical := hE.canonical
  int _ := trivial
  bool _ := trivial
  -- a read that gives an answer hands it to the rest
  deref _ hnext := by
    intro o m' hx
    obtain ⟨d, hd, hx⟩ := bind_eq_ok.mp hx
    exact hnext d hd trivial o m' hx
  record _ hnext := by
    intro o m' hx
    obtain ⟨r, hr, hx⟩ := bind_eq_ok.mp hx
    exact hnext r hr (fun _ _ => trivial) o m' hx
  equals _ _ hnext := by
    intro o m' hx
    obtain ⟨same, -, hx⟩ := bind_eq_ok.mp hx
    exact hnext same o m' hx
  -- the ends of a call
  proceed {results} _ := by
    rintro o m' ⟨⟩
    exact hE.proceed results
  suspend {v} hv _ := by
    rintro o m' ⟨⟩
    exact hE.suspend v hv
  raise kind arguments _ := by
    rintro o m' ⟨⟩
    exact hE.raise kind arguments
  typeError expected n _ := by
    rintro o m' ⟨⟩
    exact hE.typeError expected n
  -- a call of bind ends only if the bind is not refused
  bind hb v x _ _ _ := by
    intro o m' hx
    obtain ⟨bound, hbind, hx⟩ := bind_eq_ok.mp hx
    cases bound with
    | ok last =>
      cases hx
      exact hE.bind hb v x _ hbind
    | error e => cases hx
  wait hb vs hne hvs := by
    intro o m' hx
    obtain ⟨⟨c, last⟩, hwait, hx⟩ := bind_eq_ok.mp hx
    cases hx
    exact hE.wait hb vs c _ hne (fun v hv => (hvs v hv).2) hwait
  shows hb _ _ := by
    intro o m' hx
    obtain ⟨text, -, hx⟩ := bind_eq_ok.mp hx
    cases hx
    exact hE.shows hb _

/-- What holds of every end of a call holds of every call. -/
theorem Ends.call (hE : m.Ends b P) {operands : List Node} {o : Outcome}
    (hc : m.call b operands = .ok (o, m')) : P o m' :=
  hE.discipline.call (length_of_call hc) (fun _ _ => trivial) o m' hc

end Machine

end Dataflow
