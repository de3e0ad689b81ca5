import Dataflow.Proofs.Host

/-! # Making nodes of a kind

  Whatever a machine makes out of nodes, exceptions, records and tuples, it makes by interning atoms
  and allocating records. So a kind of nodes that has room for new atoms, and for a reference to each
  new record of such nodes, has room for all that is made of them. This is said once here, for any
  kind of nodes and any relation between a machine and its later states.
-/

namespace Dataflow

/-! ### The nodes of a record -/

theorem Record.mem_edges_tuple {l : Literal} {fields : List Node} {n : Node} :
    n ∈ (⟨l, .tuple, fields⟩ : Record).edges ↔ n = l.toNode ∨ n ∈ fields := by
  simp [Record.edges]

theorem Record.mem_edges_ofSorted {l : Literal} {fields : List (Feature × Node)} {n : Node}
    (hn : n ∈ (Record.ofSorted l fields).edges) :
    n = l.toNode ∨ ∃ e ∈ fields, n = e.1.toNode ∨ n = e.2 := by
  unfold Record.edges Record.ofSorted at hn
  dsimp only at hn
  rcases List.mem_cons.mp hn with rfl | hn
  · exact .inl rfl
  refine .inr ?_
  rcases List.mem_append.mp hn with hn | hn
  · split at hn
    · cases hn
    · next names ha =>
      split at ha
      · cases ha
      · cases ha
        obtain ⟨f, hf, rfl⟩ := List.mem_map.mp hn
        obtain ⟨e, he, rfl⟩ := List.mem_map.mp hf
        exact ⟨e, he, .inl rfl⟩
  · obtain ⟨e, he, rfl⟩ := List.mem_map.mp hn
    exact ⟨e, he, .inr rfl⟩

namespace Machine

/-! ### Labels and features -/

section Parts

variable {m : Machine} {T : Node → Prop}
  (hderef : ∀ {n d : Node}, T n → m.heap.deref n = .ok d → T d)

include hderef

theorem kind_of_labelOf {label : Node} {l : Literal} (hlabel : T label)
    (hl : m.labelOf label = .ok (.ok l)) : T l.toNode := by
  obtain ⟨d, hd, hl⟩ := bind_eq_ok.mp hl
  split at hl
  · next hlit =>
    cases hl
    rw [← Node.asLiteral?_eq_some_iff.mp hlit]
    exact hderef hlabel hd
  · obtain ⟨text, -, hl⟩ := bind_eq_ok.mp hl
    cases hl

theorem kind_of_featuresOf {fields : List (Node × Node)} {fs : List (Feature × Node)}
    (hfields : ∀ e ∈ fields, T e.1 ∧ T e.2) (hf : m.featuresOf fields = .ok (.ok fs)) :
    ∀ e ∈ fs, T e.1.toNode ∧ T e.2 := by
  -- along the fields: each feature is what its node leads to
  induction fields generalizing fs with
  | nil =>
    cases hf
    exact fun _ he => absurd he List.not_mem_nil
  | cons e rest ih =>
    obtain ⟨feature, value⟩ := e
    obtain ⟨hfeature, hvalue⟩ := hfields _ (List.mem_cons_self ..)
    rw [featuresOf] at hf
    obtain ⟨d, hd, hf⟩ := bind_eq_ok.mp hf
    split at hf
    · next f hdf =>
      obtain ⟨es, hes, hf⟩ := bind_eq_ok.mp hf
      cases es with
      | error e => cases hf
      | ok es =>
        cases hf
        have htd : T d := hderef hfeature hd
        intro e he
        rcases List.mem_cons.mp he with rfl | he
        · rw [← Node.asFeature?_eq_some_iff.mp hdf]
          exact ⟨htd, hvalue⟩
        · exact ih (fun e' he' => hfields e' (List.mem_cons_of_mem _ he')) hes e he
    · obtain ⟨text, -, hf⟩ := bind_eq_ok.mp hf
      cases hf

end Parts

/-! ### Kinds of nodes -/

/-- The nodes of the kind `T` stay in it along `R`, and what is made of them is of the kind again. A
    machine that is related to itself is one in which nodes may be made. -/
structure Making (R : Machine → Machine → Prop) (T : Machine → Node → Prop) : Prop where
  /-- Nodes may be made in a later state. -/
  again : ∀ {m m' : Machine}, R m m' → R m' m'
  trans : ∀ {m m' m'' : Machine}, R m m' → R m' m'' → R m m''
  keeps : ∀ {m m' : Machine} {n : Node}, R m m' → T m n → T m' n
  /-- Numbers, booleans and unit are of every kind. -/
  inline : ∀ {m : Machine} {n : Node}, n.kind.capabilities.copiesWhole = true → T m n
  /-- An atom is interned. -/
  intern : ∀ {m : Machine}, R m m → ∀ content, R m { m with atoms := m.atoms.insert content } ∧
    T { m with atoms := m.atoms.insert content } (.atom ⟨m.atoms.id, content⟩)
  /-- A record is allocated. -/
  allocate : ∀ {m : Machine} {r : Record}, R m m → r.Canonical → (∀ n ∈ r.edges, T m n) →
    R m (m.allocate r).2 ∧ T (m.allocate r).2 (m.allocate r).1

namespace Making

variable {R : Machine → Machine → Prop} {T : Machine → Node → Prop} (hM : Making R T)
  {m m' : Machine}

include hM

/-! ### Exceptions -/

theorem exceptionDetail (hm : R m m) (kind : String) {arguments : List Node}
    (ha : ∀ n ∈ arguments, T m n) :
    R m (m.exceptionDetail kind arguments).2 ∧
      T (m.exceptionDetail kind arguments).2 (m.exceptionDetail kind arguments).1 := by
  obtain ⟨h₁, hkernel⟩ := hM.intern hm "kernel"
  obtain ⟨h₂, hkind⟩ := hM.intern (hM.again h₁) kind
  have hnodes : ∀ n ∈ (⟨.atom ⟨m.atoms.id, "kernel"⟩, .tuple,
      .atom ⟨(m.atoms.insert "kernel").id, kind⟩ :: arguments⟩ : Record).edges,
      T { m with atoms := (m.atoms.insert "kernel").insert kind } n := by
    intro n hn
    rcases Record.mem_edges_tuple.mp hn with rfl | hn
    · exact hM.keeps h₂ hkernel
    rcases List.mem_cons.mp hn with rfl | hn
    · exact hkind
    · exact hM.keeps h₂ (hM.keeps h₁ (ha n hn))
  obtain ⟨h₃, hdetail⟩ :=
    hM.allocate (hM.again h₂) (Record.canonical_tuple _ (List.cons_ne_nil _ _)) hnodes
  rw [Machine.exceptionDetail_eq]
  exact ⟨hM.trans (hM.trans h₁ h₂) h₃, hdetail⟩

/-- The nodes of an exception are two atoms, one and unit, and the detail. -/
theorem mem_exception {error debug : Atom} {detail n : Node} (herror : T m (.atom error))
    (hdebug : T m (.atom debug)) (hdetail : T m detail)
    (hn : n ∈ (Record.ofSorted (.atom error)
      [(.int 1, detail), (.literal (.atom debug), .unit)]).edges) : T m n := by
  rcases Record.mem_edges_ofSorted hn with rfl | ⟨e, he, hn⟩
  · exact herror
  simp only [List.mem_cons, List.not_mem_nil, or_false] at he
  rcases he with rfl | rfl
  · rcases hn with rfl | rfl
    · exact hM.inline rfl
    · exact hdetail
  · rcases hn with rfl | rfl
    · exact hdebug
    · exact hM.inline rfl

theorem newException (hm : R m m) (kind : String) {arguments : List Node}
    (ha : ∀ n ∈ arguments, T m n) :
    R m (m.newException kind arguments).2 ∧
      T (m.newException kind arguments).2 (m.newException kind arguments).1 := by
  obtain ⟨h₁, hdetail⟩ := hM.exceptionDetail hm kind ha
  obtain ⟨h₂, herror⟩ := hM.intern (hM.again h₁) "error"
  obtain ⟨h₃, hdebug⟩ := hM.intern (hM.again h₂) "debug"
  obtain ⟨h₄, he⟩ := hM.allocate (hM.again h₃) (canonical_exception _ _ _) fun n hn =>
    hM.mem_exception (hM.keeps h₃ herror) hdebug (hM.keeps h₃ (hM.keeps h₂ hdetail)) hn
  rw [Machine.newException_eq]
  exact ⟨hM.trans (hM.trans (hM.trans h₁ h₂) h₃) h₄, he⟩

/-- The exception of a call that expects another type. -/
theorem raiseTypeError (hm : R m m) (expected : String) {value : Node} (hv : T m value) :
    ∃ e m', m.raiseTypeError expected value = (.raise e, m') ∧ R m m' ∧ T m' e := by
  obtain ⟨h₁, hexpected⟩ := hM.intern hm expected
  have harguments : ∀ n ∈ [.atom ⟨m.atoms.id, expected⟩, value],
      T { m with atoms := m.atoms.insert expected } n := by
    intro n hn
    rcases List.mem_pair.mp hn with rfl | rfl
    · exact hexpected
    · exact hM.keeps h₁ hv
  obtain ⟨h₂, he⟩ := hM.newException (hM.again h₁) "typeError" harguments
  exact ⟨_, _, Machine.raiseTypeError_eq m expected value, hM.trans h₁ h₂, he⟩

/-! ### Records and tuples -/

theorem buildRecord (hderef : ∀ {n d : Node}, T m n → m.heap.deref n = .ok d → T m d) (hm : R m m)
    {label n : Node} {fields : List (Node × Node)}
    (hlabel : T m label) (hfields : ∀ e ∈ fields, T m e.1 ∧ T m e.2)
    (hb : m.buildRecord label fields = .ok (.ok (n, m'))) : R m m' ∧ T m' n := by
  rcases buildRecord_cases hb with ⟨l, hl, hn, hm'⟩ | ⟨l, fs, hl, hfs, hcanon, he⟩
  · subst hn hm'
    exact ⟨hm, kind_of_labelOf hderef hlabel hl⟩
  · have hfeatures := kind_of_featuresOf hderef hfields hfs
    have hmade := hM.allocate hm hcanon fun x hx => by
      rcases Record.mem_edges_ofSorted hx with rfl | ⟨e, he, hx⟩
      · exact kind_of_labelOf hderef hlabel hl
      · obtain ⟨hfeature, hvalue⟩ := hfeatures e ((sortFields_perm fs).mem_iff.mp he)
        rcases hx with rfl | rfl
        · exact hfeature
        · exact hvalue
    simpa only [← he] using hmade

theorem buildTuple (hderef : ∀ {n d : Node}, T m n → m.heap.deref n = .ok d → T m d) (hm : R m m)
    {label n : Node} {values : List Node} (hlabel : T m label)
    (hvalues : ∀ x ∈ values, T m x) (hb : m.buildTuple label values = .ok (.ok (n, m'))) :
    R m m' ∧ T m' n := by
  rcases buildTuple_cases hb with ⟨l, hl, hn, hm'⟩ | ⟨l, hl, hne, he⟩
  · subst hn hm'
    exact ⟨hm, kind_of_labelOf hderef hlabel hl⟩
  · have hmade := hM.allocate hm (Record.canonical_tuple l hne) fun x hx => by
      rcases Record.mem_edges_tuple.mp hx with rfl | hx
      · exact kind_of_labelOf hderef hlabel hl
      · exact hvalues x hx
    simpa only [← he] using hmade

end Making

end Machine

end Dataflow
