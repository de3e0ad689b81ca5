import Dataflow.Machine
import Dataflow.Proofs.Calls

/-! # Heaps that are alike

  Two machines that have done the same, with collections at different times, hold the same values
  at different places. A `World` says which records and which unbound variables of the one stand
  for which of the other; `Alike` says of two nodes that they stand for the same value, and
  `Likeness` of two heaps that what the world relates is alike, part by part.

  Control variables are related apart from all others, and no node leads to one. A control that
  has been served is bound to unit; one of the heaps may still list it, while a collection has
  dropped it from the list of the other.
-/

namespace Dataflow

/-! ### Computations that agree -/

/-- Two computations give related results, or fail in the same way. -/
inductive Agree {ε α β : Type} (R : α → β → Prop) : Except ε α → Except ε β → Prop where
  | ok {a : α} {b : β} : R a b → Agree R (.ok a) (.ok b)
  | error (e : ε) : Agree R (.error e) (.error e)

namespace Agree

variable {ε α β γ δ : Type} {R : α → β → Prop} {S : γ → δ → Prop} {x : Except ε α}
  {y : Except ε β}

/-- Computations that agree may be continued by computations that agree. -/
theorem bind {f : α → Except ε γ} {g : β → Except ε δ} (hxy : Agree R x y)
    (hfg : ∀ a b, x = .ok a → y = .ok b → R a b → Agree S (f a) (g b)) :
    Agree S (x >>= f) (y >>= g) := by
  cases hxy with
  | ok h => exact hfg _ _ rfl rfl h
  | error e => exact .error e

/-- If the second computation gives a result, the first gives a related one. -/
theorem ok_right (hxy : Agree R x y) {b : β} (hy : y = .ok b) : ∃ a, x = .ok a ∧ R a b := by
  cases hxy with
  | ok h => cases hy; exact ⟨_, rfl, h⟩
  | error e => cases hy

theorem eq {x y : Except ε α} (hxy : Agree (· = ·) x y) : x = y := by
  cases hxy with
  | ok h => rw [h]
  | error f => rfl

theorem of_eq {x y : Except ε α} (hxy : x = y) : Agree (· = ·) x y := by
  subst hxy
  cases x with
  | ok a => exact .ok rfl
  | error f => exact .error f

/-- Lists in step are mapped by computations that agree to lists in step. -/
theorem mapM {f : α → Except ε γ} {g : β → Except ε δ} {xs : List α} {ys : List β}
    (hxy : List.Forall₂ R xs ys) (hfg : ∀ a b, R a b → Agree S (f a) (g b)) :
    Agree (List.Forall₂ S) (xs.mapM f) (ys.mapM g) := by
  induction hxy with
  | nil => exact .ok .nil
  | cons hab _ ih =>
    rw [List.mapM_cons, List.mapM_cons]
    refine (hfg _ _ hab).bind fun c d _ _ hcd => ?_
    refine ih.bind fun cs ds _ _ hcds => ?_
    exact .ok (.cons hcd hcds)

end Agree

/-! ### Lists in step -/

theorem forall₂_flip {α β : Type} {R : α → β → Prop} {S : β → α → Prop} {xs : List α} {ys : List β}
    (hxy : List.Forall₂ R xs ys) (hrs : ∀ x y, R x y → S y x) : List.Forall₂ S ys xs :=
  hxy.flip.imp fun y x h => hrs x y h

theorem forall₂_imp_left {α β : Type} {R S : α → β → Prop} {xs : List α} {ys : List β}
    (hxy : List.Forall₂ R xs ys) (hrs : ∀ x ∈ xs, ∀ y, R x y → S x y) : List.Forall₂ S xs ys := by
  induction hxy with
  | nil => exact .nil
  | @cons x y xs ys hr _ ih =>
    refine .cons (hrs x (List.mem_cons_self ..) y hr) (ih fun z hz => hrs z ?_)
    exact List.mem_cons_of_mem x hz

theorem forall₂_imp_right {α β : Type} {R S : α → β → Prop} {xs : List α} {ys : List β}
    (hxy : List.Forall₂ R xs ys) (hrs : ∀ y ∈ ys, ∀ x, R x y → S x y) : List.Forall₂ S xs ys :=
  (forall₂_imp_left hxy.flip fun y hy x h => hrs y hy x h).flip

theorem forall₂_trans {α β γ : Type} {R : α → β → Prop} {S : β → γ → Prop} {T : α → γ → Prop}
    {xs : List α} {ys : List β} {zs : List γ} (hxy : List.Forall₂ R xs ys)
    (hyz : List.Forall₂ S ys zs) (hrst : ∀ x y z, R x y → S y z → T x z) :
    List.Forall₂ T xs zs := by
  induction hxy generalizing zs with
  | nil => cases hyz; exact .nil
  | cons hr _ ih =>
    cases hyz with
    | cons hs hyz => exact .cons (hrst _ _ _ hr hs) (ih hyz)

theorem map_eq_of_forall₂ {α β γ : Type} {R : α → β → Prop} {f : α → γ} {g : β → γ} {xs : List α}
    {ys : List β} (hxy : List.Forall₂ R xs ys) (hfg : ∀ x y, R x y → f x = g y) :
    xs.map f = ys.map g := by
  have hmap : List.Forall₂ (· = ·) (xs.map f) (ys.map g) :=
    List.rel_map (fun x y h => hfg x y h) hxy
  rwa [List.forall₂_eq_eq_eq] at hmap

/-! ### Worlds and views -/

/-- Which parts of two heaps stand for each other. -/
structure World where
  /-- Records. -/
  record : RecordRef → RecordRef → Prop
  /-- Unbound variables that values may lead to. -/
  var : VarRef → VarRef → Prop
  /-- Control variables that have not been served. -/
  control : VarRef → VarRef → Prop

/-- Unbound variables of either kind. -/
def World.cell (w : World) (v v' : VarRef) : Prop := w.var v v' ∨ w.control v v'

/-- What a node of a machine is read with: the name of the atom table, and the heap. -/
structure View where
  /-- The name of the atom table. -/
  table : TableId
  /-- The heap. -/
  heap : Heap

/-- What the nodes of a machine are read with. -/
def Machine.view (m : Machine) : View := ⟨m.atoms.id, m.heap⟩

variable {w w₁ w₂ : World} {a b a₁ b₁ a₂ b₂ : View}

/-! ### Nodes -/

/-- Two dereferenced nodes stand for each other. Atoms do if they belong to the current tables and
    have the same content. -/
inductive Matches (w : World) (a b : View) : Node → Node → Prop where
  | atom (content : String) : Matches w a b (.atom ⟨a.table, content⟩) (.atom ⟨b.table, content⟩)
  | int (i : Int) : Matches w a b (.int i) (.int i)
  | float (x : Binary64) : Matches w a b (.float x) (.float x)
  | bool (x : Bool) : Matches w a b (.bool x) (.bool x)
  | unit : Matches w a b .unit .unit
  | record {r r' : RecordRef} : w.record r r' → Matches w a b (.record r) (.record r')
  | variable {v v' : VarRef} : w.var v v' → Matches w a b (.variable v) (.variable v')

/-- Two nodes lead to nodes that stand for each other. -/
def Alike (w : World) (a b : View) (n n' : Node) : Prop :=
  ∃ d d', a.heap.deref n = .ok d ∧ b.heap.deref n' = .ok d' ∧ Matches w a b d d'

theorem Alike.deref {n n' : Node} (hn : Alike w a b n n') :
    Agree (Matches w a b) (a.heap.deref n) (b.heap.deref n') := by
  obtain ⟨d, d', hd, hd', hm⟩ := hn
  rw [hd, hd']
  exact .ok hm

theorem Alike.of_value {d d' : Node} (hm : Matches w a b d d') (hv : d.asVariable? = none) :
    Alike w a b d d' := by
  have hv' : d'.asVariable? = none := by
    cases hm <;> first | rfl | cases hv
  exact ⟨d, d', Heap.deref_of_value hv, Heap.deref_of_value hv', hm⟩

theorem Alike.matches {d d' : Node} (hn : Alike w a b d d') (hv : d.asVariable? = none)
    (hv' : d'.asVariable? = none) : Matches w a b d d' := by
  obtain ⟨e, e', he, he', hm⟩ := hn
  rw [Heap.deref_of_value hv] at he
  rw [Heap.deref_of_value hv'] at he'
  cases he
  cases he'
  exact hm

theorem Literal.asVariable?_toNode (l : Literal) : l.toNode.asVariable? = none := by
  cases l <;> rfl

theorem Feature.asVariable?_toNode (f : Feature) : f.toNode.asVariable? = none := by
  cases f with
  | int i => rfl
  | literal l => exact l.asVariable?_toNode

/-! ### Records and lists of listeners -/

/-- Two features stand for each other. -/
def FeatureAlike (w : World) (a b : View) (f f' : Feature) : Prop :=
  Matches w a b f.toNode f'.toNode

/-- Two records have the same form, and parts that stand for each other. -/
structure RecordAlike (w : World) (a b : View) (r r' : Record) : Prop where
  label : Matches w a b r.label.toNode r'.label.toNode
  arity : r.arity = .tuple ∧ r'.arity = .tuple ∨
    ∃ names names', r.arity = .features names ∧ r'.arity = .features names' ∧
      List.Forall₂ (FeatureAlike w a b) names names'
  fields : List.Forall₂ (Alike w a b) r.fields r'.fields

/-- Records are alike wherever their nodes are. -/
theorem RecordAlike.imp (himp : ∀ n n', Alike w a b n n' → Alike w₁ a₁ b₁ n n') {r r' : Record}
    (hr : RecordAlike w a b r r') : RecordAlike w₁ a₁ b₁ r r' := by
  have hvalue : ∀ {d d' : Node}, d.asVariable? = none → d'.asVariable? = none →
      Matches w a b d d' → Matches w₁ a₁ b₁ d d' :=
    fun hv hv' hm => (himp _ _ (.of_value hm hv)).matches hv hv'
  refine ⟨?_, ?_, hr.fields.imp himp⟩
  · exact hvalue (Literal.asVariable?_toNode _) (Literal.asVariable?_toNode _) hr.label
  · rcases hr.arity with h | ⟨names, names', ha, ha', hn⟩
    · exact .inl h
    · refine .inr ⟨names, names', ha, ha', hn.imp fun f f' h => ?_⟩
      exact hvalue (Feature.asVariable?_toNode _) (Feature.asVariable?_toNode _) h

/-- Two lists of listeners name the same threads and related controls, in the same order, but for
    controls that have been served. -/
inductive ListenersAlike (w : World) (a b : View) : List Listener → List Listener → Prop where
  | nil : ListenersAlike w a b [] []
  | thread {ls ls' : List Listener} (id : ThreadId) : ListenersAlike w a b ls ls' →
      ListenersAlike w a b (.thread id :: ls) (.thread id :: ls')
  | control {c c' : VarRef} {ls ls' : List Listener} : w.control c c' →
      ListenersAlike w a b ls ls' → ListenersAlike w a b (.control c :: ls) (.control c' :: ls')
  | servedLeft {c : VarRef} {ls ls' : List Listener} : a.heap.deref (.variable c) = .ok .unit →
      ListenersAlike w a b ls ls' → ListenersAlike w a b (.control c :: ls) ls'
  | servedRight {c : VarRef} {ls ls' : List Listener} : b.heap.deref (.variable c) = .ok .unit →
      ListenersAlike w a b ls ls' → ListenersAlike w a b ls (.control c :: ls')

/-- What a world relates is alike, and a world relates one to one. -/
structure Likeness (w : World) (a b : View) : Prop where
  /-- Related records are alike. -/
  record : ∀ {r r' : RecordRef}, w.record r r' → ∃ s s', a.heap.record r = .ok s ∧
    b.heap.record r' = .ok s' ∧ RecordAlike w a b s s'
  /-- A record is related to one record. -/
  record_left : ∀ {r r' r'' : RecordRef}, w.record r r' → w.record r r'' → r' = r''
  record_right : ∀ {r r' r'' : RecordRef}, w.record r r'' → w.record r' r'' → r = r'
  /-- Related variables are unbound, with listeners that are alike. -/
  var : ∀ {v v' : VarRef}, w.var v v' → ∃ ls ls', a.heap.cell v = .ok (.unbound ls) ∧
    b.heap.cell v' = .ok (.unbound ls') ∧ ListenersAlike w a b ls ls'
  /-- Related controls are unbound, and the same threads wait for them. No control does. -/
  control : ∀ {c c' : VarRef}, w.control c c' → ∃ ids : List ThreadId,
    a.heap.cell c = .ok (.unbound (ids.map .thread)) ∧
      b.heap.cell c' = .ok (.unbound (ids.map .thread))
  /-- A variable is related to one variable. -/
  cell_left : ∀ {v v' v'' : VarRef}, w.cell v v' → w.cell v v'' → v' = v''
  cell_right : ∀ {v v' v'' : VarRef}, w.cell v v'' → w.cell v' v'' → v = v'
  /-- No variable is both a control and something that values lead to. -/
  disjoint : ∀ {v v' : VarRef}, w.var v v' → ¬ w.control v v'

/-! ### The other way round -/

/-- The world seen from the other side. -/
def World.flip (w : World) : World where
  record r r' := w.record r' r
  var v v' := w.var v' v
  control c c' := w.control c' c

theorem Matches.flip {d d' : Node} (hm : Matches w a b d d') : Matches w.flip b a d' d := by
  cases hm with
  | atom content => exact .atom content
  | int i => exact .int i
  | float x => exact .float x
  | bool x => exact .bool x
  | unit => exact .unit
  | record hr => exact .record hr
  | «variable» hv => exact .variable hv

theorem Alike.flip {n n' : Node} (hn : Alike w a b n n') : Alike w.flip b a n' n := by
  obtain ⟨d, d', hd, hd', hm⟩ := hn
  exact ⟨d', d, hd', hd, hm.flip⟩

theorem RecordAlike.flip {r r' : Record} (hr : RecordAlike w a b r r') :
    RecordAlike w.flip b a r' r where
  label := hr.label.flip
  arity := by
    rcases hr.arity with ⟨ha, ha'⟩ | ⟨names, names', ha, ha', hn⟩
    · exact .inl ⟨ha', ha⟩
    · exact .inr ⟨names', names, ha', ha, forall₂_flip hn fun _ _ h => Matches.flip h⟩
  fields := forall₂_flip hr.fields fun _ _ h => h.flip

theorem ListenersAlike.flip {ls ls' : List Listener} (hl : ListenersAlike w a b ls ls') :
    ListenersAlike w.flip b a ls' ls := by
  induction hl with
  | nil => exact .nil
  | thread id _ ih => exact .thread id ih
  | control hc _ ih => exact .control hc ih
  | servedLeft hc _ ih => exact .servedRight hc ih
  | servedRight hc _ ih => exact .servedLeft hc ih

theorem Likeness.flip (hl : Likeness w a b) : Likeness w.flip b a where
  record hr := by
    obtain ⟨s, s', hs, hs', hss⟩ := hl.record hr
    exact ⟨s', s, hs', hs, hss.flip⟩
  record_left h h' := hl.record_right h h'
  record_right h h' := hl.record_left h h'
  var hv := by
    obtain ⟨ls, ls', hc, hc', hls⟩ := hl.var hv
    exact ⟨ls', ls, hc', hc, hls.flip⟩
  control hc := by
    obtain ⟨ids, h, h'⟩ := hl.control hc
    exact ⟨ids, h', h⟩
  cell_left h h' := hl.cell_right h h'
  cell_right h h' := hl.cell_left h h'
  disjoint hv hc := hl.disjoint hv hc

/-! ### Later states -/

/-- The second pair of heaps is a later state of the first: what was alike still is. -/
structure Later (w : World) (a b : View) (w₁ : World) (a₁ b₁ : View) : Prop where
  /-- Nodes that were alike still are. -/
  node : ∀ {n n' : Node}, Alike w a b n n' → Alike w₁ a₁ b₁ n n'
  /-- Controls that were related still are, or have been served. -/
  control : ∀ {c c' : VarRef}, w.control c c' → w₁.control c c' ∨
    a₁.heap.deref (.variable c) = .ok .unit ∧ b₁.heap.deref (.variable c') = .ok .unit
  /-- Controls that have been served stay so. -/
  servedLeft : ∀ {n : Node}, a.heap.deref n = .ok .unit → a₁.heap.deref n = .ok .unit
  servedRight : ∀ {n : Node}, b.heap.deref n = .ok .unit → b₁.heap.deref n = .ok .unit
  /-- Variables that were related still are, or have been bound. -/
  cell : ∀ {v v' : VarRef}, w.cell v v' → w₁.cell v v' ∨ ∃ x, a₁.heap.cell v = .ok (.bound x)
  bound : ∀ {v : VarRef} {x : Node}, a.heap.cell v = .ok (.bound x) →
    a₁.heap.cell v = .ok (.bound x)

namespace Later

theorem refl (w : World) (a b : View) : Later w a b w a b where
  node hn := hn
  control hc := .inl hc
  servedLeft hd := hd
  servedRight hd := hd
  cell hv := .inl hv
  bound hv := hv

theorem trans (h₁ : Later w a b w₁ a₁ b₁) (h₂ : Later w₁ a₁ b₁ w₂ a₂ b₂) :
    Later w a b w₂ a₂ b₂ where
  node hn := h₂.node (h₁.node hn)
  control hc := by
    rcases h₁.control hc with hc | ⟨hd, hd'⟩
    · exact h₂.control hc
    · exact .inr ⟨h₂.servedLeft hd, h₂.servedRight hd'⟩
  servedLeft hd := h₂.servedLeft (h₁.servedLeft hd)
  servedRight hd := h₂.servedRight (h₁.servedRight hd)
  cell hv := by
    rcases h₁.cell hv with hv | ⟨x, hx⟩
    · exact h₂.cell hv
    · exact .inr ⟨x, h₂.bound hx⟩
  bound hv := h₂.bound (h₁.bound hv)

variable {w₁ : World} {a₁ b₁ : View}

theorem nodes (hl : Later w a b w₁ a₁ b₁) {ns ns' : List Node}
    (hn : List.Forall₂ (Alike w a b) ns ns') : List.Forall₂ (Alike w₁ a₁ b₁) ns ns' :=
  hn.imp fun _ _ h => hl.node h

theorem record (hl : Later w a b w₁ a₁ b₁) {r r' : Record} (hr : RecordAlike w a b r r') :
    RecordAlike w₁ a₁ b₁ r r' :=
  hr.imp fun _ _ h => hl.node h

theorem listeners (hl : Later w a b w₁ a₁ b₁) {ls ls' : List Listener}
    (hls : ListenersAlike w a b ls ls') : ListenersAlike w₁ a₁ b₁ ls ls' := by
  induction hls with
  | nil => exact .nil
  | thread id _ ih => exact .thread id ih
  | control hc _ ih =>
    rcases hl.control hc with hc | ⟨hd, hd'⟩
    · exact .control hc ih
    · exact .servedLeft hd (.servedRight hd' ih)
  | servedLeft hc _ ih => exact .servedLeft (hl.servedLeft hc) ih
  | servedRight hc _ ih => exact .servedRight (hl.servedRight hc) ih

end Later

end Dataflow
