import Dataflow.Proofs.Lookup
import Dataflow.Proofs.Readability
import Dataflow.Proofs.Utf8

/-! # The order of features and equality

  The order of features is total, and it is extended to all nodes by a place above the features
  that all other nodes share. It looks at the contents of atoms and not at their tables, so a
  feature keeps its place when it is moved by a collection.

  Equality does look at the tables. A machine finds two features of its own equal if they are the
  same, and then they have the same place; but two atoms of one content also have the same place if
  they were made before and after a collection. A host that passes back only what it has received
  since the last collection never has such a pair in its hands, and for what it holds the two agree.
-/

open Std (OrientedCmp ReflCmp TransCmp)

namespace Dataflow

/-! ### Total orders -/

/-- A comparison puts the nodes with a property into a total order, in which those count as equal
    that are the same in a given sense. -/
structure TotallyOrders (order : Node → Node → Ordering) (P : Node → Prop)
    (Same : Node → Node → Prop) : Prop where
  /-- Every node counts as equal to itself. -/
  refl : ∀ {x}, P x → order x x = .eq
  /-- Nodes that come before each other are the same. -/
  antisymm : ∀ {x y}, P x → P y → (order x y).isLE = true → (order y x).isLE = true → Same x y
  /-- What comes before a node comes before all that come after it. -/
  trans : ∀ {x y z}, P x → P y → P z → (order x y).isLE = true → (order y z).isLE = true →
    (order x z).isLE = true
  /-- Of any two nodes one comes before the other, or they count as equal. -/
  total : ∀ {x y}, P x → P y → (order x y).isLE = true ∨ (order y x).isLE = true
  /-- The answer is turned round with the question. -/
  swap : ∀ {x y}, P x → P y → order y x = (order x y).swap
  /-- The nodes that count as equal are those that are the same. -/
  equal : ∀ {x y}, P x → P y → (order x y = .eq ↔ Same x y)

theorem totallyOrders_of_equal {order : Node → Node → Ordering} [TransCmp order]
    {P : Node → Prop} {Same : Node → Node → Prop}
    (hequal : ∀ {x y}, P x → P y → (order x y = .eq ↔ Same x y)) : TotallyOrders order P Same where
  refl _ := ReflCmp.compare_self
  antisymm hx hy hxy hyx := (hequal hx hy).mp (OrientedCmp.isLE_antisymm hxy hyx)
  trans _ _ _ hxy hyz := TransCmp.isLE_trans hxy hyz
  total {x y} _ _ := by
    have hswap : order y x = (order x y).swap := OrientedCmp.eq_swap
    rw [hswap]
    cases order x y <;> simp
  swap _ _ := OrientedCmp.eq_swap
  equal := hequal

/-! ### Features that count as equal -/

/-- Features count as equal if the same remains of them without the tables of their atoms. -/
theorem Feature.compare_eq_iff {f g : Feature} : f.compare g = .eq ↔ f.token = g.token := by
  rcases f with i | a | b | _ <;> rcases g with j | a' | b' | _ <;>
    simp [compare, token, Literal.token, rank, Literal.rank]

/-- Two atoms of one content that were made before and after a collection. -/
def Node.Namesake (x y : Node) : Prop :=
  ∃ a b : Atom, x = .atom a ∧ y = .atom b ∧ a.content = b.content ∧
    a.table.generation ≠ b.table.generation

/-- A machine makes one atom of a content between two collections. -/
theorem Atom.eq_of_generation {a b : Atom} (howner : a.owner = b.owner)
    (hgen : a.table.generation = b.table.generation) (hcontent : a.content = b.content) :
    a = b := by
  obtain ⟨⟨owner, generation⟩, content⟩ := a
  obtain ⟨⟨owner', generation'⟩, content'⟩ := b
  simp_all [Atom.owner]

namespace Machine

variable {m : Machine} {x y : Node} {held : List Node}

/-- The node is a feature, and belongs to the machine if it is an atom. -/
def OwnFeature (m : Machine) (n : Node) : Prop := n.isFeature = true ∧ m.Fits n

/-- A machine finds two features of its own equal if they are the same. -/
theorem equals_features {f g : Feature} (hf : m.Fits f.toNode) (hg : m.Fits g.toNode) :
    m.equals f.toNode g.toNode = .ok (decide (f = g)) := by
  have hderef : ∀ f : Feature, m.heap.deref f.toNode = .ok f.toNode :=
    fun f => Heap.deref_of_value f.asVariable?_toNode
  obtain ⟨same, hsame⟩ := Heap.sameValue_ok hf hg
  have hiff : same = true ↔ f = g :=
    (Node.same_iff_of_sameValue hsame).trans Feature.same_toNode_iff
  unfold equals Heap.equals Heap.pairBound
  rw [Nat.add_comm, Heap.equalPairs, hderef, ok_bind, hderef, ok_bind]
  split
  · next ha _ => rcases f with i | a | b | _ <;> cases ha
  · rw [hsame, ok_bind]
    by_cases hfg : f = g
    · simp [hiff.mpr hfg, hfg, Heap.equalPairs]
    · have hno : same = false := by simpa [hfg] using hiff
      simp [hno, hfg, pure, Except.pure]

/-- Features of a machine count as equal if the machine finds them equal, and besides only if they
    are atoms of one content from both sides of a collection. -/
theorem OwnFeature.order_eq_iff (hx : m.OwnFeature x) (hy : m.OwnFeature y) :
    x.featureOrder y = .eq ↔ m.equals x y = .ok true ∨ x.Namesake y := by
  obtain ⟨f, rfl⟩ := Node.exists_feature hx.1
  obtain ⟨g, rfl⟩ := Node.exists_feature hy.1
  rw [Feature.featureOrder_toNode, Feature.compare_eq_iff, equals_features hx.2 hy.2]
  constructor
  · intro htoken
    -- features that count as equal differ at most in the tables of their atoms
    by_cases hnames : f.toNode.Namesake g.toNode
    · exact .inr hnames
    · have hfg : f = g := by
        apply Heap.feature_eq_of_token htoken
        intro a b ha hb hcontent
        have hfa : m.Fits (.atom a) := ha ▸ hx.2
        have hgb : m.Fits (.atom b) := hb ▸ hy.2
        have hgen : a.table.generation = b.table.generation := by
          by_contra hne
          exact hnames ⟨a, b, ha, hb, hcontent, hne⟩
        exact Atom.eq_of_generation (Eq.trans hfa (Eq.symm hgb)) hgen hcontent
      simp [hfg]
  · intro h
    rcases h with he | ⟨a, b, ha, hb, hcontent, -⟩
    · have hfg : f = g := by simpa using he
      rw [hfg]
    · have hfa : f = .literal (.atom a) := Feature.toNode_injective ha
      have hgb : g = .literal (.atom b) := Feature.toNode_injective hb
      simp [hfa, hgb, Feature.token, Literal.token, hcontent]

/-- What an honest host holds has no namesakes. -/
theorem Honest.not_namesake (hm : Honest m held) (hx : MayPass held x) (hy : MayPass held y) :
    ¬ x.Namesake y := by
  intro h
  obtain ⟨a, b, rfl, rfl, hcontent, hgen⟩ := h
  have hab : a = b := hm.shareAtoms hx hy a b .refl .refl hcontent
  exact hgen (by rw [hab])

/-- Among features without namesakes the order agrees with equality. -/
theorem totallyOrders_of_not_namesake {P : Node → Prop} (hown : ∀ x, P x → m.OwnFeature x)
    (hnames : ∀ x y, P x → P y → ¬ x.Namesake y) :
    TotallyOrders Node.featureOrder P fun x y => m.equals x y = .ok true := by
  apply totallyOrders_of_equal
  intro x y hx hy
  simp [(hown x hx).order_eq_iff (hown y hy), hnames x y hx hy]

/-! ### Features on the move -/

/-- A feature is relocated to one that counts as equal, whatever the collector has built. -/
theorem relocate_counts_as_equal (hx : x.isFeature = true) (h : Heap) (n : Nat) (c : Collector) :
    ∃ x' c', (Collector.relocate h (n + 1) x).run c = .ok (x', c') ∧ x'.featureOrder x = .eq := by
  obtain ⟨f, rfl⟩ := Node.exists_feature hx
  have hmoved : ∃ (g : Feature) (c' : Collector),
      (Collector.relocate h (n + 1) f.toNode).run c = .ok (g.toNode, c') ∧ g.token = f.token := by
    rcases f with i | a | b | _
    · exact ⟨.int i, c, rfl, rfl⟩
    · have hatom := Collector.intern_run a.content c
      exact ⟨.literal (.atom ⟨c.atoms.id, a.content⟩), _,
        Collector.bind_run.mpr ⟨_, _, hatom, rfl⟩, rfl⟩
    · exact ⟨.literal (.bool b), c, rfl, rfl⟩
    · exact ⟨.literal .unit, c, rfl, rfl⟩
  obtain ⟨g, c', hrun, htoken⟩ := hmoved
  refine ⟨_, c', hrun, ?_⟩
  rw [Feature.featureOrder_toNode, Feature.compare_eq_iff, htoken]

/-- Wherever two features are relocated, their order stays. -/
theorem featureOrder_relocate (hx : x.isFeature = true) (hy : y.isFeature = true) (h k : Heap)
    (n l : Nat) (c d : Collector) :
    ∃ x' y' c' d', (Collector.relocate h (n + 1) x).run c = .ok (x', c') ∧
      (Collector.relocate k (l + 1) y).run d = .ok (y', d') ∧
      x'.featureOrder y' = x.featureOrder y := by
  obtain ⟨x', c', hx', hxx'⟩ := relocate_counts_as_equal hx h n c
  obtain ⟨y', d', hy', hyy'⟩ := relocate_counts_as_equal hy k l d
  refine ⟨x', y', c', d', hx', hy', ?_⟩
  calc x'.featureOrder y'
      = x.featureOrder y' := TransCmp.congr_left hxx'
    _ = x.featureOrder y := TransCmp.congr_right hyy'

/-! ### The order of a machine's features -/

/-- The features that belong to a machine are in a total order. Those count as equal that the
    machine finds equal, and besides these only atoms of one content from both sides of a
    collection. So among the features of one table the order agrees with equality, and likewise in
    the hands of a host that passes back only what it has received since the last collection. Atoms
    are ordered by the bytes of their contents, which is the order of the code points. Relocating
    features, at any depth and at any point of a collection, does not change their order, and every
    feature comes before every other node. -/
theorem features_totally_ordered (m : Machine) :
    TotallyOrders Node.featureOrder m.OwnFeature
      (fun x y => m.equals x y = .ok true ∨ x.Namesake y) ∧
    (∀ t, TotallyOrders Node.featureOrder (fun x => m.OwnFeature x ∧ x.OfTable t)
      fun x y => m.equals x y = .ok true) ∧
    (∀ held, Honest m held →
      TotallyOrders Node.featureOrder (fun x => x.isFeature = true ∧ MayPass held x)
        fun x y => m.equals x y = .ok true) ∧
    (∀ x y, m.OwnFeature x → m.OwnFeature y → ∃ same, m.equals x y = .ok same) ∧
    (∀ a b : Atom,
      (Node.atom a).featureOrder (.atom b) =
        Ord.compare (Utf8.bytes a.content) (Utf8.bytes b.content) ∧
      (Node.atom a).featureOrder (.atom b) =
        Ord.compare (Utf8.codePoints a.content) (Utf8.codePoints b.content)) ∧
    (∀ x y : Node, x.isFeature = true → y.isFeature = true →
      ∀ (h k : Heap) (n l : Nat) (c d : Collector), ∃ x' y' c' d',
        (Collector.relocate h (n + 1) x).run c = .ok (x', c') ∧
        (Collector.relocate k (l + 1) y).run d = .ok (y', d') ∧
        x'.featureOrder y' = x.featureOrder y) ∧
    ∀ x n : Node, x.isFeature = true → n.isFeature = false →
      x.featureOrder n = .lt ∧ n.featureOrder x = .gt := by
  refine ⟨totallyOrders_of_equal fun hx hy => hx.order_eq_iff hy, ?_, ?_, ?_, ?_, ?_, ?_⟩
  · intro t
    apply totallyOrders_of_not_namesake
    · intro x hx
      exact hx.1
    · intro x y hx hy h
      obtain ⟨a, b, ha, hb, -, hgen⟩ := h
      exact hgen (by rw [hx.2 a ha, hy.2 b hb])
  · intro held hm
    apply totallyOrders_of_not_namesake
    · intro x hx
      exact ⟨hx.1, hm.kept.mayPass hx.2⟩
    · intro x y hx hy
      exact hm.not_namesake hx.2 hy.2
  · intro x y hx hy
    obtain ⟨f, rfl⟩ := Node.exists_feature hx.1
    obtain ⟨g, rfl⟩ := Node.exists_feature hy.1
    exact ⟨_, equals_features hx.2 hy.2⟩
  · intro a b
    exact ⟨Utf8.compare_bytes _ _, Utf8.compare_codePoints _ _⟩
  · intro x y hx hy h k n l c d
    exact featureOrder_relocate hx hy h k n l c d
  · intro x n hx hn
    have hlt := Node.featureOrder_lt hx hn
    exact ⟨hlt, OrientedCmp.gt_of_lt hlt⟩

/-- A machine with two atoms, of which the second has a code point beyond sixteen bits. -/
def lettered : Machine :=
  { id := ⟨0⟩
    atoms := { id := ⟨⟨0⟩, 0⟩, contents := ["😀", "\ufb01"] } }

/-- The host has received both atoms. They are in the order of their code points, and stay so when
    they are moved to the next table; they are not equal, and come before every record. -/
theorem lettered_in_order : ∃ x y : Node, Honest lettered [x, y] ∧ lettered.OwnFeature x ∧
    lettered.OwnFeature y ∧ x.featureOrder x = .eq ∧ x.featureOrder y = .lt ∧
    lettered.equals x x = .ok true ∧ lettered.equals x y = .ok false ∧
    (∃ x' y' c' d', (lettered.relocate x).run (.new lettered) = .ok (x', c') ∧
      (lettered.relocate y).run c' = .ok (y', d') ∧ x'.featureOrder y' = .lt) ∧
    ∀ ref, x.featureOrder (.record ref) = .lt := by
  have h₁ := (Honest.new ⟨0⟩ {}).step (.newAtom "\ufb01") nofun rfl
  have h₂ : Honest lettered [.atom ⟨⟨⟨0⟩, 0⟩, "\ufb01"⟩, .atom ⟨⟨⟨0⟩, 0⟩, "😀"⟩] :=
    h₁.step (.newAtom "😀") nofun rfl
  obtain ⟨hown, htable, hhonest, hends, hatoms, hmoved, hbefore⟩ :=
    lettered.features_totally_ordered
  have hx : lettered.OwnFeature (.atom ⟨⟨⟨0⟩, 0⟩, "\ufb01"⟩) := ⟨rfl, rfl⟩
  have hy : lettered.OwnFeature (.atom ⟨⟨⟨0⟩, 0⟩, "😀"⟩) := ⟨rfl, rfl⟩
  have hlt : (Node.atom ⟨⟨⟨0⟩, 0⟩, "\ufb01"⟩).featureOrder (.atom ⟨⟨⟨0⟩, 0⟩, "😀"⟩) = .lt := by
    rw [(hatoms _ _).2]
    decide
  -- an equality would make the two count as equal in the order
  have hno : lettered.equals (.atom ⟨⟨⟨0⟩, 0⟩, "\ufb01"⟩) (.atom ⟨⟨⟨0⟩, 0⟩, "😀"⟩) = .ok false := by
    obtain ⟨same, hsame⟩ := hends _ _ hx hy
    cases same with
    | false => exact hsame
    | true =>
      have hholds := ((hhonest _ h₂).equal ⟨hx.1, by decide⟩ ⟨hy.1, by decide⟩).mpr hsame
      rw [hlt] at hholds
      cases hholds
  have hof : (Node.atom ⟨⟨⟨0⟩, 0⟩, "\ufb01"⟩).OfTable ⟨⟨0⟩, 0⟩ := by simp [Node.OfTable]
  have hself := ((htable ⟨⟨0⟩, 0⟩).equal ⟨hx, hof⟩ ⟨hx, hof⟩).mp (hown.refl hx)
  -- the second atom is relocated where the first has been
  have hrelocated : ∃ x' y' c' d',
      (lettered.relocate (.atom ⟨⟨⟨0⟩, 0⟩, "\ufb01"⟩)).run (.new lettered) = .ok (x', c') ∧
      (lettered.relocate (.atom ⟨⟨⟨0⟩, 0⟩, "😀"⟩)).run c' = .ok (y', d') ∧
      x'.featureOrder y' = .lt := by
    obtain ⟨c₁, hc₁⟩ : ∃ c₁, (lettered.relocate (.atom ⟨⟨⟨0⟩, 0⟩, "\ufb01"⟩)).run (.new lettered) =
        .ok (.atom ⟨⟨⟨0⟩, 1⟩, "\ufb01"⟩, c₁) := ⟨_, rfl⟩
    obtain ⟨x', y', c', d', hx', hy', hxy⟩ := hmoved _ _ hx.1 hy.1 lettered.heap lettered.heap 0 0
      (.new lettered) c₁
    cases hc₁.symm.trans hx'
    exact ⟨_, y', _, d', hc₁, hy', hxy.trans hlt⟩
  exact ⟨_, _, h₂, hx, hy, hown.refl hx, hlt, hself, hno, hrelocated,
    fun ref => (hbefore _ _ hx.1 rfl).1⟩

/-- An atom that was made before a collection, and the one that the machine makes of the same
    content afterwards. Both are features of the machine and pass its check, and they count as equal
    in the order of features; but the machine does not find them equal. -/
theorem kept_atom_keeps_place :
    Reachable resumed ∧
    ((Machine.new ⟨0⟩ {}).newAtom "a").1 = .atom ⟨⟨⟨0⟩, 0⟩, "a"⟩ ∧
    (resumed.newAtom "a").1 = .atom ⟨⟨⟨0⟩, 1⟩, "a"⟩ ∧
    resumed.OwnFeature (.atom ⟨⟨⟨0⟩, 0⟩, "a"⟩) ∧ resumed.OwnFeature (.atom ⟨⟨⟨0⟩, 1⟩, "a"⟩) ∧
    resumed.owns (.atom ⟨⟨⟨0⟩, 0⟩, "a"⟩) = .ok (.ok ()) ∧
    (Node.atom ⟨⟨⟨0⟩, 0⟩, "a"⟩).featureOrder (.atom ⟨⟨⟨0⟩, 1⟩, "a"⟩) = .eq ∧
    resumed.equals (.atom ⟨⟨⟨0⟩, 0⟩, "a"⟩) (.atom ⟨⟨⟨0⟩, 1⟩, "a"⟩) = .ok false :=
  ⟨reachable_resumed, rfl, rfl, ⟨rfl, rfl⟩, ⟨rfl, rfl⟩, rfl, by decide, by decide⟩

end Machine

end Dataflow
