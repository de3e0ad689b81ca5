import Mathlib.Order.Bounds.Defs
import Dataflow.Proofs.Comparison
import Dataflow.Proofs.Parts
import Dataflow.Proofs.Wakeup

/-! # Equality is bisimilarity

  Values may contain themselves, so that two of them are equal cannot be said by recursion. It is
  said by what has to hold of related nodes: they stand for the same unbound variable, for equal
  simple values, for the same record, or for two records of one arity with related labels and
  fields. A relation of which this holds is a *bisimulation*, and two nodes are *bisimilar* if some
  bisimulation relates them.

  The comparison of two values decides whether they are bisimilar. If it answers yes, then the
  pairs of records that it remembers make up a bisimulation: each of them was entered once, and all
  pairs that it made pending were settled or remembered in turn. If it answers no, then it has met
  a pair that no bisimulation relates, and has come to it along pairs that would have to be related
  if the first one was.
-/

namespace Dataflow

/-! ### Simple values -/

/-- Two dereferenced nodes are equal simple values or the same unbound variable. Floats are equal as
    numbers, so a NaN is equal to nothing. -/
inductive Node.Same : Node → Node → Prop where
  | variable (v : VarRef) : Same (.variable v) (.variable v)
  | atom (a : Atom) : Same (.atom a) (.atom a)
  | int (i : Int) : Same (.int i) (.int i)
  | float {x y : Binary64} : x.numEq y = true → Same (.float x) (.float y)
  | bool (b : Bool) : Same (.bool b) (.bool b)
  | unit : Same .unit .unit

namespace Binary64

/-- Equal numbers have the same bits, or are both zero. -/
theorem numEq_iff {x y : Binary64} : x.numEq y = true ↔
    x.isNaN = false ∧ y.isNaN = false ∧ (x = y ∨ x.isZero = true ∧ y.isZero = true) := by
  have hbits : x.bits = y.bits ↔ x = y := by
    constructor
    · intro hb
      cases x
      cases y
      simpa using hb
    · intro he
      rw [he]
  simp [numEq, hbits, and_assoc]

theorem numEq_self {x : Binary64} (hx : x.isNaN = false) : x.numEq x = true :=
  numEq_iff.mpr ⟨hx, hx, .inl rfl⟩

theorem numEq_symm {x y : Binary64} (hxy : x.numEq y = true) : y.numEq x = true := by
  obtain ⟨hx, hy, he⟩ := numEq_iff.mp hxy
  refine numEq_iff.mpr ⟨hy, hx, ?_⟩
  rcases he with he | ⟨hzx, hzy⟩
  · exact .inl he.symm
  · exact .inr ⟨hzy, hzx⟩

theorem numEq_trans {x y z : Binary64} (hxy : x.numEq y = true) (hyz : y.numEq z = true) :
    x.numEq z = true := by
  obtain ⟨hx, -, hxy⟩ := numEq_iff.mp hxy
  obtain ⟨-, hz, hyz'⟩ := numEq_iff.mp hyz
  refine numEq_iff.mpr ⟨hx, hz, ?_⟩
  rcases hxy with rfl | ⟨hzx, hzy⟩
  · exact hyz'
  · rcases hyz' with rfl | ⟨-, hzz⟩
    · exact .inr ⟨hzx, hzy⟩
    · exact .inr ⟨hzx, hzz⟩

end Binary64

namespace Node.Same

variable {x y z : Node}

theorem symm (hxy : x.Same y) : y.Same x := by
  cases hxy with
  | float he => exact .float (Binary64.numEq_symm he)
  | «variable» v => exact .variable v
  | atom a => exact .atom a
  | int i => exact .int i
  | bool b => exact .bool b
  | unit => exact .unit

theorem trans (hxy : x.Same y) (hyz : y.Same z) : x.Same z := by
  cases hxy with
  | float he =>
    cases hyz with
    | float he' => exact .float (Binary64.numEq_trans he he')
  | _ => exact hyz

end Node.Same

variable {owner : MachineId}

/-- The comparison of simple values finds out whether they are the same. -/
theorem Node.same_iff_of_sameValue {x y : Node} {same : Bool}
    (hs : x.sameValue owner y = .ok same) : same = true ↔ x.Same y := by
  unfold Node.sameValue at hs
  split at hs
  · next a b =>
    unfold Atom.same at hs
    split at hs
    · cases hs
      rw [beq_iff_eq]
      exact ⟨fun he => he ▸ .atom a, fun hab => by cases hab; rfl⟩
    · cases hs
  · next i j =>
    cases hs
    rw [beq_iff_eq]
    exact ⟨fun he => he ▸ .int i, fun hij => by cases hij; rfl⟩
  · next f g =>
    cases hs
    exact ⟨.float, fun hfg => by cases hfg with | float he => exact he⟩
  · next a b =>
    cases hs
    rw [beq_iff_eq]
    exact ⟨fun he => he ▸ .bool a, fun hab => by cases hab; rfl⟩
  · cases hs
    exact ⟨fun _ => .unit, fun _ => rfl⟩
  · next v w =>
    cases hs
    rw [beq_iff_eq]
    exact ⟨fun he => he ▸ .variable v, fun hvw => by cases hvw; rfl⟩
  -- nodes of different kinds
  · next hatom hint hfloat hbool hunit hvar =>
    cases hs
    refine ⟨nofun, fun hxy => ?_⟩
    cases hxy with
    | atom a => exact absurd rfl (hatom a a rfl)
    | int i => exact absurd rfl (hint i i rfl)
    | @float f g _ => exact absurd rfl (hfloat f g rfl)
    | bool b => exact absurd rfl (hbool b b rfl)
    | unit => exact absurd rfl (hunit rfl)
    | «variable» v => exact absurd rfl (hvar v v rfl)

/-! ### Arities -/

theorem Feature.same_toNode_iff {f g : Feature} : f.toNode.Same g.toNode ↔ f = g := by
  constructor
  · intro hfg
    have hnodes : f.toNode = g.toNode := by
      revert hfg
      generalize hx : f.toNode = x
      generalize hy : g.toNode = y
      intro hxy
      cases hxy with
      | @float a b _ =>
        cases f with
        | int i => cases hx
        | literal l => cases l <;> cases hx
      | _ => rfl
    have hfeatures := congrArg Node.asFeature? hnodes
    simpa using hfeatures
  · rintro rfl
    cases f with
    | int i => exact .int i
    | literal l =>
      cases l with
      | atom a => exact .atom a
      | bool b => exact .bool b
      | unit => exact .unit

theorem sameFeatures_iff {fs gs : List Feature} {same : Bool} (hlen : fs.length = gs.length)
    (hs : sameFeatures owner fs gs = .ok same) : same = true ↔ fs = gs := by
  induction fs generalizing gs with
  | nil =>
    cases gs with
    | nil => cases hs; simp
    | cons g gs => cases hlen
  | cons f fs ih =>
    cases gs with
    | nil => cases hlen
    | cons g gs =>
      rw [sameFeatures] at hs
      obtain ⟨first, hfirst, hs⟩ := bind_eq_ok.mp hs
      have hfg : first = true ↔ f = g :=
        (Node.same_iff_of_sameValue hfirst).trans Feature.same_toNode_iff
      cases first with
      | true =>
        have hrest := ih (by simpa using hlen) hs
        simp [hrest, hfg.mp rfl]
      | false =>
        cases hs
        have hne : f ≠ g := fun he => by simpa using hfg.mpr he
        simp [hne]

/-- Records that are balanced have the same arity exactly if they have the same form, the same
    features and the same number of fields. -/
theorem Record.sameArity_iff {r s : Record} {same : Bool} (hr : r.Balanced) (hs : s.Balanced)
    (he : r.sameArity owner s = .ok same) :
    same = true ↔ r.arity = s.arity ∧ r.fields.length = s.fields.length := by
  unfold Record.Balanced Record.features at hr hs
  unfold Record.sameArity at he
  split at he
  · next hra hsa =>
    cases he
    simp [hra, hsa, Record.width]
  · next names names' hra hsa =>
    rw [hra] at hr
    rw [hsa] at hs
    rw [hra, hsa, ← hr, ← hs]
    split at he
    · next hlen => simp [sameFeatures_iff hlen he, hlen]
    · next hlen =>
      cases he
      simp [hlen]
  · next htuple hfeatures =>
    cases he
    refine ⟨fun hf => absurd hf Bool.false_ne_true, fun hrs => ?_⟩
    cases hra : r.arity with
    | tuple => exact absurd (hrs.1.symm.trans hra) (htuple hra)
    | features names => exact absurd (hrs.1.symm.trans hra) (hfeatures names names hra)

namespace Heap

variable {h : Heap} {R S : Node → Node → Prop}

/-! ### Bisimulations -/

/-- Two dereferenced nodes correspond, with the parts of records related by `R`. -/
inductive Corresponds (h : Heap) (R : Node → Node → Prop) : Node → Node → Prop where
  /-- They are equal simple values or the same unbound variable. -/
  | value {x y : Node} : x.Same y → Corresponds h R x y
  /-- They are the same record, whatever it contains. -/
  | itself (ref : RecordRef) : Corresponds h R (.record ref) (.record ref)
  /-- They are two records of one arity, related part by part. -/
  | records {a b : RecordRef} {r s : Record} : h.record a = .ok r → h.record b = .ok s →
      r.arity = s.arity → R r.label.toNode s.label.toNode → List.Forall₂ R r.fields s.fields →
      Corresponds h R (.record a) (.record b)

/-- Related nodes stand for nodes that correspond. -/
def Bisimulation (h : Heap) (R : Node → Node → Prop) : Prop :=
  ∀ a b, R a b → ∃ x y, h.deref a = .ok x ∧ h.deref b = .ok y ∧ h.Corresponds R x y

/-- Some bisimulation relates the two nodes. -/
def Bisimilar (h : Heap) (a b : Node) : Prop := ∃ R, h.Bisimulation R ∧ R a b

namespace Corresponds

theorem mono (hRS : ∀ a b, R a b → S a b) {x y : Node} (hxy : h.Corresponds R x y) :
    h.Corresponds S x y := by
  cases hxy with
  | value hs => exact .value hs
  | itself ref => exact .itself ref
  | records ha hb harity hlabel hfields =>
    exact .records ha hb harity (hRS _ _ hlabel) (hfields.imp hRS)

theorem swap {x y : Node} (hxy : h.Corresponds R x y) :
    h.Corresponds (fun a b => R b a) y x := by
  cases hxy with
  | value hs => exact .value hs.symm
  | itself ref => exact .itself ref
  | records ha hb harity hlabel hfields =>
    exact .records hb ha harity.symm hlabel hfields.flip

/-- What corresponds to what corresponds to something corresponds to it, with parts that are
    related by one of the relations or by both, one after the other. -/
theorem comp {x y z : Node} (hxy : h.Corresponds R x y) (hyz : h.Corresponds R y z) :
    h.Corresponds (fun a c => R a c ∨ ∃ b, R a b ∧ R b c) x z := by
  have hleft : h.Corresponds R x z → h.Corresponds (fun a c => R a c ∨ ∃ b, R a b ∧ R b c) x z :=
    mono fun _ _ hac => .inl hac
  -- two records meet a third one field by field; in every other case one of the two steps is an
  -- identity
  cases hxy with
  | itself ref => exact hleft hyz
  | value hs =>
    cases hyz with
    | value hs' => exact .value (hs.trans hs')
    | itself ref => cases hs
    | records _ _ _ _ _ => cases hs
  | @records a b r s ha hb harity hlabel hfields =>
    cases hyz with
    | value hs => cases hs
    | itself ref => exact hleft (.records ha hb harity hlabel hfields)
    | @records _ c s' t hb' hc harity' hlabel' hfields' =>
      obtain rfl : s = s' := by
        rw [hb] at hb'
        cases hb'
        rfl
      refine .records ha hc (harity.trans harity') (.inr ⟨_, hlabel, hlabel'⟩) ?_
      have hlen : r.fields.length = t.fields.length :=
        hfields.length_eq.trans hfields'.length_eq
      refine List.forall₂_iff_get.mpr ⟨hlen, fun i hi hi' => ?_⟩
      have hmid : i < s.fields.length := hfields.length_eq ▸ hi
      exact .inr ⟨_, hfields.get hi hmid, hfields'.get hmid hi'⟩

end Corresponds

namespace Bisimilar

/-- Bisimilar nodes stand for nodes that correspond, with bisimilar parts. -/
theorem dest {a b : Node} (hab : h.Bisimilar a b) :
    ∃ x y, h.deref a = .ok x ∧ h.deref b = .ok y ∧ h.Corresponds h.Bisimilar x y := by
  obtain ⟨R, hR, hab⟩ := hab
  obtain ⟨x, y, hx, hy, hxy⟩ := hR a b hab
  exact ⟨x, y, hx, hy, hxy.mono fun c d hcd => ⟨R, hR, hcd⟩⟩

theorem symm {a b : Node} (hab : h.Bisimilar a b) : h.Bisimilar b a := by
  refine ⟨fun a b => h.Bisimilar b a, ?_, hab⟩
  intro a b hba
  obtain ⟨x, y, hx, hy, hxy⟩ := hba.dest
  exact ⟨y, x, hy, hx, hxy.swap⟩

theorem trans {a b c : Node} (hab : h.Bisimilar a b) (hbc : h.Bisimilar b c) :
    h.Bisimilar a c := by
  refine ⟨fun a c => h.Bisimilar a c ∨ ∃ b, h.Bisimilar a b ∧ h.Bisimilar b c, ?_,
    .inr ⟨b, hab, hbc⟩⟩
  intro a c hac
  rcases hac with hac | ⟨b, hab, hbc⟩
  · obtain ⟨x, z, hx, hz, hxz⟩ := hac.dest
    exact ⟨x, z, hx, hz, hxz.mono fun _ _ hcd => .inl hcd⟩
  · obtain ⟨x, y, hx, hy, hxy⟩ := hab.dest
    obtain ⟨y', z, hy', hz, hyz⟩ := hbc.dest
    obtain rfl : y = y' := by
      rw [hy] at hy'
      cases hy'
      rfl
    exact ⟨x, z, hx, hz, hxy.comp hyz⟩

/-- A node that can be dereferenced is bisimilar to itself, unless it stands for a NaN. -/
theorem refl {a d : Node} (hd : h.deref a = .ok d) (hnan : ∀ x, d = .float x → x.isNaN = false) :
    h.Bisimilar a a := by
  refine ⟨fun a b => a = b ∧ h.deref a = .ok d, ?_, rfl, hd⟩
  rintro a b ⟨rfl, hd⟩
  refine ⟨d, d, hd, hd, ?_⟩
  cases d with
  | record ref => exact .itself ref
  | float x => exact .value (.float (Binary64.numEq_self (hnan x rfl)))
  | atom a => exact .value (.atom a)
  | int i => exact .value (.int i)
  | bool b => exact .value (.bool b)
  | unit => exact .value .unit
  | «variable» v => exact .value (.variable v)

end Bisimilar

/-- Bisimilarity is the greatest bisimulation. -/
theorem isGreatest_bisimilar (h : Heap) : IsGreatest {R | h.Bisimulation R} h.Bisimilar :=
  ⟨fun _ _ hab => hab.dest, fun R hR _ _ hab => ⟨R, hR, hab⟩⟩

/-! ### One step of a comparison -/

theorem forall_pairs_iff {r s : Record} :
    (∀ p ∈ pairs r s, R p.1 p.2) ↔
      R r.label.toNode s.label.toNode ∧ ∀ {x y}, (x, y) ∈ r.fields.zip s.fields → R x y := by
  unfold pairs
  constructor
  · intro hp
    refine ⟨hp (r.label.toNode, s.label.toNode) (by simp), fun {x y} hxy => hp (x, y) ?_⟩
    simp [hxy]
  · rintro ⟨hlabel, hfields⟩ ⟨x, y⟩ hxy
    rcases List.mem_append.mp hxy with hxy | hxy
    · exact hfields (List.mem_reverse.mp hxy)
    · cases List.mem_singleton.mp hxy
      exact hlabel

/-- Two records correspond if they have the same arity and the pairs that they are compared by are
    related. -/
theorem corresponds_of_pairs (hbal : h.Balanced) {a b : RecordRef} {r s : Record}
    (ha : h.record a = .ok r) (hb : h.record b = .ok s) (hsame : r.sameArity owner s = .ok true)
    (hpairs : ∀ p ∈ pairs r s, R p.1 p.2) : h.Corresponds R (.record a) (.record b) := by
  obtain ⟨harity, hlen⟩ := (Record.sameArity_iff (hbal ha) (hbal hb) hsame).mp rfl
  obtain ⟨hlabel, hfields⟩ := forall_pairs_iff.mp hpairs
  exact .records ha hb harity hlabel (List.forall₂_iff_zip.mpr ⟨hlen, hfields⟩)

/-- Two different records that correspond have the same arity, and the pairs that they are compared
    by are related. -/
theorem Corresponds.parts {a b : RecordRef} {r s : Record} (ha : h.record a = .ok r)
    (hb : h.record b = .ok s) (hne : a ≠ b) (hab : h.Corresponds R (.record a) (.record b)) :
    r.arity = s.arity ∧ r.fields.length = s.fields.length ∧ ∀ p ∈ pairs r s, R p.1 p.2 := by
  cases hab with
  | value hs => cases hs
  | itself ref => exact absurd rfl hne
  | records ha' hb' harity hlabel hfields =>
    rw [ha] at ha'
    rw [hb] at hb'
    cases ha'
    cases hb'
    obtain ⟨hlen, hzip⟩ := List.forall₂_iff_zip.mp hfields
    exact ⟨harity, hlen, forall_pairs_iff.mpr ⟨hlabel, hzip⟩⟩

/-- The comparison goes on to the next pair at once: the nodes are the same, or records that are one
    and the same or remembered. -/
inductive Settled (seen : List (RecordRef × RecordRef)) : Node → Node → Prop where
  | value {x y : Node} : x.Same y → Settled seen x y
  | itself (ref : RecordRef) : Settled seen (.record ref) (.record ref)
  | known {a b : RecordRef} : (a, b) ∈ seen → Settled seen (.record a) (.record b)

/-- All that a comparison does with the next pair: it settles the pair, enters two records, or ends
    because the two do not correspond. -/
theorem equalPairs_cases (hbal : h.Balanced) {n : Nat} {left right : Node}
    {pending : List (Node × Node)} {seen : List (RecordRef × RecordRef)} {same : Bool}
    (he : h.equalPairs owner (n + 1) ((left, right) :: pending) seen = .ok same) :
    ∃ x y, h.deref left = .ok x ∧ h.deref right = .ok y ∧
      (Settled seen x y ∧ h.equalPairs owner n pending seen = .ok same ∨
        (∃ a b r s, x = .record a ∧ y = .record b ∧ a ≠ b ∧ h.record a = .ok r ∧
          h.record b = .ok s ∧ r.sameArity owner s = .ok true ∧
          h.equalPairs owner n (pairs r s ++ pending) ((a, b) :: seen) = .ok same) ∨
        same = false ∧ ∀ R, ¬ h.Corresponds R x y) := by
  rw [equalPairs] at he
  obtain ⟨x, hx, hrest⟩ := bind_eq_ok.mp he
  obtain ⟨y, hy, hpair⟩ := bind_eq_ok.mp hrest
  refine ⟨x, y, hx, hy, ?_⟩
  clear he hrest hx hy
  split at hpair
  · next a b =>
    split at hpair
    -- the pair has been seen, so nothing is left to compare
    · next hknown =>
      refine .inl ⟨?_, hpair⟩
      rcases hknown with rfl | hmem
      · exact .itself a
      · exact .known hmem
    -- a new pair of records is compared by its parts, or differs in arity
    · next hnew =>
      have hne : a ≠ b := fun hab => hnew (.inl hab)
      obtain ⟨r, ha, hpair⟩ := bind_eq_ok.mp hpair
      obtain ⟨s, hb, hpair⟩ := bind_eq_ok.mp hpair
      obtain ⟨arity, harity, he⟩ := bind_eq_ok.mp hpair
      cases arity with
      | true => exact .inr (.inl ⟨a, b, r, s, rfl, rfl, hne, ha, hb, harity, he⟩)
      | false =>
        cases he
        refine .inr (.inr ⟨rfl, fun R hab => ?_⟩)
        obtain ⟨hform, hlen, -⟩ := hab.parts ha hb hne
        have htrue := (Record.sameArity_iff (hbal ha) (hbal hb) harity).mpr ⟨hform, hlen⟩
        cases htrue
  -- one of the two is no record, so that their own data decide
  · next hrecords =>
    obtain ⟨value, hvalue, he⟩ := bind_eq_ok.mp hpair
    have hiff := Node.same_iff_of_sameValue hvalue
    cases value with
    | true => exact .inl ⟨.value (hiff.mp rfl), he⟩
    | false =>
      cases he
      refine .inr (.inr ⟨rfl, fun R hxy => ?_⟩)
      cases hxy with
      | value hs =>
        have htrue := hiff.mpr hs
        cases htrue
      | itself ref => exact hrecords ref ref rfl rfl
      | @records a b _ _ _ _ _ _ _ => exact hrecords a b rfl rfl

/-! ### What an answer means -/

/-- Two nodes stand for nodes that are settled, with the pairs in `seen` remembered. -/
def Covered (h : Heap) (seen : List (RecordRef × RecordRef)) (left right : Node) : Prop :=
  ∃ x y, h.deref left = .ok x ∧ h.deref right = .ok y ∧ Settled seen x y

/-- A comparison that answers yes has remembered pairs that cover all pending ones. Each of them was
    remembered before, or its records correspond, with parts that are covered. -/
theorem closed_of_equalPairs (hbal : h.Balanced) {n : Nat} {pending : List (Node × Node)}
    {seen : List (RecordRef × RecordRef)} (he : h.equalPairs owner n pending seen = .ok true) :
    ∃ all, seen ⊆ all ∧ (∀ p ∈ pending, h.Covered all p.1 p.2) ∧
      ∀ a b, (a, b) ∈ all → (a, b) ∈ seen ∨ h.Corresponds (h.Covered all) (.record a) (.record b) := by
  induction n generalizing pending seen with
  | zero =>
    cases pending with
    | nil => exact ⟨seen, fun _ hp => hp, nofun, fun _ _ hp => .inl hp⟩
    | cons p pending => cases he
  | succ n ih =>
    cases pending with
    | nil => exact ⟨seen, fun _ hp => hp, nofun, fun _ _ hp => .inl hp⟩
    | cons p pending =>
      obtain ⟨left, right⟩ := p
      obtain ⟨x, y, hx, hy, hstep⟩ := equalPairs_cases hbal he
      -- the head is covered once its two nodes are settled with all that is remembered at the end
      have hhead : ∀ {all}, Settled all x y → (∀ p ∈ pending, h.Covered all p.1 p.2) →
          ∀ p ∈ (left, right) :: pending, h.Covered all p.1 p.2 := by
        intro all hxy hrest p hp
        rcases List.mem_cons.mp hp with rfl | hp
        · exact ⟨x, y, hx, hy, hxy⟩
        · exact hrest p hp
      rcases hstep with ⟨hxy, he⟩ | ⟨a, b, r, s, rfl, rfl, -, ha, hb, harity, he⟩ | ⟨hf, -⟩
      · obtain ⟨all, hsub, hpending, hclosed⟩ := ih he
        refine ⟨all, hsub, hhead ?_ hpending, hclosed⟩
        cases hxy with
        | value hs => exact .value hs
        | itself ref => exact .itself ref
        | known hmem => exact .known (hsub hmem)
      · obtain ⟨all, hsub, hpending, hclosed⟩ := ih he
        have hab : (a, b) ∈ all := hsub (List.mem_cons_self ..)
        have hseen : seen ⊆ all := fun p hp => hsub (List.mem_cons_of_mem _ hp)
        refine ⟨all, hseen, hhead (.known hab) ?_, ?_⟩
        · intro p hp
          exact hpending p (List.mem_append_right _ hp)
        · intro c d hcd
          rcases hclosed c d hcd with hmem | hcorr
          · rcases List.mem_cons.mp hmem with heq | hmem
            · cases heq
              refine .inr (corresponds_of_pairs hbal ha hb harity fun p hp => ?_)
              exact hpending p (List.mem_append_left _ hp)
            · exact .inl hmem
          · exact .inr hcorr
      · cases hf

/-- If a comparison answers yes, then some bisimulation relates the two nodes. -/
theorem bisimilar_of_equals (hbal : h.Balanced) {left right : Node}
    (he : h.equals owner left right = .ok true) : h.Bisimilar left right := by
  obtain ⟨all, -, hpending, hclosed⟩ := closed_of_equalPairs hbal he
  refine ⟨h.Covered all, ?_, hpending (left, right) (List.mem_cons_self ..)⟩
  intro a b hab
  obtain ⟨x, y, hx, hy, hxy⟩ := hab
  refine ⟨x, y, hx, hy, ?_⟩
  cases hxy with
  | value hs => exact .value hs
  | itself ref => exact .itself ref
  | @known c d hmem =>
    rcases hclosed c d hmem with hnil | hcorr
    · cases hnil
    · exact hcorr

/-- If a comparison answers no, then no bisimulation relates all of its pairs. -/
theorem not_bisimilar_of_equalPairs (hbal : h.Balanced) {n : Nat} {pending : List (Node × Node)}
    {seen : List (RecordRef × RecordRef)} (he : h.equalPairs owner n pending seen = .ok false) :
    ∃ p ∈ pending, ¬ h.Bisimilar p.1 p.2 := by
  induction n generalizing pending seen with
  | zero =>
    cases pending with
    | nil => cases he
    | cons p pending => cases he
  | succ n ih =>
    cases pending with
    | nil => cases he
    | cons p pending =>
      obtain ⟨left, right⟩ := p
      obtain ⟨x, y, hx, hy, hstep⟩ := equalPairs_cases hbal he
      -- bisimilar nodes lead to `x` and `y`, so these correspond
      have hdest : h.Bisimilar left right → h.Corresponds h.Bisimilar x y := by
        intro hlr
        obtain ⟨x', y', hx', hy', hxy⟩ := hlr.dest
        rw [hx] at hx'
        rw [hy] at hy'
        cases hx'
        cases hy'
        exact hxy
      rcases hstep with ⟨-, he⟩ | ⟨a, b, r, s, rfl, rfl, hne, ha, hb, -, he⟩ | ⟨-, hapart⟩
      · obtain ⟨p, hp, hnot⟩ := ih he
        exact ⟨p, List.mem_cons_of_mem _ hp, hnot⟩
      · obtain ⟨p, hp, hnot⟩ := ih he
        rcases List.mem_append.mp hp with hp | hp
        · refine ⟨(left, right), List.mem_cons_self .., fun hlr => hnot ?_⟩
          exact ((hdest hlr).parts ha hb hne).2.2 p hp
        · exact ⟨p, List.mem_cons_of_mem _ hp, hnot⟩
      · exact ⟨(left, right), List.mem_cons_self .., fun hlr => hapart _ (hdest hlr)⟩

/-! ### A comparison of sound values has an answer -/

theorem sameValue_ok {x y : Node} (hx : h.Fits owner x) (hy : h.Fits owner y) :
    ∃ same, x.sameValue owner y = .ok same := by
  unfold Node.sameValue
  split
  · next a b =>
    have ha : a.owner = owner := hx
    have hb : b.owner = owner := hy
    exact ⟨_, by rw [Atom.same, if_pos ⟨ha, hb⟩]⟩
  all_goals exact ⟨_, rfl⟩

theorem sameFeatures_ok {fs gs : List Feature} (hf : ∀ f ∈ fs, h.Fits owner f.toNode)
    (hg : ∀ g ∈ gs, h.Fits owner g.toNode) : ∃ same, sameFeatures owner fs gs = .ok same := by
  induction fs generalizing gs with
  | nil => cases gs <;> exact ⟨true, rfl⟩
  | cons f fs ih =>
    cases gs with
    | nil => exact ⟨true, rfl⟩
    | cons g gs =>
      have hfirst := sameValue_ok (hf f (List.mem_cons_self ..)) (hg g (List.mem_cons_self ..))
      obtain ⟨first, hfirst⟩ := hfirst
      obtain ⟨rest, hrest⟩ := ih (fun f' hf' => hf f' (List.mem_cons_of_mem _ hf'))
        (fun g' hg' => hg g' (List.mem_cons_of_mem _ hg'))
      rw [sameFeatures, hfirst, ok_bind]
      cases first with
      | true => exact ⟨rest, hrest⟩
      | false => exact ⟨false, rfl⟩

/-- Arities can be compared if the stored features fit. -/
theorem sameArity_ok_of_stored {r s : Record}
    (hr : ∀ names, r.arity = .features names → ∀ f ∈ names, h.Fits owner f.toNode)
    (hs : ∀ names, s.arity = .features names → ∀ f ∈ names, h.Fits owner f.toNode) :
    ∃ same, r.sameArity owner s = .ok same := by
  unfold Record.sameArity
  split
  · exact ⟨_, rfl⟩
  · next names names' hra hsa =>
    split
    · exact sameFeatures_ok (hr names hra) (hs names' hsa)
    · exact ⟨false, rfl⟩
  · exact ⟨false, rfl⟩

theorem sameArity_ok {r s : Record} (hr : ∀ x ∈ r.edges, h.Sound owner x)
    (hs : ∀ x ∈ s.edges, h.Sound owner x) : ∃ same, r.sameArity owner s = .ok same :=
  sameArity_ok_of_stored (fun _ hra _ hf => (hr _ (feature_mem_edges hra hf)).fits)
    fun _ hsa _ hf => (hs _ (feature_mem_edges hsa hf)).fits

/-- The pairs that two sound records are compared by are sound. -/
theorem sound_pairs {r s : Record} (hr : ∀ x ∈ r.edges, h.Sound owner x)
    (hs : ∀ x ∈ s.edges, h.Sound owner x) :
    ∀ p ∈ pairs r s, h.Sound owner p.1 ∧ h.Sound owner p.2 := by
  refine forall_pairs_iff (R := fun x y => h.Sound owner x ∧ h.Sound owner y) |>.mpr ⟨?_, ?_⟩
  · exact ⟨hr _ (label_mem_edges r), hs _ (label_mem_edges s)⟩
  · intro x y hxy
    obtain ⟨hx, hy⟩ := List.of_mem_zip hxy
    exact ⟨hr _ (field_mem_edges hx), hs _ (field_mem_edges hy)⟩

/-- Nothing but its bound can stop a comparison of sound values. -/
theorem equalPairs_ok_or_endless (hground : h.Grounded) {n : Nat} {pending : List (Node × Node)}
    {seen : List (RecordRef × RecordRef)}
    (hsound : ∀ p ∈ pending, h.Sound owner p.1 ∧ h.Sound owner p.2) :
    (∃ same, h.equalPairs owner n pending seen = .ok same) ∨
      h.equalPairs owner n pending seen = .error .endless := by
  -- on the bound: each comparison succeeds or goes on with sound pairs
  induction n generalizing pending seen with
  | zero =>
    cases pending with
    | nil => exact .inl ⟨true, rfl⟩
    | cons p pending => exact .inr rfl
  | succ n ih =>
    cases pending with
    | nil => exact .inl ⟨true, rfl⟩
    | cons p pending =>
      obtain ⟨left, right⟩ := p
      obtain ⟨hleft, hright⟩ := hsound (left, right) (List.mem_cons_self ..)
      have hpending : ∀ p ∈ pending, h.Sound owner p.1 ∧ h.Sound owner p.2 :=
        fun p hp => hsound p (List.mem_cons_of_mem _ hp)
      obtain ⟨x, hx, hsx⟩ := hleft.deref hground
      obtain ⟨y, hy, hsy⟩ := hright.deref hground
      rw [equalPairs, hx, ok_bind, hy, ok_bind]
      split
      · next a b =>
        split
        -- the pair has been seen
        · exact ih hpending
        · obtain ⟨r, hr, hre⟩ := hsx.record
          obtain ⟨s, hs, hse⟩ := hsy.record
          obtain ⟨same, hsame⟩ := sameArity_ok hre hse
          rw [hr, ok_bind, hs, ok_bind, hsame, ok_bind]
          cases same with
          | false => exact .inl ⟨false, rfl⟩
          | true =>
            refine ih fun p hp => ?_
            rcases List.mem_append.mp hp with hp | hp
            · exact sound_pairs hre hse p hp
            · exact hpending p hp
      · obtain ⟨same, hsame⟩ := sameValue_ok hsx.fits hsy.fits
        rw [hsame, ok_bind]
        cases same with
        | false => exact .inl ⟨false, rfl⟩
        | true => exact ih hpending

/-- The comparison of two sound values ends, and decides whether they are bisimilar. -/
theorem equals_decides (hground : h.Grounded) (hbal : h.Balanced) {left right : Node}
    (hl : h.Sound owner left) (hr : h.Sound owner right) :
    ∃ same, h.equals owner left right = .ok same ∧ (same = true ↔ h.Bisimilar left right) := by
  have hsound : ∀ p ∈ [(left, right)], h.Sound owner p.1 ∧ h.Sound owner p.2 := by
    intro p hp
    cases List.mem_singleton.mp hp
    exact ⟨hl, hr⟩
  rcases equalPairs_ok_or_endless hground hsound with ⟨same, he⟩ | hend
  · refine ⟨same, he, ?_⟩
    cases same with
    | true => exact ⟨fun _ => bisimilar_of_equals hbal he, fun _ => rfl⟩
    | false =>
      obtain ⟨p, hp, hnot⟩ := not_bisimilar_of_equalPairs hbal he
      cases List.mem_singleton.mp hp
      exact ⟨nofun, fun hlr => absurd hlr hnot⟩
  · exact absurd hend (equals_ne_endless hground left right)

end Heap

namespace Machine

variable {m : Machine}

/-- Sound values of a reachable machine compare as equal exactly if they are bisimilar. -/
theorem Reachable.equals_iff_bisimilar (hm : Reachable m) {left right : Node}
    (hl : m.heap.Sound m.id left) (hr : m.heap.Sound m.id right) :
    m.equals left right = .ok true ↔ m.heap.Bisimilar left right := by
  obtain ⟨same, he, hiff⟩ := Heap.equals_decides hm.waits.grounded hm.waits.balanced hl hr
  rw [← hiff, equals, he]
  simp

/-- The comparison of a reachable machine ends on all sound values and decides bisimilarity. It is
    symmetric and transitive, and reflexive on every value that is not a NaN. -/
theorem Reachable.equals_decides_bisimilarity (hm : Reachable m) {left right : Node}
    (hl : m.heap.Sound m.id left) (hr : m.heap.Sound m.id right) :
    IsGreatest {R | m.heap.Bisimulation R} m.heap.Bisimilar ∧
    (∃ same, m.equals left right = .ok same ∧ (same = true ↔ m.heap.Bisimilar left right)) ∧
    m.equals left right = m.equals right left ∧
    (∀ other, m.heap.Sound m.id other → m.equals left right = .ok true →
      m.equals right other = .ok true → m.equals left other = .ok true) ∧
    ((∀ x, m.heap.deref left = .ok (.float x) → x.isNaN = false) →
      m.equals left left = .ok true) := by
  have hground : m.heap.Grounded := hm.waits.grounded
  have hbal : m.heap.Balanced := hm.waits.balanced
  refine ⟨Heap.isGreatest_bisimilar _, Heap.equals_decides hground hbal hl hr, ?_, ?_, ?_⟩
  · obtain ⟨same, he, hiff⟩ := Heap.equals_decides hground hbal hl hr
    obtain ⟨same', he', hiff'⟩ := Heap.equals_decides hground hbal hr hl
    have hsame : same = same' := by
      rw [Bool.eq_iff_iff, hiff, hiff']
      exact ⟨Heap.Bisimilar.symm, Heap.Bisimilar.symm⟩
    rw [equals, equals, he, he', hsame]
  · intro other ho hlr hro
    rw [hm.equals_iff_bisimilar hl hr] at hlr
    rw [hm.equals_iff_bisimilar hr ho] at hro
    exact (hm.equals_iff_bisimilar hl ho).mpr (hlr.trans hro)
  · intro hnan
    obtain ⟨d, hd, -⟩ := hl.deref hground
    refine (hm.equals_iff_bisimilar hl hl).mpr (Heap.Bisimilar.refl hd fun x hx => ?_)
    exact hnan x (by rw [hd, hx])

/-- A machine with two values that contain themselves: one record that is its own field, and two
    records of which each is the field of the other. -/
def unrolled : Machine :=
  { id := ⟨0⟩
    heap := {
      records := #[⟨.unit, .tuple, [.variable ⟨0⟩]⟩, ⟨.unit, .tuple, [.variable ⟨1⟩]⟩,
        ⟨.unit, .tuple, [.record ⟨1⟩]⟩]
      cells := #[.bound (.record ⟨0⟩), .bound (.record ⟨2⟩)]
      allocated := 5 } }

theorem reachable_unrolled : Reachable unrolled := by
  have h₂ := ((Reachable.new ⟨0⟩ {}).step (.newVariable _)).step (.newVariable _)
  have h₃ := h₂.step (.buildTuple .unit [.variable ⟨0⟩] rfl)
  have h₄ := h₃.step (.buildTuple .unit [.variable ⟨1⟩] rfl)
  have h₅ := h₄.step (.buildTuple .unit [.record ⟨1⟩] rfl)
  have h₆ := h₅.step (.bind ⟨0⟩ (.record ⟨0⟩) rfl)
  exact h₆.step (.bind ⟨1⟩ (.record ⟨2⟩) rfl)

theorem sound_unrolled {n : Node} (hn : unrolled.heap.Fits unrolled.id n) :
    unrolled.heap.Sound unrolled.id n :=
  Heap.sound_of_forall (by decide) (by decide) hn

theorem unrolled_bisimilar : Reachable unrolled ∧
    unrolled.heap.Sound unrolled.id (.record ⟨0⟩) ∧ unrolled.heap.Sound unrolled.id (.record ⟨1⟩) ∧
    unrolled.equals (.record ⟨0⟩) (.record ⟨1⟩) = .ok true ∧
    unrolled.heap.Bisimilar (.record ⟨0⟩) (.record ⟨1⟩) := by
  have hl : unrolled.heap.Sound unrolled.id (.record ⟨0⟩) := sound_unrolled (by decide)
  have hr : unrolled.heap.Sound unrolled.id (.record ⟨1⟩) := sound_unrolled (by decide)
  have hyes : unrolled.equals (.record ⟨0⟩) (.record ⟨1⟩) = .ok true := by decide
  obtain ⟨-, ⟨same, he, hiff⟩, -⟩ := reachable_unrolled.equals_decides_bisimilarity hl hr
  have hsame : same = true := by
    rw [hyes] at he
    cases he
    rfl
  exact ⟨reachable_unrolled, hl, hr, hyes, hiff.mp hsame⟩

end Machine

end Dataflow
