import Mathlib.Data.List.Forall2
import Mathlib.Data.List.Nodup
import Dataflow.Machine.Construct

/-! # The order of features, and canonical records

  Features are ordered by their families, and within a family by what they are. The order is total,
  and two features count as equal if they are the same but for the tables of their atoms.

  A record is *canonical* if it has fields, one feature for each of them, its features ascend, and
  they are stored only where they do not count up from one. Sorting and the search for duplicates
  make a record canonical, whatever the order in which its fields are given. Canonical records have
  the same arity exactly if they have the same features.
-/

open Std (OrientedCmp TransCmp)

namespace Dataflow

/-! ### Lists in step -/

theorem exists_of_forall₂_left {α β : Type} {R : α → β → Prop} {xs : List α} {ys : List β}
    (hr : List.Forall₂ R xs ys) {x : α} (hx : x ∈ xs) : ∃ y ∈ ys, R x y := by
  induction hr with
  | nil => cases hx
  | @cons a b as bs hab _ ih =>
    rcases List.mem_cons.mp hx with rfl | hx
    · exact ⟨b, List.mem_cons_self .., hab⟩
    · obtain ⟨y, hy, hxy⟩ := ih hx
      exact ⟨y, List.mem_cons_of_mem _ hy, hxy⟩

theorem exists_of_forall₂_right {α β : Type} {R : α → β → Prop} {xs : List α} {ys : List β}
    (hr : List.Forall₂ R xs ys) {y : β} (hy : y ∈ ys) : ∃ x ∈ xs, R x y :=
  exists_of_forall₂_left hr.flip hy

/-! ### The order of features -/

theorem Node.asFeature?_eq_some_iff {n : Node} {f : Feature} :
    n.asFeature? = some f ↔ n = f.toNode := by
  constructor
  · intro hf
    cases n <;> cases hf <;> rfl
  · rintro rfl
    exact f.asFeature?_toNode

namespace Node

variable {m n : Node}

/-- The nodes of one family come before those of the next. -/
theorem featureOrder_of_rank_lt (hr : m.rank < n.rank) : m.featureOrder n = .lt := by
  unfold featureOrder
  split
  · exact absurd hr (Nat.lt_irrefl _)
  · exact absurd hr (Nat.lt_irrefl _)
  · exact absurd hr (Nat.lt_irrefl _)
  · exact Nat.compare_eq_lt.mpr hr

instance : OrientedCmp featureOrder where
  eq_swap {m n} := by
    cases m <;> cases n
    case int.int i j =>
      show Ord.compare i j = (Ord.compare j i).swap
      exact OrientedCmp.eq_swap
    case atom.atom a b =>
      show Ord.compare a.content b.content = (Ord.compare b.content a.content).swap
      exact OrientedCmp.eq_swap
    case bool.bool a b =>
      show Ord.compare a b = (Ord.compare b a).swap
      exact OrientedCmp.eq_swap
    -- nodes of two families, or of a family without an order of its own
    all_goals rfl

theorem rank_le_of_isLE (hmn : (m.featureOrder n).isLE = true) : m.rank ≤ n.rank := by
  by_contra hlt
  have hgt : m.featureOrder n = .gt :=
    OrientedCmp.gt_of_lt (featureOrder_of_rank_lt (Nat.lt_of_not_le hlt))
  rw [hgt] at hmn
  cases hmn

instance : TransCmp featureOrder where
  isLE_trans {m n k} hmn hnk := by
    have hle := rank_le_of_isLE hmn
    have hle' := rank_le_of_isLE hnk
    by_cases hlt : m.rank < k.rank
    · rw [featureOrder_of_rank_lt hlt]
      rfl
    -- all three belong to one family
    have hrank : m.rank = n.rank := by omega
    have hrank' : n.rank = k.rank := by omega
    cases m <;> cases n <;> cases hrank <;> cases k <;> cases hrank'
    case int.int.refl.int.refl i j l =>
      show (Ord.compare i l).isLE = true
      exact TransCmp.isLE_trans hmn hnk
    case atom.atom.refl.atom.refl a b c =>
      show (Ord.compare a.content c.content).isLE = true
      exact TransCmp.isLE_trans hmn hnk
    case bool.bool.refl.bool.refl a b c =>
      show (Ord.compare a c).isLE = true
      exact TransCmp.isLE_trans hmn hnk
    all_goals rfl

theorem exists_feature (hn : n.isFeature = true) : ∃ f : Feature, n = f.toNode := by
  obtain ⟨f, hf⟩ := Option.isSome_iff_exists.mp hn
  exact ⟨f, asFeature?_eq_some_iff.mp hf⟩

theorem rank_lt_of_isFeature (hn : n.isFeature = true) : n.rank < 4 := by
  cases n with
  | float x => cases hn
  | record ref => cases hn
  | «variable» v => cases hn
  | _ => simp [rank]

theorem rank_of_not_isFeature (hn : n.isFeature = false) : n.rank = 4 := by
  cases n with
  | float x => rfl
  | record ref => rfl
  | «variable» v => rfl
  | _ => cases hn

/-- Every feature comes before every other node. -/
theorem featureOrder_lt (hm : m.isFeature = true) (hn : n.isFeature = false) :
    m.featureOrder n = .lt := by
  apply featureOrder_of_rank_lt
  rw [rank_of_not_isFeature hn]
  exact rank_lt_of_isFeature hm

end Node

namespace Feature

variable {f g : Feature}

theorem rank_toNode (f : Feature) : f.toNode.rank = f.rank := by
  rcases f with i | a | b | _ <;> rfl

/-- The order of features is that of all nodes. -/
theorem featureOrder_toNode (f g : Feature) : f.toNode.featureOrder g.toNode = f.compare g := by
  rcases f with i | a | b | _ <;> rcases g with j | a' | b' | _ <;> rfl

theorem compare_int (i j : Int) : compare (.int i) (.int j) = Ord.compare i j := rfl

theorem compare_atom (a b : Atom) :
    compare (.literal (.atom a)) (.literal (.atom b)) = Ord.compare a.content b.content := rfl

theorem compare_bool (a b : Bool) :
    compare (.literal (.bool a)) (.literal (.bool b)) = Ord.compare a b := rfl

/-- The features of one family come before those of the next. -/
theorem compare_of_rank_lt (hr : f.rank < g.rank) : f.compare g = .lt := by
  rw [← featureOrder_toNode]
  apply Node.featureOrder_of_rank_lt
  rwa [rank_toNode, rank_toNode]

instance : OrientedCmp compare where
  eq_swap {f g} := by
    rw [← featureOrder_toNode, ← featureOrder_toNode]
    exact OrientedCmp.eq_swap

instance : TransCmp compare where
  isLE_trans {f g k} hfg hgk := by
    rw [← featureOrder_toNode] at *
    exact TransCmp.isLE_trans hfg hgk

/-- An integer counts as equal to itself alone. -/
theorem compare_int_eq {i : Int} (hf : f.compare (.int i) = .eq) : f = .int i := by
  rcases f with j | a | b | _
  · rw [compare_int, Std.compare_eq_iff_eq] at hf
    rw [hf]
  all_goals cases hf

/-! ### Ascending features -/

/-- The features ascend, so that no two of them count as equal. -/
def Ascending (names : List Feature) : Prop := names.Pairwise fun f g => f.compare g = .lt

instance (names : List Feature) : Decidable (Ascending names) :=
  inferInstanceAs (Decidable (names.Pairwise fun f g => f.compare g = .lt))

theorem mem_countFrom {k : Int} {n : Nat} (hf : f ∈ countFrom k n) : ∃ i, k ≤ i ∧ f = .int i := by
  induction n generalizing k with
  | zero => cases hf
  | succ n ih =>
    rcases List.mem_cons.mp hf with rfl | hf
    · exact ⟨k, Int.le_refl k, rfl⟩
    · obtain ⟨i, hi, rfl⟩ := ih hf
      exact ⟨i, by omega, rfl⟩

theorem ascending_countFrom (k : Int) (n : Nat) : Ascending (countFrom k n) := by
  induction n generalizing k with
  | zero => exact .nil
  | succ n ih =>
    refine .cons (fun f hf => ?_) (ih (k + 1))
    obtain ⟨i, hi, rfl⟩ := mem_countFrom hf
    rw [compare_int, Int.compare_eq_lt]
    omega

theorem Ascending.nodup {names : List Feature} (ha : Ascending names) : names.Nodup :=
  ha.imp fun hfg he => by
    rw [he] at hfg
    exact OrientedCmp.not_lt_of_lt hfg hfg

/-- Ascending lists of the same features are the same list. -/
theorem Ascending.eq_of_mem_iff {names names' : List Feature} (ha : Ascending names)
    (ha' : Ascending names') (hmem : ∀ f, f ∈ names ↔ f ∈ names') : names = names' := by
  have hperm : names.Perm names' := (List.perm_ext_iff_of_nodup ha.nodup ha'.nodup).mpr hmem
  refine hperm.eq_of_pairwise (fun f g _ _ hfg hgf => ?_) ha ha'
  exact absurd hgf (OrientedCmp.not_lt_of_lt hfg)

/-- Features that count as equal one by one ascend together. -/
theorem Ascending.congr {names names' : List Feature} (ha : Ascending names)
    (heq : List.Forall₂ (fun f f' => f.compare f' = .eq) names names') : Ascending names' := by
  induction heq with
  | nil => exact .nil
  | @cons f f' fs fs' hf hfs ih =>
    obtain ⟨hfirst, hrest⟩ := List.pairwise_cons.mp ha
    refine .cons (fun g' hg' => ?_) (ih hrest)
    obtain ⟨g, hg, hgg⟩ := exists_of_forall₂_right hfs hg'
    rw [← TransCmp.congr_left hf, ← TransCmp.congr_right hgg]
    exact hfirst g hg

/-- Features that count as equal to `k, k + 1, …` are these. -/
theorem eq_countFrom {names : List Feature} {k : Int} {n : Nat}
    (heq : List.Forall₂ (fun f f' => f.compare f' = .eq) names (countFrom k n)) :
    names = countFrom k n := by
  induction n generalizing names k with
  | zero => exact List.forall₂_nil_right_iff.mp heq
  | succ n ih =>
    obtain ⟨f, fs, hf, hfs, rfl⟩ := List.forall₂_cons_right_iff.mp heq
    rw [compare_int_eq hf, ih hfs]
    rfl

end Feature

/-! ### Sorting -/

theorem insertField_perm (e : Feature × Node) (fields : List (Feature × Node)) :
    (insertField e fields).Perm (e :: fields) := by
  induction fields with
  | nil => exact .refl _
  | cons e' rest ih =>
    rw [insertField]
    split
    · exact (ih.cons e').trans (.swap e e' rest)
    · exact .refl _

theorem sortFields_perm (fields : List (Feature × Node)) : (sortFields fields).Perm fields := by
  induction fields with
  | nil => exact .refl _
  | cons e rest ih => exact (insertField_perm e _).trans (ih.cons e)

/-- The fields stand in the order of their features, which may repeat. -/
def Sorted (fields : List (Feature × Node)) : Prop :=
  fields.Pairwise fun e e' => (e.1.compare e'.1).isLE = true

theorem sorted_insertField (e : Feature × Node) {fields : List (Feature × Node)}
    (hs : Sorted fields) : Sorted (insertField e fields) := by
  induction fields with
  | nil => exact List.pairwise_singleton _ _
  | cons e' rest ih =>
    obtain ⟨hfirst, hrest⟩ := List.pairwise_cons.mp hs
    rw [insertField]
    split
    · next hgt =>
      refine .cons (fun x hx => ?_) (ih hrest)
      rcases List.mem_cons.mp ((insertField_perm e rest).mem_iff.mp hx) with rfl | hx
      · rw [OrientedCmp.lt_of_gt hgt]
        rfl
      · exact hfirst x hx
    · next hgt =>
      have hle : (e.1.compare e'.1).isLE = true := Ordering.isLE_iff_ne_gt.mpr hgt
      refine .cons (fun x hx => ?_) hs
      rcases List.mem_cons.mp hx with rfl | hx
      · exact hle
      · exact TransCmp.isLE_trans hle (hfirst x hx)

theorem sorted_sortFields (fields : List (Feature × Node)) : Sorted (sortFields fields) := by
  induction fields with
  | nil => exact .nil
  | cons e rest ih => exact sorted_insertField e ih

/-- The feature that occurs twice is one of the features. -/
theorem mem_of_duplicate? {fields : List (Feature × Node)} {f : Feature}
    (hd : duplicate? fields = some f) : ∃ e ∈ fields, e.1 = f := by
  fun_induction duplicate? fields with
  | case1 e e' rest heq =>
    cases hd
    exact ⟨e, List.mem_cons_self .., rfl⟩
  | case2 e e' rest _ ih =>
    obtain ⟨e'', he'', hf⟩ := ih hd
    exact ⟨e'', List.mem_cons_of_mem _ he'', hf⟩
  | case3 => cases hd

/-- Sorted fields without equal neighbours have no equal features at all. -/
theorem Sorted.ascending {fields : List (Feature × Node)} (hs : Sorted fields)
    (hd : duplicate? fields = none) : Feature.Ascending (fields.map (·.1)) := by
  induction fields with
  | nil => exact .nil
  | cons e rest ih =>
    cases rest with
    | nil => exact List.pairwise_singleton _ _
    | cons e' rest =>
      obtain ⟨hfirst, hrest⟩ := List.pairwise_cons.mp hs
      rw [duplicate?] at hd
      split at hd
      · cases hd
      · next hne =>
        have hlt : e.1.compare e'.1 = .lt := by
          have hle := hfirst e' (List.mem_cons_self ..)
          cases hc : e.1.compare e'.1 with
          | lt => rfl
          | eq => exact absurd hc hne
          | gt => rw [hc] at hle; cases hle
        have ha := ih hrest hd
        -- the first feature is below the second, and that one below all others
        refine .cons (fun g hg => ?_) ha
        rcases List.mem_cons.mp hg with rfl | hg
        · exact hlt
        · exact TransCmp.lt_trans hlt ((List.pairwise_cons.mp ha).1 g hg)

/-! ### Balanced records -/

namespace Record

/-- The record has as many features as fields. -/
def Balanced (r : Record) : Prop := r.features.length = r.fields.length

theorem features_ofSorted (label : Literal) (fields : List (Feature × Node)) :
    (ofSorted label fields).features = fields.map (·.1) := by
  unfold ofSorted features
  dsimp only
  split
  · next h =>
    split at h
    · next hnames => rw [hnames]; simp [width]
    · cases h
  · next names h =>
    split at h
    · cases h
    · cases h; rfl

theorem balanced_ofSorted (label : Literal) (fields : List (Feature × Node)) :
    (ofSorted label fields).Balanced := by
  unfold Balanced
  rw [features_ofSorted]
  simp [ofSorted]

theorem balanced_tuple (label : Literal) (fields : List Node) :
    (⟨label, .tuple, fields⟩ : Record).Balanced := by
  simp [Balanced, features, width]

/-! ### Canonical records -/

/-- The form that every record has. -/
structure Canonical (r : Record) : Prop where
  /-- There is a field. -/
  nonempty : r.fields ≠ []
  /-- There is one feature for each field. -/
  balanced : r.Balanced
  /-- The features ascend. -/
  ascending : Feature.Ascending r.features
  /-- Features that count up from one are not stored. -/
  stored : ∀ names, r.arity = .features names → names ≠ countFrom 1 r.width

theorem canonical_tuple (label : Literal) {fields : List Node} (hne : fields ≠ []) :
    (⟨label, .tuple, fields⟩ : Record).Canonical where
  nonempty := hne
  balanced := balanced_tuple label fields
  ascending := Feature.ascending_countFrom 1 _
  stored := nofun

theorem canonical_ofSorted (label : Literal) {fields : List (Feature × Node)} (hne : fields ≠ [])
    (ha : Feature.Ascending (fields.map (·.1))) : (ofSorted label fields).Canonical where
  nonempty := by simpa [ofSorted] using hne
  balanced := balanced_ofSorted label fields
  ascending := by rw [features_ofSorted]; exact ha
  stored names harity := by
    unfold ofSorted at harity
    dsimp only at harity
    split at harity
    · cases harity
    · next hnames => cases harity; simpa [ofSorted, width] using hnames

/-- Fields in any order make a canonical record, unless a feature occurs twice. -/
theorem canonical_sortFields (label : Literal) {fields : List (Feature × Node)} (hne : fields ≠ [])
    (hd : duplicate? (sortFields fields) = none) :
    (ofSorted label (sortFields fields)).Canonical := by
  refine canonical_ofSorted label (fun hnil => hne ?_) ((sorted_sortFields fields).ascending hd)
  have hperm := sortFields_perm fields
  rw [hnil] at hperm
  exact hperm.symm.eq_nil

namespace Canonical

variable {r s : Record}

/-- Canonical records with the same features have the same form. -/
theorem arity_eq_iff (hr : r.Canonical) (hs : s.Canonical) :
    r.arity = s.arity ∧ r.fields.length = s.fields.length ↔ r.features = s.features := by
  have hbr := hr.balanced
  have hbs := hs.balanced
  have hsr := hr.stored
  have hss := hs.stored
  unfold Balanced features width at *
  cases hra : r.arity with
  | tuple =>
    cases hsa : s.arity with
    | tuple =>
      simp only [true_and]
      exact ⟨fun he => by rw [he], fun he => by simpa using congrArg List.length he⟩
    | features names =>
      rw [hsa] at hbs
      refine ⟨nofun, fun he => ?_⟩
      -- the stored features would count up from one
      have hlen : r.fields.length = s.fields.length := by
        rw [← hbs]
        simpa using congrArg List.length he
      exact absurd (hlen ▸ he.symm) (hss names hsa)
  | features names =>
    rw [hra] at hbr
    cases hsa : s.arity with
    | tuple =>
      refine ⟨nofun, fun he => ?_⟩
      have hlen : r.fields.length = s.fields.length := by
        rw [← hbr]
        simpa using congrArg List.length he
      exact absurd (hlen ▸ he) (hsr names hra)
    | features names' =>
      rw [hsa] at hbs
      simp only [Arity.features.injEq]
      exact ⟨fun he => he.1, fun he => ⟨he, by rw [← hbr, ← hbs, show names = names' from he]⟩⟩

theorem features_eq_iff (hr : r.Canonical) (hs : s.Canonical) :
    r.features = s.features ↔ ∀ f, f ∈ r.features ↔ f ∈ s.features :=
  ⟨fun he f => by rw [he], hr.ascending.eq_of_mem_iff hs.ascending⟩

end Canonical

end Record

end Dataflow
