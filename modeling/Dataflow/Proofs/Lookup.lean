import Mathlib.Data.List.Perm.Basic
import Dataflow.Proofs.Retry

/-! # Records as finite maps

  A record is built from features and fields in any order, and holds them in one form: whatever
  sorts the fields, the features ascend and each stands beside its field. So a record is a finite
  map, and it makes no difference whether a field is found by its index in a tuple, by a search
  through all features, or by any search that relies on their order.

  If a feature occurs twice the record is refused, and the refusal names the least such feature,
  again whatever the order. `Machine.buildRecordInPlace` builds a record in place and shows what a
  refusal leaves behind: the machine as it was.

  The integer path of field selection reads the same map. It parts from the general one in a single
  case: on a number it looks at the feature before it finds that there are no fields.
-/

open Std (OrientedCmp ReflCmp TransCmp)

namespace Dataflow

/-! ### Equal features -/

/-- No two of the fields have features that count as equal. -/
def Distinct (fields : List (Feature × Node)) : Prop :=
  fields.Pairwise fun e e' => e.1.compare e'.1 ≠ .eq

instance (fields : List (Feature × Node)) : Decidable (Distinct fields) :=
  inferInstanceAs (Decidable (fields.Pairwise fun e e' => e.1.compare e'.1 ≠ .eq))

/-- Two of the fields, or more, have features that count as equal to this one. -/
def Repeats (fields : List (Feature × Node)) (f : Feature) : Prop :=
  2 ≤ fields.countP fun e => e.1.compare f == .eq

theorem Distinct.perm {fields fields' : List (Feature × Node)} (hd : Distinct fields)
    (hp : fields.Perm fields') : Distinct fields' :=
  (hp.pairwise_iff fun hne he => hne (OrientedCmp.eq_symm he)).mp hd

/-- Distinct fields with features that count as equal are the same field. -/
theorem Distinct.eq_of_compare {fields : List (Feature × Node)} (hd : Distinct fields)
    {e e' : Feature × Node} (he : e ∈ fields) (he' : e' ∈ fields) (heq : e.1.compare e'.1 = .eq) :
    e = e' := by
  induction fields with
  | nil => cases he
  | cons x rest ih =>
    obtain ⟨hfirst, hrest⟩ := List.pairwise_cons.mp hd
    rcases List.mem_cons.mp he with rfl | hmem
    · rcases List.mem_cons.mp he' with rfl | hmem'
      · rfl
      · exact absurd heq (hfirst e' hmem')
    · rcases List.mem_cons.mp he' with rfl | hmem'
      · exact absurd (OrientedCmp.eq_symm heq) (hfirst e hmem)
      · exact ih hrest hmem hmem'

theorem Repeats.perm {fields fields' : List (Feature × Node)} {f : Feature}
    (hr : Repeats fields f) (hp : fields.Perm fields') : Repeats fields' f := by
  unfold Repeats at *
  rwa [← hp.countP_eq]

/-- A feature that is repeated is that of one of the fields. -/
theorem Repeats.exists_mem {fields : List (Feature × Node)} {f : Feature}
    (hr : Repeats fields f) : ∃ e ∈ fields, e.1.compare f = .eq := by
  have hpos : 0 < fields.countP fun e => e.1.compare f == .eq := Nat.lt_of_lt_of_le (by decide) hr
  obtain ⟨e, he, hf⟩ := List.countP_pos_iff.mp hpos
  exact ⟨e, he, by simpa using hf⟩

/-- Features that count as equal have the same text. -/
theorem Feature.text_eq_of_compare {f g : Feature} (he : f.compare g = .eq) : f.text = g.text := by
  rcases f with i | a | b | _ <;> rcases g with j | a' | b' | _
  case int.int =>
    rw [compare_int, Std.compare_eq_iff_eq] at he
    rw [he]
  case literal.atom.literal.atom =>
    rw [compare_atom, Std.compare_eq_iff_eq] at he
    simp only [Feature.text, Literal.text, Atom.text, he]
  case literal.bool.literal.bool =>
    rw [compare_bool, Std.compare_eq_iff_eq] at he
    rw [he]
  case literal.unit.literal.unit => rfl
  all_goals cases he

/-- The node, if it is an atom, was handed out by this table. -/
def Node.OfTable (t : TableId) (n : Node) : Prop := ∀ a, n = .atom a → a.table = t

/-- Features of one table count as equal only if they are the same. -/
theorem Feature.eq_of_compare {t : TableId} {f g : Feature} (hf : f.toNode.OfTable t)
    (hg : g.toNode.OfTable t) (he : f.compare g = .eq) : f = g := by
  rcases f with i | a | b | _ <;> rcases g with j | a' | b' | _
  case int.int =>
    rw [compare_int, Std.compare_eq_iff_eq] at he
    rw [he]
  case literal.atom.literal.atom =>
    rw [compare_atom, Std.compare_eq_iff_eq] at he
    have hta : a.table = t := hf a rfl
    have hta' : a'.table = t := hg a' rfl
    cases a
    cases a'
    simp_all
  case literal.bool.literal.bool =>
    rw [compare_bool, Std.compare_eq_iff_eq] at he
    rw [he]
  case literal.unit.literal.unit => rfl
  all_goals cases he

/-- A feature is at the place of a node exactly if the node is a feature that counts as equal. -/
theorem Feature.featureOrder_eq_iff {f : Feature} {p : Node} :
    f.toNode.featureOrder p = .eq ↔ ∃ g : Feature, p = g.toNode ∧ f.compare g = .eq := by
  constructor
  · intro he
    by_cases hp : p.isFeature = true
    · obtain ⟨g, rfl⟩ := Node.exists_feature hp
      exact ⟨g, rfl, by rwa [← featureOrder_toNode]⟩
    · rw [Node.featureOrder_lt f.isFeature_toNode (by simpa using hp)] at he
      cases he
  · rintro ⟨g, rfl, he⟩
    rwa [featureOrder_toNode]

theorem Feature.featureOrder_eq_iff_of_table {t : TableId} {f : Feature} {p : Node}
    (hf : f.toNode.OfTable t) (hp : p.OfTable t) :
    f.toNode.featureOrder p = .eq ↔ p = f.toNode := by
  rw [featureOrder_eq_iff]
  constructor
  · rintro ⟨g, rfl, he⟩
    rw [eq_of_compare hf hp he]
  · rintro rfl
    exact ⟨f, rfl, ReflCmp.compare_self⟩

theorem distinct_iff_nodup {t : TableId} {fields : List (Feature × Node)}
    (ht : ∀ e ∈ fields, e.1.toNode.OfTable t) :
    Distinct fields ↔ (fields.map (·.1)).Nodup := by
  unfold Distinct List.Nodup
  rw [List.pairwise_map]
  refine List.Pairwise.iff_of_mem fun {e e'} he he' => not_congr ⟨?_, ?_⟩
  · exact Feature.eq_of_compare (ht e he) (ht e' he')
  · intro h
    rw [h]
    exact ReflCmp.compare_self

/-! ### Sorting distinct features -/

/-- Fields with distinct features have one sorted order. -/
theorem Sorted.eq_of_perm {fields fields' : List (Feature × Node)} (hd : Distinct fields)
    (hs : Sorted fields) (hs' : Sorted fields') (hp : fields.Perm fields') : fields = fields' := by
  refine hp.eq_of_pairwise (fun e e' he he' hle hle' => ?_) hs hs'
  exact hd.eq_of_compare he (hp.mem_iff.mpr he') (OrientedCmp.isLE_antisymm hle hle')

/-- Distinct fields have no equal neighbours. -/
theorem Distinct.duplicate?_eq_none {fields : List (Feature × Node)} (hd : Distinct fields) :
    duplicate? fields = none := by
  fun_induction duplicate? fields with
  | case1 e e' rest heq =>
    exact absurd heq ((List.pairwise_cons.mp hd).1 e' (List.mem_cons_self ..))
  | case2 e e' rest _ ih => exact ih (List.pairwise_cons.mp hd).2
  | case3 => rfl

theorem Feature.Ascending.distinct {fields : List (Feature × Node)}
    (ha : Feature.Ascending (fields.map (·.1))) : Distinct fields :=
  (List.pairwise_map.mp ha).imp fun hlt heq => by rw [heq] at hlt; cases hlt

/-! ### The feature that is refused -/

/-- In a sorted list with equal neighbours the first of these have the least feature that is
    repeated. -/
theorem Sorted.duplicate?_least {fields : List (Feature × Node)} (hs : Sorted fields) {f : Feature}
    (hd : duplicate? fields = some f) :
    Repeats fields f ∧ ∀ g, Repeats fields g → (f.compare g).isLE = true := by
  -- along the list: the first pair of equal neighbours is found
  fun_induction duplicate? fields with
  | case1 e e' rest heq =>
    cases hd
    have hself : e.1.compare e.1 = .eq := ReflCmp.compare_self
    constructor
    · have he' : e'.1.compare e.1 = .eq := OrientedCmp.eq_symm heq
      simp only [Repeats, List.countP_cons, hself, he', beq_self_eq_true, ↓reduceIte]
      omega
    -- every other repeated feature comes later in the sorted list
    · intro g hg
      obtain ⟨x, hx, hxg⟩ := hg.exists_mem
      have hcongr : e.1.compare x.1 = e.1.compare g := TransCmp.congr_right hxg
      rw [← hcongr]
      rcases List.mem_cons.mp hx with rfl | hx
      · rw [hself]
        rfl
      · exact (List.pairwise_cons.mp hs).1 x hx
  | case2 e e' rest hne ih =>
    obtain ⟨hfirst, hrest⟩ := List.pairwise_cons.mp hs
    obtain ⟨hrep, hleast⟩ := ih hrest hd
    refine ⟨Nat.le_trans hrep ?_, fun g hg => ?_⟩
    · exact (List.sublist_cons_self e (e' :: rest)).countP_le
    · -- the first feature is below all others, so it is not the one that is repeated
      have hlt : ∀ x ∈ e' :: rest, e.1.compare x.1 = .lt := by
        intro x hx
        have hee' : e.1.compare e'.1 = .lt := by
          have hle := hfirst e' (List.mem_cons_self ..)
          cases hc : e.1.compare e'.1 with
          | lt => rfl
          | eq => exact absurd hc hne
          | gt => rw [hc] at hle; cases hle
        rcases List.mem_cons.mp hx with rfl | hx
        · exact hee'
        · exact TransCmp.lt_of_lt_of_isLE hee' ((List.pairwise_cons.mp hrest).1 x hx)
      refine hleast g ?_
      unfold Repeats at hg ⊢
      rw [List.countP_cons] at hg
      by_cases heg : e.1.compare g = .eq
      · have hnone : (e' :: rest).countP (fun x => x.1.compare g == .eq) = 0 := by
          refine List.countP_eq_zero.mpr fun x hx hxg => ?_
          have hcongr : e.1.compare x.1 = e.1.compare g := TransCmp.congr_right (by simpa using hxg)
          rw [hlt x hx, heg] at hcongr
          cases hcongr
        rw [hnone] at hg
        split at hg <;> omega
      · simpa [heg] using hg
  | case3 => cases hd

/-- Sorted fields that are not distinct are refused, with the text of their least repeated
    feature. -/
theorem Sorted.duplicate?_text {fields sorted : List (Feature × Node)} (hs : Sorted sorted)
    (hp : sorted.Perm fields) {f : Feature} (hr : Repeats fields f)
    (hleast : ∀ g, Repeats fields g → (f.compare g).isLE = true) (hd : ¬ Distinct fields) :
    ∃ g, duplicate? sorted = some g ∧ g.text = f.text := by
  cases hg : duplicate? sorted with
  | none => exact absurd ((hs.ascending hg).distinct.perm hp) hd
  | some g =>
    obtain ⟨hrg, hleastg⟩ := hs.duplicate?_least hg
    refine ⟨g, rfl, Feature.text_eq_of_compare (OrientedCmp.isLE_antisymm ?_ ?_)⟩
    · exact hleastg f (hr.perm hp.symm)
    · exact hleast g (hrg.perm hp)

/-! ### Finding a field -/

namespace Record

/-- The field at a node: none, unless the node is a feature. -/
def field? (r : Record) (p : Node) : Option Node := p.asFeature?.bind r.lookup

/-- The features below the wanted one come first, then those equal to it, then those above. -/
def Divided (order : Feature → Ordering) (names : List Feature) : Prop :=
  names.Pairwise fun f g => (order g = .lt → order f = .lt) ∧ (order f = .gt → order g = .gt)

/-- What a search through divided features promises: the index of one that is equal to the wanted
    one, or that there is none. -/
structure Finds (find : (Feature → Ordering) → List Feature → Option Nat) : Prop where
  /-- What is found is equal to the wanted feature. -/
  hit {order : Feature → Ordering} {names : List Feature} {i : Nat} :
    Divided order names → find order names = some i → ∃ f, names[i]? = some f ∧ order f = .eq
  /-- Nothing is found only if there is no such feature. -/
  miss {order : Feature → Ordering} {names : List Feature} :
    Divided order names → find order names = none → ∀ f ∈ names, order f ≠ .eq

/-- Looking at one feature after the other is such a search. -/
theorem finds_findIdx? : Finds fun order names => names.findIdx? fun f => order f == .eq where
  hit {order names i} _ hi := by
    obtain ⟨hlt, heq, -⟩ := List.findIdx?_eq_some_iff_getElem.mp hi
    exact ⟨names[i], List.getElem?_eq_getElem hlt, by simpa using heq⟩
  miss {order names} _ hnone f hf := by simpa using List.findIdx?_eq_none_iff.mp hnone f hf

/-- The field at a node, by the given search through the features; a tuple is indexed. -/
def fieldBy (find : (Feature → Ordering) → List Feature → Option Nat) (r : Record) (p : Node) :
    Option Node :=
  match r.arity, p with
  | .tuple, .int i => r.lookupNumber i
  | .tuple, _ => none
  | .features names, p => (find (fun f => f.toNode.featureOrder p) names).bind (r.fields[·]?)

/-- The integers that a tuple does not store are found at their index. -/
theorem search_countFrom (k i : Int) (fields : List Node) :
    search (countFrom k fields.length) fields (.int i) =
      if k ≤ i then fields[(i - k).toNat]? else none := by
  induction fields generalizing k with
  | nil => simp [search, countFrom]
  | cons x xs ih =>
    have hstep : search (countFrom k (x :: xs).length) (x :: xs) (.int i) =
        if k = i then some x else search (countFrom (k + 1) xs.length) xs (.int i) := by
      by_cases hki : k = i
      · simp [search, countFrom, Feature.compare_int, hki]
      · simp [search, countFrom, Feature.compare_int, hki]
    rw [hstep, ih]
    by_cases hki : k = i
    · simp [hki]
    · by_cases hlt : k ≤ i
      · have hindex : (i - k).toNat = (i - (k + 1)).toNat + 1 := by omega
        rw [if_neg hki, if_pos (by omega), if_pos hlt, hindex, List.getElem?_cons_succ]
      · rw [if_neg hki, if_neg (by omega), if_neg hlt]

/-- No literal is found among integers. -/
theorem search_countFrom_literal (k : Int) (fields : List Node) (l : Literal) :
    search (countFrom k fields.length) fields (.literal l) = none := by
  have hnone : (((countFrom k fields.length).zip fields).find?
      fun e => e.1.compare (.literal l) == .eq) = none := by
    refine List.find?_eq_none.mpr fun e he => ?_
    obtain ⟨i, -, hi⟩ := Feature.mem_countFrom (List.of_mem_zip he).1
    rw [hi]
    cases l <;> nofun
  rw [search, hnone]
  rfl

/-- A field is looked up by a search through the features, in a tuple as well. -/
theorem lookup_eq_search (r : Record) (f : Feature) :
    r.lookup f = search r.features r.fields f := by
  obtain ⟨label, arity, fields⟩ := r
  cases arity with
  | tuple =>
    cases f with
    | int i => exact (search_countFrom 1 i fields).symm
    | literal l => exact (search_countFrom_literal 1 fields l).symm
  | features names => rfl

/-- An integer is looked up as a feature. -/
theorem lookup_int (r : Record) (i : Int) : r.lookup (.int i) = r.lookupNumber i := by
  obtain ⟨label, arity, fields⟩ := r
  cases arity <;> rfl

theorem search_eq_some_iff {names : List Feature} {fields : List Node} {f : Feature} {x : Node}
    (hd : Distinct (names.zip fields)) :
    search names fields f = some x ↔ ∃ g, (g, x) ∈ names.zip fields ∧ g.compare f = .eq := by
  unfold search
  rw [Option.map_eq_some_iff]
  constructor
  · rintro ⟨e, he, rfl⟩
    exact ⟨e.1, List.mem_of_find?_eq_some he, by simpa using List.find?_some he⟩
  · rintro ⟨g, hg, hgf⟩
    cases hfound : (names.zip fields).find? fun e => e.1.compare f == .eq with
    | none => simpa [hgf] using List.find?_eq_none.mp hfound (g, x) hg
    | some e =>
      -- what was found counts as equal to `g`, so it stands beside the same field
      have hef : e.1.compare f = .eq := by simpa using List.find?_some hfound
      have heg : e.1.compare g = .eq := TransCmp.eq_trans hef (OrientedCmp.eq_symm hgf)
      have he := hd.eq_of_compare (List.mem_of_find?_eq_some hfound) hg heg
      exact ⟨e, rfl, by rw [he]⟩

/-- Ascending features are divided by every node. -/
theorem divided_featureOrder {names : List Feature} (ha : Feature.Ascending names) (p : Node) :
    Divided (fun f => f.toNode.featureOrder p) names := by
  refine ha.imp fun {f g} hfg => ?_
  rw [← Feature.featureOrder_toNode] at hfg
  refine ⟨fun hgp => TransCmp.lt_trans hfg hgp, fun hfp => ?_⟩
  exact TransCmp.gt_trans (OrientedCmp.gt_of_lt hfg) hfp

namespace Canonical

variable {r : Record} (hr : r.Canonical)

include hr

/-- The features ascend beside their fields as well. -/
theorem ascending_zip : Feature.Ascending ((r.features.zip r.fields).map (·.1)) := by
  rw [List.map_fst_zip (Nat.le_of_eq hr.balanced)]
  exact hr.ascending

theorem distinct : Distinct (r.features.zip r.fields) := hr.ascending_zip.distinct

/-- A field is found exactly at the nodes that count as equal to its feature. -/
theorem field?_eq_some_iff {p x : Node} :
    r.field? p = some x ↔
      ∃ f, (f, x) ∈ r.features.zip r.fields ∧ f.toNode.featureOrder p = .eq := by
  unfold field?
  rw [Option.bind_eq_some_iff]
  constructor
  · rintro ⟨g, hg, hx⟩
    rw [lookup_eq_search, search_eq_some_iff hr.distinct] at hx
    obtain ⟨f, hf, hfg⟩ := hx
    exact ⟨f, hf, Feature.featureOrder_eq_iff.mpr ⟨g, Node.asFeature?_eq_some_iff.mp hg, hfg⟩⟩
  · rintro ⟨f, hf, hfp⟩
    obtain ⟨g, rfl, hfg⟩ := Feature.featureOrder_eq_iff.mp hfp
    refine ⟨g, g.asFeature?_toNode, ?_⟩
    rw [lookup_eq_search, search_eq_some_iff hr.distinct]
    exact ⟨f, hf, hfg⟩

/-- Every search through the features that keeps its promise finds the same field. -/
theorem search_by {find : (Feature → Ordering) → List Feature → Option Nat} (hfind : Finds find)
    (p : Node) :
    (find (fun f => f.toNode.featureOrder p) r.features).bind (r.fields[·]?) = r.field? p := by
  have hdiv := divided_featureOrder hr.ascending p
  cases hi : find (fun f => f.toNode.featureOrder p) r.features with
  | none =>
    have hnone : r.field? p = none := by
      refine Option.eq_none_iff_forall_not_mem.mpr fun x hx => ?_
      obtain ⟨f, hf, hfp⟩ := hr.field?_eq_some_iff.mp hx
      exact hfind.miss hdiv hi f (List.of_mem_zip hf).1 hfp
    rw [hnone]
    rfl
  | some i =>
    obtain ⟨f, hf, hfp⟩ := hfind.hit hdiv hi
    have hlt : i < r.fields.length := by
      rw [← hr.balanced]
      exact (List.getElem?_eq_some_iff.mp hf).1
    have hx : r.fields[i]? = some r.fields[i] := List.getElem?_eq_getElem hlt
    have hmem : (f, r.fields[i]) ∈ r.features.zip r.fields := by
      refine List.mem_of_getElem? (i := i) ?_
      rw [List.getElem?_zip_eq_some]
      exact ⟨hf, hx⟩
    rw [hr.field?_eq_some_iff.mpr ⟨f, hmem, hfp⟩]
    exact hx

/-- The index into a tuple and a search through features give the same field. -/
theorem fieldBy_eq {find : (Feature → Ordering) → List Feature → Option Nat} (hfind : Finds find)
    (p : Node) : r.fieldBy find p = r.field? p := by
  have hsearch := hr.search_by hfind p
  cases ha : r.arity with
  | tuple =>
    unfold fieldBy field?
    rw [ha]
    rcases p with a | i | x | b | _ | ref | v
    case int => exact (r.lookup_int i).symm
    all_goals simp [Node.asFeature?, Node.asLiteral?, lookup, ha]
  | features names =>
    have hnames : r.features = names := by rw [features, ha]
    rw [hnames] at hsearch
    unfold fieldBy
    rw [ha]
    exact hsearch

end Canonical

/-- The record maps the features of these fields to what stands beside them and nothing else to
    anything, whichever way it is read. -/
structure IsMap (r : Record) (fs : List (Feature × Node)) : Prop where
  /-- A node is mapped to a field exactly if it counts as equal to the feature of that field. -/
  field {p x : Node} : r.field? p = some x ↔ ∃ f, (f, x) ∈ fs ∧ f.toNode.featureOrder p = .eq
  /-- Integers have a path of their own, to the same fields. -/
  number (i : Int) : r.lookupNumber i = r.field? (.int i)
  /-- Any search through the features finds the same fields, and so would one through the features
      of a tuple if these were stored. -/
  searched {find : (Feature → Ordering) → List Feature → Option Nat} (hfind : Finds find)
    (p : Node) : r.fieldBy find p = r.field? p ∧
      { r with arity := .features r.features }.fieldBy find p = r.field? p

theorem isMap_ofSorted (l : Literal) {fs sorted : List (Feature × Node)} (hp : sorted.Perm fs)
    (hr : (ofSorted l sorted).Canonical) : (ofSorted l sorted).IsMap fs where
  field {p x} := by
    have hzip : (ofSorted l sorted).features.zip (ofSorted l sorted).fields = sorted := by
      rw [features_ofSorted]
      exact (List.zip_of_prod rfl rfl).symm
    rw [hr.field?_eq_some_iff, hzip]
    simp only [hp.mem_iff]
  number i := (lookup_int _ i).symm
  searched hfind p := ⟨hr.fieldBy_eq hfind p, hr.search_by hfind p⟩

end Record

/-! ### Building a record -/

namespace Machine

variable {m : Machine}

/-- A field as it is given stands for a field with its feature dereferenced. -/
def Resolves (m : Machine) (given : Node × Node) (e : Feature × Node) : Prop :=
  m.deref given.1 = .ok e.1.toNode ∧ given.2 = e.2

theorem labelOf_literal {label : Node} {l : Literal} (hl : m.deref label = .ok l.toNode) :
    m.labelOf label = .ok (.ok l) := by
  simp [labelOf, hl, ok_bind, pure, Except.pure]

theorem featuresOf_resolved {fields : List (Node × Node)} {fs : List (Feature × Node)}
    (hfs : List.Forall₂ m.Resolves fields fs) : m.featuresOf fields = .ok (.ok fs) := by
  induction hfs with
  | nil => rfl
  | @cons given e rest es he _ ih =>
    obtain ⟨hd, hv⟩ := he
    rw [featuresOf, hd, ok_bind, Feature.asFeature?_toNode]
    dsimp only
    rw [ih, hv]
    rfl

/-- What becomes of fields whose label and features are as they should be. -/
theorem buildRecord_resolved {label : Node} {l : Literal} {fields : List (Node × Node)}
    {fs : List (Feature × Node)} (hl : m.deref label = .ok l.toNode) (hne : fields ≠ [])
    (hfs : List.Forall₂ m.Resolves fields fs) :
    m.buildRecord label fields = .ok
      (match duplicate? (sortFields fs) with
      | some f => .error (.duplicateFeature f.text)
      | none => .ok (m.allocate (.ofSorted l (sortFields fs)))) := by
  have hempty : fields.isEmpty = false := List.isEmpty_eq_false_iff.mpr hne
  unfold buildRecord
  rw [labelOf_literal hl, ok_bind]
  dsimp only
  rw [if_neg (by simp [hempty]), featuresOf_resolved hfs, ok_bind]
  dsimp only
  cases duplicate? (sortFields fs) with
  | none => rfl
  | some f =>
    dsimp only
    rw [repr, print_toNode]
    rfl

/-- Fields that are given in another order stand for fields in another order. -/
theorem resolves_perm {fields fields' : List (Node × Node)} {fs : List (Feature × Node)}
    (hp : fields'.Perm fields) (hfs : List.Forall₂ m.Resolves fields fs) :
    ∃ fs', List.Forall₂ m.Resolves fields' fs' ∧ (sortFields fs').Perm fs := by
  obtain ⟨fs', hfs', hperm⟩ := List.perm_comp_forall₂ hp hfs
  exact ⟨fs', hfs', (sortFields_perm fs').trans hperm⟩

/-- Distinct fields make the same record in every order. -/
theorem buildRecord_distinct {label : Node} {l : Literal} {fields fields' : List (Node × Node)}
    {fs sorted : List (Feature × Node)} (hl : m.deref label = .ok l.toNode) (hne : fields ≠ [])
    (hfs : List.Forall₂ m.Resolves fields fs) (hd : Distinct fs) (hp : sorted.Perm fs)
    (hs : Sorted sorted) (hp' : fields'.Perm fields) :
    m.buildRecord label fields' = .ok (.ok (m.allocate (.ofSorted l sorted))) := by
  have hne' : fields' ≠ [] := fun hnil => hne (hnil ▸ hp').symm.eq_nil
  obtain ⟨fs', hfs', hperm⟩ := resolves_perm hp' hfs
  have hd' : Distinct (sortFields fs') := hd.perm hperm.symm
  have hsort : sortFields fs' = sorted :=
    Sorted.eq_of_perm hd' (sorted_sortFields fs') hs (hperm.trans hp.symm)
  rw [buildRecord_resolved hl hne' hfs', hd'.duplicate?_eq_none, hsort]

/-- Fields that are not distinct are refused with the same text in every order. -/
theorem buildRecord_repeated {label : Node} {l : Literal} {fields fields' : List (Node × Node)}
    {fs : List (Feature × Node)} {f : Feature} (hl : m.deref label = .ok l.toNode)
    (hne : fields ≠ []) (hfs : List.Forall₂ m.Resolves fields fs) (hd : ¬ Distinct fs)
    (hr : Repeats fs f) (hleast : ∀ g, Repeats fs g → (f.compare g).isLE = true)
    (hp : fields'.Perm fields) :
    m.buildRecord label fields' = .ok (.error (.duplicateFeature f.text)) := by
  have hne' : fields' ≠ [] := fun hnil => hne (hnil ▸ hp).symm.eq_nil
  obtain ⟨fs', hfs', hperm⟩ := resolves_perm hp hfs
  obtain ⟨g, hg, htext⟩ := (sorted_sortFields fs').duplicate?_text hperm hr hleast hd
  rw [buildRecord_resolved hl hne' hfs', hg]
  dsimp only
  rw [htext]

/-! ### Building in place -/

/-- Resolves features in place: at the first one that is refused the others are left out. -/
def featuresInPlace : List (Node × Node) → Machine →
    Except Fault (Except Refusal (List (Feature × Node)) × Machine)
  | [], m => .ok (.ok [], m)
  | (feature, value) :: rest, m => do
    let feature ← m.deref feature
    match feature.asFeature? with
    | none => return (.error (.invalidFeature (← m.repr feature)), m)
    | some f =>
      match ← featuresInPlace rest m with
      | (.error e, m) => return (.error e, m)
      | (.ok fields, m) => return (.ok ((f, value) :: fields), m)

/-- Builds a record in place: the machine that is left after a refusal is the one that the building
    has come to. -/
def buildRecordInPlace (m : Machine) (label : Node) (fields : List (Node × Node)) :
    Except Fault (Except Refusal Node × Machine) := do
  let label ← m.deref label
  match label.asLiteral? with
  | none => return (.error (.invalidLabel (← m.repr label)), m)
  | some l =>
    if fields.isEmpty then return (.ok l.toNode, m)
    match ← featuresInPlace fields m with
    | (.error e, m) => return (.error e, m)
    | (.ok fields, m) =>
      let sorted := sortFields fields
      match duplicate? sorted with
      | some f => return (.error (.duplicateFeature (← m.repr f.toNode)), m)
      | none =>
        let (n, m) := m.allocate (.ofSorted l sorted)
        return (.ok n, m)

/-- What a request has made, or the machine `m` if it was refused. -/
def madeOrKept (m : Machine) : Except Refusal (Node × Machine) → Except Refusal Node × Machine
  | .ok (n, m') => (.ok n, m')
  | .error e => (.error e, m)

theorem featuresInPlace_eq (m : Machine) (fields : List (Node × Node)) :
    featuresInPlace fields m = (m.featuresOf fields).map fun made => (made, m) := by
  induction fields with
  | nil => rfl
  | cons e rest ih =>
    obtain ⟨feature, value⟩ := e
    rw [featuresInPlace, featuresOf]
    cases m.deref feature with
    | error f => rfl
    | ok d =>
      simp only [ok_bind]
      cases d.asFeature? with
      | none => cases m.repr d <;> rfl
      | some f =>
        dsimp only
        rw [ih]
        cases m.featuresOf rest with
        | error f => rfl
        | ok made => cases made <;> rfl

/-- A record built in place is the record that is built, and a refusal has changed nothing. -/
theorem buildRecordInPlace_eq (m : Machine) (label : Node) (fields : List (Node × Node)) :
    m.buildRecordInPlace label fields = (m.buildRecord label fields).map m.madeOrKept := by
  -- both take the same branches, and the record in place is allocated last
  unfold buildRecordInPlace buildRecord labelOf
  cases m.deref label with
  | error f => rfl
  | ok d =>
    simp only [ok_bind]
    cases d.asLiteral? with
    | none => cases m.repr d <;> rfl
    | some l =>
      simp only [featuresInPlace_eq, pure, Except.pure, ok_bind]
      by_cases hnil : fields.isEmpty = true
      · rw [if_pos hnil, if_pos hnil]
        rfl
      · rw [if_neg hnil, if_neg hnil]
        cases m.featuresOf fields with
        | error f => rfl
        | ok made =>
          cases made with
          | error e => rfl
          | ok fs =>
            simp only [Except.map, ok_bind]
            cases duplicate? (sortFields fs) with
            | none => rfl
            | some f =>
              dsimp only
              cases m.repr f.toNode <;> rfl

theorem refused_buildRecordInPlace {m' : Machine} {label : Node} {fields : List (Node × Node)}
    {e : Refusal} (hb : m.buildRecordInPlace label fields = .ok (.error e, m')) : m' = m := by
  rw [buildRecordInPlace_eq] at hb
  cases hmade : m.buildRecord label fields with
  | error f =>
    rw [hmade] at hb
    cases hb
  | ok made =>
    rw [hmade] at hb
    cases made <;> cases hb
    rfl

/-- Building a record makes a finite map. If the features are distinct, every order of the fields
    makes the same record, which is the one that any sorting of them gives, and it maps exactly
    these features to their fields. If a feature is repeated, every order is refused with the text of
    the least such feature. Whatever the arguments, a refusal changes nothing in the machine that
    the record is built in.

    Distinct and repeated are meant in the order of features, which compares atoms by their contents.
    Features of one table are distinct if no two are the same, and only the feature itself is at its
    place. An atom that was kept across a collection is another than the atom of its content in the
    new table, but counts here as a repetition of it. -/
theorem buildRecord_finite_map {label : Node} {l : Literal} {fields : List (Node × Node)}
    {fs : List (Feature × Node)} (hl : m.deref label = .ok l.toNode) (hne : fields ≠ [])
    (hfs : List.Forall₂ m.Resolves fields fs) :
    (Distinct fs → ∃ r : Record,
      (∀ fields', fields'.Perm fields → m.buildRecord label fields' = .ok (.ok (m.allocate r))) ∧
      (∀ sorted, sorted.Perm fs → Sorted sorted → r = .ofSorted l sorted) ∧ r.IsMap fs) ∧
    (¬ Distinct fs → ∃ f, Repeats fs f ∧ (∀ g, Repeats fs g → (f.compare g).isLE = true) ∧
      ∀ fields', fields'.Perm fields →
        m.buildRecord label fields' = .ok (.error (.duplicateFeature f.text))) ∧
    (∀ t, (∀ e ∈ fs, e.1.toNode.OfTable t) →
      (Distinct fs ↔ (fs.map (·.1)).Nodup) ∧
      ∀ e ∈ fs, ∀ p, p.OfTable t → (e.1.toNode.featureOrder p = .eq ↔ p = e.1.toNode)) ∧
    ∀ (label : Node) (fields : List (Node × Node)),
      m.buildRecordInPlace label fields = (m.buildRecord label fields).map m.madeOrKept ∧
      ∀ e m', m.buildRecordInPlace label fields = .ok (.error e, m') → m' = m := by
  have hperm := sortFields_perm fs
  have hsorted := sorted_sortFields fs
  refine ⟨fun hd => ?_, fun hd => ?_, fun t ht => ?_, fun label fields => ?_⟩
  · have hd' : Distinct (sortFields fs) := hd.perm hperm.symm
    have hfs' : fs ≠ [] := fun hnil => hne (List.forall₂_nil_right_iff.mp (hnil ▸ hfs))
    refine ⟨.ofSorted l (sortFields fs), fun fields' hp => ?_, fun sorted hp hs => ?_, ?_⟩
    · exact buildRecord_distinct hl hne hfs hd hperm hsorted hp
    · rw [hsorted.eq_of_perm hd' hs (hperm.trans hp.symm)]
    · have hcanon := Record.canonical_sortFields l hfs' hd'.duplicate?_eq_none
      exact Record.isMap_ofSorted l hperm hcanon
  · cases hf : duplicate? (sortFields fs) with
    | none => exact absurd ((hsorted.ascending hf).distinct.perm hperm) hd
    | some f =>
      obtain ⟨hr, hleast⟩ := hsorted.duplicate?_least hf
      have hleast' : ∀ g, Repeats fs g → (f.compare g).isLE = true :=
        fun g hg => hleast g (hg.perm hperm.symm)
      refine ⟨f, hr.perm hperm, hleast', fun fields' hp => ?_⟩
      exact buildRecord_repeated hl hne hfs hd (hr.perm hperm) hleast' hp
  · refine ⟨distinct_iff_nodup ht, fun e he p hp => ?_⟩
    exact Feature.featureOrder_eq_iff_of_table (ht e he) hp
  · exact ⟨buildRecordInPlace_eq m label fields, fun e m' hb => refused_buildRecordInPlace hb⟩

/-- A machine with two variables that are bound to features and one that is free. -/
def keyed : Machine :=
  { id := ⟨0⟩
    heap := { cells := #[.bound (.int 2), .bound (.atom ⟨⟨⟨0⟩, 0⟩, "point"⟩), .unbound []] } }

/-- Three fields, two of them under variables, make a record that has each of them at its feature
    and none at the variables; if a variable repeats an integer, both orders are refused, and the
    machine stays as it is. -/
theorem buildRecord_finite_map_keyed :
    (∃ r : Record,
      keyed.buildRecord .unit [(.variable ⟨1⟩, .variable ⟨2⟩), (.variable ⟨0⟩, .int 7),
        (.int 1, .bool true)] = .ok (.ok (keyed.allocate r)) ∧
      keyed.buildRecord .unit [(.int 1, .bool true), (.variable ⟨1⟩, .variable ⟨2⟩),
        (.variable ⟨0⟩, .int 7)] = .ok (.ok (keyed.allocate r)) ∧
      r.field? (.int 2) = some (.int 7) ∧ r.lookupNumber 2 = some (.int 7) ∧
      r.fieldBy (fun order names => names.findIdx? fun f => order f == .eq) (.int 2) =
        some (.int 7) ∧
      r.field? (.variable ⟨0⟩) = none) ∧
    ∃ f : Feature, f.text = "2" ∧
      keyed.buildRecord .unit [(.int 2, .unit), (.variable ⟨0⟩, .int 7)] =
        .ok (.error (.duplicateFeature f.text)) ∧
      keyed.buildRecord .unit [(.variable ⟨0⟩, .int 7), (.int 2, .unit)] =
        .ok (.error (.duplicateFeature f.text)) ∧
      keyed.buildRecordInPlace .unit [(.int 2, .unit), (.variable ⟨0⟩, .int 7)] =
        .ok (.error (.duplicateFeature f.text), keyed) := by
  have hl : keyed.deref .unit = .ok Literal.unit.toNode := rfl
  constructor
  · have hfs : List.Forall₂ keyed.Resolves
        [(.variable ⟨1⟩, .variable ⟨2⟩), (.variable ⟨0⟩, .int 7), (.int 1, .bool true)]
        [(.literal (.atom ⟨⟨⟨0⟩, 0⟩, "point"⟩), .variable ⟨2⟩), (.int 2, .int 7),
          (.int 1, .bool true)] :=
      .cons ⟨rfl, rfl⟩ (.cons ⟨rfl, rfl⟩ (.cons ⟨rfl, rfl⟩ .nil))
    obtain ⟨r, hbuild, -, hmap⟩ := (buildRecord_finite_map hl (by simp) hfs).1 (by decide)
    have hfield : r.field? (.int 2) = some (.int 7) := hmap.field.mpr ⟨.int 2, by decide, rfl⟩
    refine ⟨r, hbuild _ (.refl _), hbuild _ (by decide), hfield, ?_, ?_, ?_⟩
    · rw [hmap.number, hfield]
    · rw [(hmap.searched Record.finds_findIdx? _).1, hfield]
    · rfl
  · have hfs : List.Forall₂ keyed.Resolves [(.int 2, .unit), (.variable ⟨0⟩, .int 7)]
        [(.int 2, .unit), (.int 2, .int 7)] := .cons ⟨rfl, rfl⟩ (.cons ⟨rfl, rfl⟩ .nil)
    obtain ⟨-, hrepeated, -, hinPlace⟩ := buildRecord_finite_map hl (by simp) hfs
    obtain ⟨f, hr, -, hbuild⟩ := hrepeated (by decide)
    obtain ⟨e, he, hef⟩ := hr.exists_mem
    have htext : f.text = "2" := by
      rw [← Feature.text_eq_of_compare hef]
      simp only [List.mem_cons, List.not_mem_nil, or_false] at he
      rcases he with rfl | rfl <;> decide
    refine ⟨f, htext, hbuild _ (.refl _), hbuild _ (by decide), ?_⟩
    rw [(hinPlace _ _).1, hbuild _ (.refl _)]
    rfl

end Machine

/-! ### Selecting by integer -/

/-- Whether a node is an integer or a float. -/
def Node.isNumber : Node → Bool
  | .int _ | .float _ => true
  | _ => false

theorem Node.isNumber_iff {n : Node} :
    n.isNumber = true ↔ (∃ i, n = .int i) ∨ ∃ x, n = .float x := by
  cases n <;> simp [Node.isNumber]

namespace Machine

variable {m : Machine} {value feature d : Node}

/-- At an integer the two selections read the same field. -/
theorem dotNumber_eq_dot {i : Int} (he : m.deref feature = .ok (.int i)) :
    m.dotNumber value i = m.dot value feature := by
  unfold dotNumber dot
  congr 1
  funext receiver
  rw [he, ok_bind]
  cases receiver with
  | literal l => rfl
  | record ref =>
    dsimp only [Node.asFeature?]
    simp only [Record.lookup_int]

theorem callDotNumber_int {i : Int} (hd : m.deref value = .ok d)
    (he : m.deref feature = .ok (.int i)) :
    m.callDotNumber value feature = m.dot value feature := by
  rw [← dotNumber_eq_dot he]
  unfold callDotNumber
  rw [hd, he]
  cases d with
  | «variable» w => simp only [dotNumber, withReceiver, hd, ok_bind]
  | _ => rfl

/-- A number has no fields, whatever the feature. -/
theorem dot_number (hd : m.deref value = .ok d) (hn : d.isNumber = true) :
    m.dot value feature = .ok (m.raiseTypeError "Record" d) := by
  unfold dot withReceiver
  rw [hd, ok_bind]
  obtain ⟨i, rfl⟩ | ⟨x, rfl⟩ := Node.isNumber_iff.mp hn <;> rfl

/-- An unbound feature is waited for once the receiver has a value, a number included. -/
theorem callDotNumber_variable {v : VarRef} (hd : m.deref value = .ok d)
    (hvalue : d.asVariable? = none) (he : m.deref feature = .ok (.variable v)) :
    m.callDotNumber value feature = .ok (.suspend v, m) := by
  unfold callDotNumber
  rw [hd, he]
  cases d with
  | «variable» w => cases hvalue
  | _ => rfl

/-- On everything but numbers the general selection waits for the feature as well, once the receiver
    has a value. -/
theorem callDotNumber_variable_eq {v : VarRef} (hd : m.deref value = .ok d)
    (hn : d.isNumber = false) (he : m.deref feature = .ok (.variable v)) :
    m.callDotNumber value feature = m.dot value feature := by
  unfold callDotNumber dot withReceiver
  rw [hd, ok_bind, ok_bind]
  simp only [he]
  cases d with
  | int i => cases hn
  | float x => cases hn
  | _ => rfl

/-- Where the feature is an integer or unbound, the two selections have the same outcome and leave
    the same machine, unless the receiver is a number and the feature unbound: then the general one
    raises a type error, and the one by integer waits for the feature. -/
theorem call_dotNumber_eq_dot_iff {e : Node} (hd : m.deref value = .ok d)
    (he : m.deref feature = .ok e) (hfeature : (∃ i, e = .int i) ∨ ∃ v, e = .variable v) :
    (m.call .dotNumber [value, feature] = m.call .dot [value, feature] ↔
      ¬ (d.isNumber = true ∧ ∃ v, e = .variable v)) ∧
    ∀ v, d.isNumber = true → e = .variable v →
      m.call .dot [value, feature] = .ok (m.raiseTypeError "Record" d) ∧
      m.call .dotNumber [value, feature] = .ok (.suspend v, m) := by
  have hparts : ∀ v, d.isNumber = true → e = .variable v →
      m.call .dot [value, feature] = .ok (m.raiseTypeError "Record" d) ∧
      m.call .dotNumber [value, feature] = .ok (.suspend v, m) := by
    rintro v hn rfl
    have hvalue : d.asVariable? = none := by
      obtain ⟨i, rfl⟩ | ⟨x, rfl⟩ := Node.isNumber_iff.mp hn <;> rfl
    exact ⟨dot_number hd hn, callDotNumber_variable hd hvalue he⟩
  refine ⟨⟨?_, fun hnot => ?_⟩, hparts⟩
  · rintro heq ⟨hn, v, hv⟩
    obtain ⟨hdot, hnumber⟩ := hparts v hn hv
    rw [hdot, hnumber] at heq
    cases heq
  · rcases hfeature with ⟨i, rfl⟩ | ⟨v, rfl⟩
    · exact callDotNumber_int hd he
    · have hn : d.isNumber = false := by
        by_contra hn
        exact hnot ⟨by simpa using hn, v, rfl⟩
      exact callDotNumber_variable_eq hd hn he

/-- Asked for a field of five at an unbound feature, the general selection fails and the one by
    integer waits; at an integer, and of a record at an unbound feature, they agree. -/
theorem dotNumber_waits_on_number :
    Reachable undecided ∧
    undecided.call .dot [.int 5, .variable ⟨0⟩] =
      .ok (undecided.raiseTypeError "Record" (.int 5)) ∧
    undecided.call .dotNumber [.int 5, .variable ⟨0⟩] = .ok (.suspend ⟨0⟩, undecided) ∧
    undecided.call .dotNumber [.int 5, .int 1] = undecided.call .dot [.int 5, .int 1] ∧
    undecided.call .dotNumber [.record ⟨0⟩, .variable ⟨0⟩] =
      undecided.call .dot [.record ⟨0⟩, .variable ⟨0⟩] := by
  have hfive : undecided.deref (.int 5) = .ok (.int 5) := rfl
  have hrecord : undecided.deref (.record ⟨0⟩) = .ok (.record ⟨0⟩) := rfl
  have hfree : undecided.deref (.variable ⟨0⟩) = .ok (.variable ⟨0⟩) := rfl
  obtain ⟨hdot, hnumber⟩ :=
    (call_dotNumber_eq_dot_iff hfive hfree (.inr ⟨_, rfl⟩)).2 ⟨0⟩ rfl rfl
  refine ⟨reachable_undecided, hdot, hnumber, ?_, ?_⟩
  · exact (call_dotNumber_eq_dot_iff hfive rfl (.inl ⟨1, rfl⟩)).1.mpr (by simp)
  · exact (call_dotNumber_eq_dot_iff hrecord hfree (.inr ⟨_, rfl⟩)).1.mpr (by simp [Node.isNumber])

end Machine

end Dataflow
