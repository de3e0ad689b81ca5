import Dataflow.Proofs.Alike
import Dataflow.Proofs.Comparison

/-! # Observing values

  Nodes that are alike cannot be told apart: they have the same text at every depth, they are
  determined or not, and comparisons between them have the same answer.
-/

namespace Dataflow

variable {w : World} {a b : View}

/-! ### Features -/

/-- The shapes of two features that stand for each other. -/
theorem FeatureAlike.cases {f f' : Feature} (hf : FeatureAlike w a b f f') :
    (∃ i, f = .int i ∧ f' = .int i) ∨
    (∃ content, f = .literal (.atom ⟨a.table, content⟩) ∧
      f' = .literal (.atom ⟨b.table, content⟩)) ∨
    (∃ x, f = .literal (.bool x) ∧ f' = .literal (.bool x)) ∨
    (f = .literal .unit ∧ f' = .literal .unit) := by
  unfold FeatureAlike at hf
  cases f with
  | int i =>
    cases f' with
    | int j => cases hf; exact .inl ⟨i, rfl, rfl⟩
    | literal l => cases l <;> cases hf
  | literal l =>
    cases f' with
    | int j => cases l <;> cases hf
    | literal l' =>
      cases l with
      | atom x =>
        cases l' with
        | atom y => cases hf; exact .inr (.inl ⟨_, rfl, rfl⟩)
        | bool y => cases hf
        | unit => cases hf
      | bool x =>
        cases l' with
        | atom y => cases hf
        | bool y => cases hf; exact .inr (.inr (.inl ⟨_, rfl, rfl⟩))
        | unit => cases hf
      | unit =>
        cases l' with
        | atom y => cases hf
        | bool y => cases hf
        | unit => exact .inr (.inr (.inr ⟨rfl, rfl⟩))

theorem FeatureAlike.text {f f' : Feature} (hf : FeatureAlike w a b f f') : f.text = f'.text := by
  rcases hf.cases with ⟨i, rfl, rfl⟩ | ⟨content, rfl, rfl⟩ | ⟨x, rfl, rfl⟩ | ⟨rfl, rfl⟩ <;> rfl

theorem FeatureAlike.eq_int {f f' : Feature} (hf : FeatureAlike w a b f f') (k : Int) :
    f = .int k ↔ f' = .int k := by
  rcases hf.cases with ⟨i, rfl, rfl⟩ | ⟨content, rfl, rfl⟩ | ⟨x, rfl, rfl⟩ | ⟨rfl, rfl⟩ <;> simp

/-- Features that stand for each other are ordered in the same way. -/
theorem FeatureAlike.compare {f f' g g' : Feature} (hf : FeatureAlike w a b f f')
    (hg : FeatureAlike w a b g g') : f.compare g = f'.compare g' := by
  rcases hf.cases with ⟨i, rfl, rfl⟩ | ⟨content, rfl, rfl⟩ | ⟨x, rfl, rfl⟩ | ⟨rfl, rfl⟩ <;>
    rcases hg.cases with ⟨j, rfl, rfl⟩ | ⟨content', rfl, rfl⟩ | ⟨y, rfl, rfl⟩ | ⟨rfl, rfl⟩ <;> rfl

theorem featuresAlike_countFrom (k : Int) (n : Nat) :
    List.Forall₂ (FeatureAlike w a b) (countFrom k n) (countFrom k n) := by
  induction n generalizing k with
  | zero => exact .nil
  | succ n ih => exact .cons (.int k) (ih (k + 1))

theorem RecordAlike.width {r r' : Record} (hr : RecordAlike w a b r r') : r.width = r'.width :=
  hr.fields.length_eq

theorem RecordAlike.features {r r' : Record} (hr : RecordAlike w a b r r') :
    List.Forall₂ (FeatureAlike w a b) r.features r'.features := by
  unfold Record.features
  rcases hr.arity with ⟨ha, ha'⟩ | ⟨names, names', ha, ha', hn⟩
  · rw [ha, ha', hr.width]
    exact featuresAlike_countFrom 1 _
  · rw [ha, ha']
    exact hn

/-! ### Texts -/

theorem Matches.leafText {d d' : Node} (hm : Matches w a b d d') : d.leafText = d'.leafText := by
  cases hm <;> rfl

theorem fieldTexts_alike {fs fs' : List Feature} (hf : List.Forall₂ (FeatureAlike w a b) fs fs')
    (k : Int) (ts : List String) : fieldTexts k fs ts = fieldTexts k fs' ts := by
  have hzip : ∀ {fs fs' : List Feature} (ts : List String),
      List.Forall₂ (FeatureAlike w a b) fs fs' →
      List.zipWith (fun name text => Feature.text name ++ ":" ++ text) fs ts =
        List.zipWith (fun name text => Feature.text name ++ ":" ++ text) fs' ts := by
    intro fs fs' ts hf
    induction hf generalizing ts with
    | nil => rfl
    | cons h _ ih =>
      cases ts with
      | nil => rfl
      | cons t ts => rw [List.zipWith_cons_cons, List.zipWith_cons_cons, h.text, ih]
  induction hf generalizing k ts with
  | nil => rfl
  | @cons f f' fs fs' h hrest ih =>
    cases ts with
    | nil => rfl
    | cons t ts =>
      rw [fieldTexts, fieldTexts]
      by_cases hk : f = .int k
      · rw [if_pos hk, if_pos ((h.eq_int k).mp hk), ih]
      · rw [if_neg hk, if_neg fun hk' => hk ((h.eq_int k).mpr hk')]
        exact hzip (t :: ts) (.cons h hrest)

theorem RecordAlike.text {r r' : Record} (hr : RecordAlike w a b r r') (ts : List String) :
    r.text ts = r'.text ts := by
  have hfeature : FeatureAlike w a b (.literal r.label) (.literal r'.label) := hr.label
  have hlabel : r.label.text = r'.label.text := hfeature.text
  unfold Record.text
  rw [hlabel, fieldTexts_alike hr.features]

/-- Records that stand for each other are alike. -/
def World.Faithful (w : World) (a b : View) : Prop :=
  ∀ r r', w.record r r' → ∃ s s', a.heap.record r = .ok s ∧ b.heap.record r' = .ok s' ∧
    RecordAlike w a b s s'

theorem Likeness.faithful (hl : Likeness w a b) : w.Faithful a b := fun _ _ hr => hl.record hr

/-- Nodes that are alike have the same text at every depth. -/
theorem World.Faithful.print (hw : w.Faithful a b) (depth : Nat) {n n' : Node}
    (hn : Alike w a b n n') : a.heap.print depth n = b.heap.print depth n' := by
  apply Agree.eq
  induction depth generalizing n n' with
  | zero =>
    rw [Heap.print, Heap.print]
    exact hn.deref.bind fun d d' _ _ hm => .ok hm.leafText
  | succ depth ih =>
    rw [Heap.print, Heap.print]
    refine hn.deref.bind fun d d' _ _ hm => ?_
    cases hm with
    | record hr =>
      obtain ⟨s, s', hs, hs', hss⟩ := hw _ _ hr
      simp only [hs, hs', ok_bind]
      -- the fields have the same texts, and the records are written with them in the same way
      have hfields := Agree.mapM hss.fields fun x x' hx => ih hx
      refine hfields.bind fun ts ts' _ _ hts => .ok ?_
      rw [List.forall₂_eq_eq_eq] at hts
      rw [hts]
      exact hss.text ts'
    | _ => exact .ok rfl

/-! ### Values -/

theorem Alike.isDetermined {n n' : Node} (hn : Alike w a b n n') :
    a.heap.isDetermined n = b.heap.isDetermined n' := by
  obtain ⟨d, d', hd, hd', hm⟩ := hn
  rw [Heap.isDetermined_eq hd, Heap.isDetermined_eq hd']
  cases hm <;> rfl

/-- Of two related pairs, the first parts are the same exactly if the second parts are. -/
theorem Likeness.cell_eq (hl : Likeness w a b) {u u' v v' : VarRef} (hu : w.cell u u')
    (hv : w.cell v v') : u = v ↔ u' = v' := by
  constructor
  · rintro rfl
    exact hl.cell_left hu hv
  · rintro rfl
    exact hl.cell_right hu hv

theorem Likeness.record_eq (hl : Likeness w a b) {r r' s s' : RecordRef} (hr : w.record r r')
    (hs : w.record s s') : r = s ↔ r' = s' := by
  constructor
  · rintro rfl
    exact hl.record_left hr hs
  · rintro rfl
    exact hl.record_right hr hs

theorem Likeness.sameValue (hl : Likeness w a b) {owner : MachineId} (ha : a.table.owner = owner)
    (hb : b.table.owner = owner) {x x' y y' : Node} (hx : Matches w a b x x')
    (hy : Matches w a b y y') : x.sameValue owner y = x'.sameValue owner y' := by
  cases hx with
  | atom content =>
    cases hy with
    | atom content' =>
      simp only [Node.sameValue, Atom.same, Atom.owner, ha, hb, and_self, ↓reduceIte]
      by_cases hc : content = content' <;> simp [hc]
    | _ => rfl
  | «variable» hv =>
    cases hy with
    | «variable» hu =>
      have he := hl.cell_eq (.inl hv) (.inl hu)
      simp only [Node.sameValue, Except.ok.injEq]
      rw [Bool.eq_iff_iff, beq_iff_eq, beq_iff_eq]
      exact he
    | _ => rfl
  | _ => cases hy <;> rfl

theorem Likeness.sameFeatures (hl : Likeness w a b) {owner : MachineId} (ha : a.table.owner = owner)
    (hb : b.table.owner = owner) {fs fs' gs gs' : List Feature}
    (hf : List.Forall₂ (FeatureAlike w a b) fs fs')
    (hg : List.Forall₂ (FeatureAlike w a b) gs gs') :
    Dataflow.sameFeatures owner fs gs = Dataflow.sameFeatures owner fs' gs' := by
  induction hf generalizing gs gs' with
  | nil => cases hg <;> rfl
  | cons h _ ih =>
    cases hg with
    | nil => rfl
    | cons h' hrest =>
      rw [Dataflow.sameFeatures, Dataflow.sameFeatures, hl.sameValue ha hb h h', ih hrest]

theorem Likeness.sameArity (hl : Likeness w a b) {owner : MachineId} (ha : a.table.owner = owner)
    (hb : b.table.owner = owner) {r r' s s' : Record} (hr : RecordAlike w a b r r')
    (hs : RecordAlike w a b s s') : r.sameArity owner s = r'.sameArity owner s' := by
  unfold Record.sameArity
  rcases hr.arity with ⟨hra, hra'⟩ | ⟨names, names', hra, hra', hn⟩
  · rcases hs.arity with ⟨hsa, hsa'⟩ | ⟨ms, ms', hsa, hsa', hm⟩
    · simp [hra, hra', hsa, hsa', hr.width, hs.width]
    · simp [hra, hra', hsa, hsa']
  · rcases hs.arity with ⟨hsa, hsa'⟩ | ⟨ms, ms', hsa, hsa', hm⟩
    · simp [hra, hra', hsa, hsa']
    · simp only [hra, hra', hsa, hsa', hn.length_eq, hm.length_eq, hl.sameFeatures ha hb hn hm]

/-! ### Comparisons -/

theorem forall₂_zip {α β γ δ : Type} {R : α → β → Prop} {S : γ → δ → Prop} {xs : List α}
    {ys : List β} {us : List γ} {vs : List δ} (hxy : List.Forall₂ R xs ys)
    (huv : List.Forall₂ S us vs) :
    List.Forall₂ (fun p q => R p.1 q.1 ∧ S p.2 q.2) (xs.zip us) (ys.zip vs) := by
  induction hxy generalizing us vs with
  | nil => exact .nil
  | cons hr _ ih =>
    cases huv with
    | nil => exact .nil
    | cons hs huv => exact .cons ⟨hr, hs⟩ (ih huv)

theorem pairs_alike {r r' s s' : Record} (hr : RecordAlike w a b r r')
    (hs : RecordAlike w a b s s') :
    List.Forall₂ (fun p p' => Alike w a b p.1 p'.1 ∧ Alike w a b p.2 p'.2)
      (Heap.pairs r s) (Heap.pairs r' s') := by
  unfold Heap.pairs
  refine List.rel_append ?_ ?_
  · exact List.rel_reverse (forall₂_zip hr.fields hs.fields)
  · exact .cons ⟨.of_value hr.label (Literal.asVariable?_toNode _),
      .of_value hs.label (Literal.asVariable?_toNode _)⟩ .nil

theorem mem_seen_iff (hl : Likeness w a b) {seen seen' : List (RecordRef × RecordRef)}
    (hs : List.Forall₂ (fun p p' => w.record p.1 p'.1 ∧ w.record p.2 p'.2) seen seen')
    {r r' s s' : RecordRef} (hr : w.record r r') (hs' : w.record s s') :
    (r, s) ∈ seen ↔ (r', s') ∈ seen' := by
  induction hs with
  | nil => simp
  | cons hp _ ih =>
    rw [List.mem_cons, List.mem_cons, ih, Prod.mk.injEq, Prod.mk.injEq, hl.record_eq hr hp.1,
      hl.record_eq hs' hp.2]

/-- Comparisons of pairs that are alike agree, as long as they may take up the same number. -/
theorem Likeness.equalPairs (hl : Likeness w a b) {owner : MachineId} (ha : a.table.owner = owner)
    (hb : b.table.owner = owner) {n : Nat} {pending pending' : List (Node × Node)}
    {seen seen' : List (RecordRef × RecordRef)}
    (hp : List.Forall₂ (fun p p' => Alike w a b p.1 p'.1 ∧ Alike w a b p.2 p'.2) pending pending')
    (hs : List.Forall₂ (fun p p' => w.record p.1 p'.1 ∧ w.record p.2 p'.2) seen seen') :
    a.heap.equalPairs owner n pending seen = b.heap.equalPairs owner n pending' seen' := by
  -- both comparisons take the same pairs from their lists in step; the induction is on their bound
  apply Agree.eq
  induction n generalizing pending pending' seen seen' with
  | zero =>
    cases hp with
    | nil => exact .ok rfl
    | cons _ _ => exact .error _
  | succ n ih =>
    cases hp with
    | nil => exact .ok rfl
    | @cons p p' pending pending' hpair hp =>
      obtain ⟨left, right⟩ := p
      obtain ⟨left', right'⟩ := p'
      rw [Heap.equalPairs, Heap.equalPairs]
      refine hpair.1.deref.bind fun x x' _ _ hx => ?_
      refine hpair.2.deref.bind fun y y' _ _ hy => ?_
      -- values other than records are compared at once
      have hvalue : Agree (· = ·)
          (x.sameValue owner y >>= fun same =>
            if same then a.heap.equalPairs owner n pending seen else pure false)
          (x'.sameValue owner y' >>= fun same =>
            if same then b.heap.equalPairs owner n pending' seen' else pure false) := by
        refine (Agree.of_eq (hl.sameValue ha hb hx hy)).bind fun same same' _ _ he => ?_
        subst he
        cases same with
        | true => exact ih hp hs
        | false => exact .ok rfl
      cases hx with
      | @record r r' hr =>
        cases hy with
        | @record s s' hr' =>
          obtain ⟨p, p', hrp, hrp', hpp⟩ := hl.record hr
          obtain ⟨q, q', hsq, hsq', hqq⟩ := hl.record hr'
          -- two records, which both sides have seen, or neither
          have hseen : (r = s ∨ (r, s) ∈ seen) ↔ (r' = s' ∨ (r', s') ∈ seen') := by
            rw [hl.record_eq hr hr', mem_seen_iff hl hs hr hr']
          by_cases hknown : r = s ∨ (r, s) ∈ seen
          · simp only [if_pos hknown, if_pos (hseen.mp hknown)]
            exact ih hp hs
          · simp only [if_neg hknown, if_neg fun h => hknown (hseen.mpr h), hrp, hrp', hsq, hsq',
              ok_bind, hl.sameArity ha hb hpp hqq]
            refine (Agree.of_eq rfl).bind fun same same' _ _ he => ?_
            subst he
            cases same with
            | true => exact ih (List.rel_append (pairs_alike hpp hqq) hp) (.cons ⟨hr, hr'⟩ hs)
            | false => exact .ok rfl
        | _ => exact hvalue
      | _ => cases hy <;> exact hvalue

/-- Nodes that are alike compare in the same way. -/
theorem Likeness.equals (hl : Likeness w a b) (hga : a.heap.Grounded) (hgb : b.heap.Grounded)
    {owner : MachineId} (ha : a.table.owner = owner) (hb : b.table.owner = owner)
    {x x' y y' : Node} (hx : Alike w a b x x') (hy : Alike w a b y y') :
    a.heap.equals owner x y = b.heap.equals owner x' y' := by
  -- neither comparison is stopped by its bound, so both may take up as many pairs as one likes
  have hleft : a.heap.equals owner x y ≠ .error .endless := Heap.equals_ne_endless hga x y
  have hright : b.heap.equals owner x' y' ≠ .error .endless := Heap.equals_ne_endless hgb x' y'
  unfold Heap.equals at hleft hright ⊢
  rw [← Heap.equalPairs_add hleft b.heap.pairBound, ← Heap.equalPairs_add hright a.heap.pairBound,
    Nat.add_comm]
  exact hl.equalPairs ha hb (.cons ⟨hx, hy⟩ .nil) .nil

end Dataflow
