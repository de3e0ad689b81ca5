import Dataflow.Proofs.Interning
import Dataflow.Proofs.Syntax
import Mathlib.Order.Bounds.Defs

/-! # Printed values can be told apart

  A value is *ground* if it does not contain itself, if none of its variables is unbound and if it
  has no floats. Its records nest to some finite height. Printed at least that deep, a ground
  value is written out as a tree, whose text determines it: equal values have the same tree, and
  values with the same tree are equal, if atoms of the same content are the same atom.

  That last condition is not for nothing. Atoms belong to the table that made them, and a
  collection replaces the table. An atom that a host has kept aside in the meantime still belongs
  to the machine and prints as before, but it is not equal to the atom that the machine now makes
  of its content.

  Main statement: the texts of two ground values of a reachable machine are the same exactly if the
  machine finds the values equal, as far as equal contents are the same atom; and a host that passes
  back what it has received since the last collection never sees anything else.
-/

open Relation (ReflTransGen TransGen)

namespace Dataflow

theorem mapM_of_forall₂ {α β : Type} {f : α → Except Fault β} {xs : List α} {ys : List β}
    (h : List.Forall₂ (fun x y => f x = .ok y) xs ys) : xs.mapM f = .ok ys := by
  induction h with
  | nil => rfl
  | cons hx _ ih => simp [hx, ih, pure, Except.pure]

namespace Heap

variable {h : Heap} {owner : MachineId} {n : Node}

/-! ### Ground values -/

/-- A value that is finite, without unbound variables and floats, and made of atoms of the machine
    `owner`. -/
structure Ground (h : Heap) (owner : MachineId) (n : Node) : Prop where
  /-- Its references lie in the heap, and its atoms belong to the machine. -/
  sound : h.Sound owner n
  /-- Nothing in it contains itself. -/
  acyclic : ∀ x, h.Holds n x → ¬TransGen h.Leads x x
  /-- Its variables are bound. -/
  determined : ∀ v ls, h.Holds n (.variable v) → h.cell v ≠ .ok (.unbound ls)
  /-- It has no floats. -/
  floatFree : ∀ x, ¬h.Holds n (.float x)

theorem Ground.of_holds {x : Node} (hn : h.Ground owner n) (hx : h.Holds n x) :
    h.Ground owner x where
  sound := hn.sound.of_holds hx
  acyclic y hy := hn.acyclic y (hx.trans hy)
  determined v ls hv := hn.determined v ls (hx.trans hv)
  floatFree y hy := hn.floatFree y (hx.trans hy)

theorem holds_field {ref : RecordRef} {r : Record} {x : Node} (hd : h.deref n = .ok (.record ref))
    (hr : h.record ref = .ok r) (hx : x ∈ r.fields) : h.Holds n x :=
  (holds_deref hd).tail (.inl ⟨ref, r, rfl, hr, field_mem_edges hx⟩)

/-- A ground value stands for a simple value that could be a feature, or for a record of ground
    values. -/
theorem Ground.deref_cases (hg : h.Grounded) (hn : h.Ground owner n) :
    (∃ f : Feature, h.deref n = .ok f.toNode) ∨
    ∃ ref r, h.deref n = .ok (.record ref) ∧ h.record ref = .ok r ∧
      ∀ x ∈ r.fields, h.Ground owner x := by
  obtain ⟨d, hd, hsound⟩ := hn.sound.deref hg
  cases d with
  | atom a => exact .inl ⟨.literal (.atom a), hd⟩
  | int i => exact .inl ⟨.int i, hd⟩
  | float x => exact absurd (holds_deref hd) (hn.floatFree x)
  | bool b => exact .inl ⟨.literal (.bool b), hd⟩
  | unit => exact .inl ⟨.literal .unit, hd⟩
  | record ref =>
    obtain ⟨r, hr, -⟩ := hsound.record
    exact .inr ⟨ref, r, hd, hr, fun x hx => hn.of_holds (holds_field hd hr hx)⟩
  | «variable» v =>
    obtain ⟨ls, hc⟩ := cell_of_deref hd
    exact absurd hc (hn.determined v ls (holds_deref hd))

/-! ### Nesting -/

/-- Records nest at most `k` deep in the value. -/
def NestsWithin (h : Heap) : Nat → Node → Prop
  | 0, n => ∀ ref, h.deref n ≠ .ok (.record ref)
  | k + 1, n => ∀ ref r, h.deref n = .ok (.record ref) → h.record ref = .ok r →
      ∀ x ∈ r.fields, h.NestsWithin k x

theorem NestsWithin.succ {k : Nat} (hk : h.NestsWithin k n) : h.NestsWithin (k + 1) n := by
  induction k generalizing n with
  | zero =>
    intro ref r hd
    exact absurd hd (hk ref)
  | succ k ih =>
    intro ref r hd hr x hx
    exact ih (hk ref r hd hr x hx)

theorem NestsWithin.mono {j k : Nat} (hj : h.NestsWithin j n) (hjk : j ≤ k) :
    h.NestsWithin k n := by
  induction hjk with
  | refl => exact hj
  | step _ ih => exact ih.succ

theorem nestsWithin_of_feature {f : Feature} (hd : h.deref n = .ok f.toNode) (k : Nat) :
    h.NestsWithin k n := by
  have hzero : h.NestsWithin 0 n := by
    intro ref hrecord
    rw [hd] at hrecord
    cases f with
    | int i => cases hrecord
    | literal l => cases l <;> cases hrecord
  exact hzero.mono (Nat.zero_le k)

theorem nestsWithin_record_iff {ref : RecordRef} {r : Record} (hd : h.deref n = .ok (.record ref))
    (hr : h.record ref = .ok r) (k : Nat) :
    h.NestsWithin (k + 1) n ↔ ∀ x ∈ r.fields, h.NestsWithin k x := by
  constructor
  · intro hk
    exact hk ref r hd hr
  · intro hall ref' r' hd' hr'
    rw [hd] at hd'
    cases hd'
    rw [hr] at hr'
    cases hr'
    exact hall

/-- A field of the first record stands for the second. -/
def Into (h : Heap) (a b : RecordRef) : Prop :=
  ∃ r x, h.record a = .ok r ∧ x ∈ r.fields ∧ h.deref x = .ok (.record b)

theorem Into.leads {a b : RecordRef} (hab : h.Into a b) :
    TransGen h.Leads (.record a) (.record b) := by
  obtain ⟨r, x, hr, hx, hd⟩ := hab
  exact TransGen.head' (.inl ⟨a, r, rfl, hr, field_mem_edges hx⟩) (holds_deref hd)

/-- Where the records of a ground value nest deeper than `k`, there is a chain of them. -/
theorem Ground.chain_of_nests (hg : h.Grounded) {k : Nat} (hn : h.Ground owner n)
    (hk : ¬h.NestsWithin k n) : ∃ a chain, h.deref n = .ok (.record a) ∧
      List.IsChain h.Into (a :: chain) ∧ chain.length = k ∧ ∀ c ∈ a :: chain, c ∈ h.allRecords := by
  induction k generalizing n with
  | zero =>
    rcases hn.deref_cases hg with ⟨f, hd⟩ | ⟨ref, r, hd, hr, -⟩
    · exact absurd (nestsWithin_of_feature hd 0) hk
    · refine ⟨ref, [], hd, .singleton ref, rfl, fun c hc => ?_⟩
      rw [List.mem_singleton.mp hc]
      exact mem_allRecords hr
  | succ k ih =>
    rcases hn.deref_cases hg with ⟨f, hd⟩ | ⟨ref, r, hd, hr, hfields⟩
    · exact absurd (nestsWithin_of_feature hd (k + 1)) hk
    · rw [nestsWithin_record_iff hd hr] at hk
      push Not at hk
      obtain ⟨x, hx, hdeep⟩ := hk
      obtain ⟨b, chain, hb, hchain, hlen, hin⟩ := ih (hfields x hx) hdeep
      refine ⟨ref, b :: chain, hd, List.isChain_cons_cons.mpr ⟨⟨r, x, hr, hx, hb⟩, hchain⟩,
        by simp [hlen], fun c hc => ?_⟩
      rcases List.mem_cons.mp hc with rfl | hc
      · exact mem_allRecords hr
      · exact hin c hc

/-- The records of a ground value nest at most as deep as there are records. -/
theorem Ground.nests (hg : h.Grounded) (hn : h.Ground owner n) : h.NestsWithin h.recordCount n := by
  by_contra hdeep
  obtain ⟨a, chain, ha, hchain, hlen, hin⟩ := hn.chain_of_nests hg hdeep
  -- the chain is longer than there are records, so one of them comes twice
  have hnd : ¬(a :: chain).Nodup := by
    intro hnd
    have hle := hnd.length_le_of_subset hin
    simp only [List.length_cons, hlen, allRecords, List.length_map, List.length_range] at hle
    omega
  obtain ⟨b, hab, hb⟩ := circle_of_chain hchain hnd
  have hholds : h.Holds (.record a) (.record b) :=
    ReflTransGen.lift' Node.record (fun _ _ hcd => (Into.leads hcd).to_reflTransGen) a b hab
  have hcircle : TransGen h.Leads (.record b) (.record b) :=
    TransGen.lift' Node.record (fun _ _ hcd => Into.leads hcd) b b hb
  exact hn.acyclic _ ((holds_deref ha).trans hholds) hcircle

/-! ### Spelling -/

/-- The node stands for the simple value that the tree spells. -/
def SpellsLeaf (h : Heap) (n : Node) (t : Tree) : Prop :=
  ∃ f : Feature, h.deref n = .ok f.toNode ∧ t = .leaf f.token

/-- The node stands for the value that the tree spells, and records nest at most `k` deep in it. -/
def Spells (h : Heap) : Nat → Node → Tree → Prop
  | 0, n, t => h.SpellsLeaf n t
  | k + 1, n, t => h.SpellsLeaf n t ∨
      ∃ ref r ts, h.deref n = .ok (.record ref) ∧ h.record ref = .ok r ∧
        List.Forall₂ (h.Spells k) r.fields ts ∧
        t = .record r.label.token (written 1 (r.features.zip ts))

theorem SpellsLeaf.spells {t : Tree} (hs : h.SpellsLeaf n t) (k : Nat) : h.Spells k n t := by
  cases k with
  | zero => exact hs
  | succ k => exact .inl hs

theorem Spells.cases {k : Nat} {t : Tree} (hs : h.Spells k n t) : h.SpellsLeaf n t ∨
    ∃ j ref r ts, k = j + 1 ∧ h.deref n = .ok (.record ref) ∧ h.record ref = .ok r ∧
      List.Forall₂ (h.Spells j) r.fields ts ∧
      t = .record r.label.token (written 1 (r.features.zip ts)) := by
  cases k with
  | zero => exact .inl hs
  | succ k =>
    rcases hs with hs | ⟨ref, r, ts, hd, hr, hts, ht⟩
    · exact .inl hs
    · exact .inr ⟨k, ref, r, ts, rfl, hd, hr, hts, ht⟩

theorem Spells.succ {k : Nat} {t : Tree} (hs : h.Spells k n t) : h.Spells (k + 1) n t := by
  induction k generalizing n t with
  | zero => exact .inl hs
  | succ k ih =>
    rcases hs with hs | ⟨ref, r, ts, hd, hr, hts, ht⟩
    · exact .inl hs
    · exact .inr ⟨ref, r, ts, hd, hr, hts.imp fun _ _ => ih, ht⟩

theorem Spells.mono {j k : Nat} {t : Tree} (hs : h.Spells j n t) (hjk : j ≤ k) :
    h.Spells k n t := by
  induction hjk with
  | refl => exact hs
  | step _ ih => exact ih.succ

/-- A ground value can be spelled. -/
theorem Ground.spells (hg : h.Grounded) {k : Nat} (hn : h.Ground owner n) (hk : h.NestsWithin k n) :
    ∃ t, h.Spells k n t := by
  induction k generalizing n with
  | zero =>
    rcases hn.deref_cases hg with ⟨f, hd⟩ | ⟨ref, r, hd, -, -⟩
    · exact ⟨_, f, hd, rfl⟩
    · exact absurd hd (hk ref)
  | succ k ih =>
    rcases hn.deref_cases hg with ⟨f, hd⟩ | ⟨ref, r, hd, hr, hfields⟩
    · exact ⟨_, .inl ⟨f, hd, rfl⟩⟩
    · have hall : ∀ x ∈ r.fields, ∃ t, h.Spells k x t :=
        fun x hx => ih (hfields x hx) ((nestsWithin_record_iff hd hr k).mp hk x hx)
      choose! tree htree using hall
      have hts : List.Forall₂ (h.Spells k) r.fields (r.fields.map tree) :=
        List.forall₂_map_right_iff.mpr (List.forall₂_same.mpr htree)
      exact ⟨_, .inr ⟨ref, r, _, hd, hr, hts, rfl⟩⟩

/-- The text of a record whose fields are spelled. -/
theorem record_text_spelled (r : Record) (ts : List Tree) :
    r.text (ts.map fun t => String.ofList t.chars) =
      String.ofList (Tree.record r.label.token (written 1 (r.features.zip ts))).chars := by
  have hzip : r.features.zip (ts.map fun t => String.ofList t.chars) =
      (r.features.zip ts).map (Prod.map id fun t => String.ofList t.chars) := by
    rw [List.zip_map_right]
  rw [← String.toList_inj, String.toList_ofList, Record.text_toList, hzip, written_map, Tree.chars,
    fieldsChars_eq_joined, List.map_map]
  congr 4
  funext ⟨name, t⟩
  simp [Prod.map]

theorem print_feature {f : Feature} (hd : h.deref n = .ok f.toNode) (depth : Nat) :
    h.print depth n = .ok f.token.text := by
  have hleaf : f.toNode.asRecord? = none := by
    cases f with
    | int i => rfl
    | literal l => cases l <;> rfl
  rw [print_value hd hleaf, Node.leafText_of_asFeature? (Feature.asFeature?_toNode f)]

/-- A value is printed as it is spelled, if the depth suffices. -/
theorem Spells.print {k : Nat} {t : Tree} (hs : h.Spells k n t) {depth : Nat} (hk : k ≤ depth) :
    h.print depth n = .ok (String.ofList t.chars) := by
  induction depth generalizing k n t with
  | zero =>
    obtain rfl : k = 0 := by omega
    obtain ⟨f, hd, rfl⟩ := hs
    rw [print_feature hd, Tree.chars, Token.chars, String.ofList_toList]
  | succ depth ih =>
    rcases hs.cases with ⟨f, hd, rfl⟩ | ⟨j, ref, r, ts, rfl, hd, hr, hts, rfl⟩
    · rw [print_feature hd, Tree.chars, Token.chars, String.ofList_toList]
    · have htexts :
          r.fields.mapM (h.print depth) = .ok (ts.map fun t => String.ofList t.chars) := by
        refine mapM_of_forall₂ (List.forall₂_map_right_iff.mpr (hts.imp fun x t hx => ?_))
        exact ih hx (by omega)
      rw [print_record hd hr, htexts, ok_bind, record_text_spelled]

/-! ### Elisions -/

/-- A ground value is printed at every depth, and a comma stands outside of quotes exactly if its
    records nest deeper. -/
theorem Ground.print_elides_iff (hg : h.Grounded) (hbal : h.Balanced) (hn : h.Ground owner n)
    (depth : Nat) : ∃ text, h.print depth n = .ok text ∧ QuotesClosed text.toList ∧
      (',' ∈ outside text.toList ↔ ¬h.NestsWithin depth n) := by
  induction depth generalizing n with
  | zero =>
    rcases hn.deref_cases hg with ⟨f, hd⟩ | ⟨ref, r, hd, -, -⟩
    · have hflat := nestsWithin_of_feature hd 0
      refine ⟨_, print_feature hd 0, f.token.closed_chars, ?_⟩
      exact ⟨fun hcomma => absurd hcomma f.token.comma_outside, fun hdeep => absurd hflat hdeep⟩
    · have hdeep : ¬h.NestsWithin 0 n := fun hflat => hflat ref hd
      have hcomma : ',' ∈ outside elision.toList := by decide
      exact ⟨elision, print_zero hd, closed_plain (by decide), fun _ => hdeep, fun _ => hcomma⟩
  | succ depth ih =>
    rcases hn.deref_cases hg with ⟨f, hd⟩ | ⟨ref, r, hd, hr, hfields⟩
    · have hflat := nestsWithin_of_feature hd (depth + 1)
      refine ⟨_, print_feature hd _, f.token.closed_chars, ?_⟩
      exact ⟨fun hcomma => absurd hcomma f.token.comma_outside, fun hdeep => absurd hflat hdeep⟩
    · have hall := fun x hx => ih (hfields x hx)
      choose! text hprint hclosed hiff using hall
      have htexts : r.fields.mapM (h.print depth) = .ok (r.fields.map text) := mapM_ok hprint
      have hlen : r.features.length = (r.fields.map text).length := by
        rw [List.length_map]
        exact hbal hr
      have hvalues : ∀ field ∈ (written 1 (r.features.zip (r.fields.map text))).map
          (Prod.map id String.toList), QuotesClosed field.2 := by
        intro field hfield
        obtain ⟨e, he, rfl⟩ := List.mem_map.mp hfield
        obtain ⟨shown, hshown, hsame⟩ := (exists_written_iff hlen (· = e.2)).mp ⟨e, he, rfl⟩
        obtain ⟨x, hx, rfl⟩ := List.mem_map.mp hshown
        rw [Prod.map_snd, ← hsame]
        exact hclosed x hx
      -- quotes are closed in each field, so a comma outside of them is outside those of its field
      obtain ⟨hrecord, hcomma⟩ := closed_record r.label.token hvalues
      refine ⟨r.text (r.fields.map text), by rw [print_record hd hr, htexts, ok_bind], ?_⟩
      rw [Record.text_toList]
      refine ⟨hrecord, hcomma.trans ?_⟩
      rw [nestsWithin_record_iff hd hr, not_forall]
      calc (∃ field ∈ (written 1 (r.features.zip (r.fields.map text))).map
              (Prod.map id String.toList), ',' ∈ outside field.2)
          ↔ ∃ field ∈ written 1 (r.features.zip (r.fields.map text)),
              ',' ∈ outside field.2.toList := by
            simp
        _ ↔ ∃ shown ∈ r.fields.map text, ',' ∈ outside shown.toList :=
            exists_written_iff hlen fun shown => ',' ∈ outside shown.toList
        _ ↔ ∃ x, ¬(x ∈ r.fields → h.NestsWithin depth x) := by
            simp only [List.mem_map, exists_exists_and_eq_and, Classical.not_imp]
            exact exists_congr fun x => and_congr_right fun hx => hiff x hx

/-! ### Values with the same tree -/

/-- Atoms of the two values that have the same content are the same atom. -/
def ShareAtoms (h : Heap) (left right : Node) : Prop :=
  ∀ a b, h.Holds left (.atom a) → h.Holds right (.atom b) → a.content = b.content → a = b

/-- Features with the same token are the same, if atoms with the same content are. -/
theorem feature_eq_of_token {f g : Feature} (ht : f.token = g.token)
    (ha : ∀ a b, f.toNode = .atom a → g.toNode = .atom b → a.content = b.content → a = b) :
    f = g := by
  have hliteral : ∀ l l' : Literal, l.token = l'.token →
      (∀ a b, l.toNode = .atom a → l'.toNode = .atom b → a.content = b.content → a = b) →
      l = l' := by
    intro l l' ht ha
    cases l with
    | atom a =>
      cases l' with
      | atom b =>
        have hcontent : a.content = b.content := Token.atom.inj ht
        rw [ha a b rfl rfl hcontent]
      | _ => cases ht
    | bool b =>
      cases l' with
      | bool b' => rw [Token.bool.inj ht]
      | _ => cases ht
    | unit =>
      cases l' with
      | unit => rfl
      | _ => cases ht
  cases f with
  | int i =>
    cases g with
    | int j => rw [Token.int.inj ht]
    | literal l => cases l <;> cases ht
  | literal l =>
    cases g with
    | int j => cases l <;> cases ht
    | literal l' => rw [hliteral l l' ht ha]

theorem features_eq_of_tokens {fs gs : List Feature}
    (ht : fs.map Feature.token = gs.map Feature.token)
    (ha : ∀ f ∈ fs, ∀ g ∈ gs, ∀ a b, f.toNode = .atom a → g.toNode = .atom b →
      a.content = b.content → a = b) : fs = gs := by
  induction fs generalizing gs with
  | nil =>
    cases gs with
    | nil => rfl
    | cons g gs => cases ht
  | cons f fs ih =>
    cases gs with
    | nil => cases ht
    | cons g gs =>
      obtain ⟨hfirst, hrest⟩ := List.cons.inj ht
      have hfg := feature_eq_of_token hfirst (ha f List.mem_cons_self g List.mem_cons_self)
      have hrest' := ih hrest fun f hf g hg =>
        ha f (List.mem_cons_of_mem _ hf) g (List.mem_cons_of_mem _ hg)
      rw [hfg, hrest']

/-- A record holds the atoms among its features. -/
theorem holds_feature {ref : RecordRef} {r : Record} (hr : h.record ref = .ok r) {f : Feature}
    (hf : f ∈ r.features) {a : Atom} (ha : f.toNode = .atom a) :
    h.Holds (.record ref) (.atom a) := by
  rw [← ha]
  unfold Record.features at hf
  cases harity : r.arity with
  | tuple =>
    rw [harity] at hf
    obtain ⟨i, -, rfl⟩ := Feature.mem_countFrom hf
    cases ha
  | features names =>
    rw [harity] at hf
    exact .single (.inl ⟨ref, r, rfl, hr, feature_mem_edges harity hf⟩)

theorem deref_label (l : Literal) : h.deref l.toNode = .ok l.toNode :=
  deref_of_value (by cases l <;> rfl)

theorem spells_label (l : Literal) (k : Nat) : h.Spells k l.toNode (.leaf l.token) :=
  SpellsLeaf.spells ⟨.literal l, deref_label l, rfl⟩ k

/-- The nodes are found in the two values and spelled by the same tree. -/
def SpelledAlike (h : Heap) (left right x y : Node) : Prop :=
  ∃ k t, (h.Spells k x t ∧ h.Holds left x) ∧ h.Spells k y t ∧ h.Holds right y

/-- Being spelled alike is a bisimulation. -/
theorem bisimulation_spelledAlike (hcanon : h.Canonical) {left right : Node}
    (hshare : h.ShareAtoms left right) : h.Bisimulation (h.SpelledAlike left right) := by
  rintro x y ⟨k, t, ⟨hx, hlx⟩, hy, hry⟩
  rcases hx.cases with ⟨f, hd, rfl⟩ | ⟨j, a, r, ts, rfl, hd, hr, hts, rfl⟩
  · rcases hy.cases with ⟨g, hd', ht⟩ | ⟨_, _, _, _, _, _, _, _, ht⟩
    · have hfg : f = g := by
        refine feature_eq_of_token (Tree.leaf.inj ht) fun a b ha hb => hshare a b ?_ ?_
        · exact ha ▸ hlx.trans (holds_deref hd)
        · exact hb ▸ hry.trans (holds_deref hd')
      exact ⟨_, _, hd, hd', .value (Feature.same_toNode_iff.mpr hfg)⟩
    · cases ht
  · rcases hy.cases with ⟨_, _, ht⟩ | ⟨j', b, s, us, hj, hd', hs, hus, ht⟩
    · cases ht
    · obtain rfl : j = j' := by omega
      have hla : h.Holds left (.record a) := hlx.trans (holds_deref hd)
      have hrb : h.Holds right (.record b) := hry.trans (holds_deref hd')
      obtain ⟨hlabel, hwritten⟩ := Tree.record.inj ht
      -- the names that are left out follow from the positions
      obtain ⟨htokens, rfl⟩ := written_zip_inj ((hcanon hr).balanced.trans hts.length_eq)
        ((hcanon hs).balanced.trans hus.length_eq) hwritten
      have hfeatures : r.features = s.features := by
        refine features_eq_of_tokens htokens fun f hf g hg c d hc hd => hshare c d ?_ ?_
        · exact hla.trans (holds_feature hr hf hc)
        · exact hrb.trans (holds_feature hs hg hd)
      obtain ⟨harity, -⟩ := ((hcanon hr).arity_eq_iff (hcanon hs)).mpr hfeatures
      have hleft : List.Forall₂ (fun x t => h.Spells j x t ∧ h.Holds left x) r.fields ts :=
        forall₂_imp_left hts fun x hx t hs => ⟨hs, hlx.trans (holds_field hd hr hx)⟩
      have hright : List.Forall₂ (fun t y => h.Spells j y t ∧ h.Holds right y) ts s.fields :=
        (forall₂_imp_left hus fun y hy t hs' => ⟨hs', hry.trans (holds_field hd' hs hy)⟩).flip
      refine ⟨_, _, hd, hd', .records hr hs harity ?_ ?_⟩
      · refine ⟨j, .leaf r.label.token, ⟨spells_label _ j, ?_⟩, hlabel ▸ spells_label _ j, ?_⟩
        · exact hla.tail (.inl ⟨a, r, rfl, hr, label_mem_edges r⟩)
        · exact hrb.tail (.inl ⟨b, s, rfl, hs, label_mem_edges s⟩)
      · exact forall₂_trans hleft hright fun x t y hx hy => ⟨j, t, hx, hy⟩

/-- What is equal to a simple value stands for that value. -/
theorem deref_of_bisimilar {x y : Node} {f : Feature} (hd : h.deref x = .ok f.toNode)
    (hxy : h.Bisimilar x y) : h.deref y = .ok f.toNode := by
  obtain ⟨d, e, hdx, hdy, hc⟩ := hxy.dest
  rw [hd] at hdx
  have hsame : f.toNode.Same e := by
    cases f with
    | int i => cases hdx; cases hc with | value hs => exact hs
    | literal l => cases l <;> cases hdx <;> cases hc with | value hs => exact hs
  cases f with
  | int i => cases hsame; exact hdy
  | literal l => cases l <;> cases hsame <;> exact hdy

/-- What is equal to a value that can be spelled is spelled in the same way. -/
theorem Spells.of_bisimilar (hcanon : h.Canonical) {k : Nat} {x y : Node} {t : Tree}
    (hx : h.Spells k x t) (hxy : h.Bisimilar x y) : h.Spells k y t := by
  -- on the depth of the tree: bisimilar records have one label and one arity, and their fields are
  -- bisimilar
  induction k generalizing x y t with
  | zero =>
    obtain ⟨f, hd, rfl⟩ := hx
    exact ⟨f, deref_of_bisimilar hd hxy, rfl⟩
  | succ k ih =>
    rcases hx with ⟨f, hd, rfl⟩ | ⟨a, r, ts, hd, hr, hts, rfl⟩
    · exact .inl ⟨f, deref_of_bisimilar hd hxy, rfl⟩
    · obtain ⟨d, e, hdx, hdy, hc⟩ := hxy.dest
      rw [hd] at hdx
      cases hdx
      cases hc with
      | value hsame => cases hsame
      | itself ref => exact .inr ⟨a, r, ts, hdy, hr, hts, rfl⟩
      | @records _ b _ s ha hb harity hlabel hfields =>
        rw [hr] at ha
        cases ha
        have hlen := hfields.length_eq
        have hfeatures := ((hcanon hr).arity_eq_iff (hcanon hb)).mp ⟨harity, hlen⟩
        have hus : List.Forall₂ (h.Spells k) s.fields ts :=
          forall₂_trans hfields.flip hts fun _ _ _ hb hs => ih hs hb
        have hsame : r.label = s.label := by
          have hd' : h.deref s.label.toNode = .ok r.label.toNode :=
            deref_of_bisimilar (f := .literal r.label) (deref_label r.label) hlabel
          rw [deref_label] at hd'
          exact Literal.toNode_injective (Except.ok.inj hd').symm
        exact .inr ⟨b, s, ts, hdy, hb, hus, by rw [hsame, hfeatures]⟩

/-! ### Ground values of a heap without circles -/

/-- A value is ground if all variables of its heap are bound, nothing there is a float, and each
    record and each variable ranks above all that it leads to. -/
theorem ground_of_rank (rank : Node → Nat) (values : List Node)
    (hcells : h.cells.toList = values.map Cell.bound)
    (hvalues : ∀ p ∈ values.zipIdx,
      h.Fits owner p.1 ∧ p.1.kind ≠ .float ∧ rank p.1 < rank (.variable ⟨p.2⟩))
    (hrecords : ∀ p ∈ h.records.toList.zipIdx, ∀ x ∈ p.1.edges,
      h.Fits owner x ∧ x.kind ≠ .float ∧ rank x < rank (.record ⟨p.2⟩))
    (hn : h.Fits owner n) (hfloat : n.kind ≠ .float) : h.Ground owner n := by
  -- every step from a node to a part goes down in rank, so there is no circle
  have hbound : ∀ {v : VarRef} {c : Cell}, h.cell v = .ok c →
      ∃ x, c = .bound x ∧ (x, v.index) ∈ values.zipIdx := by
    intro v c hc
    have hget := cell_eq_ok_iff.mp hc
    rw [← Array.getElem?_toList, hcells, List.getElem?_map, Option.map_eq_some_iff] at hget
    obtain ⟨x, hx, rfl⟩ := hget
    exact ⟨x, rfl, List.mem_zipIdx_iff_getElem?.mpr hx⟩
  have hleads : ∀ {x y : Node}, h.Leads x y →
      h.Fits owner y ∧ y.kind ≠ .float ∧ rank y < rank x := by
    rintro x y (⟨ref, r, rfl, hr, hy⟩ | ⟨v, rfl, hc⟩)
    · have hmem : (r, ref.index) ∈ h.records.toList.zipIdx := by
        rw [List.mem_zipIdx_iff_getElem?, Array.getElem?_toList]
        exact record_eq_ok_iff.mp hr
      exact hrecords _ hmem y hy
    · obtain ⟨z, hz, hmem⟩ := hbound hc
      cases hz
      exact hvalues _ hmem
  have hholds : ∀ {x : Node}, h.Holds n x → h.Fits owner x ∧ x.kind ≠ .float := by
    intro x hx
    unfold Holds at hx
    induction hx with
    | refl => exact ⟨hn, hfloat⟩
    | tail _ hstep _ => exact ⟨(hleads hstep).1, (hleads hstep).2.1⟩
  have hrank : ∀ {x y : Node}, TransGen h.Leads x y → rank y < rank x := by
    intro x y hxy
    induction hxy with
    | single hstep => exact (hleads hstep).2.2
    | tail _ hstep ih => exact (hleads hstep).2.2.trans ih
  refine ⟨fun x hx => (hholds hx).1, fun x _ hcircle => absurd (hrank hcircle) (Nat.lt_irrefl _),
    ?_, ?_⟩
  · intro v ls _ hc
    obtain ⟨x, hx, -⟩ := hbound hc
    cases hx
  · intro x hx
    exact (hholds hx).2 rfl

end Heap

namespace Machine

variable {m : Machine} {left right : Node}

/-- The value nests to the height, and the text is what it prints to from that depth on. Above it a
    comma outside of quotes shows that something was elided, and from it on there is none. -/
structure WrittenOut (m : Machine) (n : Node) (height : Nat) (text : String) : Prop where
  /-- The height is the least depth within which the records nest. -/
  least : IsLeast {k | m.heap.NestsWithin k n} height
  /-- The text does not depend on the depth any more. -/
  settled : ∀ depth, height ≤ depth → m.print n depth = .ok text
  /-- There are elisions exactly above the height. -/
  elided : ∀ depth, ∃ shown, m.print n depth = .ok shown ∧
    (',' ∈ outside shown.toList ↔ depth < height)

/-- A ground value is written out at some height, as it is spelled. -/
theorem Reachable.writtenOut (hm : Reachable m) {n : Node} (hn : m.heap.Ground m.id n) :
    ∃ height t, m.heap.Spells height n t ∧ m.WrittenOut n height (String.ofList t.chars) := by
  have hg : m.heap.Grounded := hm.waits.grounded
  have hsome : ∃ k, m.heap.NestsWithin k n := ⟨_, hn.nests hg⟩
  classical
  obtain ⟨t, ht⟩ := hn.spells hg (Nat.find_spec hsome)
  refine ⟨Nat.find hsome, t, ht, ⟨Nat.find_spec hsome, fun k hk => Nat.find_min' hsome hk⟩,
    fun depth hdepth => ht.print hdepth, fun depth => ?_⟩
  obtain ⟨shown, hprint, -, hiff⟩ := hn.print_elides_iff hg hm.waits.balanced depth
  refine ⟨shown, hprint, hiff.trans ?_⟩
  constructor
  · intro hdeep
    by_contra hle
    exact hdeep ((Nat.find_spec hsome).mono (Nat.le_of_not_lt hle))
  · exact Nat.find_min hsome

/-- What an honest host holds shares its atoms. -/
theorem Honest.shareAtoms {held : List Node} (hm : Honest m held) (hl : MayPass held left)
    (hr : MayPass held right) : m.heap.ShareAtoms left right := by
  obtain ⟨known, hledger⟩ := hm.ledger
  have hb := hledger.reconciled
  intro a c ha hc hcontent
  have hfirst := hb.stocked.listed_holds (hb.mayPass hl) ha a rfl
  have hsecond := hb.stocked.listed_holds (hb.mayPass hr) hc c rfl
  rw [hcontent, hsecond] at hfirst
  exact (Option.some.inj hfirst).symm

/-- Each of two ground values of a reachable machine has a text, to which it prints from its height
    on and which shows no elision. Values that the machine finds equal have the same text. Values
    with the same text are equal, if atoms of theirs with the same content are the same atom; and so
    they are in the hands of a host that passes back only what it has received since the last
    collection. -/
theorem Reachable.print_unambiguous (hm : Reachable m) (hl : m.heap.Ground m.id left)
    (hr : m.heap.Ground m.id right) : ∃ height height' text text',
      m.WrittenOut left height text ∧ m.WrittenOut right height' text' ∧
      (m.equals left right = .ok true → text = text') ∧
      (m.heap.ShareAtoms left right → text = text' → m.equals left right = .ok true) ∧
      ∀ held, Honest m held → MayPass held left → MayPass held right →
        (text = text' ↔ m.equals left right = .ok true) := by
  obtain ⟨height, s, hs, hleft⟩ := hm.writtenOut hl
  obtain ⟨height', t, ht, hright⟩ := hm.writtenOut hr
  have hequal : m.equals left right = .ok true →
      String.ofList s.chars = String.ofList t.chars := by
    intro he
    have hbis := (hm.equals_iff_bisimilar hl.sound hr.sound).mp he
    have hsame := (hs.of_bisimilar hm.canonical hbis).print (Nat.le_max_left height height')
    rw [ht.print (Nat.le_max_right height height')] at hsame
    exact (Except.ok.inj hsame).symm
  have htext : m.heap.ShareAtoms left right → String.ofList s.chars = String.ofList t.chars →
      m.equals left right = .ok true := by
    intro hshare he
    have hst : s = t := Tree.chars_injective (String.ofList_injective he)
    subst hst
    refine (hm.equals_iff_bisimilar hl.sound hr.sound).mpr
      ⟨_, Heap.bisimulation_spelledAlike hm.canonical hshare, max height height', s, ?_, ?_⟩
    · exact ⟨hs.mono (Nat.le_max_left ..), .refl⟩
    · exact ⟨ht.mono (Nat.le_max_right ..), .refl⟩
  exact ⟨height, height', _, _, hleft, hright, hequal, htext, fun held hh hpl hpr =>
    ⟨htext (hh.shareAtoms hpl hpr), hequal⟩⟩

/-- A machine with two records of the same value: in one of them a variable stands between. -/
def folded : Machine :=
  { id := ⟨0⟩
    heap := {
      records := #[⟨.unit, .tuple, [.int 7]⟩, ⟨.unit, .tuple, [.variable ⟨0⟩]⟩,
        ⟨.unit, .tuple, [.record ⟨0⟩]⟩]
      cells := #[.bound (.record ⟨0⟩)]
      allocated := 4 } }

theorem reachable_folded : Reachable folded := by
  have h₁ := (Reachable.new ⟨0⟩ {}).step (.newVariable _)
  have h₂ := h₁.step (.buildTuple .unit [.int 7] rfl)
  have h₃ := h₂.step (.bind ⟨0⟩ (.record ⟨0⟩) rfl)
  have h₄ := h₃.step (.buildTuple .unit [.variable ⟨0⟩] rfl)
  exact h₄.step (.buildTuple .unit [.record ⟨0⟩] rfl)

/-- Records rank by the order in which they were built; the variable comes between. -/
def folding : Node → Nat
  | .record ref => if ref.index = 0 then 1 else 3
  | .variable _ => 2
  | _ => 0

theorem ground_folded {n : Node} (hn : folded.heap.Fits folded.id n) (hf : n.kind ≠ .float) :
    folded.heap.Ground folded.id n :=
  Heap.ground_of_rank folding [.record ⟨0⟩] rfl (by decide) (by decide) hn hf

/-- The two records are equal, and print to the same text from depth two on. -/
theorem folded_prints_alike : Reachable folded ∧
    folded.equals (.record ⟨1⟩) (.record ⟨2⟩) = .ok true ∧
    ∃ text, ∀ depth, 2 ≤ depth → folded.print (.record ⟨1⟩) depth = .ok text ∧
      folded.print (.record ⟨2⟩) depth = .ok text := by
  have hyes : folded.equals (.record ⟨1⟩) (.record ⟨2⟩) = .ok true := by decide
  obtain ⟨height, height', text, text', hl, hr, hequal, -⟩ := reachable_folded.print_unambiguous
    (ground_folded (n := .record ⟨1⟩) (by decide) (by decide))
    (ground_folded (n := .record ⟨2⟩) (by decide) (by decide))
  obtain rfl := hequal hyes
  have hheight : ∀ {ref : RecordRef} {k : Nat}, folded.WrittenOut (.record ref) k text →
      folded.print (.record ref) 2 = .ok "unit(unit(7))" → k ≤ 2 := by
    intro ref k hw hprint
    obtain ⟨shown, hshown, hiff⟩ := hw.elided 2
    rw [hprint] at hshown
    cases hshown
    by_contra hdeep
    have hcomma : ',' ∉ outside "unit(unit(7))".toList := by decide
    exact hcomma (hiff.mpr (Nat.lt_of_not_le hdeep))
  refine ⟨reachable_folded, hyes, text, fun depth hdepth => ⟨?_, ?_⟩⟩
  · exact hl.settled depth ((hheight hl (by decide)).trans hdepth)
  · exact hr.settled depth ((hheight hr (by decide)).trans hdepth)

/-- A machine after a collection, which has made the atom of a content that was in use before. -/
def resumed : Machine :=
  { id := ⟨0⟩
    atoms := { id := ⟨⟨0⟩, 1⟩, contents := ["a"] } }

theorem reachable_resumed : Reachable resumed := by
  have h₁ := (Reachable.new ⟨0⟩ {}).step (.newAtom _ "a")
  have h₂ := h₁.step (.collect rfl)
  exact h₂.step (.newAtom _ "a")

/-- Two atoms of one content, made before the collection and after it. Both are values of the
    machine, and print alike at every depth, but the machine does not find them equal. -/
theorem kept_atom_prints_alike :
    Reachable resumed ∧
    ((Machine.new ⟨0⟩ {}).newAtom "a").1 = .atom ⟨⟨⟨0⟩, 0⟩, "a"⟩ ∧
    (resumed.newAtom "a").1 = .atom ⟨⟨⟨0⟩, 1⟩, "a"⟩ ∧
    resumed.heap.Ground resumed.id (.atom ⟨⟨⟨0⟩, 0⟩, "a"⟩) ∧
    resumed.heap.Ground resumed.id (.atom ⟨⟨⟨0⟩, 1⟩, "a"⟩) ∧
    resumed.owns (.atom ⟨⟨⟨0⟩, 0⟩, "a"⟩) = .ok (.ok ()) ∧
    (∀ depth, resumed.print (.atom ⟨⟨⟨0⟩, 0⟩, "a"⟩) depth = .ok "a" ∧
      resumed.print (.atom ⟨⟨⟨0⟩, 1⟩, "a"⟩) depth = .ok "a") ∧
    resumed.equals (.atom ⟨⟨⟨0⟩, 0⟩, "a"⟩) (.atom ⟨⟨⟨0⟩, 1⟩, "a"⟩) = .ok false := by
  have hground : ∀ a : Atom, a.owner = ⟨0⟩ → resumed.heap.Ground resumed.id (.atom a) := by
    intro a ha
    exact Heap.ground_of_rank (fun _ => 0) [] rfl nofun nofun ha nofun
  have hprint : ∀ a : Atom, a.content = "a" → ∀ depth, resumed.print (.atom a) depth = .ok "a" := by
    intro a ha depth
    have hbare : Atom.textOf "a" = "a" := by decide
    have hleaf : (Node.atom a).leafText = "a" := by
      show Atom.textOf a.content = "a"
      rw [ha, hbare]
    exact hleaf ▸ Heap.print_value (Heap.deref_of_value rfl) rfl depth
  exact ⟨reachable_resumed, rfl, rfl, hground _ rfl, hground _ rfl, rfl,
    fun depth => ⟨hprint _ rfl depth, hprint _ rfl depth⟩, by decide⟩

end Machine

end Dataflow
