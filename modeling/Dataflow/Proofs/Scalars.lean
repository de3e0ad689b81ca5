import Dataflow.Machine
import Dataflow.Proofs.Chains
import Dataflow.Proofs.Quoting

/-! # The kind of a value shows in its text

  A printed value that is no record tells its kind. An atom starts with a small letter or a quote,
  a number with a digit or a tilde; a number without a point and without an exponent is an
  integer; and the words of the booleans and of unit are keywords, so that atoms of these names
  stand in quotes.

  One word is not kept apart: `inf` is the text of positive infinity, but no keyword, so it is
  also the text of the atom of that name. Main statement: no other two values of different kinds
  print alike.
-/

namespace Dataflow

/-! ### Digits -/

theorem mem_repr_isDigit {n : Nat} {c : Char} (hc : c ∈ (Nat.repr n).toList) :
    c.isDigit = true := by
  rw [Nat.toList_repr] at hc
  exact Nat.isDigit_of_mem_toDigits (by decide) (by decide) hc

theorem repr_cons (n : Nat) : ∃ c rest, (Nat.repr n).toList = c :: rest ∧ c.isDigit = true := by
  cases h : (Nat.repr n).toList with
  | nil =>
    rw [Nat.toList_repr] at h
    exact absurd h Nat.toDigits_ne_nil
  | cons c rest => exact ⟨c, rest, rfl, mem_repr_isDigit (h ▸ List.mem_cons_self)⟩

/-- The text of an integer is a tilde, if the integer is negative, and its digits. -/
theorem integerText_toList (i : Int) :
    (integerText i).toList = (if i < 0 then ['~'] else []) ++ (Nat.repr i.natAbs).toList := by
  unfold integerText
  split
  · rw [String.toList_append]
    rfl
  · rfl

/-! ### Decimals -/

namespace Decimal.Scientific

variable {d : Scientific}

theorem isDigit_of_mem_chars {c : Char} (hc : c ∈ d.chars) : c.isDigit = true :=
  Nat.isDigit_of_mem_toDigits (by decide) (by decide) hc

theorem chars_cons (d : Scientific) : ∃ c rest, d.chars = c :: rest ∧ c.isDigit = true := by
  cases h : d.chars with
  | nil => exact absurd h Nat.toDigits_ne_nil
  | cons c rest => exact ⟨c, rest, rfl, isDigit_of_mem_chars (h ▸ List.mem_cons_self)⟩

/-- A decimal point or an exponent mark. -/
def isMark (c : Char) : Bool := c == '.' || c == 'e'

/-- The text starts with a digit and has a mark behind it. -/
def Marked (text : List Char) : Prop :=
  ∃ c rest, text = c :: rest ∧ c.isDigit = true ∧ ∃ m ∈ rest, isMark m = true

theorem marked_cons {c m : Char} (before after : List Char) (hc : c.isDigit = true)
    (hm : isMark m = true) : Marked (c :: (before ++ m :: after)) :=
  ⟨c, _, rfl, hc, m, by simp, hm⟩

/-- Positional text has a digit before its point. -/
theorem marked_positional (d : Scientific) : Marked d.positional.toList := by
  obtain ⟨c, digits, hd, hc⟩ := chars_cons d
  have hpoint : isMark '.' = true := by decide
  unfold positional
  simp only
  split
  · rw [hd]
    simpa using marked_cons (digits ++ (zeros d.exponent.toNat).toList) ['0'] hc hpoint
  split
  · next hbefore =>
    obtain ⟨k, hk⟩ : ∃ k, ((d.chars.length : Int) + d.exponent).toNat = k + 1 :=
      ⟨_, (Nat.succ_pred_eq_of_pos (by omega)).symm⟩
    rw [hk, hd]
    simpa using marked_cons (digits.take k) (digits.drop k) hc hpoint
  · have hzero : ('0' : Char).isDigit = true := by decide
    simpa using marked_cons []
      ((zeros (-((d.chars.length : Int) + d.exponent)).toNat).toList ++ d.chars) hzero hpoint

theorem marked_marked (d : Scientific) : Marked d.marked.toList := by
  obtain ⟨c, digits, hd, hc⟩ := chars_cons d
  have hexponent : isMark 'e' = true := by decide
  unfold marked
  rw [hd]
  simpa using marked_cons (if digits.isEmpty then "" else "." ++ String.ofList digits).toList
    (intText d.leading).toList hc hexponent

theorem marked_text (layout : Layout) (d : Scientific) : Marked (text layout d).toList := by
  unfold text
  split
  · exact marked_positional d
  · exact marked_marked d

end Decimal.Scientific

/-! ### Floats -/

namespace Binary64

variable {x : Binary64}

/-- Positive infinity. -/
def IsPositiveInfinity (x : Binary64) : Prop := x.isInfinite = true ∧ x.negative = false

instance (x : Binary64) : Decidable x.IsPositiveInfinity :=
  inferInstanceAs (Decidable (_ ∧ _))

theorem isNaN_of_isInfinite (h : x.isInfinite = true) : x.isNaN = false := by
  simp only [isInfinite, isNaN, Bool.and_eq_true, beq_iff_eq] at h ⊢
  simp [h.2]

/-- The magnitude of a finite number has a mark behind its first digit. -/
theorem marked_magnitude (hn : x.isNaN = false) (hi : x.isInfinite = false) :
    Decimal.Scientific.Marked x.magnitude.toList := by
  unfold magnitude
  simp only [hn, hi, Bool.false_eq_true, if_false]
  split
  · exact Decimal.Scientific.marked_text layout ⟨0, 0⟩
  · exact Decimal.Scientific.marked_text layout x.span.shortest

/-- The texts of floats: a word for infinity and one for what is not a number, and otherwise a
    marked text; a tilde stands before all of them but the second. -/
theorem text_cases (x : Binary64) :
    (x.IsPositiveInfinity ∧ x.text = "inf") ∨
    (¬x.IsPositiveInfinity ∧ (x.text = "NaN" ∨
      x.text.toList = ['~', 'i', 'n', 'f'] ∨
      Decimal.Scientific.Marked x.text.toList ∨
      ∃ text, x.text.toList = '~' :: text ∧ Decimal.Scientific.Marked text)) := by
  cases hn : x.isNaN with
  | true =>
    have hfinite : ¬x.IsPositiveInfinity := by
      intro h
      rw [isNaN_of_isInfinite h.1] at hn
      cases hn
    exact .inr ⟨hfinite, .inl (by simp [text, magnitude, hn])⟩
  | false =>
    cases hi : x.isInfinite with
    | true =>
      cases hs : x.negative with
      | false => exact .inl ⟨⟨hi, hs⟩, by simp [text, magnitude, hn, hi, hs]⟩
      | true =>
        refine .inr ⟨fun h => ?_, .inr (.inl (by simp [text, magnitude, hn, hi, hs]))⟩
        cases hs.symm.trans h.2
    | false =>
      have hmarked := marked_magnitude hn hi
      have hfinite : ¬x.IsPositiveInfinity := by
        intro h
        cases hi.symm.trans h.1
      refine .inr ⟨hfinite, .inr (.inr ?_)⟩
      cases hs : x.negative with
      | false => exact .inl (by simpa [text, hs] using hmarked)
      | true => exact .inr ⟨_, by simp [text, hn, hs], hmarked⟩

end Binary64

/-! ### The kind of a text -/

/-- The kind of the values that have this text. -/
def kindOfText (text : String) : Kind :=
  if text = "true" ∨ text = "false" then .bool
  else if text = "unit" then .unit
  else if text = "inf" ∨ text = "NaN" then .float
  else
    match text.toList with
    | [] => .atom
    | c :: rest =>
      if c = '~' ∨ c.isDigit = true then
        if rest.all Char.isDigit then .int else .float
      else .atom

theorem kindOfText_number {text : String} {c : Char} {rest : List Char}
    (ht : text.toList = c :: rest) (hc : c = '~' ∨ c.isDigit = true) :
    kindOfText text = if rest.all Char.isDigit then .int else .float := by
  have hword : ∀ w ∈ ["true", "false", "unit", "inf", "NaN"], text ≠ w := by
    have hletter : ∀ w ∈ ["true", "false", "unit", "inf", "NaN"],
        w.toList.head?.any (fun d => d == '~' || d.isDigit) = false := by decide
    rintro w hw rfl
    have hfirst := hletter text hw
    simp only [ht, List.head?_cons, Option.any_some, Bool.or_eq_false_iff, beq_eq_false_iff_ne]
      at hfirst
    rcases hc with hc | hc
    · exact hfirst.1 hc
    · rw [hfirst.2] at hc
      cases hc
  simp only [List.mem_cons, List.not_mem_nil, or_false, forall_eq_or_imp, forall_eq] at hword
  obtain ⟨htrue, hfalse, hunit, hinf, hnan⟩ := hword
  rw [kindOfText, if_neg (by simp [htrue, hfalse]), if_neg hunit, if_neg (by simp [hinf, hnan]), ht]
  simp [hc]

theorem kindOfText_marked {text : String} {c : Char} {rest : List Char}
    (ht : text.toList = c :: rest) (hc : c = '~' ∨ c.isDigit = true)
    (hm : ∃ m ∈ rest, m.isDigit = false) : kindOfText text = .float := by
  obtain ⟨m, hm, hdigit⟩ := hm
  have hall : rest.all Char.isDigit = false := by
    rw [List.all_eq_false]
    exact ⟨m, hm, by simp [hdigit]⟩
  rw [kindOfText_number ht hc, hall]
  rfl

theorem isDigit_of_isMark {c : Char} (h : Decimal.Scientific.isMark c = true) :
    c.isDigit = false := by
  simp only [Decimal.Scientific.isMark, Bool.or_eq_true, beq_iff_eq] at h
  rcases h with rfl | rfl
  · decide
  · decide

theorem kindOfText_integer (i : Int) : kindOfText (integerText i) = .int := by
  obtain ⟨c, rest, hrepr, hc⟩ := repr_cons i.natAbs
  have hdigits : ∀ d ∈ c :: rest, d.isDigit = true := by
    intro d hd
    rw [← hrepr] at hd
    exact mem_repr_isDigit hd
  have ht := integerText_toList i
  rw [hrepr] at ht
  by_cases hi : i < 0
  · rw [if_pos hi] at ht
    have hall : (c :: rest).all Char.isDigit = true := List.all_eq_true.mpr hdigits
    exact (kindOfText_number ht (.inl rfl)).trans (if_pos hall)
  · rw [if_neg hi] at ht
    rw [kindOfText_number ht (.inr hc),
      if_pos (List.all_eq_true.mpr fun d hd => hdigits d (List.mem_cons_of_mem c hd))]

theorem kindOfText_float (x : Binary64) : kindOfText x.text = .float := by
  rcases x.text_cases with ⟨-, ht⟩ | ⟨-, ht | ht | ⟨c, rest, ht, hc, m, hm, hmark⟩ |
    ⟨text, ht, c, rest, rfl, hc, m, hm, hmark⟩⟩
  · rw [ht]
    decide
  · rw [ht]
    decide
  · exact kindOfText_marked ht (.inl rfl) ⟨'i', by simp, by decide⟩
  · exact kindOfText_marked ht (.inr hc) ⟨m, hm, isDigit_of_isMark hmark⟩
  · exact kindOfText_marked ht (.inl rfl) ⟨m, List.mem_cons_of_mem c hm, isDigit_of_isMark hmark⟩

/-- The text of an atom shows that it is one, but for one content. -/
theorem kindOfText_atom {content : String} (h : content ≠ "inf") :
    kindOfText (Atom.textOf content) = .atom := by
  have hother : ∀ (text : String) (c : Char) (rest : List Char), text.toList = c :: rest →
      ¬(c = '~' ∨ c.isDigit = true) → (∀ w ∈ ["true", "false", "unit", "inf", "NaN"], text ≠ w) →
      kindOfText text = .atom := by
    intro text c rest ht hc hword
    simp only [List.mem_cons, List.not_mem_nil, or_false, forall_eq_or_imp, forall_eq] at hword
    obtain ⟨htrue, hfalse, hunit, hinf, hnan⟩ := hword
    rw [kindOfText, if_neg (by simp [htrue, hfalse]), if_neg hunit,
      if_neg (by simp [hinf, hnan]), ht]
    simp [hc]
  cases hb : Atom.isBare content with
  | true =>
    obtain ⟨c, rest, ht, hlower, -⟩ := Atom.isBare_word hb
    rw [Atom.textOf_bare hb]
    refine hother content c rest ht ?_ ?_
    · rintro (rfl | hdigit)
      · revert hlower
        decide
      · rw [Atom.isLower_iff] at hlower
        rw [Char.isDigit_iff_toNat] at hdigit
        have hnine : '9'.toNat = 57 := rfl
        omega
    · -- all of these but the one left out are keywords, or do not start with a small letter
      have hnone : ∀ w ∈ ["true", "false", "unit", "NaN"], Atom.isBare w = false := by decide
      rintro w hw rfl
      have hw' : content ∈ ["true", "false", "unit", "NaN"] := by
        simp only [List.mem_cons, List.not_mem_nil, or_false] at hw ⊢
        grind
      cases hb.symm.trans (hnone content hw')
  | false =>
    -- quoted text starts with the quote, as none of the words does
    have ht := Atom.textOf_quoted hb
    refine hother _ _ _ ht (by decide) ?_
    rintro w hw he
    have hnone : ∀ w ∈ ["true", "false", "unit", "inf", "NaN"],
        w.toList.head? ≠ some Atom.quote := by
      decide
    apply hnone w hw
    rw [← he, ht]
    rfl

/-- The kind of a value that is no record shows in its text, but for one atom. -/
theorem kindOfText_leafText {d : Node} (hd : d.kind.capabilities.behavior = .value)
    (hne : ∀ a, d = .atom a → a.content ≠ "inf") : kindOfText d.leafText = d.kind := by
  cases d with
  | atom a => exact kindOfText_atom (hne a rfl)
  | int i => exact kindOfText_integer i
  | float x => exact kindOfText_float x
  | bool b =>
    cases b with
    | false => decide
    | true => decide
  | unit => decide
  | record ref => cases hd
  | «variable» v => cases hd

/-! ### Values that print alike -/

/-- An atom and a float with one text. -/
def Node.Clash (c d : Node) : Prop :=
  ∃ a x, c = .atom a ∧ a.content = "inf" ∧ d = .float x ∧ x.IsPositiveInfinity

namespace Node

variable {c d : Node}

theorem leafText_of_clash (h : c.Clash d) : c.leafText = d.leafText ∧ c.kind ≠ d.kind := by
  obtain ⟨a, x, rfl, ha, rfl, hx⟩ := h
  refine ⟨?_, nofun⟩
  have hbare : Atom.textOf "inf" = "inf" := by decide
  rcases x.text_cases with ⟨-, ht⟩ | ⟨hno, -⟩
  · show Atom.textOf a.content = x.text
    rw [ha, hbare, ht]
  · exact absurd hx hno

/-- What prints like the one atom that does not show its kind, and is none, is positive infinity. -/
theorem clash_of_leafText {a : Atom} (ha : a.content = "inf")
    (hd : d.kind.capabilities.behavior = .value) (ht : (Node.atom a).leafText = d.leafText)
    (hk : d.kind ≠ .atom) : (Node.atom a).Clash d := by
  have hinf : d.leafText = "inf" := by
    have hbare : Atom.textOf "inf" = "inf" := by decide
    rw [← ht]
    show Atom.textOf a.content = "inf"
    rw [ha, hbare]
  have hkind : d.kind = .float := by
    have hshown : kindOfText "inf" = .float := by decide
    rw [← kindOfText_leafText hd (fun b hb => absurd (hb ▸ rfl) hk), hinf, hshown]
  cases d with
  | float x =>
    refine ⟨a, x, rfl, ha, rfl, ?_⟩
    have hx : x.text.toList = ['i', 'n', 'f'] := by
      rw [show x.text = "inf" from hinf]
      rfl
    -- of all texts of floats only that of positive infinity is the word
    rcases x.text_cases with ⟨hpos, -⟩ | ⟨-, h | h | ⟨c, rest, h, hc, -⟩ | ⟨text, h, -⟩⟩
    · exact hpos
    · have hnan : "NaN".toList ≠ ['i', 'n', 'f'] := by decide
      exact absurd (h ▸ hx) hnan
    · cases hx.symm.trans h
    · have hletter : 'i'.isDigit = false := by decide
      cases hx.symm.trans h
      cases hletter.symm.trans hc
    · cases hx.symm.trans h
  | _ => cases hkind

/-- Two values print alike and are of different kinds exactly if they clash. -/
theorem leafText_eq_iff (hc : c.kind.capabilities.behavior = .value)
    (hd : d.kind.capabilities.behavior = .value) :
    c.leafText = d.leafText ∧ c.kind ≠ d.kind ↔ c.Clash d ∨ d.Clash c := by
  constructor
  · rintro ⟨ht, hk⟩
    by_cases hcinf : ∃ a, c = .atom a ∧ a.content = "inf"
    · obtain ⟨a, rfl, ha⟩ := hcinf
      exact .inl (clash_of_leafText ha hd ht (Ne.symm hk))
    by_cases hdinf : ∃ a, d = .atom a ∧ a.content = "inf"
    · obtain ⟨a, rfl, ha⟩ := hdinf
      exact .inr (clash_of_leafText ha hc ht.symm hk)
    have hck := kindOfText_leafText hc fun a ha h => hcinf ⟨a, ha, h⟩
    have hdk := kindOfText_leafText hd fun a ha h => hdinf ⟨a, ha, h⟩
    exact absurd (by rw [← hck, ← hdk, ht]) hk
  · rintro (h | h)
    · exact leafText_of_clash h
    · obtain ⟨ht, hk⟩ := leafText_of_clash h
      exact ⟨ht.symm, Ne.symm hk⟩

end Node

namespace Machine

/-- Values that are not records print to the same text at every depth, in whatever machine they
    stand, and two of them that print alike are of the same kind, or one is the atom `inf` and the
    other is positive infinity. That word is no keyword, so the atom is written without quotes;
    these two are the only exception, for every content of an atom and all the bits of a float. -/
theorem print_tells_kind (m m' : Machine) (n n' : Node) (depth depth' : Nat) {d d' : Node}
    (hd : m.deref n = .ok d) (hd' : m'.deref n' = .ok d')
    (hv : d.kind.capabilities.behavior = .value) (hv' : d'.kind.capabilities.behavior = .value) :
    ∃ text text', m.print n depth = .ok text ∧ m'.print n' depth' = .ok text' ∧
      (text = text' ∧ d.kind ≠ d'.kind ↔ d.Clash d' ∨ d'.Clash d) := by
  have hleaf : ∀ {e : Node}, e.kind.capabilities.behavior = .value → e.asRecord? = none := by
    intro e he
    cases e with
    | record ref => cases he
    | _ => rfl
  exact ⟨_, _, Heap.print_value hd (hleaf hv) depth, Heap.print_value hd' (hleaf hv') depth',
    Node.leafText_eq_iff hv hv'⟩

/-- The exception: an atom of a fresh machine, and the float with all bits of the exponent set. -/
theorem infinity_prints_like_atom :
    ∃ text, (Machine.new ⟨0⟩ {}).print (.atom ⟨⟨⟨0⟩, 0⟩, "inf"⟩) 5 = .ok text ∧
      (Machine.new ⟨0⟩ {}).print (.float ⟨0x7ff0000000000000⟩) 5 = .ok text := by
  have hpos : Binary64.IsPositiveInfinity ⟨0x7ff0000000000000⟩ := by decide
  obtain ⟨text, text', hl, hr, hiff⟩ := print_tells_kind (Machine.new ⟨0⟩ {}) (Machine.new ⟨0⟩ {})
    (.atom ⟨⟨⟨0⟩, 0⟩, "inf"⟩) (.float ⟨0x7ff0000000000000⟩) 5 5 rfl rfl rfl rfl
  obtain ⟨rfl, -⟩ := hiff.mpr (.inl ⟨_, _, rfl, rfl, rfl, hpos⟩)
  exact ⟨text, hl, hr⟩

end Machine

end Dataflow
