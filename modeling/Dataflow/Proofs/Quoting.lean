import Dataflow.Atom.Text
import Mathlib.Data.List.Basic
import Mathlib.Logic.Function.Basic

/-! # Reading the text of atoms

  The text of an atom can be read off the front of any text. A bare atom goes on for as long as
  there are word characters; a quoted atom ends at the first quote that no backslash stands
  before. The reader goes through the characters once, from left to right, and looks no further
  than the end of the atom.

  What stands between the quotes is clean: it splits into plain characters, none of them a quote,
  a backslash or a control character, and escapes of two characters or, with two hexadecimal
  digits, four.

  Main statement: every content is read back from its text, whatever comes behind it.
-/

namespace Dataflow

/-! ### The end of a word -/

/-- The text does not start with a character of the class. -/
def EndsWord (p : Char → Bool) (rest : List Char) : Prop := ∀ c ∈ rest.head?, p c = false

@[simp] theorem endsWord_nil {p : Char → Bool} : EndsWord p [] := by simp [EndsWord]

@[simp] theorem endsWord_cons {p : Char → Bool} {c : Char} {rest : List Char} :
    EndsWord p (c :: rest) ↔ p c = false := by simp [EndsWord]

/-- A word of the class is all that the class takes from the front of the text. -/
theorem takeWhile_word {p : Char → Bool} {word rest : List Char} (hw : ∀ c ∈ word, p c = true)
    (hr : EndsWord p rest) : (word ++ rest).takeWhile p = word := by
  rw [List.takeWhile_append_of_pos hw]
  cases rest with
  | nil => simp
  | cons c rest => simp [endsWord_cons.mp hr]

theorem dropWhile_word {p : Char → Bool} {word rest : List Char} (hw : ∀ c ∈ word, p c = true)
    (hr : EndsWord p rest) : (word ++ rest).dropWhile p = rest := by
  rw [List.dropWhile_append_of_pos hw]
  cases rest with
  | nil => rfl
  | cons c rest => simp [endsWord_cons.mp hr]

namespace Atom

/-! ### Classes of characters -/

theorem not_isControl {c : Char} :
    isControl c = false ↔ ¬(c.toNat < 32 ∨ 127 ≤ c.toNat ∧ c.toNat < 160) := by
  simp [isControl]

/-- Two hexadecimal digits suffice for a control character. -/
theorem toNat_of_isControl {c : Char} (h : isControl c = true) : c.toNat < 160 := by
  simp only [isControl, Bool.or_eq_true, Bool.and_eq_true, decide_eq_true_eq] at h
  omega

theorem isLower_iff {c : Char} : c.isLower = true ↔ 97 ≤ c.toNat ∧ c.toNat ≤ 122 := by
  delta Char.isLower
  simp [UInt32.le_iff_toNat_le, ← Char.toNat_val]

theorem isWordChar_iff {c : Char} : isWordChar c = true ↔
    48 ≤ c.toNat ∧ c.toNat ≤ 57 ∨ 65 ≤ c.toNat ∧ c.toNat ≤ 90 ∨ 97 ≤ c.toNat ∧ c.toNat ≤ 122 ∨
      c.toNat = 95 := by
  have hunderscore : c = '_' ↔ c.toNat = 95 := by
    rw [← Char.toNat_inj]
    rfl
  simp only [isWordChar, Char.isAlphanum]
  delta Char.isAlpha Char.isUpper Char.isLower
  simp only [Char.isDigit, Bool.or_eq_true, Bool.and_eq_true, decide_eq_true_eq, beq_iff_eq,
    UInt32.le_iff_toNat_le, ge_iff_le, hunderscore, Char.toNat_val]
  have hnumbers : 'A'.toNat = 65 ∧ 'Z'.toNat = 90 ∧ 'a'.toNat = 97 ∧ 'z'.toNat = 122 ∧
    '0'.toNat = 48 ∧ '9'.toNat = 57 := by decide
  obtain ⟨h₁, h₂, h₃, h₄, h₅, h₆⟩ := hnumbers
  rw [h₁, h₂, h₃, h₄, h₅, h₆]
  omega

theorem isWordChar_of_isLower {c : Char} (h : c.isLower = true) : isWordChar c = true := by
  rw [isLower_iff] at h
  rw [isWordChar_iff]
  omega

theorem isControl_of_isWordChar {c : Char} (h : isWordChar c = true) : isControl c = false := by
  rw [isWordChar_iff] at h
  rw [not_isControl]
  omega

/-! ### Reading -/

/-- Where a reader stands inside quotes. -/
inductive Mode where
  /-- Between two characters. -/
  | plain
  /-- Behind a backslash. -/
  | escaped
  /-- Before the first of two hexadecimal digits. -/
  | high
  /-- Before the second of two hexadecimal digits. -/
  | low (first : Nat)

/-- The value of a hexadecimal digit with capital letters. -/
def hexValue? (c : Char) : Option Nat :=
  if 48 ≤ c.toNat ∧ c.toNat ≤ 57 then some (c.toNat - 48)
  else if 65 ≤ c.toNat ∧ c.toNat ≤ 70 then some (c.toNat - 55)
  else none

/-- What a character behind a backslash stands for. -/
def unescape? (c : Char) : Option Char :=
  if c = quote ∨ c = '\\' then some c
  else if c = 'n' then some '\n'
  else if c = 't' then some '\t'
  else if c = 'r' then some '\r'
  else none

/-- Reads the rest of a quoted text: the characters that it stands for up to the closing quote, and
    what comes behind that. -/
def readQuoted : Mode → List Char → Option (List Char × List Char)
  | _, [] => none
  | .plain, c :: text =>
    if c = quote then some ([], text)
    else if c = '\\' then readQuoted .escaped text
    else (readQuoted .plain text).map (Prod.map (c :: ·) id)
  | .escaped, c :: text =>
    if c = 'x' then readQuoted .high text
    else (unescape? c).bind fun d => (readQuoted .plain text).map (Prod.map (d :: ·) id)
  | .high, c :: text => (hexValue? c).bind fun first => readQuoted (.low first) text
  | .low first, c :: text =>
    (hexValue? c).bind fun second =>
      (readQuoted .plain text).map (Prod.map (Char.ofNat (16 * first + second) :: ·) id)

/-- Reads an atom off the front of a text: its content, and what comes behind it. -/
def read : List Char → Option (String × List Char)
  | [] => none
  | c :: text =>
    if c = quote then (readQuoted .plain text).map (Prod.map String.ofList id)
    else
      let word := String.ofList ((c :: text).takeWhile isWordChar)
      if isBare word then some (word, (c :: text).dropWhile isWordChar) else none

/-- The content of the atom with the given text. -/
def decode (text : String) : Option String :=
  match read text.toList with
  | some (content, []) => some content
  | _ => none

/-! ### One character at a time -/

theorem hexValue_hexDigit {n : Nat} (h : n < 16) : hexValue? (hexDigit n) = some n := by
  have hall : ∀ k : Fin 16, hexValue? (hexDigit k) = some k.val := by decide
  exact hall ⟨n, h⟩

/-- The characters that may stand behind a backslash, a hexadecimal escape apart. -/
def shorts : List Char := [quote, '\\', 'n', 't', 'r']

/-- The three ways in which a character is written between quotes. -/
theorem escape_cases (c : Char) :
    (∃ l ∈ shorts, unescape? l = some c ∧ escape c = ['\\', l]) ∨
    (isControl c = true ∧
      escape c = ['\\', 'x', hexDigit (c.toNat / 16), hexDigit (c.toNat % 16)]) ∨
    (c ≠ quote ∧ c ≠ '\\' ∧ isControl c = false ∧ escape c = [c]) := by
  have hshort : ∀ l d : Char, l ∈ shorts → unescape? l = some d → escape d = ['\\', l] → c = d →
      ∃ l ∈ shorts, unescape? l = some c ∧ escape c = ['\\', l] := by
    rintro l d hl hd he rfl
    exact ⟨l, hl, hd, he⟩
  by_cases hquote : c = quote
  · exact .inl (hshort quote quote (by decide) (by decide) (by decide) hquote)
  by_cases hback : c = '\\'
  · exact .inl (hshort '\\' '\\' (by decide) (by decide) (by decide) hback)
  by_cases hline : c = '\n'
  · exact .inl (hshort 'n' '\n' (by decide) (by decide) (by decide) hline)
  by_cases htab : c = '\t'
  · exact .inl (hshort 't' '\t' (by decide) (by decide) (by decide) htab)
  by_cases hreturn : c = '\r'
  · exact .inl (hshort 'r' '\r' (by decide) (by decide) (by decide) hreturn)
  rw [escape, if_neg hquote, if_neg hback, if_neg hline, if_neg htab, if_neg hreturn]
  cases hcontrol : isControl c with
  | true => exact .inr (.inl ⟨rfl, rfl⟩)
  | false => exact .inr (.inr ⟨hquote, hback, rfl, rfl⟩)

/-- An escaped character is read back as that character. -/
theorem readQuoted_escape (c : Char) (text : List Char) :
    readQuoted .plain (escape c ++ text) =
      (readQuoted .plain text).map (Prod.map (c :: ·) id) := by
  have hback : ('\\' : Char) ≠ quote := by decide
  -- a letter stands for the character, or two hexadecimal digits, or the character itself
  rcases escape_cases c with ⟨l, hl, hc, he⟩ | ⟨hcontrol, he⟩ | ⟨hq, hb, -, he⟩
  · have hx : l ≠ 'x' := by
      rintro rfl
      revert hl
      decide
    rw [he]
    simp [readQuoted, hback, hx, hc]
  · -- control characters are below 256, so two digits hold them
    have hn := toNat_of_isControl hcontrol
    have hhigh := hexValue_hexDigit (show c.toNat / 16 < 16 by omega)
    have hlow := hexValue_hexDigit (show c.toNat % 16 < 16 by omega)
    have hc : Char.ofNat (16 * (c.toNat / 16) + c.toNat % 16) = c := by
      rw [Nat.div_add_mod, Char.ofNat_toNat]
    rw [he]
    simp [readQuoted, hback, hhigh, hlow, hc]
  · rw [he]
    simp [readQuoted, hq, hb]

/-- Quoted text is read back up to its closing quote. -/
theorem readQuoted_flatMap (content rest : List Char) :
    readQuoted .plain (content.flatMap escape ++ quote :: rest) = some (content, rest) := by
  induction content with
  | nil => simp [readQuoted]
  | cons c content ih =>
    rw [List.flatMap_cons, List.append_assoc, readQuoted_escape, ih]
    rfl

/-! ### Bare and quoted atoms -/

/-- A bare atom is a small letter and word characters behind it. -/
theorem isIdentifier_iff {content : List Char} : isIdentifier content = true ↔
    ∃ c rest, content = c :: rest ∧ c.isLower = true ∧ ∀ d ∈ rest, isWordChar d = true := by
  cases content with
  | nil => simp [isIdentifier]
  | cons c rest => simp [isIdentifier]

theorem isBare_iff {content : String} :
    isBare content = true ↔ isIdentifier content.toList = true ∧ content ∉ keywords := by
  simp [isBare]

/-- The characters of a bare atom are word characters, the first of them a small letter. -/
theorem isBare_word {content : String} (h : isBare content = true) :
    ∃ c rest, content.toList = c :: rest ∧ c.isLower = true ∧
      ∀ d ∈ content.toList, isWordChar d = true := by
  obtain ⟨c, rest, hc, hlower, hrest⟩ := isIdentifier_iff.mp (isBare_iff.mp h).1
  refine ⟨c, rest, hc, hlower, ?_⟩
  rw [hc]
  intro d hd
  rcases List.mem_cons.mp hd with rfl | hd
  · exact isWordChar_of_isLower hlower
  · exact hrest d hd

theorem textOf_bare {content : String} (h : isBare content = true) : textOf content = content := by
  simp [textOf, h]

theorem textOf_quoted {content : String} (h : isBare content = false) :
    (textOf content).toList = quoted content.toList := by
  simp [textOf, h]

/-- The content is read back from the front of any text. A bare atom ends where the word characters
    end; a quoted one ends by itself. -/
theorem read_textOf (content : String) {rest : List Char}
    (hrest : isBare content = true → EndsWord isWordChar rest) :
    read ((textOf content).toList ++ rest) = some (content, rest) := by
  cases hb : isBare content with
  | true =>
    rw [textOf_bare hb]
    obtain ⟨c, word, hc, hlower, hword⟩ := isBare_word hb
    have hq : c ≠ quote := by
      rintro rfl
      revert hlower
      decide
    have htake := takeWhile_word hword (hrest hb)
    have hdrop := dropWhile_word hword (hrest hb)
    have hback : String.ofList (c :: word) = content := by
      rw [← hc, String.ofList_toList]
    rw [hc, List.cons_append] at htake hdrop ⊢
    simp [read, hq, htake, hdrop, hback, hb]
  | false =>
    rw [textOf_quoted hb, quoted, List.cons_append, List.cons_append, List.append_assoc]
    simp [read, readQuoted_flatMap]

/-- Where two texts of atoms with a delimiter behind them agree, so do the contents. -/
theorem textOf_append_inj {s t : String} {rest rest' : List Char} (hr : EndsWord isWordChar rest)
    (hr' : EndsWord isWordChar rest')
    (h : (textOf s).toList ++ rest = (textOf t).toList ++ rest') : s = t ∧ rest = rest' := by
  have hs := read_textOf s (fun _ => hr)
  rw [h, read_textOf t (fun _ => hr')] at hs
  simp only [Option.some.injEq, Prod.mk.injEq] at hs
  exact ⟨hs.1.symm, hs.2.symm⟩

theorem decode_textOf (content : String) : decode (textOf content) = some content := by
  have h : read ((textOf content).toList ++ []) = some (content, []) :=
    read_textOf content fun _ => endsWord_nil
  rw [List.append_nil] at h
  simp [decode, h]

/-! ### What quoted text consists of -/

/-- A hexadecimal digit with a capital letter. -/
def IsHexDigit (c : Char) : Prop := c ∈ "0123456789ABCDEF".toList

/-- The ways to write one character between quotes. -/
inductive Piece : List Char → Prop where
  /-- The character itself, unless it is a quote, a backslash or a control character. -/
  | plain {c : Char} : c ≠ quote → c ≠ '\\' → isControl c = false → Piece [c]
  /-- A backslash and one character. -/
  | short {c : Char} : c ∈ shorts → Piece ['\\', c]
  /-- A hexadecimal escape with two digits. -/
  | hex {first second : Char} : IsHexDigit first → IsHexDigit second →
    Piece ['\\', 'x', first, second]

/-- Text in quotes, made of such pieces. -/
def Quoted (text : List Char) : Prop :=
  ∃ pieces : List (List Char), (∀ p ∈ pieces, Piece p) ∧ text = quote :: pieces.flatten ++ [quote]

/-- A number with capital hexadecimal digits, two of them at least. -/
def hexNumeral (n : Nat) : List Char :=
  ((Nat.toDigits 16 n).map Char.toUpper).leftpad 2 '0'

/-- Below 256 a hexadecimal numeral has just the two digits that an escape writes. -/
theorem hexNumeral_eq {n : Nat} (h : n < 256) :
    hexNumeral n = [hexDigit (n / 16), hexDigit (n % 16)] := by
  have hall : ∀ k : Fin 256, hexNumeral k = [hexDigit (k / 16), hexDigit (k % 16)] := by
    decide +kernel
  exact hall ⟨n, h⟩

theorem isHexDigit_hexDigit {n : Nat} (h : n < 16) : IsHexDigit (hexDigit n) := by
  have hall : ∀ k : Fin 16, hexDigit k ∈ "0123456789ABCDEF".toList := by decide
  exact hall ⟨n, h⟩

theorem piece_escape (c : Char) : Piece (escape c) := by
  rcases escape_cases c with ⟨l, hl, -, he⟩ | ⟨hcontrol, he⟩ | ⟨hq, hb, hclean, he⟩
  · rw [he]
    exact .short hl
  · have hn := toNat_of_isControl hcontrol
    rw [he]
    exact .hex (isHexDigit_hexDigit (by omega)) (isHexDigit_hexDigit (by omega))
  · rw [he]
    exact .plain hq hb hclean

theorem quoted_quoted (content : List Char) : Quoted (quoted content) := by
  refine ⟨content.map escape, ?_, ?_⟩
  · intro p hp
    obtain ⟨c, -, rfl⟩ := List.mem_map.mp hp
    exact piece_escape c
  · rw [quoted, List.flatMap_def]

theorem Piece.clean {p : List Char} (hp : Piece p) : ∀ c ∈ p, isControl c = false := by
  intro c hc
  cases hp with
  | plain _ _ hclean =>
    cases List.mem_singleton.mp hc
    exact hclean
  | short hmem =>
    have hshort : ∀ l ∈ shorts, (!isControl l) = true := List.all_eq_true.mp (by decide)
    rcases List.mem_pair.mp hc with rfl | rfl
    · decide
    · exact (Bool.not_eq_true' _).mp (hshort _ hmem)
  | hex hfirst hsecond =>
    have hdigit : ∀ d ∈ "0123456789ABCDEF".toList, (!isControl d) = true :=
      List.all_eq_true.mp (by decide)
    simp only [List.mem_cons, List.not_mem_nil, or_false] at hc
    rcases hc with rfl | rfl | rfl | rfl
    · decide
    · decide
    · exact (Bool.not_eq_true' _).mp (hdigit _ hfirst)
    · exact (Bool.not_eq_true' _).mp (hdigit _ hsecond)

/-- No control character stands in the text of an atom. -/
theorem textOf_clean (content : String) : ∀ c ∈ (textOf content).toList, isControl c = false := by
  intro c hc
  cases hb : isBare content with
  | true =>
    rw [textOf_bare hb] at hc
    obtain ⟨-, -, -, -, hword⟩ := isBare_word hb
    exact isControl_of_isWordChar (hword c hc)
  | false =>
    rw [textOf_quoted hb] at hc
    obtain ⟨pieces, hpieces, htext⟩ := quoted_quoted content.toList
    have hquote : isControl quote = false := by decide
    rw [htext] at hc
    simp only [List.cons_append, List.mem_cons, List.mem_append, List.mem_flatten, List.not_mem_nil,
      or_false] at hc
    rcases hc with rfl | ⟨p, hp, hc⟩ | rfl
    · exact hquote
    · exact (hpieces p hp).clean c hc
    · exact hquote

/-! ### Reading back -/

/-- The reader recovers every content from its text, so that different contents have different
    texts, and it does so in front of any other text; only behind a bare atom no word character may
    follow. The text is the content itself, if that is an identifier and no keyword, and otherwise
    stands in quotes, in pieces of which none shows a quote, a backslash or a control character that
    is not escaped. An escape with a hexadecimal numeral stands for a control character, and the
    numeral has two digits, although only the least width of it is fixed. -/
theorem textOf_reads_back :
    (∀ content, decode (textOf content) = some content) ∧
    Function.Injective textOf ∧
    (∀ content rest, (isBare content = true → EndsWord isWordChar rest) →
      read ((textOf content).toList ++ rest) = some (content, rest)) ∧
    (∀ content,
      textOf content = content ∧ content ∉ keywords ∧
        (∃ c rest, content.toList = c :: rest ∧ c.isLower = true ∧
          ∀ d ∈ rest, (d.isAlphanum || d == '_') = true) ∨
      Quoted (textOf content).toList) ∧
    (∀ content, ∀ c ∈ (textOf content).toList, ¬(c.toNat < 32 ∨ 127 ≤ c.toNat ∧ c.toNat < 160)) ∧
    ∀ c first second, escape c = ['\\', 'x', first, second] →
      isControl c = true ∧ hexNumeral c.toNat = [first, second] := by
  refine ⟨decode_textOf, ?_, fun content rest => read_textOf content, ?_, ?_, ?_⟩
  · intro s t hst
    have hs := decode_textOf s
    rw [hst, decode_textOf] at hs
    exact (Option.some.inj hs).symm
  · intro content
    cases hb : isBare content with
    | true =>
      obtain ⟨hid, hkeyword⟩ := isBare_iff.mp hb
      exact .inl ⟨textOf_bare hb, hkeyword, isIdentifier_iff.mp hid⟩
    | false =>
      rw [textOf_quoted hb]
      exact .inr (quoted_quoted content.toList)
  · intro content c hc
    exact not_isControl.mp (textOf_clean content c hc)
  -- only a control character that has no letter of its own is escaped by its code
  · intro c first second he
    rcases escape_cases c with ⟨l, -, -, hc⟩ | ⟨hcontrol, hc⟩ | ⟨-, -, -, hc⟩
    · rw [hc] at he
      cases he
    · have hn := toNat_of_isControl hcontrol
      rw [hc] at he
      cases he
      exact ⟨hcontrol, hexNumeral_eq (by omega)⟩
    · rw [hc] at he
      cases he

example : textOf (String.ofList [Char.ofNat 1, 'A']) = "'\\x01A'" ∧
    decode "'\\x01A'" = some (String.ofList [Char.ofNat 1, 'A']) := by decide

end Atom

end Dataflow
