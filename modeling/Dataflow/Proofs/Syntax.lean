import Dataflow.Proofs.Scalars

/-! # The syntax of printed values

  A printed value is a tree: a *token* (the text of an atom, of an integer, of a boolean or of
  unit), or a token for the label with the fields in parentheses behind it. A field is written
  without its feature as long as the features count up from one, and with its feature and a colon
  afterwards.

  The text of a tree can be read in one way only. A token ends before the first character that it
  cannot contain, or with its closing quote; what comes next tells a label from a value and a
  feature from a value that stands alone; and in turn each field ends before a blank or the
  closing parenthesis.

  Main statement: trees with the same text are the same, and a comma in the text of a tree stands in
  quotes.
-/

namespace Dataflow

/-! ### Tokens -/

/-- What remains of a simple value once it is written down: of an atom, its content. -/
inductive Token where
  | int (i : Int)
  | atom (content : String)
  | bool (b : Bool)
  | unit
  deriving DecidableEq

/-- What remains of a literal. -/
def Literal.token : Literal → Token
  | .atom a => .atom a.content
  | .bool b => .bool b
  | .unit => .unit

/-- What remains of a feature. -/
def Feature.token : Feature → Token
  | .int i => .int i
  | .literal l => l.token

namespace Token

/-- The text of a token. -/
def text : Token → String
  | .int i => integerText i
  | .atom content => Atom.textOf content
  | .bool b => (Literal.bool b).text
  | .unit => Literal.unit.text

/-- The kind of the values that the token stands for. -/
def kind : Token → Kind
  | .int _ => .int
  | .atom _ => .atom
  | .bool _ => .bool
  | .unit => .unit

/-- The characters of a token. -/
def chars (a : Token) : List Char := a.text.toList

/-- The characters that a token without quotes is made of. -/
def isTokenChar (c : Char) : Bool := Atom.isWordChar c || c == '~'

end Token

@[simp] theorem Literal.text_token (l : Literal) : l.token.text = l.text := by
  cases l with
  | atom a => rfl
  | bool b => rfl
  | unit => rfl

@[simp] theorem Feature.text_token (f : Feature) : f.token.text = f.text := by
  cases f with
  | int i => rfl
  | literal l => exact l.text_token

theorem Node.leafText_of_asFeature? {n : Node} {f : Feature} (hf : n.asFeature? = some f) :
    n.leafText = f.token.text := by
  obtain rfl := Node.asFeature?_eq_some_iff.mp hf
  rw [Feature.text_token]
  cases f with
  | int i => rfl
  | literal l =>
    cases l with
    | atom a => rfl
    | bool b => rfl
    | unit => rfl

/-! ### Reading tokens -/

theorem repr_injective {i j : Nat} (h : Nat.repr i = Nat.repr j) : i = j := by
  have hdigits := congrArg (fun s => Nat.ofDigitChars 10 (String.toList s) 0) h
  simpa [Nat.toList_repr, Nat.ofDigitChars_ten_toDigits] using hdigits

theorem integerText_injective {i j : Int} (h : integerText i = integerText j) : i = j := by
  have hsign : ∀ k l : Nat, "~" ++ Nat.repr k ≠ Nat.repr l := by
    intro k l he
    obtain ⟨c, rest, hl, hc⟩ := repr_cons l
    rw [← he, String.toList_append] at hl
    have htilde : '~' = c := (List.cons.inj hl).1
    rw [← htilde] at hc
    revert hc
    decide
  unfold integerText at h
  split at h
  · split at h
    · have habs := repr_injective (String.append_right_inj "~" |>.mp h)
      omega
    · exact absurd h (hsign _ _)
  · split at h
    · exact absurd h.symm (hsign _ _)
    · have habs := repr_injective h
      omega

namespace Token

theorem kindOfText_text (a : Token) (ha : a ≠ .atom "inf") : kindOfText a.text = a.kind := by
  cases a with
  | int i => exact kindOfText_integer i
  | atom content => exact kindOfText_atom fun he => ha (he ▸ rfl)
  | bool b =>
    cases b with
    | false => decide
    | true => decide
  | unit => decide

/-- A token shows what it stands for. -/
theorem text_injective {a b : Token} (h : a.text = b.text) : a = b := by
  -- the atom `inf` alone has a text that is read as one of another kind, so it goes first
  have hfloat : ∀ c : Token, c ≠ .atom "inf" → c.text ≠ (Token.atom "inf").text := by
    intro c hc he
    have hk := kindOfText_text c hc
    rw [he, show kindOfText (Token.atom "inf").text = .float by decide] at hk
    cases c with
    | _ => cases hk
  by_cases ha : a = .atom "inf"
  · by_contra hne
    exact hfloat b (fun hb => hne (ha.trans hb.symm)) (ha ▸ h.symm)
  by_cases hb : b = .atom "inf"
  · exact absurd (hb ▸ h) (hfloat a ha)
  -- for all others the text tells the kind, and then the value
  have hkind : a.kind = b.kind := by
    rw [← kindOfText_text a ha, ← kindOfText_text b hb, h]
  cases a with
  | int i =>
    cases b with
    | int j => rw [integerText_injective h]
    | _ => cases hkind
  | atom s =>
    cases b with
    | atom t =>
      have hs := Atom.decode_textOf s
      rw [show Atom.textOf s = Atom.textOf t from h, Atom.decode_textOf] at hs
      rw [Option.some.inj hs]
    | _ => cases hkind
  | bool p =>
    cases b with
    | bool q =>
      have hbool : ∀ p q : Bool, (Literal.bool p).text = (Literal.bool q).text → p = q := by decide
      rw [hbool p q h]
    | _ => cases hkind
  | unit =>
    cases b with
    | unit => rfl
    | _ => cases hkind

theorem isTokenChar_of_isDigit {c : Char} (h : c.isDigit = true) : isTokenChar c = true := by
  simp [isTokenChar, Atom.isWordChar, Char.isAlphanum, h]

/-- A token is a word of its characters, or an atom in quotes. -/
theorem word_or_quoted (a : Token) :
    (a.chars ≠ [] ∧ ∀ c ∈ a.chars, isTokenChar c = true) ∨
    ∃ s, a = .atom s ∧ Atom.isBare s = false := by
  cases a with
  | int i =>
    have hi : (Token.int i).chars = (if i < 0 then ['~'] else []) ++ (Nat.repr i.natAbs).toList :=
      integerText_toList i
    rw [hi]
    refine .inl ⟨?_, fun c hc => ?_⟩
    · obtain ⟨c, rest, hc, -⟩ := repr_cons i.natAbs
      simp [hc]
    · rcases List.mem_append.mp hc with hc | hc
      · split at hc
        · rw [List.mem_singleton.mp hc]
          decide
        · cases hc
      · exact isTokenChar_of_isDigit (mem_repr_isDigit hc)
  | atom s =>
    cases hb : Atom.isBare s with
    | true =>
      obtain ⟨c, rest, hs, -, hword⟩ := Atom.isBare_word hb
      have hchars : (Token.atom s).chars = s.toList := congrArg String.toList (Atom.textOf_bare hb)
      rw [hchars]
      refine .inl ⟨by simp [hs], fun d hd => ?_⟩
      simp [isTokenChar, hword d hd]
    | false => exact .inr ⟨s, rfl, hb⟩
  | bool b =>
    have hwords : ∀ b : Bool, (Token.bool b).chars ≠ [] ∧
        (Token.bool b).chars.all isTokenChar = true := by decide
    exact .inl ⟨(hwords b).1, List.all_eq_true.mp (hwords b).2⟩
  | unit => exact .inl ⟨by decide, List.all_eq_true.mp (by decide)⟩

/-- A token starts with one of its characters or with a quote. -/
theorem chars_cons (a : Token) :
    ∃ c rest, a.chars = c :: rest ∧ (isTokenChar c = true ∨ c = Atom.quote) := by
  rcases a.word_or_quoted with ⟨hne, hword⟩ | ⟨s, rfl, hb⟩
  · obtain ⟨c, rest, hc⟩ := List.exists_cons_of_ne_nil hne
    exact ⟨c, rest, hc, .inl (hword c (hc ▸ List.mem_cons_self))⟩
  · exact ⟨Atom.quote, _, Atom.textOf_quoted hb, .inr rfl⟩

theorem isTokenChar_quote : isTokenChar Atom.quote = false := by decide

/-- Where two tokens with a delimiter behind them agree, they are the same. -/
theorem chars_append_inj {a b : Token} {rest rest' : List Char} (hr : EndsWord isTokenChar rest)
    (hr' : EndsWord isTokenChar rest') (h : a.chars ++ rest = b.chars ++ rest') :
    a = b ∧ rest = rest' := by
  -- a word does not start with a quote, and the text of a quoted atom does
  have hmixed : ∀ {c d : Token} {s s' : List Char}, c.chars ≠ [] →
      (∀ x ∈ c.chars, isTokenChar x = true) → (∃ t, d = .atom t ∧ Atom.isBare t = false) →
      c.chars ++ s ≠ d.chars ++ s' := by
    rintro c d s s' hne hword ⟨t, rfl, ht⟩ he
    obtain ⟨x, xs, hx⟩ := List.exists_cons_of_ne_nil hne
    have hquote : (Token.atom t).chars = _ := Atom.textOf_quoted ht
    rw [hx, hquote] at he
    have hfirst : x = Atom.quote := (List.cons.inj he).1
    have hxword := hword x (hx ▸ List.mem_cons_self)
    rw [hfirst, isTokenChar_quote] at hxword
    cases hxword
  rcases a.word_or_quoted with ⟨hne, hword⟩ | hquoted
  · rcases b.word_or_quoted with ⟨-, hword'⟩ | hquoted'
    · have htake := congrArg (List.takeWhile isTokenChar) h
      have hdrop := congrArg (List.dropWhile isTokenChar) h
      rw [takeWhile_word hword hr, takeWhile_word hword' hr'] at htake
      rw [dropWhile_word hword hr, dropWhile_word hword' hr'] at hdrop
      exact ⟨text_injective (String.toList_inj.mp htake), hdrop⟩
    · exact absurd h (hmixed hne hword hquoted')
  · rcases b.word_or_quoted with ⟨hne', hword'⟩ | ⟨t, rfl, -⟩
    · exact absurd h.symm (hmixed hne' hword' hquoted)
    · obtain ⟨s, rfl, -⟩ := hquoted
      have hwordEnd : ∀ {r : List Char}, EndsWord isTokenChar r → EndsWord Atom.isWordChar r := by
        intro r hr c hc
        have hstop := hr c hc
        simp only [isTokenChar, Bool.or_eq_false_iff] at hstop
        exact hstop.1
      obtain ⟨hst, hrest⟩ := Atom.textOf_append_inj (hwordEnd hr) (hwordEnd hr') h
      exact ⟨by rw [hst], hrest⟩

end Token

/-! ### Trees -/

/-- A printed value. A field has a name if its feature is written. -/
inductive Tree where
  | leaf (a : Token)
  | record (label : Token) (fields : List (Option Token × Tree))

instance : Inhabited Tree := ⟨.leaf .unit⟩

/-- The name of a field, with the colon behind it. -/
def nameChars : Option Token → List Char
  | none => []
  | some a => a.chars ++ [':']

mutual

/-- The characters of a tree. -/
def Tree.chars : Tree → List Char
  | .leaf a => a.chars
  | .record label fields => label.chars ++ '(' :: fieldsChars [] fields

/-- The characters of fields and of the parenthesis behind them, with something before the first
    field and a blank before each of the others. -/
def fieldsChars : List Char → List (Option Token × Tree) → List Char
  | _, [] => [')']
  | before, (name, value) :: rest =>
    before ++ (nameChars name ++ (value.chars ++ fieldsChars [' '] rest))

end

/-! ### Reading trees -/

/-- What may come behind a value: a blank, a closing parenthesis, or nothing. -/
def EndsValue (rest : List Char) : Prop := ∀ c ∈ rest.head?, c = ' ' ∨ c = ')'

theorem endsValue_nil : EndsValue [] := by simp [EndsValue]

theorem EndsValue.endsWord {rest : List Char} (h : EndsValue rest) :
    EndsWord Token.isTokenChar rest := by
  intro c hc
  rcases h c hc with rfl | rfl
  · decide
  · decide

theorem endsValue_fieldsChars (fields : List (Option Token × Tree)) (rest : List Char) :
    EndsValue (fieldsChars [' '] fields ++ rest) := by
  cases fields with
  | nil => simp [fieldsChars, EndsValue]
  | cons field fields => simp [fieldsChars, EndsValue]

/-- A value starts with a token, and behind that comes what comes behind the value, or a
    parenthesis. -/
theorem Tree.chars_token (t : Tree) {rest : List Char} (hr : EndsValue rest) :
    ∃ (a : Token) (after : List Char), t.chars ++ rest = a.chars ++ after ∧
      EndsWord Token.isTokenChar after ∧
      after.head? ≠ some ':' := by
  cases t with
  | leaf a =>
    refine ⟨a, rest, by rw [Tree.chars], hr.endsWord, fun hcolon => ?_⟩
    rcases hr ':' hcolon with h | h
    · revert h
      decide
    · revert h
      decide
  | record label fields =>
    refine ⟨label, '(' :: (fieldsChars [] fields ++ rest), ?_, ?_, by simp⟩
    · rw [Tree.chars, List.append_assoc, List.cons_append]
    · rw [endsWord_cons]
      decide

/-- A name with its colon cannot be taken for a value. -/
theorem name_ne_value (a : Token) (t : Tree) {rest after : List Char} (hr : EndsValue rest) :
    nameChars (some a) ++ after ≠ t.chars ++ rest := by
  intro h
  obtain ⟨b, behind, hb, hstops, hcolon⟩ := t.chars_token hr
  have hstop : EndsWord Token.isTokenChar (':' :: after) := endsWord_cons.mpr (by decide)
  rw [hb, nameChars, List.append_assoc] at h
  obtain ⟨-, hbehind⟩ := Token.chars_append_inj hstop hstops h
  rw [← hbehind] at hcolon
  exact hcolon rfl

/-- The value can be read: it is told from all others by its characters. -/
def Tree.Legible (s : Tree) : Prop :=
  ∀ (t : Tree) (rest rest' : List Char), EndsValue rest → EndsValue rest' →
    s.chars ++ rest = t.chars ++ rest' → s = t ∧ rest = rest'

/-- A field can be read if its value can. -/
theorem field_append_inj {name name' : Option Token} {s t : Tree} {rest rest' : List Char}
    (hs : s.Legible) (hr : EndsValue rest) (hr' : EndsValue rest')
    (h : nameChars name ++ (s.chars ++ rest) = nameChars name' ++ (t.chars ++ rest')) :
    name = name' ∧ s = t ∧ rest = rest' := by
  have hcolon : ∀ more, EndsWord Token.isTokenChar (':' :: more) := fun more =>
    endsWord_cons.mpr (by decide)
  cases name with
  | none =>
    cases name' with
    | none => exact ⟨rfl, hs t rest rest' hr hr' h⟩
    | some b => exact absurd h.symm (name_ne_value b s hr)
  | some a =>
    cases name' with
    | none => exact absurd h (name_ne_value a t hr')
    | some b =>
      simp only [nameChars, List.append_assoc] at h
      obtain ⟨rfl, hvalues⟩ := Token.chars_append_inj (hcolon _) (hcolon _) h
      exact ⟨rfl, hs t rest rest' hr hr' (List.cons.inj hvalues).2⟩

/-- A field does not start with a closing parenthesis. -/
theorem field_ne_close (name : Option Token) (t : Tree) (rest after : List Char) :
    nameChars name ++ (t.chars ++ rest) ≠ ')' :: after := by
  have htoken : ∀ (a : Token) (more : List Char), a.chars ++ more ≠ ')' :: after := by
    intro a more h
    obtain ⟨c, cs, hc, hfirst⟩ := a.chars_cons
    rw [hc] at h
    rw [(List.cons.inj h).1] at hfirst
    revert hfirst
    decide
  cases name with
  | none =>
    cases t with
    | leaf a => simpa [nameChars, Tree.chars] using htoken a rest
    | record label fields =>
      simpa [nameChars, Tree.chars] using htoken label ('(' :: (fieldsChars [] fields ++ rest))
  | some a => simpa [nameChars] using htoken a (':' :: (t.chars ++ rest))

theorem endsWord_open (more : List Char) : EndsWord Token.isTokenChar ('(' :: more) :=
  endsWord_cons.mpr (by decide)

/-- A token with a delimiter behind it cannot be taken for a label. -/
theorem token_ne_label {a label : Token} {rest more : List Char} (hr : EndsValue rest) :
    a.chars ++ rest ≠ label.chars ++ '(' :: more := by
  intro h
  obtain ⟨-, rfl⟩ := Token.chars_append_inj hr.endsWord (endsWord_open more) h
  rcases hr '(' rfl with hparen | hparen
  · revert hparen
    decide
  · revert hparen
    decide

-- by recursion on the tree, as the text is made: what ends a value is never part of a token, so
-- the text splits at the same place in both trees
mutual

/-- Every tree can be read. -/
theorem Tree.legible : ∀ s : Tree, s.Legible
  | .leaf a, t, rest, rest', hr, hr', h => by
    cases t with
    | leaf b =>
      rw [Tree.chars, Tree.chars] at h
      obtain ⟨rfl, hrest⟩ := Token.chars_append_inj hr.endsWord hr'.endsWord h
      exact ⟨rfl, hrest⟩
    | record label fields =>
      rw [Tree.chars, Tree.chars, List.append_assoc, List.cons_append] at h
      exact absurd h (token_ne_label hr)
  | .record label fields, t, rest, rest', hr, hr', h => by
    cases t with
    | leaf b =>
      rw [Tree.chars, Tree.chars, List.append_assoc, List.cons_append] at h
      exact absurd h.symm (token_ne_label hr')
    | record label' fields' =>
      rw [Tree.chars, Tree.chars, List.append_assoc, List.append_assoc, List.cons_append,
        List.cons_append] at h
      obtain ⟨rfl, hfields⟩ := Token.chars_append_inj (endsWord_open _) (endsWord_open _) h
      obtain ⟨rfl, hrest⟩ := fieldsChars_append_inj fields fields' [] rest rest' (.inl rfl)
        (List.cons.inj hfields).2
      exact ⟨rfl, hrest⟩

/-- Fields can be read up to the parenthesis behind them. -/
theorem fieldsChars_append_inj : ∀ (xs ys : List (Option Token × Tree))
    (before rest rest' : List Char), (before = [] ∨ before = [' ']) →
    fieldsChars before xs ++ rest = fieldsChars before ys ++ rest' →
    xs = ys ∧ rest = rest'
  | [], [], before, rest, rest', _, h => by
    rw [fieldsChars] at h
    exact ⟨rfl, (List.cons.inj h).2⟩
  -- a bracket that closes is not the start of a field
  | [], (name, t) :: ys, before, rest, rest', hb, h => by
    rw [fieldsChars, fieldsChars] at h
    rcases hb with rfl | rfl
    · simp only [List.nil_append, List.append_assoc] at h
      exact absurd h.symm (field_ne_close name t _ _)
    · simp at h
  | (name, s) :: xs, [], before, rest, rest', hb, h => by
    rw [fieldsChars, fieldsChars] at h
    rcases hb with rfl | rfl
    · simp only [List.nil_append, List.append_assoc] at h
      exact absurd h (field_ne_close name s _ _)
    · simp at h
  | (name, s) :: xs, (name', t) :: ys, before, rest, rest', _, h => by
    simp only [fieldsChars, List.append_assoc] at h
    obtain ⟨rfl, rfl, hmore⟩ := field_append_inj (Tree.legible s) (endsValue_fieldsChars xs rest)
      (endsValue_fieldsChars ys rest') (List.append_cancel_left h)
    obtain ⟨rfl, hrest⟩ := fieldsChars_append_inj xs ys [' '] rest rest' (.inr rfl) hmore
    exact ⟨rfl, hrest⟩

end

/-- Trees with the same text are the same. -/
theorem Tree.chars_injective {s t : Tree} (h : s.chars = t.chars) : s = t :=
  (s.legible t [] [] endsValue_nil endsValue_nil (by rw [h])).1

/-! ### Fields as they are written -/

section Fields

variable {α β : Type}

/-- Fields with the names that are written before them: none as long as the features count up
    from `k`. -/
def written : Int → List (Feature × α) → List (Option Token × α)
  | _, [] => []
  | k, (f, x) :: rest =>
    if f = .int k then (none, x) :: written (k + 1) rest
    else ((f, x) :: rest).map fun entry => (some entry.1.token, entry.2)

theorem written_counted {k : Int} {x : α} {rest : List (Feature × α)} :
    written k ((.int k, x) :: rest) = (none, x) :: written (k + 1) rest := by
  simp [written]

theorem written_named {k : Int} {f : Feature} {x : α} {rest : List (Feature × α)}
    (hf : f ≠ .int k) :
    written k ((f, x) :: rest) =
      (some f.token, x) :: rest.map fun entry => (some entry.1.token, entry.2) := by
  simp [written, hf]

/-- The features and the fields show in the fields as they are written. -/
theorem written_inj {k : Int} {es es' : List (Feature × α)} (h : written k es = written k es') :
    (es.map fun e => (e.1.token, e.2)) = es'.map fun e => (e.1.token, e.2) := by
  -- along both lists: two fields that count up are at the same index, so both are or neither is
  induction es generalizing k es' with
  | nil =>
    cases es' with
    | nil => rfl
    | cons e' es' =>
      obtain ⟨g, y⟩ := e'
      by_cases hg : g = .int k
      · rw [hg, written_counted] at h
        cases h
      · rw [written_named hg] at h
        cases h
  | cons e es ih =>
    obtain ⟨f, x⟩ := e
    cases es' with
    | nil =>
      by_cases hf : f = .int k
      · rw [hf, written_counted] at h
        cases h
      · rw [written_named hf] at h
        cases h
    | cons e' es' =>
      obtain ⟨g, y⟩ := e'
      by_cases hf : f = .int k
      · by_cases hg : g = .int k
        · rw [hf, hg, written_counted, written_counted] at h
          have hrest := ih (List.cons.inj h).2
          have hxy : x = y := congrArg Prod.snd (List.cons.inj h).1
          simp [hf, hg, hxy, hrest]
        · rw [hf, written_counted, written_named hg] at h
          cases (List.cons.inj h).1
      · by_cases hg : g = .int k
        · rw [hg, written_counted, written_named hf] at h
          cases (List.cons.inj h).1
        · -- From the first feature that does not count up, all of them are written.
          rw [written_named hf, written_named hg] at h
          have hall := congrArg (List.map fun e : Option Token × α => (e.1.getD .unit, e.2)) h
          simpa [Function.comp_def] using hall

theorem written_zip_inj {k : Int} {fs gs : List Feature} {xs ys : List α}
    (hf : fs.length = xs.length) (hg : gs.length = ys.length)
    (h : written k (fs.zip xs) = written k (gs.zip ys)) :
    fs.map Feature.token = gs.map Feature.token ∧ xs = ys := by
  have hentries := written_inj h
  have htokens := congrArg (List.map Prod.fst) hentries
  have hvalues := congrArg (List.map Prod.snd) hentries
  have hfirst : ∀ {fs : List Feature} {xs : List α}, fs.length = xs.length →
      (fs.zip xs).map (fun e => e.1.token) = fs.map Feature.token := by
    intro fs xs hlen
    calc (fs.zip xs).map (fun e => e.1.token)
        = ((fs.zip xs).map Prod.fst).map Feature.token := by rw [List.map_map]; rfl
      _ = fs.map Feature.token := by rw [List.map_fst_zip (by omega)]
  simp only [List.map_map, Function.comp_def] at htokens hvalues
  rw [hfirst hf, hfirst hg] at htokens
  rw [List.map_snd_zip (by omega), List.map_snd_zip (by omega)] at hvalues
  exact ⟨htokens, hvalues⟩

theorem written_map (g : α → β) (k : Int) (es : List (Feature × α)) :
    written k (es.map (Prod.map id g)) = (written k es).map (Prod.map id g) := by
  induction es generalizing k with
  | nil => rfl
  | cons e es ih =>
    obtain ⟨f, x⟩ := e
    by_cases hf : f = .int k
    · rw [hf, List.map_cons, Prod.map_apply, written_counted, id, written_counted, ih,
        List.map_cons]
      rfl
    · rw [List.map_cons, Prod.map_apply, id, written_named hf, written_named hf]
      simp [Function.comp_def]

theorem written_values (k : Int) (es : List (Feature × α)) :
    (written k es).map Prod.snd = es.map Prod.snd := by
  induction es generalizing k with
  | nil => rfl
  | cons e es ih =>
    obtain ⟨f, x⟩ := e
    by_cases hf : f = .int k
    · rw [hf, written_counted, List.map_cons, ih, List.map_cons]
    · rw [written_named hf]
      simp

/-- The values of the fields are all written, and nothing else. -/
theorem exists_written_iff {k : Int} {fs : List Feature} {xs : List α}
    (hlen : fs.length = xs.length)
    (P : α → Prop) : (∃ field ∈ written k (fs.zip xs), P field.2) ↔ ∃ x ∈ xs, P x := by
  have hvalues : (written k (fs.zip xs)).map Prod.snd = xs := by
    rw [written_values, List.map_snd_zip (by omega)]
  constructor
  · rintro ⟨field, hfield, hp⟩
    exact ⟨field.2, hvalues ▸ List.mem_map_of_mem hfield, hp⟩
  · rintro ⟨x, hx, hp⟩
    rw [← hvalues] at hx
    obtain ⟨field, hfield, rfl⟩ := List.mem_map.mp hx
    exact ⟨field, hfield, hp⟩

end Fields

/-- The characters of fields as they are written, given the characters of their values. -/
def joined : List Char → List (Option Token × List Char) → List Char
  | _, [] => [')']
  | before, (name, value) :: rest => before ++ (nameChars name ++ (value ++ joined [' '] rest))

theorem fieldsChars_eq_joined (before : List Char) (fields : List (Option Token × Tree)) :
    fieldsChars before fields = joined before (fields.map (Prod.map id Tree.chars)) := by
  induction fields generalizing before with
  | nil => rw [fieldsChars, List.map_nil, joined]
  | cons field fields ih =>
    obtain ⟨name, value⟩ := field
    rw [fieldsChars, List.map_cons, Prod.map_apply, joined, ih]
    rfl

/-- The text of a field. -/
def fieldText : Option Token × String → String
  | (none, text) => text
  | (some a, text) => a.text ++ ":" ++ text

theorem fieldText_toList (field : Option Token × String) :
    (fieldText field).toList = nameChars field.1 ++ field.2.toList := by
  obtain ⟨name, text⟩ := field
  cases name with
  | none => rfl
  | some a => simp [fieldText, nameChars, Token.chars]

theorem fieldTexts_eq (k : Int) (features : List Feature) (texts : List String) :
    fieldTexts k features texts = (written k (features.zip texts)).map fieldText := by
  induction features generalizing k texts with
  | nil => simp [fieldTexts, written]
  | cons f features ih =>
    cases texts with
    | nil => simp [fieldTexts, written]
    | cons text texts =>
      rw [fieldTexts, List.zip_cons_cons]
      by_cases hf : f = .int k
      · rw [hf, if_pos rfl, written_counted, List.map_cons, ih]
        rfl
      · rw [if_neg hf, written_named hf]
        simp [fieldText, List.map_zip_eq_zipWith, Function.curry]

theorem joined_eq (fields : List (Option Token × String)) :
    (" ".intercalate (fields.map fieldText)).toList ++ [')'] =
      joined [] (fields.map (Prod.map id String.toList)) := by
  cases fields with
  | nil => rfl
  | cons first rest =>
    rw [List.map_cons, List.map_cons, Prod.map, joined, List.nil_append]
    induction rest generalizing first with
    | nil => simp [fieldText_toList, joined]
    | cons second rest ih =>
      have hrest := ih second
      rw [List.map_cons, String.intercalate_cons_cons]
      simp only [String.toList_append, fieldText_toList, List.append_assoc, List.map_cons, Prod.map,
        joined]
      rw [hrest]
      rfl

/-- The characters of a record are its label and its fields in parentheses. -/
theorem Record.text_toList (r : Record) (texts : List String) :
    (r.text texts).toList = r.label.token.chars ++
      '(' :: joined [] ((written 1 (r.features.zip texts)).map (Prod.map id String.toList)) := by
  rw [Record.text, fieldTexts_eq, ← joined_eq]
  simp [Token.chars]

/-! ### What stands outside of quotes -/

/-- Where a character stands. -/
inductive Side where
  | outside
  | inside
  /-- Inside of quotes and behind a backslash. -/
  | escaped

/-- The characters of a text that stand outside of quotes, if the text starts at the given place. -/
def unquoted : Side → List Char → List Char
  | _, [] => []
  | .outside, c :: text =>
    if c = Atom.quote then unquoted .inside text else c :: unquoted .outside text
  | .inside, c :: text =>
    if c = Atom.quote then unquoted .outside text
    else if c = '\\' then unquoted .escaped text
    else unquoted .inside text
  | .escaped, _ :: text => unquoted .inside text

/-- The characters that stand outside of quotes. -/
def outside (text : List Char) : List Char := unquoted .outside text

theorem inside_escape (c : Char) (text : List Char) :
    unquoted .inside (Atom.escape c ++ text) = unquoted .inside text := by
  have hback : ('\\' : Char) ≠ Atom.quote := by decide
  rcases Atom.escape_cases c with ⟨l, -, -, he⟩ | ⟨hcontrol, he⟩ | ⟨hq, hb, -, he⟩
  · rw [he]
    simp [unquoted, hback]
  · have hdigit : ∀ k : Fin 16, Atom.hexDigit k ≠ Atom.quote ∧ Atom.hexDigit k ≠ '\\' := by decide
    have hn := Atom.toNat_of_isControl hcontrol
    obtain ⟨hhq, hhb⟩ := hdigit ⟨c.toNat / 16, by omega⟩
    obtain ⟨hlq, hlb⟩ := hdigit ⟨c.toNat % 16, by omega⟩
    rw [he]
    simp [unquoted, hback, hhq, hhb, hlq, hlb]
  · rw [he]
    simp [unquoted, hq, hb]

/-- Nothing of a quoted atom stands outside of quotes. -/
theorem outside_quoted (content rest : List Char) :
    outside (Atom.quoted content ++ rest) = outside rest := by
  have hinside :
      unquoted .inside (content.flatMap Atom.escape ++ Atom.quote :: rest) = outside rest := by
    induction content with
    | nil => simp [unquoted, outside]
    | cons c content ih => rw [List.flatMap_cons, List.append_assoc, inside_escape, ih]
  rw [Atom.quoted, List.append_assoc]
  simpa [outside, unquoted] using hinside

theorem outside_plain {text : List Char} (h : Atom.quote ∉ text) (rest : List Char) :
    outside (text ++ rest) = text ++ outside rest := by
  induction text with
  | nil => rfl
  | cons c text ih =>
    obtain ⟨hc, ht⟩ := not_or.mp (mt List.mem_cons.mpr h)
    have hrest := ih ht
    unfold outside at hrest ⊢
    rw [List.cons_append, unquoted, if_neg (Ne.symm hc), hrest]
    rfl

/-- The text ends outside of quotes. -/
def QuotesClosed (text : List Char) : Prop :=
  ∀ rest, outside (text ++ rest) = outside text ++ outside rest

theorem QuotesClosed.append {s t : List Char} (hs : QuotesClosed s) (ht : QuotesClosed t) :
    QuotesClosed (s ++ t) := by
  intro rest
  rw [List.append_assoc, hs, hs, ht, List.append_assoc]

theorem closed_plain {text : List Char} (h : Atom.quote ∉ text) : QuotesClosed text := by
  have hself : outside text = text := by
    simpa [outside, unquoted] using outside_plain h []
  intro rest
  rw [outside_plain h, hself]

theorem Token.closed_chars (a : Token) : QuotesClosed a.chars := by
  rcases a.word_or_quoted with ⟨-, hword⟩ | ⟨s, rfl, hb⟩
  · refine closed_plain fun hmem => ?_
    cases (Token.isTokenChar_quote).symm.trans (hword _ hmem)
  · have hchars : (Token.atom s).chars = _ := Atom.textOf_quoted hb
    intro rest
    have hself := outside_quoted s.toList []
    rw [List.append_nil] at hself
    rw [hchars, outside_quoted, hself]
    rfl

/-- A comma in a token stands in quotes. -/
theorem Token.comma_outside (a : Token) : ',' ∉ outside a.chars := by
  rcases a.word_or_quoted with ⟨-, hword⟩ | ⟨s, rfl, hb⟩
  · have hplain : Atom.quote ∉ a.chars := fun hmem => by
      cases (Token.isTokenChar_quote).symm.trans (hword _ hmem)
    have hself := outside_plain hplain []
    rw [List.append_nil] at hself
    rw [hself]
    intro hmem
    have hcomma : Token.isTokenChar ',' = false := by decide
    rcases List.mem_append.mp hmem with hmem | hmem
    · cases hcomma.symm.trans (hword _ hmem)
    · cases hmem
  · have hchars : (Token.atom s).chars = _ := Atom.textOf_quoted hb
    have hself := outside_quoted s.toList []
    rw [List.append_nil] at hself
    rw [hchars, hself]
    nofun

theorem closed_name (name : Option Token) :
    QuotesClosed (nameChars name) ∧ ',' ∉ outside (nameChars name) := by
  cases name with
  | none => exact ⟨closed_plain nofun, nofun⟩
  | some a =>
    have hcolon : QuotesClosed [':'] ∧ ',' ∉ outside [':'] := ⟨closed_plain (by decide), by decide⟩
    refine ⟨a.closed_chars.append hcolon.1, ?_⟩
    rw [nameChars, a.closed_chars, List.mem_append]
    rintro (hmem | hmem)
    · exact a.comma_outside hmem
    · exact hcolon.2 hmem

/-- Fields end outside of quotes if their values do, and a comma of theirs outside of quotes stands
    in one of the values. -/
theorem closed_joined {before : List Char} (hb : before = [] ∨ before = [' '])
    {fields : List (Option Token × List Char)} (hf : ∀ field ∈ fields, QuotesClosed field.2) :
    QuotesClosed (joined before fields) ∧
      (',' ∈ outside (joined before fields) ↔ ∃ field ∈ fields, ',' ∈ outside field.2) := by
  have hbefore : QuotesClosed before ∧ ',' ∉ outside before := by
    rcases hb with rfl | rfl
    · exact ⟨closed_plain nofun, nofun⟩
    · exact ⟨closed_plain (by decide), by decide⟩
  induction fields generalizing before with
  | nil =>
    refine ⟨closed_plain ?_, ?_⟩
    · simp [joined, Atom.quote]
    · simp [joined, outside, unquoted, Atom.quote]
  | cons field fields ih =>
    obtain ⟨name, value⟩ := field
    have hvalue := hf _ List.mem_cons_self
    obtain ⟨hname, hnocomma⟩ := closed_name name
    obtain ⟨hrest, hiff⟩ := ih (.inr rfl) (fun e he => hf e (List.mem_cons_of_mem _ he))
      ⟨closed_plain (by decide), by decide⟩
    refine ⟨hbefore.1.append (hname.append (hvalue.append hrest)), ?_⟩
    rw [joined, hbefore.1, hname, hvalue]
    simp [hbefore.2, hnocomma, hiff]

/-- The same of a record, with its label. -/
theorem closed_record (label : Token) {fields : List (Option Token × List Char)}
    (hf : ∀ field ∈ fields, QuotesClosed field.2) :
    QuotesClosed (label.chars ++ '(' :: joined [] fields) ∧
      (',' ∈ outside (label.chars ++ '(' :: joined [] fields) ↔
        ∃ field ∈ fields, ',' ∈ outside field.2) := by
  obtain ⟨hclosed, hiff⟩ := closed_joined (.inl rfl) hf
  have hopen : QuotesClosed ['('] ∧ ',' ∉ outside ['('] := ⟨closed_plain (by decide), by decide⟩
  refine ⟨label.closed_chars.append (hopen.1.append hclosed), ?_⟩
  rw [label.closed_chars, show '(' :: joined [] fields = ['('] ++ joined [] fields from rfl,
    hopen.1]
  simp [label.comma_outside, hopen.2, hiff]

end Dataflow
