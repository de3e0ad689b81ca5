import Dataflow.Atom

/-! # The text of an atom

  An atom that looks like an identifier is written as it is: it starts with a small
  ASCII letter, goes on with ASCII letters, digits and underscores, and is no
  keyword. Every other atom stands between single quotes, with the quote, the
  backslash and the control characters escaped.
-/

namespace Dataflow.Atom

/-! ### Bare atoms -/

/-- The words that the language keeps for itself. -/
def keywords : List String :=
  [ "andthen", "at", "attr", "break", "case", "catch", "choice", "class", "collect", "cond",
    "declare", "define", "dis", "div", "do", "else", "elsecase", "elseif", "elseof", "end",
    "fail", "false", "feat", "finally", "for", "from", "fun", "functor", "if", "import", "in",
    "lazy", "local", "lock", "meth", "mod", "not", "of", "or", "orelse", "prepare", "proc",
    "prop", "raise", "require", "return", "self", "skip", "then", "thread", "true", "try",
    "unit" ]

/-- A character that may follow the first one of an identifier. -/
def isWordChar (c : Char) : Bool := c.isAlphanum || c == '_'

/-- Whether the characters form an identifier that starts with a small letter. -/
def isIdentifier : List Char → Bool
  | [] => false
  | c :: rest => c.isLower && rest.all isWordChar

/-- Whether an atom is written without quotes. -/
def isBare (content : String) : Bool :=
  isIdentifier content.toList && !keywords.contains content

/-! ### Quoted atoms -/

/-- The single quote. -/
def quote : Char := Char.ofNat 39

/-- The control characters: the first thirty-two, and those from 127 to 159. -/
def isControl (c : Char) : Bool :=
  c.toNat < 32 || (127 ≤ c.toNat && c.toNat < 160)

/-- A hexadecimal digit, with capital letters. -/
def hexDigit (n : Nat) : Char := Char.ofNat (if n < 10 then 48 + n else 55 + n)

/-- A character inside quotes. Control characters without a letter of their own are
    written with two hexadecimal digits, which suffice below 160. -/
def escape (c : Char) : List Char :=
  if c = quote then ['\\', quote]
  else if c = '\\' then ['\\', '\\']
  else if c = '\n' then ['\\', 'n']
  else if c = '\t' then ['\\', 't']
  else if c = '\r' then ['\\', 'r']
  else if isControl c then ['\\', 'x', hexDigit (c.toNat / 16), hexDigit (c.toNat % 16)]
  else [c]

/-- The characters between single quotes. -/
def quoted (content : List Char) : List Char :=
  quote :: content.flatMap escape ++ [quote]

/-- The text of an atom with this content. -/
def textOf (content : String) : String :=
  if isBare content then content else String.ofList (quoted content.toList)

/-- The text of an atom. -/
def text (a : Atom) : String := textOf a.content

end Dataflow.Atom
