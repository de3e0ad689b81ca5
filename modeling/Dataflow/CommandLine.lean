import Dataflow.Machine

/-! # The command line

  A command line is `[OPTION]… COMMAND`. The options stand before the command: `-v` or `--verbose`,
  any number of times, and four options that take a number, each at most once. The
  commands are `demo`, `intern [WORD]…` and `collect [N]`. Arguments are read from left to
  right, and the first mistake counts, unless the version was asked for before it.
-/

namespace Dataflow.CommandLine

/-! ### What can be asked -/

/-- A command. -/
inductive Command where
  /-- Run two threads that communicate through a variable. -/
  | demo
  /-- Intern words and show which are the same atom. -/
  | intern (words : List String)
  /-- Build so many records, and collect all but one. -/
  | collect (records : Nat)
  deriving DecidableEq

/-- What a command line asks for. -/
inductive Invocation where
  | version
  /-- A command, on a machine with this configuration. -/
  | run (configuration : Configuration) (command : Command)
  deriving DecidableEq

/-- What is wrong with a command line. -/
inductive UsageError where
  | unknownOption (argument : String)
  | unexpectedValue (option : String)
  | missingValue (option : String)
  /-- A value is no number of 64 bits. -/
  | invalidNumber (text : String)
  | repeatedOption (option : String)
  | missingCommand
  | unknownCommand (name : String)
  /-- A command takes fewer arguments. -/
  | unexpectedArgument (argument : String)
  deriving DecidableEq

/-! ### Numbers -/

/-- The value of decimal digits. -/
def digitsValue? : List Char → Nat → Option Nat
  | [], n => some n
  | c :: cs, n => if c.isDigit then digitsValue? cs (10 * n + (c.toNat - 48)) else none

/-- A number below `2 ^ 64` in decimal digits, with at most one plus sign before them. -/
def number? (text : String) : Option Nat :=
  let digits := match text.toList with
    | '+' :: rest => rest
    | all => all
  if digits.isEmpty then none
  else (digitsValue? digits 0).filter fun n => decide (n < Nat.pow 2 64)

/-- A number, or what is wrong with it. -/
def number (text : String) : Except UsageError Nat :=
  match number? text with
  | some n => .ok n
  | none => .error (.invalidNumber text)

/-! ### Options -/

/-- The options that take a number. -/
inductive Setting where
  | capacity
  | threshold
  | quantum
  | printDepth
  deriving DecidableEq

namespace Setting

/-- The name of an option. -/
def name : Setting → String
  | .capacity => "heap-capacity"
  | .threshold => "gc-threshold"
  | .quantum => "quantum"
  | .printDepth => "print-depth"

/-- The option of a name. -/
def ofName? (name : String) : Option Setting :=
  [capacity, threshold, quantum, printDepth].find? (·.name == name)

/-- The value of an option so far. -/
def get? (c : Configuration) : Setting → Option Nat
  | .capacity => c.capacity
  | .threshold => c.threshold
  | .quantum => c.quantum
  | .printDepth => c.printDepth

/-- The configuration with a value for an option. -/
def set (c : Configuration) (n : Nat) : Setting → Configuration
  | .capacity => { c with capacity := some n }
  | .threshold => { c with threshold := some n }
  | .quantum => { c with quantum := some n }
  | .printDepth => { c with printDepth := some n }

/-- Gives an option its value, once. -/
def assign (s : Setting) (c : Configuration) (text : String) : Except UsageError Configuration := do
  if (s.get? c).isSome then throw (.repeatedOption s.name)
  return s.set c (← number text)

end Setting

/-- A long option: its name, and what follows an equals sign. -/
def splitOption (body : List Char) : String × Option String :=
  let name := String.ofList (body.takeWhile (· != '='))
  match body.dropWhile (· != '=') with
  | [] => (name, none)
  | _ :: value => (name, some (String.ofList value))

/-! ### Arguments -/

/-- The arguments of a command. Before two hyphens, an argument that starts with a hyphen and goes
    on is an option, and no command has any; after them everything is an argument. -/
def arguments : List String → Except UsageError (List String)
  | [] => .ok []
  | arg :: rest =>
    if arg = "--" then .ok rest
    else if arg.startsWith "-" && arg != "-" then .error (.unknownOption arg)
    else (arguments rest).map (arg :: ·)

/-- The number of records that are collected if the command does not say. -/
def defaultRecords : Nat := 1000

/-- A command with its arguments. -/
def command (name : String) (rest : List String) : Except UsageError Command := do
  match name with
  | "demo" =>
    match ← arguments rest with
    | [] => return .demo
    | arg :: _ => throw (.unexpectedArgument arg)
  | "intern" => return .intern (← arguments rest)
  | "collect" =>
    match ← arguments rest with
    | [] => return .collect defaultRecords
    | [n] => return .collect (← number n)
    | _ :: arg :: _ => throw (.unexpectedArgument arg)
  | _ => throw (.unknownCommand name)

/-- Short options behind one hyphen. The answer is whether the version was asked for. -/
def shortOptions : List Char → Except UsageError Bool
  | [] => .ok false
  | 'v' :: rest => shortOptions rest
  | 'V' :: _ => .ok true
  | c :: _ => .error (.unknownOption (String.ofList ['-', c]))

/-- Reads arguments up to the command. -/
def parse (c : Configuration) : List String → Except UsageError Invocation
  | [] => .error .missingCommand
  | arg :: rest =>
    match arg.toList with
    | ['-', '-'] =>
      .error (match rest with
        | [] => .missingCommand
        | next :: _ => .unexpectedArgument next)
    | '-' :: '-' :: body =>
      match splitOption body with
      | ("verbose", none) => parse c rest
      | ("version", none) => .ok .version
      | ("verbose", some _) => .error (.unexpectedValue "verbose")
      | ("version", some _) => .error (.unexpectedValue "version")
      | (name, value) =>
        match Setting.ofName? name, value, rest with
        | none, _, _ => .error (.unknownOption arg)
        | some s, some value, rest => do parse (← s.assign c value) rest
        | some s, none, [] => .error (.missingValue s.name)
        | some s, none, value :: rest => do parse (← s.assign c value) rest
    -- one hyphen and more: a cluster of short options
    | '-' :: first :: more => do
      if ← shortOptions (first :: more) then return .version else parse c rest
    -- anything else, a lone hyphen included, is the name of the command
    | _ => do return .run c (← command arg rest)

end Dataflow.CommandLine
