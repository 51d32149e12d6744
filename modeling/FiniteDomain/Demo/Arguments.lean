/-!
# Command lines

The demonstrations take at most one positional number, options that are given a
number, and switches. An option is written `--name 5` or `--name=5`, before or after
the positional number; two dashes alone end the options. Nothing may be given twice.

A number is written in decimal digits, with a plus sign in front if one likes.
-/

namespace FiniteDomain.Demo

/-- What a command line may contain, with the largest number each place accepts. -/
structure Usage where
  /-- The largest positional number. -/
  positional : Nat
  /-- The options and the largest number of each. -/
  options : List (String × Nat)
  switches : List String

/-- What a command line did contain. -/
structure Arguments where
  positional : Option Nat := none
  options : List (String × Nat) := []
  switches : List String := []

/-- The largest number of 64 bits. -/
def wordMax : Nat := 18446744073709551615

/-- The largest number of 32 bits. -/
def halfWordMax : Nat := 4294967295

/-- Reads decimal digits on top of the number read so far. -/
def digits? : List Char → Nat → Option Nat
  | [], n => some n
  | c :: cs, n => if c.isDigit then digits? cs (10 * n + (c.toNat - '0'.toNat)) else none

/-- Reads a number that is at most `largest`. -/
def number? (largest : Nat) (text : List Char) : Option Nat :=
  let digits :=
    match text with
    | '+' :: rest => rest
    | _ => text
  if digits.isEmpty then none
  else (digits? digits 0).filter (· ≤ largest)

/-- The name of an option and what follows its equals sign. -/
def splitOption (text : List Char) : String × Option (List Char) :=
  match text.dropWhile (· != '=') with
  | [] => (String.ofList text, none)
  | _ :: value => (String.ofList (text.takeWhile (· != '=')), some value)

namespace Arguments

/-- The number given for an option. -/
def option? (a : Arguments) (name : String) : Option Nat := a.options.lookup name

def hasSwitch (a : Arguments) (name : String) : Bool := a.switches.contains name

/-- Accepts the positional number, once. -/
def addPositional (u : Usage) (a : Arguments) (text : String) : Option Arguments :=
  match a.positional with
  | some _ => none
  | none => do
      let n ← number? u.positional text.toList
      return { a with positional := some n }

/-- Accepts the number of an option, once. -/
def addOption (u : Usage) (a : Arguments) (name : String) (value : List Char) :
    Option Arguments :=
  match a.options.lookup name, u.options.lookup name with
  | none, some largest => do
      let n ← number? largest value
      return { a with options := (name, n) :: a.options }
  | _, _ => none

/-- Accepts a switch, once. -/
def addSwitch (u : Usage) (a : Arguments) (name : String) : Option Arguments :=
  if u.switches.contains name && !a.switches.contains name then
    some { a with switches := name :: a.switches }
  else none

/-- Reads words that are no options. -/
def readPositionals (u : Usage) : List String → Arguments → Option Arguments
  | [], a => some a
  | word :: rest, a => do readPositionals u rest (← a.addPositional u word)

/-- Reads the words of a command line on top of what was read so far. -/
def read (u : Usage) : List String → Arguments → Option Arguments
  | [], a => some a
  | word :: rest, a =>
      match word.toList with
      | ['-', '-'] => readPositionals u rest a
      | '-' :: '-' :: body =>
          match splitOption body with
          | (name, some value) => do read u rest (← a.addOption u name value)
          | (name, none) =>
              if u.switches.contains name then do read u rest (← a.addSwitch u name)
              else
                match rest with
                | [] => none
                | value :: rest => do read u rest (← a.addOption u name value.toList)
      | _ => do read u rest (← a.addPositional u word)

end Arguments

/-- Reads a command line, unless it is not one of the usage. -/
def Usage.parse? (u : Usage) (words : List String) : Option Arguments :=
  Arguments.read u words {}

end FiniteDomain.Demo
