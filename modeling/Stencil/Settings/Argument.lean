-- SUMMARY: Settings that are given as arguments, and why an argument is refused.
import Stencil.Settings.Basic

/-! # Arguments

An argument may be any value. It is accepted if it stands for a value of the type of its setting:
numbers for truth values, texts for numbers, whole floating-point numbers for integers. The bounds
have to be greater than zero.
-/

namespace Stencil

inductive Argument
  | truth (b : Bool)
  | whole (n : Int)
  | real (x : Float)
  | text (s : String)
  /-- Nothing, or a value with parts. -/
  | other

inductive Refusal
  | noTruth
  | unclearTruth
  | noReal
  | unclearReal
  | noInteger
  | unclearInteger
  | fractional
  | infinite
  | tooLarge
  | notPositive
  deriving DecidableEq, Repr

namespace Refusal

def name : Refusal → String
  | .noTruth => "bool_type"
  | .unclearTruth => "bool_parsing"
  | .noReal => "float_type"
  | .unclearReal => "float_parsing"
  | .noInteger => "int_type"
  | .unclearInteger => "int_parsing"
  | .fractional => "int_from_float"
  | .infinite => "finite_number"
  | .tooLarge => "int_parsing_size"
  | .notPositive => "greater_than"

def message : Refusal → String
  | .noTruth => "Input should be a valid boolean"
  | .unclearTruth => "Input should be a valid boolean, unable to interpret input"
  | .noReal => "Input should be a valid number"
  | .unclearReal => "Input should be a valid number, unable to parse string as a number"
  | .noInteger => "Input should be a valid integer"
  | .unclearInteger => "Input should be a valid integer, unable to parse string as an integer"
  | .fractional => "Input should be a valid integer, got a number with a fractional part"
  | .infinite => "Input should be a finite number"
  | .tooLarge => "Unable to parse input string as an integer, exceeded maximum size"
  | .notPositive => "Input should be greater than 0"

end Refusal

namespace Argument

/-! ## Conversion -/

private def yesWords : List String := ["1", "on", "t", "true", "y", "yes"]

private def noWords : List String := ["0", "off", "f", "false", "n", "no"]

/-- The first integer that is too large for 64 bits. -/
def wordBound : Nat := Nat.pow 2 63

/-- The truth value that an integer of 64 bits stands for, if it stands for one. -/
def truthOfInteger (n : Int) : Except Refusal Bool :=
  if n < -wordBound ∨ wordBound ≤ n then .error .noTruth
  else if n = 0 then .ok false
  else if n = 1 then .ok true
  else .error .unclearTruth

def toTruth : Argument → Except Refusal Bool
  | .truth b => .ok b
  | .whole n => truthOfInteger n
  | .real x =>
    match Binary.ofFloat? x with
    | none => .error .noTruth
    | some b =>
      if !b.isInteger || b.floor.natAbs ≥ wordBound then .error .noTruth else truthOfInteger b.floor
  | .text s =>
    let word := String.ofList (s.toList.map Char.toLower)
    if noWords.contains word then .ok false
    else if yesWords.contains word then .ok true
    else .error .unclearTruth
  | .other => .error .noTruth

/-- A real number. An integer beyond the range of floating-point numbers is none. -/
def toReal : Argument → Except Refusal Float
  | .truth b => .ok (if b then 1 else 0)
  | .whole n =>
    let x := Float.ofInt n
    if x.isInf then .error .noReal else .ok x
  | .real x => .ok x
  | .text s =>
    match Numeral.strictReal? s with
    | some x => .ok x
    | none => .error .unclearReal
  | .other => .error .noReal

/-- An integer. A floating-point number has to be whole and to fit into 64 bits. -/
def toInteger : Argument → Except Refusal Int
  | .truth b => .ok (if b then 1 else 0)
  | .whole n => .ok n
  | .real x =>
    match Binary.ofFloat? x with
    | none => .error .infinite
    | some b =>
      if !b.isInteger then .error .fractional
      else if b.floor.natAbs ≥ wordBound then .error .tooLarge
      else .ok b.floor
  | .text s =>
    match Numeral.strictInteger s with
    | .ok n => .ok n
    | .error .noInteger => .error .unclearInteger
    | .error (.tooManyDigits _) => .error .tooLarge
  | .other => .error .noInteger

/-- A real number greater than zero. -/
def toPositiveReal (a : Argument) : Except Refusal Float := do
  let x ← a.toReal
  if 0 < x then .ok x else .error .notPositive

/-- An integer greater than zero. -/
def toPositiveInteger (a : Argument) : Except Refusal Int := do
  let n ← a.toInteger
  if 0 < n then .ok n else .error .notPositive

end Argument

/-! ## Filling the settings -/

inductive Field
  | enabled
  | sliding
  | maxEntries
  | maxSize
  deriving DecidableEq, Repr

def Field.name : Field → String
  | .enabled => "enabled"
  | .sliding => "sliding_expiration"
  | .maxEntries => "max_entries"
  | .maxSize => "max_size"

structure Arguments where
  enabled : Option Argument := none
  sliding : Option Argument := none
  maxEntries : Option Argument := none
  maxSize : Option Argument := none

inductive SettingsError
  | variable (error : VariableError)
  | arguments (refused : List (Field × Refusal))

/-- The value of a setting, or why its argument is refused; a variable is read only if there is no
    argument. -/
def settingFrom {α : Type} (convert : Argument → Except Refusal α)
    (read : Except VariableError α) : Option Argument → Except SettingsError (Except Refusal α)
  | some a => .ok (convert a)
  | none =>
    match read with
    | .ok x => .ok (.ok x)
    | .error e => .error (.variable e)

/-- The refusal of a setting, if it is refused. -/
def refusalOf {α : Type} (field : Field) : Except Refusal α → List (Field × Refusal)
  | .ok _ => []
  | .error r => [(field, r)]

/-- The settings that arguments and an environment describe. -/
def Settings.ofArguments (a : Arguments) (e : Environment) : Except SettingsError Settings := do
  let enabled ← settingFrom Argument.toTruth (.ok e.readEnabled) a.enabled
  let sliding ← settingFrom Argument.toPositiveReal e.readSliding a.sliding
  let maxEntries ← settingFrom Argument.toPositiveInteger e.readMaxEntries a.maxEntries
  let maxSize ← settingFrom Argument.toPositiveInteger e.readMaxSize a.maxSize
  match enabled, sliding, maxEntries, maxSize with
  | .ok enabled, .ok sliding, .ok maxEntries, .ok maxSize =>
    .ok { enabled, sliding, maxEntries, maxSize }
  | enabled, sliding, maxEntries, maxSize =>
    .error (.arguments (refusalOf .enabled enabled ++ refusalOf .sliding sliding ++
      refusalOf .maxEntries maxEntries ++ refusalOf .maxSize maxSize))

/-- Without arguments, the settings are those that the environment describes. -/
theorem Settings.ofArguments_empty (e : Environment) :
    ofArguments {} e = (ofEnvironment e).mapError .variable := by
  simp only [ofArguments, ofEnvironment, settingFrom, bind, Except.bind, pure, Except.pure]
  cases e.readSliding with
  | error => rfl
  | ok sliding =>
    cases e.readMaxEntries with
    | error => rfl
    | ok maxEntries => cases e.readMaxSize <;> rfl

end Stencil
