-- SUMMARY: The settings of the shared cache, from arguments, the environment and defaults.
import Stencil.Number.Decimal
import Stencil.Number.Numeral
import Stencil.Text.Quoted

/-! # Settings

Each setting comes from an argument, else from a variable of the environment, else from its
default. An argument is converted to the type of the setting and checked, and every argument that
is refused is reported. A variable is read as a loose numeral and not checked any further; the first
one that cannot be read ends the filling at once.
-/

namespace Stencil

structure Settings where
  enabled : Bool
  sliding : Float
  maxEntries : Int
  maxSize : Int

structure Environment where
  enabled : Option String := none
  sliding : Option String := none
  maxEntries : Option String := none
  maxSize : Option String := none

inductive VariableError
  | noReal (text : String)
  | noInteger (text : String)
  | tooManyDigits (count : Nat)
  deriving DecidableEq, Repr

def VariableError.message : VariableError → String
  | .noReal text => "could not convert string to float: " ++ Text.quote text
  | .noInteger text =>
    "invalid literal for int() with base 10: " ++
      String.ofList ((Text.quoted text.toList).take 200)
  | .tooManyDigits count =>
    "Exceeds the limit (" ++ toString Numeral.maxDigits ++
      " digits) for integer string conversion: value has " ++ toString count ++
      " digits; use sys.set_int_max_str_digits() to increase the limit"

namespace Environment

/-- The shared cache is in use unless its variable says no. -/
def readEnabled (e : Environment) : Bool :=
  let word := (e.enabled.getD "true").toList.map Char.toLower
  !(["0".toList, "false".toList, []].contains word)

def readReal (default : Float) : Option String → Except VariableError Float
  | none => .ok default
  | some text =>
    match Numeral.looseReal? text with
    | some x => .ok x
    | none => .error (.noReal text)

def readInteger (default : Int) : Option String → Except VariableError Int
  | none => .ok default
  | some text =>
    match Numeral.looseInteger text with
    | .ok n => .ok n
    | .error .noInteger => .error (.noInteger text)
    | .error (.tooManyDigits count) => .error (.tooManyDigits count)

/-- Entries expire after ten minutes without use. -/
def readSliding (e : Environment) : Except VariableError Float := readReal 600 e.sliding

def readMaxEntries (e : Environment) : Except VariableError Int := readInteger 10000 e.maxEntries

def readMaxSize (e : Environment) : Except VariableError Int :=
  readInteger (20 * 1024 * 1024) e.maxSize

end Environment

def Settings.ofEnvironment (e : Environment) : Except VariableError Settings := do
  return {
    enabled := e.readEnabled
    sliding := ← e.readSliding
    maxEntries := ← e.readMaxEntries
    maxSize := ← e.readMaxSize }

end Stencil
