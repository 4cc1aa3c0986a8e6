-- SUMMARY: Reading numbers from the texts that settings are given as.
import Stencil.Text.Blank
import Stencil.Text.Digit

/-! # Numerals

Two grammars for numbers in text are in use. Their common core is an optional sign and digits, for
a real number with a fraction, an exponent, or a word for infinity or for what is not a number.

* A *loose* numeral, as in an environment variable, may have blanks around it, digits of any
  script, and single underscores between digits.
* A *strict* numeral, as in an argument, has ASCII digits. Underscores are taken out wherever they
  stand singly and inside; an integer may have leading zeros, with any underscores among them, and
  a fraction of zeros.

Both refuse integers of more than 4300 digits, in a strict one without superfluous zeros.
-/

namespace Stencil.Numeral

open Text (asciiDigit? digitValue? isBlank)

def maxDigits : Nat := 4300

def isAsciiDigit (c : Char) : Bool := (asciiDigit? c).isSome

/-- The number that ASCII digits stand for; other characters are passed over. -/
def natValue (digits : List Char) : Nat :=
  digits.foldl (fun n c => match asciiDigit? c with | some d => 10 * n + d | none => n) 0

/-- Takes off a sign: whether the number is negative, and the rest. -/
def takeSign : List Char → Bool × List Char
  | '-' :: s => (true, s)
  | '+' :: s => (false, s)
  | s => (false, s)

/-! ## Real numbers -/

/-- The floating-point number nearest to `mantissa · 10 ^ exponent`. Exponents far outside the
    format are answered without computing the power. -/
def nearest (mantissa : Nat) (exponent : Int) : Float :=
  let magnitude := (Nat.toDigits 10 mantissa).length + exponent
  if mantissa = 0 ∨ magnitude < -400 then 0
  else if magnitude > 400 then 1 / 0
  else Float.ofScientific mantissa (decide (exponent < 0)) exponent.natAbs

def exponent? : List Char → Option Int
  | [] => some 0
  | c :: s =>
    if c = 'e' ∨ c = 'E' then
      let (negative, digits) := takeSign s
      if digits.isEmpty || !digits.all isAsciiDigit then none
      else some (if negative then -natValue digits else natValue digits)
    else none

def unsigned? (s : List Char) : Option Float :=
  let word := s.map Char.toLower
  if word = "inf".toList ∨ word = "infinity".toList then some (1 / 0)
  else if word = "nan".toList then some (0 / 0)
  else
    let whole := s.takeWhile isAsciiDigit
    let rest := s.dropWhile isAsciiDigit
    let (fraction, rest) := match rest with
      | '.' :: rest => (rest.takeWhile isAsciiDigit, rest.dropWhile isAsciiDigit)
      | rest => ([], rest)
    if whole.isEmpty && fraction.isEmpty then none
    else (exponent? rest).map fun e => nearest (natValue (whole ++ fraction)) (e - fraction.length)

def real? (s : List Char) : Option Float :=
  let (negative, s) := takeSign s
  (unsigned? s).map fun x => if negative then -x else x

/-! ## Loose numerals -/

/-- A character with its script left out. -/
def plainChar (c : Char) : Char :=
  if c.toNat < 128 then c
  else if isBlank c then ' '
  else match digitValue? c with
    | some d => Char.ofNat ('0'.toNat + d)
    | none => c

def isMargin (c : Char) : Bool := c == ' ' || ('\t' ≤ c && c ≤ '\r')

def plain (s : String) : List Char :=
  let s := (s.toList.map plainChar).dropWhile isMargin
  (s.reverse.dropWhile isMargin).reverse

/-- Takes out underscores, if each stands between two digits; `digit` says whether a digit precedes
    the text. -/
def withoutMarks? (digit : Bool) : List Char → Option (List Char)
  | [] => some []
  | '_' :: c :: s =>
    if digit && isAsciiDigit c then (withoutMarks? true s).map (c :: ·) else none
  | c :: s => if c = '_' then none else (withoutMarks? (isAsciiDigit c) s).map (c :: ·)

def looseReal? (s : String) : Option Float :=
  (withoutMarks? false (plain s)).bind real?

inductive IntegerError
  | noInteger
  | tooManyDigits (count : Nat)
  deriving DecidableEq, Repr

/-- An integer from a loose numeral. Digits are counted as far as they go, before what follows them
    is looked at. -/
def looseInteger (s : String) : Except IntegerError Int :=
  let (negative, s) := takeSign (plain s)
  let digits := s.takeWhile fun c => isAsciiDigit c || c = '_'
  match withoutMarks? false digits with
  | none => .error .noInteger
  | some [] => .error .noInteger
  | some digits' =>
    if digits'.length > maxDigits then .error (.tooManyDigits digits'.length)
    else if digits.length < s.length then .error .noInteger
    else .ok (if negative then -natValue digits' else natValue digits')

/-! ## Strict numerals -/

/-- The blanks that may stand around a strict numeral: those of the Unicode property White_Space. -/
def isWhiteSpace (c : Char) : Bool :=
  isBlank c && !(0x1C ≤ c.toNat && c.toNat ≤ 0x1F)

private def stripWhiteSpace (s : List Char) : List Char :=
  ((s.dropWhile isWhiteSpace).reverse.dropWhile isWhiteSpace).reverse

def hasDoubleMark : List Char → Bool
  | '_' :: '_' :: _ => true
  | _ :: s => hasDoubleMark s
  | [] => false

/-- Takes out underscores, if there are any, none at an end and no two together. -/
def withoutInnerMarks? (s : List Char) : Option (List Char) :=
  if s.head? = some '_' || s.getLast? = some '_' || hasDoubleMark s || !s.contains '_' then none
  else some (s.filter (· ≠ '_'))

/-- A real number from a strict numeral. Underscores are only taken out of a numeral without blanks
    around it. -/
def strictReal? (s : String) : Option Float :=
  match real? (stripWhiteSpace s.toList) with
  | some x => some x
  | none => (withoutInnerMarks? s.toList).bind real?

/-- Takes off the zeros, and the underscores among them, before the first other digit or minus sign.
    One zero stays before a point or at the end. -/
def skipZeros (last : Char) : List Char → Option (List Char)
  | [] => some [last]
  | c :: s =>
    if c = '0' ∨ c = '_' then skipZeros c s
    else if c = '-' ∨ ('1' ≤ c ∧ c ≤ '9') then some (c :: s)
    else if c = '.' then some (last :: c :: s)
    else none

def withoutLeadingZeros? : List Char → Option (List Char)
  | [] => none
  | c :: s =>
    if c = '0' then skipZeros c s
    else if '1' ≤ c ∧ c ≤ '9' then some (c :: s)
    else none

def withoutZeroFraction (s : List Char) : List Char :=
  match s.dropWhile (· ≠ '.') with
  | '.' :: '0' :: fraction => if fraction.all (· = '0') then s.takeWhile (· ≠ '.') else s
  | _ => s

/-- Takes off a sign like `takeSign`, unless another one follows it. -/
def takeSignOnce? : List Char → Option (Bool × List Char)
  | '+' :: '-' :: _ => none
  | '+' :: s => some (false, s)
  | '-' :: s => some (true, s)
  | s => some (false, s)

/-- The digits of an integer without superfluous zeros, fraction and underscores. -/
def bareInteger? (s : List Char) : Option (List Char) := do
  let (negative, s) ← takeSignOnce? s
  let s := withoutZeroFraction (← withoutLeadingZeros? s)
  let s := (withoutInnerMarks? s).getD s
  return if negative then '-' :: s else s

def canonicalInteger (s : List Char) : Except IntegerError Int :=
  let (negative, s) := match s with
    | '-' :: s => (true, s)
    | s => (false, s)
  let digits := s.takeWhile isAsciiDigit
  if digits.isEmpty then .error .noInteger
  else if digits.head? = some '0' then if s.length = 1 then .ok 0 else .error .noInteger
  else if digits.length > maxDigits then .error (.tooManyDigits digits.length)
  else if digits.length < s.length then .error .noInteger
  else .ok (if negative then -natValue digits else natValue digits)

def strictInteger (s : String) : Except IntegerError Int :=
  match bareInteger? (stripWhiteSpace s.toList) with
  | none => .error .noInteger
  | some s => canonicalInteger s

end Stencil.Numeral
