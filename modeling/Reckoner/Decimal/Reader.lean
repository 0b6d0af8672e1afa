import Reckoner.Decimal.Basic

/-! Decimal literals: a sign, digits with an optional point among or beside them, an exponent. -/
namespace Reckoner.Decimal

def splitSign : List Char → Bool × List Char
  | '-' :: rest => (true, rest)
  | '+' :: rest => (false, rest)
  | rest => (false, rest)

def ofDigits (digits : List Char) : Nat :=
  Nat.ofDigitChars 10 digits 0

def readExponent? : List Char → Option Int
  | [] => some 0
  | mark :: rest =>
    let (negative, digits) := splitSign rest
    if (mark = 'e' || mark = 'E') && !digits.isEmpty && digits.all Char.isDigit then
      some (if negative then -Int.ofNat (ofDigits digits) else Int.ofNat (ofDigits digits))
    else none

def readPlaces (text : List Char) : List Char × List Char × List Char :=
  let whole := text.takeWhile Char.isDigit
  match text.dropWhile Char.isDigit with
  | '.' :: rest => (whole, rest.takeWhile Char.isDigit, rest.dropWhile Char.isDigit)
  | rest => (whole, [], rest)

/-- A decimal literal: a sign, digits with an optional point among or beside them, an optional
exponent. -/
def read? (text : List Char) : Option Decimal :=
  let (negative, body) := splitSign text
  let (whole, fraction, rest) := readPlaces body
  if whole.isEmpty && fraction.isEmpty then none
  else (readExponent? rest).map fun exponent =>
    ⟨negative, ofDigits (whole ++ fraction), exponent - Int.ofNat fraction.length⟩

end Reckoner.Decimal
