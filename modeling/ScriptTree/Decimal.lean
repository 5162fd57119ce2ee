/-!
# Decimal numerals

A `Decimal` is a natural number of units of some power of ten. `Decimal.read?` reads an unsigned
numeral, `Decimal.plain` writes one without an exponent.
-/

namespace ScriptTree

def natOfDigits (word : List Char) : Nat :=
  word.foldl (fun n c => 10 * n + (c.toNat - '0'.toNat)) 0

/-- The number `digits * 10 ^ exponent`. -/
structure Decimal where
  digits : Nat
  exponent : Int
deriving DecidableEq

namespace Decimal

def readFraction : List Char → List Char × List Char
  | '.' :: rest => (rest.takeWhile Char.isDigit, rest.dropWhile Char.isDigit)
  | rest => ([], rest)

def readDigits? (word : List Char) : Option Nat :=
  if !word.isEmpty && word.all Char.isDigit then some (natOfDigits word) else none

def readExponent? : List Char → Option Int
  | [] => some 0
  | mark :: rest =>
    if mark = 'e' || mark = 'E' then
      match rest with
      | '-' :: word => (readDigits? word).map fun n => -(n : Int)
      | '+' :: word => (readDigits? word).map fun n => (n : Int)
      | word => (readDigits? word).map fun n => (n : Int)
    else none

/-- Reads an unsigned numeral: digits, a point and more digits, an exponent. The point may stand
first or last, but one digit there must be. -/
def read? (text : List Char) : Option Decimal :=
  let whole := text.takeWhile Char.isDigit
  let (fraction, rest) := readFraction (text.dropWhile Char.isDigit)
  if whole.isEmpty && fraction.isEmpty then none
  else (readExponent? rest).map fun e => ⟨natOfDigits (whole ++ fraction), e - fraction.length⟩

def plain (d : Decimal) : List Char :=
  let digits := d.digits.repr.toList
  match d.exponent with
  | .ofNat zeros => digits ++ List.replicate zeros '0'
  | .negSucc n =>
    let places := n + 1
    let digits := List.replicate (places + 1 - digits.length) '0' ++ digits
    digits.take (digits.length - places) ++ '.' :: digits.drop (digits.length - places)

end Decimal

end ScriptTree
