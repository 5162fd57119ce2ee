import ScriptTree.Decimal

/-!
# Numbers

The numbers of the language are the values of the binary64 format, kept as exact data. The finite
magnitudes are numbered from zero in rising order; `Number.ofDecimal` rounds to the nearest, a tie
to the even one, and `Number.shortest` finds the shortest decimal that rounds to a magnitude.
-/

namespace ScriptTree

/-- How many finite magnitudes there are: 2046 binades of normal ones and the subnormal ones. -/
def magnitudeCount : Nat := 2047 * Nat.pow 2 52

inductive Number where
  | nan
  | infinity (negative : Bool)
  /-- The magnitude is given by its place among all finite ones. -/
  | finite (negative : Bool) (rank : Fin magnitudeCount)
deriving DecidableEq

/-- The quotient rounded to the nearest natural number, a half to the even one. -/
def roundDiv (num den : Nat) : Nat :=
  let quotient := num / den
  let rest := num % den
  if 2 * rest < den then quotient
  else if den < 2 * rest then quotient + 1
  else quotient + quotient % 2

namespace Number

/-- A magnitude as a multiple of the smallest positive one, `2 ^ -1074`. From the rank `2 ^ 52` on
the spacing doubles with every `2 ^ 52` ranks. -/
def units (rank : Nat) : Nat :=
  let doublings := rank / Nat.pow 2 52 - 1
  (rank - doublings * Nat.pow 2 52) * Nat.pow 2 doublings

def nearestRank (num den : Nat) : Nat :=
  let scaled := num * Nat.pow 2 1074
  let doublings := (scaled / den).log2 - 52
  doublings * Nat.pow 2 52 + roundDiv scaled (den * Nat.pow 2 doublings)

def ofRank (negative : Bool) (rank : Nat) : Number :=
  if h : rank < magnitudeCount then .finite negative ⟨rank, h⟩ else .infinity negative

def zero (negative : Bool) : Number := .finite negative ⟨0, by decide⟩

/-- The number nearest to a decimal. Decimals far outside the finite magnitudes are told by their
exponent alone, so that no great power of ten is ever formed. -/
def ofDecimal (negative : Bool) (d : Decimal) : Number :=
  if d.digits = 0 then zero negative
  else match d.exponent with
    | .ofNat n =>
      if 400 < n then .infinity negative else ofRank negative (nearestRank (d.digits * Nat.pow 10 n) 1)
    | .negSucc n =>
      if d.digits.log2 + 400 < n + 1 then zero negative
      else ofRank negative (nearestRank d.digits (Nat.pow 10 (n + 1)))

def ofWord? (negative : Bool) (word : String) : Option Number :=
  if word = "inf" || word = "infinity" then some (.infinity negative)
  else if word = "nan" then some .nan
  else none

def readUnsigned? (negative : Bool) (text : List Char) : Option Number :=
  match Decimal.read? text with
  | some d => some (ofDecimal negative d)
  | none => ofWord? negative (String.ofList (text.map Char.toLower))

def ofText? (text : String) : Option Number :=
  match text.toList with
  | '-' :: rest => readUnsigned? true rest
  | '+' :: rest => readUnsigned? false rest
  | text => readUnsigned? false text

/-- Not less than the number of decimal digits of a number; the factor is the logarithm of two. -/
def digitBound (n : Nat) : Nat := (n.log2 + 1) * 30103 / 100000 + 1

/-- Of the multiples of `10 ^ power` next to the exact value `exact`, both as parts of `10 ^ 1074`,
the nearer one that rounds to the magnitude; a tie goes up. -/
def candidate? (rank : Fin magnitudeCount) (exact power : Nat) : Option Decimal :=
  let cut := Nat.pow 10 power
  let low : Decimal := ⟨exact / cut, power - 1074⟩
  let high : Decimal := ⟨exact / cut + 1, power - 1074⟩
  let fits (d : Decimal) : Bool := ofDecimal false d = .finite false rank
  if fits low && (2 * (exact % cut) < cut || !fits high) then some low
  else if fits high then some high
  else none

/-- The shortest decimal that rounds to the magnitude, of several the nearest one: the search goes
from high powers of ten to low ones. At the lowest power the exact value itself is found. -/
def shortest (rank : Fin magnitudeCount) : Decimal :=
  if rank.val = 0 then ⟨0, 0⟩
  else
    let exact := units rank * Nat.pow 5 1074
    let bound := digitBound exact
    ((List.range (bound + 1)).findSome? fun count => candidate? rank exact (bound - count)).getD
      ⟨exact, -1074⟩

def text : Number → String
  | .nan => "NaN"
  | .infinity negative => if negative then "-inf" else "inf"
  | .finite negative rank =>
    (if negative then "-" else "") ++ String.ofList (shortest rank).plain

/-- Numeric equality: no number equals itself unless it is one, and the two zeros are equal. -/
def equal : Number → Number → Bool
  | .infinity m, .infinity n => m == n
  | .finite m i, .finite n j => i == j && (m == n || i.val == 0)
  | _, _ => false

instance : BEq Number := ⟨equal⟩

end Number

end ScriptTree
