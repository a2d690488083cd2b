/-!
Finite binary64 numbers as integers: a sign and the 63 bits below it. Products, quotients and
ratios are rounded once, to the nearest number and to the even one on a tie.
-/
namespace ServiceShell.Json

def Double.fractions : Nat := 1 <<< 52

/-- The exponent field and the fraction together form `magnitude`. -/
structure Double where
  negative : Bool
  magnitude : Nat
  finite : magnitude < 2047 * Double.fractions
deriving DecidableEq

/-- The integer nearest to `num / den`, the even one on a tie. -/
def roundDiv (num den : Nat) : Nat :=
  let below := num / den
  let rest := 2 * (num % den)
  if rest > den || (rest == den && below % 2 == 1) then below + 1 else below

namespace Double

def zero (negative : Bool) : Double := ⟨negative, 0, by decide⟩

def isZero (x : Double) : Bool := x.magnitude == 0

def agrees (x y : Double) : Bool :=
  x.magnitude == y.magnitude && (x.negative == y.negative || x.isZero)

def significand (x : Double) : Nat :=
  if x.magnitude < fractions then x.magnitude else fractions + x.magnitude % fractions

/-- The power of two on the significand, counted from the least one, which is `2 ^ (-1074)`. -/
def scale (x : Double) : Nat :=
  x.magnitude / fractions - 1

def units (x : Double) : Nat :=
  x.significand <<< x.scale

/-- The magnitude nearest to `num / den`, out of range included. -/
def nearest (num den : Nat) : Nat :=
  let scale := Nat.log2 ((num <<< 1074) / den) - 52
  scale * fractions + roundDiv (num <<< 1074) (den <<< scale)

def ofRatio (negative : Bool) (num den : Nat) : Option Double :=
  if h : nearest num den < 2047 * fractions then some ⟨negative, nearest num den, h⟩ else none

def product (x y : Double) : Option Double :=
  ofRatio (x.negative != y.negative) (x.units * y.units) (1 <<< 2148)

def quotient (x y : Double) : Option Double :=
  ofRatio (x.negative != y.negative) x.units y.units

def neg (x : Double) : Double := { x with negative := !x.negative }

def powTen (n : Nat) : Option Double :=
  ofRatio false (Nat.pow 10 n) 1

/-- Divides by ten to the power `n`, in steps of at most 308. -/
def downTen (x : Double) (n : Nat) : Option Double :=
  if n ≤ 308 then do x.quotient (← powTen n)
  else if x.isZero then some x
  else do
    let y ← x.quotient (← powTen 308)
    y.downTen (n - 308)
termination_by n

/-- A significand below `2 ^ 64` times a power of ten, each rounded on its own. -/
def scaled (significand : Nat) (exponent : Int) : Option Double := do
  let x ← ofRatio false significand 1
  match exponent with
  | .ofNat n => if n ≤ 308 then x.product (← powTen n) else if x.isZero then some x else none
  | .negSucc n => x.downTen (n + 1)

end Double
end ServiceShell.Json
