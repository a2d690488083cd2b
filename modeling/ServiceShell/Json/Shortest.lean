import ServiceShell.Json.Double
/-!
The shortest decimal that reads back as a given binary64 number, the nearest of those, and its
written form.
-/
namespace ServiceShell.Json

structure Decimal where
  digits : Nat
  exponent : Int
deriving DecidableEq

def Decimal.digitText (d : Decimal) : List Char :=
  Nat.toDigits 10 d.digits

def Decimal.trim (d : Decimal) : Nat → Decimal
  | 0 => d
  | n + 1 => if d.digits % 10 = 0 ∧ d.digits ≠ 0 then trim ⟨d.digits / 10, d.exponent + 1⟩ n else d

namespace Double

/-- The largest `k` with `10 ^ k ≤ num / den`. -/
def log10 (num den : Nat) : Int :=
  if den ≤ num then ((Nat.toDigits 10 (num / den)).length : Int) - 1
  else
    let above := (den + num - 1) / num - 1
    Int.negOfNat (Nat.toDigits 10 above).length

/-- The ends of the interval of numbers that round to `x`, in quarters of a unit, and whether they
belong to it. Below a power of two the numbers lie twice as close. -/
def interval (x : Double) : Nat × Nat × Bool :=
  let down := if x.significand = fractions ∧ x.scale ≠ 0 then 1 else 2
  ((4 * x.significand - down) <<< x.scale, (4 * x.significand + 2) <<< x.scale,
    x.magnitude % 2 == 0)

/-- The point of the grid of multiples of `10 ^ exponent` that reads back as `x` and is nearest to
it, if one does; a tie goes to the even point. -/
def onGrid (x : Double) (exponent : Int) : Option Nat :=
  let (low, high, closed) := x.interval
  let (up, down) := match exponent with
    | .ofNat n => (Nat.pow 10 n, 1)
    | .negSucc n => (1, Nat.pow 10 (n + 1))
  let unit := 4 <<< 1074
  let value := 4 * x.units * down
  let step := up * unit
  let reads := fun (point : Nat) =>
    let at4 := point * step
    if closed then low * down ≤ at4 && at4 ≤ high * down else low * down < at4 && at4 < high * down
  let below := value / step
  match reads below, reads (below + 1) with
  | true, true => some (roundDiv value step)
  | true, false => some below
  | false, true => some (below + 1)
  | false, false => none

def shortestFrom (x : Double) (top : Int) (digits : Nat) : Nat → Decimal
  | 0 => ⟨0, 0⟩
  | fuel + 1 =>
    let exponent := top + 1 - digits
    match x.onGrid exponent with
    | some point => Decimal.trim ⟨point, exponent⟩ 17
    | none => shortestFrom x top (digits + 1) fuel

def shortest (x : Double) : Decimal :=
  if x.isZero then ⟨0, 0⟩ else x.shortestFrom (log10 x.units (1 <<< 1074)) 1 17

def exponentText (n : Int) : List Char :=
  'e' :: (if n < 0 then '-' else '+') :: Nat.toDigits 10 n.natAbs

/-- Positional from `1e-5` up to `1e16`, with `.0` on integers; beyond, with an exponent. -/
def unsignedText (d : Decimal) : List Char :=
  let ds := d.digitText
  let point := (ds.length : Int) + d.exponent
  let zeros := fun (n : Int) => List.replicate n.toNat '0'
  if d.digits = 0 then "0.0".toList
  else if 0 ≤ d.exponent ∧ point ≤ 16 then ds ++ zeros d.exponent ++ ".0".toList
  else if 0 < point ∧ point ≤ 16 then ds.take point.toNat ++ '.' :: ds.drop point.toNat
  else if -5 < point ∧ point ≤ 0 then "0.".toList ++ zeros (-point) ++ ds
  else
    let exponent := exponentText (point - 1)
    match ds with
    | [one] => one :: exponent
    | first :: rest => first :: '.' :: rest ++ exponent
    | [] => []

def text (x : Double) : String :=
  String.ofList ((if x.negative then ['-'] else []) ++ unsignedText x.shortest)

end Double
end ServiceShell.Json
