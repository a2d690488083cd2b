import ServiceShell.Json.Shortest
/-!
Numbers of a document: integers that fit 64 bits, signed or unsigned, and binary64 numbers. A
numeral without fraction and exponent is an integer where it fits, and a float otherwise.
-/
namespace ServiceShell.Json

structure Integer where
  value : Int
  low : Int64.minValue.toInt ≤ value
  high : value < UInt64.size
deriving DecidableEq

namespace Integer

def ofInt? (i : Int) : Option Integer :=
  if h : Int64.minValue.toInt ≤ i ∧ i < UInt64.size then some ⟨i, h.1, h.2⟩ else none

def wrap (i : Int) : Integer where
  value := (Int64.ofInt i).toInt
  low := Int64.minValue_le_toInt (.ofInt i)
  high := by have := Int64.toInt_lt (.ofInt i); simp only [UInt64.size]; omega

/-- A natural number; one that does not fit becomes the largest that does. -/
def ofNat (n : Nat) : Integer :=
  if h : n < UInt64.size then ⟨n, by simp, by omega⟩
  else ⟨(UInt64.size - 1 : Nat), by decide, by decide⟩

end Integer

inductive Number where
  | int (value : Integer)
  | float (value : Double)
deriving DecidableEq

namespace Number

def agrees : Number → Number → Bool
  | .int a, .int b => a.value == b.value
  | .float a, .float b => a.agrees b
  | _, _ => false

/-- The number as a signed 64-bit integer. Floats are no integers, whatever their value. -/
def asInt? : Number → Option Int
  | .int a => if a.value ≤ Int64.maxValue.toInt then some a.value else none
  | .float _ => none

def asNat? : Number → Option Nat
  | .int a => if 0 ≤ a.value then some a.value.toNat else none
  | .float _ => none

def text : Number → String
  | .int a => toString a.value
  | .float a => a.text

end Number

structure Numeral where
  negative : Bool
  whole : List Nat
  fraction : Option (List Nat)
  exponent : Option Int

namespace Numeral

def digits (text : List Char) : List Nat × List Char :=
  ((text.takeWhile Char.isDigit).map (fun c => c.toNat - '0'.toNat), text.dropWhile Char.isDigit)

def ofDigits (ds : List Nat) : Nat :=
  ds.foldl (fun n d => n * 10 + d) 0

def readExponent (negative : Bool) (text : List Char) : Option Int :=
  match digits text with
  | ([], _) => none
  | (ds, []) => some (if negative then -(ofDigits ds : Int) else ofDigits ds)
  | _ => none

def readTail : List Char → Option (Option Int)
  | [] => some none
  | 'e' :: '-' :: rest | 'E' :: '-' :: rest => some <$> readExponent true rest
  | 'e' :: '+' :: rest | 'E' :: '+' :: rest => some <$> readExponent false rest
  | 'e' :: rest | 'E' :: rest => some <$> readExponent false rest
  | _ => none

def readUnsigned (negative : Bool) (text : List Char) : Option Numeral :=
  match digits text with
  | ([], _) | (0 :: _ :: _, _) => none
  | (whole, '.' :: rest) =>
    match digits rest with
    | ([], _) => none
    | (fraction, rest) => (⟨negative, whole, some fraction, ·⟩) <$> readTail rest
  | (whole, rest) => (⟨negative, whole, none, ·⟩) <$> readTail rest

def read : List Char → Option Numeral
  | '-' :: rest => readUnsigned true rest
  | text => readUnsigned false text

/-- Appends digits while the significand stays below `2 ^ 64`; the rest is handed back. -/
def feed (significand : Nat) : List Nat → Nat × List Nat
  | [] => (significand, [])
  | d :: ds =>
    if significand * 10 + d < UInt64.size then feed (significand * 10 + d) ds else (significand, d :: ds)

/-- Digits that do not fit the significand count for the exponent only. -/
def float (numeral : Numeral) : Option Double := do
  let fraction := numeral.fraction.getD []
  let (whole, wholeRest) := feed 0 numeral.whole
  let (significand, fractionRest) := feed whole fraction
  let places : Int := wholeRest.length - (fraction.length - fractionRest.length : Nat)
  let x ← Double.scaled significand (places + numeral.exponent.getD 0)
  return if numeral.negative then x.neg else x

/-- Nothing where the number is too large for a float. A written `-0` is a float. -/
def number (numeral : Numeral) : Option Number :=
  let value : Int := ofDigits numeral.whole
  let signed := if numeral.negative then -value else value
  match numeral.fraction, numeral.exponent, Integer.ofInt? signed with
  | none, none, some i =>
    if numeral.negative ∧ value = 0 then .float <$> numeral.float else some (.int i)
  | _, _, _ => .float <$> numeral.float

end Numeral
end ServiceShell.Json
