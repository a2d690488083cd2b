import ServiceShell.Json.Pointer
import ServiceShell.Json.Record
/-!
128-bit identities and their written forms: 32 hexadecimal digits, grouped 8-4-4-4-12 by hyphens.
-/
namespace ServiceShell

structure Uuid where
  bits : BitVec 128
deriving DecidableEq

namespace Uuid

def ofNat (n : Nat) : Uuid := ⟨BitVec.ofNat 128 n⟩

def groups : List Nat := [8, 4, 4, 4, 12]

def hexDigits (id : Uuid) : List Char :=
  let digits := Nat.toDigits 16 id.bits.toNat
  List.replicate (32 - digits.length) '0' ++ digits

def cut {α : Type} : List Nat → List α → List (List α)
  | [], _ => []
  | n :: lengths, rest => rest.take n :: cut lengths (rest.drop n)

def text (id : Uuid) : String :=
  String.ofList (List.intercalate ['-'] (cut groups id.hexDigits))

instance : ToString Uuid := ⟨text⟩

def ofDigits? (digits : List Char) : Option Uuid :=
  if digits.length = 32 then do
    let values ← digits.mapM Json.Token.hexDigit?
    return ofNat (values.foldl (fun n d => n * 16 + d) 0)
  else none

def ofHyphenated? (digits : List Char) : Option Uuid :=
  let parts := Json.Pointer.segments '-' digits
  if parts.map List.length = groups then ofDigits? parts.flatten else none

def resourceMark : List Char := "urn:uuid:".toList

def afterMark? (text : List Char) : Option (List Char) :=
  if (text.take resourceMark.length).map Char.toLower = resourceMark then
    some (text.drop resourceMark.length)
  else none

/-- Plain digits, hyphenated groups, and the latter in braces or after the resource mark. -/
def ofText? (text : String) : Option Uuid :=
  let chars := text.toList
  match chars with
  | '\x7b' :: rest => if rest.getLast? = some '\x7d' then ofHyphenated? rest.dropLast else none
  | _ =>
    match afterMark? chars with
    | some rest => ofHyphenated? rest
    | none => if chars.length = 32 then ofDigits? chars else ofHyphenated? chars

def reader : Json.Reader Uuid := fun allowance document =>
  (Json.Reader.string allowance document).bind ofText?

end Uuid
end ServiceShell
