import ServiceShell.Json.Value
/-!
References into a value: segments between slashes, in which `~1` stands for a slash and `~0` for a
tilde. A segment selects a member of an object or an item of an array.
-/
namespace ServiceShell.Json.Pointer

def segments (mark : Char) : List Char → List (List Char)
  | [] => [[]]
  | c :: rest =>
    if c = mark then [] :: segments mark rest
    else match segments mark rest with
      | [] => [[c]]
      | first :: others => (c :: first) :: others

def unescape : List Char → List Char
  | '~' :: '1' :: rest => '/' :: unescape rest
  | '~' :: '0' :: rest => '~' :: unescape rest
  | c :: rest => c :: unescape rest
  | [] => []

/-- An array position has decimal digits only, and no leading zero. -/
def index? : List Char → Option Nat
  | [] => none
  | ['0'] => some 0
  | '0' :: _ => none
  | digits =>
    if digits.all Char.isDigit then some (Numeral.ofDigits (Numeral.digits digits).1) else none

def step (value : Value) (segment : List Char) : Option Value :=
  match value with
  | .object members => Pairs.get? members (String.ofList segment)
  | .array items => (index? segment).bind (items[·]?)
  | _ => none

def walk (value : Value) : List (List Char) → Option Value
  | [] => some value
  | segment :: rest => (step value (unescape segment)).bind (walk · rest)

def resolve (value : Value) (reference : List Char) : Option Value :=
  walk value (segments '/' reference)

end ServiceShell.Json.Pointer
