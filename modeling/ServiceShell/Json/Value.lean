import ServiceShell.Json.Number
import ServiceShell.OrderedMap
/-!
Data values. The members of an object keep their order; `agrees` is the equality that ignores it.
-/
namespace ServiceShell.Json

inductive Value where
  | null
  | bool (value : Bool)
  | number (value : Number)
  | string (value : String)
  | array (items : List Value)
  | object (members : List (String × Value))

namespace Value

instance : Inhabited Value := ⟨.null⟩

def ofInt (i : Int) : Value := .number (.int (.wrap i))

def ofNat (n : Nat) : Value := .number (.int (.ofNat n))

def ofStrings (texts : List String) : Value := .array (texts.map .string)

def ofOption {α : Type} (write : α → Value) : Option α → Value
  | none => .null
  | some a => write a

def asInt? : Value → Option Int
  | .number n => n.asInt?
  | _ => none

def isObject : Value → Bool
  | .object _ => true
  | _ => false

mutual
/-- Equality of values in which the order of members does not count. -/
def agrees : Value → Value → Bool
  | .null, .null => true
  | .bool a, .bool b => a == b
  | .number a, .number b => a.agrees b
  | .string a, .string b => a == b
  | .array xs, .array ys => agreeItems xs ys
  | .object ms, .object ns => ms.length == ns.length && agreeMembers ms ns
  | _, _ => false

def agreeItems : List Value → List Value → Bool
  | [], [] => true
  | x :: xs, y :: ys => agrees x y && agreeItems xs ys
  | _, _ => false

def agreeMembers : List (String × Value) → List (String × Value) → Bool
  | [], _ => true
  | (key, value) :: rest, other =>
    (match Pairs.get? other key with
      | some found => agrees value found
      | none => false) && agreeMembers rest other
end

end Value
end ServiceShell.Json
