import ServiceShell.Json.Document
/-!
Reading typed values from documents. A record is written as an object or as the array of its fields
in order; fields nobody asks for are skipped, and a field given twice is refused.
-/
namespace ServiceShell.Json

abbrev Reader (α : Type) := Nat → Document → Option α

namespace Reader
variable {α : Type}

def value : Reader Value := Document.toValue?

def string : Reader String
  | _, .string s => s
  | _, _ => none

def bool : Reader Bool
  | _, .bool b => some b
  | _, _ => none

/-- A natural number below `2 ^ 64`; floats are refused. -/
def nat : Reader Nat
  | _, .number (some n) => n.asNat?
  | _, _ => none

def list (item : Reader α) : Reader (List α)
  | allowance, .array items => do items.mapM (item (← Document.enter? allowance))
  | _, _ => none

def map (item : Reader α) : Reader (OrderedMap α)
  | allowance, .object members => do
    let inner ← Document.enter? allowance
    let pairs ← members.mapM fun (key, document) => do return (← key, ← item inner document)
    return .ofList pairs
  | _, _ => none

def nullable (item : Reader α) : Reader (Option α)
  | _, .null => some none
  | allowance, document => some <$> item allowance document

/-- A choice among names; the name may also be the only member of an object that holds null. -/
def named (choices : List (String × α)) : Reader α
  | _, .string (some name) => Pairs.get? choices name
  | allowance, .object [(some name, .null)] => do
    discard (Document.enter? allowance)
    Pairs.get? choices name
  | _, _ => none

def ofText (reader : Reader α) (text : String) : Option α :=
  (Document.ofText text).bind (reader Document.nestingLimit)

end Reader

/-- How a field is found: with a document, missing from an object, or beyond the end of an array. -/
inductive Slot where
  | given (document : Document)
  | missing
  | cutOff

structure Fields where
  allowance : Nat
  slots : List (String × Slot)

namespace Fields
variable {α : Type}

def ofMembers (slots : List (String × Slot)) :
    List (Option String × Document) → Option (List (String × Slot))
  | [] => some slots
  | (key, document) :: rest => do
    let key ← key
    match Pairs.get? slots key with
    | none => ofMembers slots rest
    | some .missing => ofMembers (Pairs.put slots key (.given document)) rest
    | some _ => none

def ofItems : List String → List Document → Option (List (String × Slot))
  | names, [] => some (names.map (·, .cutOff))
  | [], _ :: _ => none
  | name :: names, item :: items => ((name, .given item) :: ·) <$> ofItems names items

def read (names : List String) : Reader Fields
  | allowance, .object members => do
    let inner ← Document.enter? allowance
    return ⟨inner, ← ofMembers (names.map (·, .missing)) members⟩
  | allowance, .array items => do
    let inner ← Document.enter? allowance
    return ⟨inner, ← ofItems names items⟩
  | _, _ => none

def required (fields : Fields) (name : String) (reader : Reader α) : Option α :=
  match Pairs.get? fields.slots name with
  | some (.given document) => reader fields.allowance document
  | _ => none

/-- A field that may be null or missing from an object, but not cut off an array. -/
def optional (fields : Fields) (name : String) (reader : Reader α) : Option (Option α) :=
  match Pairs.get? fields.slots name with
  | some (.given document) => reader.nullable fields.allowance document
  | some .missing => some none
  | _ => none

def defaulted (fields : Fields) (name : String) (default : α) (reader : Reader α) : Option α :=
  match Pairs.get? fields.slots name with
  | some (.given document) => reader fields.allowance document
  | _ => some default

end Fields
end ServiceShell.Json
