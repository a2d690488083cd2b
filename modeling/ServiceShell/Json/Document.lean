import ServiceShell.Json.Token
/-!
Documents as written: repeated members are kept, and texts and numbers that denote nothing stay in
place, since they only matter where somebody looks. `toValue?` looks everywhere.
-/
namespace ServiceShell.Json

inductive Document where
  | null
  | bool (value : Bool)
  | number (value : Option Number)
  | string (value : Option String)
  | array (items : List Document)
  | object (members : List (Option String × Document))

namespace Document

inductive Frame where
  | array (done : List Document)
  | object (done : List (Option String × Document)) (key : Option String)

/-- What may come next. A container may close right after it opened, but not after a comma. -/
inductive Expected where
  | value (mayClose : Bool)
  | key (done : List (Option String × Document)) (mayClose : Bool)
  | colon (done : List (Option String × Document)) (key : Option String)
  | after (value : Document)

def ofScalar? : Token → Option Document
  | .null => some .null
  | .bool b => some (.bool b)
  | .number n => some (.number n)
  | .string s => some (.string s)
  | _ => none

def build (stack : List Frame) : Expected → List Token → Option Document
  | .after value, [] => if stack.isEmpty then some value else none
  | _, [] => none
  | .after value, token :: rest =>
    match token, stack with
    | .comma, .array done :: outer => build (.array (value :: done) :: outer) (.value false) rest
    | .comma, .object done key :: outer => build outer (.key ((key, value) :: done) false) rest
    | .closeArray, .array done :: outer =>
      build outer (.after (.array (value :: done).reverse)) rest
    | .closeObject, .object done key :: outer =>
      build outer (.after (.object ((key, value) :: done).reverse)) rest
    | _, _ => none
  | .key done mayClose, token :: rest =>
    match token with
    | .string key => build stack (.colon done key) rest
    | .closeObject => if mayClose then build stack (.after (.object [])) rest else none
    | _ => none
  | .colon done key, token :: rest =>
    match token with
    | .colon => build (.object done key :: stack) (.value false) rest
    | _ => none
  | .value mayClose, token :: rest =>
    match token, stack with
    | .openArray, _ => build (.array [] :: stack) (.value true) rest
    | .openObject, _ => build stack (.key [] true) rest
    | .closeArray, .array _ :: outer =>
      if mayClose then build outer (.after (.array [])) rest else none
    | token, _ =>
      match ofScalar? token with
      | some document => build stack (.after document) rest
      | none => none

def ofText (text : String) : Option Document :=
  (Token.ofText text).bind (build [] (.value false))

def nestingLimit : Nat := 128

def enter? : Nat → Option Nat
  | n + 2 => some (n + 1)
  | _ => none

mutual
/-- The value that a document denotes, if its nesting stays within the allowance. A member that
occurs twice keeps its first place and its last value. -/
def toValue? (allowance : Nat) : Document → Option Value
  | .null => some .null
  | .bool b => some (.bool b)
  | .number n => .number <$> n
  | .string s => .string <$> s
  | .array items => do .array <$> itemsToValues? (← enter? allowance) items
  | .object members => do
    .object <$> membersToValues? (← enter? allowance) [] members

def itemsToValues? (allowance : Nat) : List Document → Option (List Value)
  | [] => some []
  | item :: rest => do return (← toValue? allowance item) :: (← itemsToValues? allowance rest)

def membersToValues? (allowance : Nat) (done : List (String × Value)) :
    List (Option String × Document) → Option (List (String × Value))
  | [] => some done
  | (key, document) :: rest => do
    membersToValues? allowance (Pairs.put done (← key) (← toValue? allowance document)) rest
end

mutual
def ofValue : Value → Document
  | .null => .null
  | .bool b => .bool b
  | .number n => .number (some n)
  | .string s => .string (some s)
  | .array items => .array (ofValues items)
  | .object members => .object (ofMembers members)

def ofValues : List Value → List Document
  | [] => []
  | item :: rest => ofValue item :: ofValues rest

def ofMembers : List (String × Value) → List (Option String × Document)
  | [] => []
  | (key, value) :: rest => (some key, ofValue value) :: ofMembers rest
end

end Document

def Value.ofText (text : String) : Option Value :=
  (Document.ofText text).bind (Document.toValue? Document.nestingLimit)

end ServiceShell.Json
