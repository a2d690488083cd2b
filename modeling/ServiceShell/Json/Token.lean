import ServiceShell.Json.Value
/-!
The tokens of a document. Texts are read in UTF-16 units, so that an escaped surrogate without its
partner is noticed; numbers too large for a float likewise stay in place as absent values.
-/
namespace ServiceShell.Json

inductive Token where
  | openArray | closeArray | openObject | closeObject | comma | colon
  | null
  | bool (value : Bool)
  | number (value : Option Number)
  | string (value : Option String)
deriving DecidableEq

namespace Token

inductive Piece where
  | char (c : Char)
  | surrogate (unit : Nat)

/-- Joins each high surrogate with the low one after it, onto the characters already joined, which
are in reverse. Nothing if a surrogate stands alone. -/
def join (done : List Char) : List Piece → Option (List Char)
  | [] => some done.reverse
  | .char c :: rest => join (c :: done) rest
  | .surrogate high :: .surrogate low :: rest =>
    if high < 0xDC00 ∧ 0xDC00 ≤ low then
      join (Char.ofNat (0x10000 + (high - 0xD800) * 0x400 + (low - 0xDC00)) :: done) rest
    else none
  | .surrogate _ :: _ => none

inductive Scan where
  | between
  | bare (done : List Char)
  | text (done : List Piece)
  | escape (done : List Piece)
  | code (done : List Piece) (left : Nat) (unit : Nat)

def hexDigit? (c : Char) : Option Nat :=
  if c.isDigit then some (c.toNat - '0'.toNat)
  else if 'a' ≤ c ∧ c ≤ 'f' then some (c.toNat - 'a'.toNat + 10)
  else if 'A' ≤ c ∧ c ≤ 'F' then some (c.toNat - 'A'.toNat + 10)
  else none

def escaped? : Char → Option Char
  | '"' => some '"'
  | '\\' => some '\\'
  | '/' => some '/'
  | 'b' => some '\x08'
  | 'f' => some '\x0c'
  | 'n' => some '\n'
  | 'r' => some '\r'
  | 't' => some '\t'
  | _ => none

def pieceOf (unit : Nat) : Piece :=
  if 0xD800 ≤ unit ∧ unit < 0xE000 then .surrogate unit else .char (Char.ofNat unit)

def mark? : Char → Option Token
  | '[' => some .openArray
  | ']' => some .closeArray
  | '{' => some .openObject
  | '}' => some .closeObject
  | ',' => some .comma
  | ':' => some .colon
  | _ => none

def isGap (c : Char) : Bool :=
  c == ' ' || c == '\n' || c == '\t' || c == '\r'

/-- A run of characters that is neither mark, gap nor text: a word or a number. -/
def ofBare (run : List Char) : Option Token :=
  if run = "null".toList then some .null
  else if run = "true".toList then some (.bool true)
  else if run = "false".toList then some (.bool false)
  else (.number ·.number) <$> Numeral.read run

def start (c : Char) : Scan × List Token :=
  if isGap c then (.between, [])
  else if c = '"' then (.text [], [])
  else match mark? c with
    | some token => (.between, [token])
    | none => (.bare [c], [])

def step : Scan → Char → Option (Scan × List Token)
  | .between, c => some (start c)
  | .bare done, c =>
    if isGap c || c == '"' || (mark? c).isSome then do
      let token ← ofBare done.reverse
      let (scan, tokens) := start c
      return (scan, token :: tokens)
    else some (.bare (c :: done), [])
  | .text done, c =>
    if c = '"' then some (.between, [.string (String.ofList <$> join [] done.reverse)])
    else if c = '\\' then some (.escape done, [])
    else if c.toNat < 0x20 then none
    else some (.text (.char c :: done), [])
  | .escape done, c =>
    if c = 'u' then some (.code done 4 0, [])
    else do
      let plain ← escaped? c
      return (.text (.char plain :: done), [])
  | .code done left unit, c => do
    let digit ← hexDigit? c
    let unit := unit * 16 + digit
    return if left ≤ 1 then (.text (pieceOf unit :: done), []) else (.code done (left - 1) unit, [])

def scan (state : Scan) (done : List Token) : List Char → Option (List Token)
  | [] => match state with
    | .between => some done.reverse
    | .bare run => (fun token => (token :: done).reverse) <$> ofBare run.reverse
    | _ => none
  | c :: rest =>
    match step state c with
    | some (state, tokens) => scan state (tokens.reverse ++ done) rest
    | none => none

def ofText (text : String) : Option (List Token) :=
  scan .between [] text.toList

end Token
end ServiceShell.Json
