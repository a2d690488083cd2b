import ServiceShell.Json.Document
import ServiceShell.Json.Writer
import ServiceShell.Proofs.WrittenNumber
/-!
The tokens of a written value. Main statement: the written form of a value is scanned as the tokens
of the document that is read there, in which every text stands as it was and every number as it is
reread.
-/
namespace ServiceShell.Json

/-- What holds of an array or object whenever it holds of all that is directly in it, and of
everything else, holds of every value. -/
theorem Value.induct {P : Value → Prop} (null : P .null) (bool : ∀ b, P (.bool b))
    (number : ∀ n, P (.number n)) (string : ∀ s, P (.string s))
    (array : ∀ items, (∀ item ∈ items, P item) → P (.array items))
    (object : ∀ members : List (String × Value), (∀ member ∈ members, P member.2) →
      P (.object members)) :
    ∀ value, P value
  | .null => null
  | .bool b => bool b
  | .number n => number n
  | .string s => string s
  | .array items => array items fun item _ => induct null bool number string array object item
  | .object members =>
    object members fun member _ => induct null bool number string array object member.2
termination_by value => sizeOf value
decreasing_by
  · have := List.sizeOf_lt_of_mem ‹item ∈ items›
    simp only [Value.array.sizeOf_spec]
    omega
  · have := List.sizeOf_lt_of_mem ‹member ∈ members›
    obtain ⟨key, value⟩ := member
    simp only [Value.object.sizeOf_spec, Prod.mk.sizeOf_spec] at this ⊢
    omega

namespace Document

mutual
def reread : Value → Document
  | .null => .null
  | .bool b => .bool b
  | .number n => .number n.reread
  | .string s => .string (some s)
  | .array items => .array (rereadItems items)
  | .object members => .object (rereadMembers members)

def rereadItems : List Value → List Document
  | [] => []
  | item :: rest => reread item :: rereadItems rest

def rereadMembers : List (String × Value) → List (Option String × Document)
  | [] => []
  | (key, value) :: rest => (some key, reread value) :: rereadMembers rest
end

mutual
def tokens : Document → List Token
  | .null => [.null]
  | .bool b => [.bool b]
  | .number n => [.number n]
  | .string s => [.string s]
  | .array items => .openArray :: (itemTokens items ++ [.closeArray])
  | .object members => .openObject :: (memberTokens members ++ [.closeObject])

def itemTokens : List Document → List Token
  | [] => []
  | [item] => tokens item
  | item :: rest => tokens item ++ .comma :: itemTokens rest

def memberTokens : List (Option String × Document) → List Token
  | [] => []
  | [(key, value)] => .string key :: .colon :: tokens value
  | (key, value) :: rest => .string key :: .colon :: (tokens value ++ .comma :: memberTokens rest)
end

end Document

namespace Token

def endsRun (c : Char) : Bool :=
  isGap c || c == '"' || (mark? c).isSome

def Delimited (rest : List Char) : Prop :=
  ∀ c ∈ rest.head?, endsRun c

/-- Characters that are scanned as the given tokens, whatever stands before and after them. -/
def Scans (chars : List Char) (tokens : List Token) : Prop :=
  ∀ done rest, Delimited rest →
    scan .between done (chars ++ rest) = scan .between (tokens.reverse ++ done) rest

theorem ofText_of_scans {chars : List Char} {tokens : List Token} (h : Scans chars tokens) :
    ofText (String.ofList chars) = some tokens := by
  have hscan := h [] [] (by simp [Delimited])
  rw [List.append_nil, List.append_nil] at hscan
  unfold ofText
  rw [String.toList_ofList, hscan]
  simp [scan]

theorem Scans.nil : Scans [] [] := fun _ _ _ => rfl

theorem scan_mark {c : Char} {token : Token} (h : mark? c = some token) (done : List Token)
    (rest : List Char) : scan .between done (c :: rest) = scan .between (token :: done) rest := by
  have hgap : isGap c = false := by
    unfold mark? at h
    split at h <;> first | rfl | cases h
  have hquote : c ≠ '"' := by
    rintro rfl
    cases h
  simp [scan, step, start, hgap, hquote, h]

theorem Scans.append_mark {a b : List Char} {s t : List Token} {c : Char} {token : Token}
    (ha : Scans a s) (hc : mark? c = some token) (hb : Scans b t) :
    Scans (a ++ c :: b) (s ++ token :: t) := by
  intro done rest hrest
  have hmark : Delimited (c :: (b ++ rest)) := by simp [Delimited, endsRun, hc]
  calc scan .between done (a ++ c :: b ++ rest)
      = scan .between done (a ++ c :: (b ++ rest)) := by rw [List.append_assoc]; rfl
    _ = scan .between (s.reverse ++ done) (c :: (b ++ rest)) := ha done _ hmark
    _ = scan .between (token :: (s.reverse ++ done)) (b ++ rest) := scan_mark hc _ _
    _ = scan .between (t.reverse ++ token :: (s.reverse ++ done)) rest := hb _ _ hrest
    _ = scan .between ((s ++ token :: t).reverse ++ done) rest := by simp

theorem Scans.between {a : List Char} {s : List Token} {c d : Char} {opening closing : Token}
    (ha : Scans a s) (hc : mark? c = some opening) (hd : mark? d = some closing) :
    Scans (c :: (a ++ [d])) (opening :: (s ++ [closing])) :=
  Scans.nil.append_mark hc (ha.append_mark hd Scans.nil)

theorem scan_bare {chars : List Char} (hchars : ∀ c ∈ chars, ¬ endsRun c) (run : List Char)
    (done : List Token) (rest : List Char) :
    scan (.bare run) done (chars ++ rest) = scan (.bare (chars.reverse ++ run)) done rest := by
  induction chars generalizing run with
  | nil => rfl
  | cons c chars ih =>
    obtain ⟨hc, hmore⟩ := List.forall_mem_cons.mp hchars
    have hstep : step (.bare run) c = some (.bare (c :: run), []) := if_neg hc
    calc scan (.bare run) done (c :: (chars ++ rest))
        = scan (.bare (c :: run)) done (chars ++ rest) := by rw [scan, hstep]; rfl
      _ = scan (.bare (chars.reverse ++ c :: run)) done rest := ih hmore _
      _ = scan (.bare ((c :: chars).reverse ++ run)) done rest := by simp

theorem scan_bare_end {run : List Char} {token : Token} (h : ofBare run.reverse = some token)
    (done : List Token) {rest : List Char} (hrest : Delimited rest) :
    scan (.bare run) done rest = scan .between (token :: done) rest := by
  cases rest with
  | nil => simp [scan, h]
  | cons c rest =>
    have hc : endsRun c := hrest c rfl
    have hstep : step (.bare run) c = some ((start c).1, token :: (start c).2) := by
      refine (if_pos hc).trans ?_
      rw [h]
      rfl
    rw [scan, hstep, scan, step]
    simp

theorem scans_bare {run : List Char} {token : Token} (hne : run ≠ [])
    (hrun : run.all (!endsRun ·)) (h : ofBare run = some token) : Scans run [token] := by
  intro done rest hrest
  obtain ⟨c, chars, rfl⟩ := List.exists_cons_of_ne_nil hne
  obtain ⟨hc, hmore⟩ : ¬ endsRun c ∧ ∀ d ∈ chars, ¬ endsRun d := by simpa using hrun
  have hstart : start c = (.bare [c], []) := by
    simp only [endsRun, Bool.or_eq_true, not_or, Bool.not_eq_true, beq_eq_false_iff_ne,
      Option.isSome_eq_false_iff, Option.isNone_iff_eq_none] at hc
    simp [start, hc]
  calc scan .between done (c :: (chars ++ rest))
      = scan (.bare [c]) done (chars ++ rest) := by rw [scan, step, hstart]; rfl
    _ = scan (.bare (chars.reverse ++ [c])) done rest := scan_bare hmore _ _ _
    _ = scan .between (token :: done) rest := scan_bare_end (by simpa using h) done hrest

theorem not_endsRun_of_isPlain {c : Char} (h : Numeral.isPlain c) : ¬ endsRun c := by
  intro hend
  simp only [endsRun, isGap, Bool.or_eq_true, beq_iff_eq] at hend
  obtain ((((rfl | rfl) | rfl) | rfl) | rfl) | hmark := hend
  iterate 5 exact absurd h (by decide)
  unfold mark? at hmark
  split at hmark
  iterate 6 exact absurd h (by decide)
  cases hmark

theorem scans_number (n : Number) : Scans n.text.toList [.number n.reread] := by
  obtain ⟨numeral, hread⟩ := n.read_text
  have hword : ∀ word ∈ ["null", "true", "false"], n.text.toList ≠ word.toList := by
    intro word hword hsame
    rw [hsame] at hread
    have : ∀ word ∈ ["null", "true", "false"], Numeral.read word.toList = none := by decide
    rw [this word hword] at hread
    cases hread
  have hrun : ∀ c ∈ n.text.toList, ¬ endsRun c := fun c hc =>
    not_endsRun_of_isPlain (Numeral.isPlain_of_read hread c hc)
  refine scans_bare ?_ (by simpa using hrun) ?_
  · intro hnil
    rw [hnil] at hread
    cases hread
  · unfold ofBare
    rw [if_neg (hword _ (by simp)), if_neg (hword _ (by simp)), if_neg (hword _ (by simp)), hread]
    simp [Number.reread, hread]

theorem scan_code {c : Char} (hc : c.toNat < 0x20) (pieces : List Piece) (done : List Token)
    (rest : List Char) :
    scan (.escape pieces) done ('u' :: '0' :: '0' :: Value.hexDigit (c.toNat / 16) ::
      Value.hexDigit (c.toNat % 16) :: rest) = scan (.text (.char c :: pieces)) done rest := by
  have hdigits : ∀ n < 0x20, hexDigit? (Value.hexDigit (n / 16)) = some (n / 16) ∧
      hexDigit? (Value.hexDigit (n % 16)) = some (n % 16) := by decide
  obtain ⟨hhigh, hlow⟩ := hdigits _ hc
  have hzero : hexDigit? '0' = some 0 := rfl
  have hunit : c.toNat / 16 * 16 + c.toNat % 16 = c.toNat := by omega
  have hpiece : pieceOf c.toNat = .char c := by
    unfold pieceOf
    rw [if_neg (by omega), Char.ofNat_toNat]
  simp [scan, step, hzero, hhigh, hlow, hunit, hpiece]

theorem scan_escape (c : Char) (pieces : List Piece) (done : List Token) (rest : List Char) :
    scan (.text pieces) done (Value.escape c ++ rest) =
      scan (.text (.char c :: pieces)) done rest := by
  unfold Value.escape
  split
  iterate 7 rfl
  split
  · exact scan_code ‹_› pieces done rest
  · have hstep : step (.text pieces) c = some (.text (.char c :: pieces), []) := by
      simp_all [step]
    rw [List.singleton_append, scan, hstep]
    rfl

theorem scan_flatMap_escape (chars : List Char) (pieces : List Piece) (done : List Token)
    (rest : List Char) :
    scan (.text pieces) done (chars.flatMap Value.escape ++ rest) =
      scan (.text ((chars.map Piece.char).reverse ++ pieces)) done rest := by
  induction chars generalizing pieces with
  | nil => rfl
  | cons c chars ih =>
    rw [List.flatMap_cons, List.append_assoc, scan_escape, ih]
    simp

theorem join_map_char (done chars : List Char) :
    join done (chars.map .char) = some (done.reverse ++ chars) := by
  induction chars generalizing done with
  | nil => simp [join]
  | cons c chars ih => simp [join, ih]

/-- A quoted text is one token. -/
theorem scans_quote (s : String) : Scans (Value.quote s) [.string (some s)] := by
  intro done rest _
  have hjoin : join [] (s.toList.map Piece.char) = some s.toList := join_map_char [] s.toList
  calc scan .between done (Value.quote s ++ rest)
      = scan .between done ('"' :: (s.toList.flatMap Value.escape ++ '"' :: rest)) := by
        simp [Value.quote]
    _ = scan (.text []) done (s.toList.flatMap Value.escape ++ '"' :: rest) := by rw [scan]; rfl
    _ = scan (.text (s.toList.map Piece.char).reverse) done ('"' :: rest) := by
        rw [scan_flatMap_escape, List.append_nil]
    _ = scan .between (.string (some s) :: done) rest := by simp [scan, step, hjoin]

theorem scans_writeItems {items : List Value}
    (h : ∀ item ∈ items, Scans item.write (Document.reread item).tokens) :
    Scans (Value.writeItems items) (Document.itemTokens (Document.rereadItems items)) := by
  induction items with
  | nil => exact Scans.nil
  | cons item rest ih =>
    obtain ⟨hitem, hrest⟩ := List.forall_mem_cons.mp h
    cases rest with
    | nil => exact hitem
    | cons next rest => exact hitem.append_mark rfl (ih hrest)

theorem Scans.member {a : List Char} {s : List Token} (key : String) (ha : Scans a s) :
    Scans (Value.quote key ++ ':' :: a) (.string (some key) :: .colon :: s) :=
  (scans_quote key).append_mark rfl ha

theorem scans_writeMembers {members : List (String × Value)}
    (h : ∀ member ∈ members, Scans member.2.write (Document.reread member.2).tokens) :
    Scans (Value.writeMembers members)
      (Document.memberTokens (Document.rereadMembers members)) := by
  induction members with
  | nil => exact Scans.nil
  | cons member rest ih =>
    obtain ⟨key, value⟩ := member
    obtain ⟨hvalue, hrest⟩ := List.forall_mem_cons.mp h
    cases rest with
    | nil => exact hvalue.member key
    | cons next rest => exact (hvalue.member key).append_mark rfl (ih hrest)

/-- A written value is scanned as the tokens of the document that is read there. -/
theorem scans_write (value : Value) : Scans value.write (Document.reread value).tokens := by
  induction value using Value.induct with
  | null => exact scans_bare (List.cons_ne_nil _ _) rfl rfl
  | bool b => cases b <;> exact scans_bare (List.cons_ne_nil _ _) rfl rfl
  | number n => exact scans_number n
  | string s => exact scans_quote s
  | array items ih => exact (scans_writeItems ih).between rfl rfl
  | object members ih => exact (scans_writeMembers ih).between rfl rfl

end Token
end ServiceShell.Json
