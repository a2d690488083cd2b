import ServiceShell.Json.Pointer
import ServiceShell.Proofs.WrittenNumber
/-!
References into a value. Main statements: what a reference denotes, segment by segment; what a
reference denotes that goes on behind another one; and how any text is written as a single segment.
-/
namespace ServiceShell.Json.Pointer

open Numeral (digit)

theorem segments_append {mark : Char} {piece : List Char} (h : mark ∉ piece) (rest : List Char) :
    segments mark (piece ++ mark :: rest) = piece :: segments mark rest := by
  induction piece with
  | nil => simp [segments]
  | cons c piece ih =>
    rw [List.mem_cons, not_or] at h
    rw [List.cons_append, segments, if_neg fun hc => h.1 hc.symm, ih h.2]

theorem segments_single {mark : Char} {piece : List Char} (h : mark ∉ piece) :
    segments mark piece = [piece] := by
  induction piece with
  | nil => rfl
  | cons c piece ih =>
    rw [List.mem_cons, not_or] at h
    rw [segments, if_neg fun hc => h.1 hc.symm, ih h.2]

theorem segments_intercalate {mark : Char} {pieces : List (List Char)} (hne : pieces ≠ [])
    (h : ∀ piece ∈ pieces, mark ∉ piece) :
    segments mark (List.intercalate [mark] pieces) = pieces := by
  induction pieces with
  | nil => exact absurd rfl hne
  | cons piece pieces ih =>
    obtain ⟨hpiece, hpieces⟩ := List.forall_mem_cons.mp h
    cases pieces with
    | nil => simpa using segments_single hpiece
    | cons next pieces =>
      rw [List.intercalate_cons_cons, List.append_assoc, List.singleton_append,
        segments_append hpiece, ih (by simp) hpieces]

/-- A reference is one segment, or a segment in front of another reference. -/
@[elab_as_elim]
theorem reference_induction {motive : List Char → Prop}
    (last : ∀ segment, '/' ∉ segment → motive segment)
    (further : ∀ segment rest, '/' ∉ segment → motive rest → motive (segment ++ '/' :: rest))
    (reference : List Char) : motive reference := by
  by_cases h : '/' ∈ reference
  · obtain ⟨segment, rest, heq, hsegment⟩ := List.eq_append_cons_of_mem h
    rw [heq]
    exact further segment rest hsegment (reference_induction last further rest)
  · exact last reference h
termination_by reference.length
decreasing_by simp [heq]; omega

theorem resolve_last {segment : List Char} (h : '/' ∉ segment) (value : Value) :
    resolve value segment = step value (unescape segment) := by
  rw [resolve, segments_single h, walk]
  exact Option.bind_fun_some _

theorem resolve_further {segment : List Char} (h : '/' ∉ segment) (value : Value)
    (rest : List Char) :
    resolve value (segment ++ '/' :: rest) =
      (step value (unescape segment)).bind (resolve · rest) := by
  rw [resolve, segments_append h, walk]
  rfl

theorem resolve_append (value : Value) (front back : List Char) :
    resolve value (front ++ '/' :: back) = (resolve value front).bind (resolve · back) := by
  induction front using reference_induction generalizing value with
  | last segment h => rw [resolve_further h, resolve_last h]
  | further segment rest h ih =>
    simp only [List.append_assoc, List.cons_append, resolve_further h, ih, Option.bind_assoc]

theorem index?_cons {c : Char} (hc : c ≠ '0') (rest : List Char) :
    index? (c :: rest) = if (c :: rest).all Char.isDigit then
      some (Numeral.ofDigits (Numeral.digits (c :: rest)).1) else none := by
  rw [index?] <;> simp [hc]

/-- A position is written in decimal. -/
theorem index?_eq_some_iff {text : List Char} {n : Nat} :
    index? text = some n ↔ text = Nat.toDigits 10 n := by
  have hdigits (ds : List Char) (h : ∀ d ∈ ds, d.isDigit) :
      (Numeral.digits ds).1 = ds.map digit := by
    simpa using congrArg Prod.fst (@Numeral.digits_append ds [] h (by simp))
  constructor
  · intro h
    unfold index? at h
    split at h
    · cases h
    · cases h
      rfl
    · cases h
    · rename_i hnil _ hzero
      obtain ⟨hall, hvalue⟩ := Option.ite_none_right_eq_some.mp h
      rw [List.all_eq_true] at hall
      rw [hdigits _ hall, Option.some.injEq] at hvalue
      obtain ⟨c, rest, rfl⟩ := List.exists_cons_of_ne_nil hnil
      have hc : c ≠ '0' := fun hc => hzero rest (by rw [hc])
      rw [← hvalue, Numeral.toDigits_ofDigits ⟨hall, .inr ⟨c, rest, rfl, hc⟩⟩]
  · rintro rfl
    by_cases hn : n = 0
    · subst hn
      rfl
    · obtain ⟨c, rest, htext, hc⟩ := Numeral.head_toDigits hn
      have hall := Numeral.isDigit_toDigits n
      have hvalue := Numeral.ofDigits_toDigits n
      rw [htext] at hall hvalue ⊢
      rw [index?_cons hc, if_pos (List.all_eq_true.mpr hall), hdigits _ hall, hvalue]

inductive Selects (name : List Char) : Value → Value → Prop
  | member {members : List (String × Value)} {value : Value} :
    Pairs.get? members (String.ofList name) = some value → Selects name (.object members) value
  | item {items : List Value} {position : Nat} {value : Value} :
    name = Nat.toDigits 10 position → items[position]? = some value →
      Selects name (.array items) value

theorem step_eq_some_iff {value found : Value} {name : List Char} :
    step value name = some found ↔ Selects name value found := by
  constructor
  · intro h
    cases value with
    | object members => exact .member h
    | array items =>
      obtain ⟨position, hindex, hitem⟩ := Option.bind_eq_some_iff.mp h
      exact .item (index?_eq_some_iff.mp hindex) hitem
    | _ => cases h
  · rintro (hmember | ⟨hname, hitem⟩)
    · exact hmember
    · exact Option.bind_eq_some_iff.mpr ⟨_, index?_eq_some_iff.mpr hname, hitem⟩

/-- What a reference denotes in a value: each of its segments selects in what the ones in front of
it have come to, the last one selects the result. -/
inductive Denotes : Value → List Char → Value → Prop
  | last {value found : Value} {segment : List Char} : '/' ∉ segment →
    Selects (unescape segment) value found → Denotes value segment found
  | further {value inner found : Value} {segment rest : List Char} : '/' ∉ segment →
    Selects (unescape segment) value inner → Denotes inner rest found →
      Denotes value (segment ++ '/' :: rest) found

theorem resolve_eq_some_iff {value found : Value} {reference : List Char} :
    resolve value reference = some found ↔ Denotes value reference found := by
  constructor
  · intro h
    induction reference using reference_induction generalizing value with
    | last segment hsegment =>
      rw [resolve_last hsegment, step_eq_some_iff] at h
      exact .last hsegment h
    | further segment rest hsegment ih =>
      rw [resolve_further hsegment] at h
      obtain ⟨inner, hinner, hrest⟩ := Option.bind_eq_some_iff.mp h
      exact .further hsegment (step_eq_some_iff.mp hinner) (ih hrest)
  · intro h
    induction h with
    | last hsegment hselects => rw [resolve_last hsegment, step_eq_some_iff.mpr hselects]
    | further hsegment hselects _ ih =>
      rw [resolve_further hsegment, step_eq_some_iff.mpr hselects, Option.bind_some, ih]

theorem resolve_eq_none_iff {value : Value} {reference : List Char} :
    resolve value reference = none ↔ ∀ found, ¬ Denotes value reference found := by
  simp only [Option.eq_none_iff_forall_ne_some, ne_eq, resolve_eq_some_iff]

def escape (text : List Char) : List Char :=
  text.flatMap fun c => if c = '~' then ['~', '0'] else if c = '/' then ['~', '1'] else [c]

theorem unescape_cons {c : Char} (h : c ≠ '~') (rest : List Char) :
    unescape (c :: rest) = c :: unescape rest := by
  rw [unescape]
  · rintro _ rfl
    exact absurd rfl h
  · rintro _ rfl
    exact absurd rfl h

theorem unescape_escape (text : List Char) : unescape (escape text) = text := by
  induction text with
  | nil => rfl
  | cons c text ih =>
    have hcons : escape (c :: text) =
        (if c = '~' then ['~', '0'] else if c = '/' then ['~', '1'] else [c]) ++ escape text := rfl
    rw [hcons]
    by_cases htilde : c = '~'
    · rw [if_pos htilde, htilde]
      exact congrArg (List.cons '~') ih
    · rw [if_neg htilde]
      by_cases hslash : c = '/'
      · rw [if_pos hslash, hslash]
        exact congrArg (List.cons '/') ih
      · rw [if_neg hslash]
        exact (unescape_cons htilde _).trans (congrArg (List.cons c) ih)

example : escape "net/tax~1".toList = "net~1tax~01".toList := by decide

theorem slash_not_mem_escape (text : List Char) : '/' ∉ escape text := by
  intro h
  obtain ⟨c, -, hc⟩ := List.mem_flatMap.mp h
  by_cases htilde : c = '~'
  · simp [htilde] at hc
  · by_cases hslash : c = '/'
    · simp [hslash] at hc
    · simp [htilde, hslash] at hc
      exact hslash hc.symm

theorem unescape_eq_self {text : List Char} (hslash : ¬ ['~', '1'] <:+: text)
    (htilde : ¬ ['~', '0'] <:+: text) : unescape text = text := by
  fun_induction unescape text with
  | case1 rest => exact absurd (List.prefix_append ['~', '1'] rest).isInfix hslash
  | case2 rest => exact absurd (List.prefix_append ['~', '0'] rest).isInfix htilde
  | case3 c rest _ _ ih =>
    rw [ih (fun h => hslash (h.trans (List.infix_cons (List.infix_refl _))))
      (fun h => htilde (h.trans (List.infix_cons (List.infix_refl _))))]
  | case4 => rfl

end ServiceShell.Json.Pointer
