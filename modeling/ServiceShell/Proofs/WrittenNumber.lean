import Mathlib.Data.List.Induction
import Mathlib.Tactic.IntervalCases
import ServiceShell.Json.Token
/-!
Numbers as they are written. Every written number is a numeral. An integer reads back as it was; a
float reads back as some number, which need not be the same one, or as none.
-/
namespace ServiceShell.Json

namespace Numeral

def digit (c : Char) : Nat := c.toNat - '0'.toNat

theorem digits_append {ds rest : List Char} (hdigits : ∀ c ∈ ds, c.isDigit)
    (hrest : ∀ c ∈ rest.head?, ¬ c.isDigit) :
    digits (ds ++ rest) = (ds.map digit, rest) := by
  have hstop : rest.takeWhile Char.isDigit = [] ∧ rest.dropWhile Char.isDigit = rest := by
    cases rest with
    | nil => simp
    | cons c rest => simp_all
  simp only [digits, List.takeWhile_append_of_pos hdigits, List.dropWhile_append_of_pos hdigits,
    hstop, List.append_nil]
  rfl

theorem ofDigits_eq (ds : List Char) :
    ofDigits (ds.map digit) = Nat.ofDigitChars 10 ds 0 := by
  unfold ofDigits Nat.ofDigitChars
  rw [List.foldl_map]
  congr
  funext n c
  unfold digit
  omega

theorem ofDigits_toDigits (n : Nat) : ofDigits ((Nat.toDigits 10 n).map digit) = n := by
  rw [ofDigits_eq, Nat.ofDigitChars_ten_toDigits]

theorem isDigit_toDigits (n : Nat) : ∀ c ∈ Nat.toDigits 10 n, c.isDigit :=
  fun _ => Nat.isDigit_of_mem_toDigits (by decide) (by decide)

theorem head_toDigits {n : Nat} (hn : n ≠ 0) :
    ∃ c rest, Nat.toDigits 10 n = c :: rest ∧ c ≠ '0' := by
  induction n using Nat.strong_induction_on with
  | _ n ih =>
    rw [Nat.toDigits_eq_if (by decide)]
    split
    · refine ⟨_, _, rfl, ?_⟩
      interval_cases n <;> simp_all
    · obtain ⟨c, rest, hdigits, hc⟩ := ih (n / 10) (by omega) (by omega)
      exact ⟨c, rest ++ [(n % 10).digitChar], by rw [hdigits]; rfl, hc⟩

/-- Digits that may stand in front of the point: not empty, and with no zero in front of others. -/
def IsWhole (ds : List Char) : Prop :=
  (∀ c ∈ ds, c.isDigit) ∧ (ds = ['0'] ∨ ∃ c rest, ds = c :: rest ∧ c ≠ '0')

theorem isWhole_toDigits (n : Nat) : IsWhole (Nat.toDigits 10 n) := by
  refine ⟨isDigit_toDigits n, ?_⟩
  by_cases hn : n = 0
  · subst hn
    exact .inl rfl
  · exact .inr (head_toDigits hn)

theorem digit_ne_zero {c : Char} (hdigit : c.isDigit) (hc : c ≠ '0') : digit c ≠ 0 := by
  intro h
  refine hc (Char.toNat_inj.mp ?_)
  have hbound : '0'.toNat ≤ c.toNat := by
    simp only [Char.isDigit, Bool.and_eq_true, decide_eq_true_eq] at hdigit
    exact hdigit.1
  unfold digit at h
  omega

theorem digitChar_digit {c : Char} (h : c.isDigit) : digit c < 10 ∧ (digit c).digitChar = c := by
  simp only [Char.isDigit, Bool.and_eq_true, decide_eq_true_eq] at h
  obtain ⟨d, hd⟩ : ∃ d, c.toNat = '0'.toNat + d := Nat.exists_eq_add_of_le h.1
  have hlt : d < 10 := by
    have hhigh : c.toNat ≤ '9'.toNat := h.2
    have hnine : '9'.toNat = '0'.toNat + 9 := rfl
    omega
  rw [digit, hd, Nat.add_sub_cancel_left]
  refine ⟨hlt, Char.toNat_inj.mp ?_⟩
  rw [hd]
  interval_cases d <;> rfl

/-- A whole number is written in one way. -/
theorem toDigits_ofDigits {ds : List Char} (hwhole : IsWhole ds) :
    Nat.toDigits 10 (ofDigits (ds.map digit)) = ds := by
  induction ds using List.reverseRecOn with
  | nil => simp [IsWhole] at hwhole
  | append_singleton ds c ih =>
    obtain ⟨hdigits, hhead⟩ := hwhole
    obtain ⟨hlast, hc⟩ := digitChar_digit (hdigits c (by simp))
    have hone : Nat.toDigits 10 (digit c) = [c] := by rw [Nat.toDigits_of_lt_base hlast, hc]
    cases ds with
    | nil => simpa [ofDigits] using hone
    | cons first rest =>
      have hfirst : first ≠ '0' := by simpa using hhead
      have hrest := ih
        ⟨fun d hd => hdigits d (List.mem_append_left _ hd), .inr ⟨_, _, rfl, hfirst⟩⟩
      have hsnoc : ofDigits (((first :: rest) ++ [c]).map digit) =
          10 * ofDigits ((first :: rest).map digit) + digit c := by
        simp [ofDigits, Nat.mul_comm]
      have hpos : 0 < ofDigits ((first :: rest).map digit) := by
        refine Nat.pos_of_ne_zero fun hzero => hfirst ?_
        rw [hzero] at hrest
        exact (List.cons.inj hrest).1.symm
      rw [hsnoc, ← Nat.toDigits_append_toDigits (by decide) hpos hlast, hrest, hone]

theorem IsWhole.cases {ds : List Char} (hwhole : IsWhole ds) :
    ds.map digit = [0] ∨ ∃ d rest, ds.map digit = (d + 1) :: rest := by
  obtain ⟨hdigits, rfl | ⟨c, rest, rfl, hc⟩⟩ := hwhole
  · exact .inl rfl
  · obtain ⟨d, hd⟩ :=
      Nat.exists_eq_succ_of_ne_zero (digit_ne_zero (hdigits c List.mem_cons_self) hc)
    exact .inr ⟨d, rest.map digit, by rw [List.map_cons, hd]⟩

theorem readUnsigned_plain {ds tail : List Char} (hwhole : IsWhole ds)
    (htail : ∀ c ∈ tail.head?, ¬ c.isDigit ∧ c ≠ '.') (negative : Bool) :
    readUnsigned negative (ds ++ tail) = (⟨negative, ds.map digit, none, ·⟩) <$> readTail tail := by
  unfold readUnsigned
  rw [digits_append hwhole.1 fun c hc => (htail c hc).1]
  obtain h | ⟨d, rest, h⟩ := hwhole.cases <;> rw [h] <;> cases tail with
  | nil => rfl
  | cons c tail => simp [(htail c rfl).2]

theorem readUnsigned_point {ds fraction tail : List Char} (hwhole : IsWhole ds)
    (hfraction : ∀ c ∈ fraction, c.isDigit) (hne : fraction ≠ [])
    (htail : ∀ c ∈ tail.head?, ¬ c.isDigit) (negative : Bool) :
    readUnsigned negative (ds ++ '.' :: (fraction ++ tail)) =
      (⟨negative, ds.map digit, some (fraction.map digit), ·⟩) <$> readTail tail := by
  unfold readUnsigned
  rw [digits_append hwhole.1 (by simp)]
  have hafter := digits_append hfraction htail
  obtain ⟨c, rest, rfl⟩ := List.exists_cons_of_ne_nil hne
  obtain h | ⟨d, more, h⟩ := hwhole.cases <;> rw [h] <;> simp_all

theorem readExponent_toDigits (negative : Bool) (n : Nat) :
    readExponent negative (Nat.toDigits 10 n) = some (if negative then -(n : Int) else n) := by
  have hread : digits (Nat.toDigits 10 n ++ []) = _ := digits_append (isDigit_toDigits n) (by simp)
  have hvalue := ofDigits_toDigits n
  obtain ⟨c, rest, h⟩ := List.exists_cons_of_ne_nil (Nat.toDigits_ne_nil (n := n) (b := 10))
  unfold readExponent
  rw [List.append_nil] at hread
  rw [hread]
  rw [h, List.map_cons] at hvalue ⊢
  exact congrArg (fun m : Nat => some (if negative then -(m : Int) else m)) hvalue

theorem readTail_exponentText (n : Int) : readTail (Double.exponentText n) = some (some n) := by
  unfold Double.exponentText
  split
  · exact (congrArg (some <$> ·) (readExponent_toDigits true n.natAbs)).trans
      (congrArg (some ∘ some) (by simp only [if_true]; omega))
  · exact (congrArg (some <$> ·) (readExponent_toDigits false n.natAbs)).trans
      (congrArg (some ∘ some) (by simp only [Bool.false_eq_true, if_false]; omega))

theorem isDigit_replicate (n : Nat) : ∀ c ∈ List.replicate n '0', c.isDigit := by
  intro c hc
  rw [List.eq_of_mem_replicate hc]
  decide

/-- Digits around a point are a numeral. -/
theorem exists_readUnsigned {ds fraction : List Char} (hwhole : IsWhole ds)
    (hfraction : ∀ c ∈ fraction, c.isDigit) (hne : fraction ≠ []) (negative : Bool) :
    ∃ numeral, readUnsigned negative (ds ++ '.' :: fraction) = some numeral := by
  have h : readUnsigned negative (ds ++ '.' :: (fraction ++ [])) = _ :=
    readUnsigned_point hwhole hfraction hne (by simp) negative
  rw [List.append_nil] at h
  exact ⟨_, h⟩

theorem read_unsignedText (negative : Bool) (d : Decimal) :
    ∃ numeral, readUnsigned negative (Double.unsignedText d) = some numeral := by
  have hdigits := isDigit_toDigits d.digits
  unfold Double.unsignedText Decimal.digitText
  dsimp only
  split
  · exact exists_readUnsigned (isWhole_toDigits 0) (isDigit_replicate 1) (by simp) negative
  rename_i hzero
  obtain ⟨c, rest, htext, hc⟩ := head_toDigits hzero
  rw [htext] at hdigits ⊢
  have hmore : ∀ x ∈ rest, x.isDigit := fun x hx => hdigits x (List.mem_cons_of_mem c hx)
  have hfirst : ∀ more, (∀ x ∈ more, x.isDigit) → IsWhole (c :: more) := fun more h =>
    ⟨List.forall_mem_cons.mpr ⟨hdigits c List.mem_cons_self, h⟩, .inr ⟨c, more, rfl, hc⟩⟩
  split
  -- an integer of at most sixteen digits
  · exact exists_readUnsigned
      (hfirst (rest ++ List.replicate d.exponent.toNat '0') fun x hx =>
        (List.mem_append.mp hx).elim (hmore x) (isDigit_replicate _ x))
      (isDigit_replicate 1) (by simp) negative
  rename_i hlong
  split
  -- the point stands among the digits
  · rename_i hpoint
    obtain ⟨n, hn⟩ : ∃ n, ((c :: rest).length + d.exponent).toNat = n + 1 :=
      ⟨((c :: rest).length + d.exponent).toNat - 1, by omega⟩
    have hshort : rest.drop n ≠ [] := by
      rw [Ne, List.drop_eq_nil_iff]
      simp only [List.length_cons] at hn hpoint hlong
      omega
    rw [hn, List.take_succ_cons, List.drop_succ_cons]
    exact exists_readUnsigned
      (hfirst (rest.take n) fun x hx => hmore x (List.mem_of_mem_take hx))
      (fun x hx => hmore x (List.mem_of_mem_drop hx)) hshort negative
  split
  -- zeros stand between the point and the digits
  · have hfraction : ∀ n, ∀ x ∈ List.replicate n '0' ++ c :: rest, x.isDigit := fun n x hx =>
      (List.mem_append.mp hx).elim (isDigit_replicate n x) (hdigits x)
    exact exists_readUnsigned (isWhole_toDigits 0) (hfraction _) (by simp) negative
  -- the digits have an exponent
  · generalize ((c :: rest).length : Int) + d.exponent - 1 = n
    cases rest with
    | nil =>
      exact ⟨_, (readUnsigned_plain (hfirst [] (by simp)) (by simp)
        negative).trans (congrArg _ (readTail_exponentText n))⟩
    | cons second rest =>
      exact ⟨_, (readUnsigned_point (hfirst [] (by simp)) hmore (by simp)
        (by simp [Double.exponentText]) negative).trans (congrArg _ (readTail_exponentText n))⟩

theorem read_of_readUnsigned {text : List Char} {numeral : Numeral}
    (h : readUnsigned false text = some numeral) : read text = some numeral := by
  unfold read
  split
  · simp [readUnsigned, digits] at h
  · exact h

theorem read_toDigits (n : Nat) :
    read (Nat.toDigits 10 n) = some ⟨false, (Nat.toDigits 10 n).map digit, none, none⟩ := by
  have h : readUnsigned false (Nat.toDigits 10 n ++ []) = _ :=
    readUnsigned_plain (isWhole_toDigits n) (by simp) false
  rw [List.append_nil] at h
  exact read_of_readUnsigned h

theorem read_neg_toDigits (n : Nat) :
    read ('-' :: Nat.toDigits 10 n) = some ⟨true, (Nat.toDigits 10 n).map digit, none, none⟩ := by
  have h : readUnsigned true (Nat.toDigits 10 n ++ []) = _ :=
    readUnsigned_plain (isWhole_toDigits n) (by simp) true
  rw [List.append_nil] at h
  exact h

def isPlain (c : Char) : Bool :=
  c.isDigit || c == '.' || c == 'e' || c == 'E' || c == '+' || c == '-'

theorem isPlain_of_digits {text rest : List Char} {ds : List Nat} (h : digits text = (ds, rest))
    (hrest : ∀ c ∈ rest, isPlain c) : ∀ c ∈ text, isPlain c := by
  obtain ⟨-, rfl⟩ := Prod.mk.inj h
  intro c hc
  rw [← List.takeWhile_append_dropWhile (p := Char.isDigit) (l := text)] at hc
  obtain hc | hc := List.mem_append.mp hc
  · simp [isPlain, List.all_eq_true.mp List.all_takeWhile c hc]
  · exact hrest c hc

theorem isPlain_of_readExponent {negative : Bool} {text : List Char} {n : Int}
    (h : readExponent negative text = some n) : ∀ c ∈ text, isPlain c := by
  unfold readExponent at h
  split at h
  · cases h
  · rename_i hdigits
    exact isPlain_of_digits hdigits (by simp)
  · cases h

theorem isPlain_of_readTail {text : List Char} {n : Option Int} (h : readTail text = some n) :
    ∀ c ∈ text, isPlain c := by
  have after : ∀ {negative : Bool} {rest : List Char} (front : List Char),
      front.all isPlain → some <$> readExponent negative rest = some n →
      ∀ c ∈ front ++ rest, isPlain c := by
    intro negative rest front hfront hrest c hc
    obtain ⟨m, hm, -⟩ := Option.map_eq_some_iff.mp hrest
    exact (List.mem_append.mp hc).elim (List.all_eq_true.mp hfront c)
      (isPlain_of_readExponent hm c)
  unfold readTail at h
  split at h
  · simp
  · exact after ['e', '-'] rfl h
  · exact after ['E', '-'] rfl h
  · exact after ['e', '+'] rfl h
  · exact after ['E', '+'] rfl h
  · exact after ['e'] rfl h
  · exact after ['E'] rfl h
  · cases h

theorem isPlain_of_readUnsigned {negative : Bool} {text : List Char} {numeral : Numeral}
    (h : readUnsigned negative text = some numeral) : ∀ c ∈ text, isPlain c := by
  unfold readUnsigned at h
  split at h
  · cases h
  · cases h
  · rename_i hwhole
    split at h
    · cases h
    · rename_i hfraction
      obtain ⟨n, hn, -⟩ := Option.map_eq_some_iff.mp h
      exact isPlain_of_digits hwhole (List.forall_mem_cons.mpr
        ⟨by decide, isPlain_of_digits hfraction (isPlain_of_readTail hn)⟩)
  · rename_i hwhole
    obtain ⟨n, hn, -⟩ := Option.map_eq_some_iff.mp h
    exact isPlain_of_digits hwhole (isPlain_of_readTail hn)

theorem isPlain_of_read {text : List Char} {numeral : Numeral} (h : read text = some numeral) :
    ∀ c ∈ text, isPlain c := by
  unfold read at h
  split at h
  · exact List.forall_mem_cons.mpr ⟨by decide, isPlain_of_readUnsigned h⟩
  · exact isPlain_of_readUnsigned h

end Numeral

namespace Number

def reread (n : Number) : Option Number :=
  (Numeral.read n.text.toList).bind Numeral.number

theorem toList_text_int (i : Integer) :
    (Number.int i).text.toList =
      (if 0 ≤ i.value then [] else ['-']) ++ Nat.toDigits 10 i.value.natAbs := by
  change (toString i.value).toList = _
  cases i.value with
  | ofNat n => simp [toString, Int.repr]
  | negSucc n => simp [toString, Int.repr]

/-- Every number is written as a numeral. -/
theorem read_text (n : Number) : ∃ numeral, Numeral.read n.text.toList = some numeral := by
  cases n with
  | int i =>
    rw [toList_text_int]
    split
    · exact ⟨_, Numeral.read_toDigits _⟩
    · exact ⟨_, Numeral.read_neg_toDigits _⟩
  | float x =>
    unfold text Double.text
    rw [String.toList_ofList]
    split
    · exact Numeral.read_unsignedText true x.shortest
    · obtain ⟨numeral, h⟩ := Numeral.read_unsignedText false x.shortest
      exact ⟨numeral, Numeral.read_of_readUnsigned h⟩

theorem ofInt?_value (i : Integer) : Integer.ofInt? i.value = some i := by
  unfold Integer.ofInt?
  rw [dif_pos ⟨i.low, i.high⟩]

/-- A numeral without point and exponent is an integer if it fits one and is no `-0`. -/
theorem number_whole {negative : Bool} {whole : List Nat} {i : Integer}
    (hvalue : (if negative then -(Numeral.ofDigits whole : Int) else Numeral.ofDigits whole) =
      i.value)
    (hzero : negative → i.value ≠ 0) :
    Numeral.number ⟨negative, whole, none, none⟩ = some (.int i) := by
  unfold Numeral.number
  dsimp only
  rw [hvalue, ofInt?_value]
  refine if_neg ?_
  rintro ⟨hneg, h⟩
  rw [if_pos hneg, h] at hvalue
  exact hzero hneg (by omega)

theorem reread_int (i : Integer) : (Number.int i).reread = some (.int i) := by
  unfold reread
  rw [toList_text_int]
  split
  · rename_i hsign
    rw [List.nil_append, Numeral.read_toDigits, Option.bind_some]
    refine number_whole ?_ (by simp)
    rw [Numeral.ofDigits_toDigits]
    exact Int.natAbs_of_nonneg hsign
  · rename_i hsign
    rw [List.singleton_append, Numeral.read_neg_toDigits, Option.bind_some]
    refine number_whole ?_ fun _ => by omega
    rw [Numeral.ofDigits_toDigits]
    simp only [if_true]
    omega

end Number
end ServiceShell.Json
