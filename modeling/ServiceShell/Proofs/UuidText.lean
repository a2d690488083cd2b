import ServiceShell.Proofs.Pointer
import ServiceShell.Proofs.WrittenValue
import ServiceShell.Uuid
/-!
The written form of identities. Main statement: every identity is read back from its text.
-/
namespace ServiceShell.Uuid

open Json (Token.hexDigit? Pointer.segments_intercalate)

theorem hexDigit?_digitChar : ∀ d < 16, Token.hexDigit? (Nat.digitChar d) = some d := by decide

def ofHex (ds : List Nat) : Nat :=
  ds.foldl (fun n d => n * 16 + d) 0

theorem toDigits_eq_map (n : Nat) :
    ∃ ds, Nat.toDigits 16 n = ds.map Nat.digitChar ∧ (∀ d ∈ ds, d < 16) ∧ ofHex ds = n := by
  induction n using Nat.strong_induction_on with
  | _ n ih =>
    rw [Nat.toDigits_eq_if (by decide)]
    split
    · exact ⟨[n], rfl, by simpa, by simp [ofHex]⟩
    · obtain ⟨ds, htext, hsmall, hvalue⟩ := ih (n / 16) (by omega)
      refine ⟨ds ++ [n % 16], by rw [htext, List.map_append]; rfl, ?_, ?_⟩
      · intro d hd
        obtain hd | hd := List.mem_append.mp hd
        · exact hsmall d hd
        · rw [List.mem_singleton.mp hd]
          omega
      · unfold ofHex at hvalue ⊢
        rw [List.foldl_append, hvalue]
        simp only [List.foldl_cons, List.foldl_nil]
        omega

theorem ofHex_zeros (n : Nat) (ds : List Nat) : ofHex (List.replicate n 0 ++ ds) = ofHex ds := by
  induction n with
  | zero => rfl
  | succ n ih => exact ih

/-- An identity has 32 digits, and they make up its bits. -/
theorem hexDigits_eq_map (id : Uuid) :
    ∃ ds, id.hexDigits = ds.map Nat.digitChar ∧ ds.length = 32 ∧ (∀ d ∈ ds, d < 16) ∧
      ofHex ds = id.bits.toNat := by
  obtain ⟨ds, htext, hsmall, hvalue⟩ := toDigits_eq_map id.bits.toNat
  have hlength : ds.length ≤ 32 := by
    have h := (Nat.length_toDigits_le_iff (b := 16) (n := id.bits.toNat) (k := 32) (by decide)
      (by decide)).mpr id.bits.isLt
    rwa [htext, List.length_map] at h
  refine ⟨List.replicate (32 - ds.length) 0 ++ ds, ?_, by simp; omega, ?_, ?_⟩
  · unfold hexDigits
    simp only [htext, List.length_map, List.map_append, List.map_replicate]
    rfl
  · intro d hd
    obtain hd | hd := List.mem_append.mp hd
    · rw [List.eq_of_mem_replicate hd]
      decide
    · exact hsmall d hd
  · rw [ofHex_zeros, hvalue]

theorem ofDigits?_hexDigits (id : Uuid) : ofDigits? id.hexDigits = some id := by
  obtain ⟨ds, htext, hlength, hsmall, hvalue⟩ := id.hexDigits_eq_map
  have hread : (ds.map Nat.digitChar).mapM Token.hexDigit? = some ds := by
    rw [List.mapM_map]
    exact Json.Document.mapM_eq_some_self.mpr fun d hd => hexDigit?_digitChar d (hsmall d hd)
  unfold ofDigits?
  rw [htext, if_pos (by rwa [List.length_map]), hread]
  unfold ofHex at hvalue
  simp [hvalue, ofNat]

theorem flatten_cut {α : Type} (lengths : List Nat) {list : List α}
    (h : list.length = lengths.sum) : (cut lengths list).flatten = list := by
  induction lengths generalizing list with
  | nil => simpa [cut, eq_comm] using h
  | cons n lengths ih =>
    rw [cut, List.flatten_cons, ih, List.take_append_drop]
    rw [List.length_drop, h, List.sum_cons]
    omega

theorem map_length_cut {α : Type} (lengths : List Nat) {list : List α}
    (h : list.length = lengths.sum) : (cut lengths list).map List.length = lengths := by
  induction lengths generalizing list with
  | nil => rfl
  | cons n lengths ih =>
    rw [List.sum_cons] at h
    rw [cut, List.map_cons, ih (by rw [List.length_drop]; omega), List.length_take]
    congr
    omega

theorem mem_of_mem_cut {α : Type} {lengths : List Nat} {list piece : List α} {a : α}
    (hpiece : piece ∈ cut lengths list) (ha : a ∈ piece) : a ∈ list := by
  induction lengths generalizing list with
  | nil => cases hpiece
  | cons n lengths ih =>
    obtain rfl | hpiece := List.mem_cons.mp hpiece
    · exact List.mem_of_mem_take ha
    · exact List.mem_of_mem_drop (ih hpiece)

theorem ofHyphenated?_text (id : Uuid) : ofHyphenated? id.text.toList = some id := by
  obtain ⟨ds, htext, hlength, hsmall, -⟩ := id.hexDigits_eq_map
  have hfits : id.hexDigits.length = groups.sum := by rw [htext, List.length_map, hlength]; rfl
  have hmark : ∀ piece ∈ cut groups id.hexDigits, '-' ∉ piece := by
    intro piece hpiece hdash
    have hdigit := mem_of_mem_cut hpiece hdash
    rw [htext] at hdigit
    obtain ⟨d, hd, hsame⟩ := List.mem_map.mp hdigit
    have hread := hexDigit?_digitChar d (hsmall d hd)
    rw [hsame] at hread
    cases hread
  unfold ofHyphenated? text
  rw [String.toList_ofList, Pointer.segments_intercalate (by simp [cut, groups]) hmark]
  dsimp only
  rw [if_pos (map_length_cut _ hfits), flatten_cut _ hfits, ofDigits?_hexDigits]

theorem toList_text (id : Uuid) :
    id.text.toList.length = 36 ∧ ∃ d < 16, ∃ rest, id.text.toList = Nat.digitChar d :: rest := by
  obtain ⟨ds, htext, hlength, hsmall, -⟩ := id.hexDigits_eq_map
  have hjoin : id.text.toList = List.intercalate ['-'] (cut groups (ds.map Nat.digitChar)) := by
    rw [text, String.toList_ofList, htext]
  rw [hjoin]
  constructor
  · simp [cut, groups, List.intercalate, hlength]
  · cases ds with
    | nil => cases hlength
    | cons d ds => exact ⟨d, hsmall d List.mem_cons_self, _, rfl⟩

/-- Every identity is read back from its text. -/
theorem ofText?_text (id : Uuid) : ofText? id.text = some id := by
  obtain ⟨hlength, d, hd, rest, htext⟩ := id.toList_text
  have hread := id.ofHyphenated?_text
  -- a digit begins neither a brace nor the resource mark
  have hdigit : ∀ d < 16, Nat.digitChar d ≠ '\x7b' ∧ (Nat.digitChar d).toLower ≠ 'u' := by decide
  obtain ⟨hbrace, hmark⟩ := hdigit d hd
  have hplain : afterMark? id.text.toList = none := by
    rw [htext]
    refine if_neg fun h => hmark ?_
    exact (List.cons.inj h).1
  unfold ofText?
  dsimp only
  split
  · rename_i hopen
    rw [htext] at hopen
    exact absurd (List.cons.inj hopen).1 hbrace
  · rw [hplain]
    dsimp only
    rw [if_neg (by omega), hread]

end ServiceShell.Uuid
