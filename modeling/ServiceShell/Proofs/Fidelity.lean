import ServiceShell.Fidelity
/-!
The process signature of the active fidelity, after it has been replaced and after a strip, and the
signatures of all fidelities.
-/
namespace ServiceShell.Fidelities

theorem find?_replaceFirst {α : Type} {p : α → Bool} {new : α} (h : p new = true)
    (list : List α) : (replaceFirst p new list).find? p = some new := by
  unfold replaceFirst
  cases hindex : list.findIdx? p with
  | none => simp [h]
  | some position =>
    obtain ⟨hlt, -, hbefore⟩ := List.findIdx?_eq_some_iff_getElem.mp hindex
    refine List.find?_eq_some_iff_getElem.mpr ⟨h, position, by simpa using hlt, by simp, ?_⟩
    intro earlier hearlier
    rw [List.getElem_set_ne (Nat.ne_of_gt hearlier)]
    simpa using hbefore earlier hearlier

theorem replaceFirst_twice {α : Type} {p : α → Bool} {first : α} (h : p first = true) (second : α)
    (list : List α) :
    replaceFirst p second (replaceFirst p first list) = replaceFirst p second list := by
  cases hindex : list.findIdx? p with
  | none => simp [replaceFirst, hindex, List.findIdx?_cons, h]
  | some position =>
    have hagain : (list.set position first).findIdx? p = some position := by
      obtain ⟨hlt, -, hbefore⟩ := List.findIdx?_eq_some_iff_getElem.mp hindex
      refine List.findIdx?_eq_some_iff_getElem.mpr ⟨by simpa using hlt, by simpa using h, ?_⟩
      intro earlier hearlier
      rw [List.getElem_set_ne (Nat.ne_of_gt hearlier)]
      exact hbefore earlier hearlier
    simp only [replaceFirst, hindex, hagain, List.set_set]

theorem replaceFirst_self {α : Type} {p : α → Bool} {item : α} {list : List α}
    (h : list.find? p = some item) : replaceFirst p item list = list := by
  obtain ⟨-, position, hlt, hitem, hbefore⟩ := List.find?_eq_some_iff_getElem.mp h
  have hindex : list.findIdx? p = some position := by
    refine List.findIdx?_eq_some_iff_getElem.mpr ⟨hlt, ?_, by simpa using hbefore⟩
    rw [hitem]
    exact List.find?_some h
  simp only [replaceFirst, hindex]
  rw [← hitem]
  exact List.set_getElem_self hlt

theorem mem_replaceFirst {α : Type} {p : α → Bool} (new : α) {item : α} {list : List α}
    (h : item ∈ list) : item ∈ replaceFirst p new list ∨ list.find? p = some item := by
  unfold replaceFirst
  cases hindex : list.findIdx? p with
  | none => exact .inl (List.mem_cons_of_mem new h)
  | some position =>
    obtain ⟨hlt, hfound, hbefore⟩ := List.findIdx?_eq_some_iff_getElem.mp hindex
    obtain ⟨place, hplace, rfl⟩ := List.mem_iff_getElem.mp h
    by_cases heq : position = place
    · subst heq
      exact .inr (List.find?_eq_some_iff_getElem.mpr
        ⟨hfound, position, hlt, rfl, by simpa using hbefore⟩)
    · refine .inl (List.mem_iff_getElem.mpr ⟨place, by simpa using hplace, ?_⟩)
      exact List.getElem_set_ne heq _

theorem eq_or_mem_of_mem_replaceFirst {α : Type} {p : α → Bool} {new item : α} {list : List α}
    (h : item ∈ replaceFirst p new list) : item = new ∨ item ∈ list := by
  unfold replaceFirst at h
  split at h
  · exact (List.mem_or_eq_of_mem_set h).symm
  · exact List.mem_cons.mp h

theorem activeIndex_lt {fidelities : Fidelities} {fidelity : Fidelity}
    (h : fidelities.active = some fidelity) :
    fidelities.activeIndex < fidelities.alternatives.length :=
  (List.getElem?_eq_some_iff.mp h).1

theorem activeIndex_single (fidelity : Fidelity) (selected : Option Nat) :
    (Fidelities.mk [fidelity] selected).activeIndex = 0 := by
  unfold activeIndex
  dsimp only
  split
  · split
    · exact Nat.lt_one_iff.mp ‹_›
    · rfl
  · rfl

/-- A replacement within the fidelities leaves the selection alone. -/
theorem activeIndex_set (fidelities : Fidelities) (position : Nat) (fidelity : Fidelity) :
    (Fidelities.mk (fidelities.alternatives.set position fidelity)
      fidelities.selected).activeIndex = fidelities.activeIndex := by
  simp only [activeIndex, List.length_set]

theorem setProcessSignature_of_none {fidelities : Fidelities} (h : fidelities.active = none)
    (signature : Signature) : fidelities.setProcessSignature signature =
      ⟨[⟨"", [signature]⟩], fidelities.selected⟩ := by
  unfold setProcessSignature
  rw [h]

def withProcess (fidelity : Fidelity) (signature : Signature) : Fidelity :=
  { fidelity with selects := replaceFirst Signature.isProcess signature fidelity.selects }

theorem setProcessSignature_of_some {fidelities : Fidelities} {fidelity : Fidelity}
    (h : fidelities.active = some fidelity) (signature : Signature) :
    fidelities.setProcessSignature signature =
      ⟨fidelities.alternatives.set fidelities.activeIndex (withProcess fidelity signature),
        fidelities.selected⟩ := by
  unfold setProcessSignature
  rw [h]
  rfl

theorem active_setProcessSignature_of_some {fidelities : Fidelities} {fidelity : Fidelity}
    (h : fidelities.active = some fidelity) (signature : Signature) :
    (fidelities.setProcessSignature signature).active =
      some (withProcess fidelity signature) := by
  rw [setProcessSignature_of_some h, active, activeIndex_set]
  exact List.getElem?_set_self (activeIndex_lt h)

theorem processSignature_setProcessSignature (fidelities : Fidelities) {signature : Signature}
    (h : signature.role = .process) :
    (fidelities.setProcessSignature signature).processSignature = some signature := by
  have hprocess : signature.isProcess = true := by simpa [Signature.isProcess] using h
  unfold processSignature
  cases hactive : fidelities.active with
  | none =>
    rw [setProcessSignature_of_none hactive, active, activeIndex_single]
    simp [Fidelity.processSignature, hprocess]
  | some fidelity =>
    rw [active_setProcessSignature_of_some hactive]
    exact find?_replaceFirst hprocess fidelity.selects

theorem selects_setProcessSignature (fidelities : Fidelities) (signature : Signature) :
    (fidelities.setProcessSignature signature).selects =
      replaceFirst Signature.isProcess signature fidelities.selects := by
  unfold selects
  cases hactive : fidelities.active with
  | none =>
    rw [setProcessSignature_of_none hactive, active, activeIndex_single]
    rfl
  | some fidelity =>
    rw [active_setProcessSignature_of_some hactive]
    rfl

theorem replaceFirst_splits {α : Type} (p : α → Bool) (new : α) (list : List α) :
    ∃ earlier later, list = earlier ++ (list.find? p).toList ++ later ∧
      (list.find? p = none → earlier = []) ∧
      replaceFirst p new list = earlier ++ new :: later := by
  unfold replaceFirst
  cases hindex : list.findIdx? p with
  | none =>
    have hnone : list.find? p = none := by simpa using hindex
    exact ⟨[], list, by simp [hnone], fun _ => rfl, rfl⟩
  | some position =>
    obtain ⟨hlt, hfound, hbefore⟩ := List.findIdx?_eq_some_iff_getElem.mp hindex
    have hsome : list.find? p = some list[position] :=
      List.find?_eq_some_iff_getElem.mpr ⟨hfound, position, hlt, rfl, by simpa using hbefore⟩
    refine ⟨list.take position, list.drop (position + 1), ?_, by simp [hsome], ?_⟩
    · simp [hsome]
    · exact List.set_eq_take_append_cons_drop.trans (if_pos hlt)

theorem setProcessSignature_twice (fidelities : Fidelities) {first : Signature}
    (h : first.role = .process) (second : Signature) :
    (fidelities.setProcessSignature first).setProcessSignature second =
      fidelities.setProcessSignature second := by
  have hprocess : first.isProcess = true := by simpa [Signature.isProcess] using h
  cases hactive : fidelities.active with
  | none =>
    have hsingle : (Fidelities.mk [⟨"", [first]⟩] fidelities.selected).active =
        some ⟨"", [first]⟩ := by
      rw [active, activeIndex_single]
      rfl
    rw [setProcessSignature_of_none hactive, setProcessSignature_of_none hactive,
      setProcessSignature_of_some hsingle, activeIndex_single]
    simp [withProcess, replaceFirst, List.findIdx?_cons, hprocess]
  | some fidelity =>
    rw [setProcessSignature_of_some (active_setProcessSignature_of_some hactive first),
      setProcessSignature_of_some hactive, setProcessSignature_of_some hactive, activeIndex_set]
    simp only [withProcess, replaceFirst_twice hprocess, List.set_set]

theorem setProcessSignature_self {fidelities : Fidelities} {signature : Signature}
    (h : fidelities.processSignature = some signature) :
    fidelities.setProcessSignature signature = fidelities := by
  obtain ⟨fidelity, hactive, hfind⟩ := Option.bind_eq_some_iff.mp h
  have hsame : withProcess fidelity signature = fidelity := by
    rw [withProcess, replaceFirst_self hfind]
  rw [setProcessSignature_of_some hactive, hsame]
  have hget := (List.getElem?_eq_some_iff.mp hactive).2
  rw [← hget, List.set_getElem_self]

theorem role_of_processSignature {fidelities : Fidelities} {signature : Signature}
    (h : fidelities.processSignature = some signature) : signature.role = .process := by
  obtain ⟨fidelity, -, hfind⟩ := Option.bind_eq_some_iff.mp h
  have hprocess : signature.isProcess = true := List.find?_some hfind
  simpa [Signature.isProcess] using hprocess

/-- A process signature that can travel is not lost with those that cannot. -/
theorem processSignature_strip {fidelities : Fidelities} {signature : Signature}
    (h : fidelities.processSignature = some signature) (htarget : signature.target = none) :
    fidelities.strip.processSignature = some signature := by
  have hactive : fidelities.strip.active = fidelities.active.map fun fidelity =>
      { fidelity with selects := fidelity.selects.filter Signature.isTransportable } := by
    simp only [active, activeIndex, strip, List.length_map, List.getElem?_map]
  unfold processSignature at h ⊢
  rw [hactive]
  obtain ⟨fidelity, hfidelity, hfind⟩ := Option.bind_eq_some_iff.mp h
  rw [hfidelity]
  obtain ⟨hprocess, before, after, hselects, hbefore⟩ := List.find?_eq_some_iff_append.mp hfind
  refine List.find?_eq_some_iff_append.mpr
    ⟨hprocess, before.filter Signature.isTransportable, after.filter Signature.isTransportable,
      ?_, fun other hother => hbefore other (List.mem_filter.mp hother).1⟩
  simp [hselects, Signature.isTransportable, htarget]

def signatures (fidelities : Fidelities) : List Signature :=
  fidelities.alternatives.flatMap Fidelity.selects

theorem signatures_strip (fidelities : Fidelities) :
    fidelities.strip.signatures = fidelities.signatures.filter Signature.isTransportable := by
  simp only [signatures, strip, List.flatMap_map, List.filter_flatMap]

theorem strip_eq_self_iff {fidelities : Fidelities} : fidelities.strip = fidelities ↔
    ∀ signature ∈ fidelities.signatures, signature.isTransportable := by
  constructor
  · intro h signature hsignature
    rw [← h, signatures_strip] at hsignature
    exact (List.mem_filter.mp hsignature).2
  · intro h
    obtain ⟨alternatives, selected⟩ := fidelities
    have hkept : ∀ fidelity ∈ alternatives, Fidelity.mk fidelity.name
        (fidelity.selects.filter Signature.isTransportable) = fidelity := by
      intro fidelity hfidelity
      have hall : ∀ signature ∈ fidelity.selects, signature.isTransportable :=
        fun signature hsignature => h signature (List.mem_flatMap.mpr ⟨_, hfidelity, hsignature⟩)
      rw [List.filter_eq_self.mpr hall]
    have hmap := List.map_congr_left hkept
    rw [List.map_id'] at hmap
    exact congrArg (Fidelities.mk · selected) hmap

theorem activeIndex_lt_or (fidelities : Fidelities) :
    fidelities.activeIndex < fidelities.alternatives.length ∨ fidelities.activeIndex = 0 := by
  unfold activeIndex
  split
  · split
    · exact .inl ‹_›
    · exact .inr rfl
  · exact .inr rfl

theorem alternatives_eq_nil {fidelities : Fidelities} (h : fidelities.active = none) :
    fidelities.alternatives = [] := by
  have hlength : fidelities.alternatives.length ≤ fidelities.activeIndex :=
    List.getElem?_eq_none_iff.mp h
  have hindex := fidelities.activeIndex_lt_or
  exact List.length_eq_zero_iff.mp (by omega)

/-- How the fidelities are once a signature has taken the place of the process signature of the
active one, or the first place in it if it has none: all others are what and where they were. If
there is no fidelity, one is made for the signature. -/
structure Exchanges (before : Fidelities) (signature : Signature) (after : Fidelities) : Prop where
  selected : after.selected = before.selected
  alternatives : ∃ front back earlier later, front.length = before.activeIndex ∧
    before.alternatives = front ++ before.active.toList ++ back ∧
    before.selects = earlier ++ before.processSignature.toList ++ later ∧
    (before.processSignature = none → earlier = []) ∧
    after.alternatives = front ++
      ⟨(before.active.map Fidelity.name).getD "", earlier ++ signature :: later⟩ :: back

theorem setProcessSignature_exchanges (fidelities : Fidelities) (signature : Signature) :
    fidelities.Exchanges signature (fidelities.setProcessSignature signature) := by
  cases hactive : fidelities.active with
  | none =>
    rw [setProcessSignature_of_none hactive]
    have hnil := alternatives_eq_nil hactive
    have hindex : fidelities.activeIndex = 0 := by
      simpa [hnil] using fidelities.activeIndex_lt_or
    refine ⟨rfl, [], [], [], [], hindex.symm, ?_, ?_, fun _ => rfl, ?_⟩
    · simp [hactive, hnil]
    · simp [selects, processSignature, hactive]
    · simp [hactive]
  | some fidelity =>
    have hlt := activeIndex_lt hactive
    have hget : fidelities.alternatives[fidelities.activeIndex] = fidelity :=
      (List.getElem?_eq_some_iff.mp hactive).2
    have hselects : fidelities.selects = fidelity.selects := by rw [selects, hactive]
    have hprocess : fidelities.processSignature = fidelity.selects.find? Signature.isProcess := by
      rw [processSignature, hactive]
      rfl
    obtain ⟨earlier, later, hsplit, hfirst, hreplaced⟩ :=
      replaceFirst_splits Signature.isProcess signature fidelity.selects
    rw [setProcessSignature_of_some hactive]
    refine ⟨rfl, fidelities.alternatives.take fidelities.activeIndex,
      fidelities.alternatives.drop (fidelities.activeIndex + 1), earlier, later, ?_, ?_, ?_, ?_, ?_⟩
    · exact List.length_take_of_le (Nat.le_of_lt hlt)
    · simp [hactive, ← hget]
    · rw [hselects, hprocess]
      exact hsplit
    · rw [hprocess]
      exact hfirst
    · rw [withProcess, hreplaced, hactive]
      exact List.set_eq_take_append_cons_drop.trans (if_pos hlt)

/-- Of all signatures only the process signature gives way to another one. -/
theorem mem_signatures_setProcessSignature {fidelities : Fidelities} (signature : Signature)
    {other : Signature} (h : other ∈ fidelities.signatures) :
    other ∈ (fidelities.setProcessSignature signature).signatures ∨
      fidelities.processSignature = some other := by
  obtain ⟨fidelity, hfidelity, hother⟩ := List.mem_flatMap.mp h
  cases hactive : fidelities.active with
  | none =>
    rw [alternatives_eq_nil hactive] at hfidelity
    exact absurd hfidelity List.not_mem_nil
  | some active =>
    rw [setProcessSignature_of_some hactive]
    obtain ⟨position, hposition⟩ := List.mem_iff_getElem?.mp hfidelity
    by_cases hindex : fidelities.activeIndex = position
    · subst hindex
      obtain rfl : active = fidelity := Option.some.inj (hactive.symm.trans hposition)
      obtain hkept | hfound := mem_replaceFirst signature hother
      · refine .inl (List.mem_flatMap.mpr ⟨_, List.mem_set (activeIndex_lt hactive) _, hkept⟩)
      · exact .inr (by rw [processSignature, hactive]; exact hfound)
    · refine .inl (List.mem_flatMap.mpr ⟨fidelity, ?_, hother⟩)
      refine List.mem_iff_getElem?.mpr ⟨position, ?_⟩
      rw [List.getElem?_set_ne hindex]
      exact hposition

theorem mem_of_mem_setProcessSignature {fidelities : Fidelities} {signature other : Signature}
    (h : other ∈ (fidelities.setProcessSignature signature).signatures) :
    other = signature ∨ other ∈ fidelities.signatures := by
  cases hactive : fidelities.active with
  | none =>
    rw [setProcessSignature_of_none hactive] at h
    exact .inl (by simpa [signatures] using h)
  | some active =>
    rw [setProcessSignature_of_some hactive] at h
    obtain ⟨fidelity, hfidelity, hother⟩ := List.mem_flatMap.mp h
    obtain hold | rfl := List.mem_or_eq_of_mem_set hfidelity
    · exact .inr (List.mem_flatMap.mpr ⟨fidelity, hold, hother⟩)
    · refine (eq_or_mem_of_mem_replaceFirst hother).imp_right fun hkept => ?_
      exact List.mem_flatMap.mpr ⟨active, List.mem_of_getElem? hactive, hkept⟩

end ServiceShell.Fidelities
