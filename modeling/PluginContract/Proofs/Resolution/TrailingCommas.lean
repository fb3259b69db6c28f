import PluginContract.Proofs.Json.Documents
import PluginContract.Resolution.PathAliases

/-!
# What becomes of a document without trailing commas

A comma that only blanks part from a closing bracket is dropped wherever it stands. Between the
tokens of a document no such comma stands, so only its strings can change. The text of a changed
string is still the text of a string, and the tolerant reader takes the document to the value with
the changed strings.
-/

namespace PluginContract.Resolution

open Text

/-- A bracket before which a trailing comma may stand. -/
def isClosing (c : Char) : Bool := c == '}' || c == ']'

/-- Whether only blanks stand before a closing bracket. -/
def closesNext (t : List Char) : Bool := (trimStart t).head?.any isClosing

/-- Whether a comma that only blanks part from a closing bracket stands in a text. -/
def HoldsTrailingComma (t : List Char) : Prop :=
  ∃ (before gap : List Char) (c : Char) (after : List Char),
    t = before ++ ',' :: (gap ++ c :: after) ∧ gap.all isBlank = true ∧ isClosing c = true

section Texts

variable {t u : List Char} {c : Char}

theorem not_isBlank_of_isClosing (h : isClosing c = true) : isBlank c = false := by
  simp only [isClosing, Bool.or_eq_true, beq_iff_eq] at h
  rcases h with rfl | rfl <;> decide

theorem closesNext_iff : closesNext t = true ↔ ∃ (gap : List Char) (c : Char) (after : List Char),
    t = gap ++ c :: after ∧ gap.all isBlank = true ∧ isClosing c = true := by
  constructor
  · intro h
    obtain ⟨gap, ht, hgap⟩ := exists_trimStart t
    rw [closesNext] at h
    cases hstart : trimStart t with
    | nil =>
        rw [hstart] at h
        cases h
    | cons c after =>
        rw [hstart] at h ht
        exact ⟨gap, c, after, ht, hgap, h⟩
  · rintro ⟨gap, c, after, rfl, hgap, hc⟩
    rw [closesNext, trimStart_append hgap ⟨c, rfl, not_isBlank_of_isClosing hc⟩]
    exact hc

theorem closes_eq (t : List Char) :
    (match t with
      | '}' :: _ => true
      | ']' :: _ => true
      | _ => false) = t.head?.any isClosing := by
  split
  · rfl
  · rfl
  · rename_i hbrace hbracket
    cases t with
    | nil => rfl
    | cons c rest =>
        have hne : c ≠ '}' ∧ c ≠ ']' :=
          ⟨fun h => hbrace rest (by rw [h]), fun h => hbracket rest (by rw [h])⟩
        simp [isClosing, hne.1, hne.2]

theorem dropTrailingCommas_cons (c : Char) (t : List Char) :
    dropTrailingCommas (c :: t) =
      if c = ',' && closesNext t then dropTrailingCommas t else c :: dropTrailingCommas t :=
  congrArg
    (fun closes : Bool =>
      if c = ',' && closes then dropTrailingCommas t else c :: dropTrailingCommas t)
    (closes_eq (trimStart t))

theorem dropTrailingCommas_cons_of_ne (h : c ≠ ',') (t : List Char) :
    dropTrailingCommas (c :: t) = c :: dropTrailingCommas t := by
  rw [dropTrailingCommas_cons]
  simp [h]

theorem dropTrailingCommas_append_of_notMem (h : ',' ∉ u) (t : List Char) :
    dropTrailingCommas (u ++ t) = u ++ dropTrailingCommas t := by
  induction u with
  | nil => rfl
  | cons c u ih =>
      obtain ⟨hc, hu⟩ := not_or.mp (mt List.mem_cons.mpr h)
      rw [List.cons_append, dropTrailingCommas_cons_of_ne (Ne.symm hc), ih hu]
      rfl

theorem closesNext_append_cons (hblank : isBlank c = false) (hclosing : isClosing c = false)
    (u t : List Char) : closesNext (u ++ c :: t) = closesNext u := by
  obtain ⟨gap, hu, hgap⟩ := exists_trimStart u
  rw [closesNext, closesNext]
  cases hstart : trimStart u with
  | nil =>
      rw [hstart, List.append_nil] at hu
      subst hu
      rw [trimStart_append hgap ⟨c, rfl, hblank⟩]
      exact hclosing
  | cons d v =>
      have hd : isBlank d = false := isBlank_of_head?_trimStart (by rw [hstart]; rfl)
      rw [hu, hstart, List.append_assoc, trimStart_append hgap ⟨d, rfl, hd⟩]
      rfl

/-- What is dropped before a character that neither closes a bracket nor is blank does not depend
on what comes from there on. -/
theorem dropTrailingCommas_append_cons (hblank : isBlank c = false) (hclosing : isClosing c = false)
    (hcomma : c ≠ ',') (u t : List Char) :
    dropTrailingCommas (u ++ c :: t) = dropTrailingCommas u ++ c :: dropTrailingCommas t := by
  induction u with
  | nil => exact dropTrailingCommas_cons_of_ne hcomma t
  | cons d u ih =>
      rw [List.cons_append, dropTrailingCommas_cons, dropTrailingCommas_cons,
        closesNext_append_cons hblank hclosing, ih]
      split
      · rfl
      · rfl

theorem dropTrailingCommas_sublist (t : List Char) : (dropTrailingCommas t).Sublist t := by
  induction t with
  | nil => exact .slnil
  | cons c t ih =>
      rw [dropTrailingCommas_cons]
      split
      · exact ih.cons c
      · exact ih.cons_cons c

/-- A text in which no trailing comma stands stays as it is, and no other one does. -/
theorem dropTrailingCommas_eq_self_iff : dropTrailingCommas t = t ↔ ¬ HoldsTrailingComma t := by
  induction t with
  | nil =>
      refine iff_of_true rfl ?_
      rintro ⟨before, gap, c, after, heq, -⟩
      simp at heq
  | cons c t ih =>
      have hholds : HoldsTrailingComma (c :: t) ↔
          (c = ',' && closesNext t) = true ∨ HoldsTrailingComma t := by
        constructor
        · rintro ⟨before, gap, d, after, heq, hgap, hd⟩
          cases before with
          | nil =>
              obtain ⟨rfl, rfl⟩ := List.cons.inj heq
              left
              simpa using closesNext_iff.mpr ⟨gap, d, after, rfl, hgap, hd⟩
          | cons e before =>
              obtain ⟨rfl, rfl⟩ := List.cons.inj heq
              exact Or.inr ⟨before, gap, d, after, rfl, hgap, hd⟩
        · rintro (h | ⟨before, gap, d, after, rfl, hgap, hd⟩)
          · obtain ⟨hc, hcloses⟩ := Bool.and_eq_true_iff.mp h
            obtain ⟨gap, d, after, rfl, hgap, hd⟩ := closesNext_iff.mp hcloses
            exact ⟨[], gap, d, after, by rw [of_decide_eq_true hc]; rfl, hgap, hd⟩
          · exact ⟨c :: before, gap, d, after, rfl, hgap, hd⟩
      rw [dropTrailingCommas_cons, hholds, not_or, ← ih]
      split
      · rename_i hdropped
        refine iff_of_false ?_ fun h => h.1 hdropped
        intro heq
        have hlength := (dropTrailingCommas_sublist t).length_le
        rw [heq, List.length_cons] at hlength
        omega
      · rename_i hkept
        rw [List.cons.injEq, and_iff_right rfl, and_iff_right hkept]

theorem mem_dropTrailingCommas_of_ne (hc : c ≠ ',') (h : c ∈ t) : c ∈ dropTrailingCommas t := by
  induction t with
  | nil => cases h
  | cons d t ih =>
      rw [dropTrailingCommas_cons]
      split
      · rename_i hdropped
        rcases List.mem_cons.mp h with rfl | h
        · exact absurd (of_decide_eq_true (Bool.and_eq_true_iff.mp hdropped).1) hc
        · exact ih h
      · exact List.mem_cons.mpr ((List.mem_cons.mp h).imp_right ih)

end Texts

end PluginContract.Resolution

namespace PluginContract.Json

open Reader Resolution Text

section Spellings

variable {written s digits low : List Char} {c e : Char} {unit : Nat}

theorem ne_of_shortEscape? (h : Reader.shortEscape? e = some c) {d : Char}
    (hd : Reader.shortEscape? d = none) : d ≠ e := by
  rintro rfl
  rw [hd] at h
  cases h

theorem UnitDigits.notMem (h : UnitDigits digits unit) (hc : hexValue? c = none) : c ∉ digits := by
  intro hmem
  have hhex := h.isHex c hmem
  rw [hc] at hhex
  cases hhex

/-- In an escaped code unit stand a backslash, its letter and digits only. -/
theorem notMem_unitEscape (h : UnitDigits digits unit) (hlow : IsLow low) (hc : hexValue? c = none)
    (hescape : c ≠ '\\') (hletter : c ≠ 'u') : c ∉ '\\' :: 'u' :: (digits ++ low) := by
  have hdigits := h.notMem hc
  rcases hlow with rfl | ⟨digits', unit', rfl, h'⟩
  · simp [hdigits, hescape, hletter]
  · have hdigits' := h'.notMem hc
    simp [hdigits, hdigits', hescape, hletter]

theorem dropTrailingCommas_unitEscape (h : UnitDigits digits unit) (hlow : IsLow low)
    (t : List Char) : dropTrailingCommas ('\\' :: 'u' :: (digits ++ (low ++ t))) =
      '\\' :: 'u' :: (digits ++ (low ++ dropTrailingCommas t)) := by
  have hcomma := notMem_unitEscape h hlow (c := ',') rfl (by decide) (by decide)
  have hdrop := dropTrailingCommas_append_of_notMem hcomma t
  simpa using hdrop

theorem dropTrailingCommas_shortEscape (h : Reader.shortEscape? e = some c) (t : List Char) :
    dropTrailingCommas ('\\' :: e :: t) = '\\' :: e :: dropTrailingCommas t := by
  have hcomma : e ≠ ',' := (ne_of_shortEscape? h rfl).symm
  rw [dropTrailingCommas_cons_of_ne (by decide), dropTrailingCommas_cons_of_ne hcomma]

/-- A closing bracket in a string is written as it is. -/
theorem Spells.mem_of_isClosing (h : Spells written s) (hc : isClosing c = true)
    (hmem : c ∈ written) : c ∈ s := by
  have hplain : hexValue? c = none ∧ Reader.shortEscape? c = none ∧ c ≠ '\\' ∧ c ≠ 'u' := by
    simp only [isClosing, Bool.or_eq_true, beq_iff_eq] at hc
    rcases hc with rfl | rfl <;> decide
  obtain ⟨hhex, hshort, hescape, hletter⟩ := hplain
  induction h with
  | nil => exact hmem
  | plain _ _ _ _ ih => exact List.mem_cons.mpr ((List.mem_cons.mp hmem).imp_right ih)
  | short _ escape _ ih =>
      obtain hmem := (List.mem_cons.mp hmem).resolve_left hescape
      obtain hmem := (List.mem_cons.mp hmem).resolve_left (ne_of_shortEscape? escape hshort)
      exact List.mem_cons_of_mem _ (ih hmem)
  | @unit _ _ digits low written s isUnit isLow _ _ ih =>
      have hnot := notMem_unitEscape isUnit isLow hhex hescape hletter
      have hsplit : c ∈ ('\\' :: 'u' :: (digits ++ low)) ++ written := by simpa using hmem
      exact List.mem_cons_of_mem _ (ih ((List.mem_append.mp hsplit).resolve_left hnot))

/-- What follows a dropped comma escapes nothing. -/
theorem lowUnit?_of_closesNext {t : List Char} (h : closesNext t = true) :
    lowUnit? (dropTrailingCommas t) = none := by
  obtain ⟨gap, c, after, rfl, hgap, hc⟩ := closesNext_iff.mp h
  have hne {d e : Char} (hd : isBlank d = true ∨ isClosing d = true)
      (he : (isBlank e || isClosing e) = false) : d ≠ e := by
    rintro rfl
    rw [Bool.or_eq_false_iff] at he
    rcases hd with hd | hd
    · rw [he.1] at hd
      cases hd
    · rw [he.2] at hd
      cases hd
  have hfirst : ∃ d u, dropTrailingCommas (gap ++ c :: after) = d :: u ∧ d ≠ '\\' := by
    cases gap with
    | nil => exact ⟨c, _, dropTrailingCommas_cons_of_ne (hne (.inr hc) (by decide)) _,
        hne (.inr hc) (by decide)⟩
    | cons d gap =>
        have hd := (Bool.and_eq_true_iff.mp hgap).1
        exact ⟨d, _, dropTrailingCommas_cons_of_ne (hne (.inl hd) (by decide)) _,
          hne (.inl hd) (by decide)⟩
  obtain ⟨d, u, heq, hd⟩ := hfirst
  rw [heq]
  exact lowUnit?_of_ne hd u

theorem Spells.lowUnit?_dropTrailingCommas (h : Spells written s) :
    lowUnit? (dropTrailingCommas written) = lowUnit? written := by
  cases h with
  | nil => rfl
  | plain notQuote notEscape notControl rest =>
      rw [dropTrailingCommas_cons, lowUnit?_of_ne notEscape]
      split
      · rename_i hdropped
        exact lowUnit?_of_closesNext (Bool.and_eq_true_iff.mp hdropped).2
      · exact lowUnit?_of_ne notEscape _
  | short notUnit escape rest =>
      rw [dropTrailingCommas_shortEscape escape, lowUnit?_of_ne_unit notUnit,
        lowUnit?_of_ne_unit notUnit]
  | unit isUnit isLow joined rest =>
      rw [dropTrailingCommas_unitEscape isUnit isLow]
      exact lowUnit?_digits isUnit _ _

/-- Without its trailing commas a spelling spells a string that is shorter by as many characters. -/
theorem Spells.exists_dropTrailingCommas (h : Spells written s) :
    ∃ s', Spells (dropTrailingCommas written) s' ∧
      s'.length + written.length = s.length + (dropTrailingCommas written).length := by
  induction h with
  | nil => exact ⟨[], .nil, rfl⟩
  | @plain c written s notQuote notEscape notControl _ ih =>
      obtain ⟨s', hs', hlength⟩ := ih
      rw [dropTrailingCommas_cons]
      split
      · refine ⟨s', hs', ?_⟩
        rw [List.length_cons, List.length_cons]
        omega
      · refine ⟨c :: s', .plain notQuote notEscape notControl hs', ?_⟩
        simp only [List.length_cons]
        omega
  | @short c e written s notUnit escape _ ih =>
      obtain ⟨s', hs', hlength⟩ := ih
      rw [dropTrailingCommas_shortEscape escape]
      refine ⟨c :: s', .short notUnit escape hs', ?_⟩
      simp only [List.length_cons]
      omega
  | @unit c unit digits low written s isUnit isLow joined spelled ih =>
      obtain ⟨s', hs', hlength⟩ := ih
      rw [dropTrailingCommas_unitEscape isUnit isLow]
      have hsame : lowUnit? (low ++ dropTrailingCommas written) = lowUnit? (low ++ written) := by
        rcases isLow with rfl | ⟨digits', unit', rfl, isUnit'⟩
        · exact spelled.lowUnit?_dropTrailingCommas
        · exact lowUnit?_digits isUnit' _ _
      refine ⟨c :: s', .unit isUnit isLow (hsame ▸ joined) hs', ?_⟩
      simp only [List.length_cons, List.length_append]
      omega

end Spellings

namespace Spelling

variable {s : Spelling}

/-- A spelling without its trailing commas. -/
def tolerated (s : Spelling) : Spelling where
  written := dropTrailingCommas s.written
  spelled := by
    obtain ⟨s', hs', -⟩ := s.spells.exists_dropTrailingCommas
    exact ⟨s', hs'⟩

theorem tolerated_eq_self (h : ¬ HoldsTrailingComma s.written) : s.tolerated = s :=
  Spelling.ext (dropTrailingCommas_eq_self_iff.mpr h)

/-- Only a string without trailing commas stays the same. -/
theorem text_tolerated_eq_iff : s.tolerated.text = s.text ↔ ¬ HoldsTrailingComma s.written := by
  constructor
  · intro h
    obtain ⟨s', hs', hlength⟩ := s.spells.exists_dropTrailingCommas
    rw [s.tolerated.text_eq hs'] at h
    rw [← h, String.toList_ofList] at hlength
    apply dropTrailingCommas_eq_self_iff.mp
    exact (dropTrailingCommas_sublist s.written).eq_of_length (by omega)
  · intro h
    rw [tolerated_eq_self h]

/-- A comma is dropped from no string without a closing bracket, and the bracket stays. -/
theorem text_tolerated_eq_key_iff {key : String}
    (hkey : ∀ c, isClosing c = true → c ∉ key.toList) : s.tolerated.text = key ↔ s.text = key := by
  by_cases hholds : HoldsTrailingComma s.written
  · obtain ⟨before, gap, c, after, heq, -, hc⟩ := hholds
    have hmem : c ∈ s.written := by
      rw [heq]
      simp
    have hcomma : c ≠ ',' := by
      rintro rfl
      cases hc
    have htext := s.spells.mem_of_isClosing hc hmem
    have htolerated :=
      s.tolerated.spells.mem_of_isClosing hc (mem_dropTrailingCommas_of_ne hcomma hmem)
    refine iff_of_false ?_ ?_
    · rintro rfl
      exact hkey c hc htolerated
    · rintro rfl
      exact hkey c hc htext
  · rw [tolerated_eq_self hholds]

end Spelling

end PluginContract.Json
