import PluginContract.Json.Printer
import PluginContract.Json.Reader

/-!
# String tokens

The reader takes every escape of the printer back to its character, and no other way to
write a character in a string is shorter than the printer's.
-/

namespace PluginContract.Json

open Reader

theorem hexValue?_hexDigit : ∀ n, n < 16 → hexValue? (hexDigit n) = some n := by
  decide

/-- Four hexadecimal digits are read back as a code unit. -/
theorem unit?_unitEscape {unit : Nat} (h : unit < 0x10000) (t : List Char) :
    ∃ digits, unitEscape unit = '\\' :: 'u' :: digits ∧ digits.length = 4 ∧
      unit? (digits ++ t) = some (unit, t) := by
  refine ⟨_, rfl, rfl, ?_⟩
  have hdigit (n : Nat) : hexValue? (hexDigit (n % 16)) = some (n % 16) :=
    hexValue?_hexDigit _ (Nat.mod_lt n (by decide))
  simp only [List.cons_append, List.nil_append, unit?, hdigit, Option.bind_eq_bind,
    Option.bind_some, Option.pure_def]
  congr 2
  omega

/-- A short escape stands for its character. -/
theorem shortEscape?_eq_some {c : Char} {written : List Char} (h : shortEscape? c = some written) :
    ∃ e, written = ['\\', e] ∧ e ≠ 'u' ∧ Reader.shortEscape? e = some c ∧
      (c = '"' ∨ c = '\\' ∨ c.toNat < 0x20) := by
  unfold shortEscape? at h
  repeat' split at h
  all_goals
    first
    | cases h
      subst_vars
      exact ⟨_, rfl, by decide, rfl, by decide⟩
    | cases h

theorem shortEscape?_eq_none {c : Char} (h : shortEscape? c = none) : c ≠ '"' ∧ c ≠ '\\' := by
  constructor <;>
  · rintro rfl
    cases h

/-- The ways in which the printer writes a character in a string. -/
theorem escaped_cases (c : Char) :
    escaped c = [c] ∧ c ≠ '"' ∧ c ≠ '\\' ∧ ¬ c.toNat < 0x20 ∨
      (∃ e, escaped c = ['\\', e] ∧ e ≠ 'u' ∧ Reader.shortEscape? e = some c ∧
        (c = '"' ∨ c = '\\' ∨ c.toNat < 0x20)) ∨
      escaped c = unitEscape c.toNat ∧ c.toNat < 0x20 := by
  unfold escaped
  cases hs : shortEscape? c with
  | some written =>
      right
      left
      obtain ⟨e, rfl, hu, he⟩ := shortEscape?_eq_some hs
      exact ⟨e, rfl, hu, he⟩
  | none =>
      obtain ⟨hquote, hbackslash⟩ := shortEscape?_eq_none hs
      by_cases hc : c.toNat < 0x20
      · right
        right
        exact ⟨if_pos hc, hc⟩
      · left
        exact ⟨if_neg hc, hquote, hbackslash, hc⟩

theorem chars?_raw {c : Char} (hquote : c ≠ '"') (hbackslash : c ≠ '\\') (hc : ¬ c.toNat < 0x20)
    (t : List Char) :
    chars? 0 (c :: t) = (chars? 0 t).map fun found => (c :: found.1, found.2) := by
  rw [chars?]
  · rw [if_neg hc]
  · exact hquote
  · exact hbackslash

theorem chars?_short {c e : Char} (hu : e ≠ 'u') (he : Reader.shortEscape? e = some c)
    (t : List Char) :
    chars? 0 ('\\' :: e :: t) = (chars? 0 t).map fun found => (c :: found.1, found.2) := by
  rw [chars?, chars?]
  · rw [he]
  · exact hu

theorem chars?_unitEscape {c : Char} (hc : c.toNat < 0x20) (t : List Char) :
    chars? 0 (unitEscape c.toNat ++ t) =
      (chars? 0 t).map fun found => (c :: found.1, found.2) := by
  have hunit : c.toNat < 0x10000 := Nat.lt_trans hc (by decide)
  obtain ⟨digits, hwritten, hlength, hread⟩ := unit?_unitEscape hunit t
  have hchar : escapedChar c.toNat t = (c, 0) := by
    have hhigh : ¬ (decide (0xD800 ≤ c.toNat) && decide (c.toNat ≤ 0xDBFF)) = true := by
      rw [Bool.and_eq_true, decide_eq_true_eq]
      omega
    have hlow : ¬ (decide (0xDC00 ≤ c.toNat) && decide (c.toNat ≤ 0xDFFF)) = true := by
      rw [Bool.and_eq_true, decide_eq_true_eq]
      omega
    unfold escapedChar wholeChar?
    rw [if_neg hhigh, if_neg hlow, Option.getD_some, Char.ofNat_toNat]
  match digits, hlength with
  | [p, q, r, s], _ =>
      rw [hwritten, List.cons_append, List.cons_append, chars?, hread]
      simp only [hchar]
      rfl

/-- An escaped character is read back. -/
theorem chars?_escaped (c : Char) (t : List Char) :
    chars? 0 (escaped c ++ t) = (chars? 0 t).map fun found => (c :: found.1, found.2) := by
  rcases escaped_cases c with ⟨h, hquote, hbackslash, hc⟩ | ⟨e, h, hu, he, -⟩ | ⟨h, hc⟩
  · rw [h]
    exact chars?_raw hquote hbackslash hc t
  · rw [h]
    exact chars?_short hu he t
  · rw [h]
    exact chars?_unitEscape hc t

theorem chars?_flatMap_escaped (s t : List Char) :
    chars? 0 (s.flatMap escaped ++ '"' :: t) = some (s, t) := by
  induction s with
  | nil => rfl
  | cons c s ih =>
      rw [List.flatMap_cons, List.append_assoc, chars?_escaped, ih]
      rfl

/-- A quoted string is read back. -/
theorem string?_quoted (s : String) (t : List Char) :
    string? (quoted s ++ t) = some (s, t) := by
  have hbody : quoted s ++ t = '"' :: (s.toList.flatMap escaped ++ '"' :: t) := by
    simp [quoted]
  rw [hbody, string?, chars?_flatMap_escaped]
  simp only [Option.map_some, String.ofList_toList]

theorem length_escaped_le (c : Char) : (escaped c).length ≤ 6 := by
  rcases escaped_cases c with ⟨h, -⟩ | ⟨e, h, -⟩ | ⟨h, -⟩ <;>
  · rw [h]
    simp [unitEscape]

theorem length_escaped_of_shortEscape? {e c : Char} (h : Reader.shortEscape? e = some c) :
    (escaped c).length ≤ 2 := by
  unfold Reader.shortEscape? at h
  split at h
  · rename_i he
    obtain rfl := Option.some.inj h
    simp only [Bool.or_eq_true, decide_eq_true_eq] at he
    rcases he with (rfl | rfl) | rfl <;> decide
  · repeat' split at h
    all_goals
      first
      | obtain rfl := Option.some.inj h
        decide
      | cases h

theorem escaped_of_raw {c : Char} (hquote : c ≠ '"') (hbackslash : c ≠ '\\')
    (hc : ¬ c.toNat < 0x20) : escaped c = [c] := by
  rcases escaped_cases c with ⟨h, -⟩ | ⟨e, -, -, -, h | h | h⟩ | ⟨-, h⟩
  · exact h
  · exact absurd h hquote
  · exact absurd h hbackslash
  · exact absurd h hc
  · exact absurd h hc

theorem exists_of_map_cons {found : Option (List Char × List Char)} {c : Char} {s rest : List Char}
    (h : (found.map fun found => (c :: found.1, found.2)) = some (s, rest)) :
    ∃ s', s = c :: s' ∧ found = some (s', rest) := by
  obtain ⟨⟨s', rest'⟩, hfound, heq⟩ := Option.map_eq_some_iff.mp h
  obtain ⟨rfl, rfl⟩ := Prod.mk.inj heq
  exact ⟨s', rfl, hfound⟩

/-- The text of a string is no shorter than what the printer makes of the string. -/
theorem length_flatMap_escaped_le {skip : Nat} {t s rest : List Char}
    (h : chars? skip t = some (s, rest)) :
    (s.flatMap escaped).length + rest.length + 1 + skip ≤ t.length := by
  induction skip, t using chars?.induct generalizing s rest with
  | case1 => simp [chars?] at h
  | case2 skip c t ih =>
      have := ih h
      rw [List.length_cons]
      omega
  | case3 t =>
      obtain ⟨rfl, rfl⟩ := Prod.mk.inj (Option.some.inj h)
      simp
  | case4 => cases h
  | case5 after unit more hunit c extra hchar ih =>
      rw [chars?, hunit] at h
      simp only [hchar] at h
      obtain ⟨s, rfl, hfound⟩ := exists_of_map_cons h
      have := ih hfound
      have hc := length_escaped_le c
      rw [List.flatMap_cons, List.length_append, List.length_cons]
      omega
  | case6 after hunit =>
      rw [chars?, hunit] at h
      cases h
  | case7 e t hu c he ih =>
      rw [chars?_short hu he] at h
      obtain ⟨s, rfl, hfound⟩ := exists_of_map_cons h
      have := ih hfound
      have hc := length_escaped_of_shortEscape? he
      rw [List.flatMap_cons, List.length_append, List.length_cons]
      omega
  | case8 e t hu he =>
      simp [chars?, he] at h
  | case9 c t hquote hbackslash hc =>
      simp [chars?, hc] at h
  | case10 c t hquote hbackslash hc ih =>
      rw [chars?_raw hquote hbackslash hc] at h
      obtain ⟨s, rfl, hfound⟩ := exists_of_map_cons h
      have := ih hfound
      rw [List.flatMap_cons, escaped_of_raw hquote hbackslash hc, List.length_append,
        List.length_singleton, List.length_cons]
      omega

/-- A string token is no shorter than what the printer makes of the string. -/
theorem length_quoted_le {t rest : List Char} {s : String} (h : string? t = some (s, rest)) :
    (quoted s).length + rest.length ≤ t.length := by
  unfold string? at h
  split at h
  · obtain ⟨⟨body, after⟩, hfound, heq⟩ := Option.map_eq_some_iff.mp h
    obtain ⟨rfl, rfl⟩ := Prod.mk.inj heq
    have := length_flatMap_escaped_le hfound
    simp only [quoted, List.length_cons, List.length_append, List.length_nil,
      String.toList_ofList]
    omega
  · cases h

end PluginContract.Json
