import PluginContract.Proofs.Script.Scan

/-!
# What a slash reads around it

A slash in code looks ahead for the end of a regular expression and back for an operand.
Ahead, blanks before a closing slash are the one regular expression that looks the same as
code. Back, a slash ends an operand, and an opening brace hides what lies before it.
-/

namespace PluginContract.Script

open Text Region

/-- Whether a regular expression with nothing but blanks closes before anything else, and
its closing slash starts no comment. -/
def closesBlank : List Char → Bool
  | [] => false
  | c :: rest => if c = ' ' then closesBlank rest else c == '/' && !opensComment c rest

theorem closesBlank_blank (rest : List Char) : closesBlank (' ' :: rest) = closesBlank rest := rfl

theorem closesBlank_of_ne {c : Char} (h : c ≠ ' ') (rest : List Char) :
    closesBlank (c :: rest) = true ↔ c = '/' ∧ opensComment c rest = false := by
  simp [closesBlank, h]

/-- The slashes of a regular expression of a known length, seen from its first character. -/
theorem regexLength?_cons {c : Char} {rest : List Char} {n : Nat}
    (h : regexLength? false (c :: rest) = some n) :
    c = '/' ∧ n = 1 ∨
      c ≠ '/' ∧ c ≠ '\n' ∧ ∃ m, n = m + 1 ∧ 0 < m ∧
        (c = ' ' → regexLength? false rest = some m) := by
  unfold regexLength? at h
  split at h
  · simp at h
  · split at h
    · simp at h
    · rename_i d tail heq
      obtain ⟨m, -, rfl⟩ := Option.map_eq_some_iff.mp h
      obtain ⟨rfl, -⟩ := List.cons.inj heq
      right
      refine ⟨by decide, by decide, m + 1, rfl, Nat.succ_pos m, ?_⟩
      intro hc
      exact absurd hc (by decide)
  · rename_i c rest _ heq
    obtain ⟨rfl, rfl⟩ := List.cons.inj heq
    split at h
    · simp at h
    · rename_i hn
      split at h
      · rename_i hs
        left
        exact ⟨by simpa using hs, (Option.some.inj h).symm⟩
      · rename_i hs
        obtain ⟨m, hm, rfl⟩ := Option.map_eq_some_iff.mp h
        right
        refine ⟨by simpa using hs, hn, m, rfl, regexLength?_pos hm, ?_⟩
        rintro rfl
        exact hm

/-- Whether the text before (backwards) ends in a slash, blanks apart. -/
def afterSlash (before : List Char) : Bool := (before.dropWhile isBlank).head? == some '/'

theorem afterSlash_slash (before : List Char) : afterSlash ('/' :: before) = true := by
  have hb : isBlank '/' = false := by decide
  simp [afterSlash, hb]

theorem afterSlash_blank (before : List Char) :
    afterSlash (' ' :: before) = afterSlash before := by
  have hb : isBlank ' ' = true := by decide
  simp [afterSlash, hb]

theorem expectsOperand_of_afterSlash {before : List Char} (h : afterSlash before = true) :
    expectsOperand before = false := by
  have hs := beq_iff_eq.mp h
  obtain ⟨significant, ht⟩ := List.head?_eq_some_iff.mp hs
  have hn : isNameChar '/' = false := by decide
  have ho : '/' ∉ operatorChars := by decide
  have hw : [] ∉ operatorWords := by decide
  simp [expectsOperand, ht, hn, ho, hw]

/-- A slash after another one opens nothing, unless a comment. -/
theorem opened?_of_afterSlash {before rest : List Char} (hb : afterSlash before = true)
    (hr : opensComment '/' rest = false) : opened? before '/' rest = none := by
  rw [opened?_slash hr, expectsOperand_of_afterSlash hb]
  rfl

/-- Texts before a place that are the same back to an opening brace. -/
def Enclosed (before before' : List Char) : Prop :=
  ∃ inside outer outer', before = inside ++ '{' :: outer ∧ before' = inside ++ '{' :: outer'

theorem Enclosed.cons {before before' : List Char} (h : Enclosed before before') (c : Char) :
    Enclosed (c :: before) (c :: before') := by
  obtain ⟨inside, outer, outer', rfl, rfl⟩ := h
  exact ⟨c :: inside, outer, outer', rfl, rfl⟩

theorem Enclosed.brace (before before' : List Char) :
    Enclosed ('{' :: before) ('{' :: before') :=
  ⟨[], before, before', rfl, rfl⟩

theorem takeWhile_append_of_stop {p : Char → Bool} {d : Char} (h : p d = false)
    (inside outer : List Char) :
    (inside ++ d :: outer).takeWhile p = inside.takeWhile p := by
  induction inside with
  | nil => simp [h]
  | cons c inside ih => simp [List.takeWhile_cons, ih]

/-- Looking back for an operand stops at an opening brace. -/
theorem Enclosed.expectsOperand_eq {before before' : List Char} (h : Enclosed before before') :
    expectsOperand before = expectsOperand before' := by
  obtain ⟨inside, outer, outer', rfl, rfl⟩ := h
  have hb : isBlank '{' = false := by decide
  have hn : isNameChar '{' = false := by decide
  induction inside with
  | nil => simp [expectsOperand, hb, hn]
  | cons c inside ih =>
      by_cases hc : isBlank c = true
      · simpa [expectsOperand, hc] using ih
      · simp [expectsOperand, hc, List.takeWhile_cons, takeWhile_append_of_stop hn]

end PluginContract.Script
