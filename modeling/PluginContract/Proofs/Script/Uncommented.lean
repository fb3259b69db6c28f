import PluginContract.Proofs.Script.Slash

/-!
# Scripts without comments

Blanking comments keeps every character of a literal, and the character after a slash that
starts no comment. Two scans that show the same from a slash on, one of them in a regular
expression, both read that expression or both read blanks up to a slash.
-/

namespace PluginContract.Script

open Text Region

theorem uncommentFrom_cons_of_ne {before : List Char} {regions : List Region} {c : Char}
    {rest : List Char} (h : Role.between regions (step before c rest regions) ≠ .comment) :
    uncommentFrom before regions (c :: rest) =
      c :: uncommentFrom (c :: before) (step before c rest regions) rest := by
  rw [uncommentFrom_cons, Role.uncommented_of_ne h]

theorem uncommentFrom_literal_cons {regions : List Region} (h : inLiteral regions = true)
    (before : List Char) (c : Char) (rest : List Char) :
    uncommentFrom before regions (c :: rest) =
      c :: uncommentFrom (c :: before) (step before c rest regions) rest :=
  uncommentFrom_cons_of_ne (between_ne_comment h _)

theorem uncommentFrom_regex_cons (n : Nat) (outer : List Region) (before : List Char) (c : Char)
    (rest : List Char) :
    uncommentFrom before (regex n :: outer) (c :: rest) =
      c :: uncommentFrom (c :: before) (step before c rest (regex n :: outer)) rest :=
  uncommentFrom_cons_of_ne (between_regex_ne_comment n outer _)

theorem uncommentFrom_code_cons (before : List Char) (c : Char) (rest : List Char) :
    uncommentFrom before [] (c :: rest) =
      (if opensComment c rest then ' ' else c) ::
        uncommentFrom (c :: before) (step before c rest []) rest := by
  rw [uncommentFrom_cons, uncommented_step_nil]

/-- Blanking comments keeps the next character of a quoted literal. -/
theorem head?_uncommentFrom_literal {regions : List Region} (h : inLiteral regions = true)
    (before rest : List Char) :
    (uncommentFrom before regions rest).head? = rest.head? := by
  cases rest with
  | nil => rfl
  | cons c rest => rw [uncommentFrom_literal_cons h, List.head?_cons, List.head?_cons]

/-- Blanking comments keeps the character after a slash that starts no comment. -/
theorem head?_uncommentFrom_code {rest : List Char} (h : opensComment '/' rest = false)
    (before : List Char) (c : Char) :
    (uncommentFrom (c :: before) (step before c rest []) rest).head? = rest.head? := by
  cases rest with
  | nil => rfl
  | cons d rest =>
      have hd : d ≠ '/' := by
        rintro rfl
        simp [opensComment] at h
      have hc : opensComment c (d :: rest) = false := by
        by_cases hs : c = '/'
        · rw [hs, h]
        · exact opensComment_of_ne hs _
      rcases opened?_cases hc before with ho | ⟨hq, ho⟩ | ⟨-, n, ho⟩
      · simp only [step, ho, Option.toList_none]
        rw [uncommentFrom_code_cons, opensComment_of_ne hd]
        rfl
      · simp only [step, ho, Option.toList_some]
        exact head?_uncommentFrom_literal (by simpa [inLiteral] using hq) _ _
      · simp only [step, ho, Option.toList_some]
        rw [uncommentFrom_regex_cons]
        rfl

/-- Blanking comments keeps a regular expression. -/
theorem take_uncommentFrom_regex (n : Nat) (outer : List Region) (before rest : List Char) :
    (uncommentFrom before (regex n :: outer) rest).take n = rest.take n := by
  induction n generalizing before rest with
  | zero => rfl
  | succ n ih =>
      cases rest with
      | nil => rfl
      | cons c rest =>
          rw [uncommentFrom_regex_cons, List.take_succ_cons, List.take_succ_cons]
          cases n with
          | zero => rfl
          | succ n => exact congrArg (List.cons c) (ih (c :: before) rest)

theorem regexLength?_uncommentFrom {rest : List Char} {n : Nat}
    (h : regexLength? false rest = some n) (outer : List Region) (before : List Char) :
    regexLength? false (uncommentFrom before (regex n :: outer) rest) = some n :=
  regexLength?_of_take h (take_uncommentFrom_regex n outer before rest)

/-- A quoted literal that is masked like a regular expression inside another literal has
the same characters without comments. -/
theorem take_uncommentFrom_literal {regions outer : List Region} {before before' rest : List Char}
    (n : Nat) (h : inLiteral regions = true) (ho : outer ≠ [])
    (hm : maskFrom before' (regex n :: outer) (uncommentFrom before regions rest) =
      maskFrom before regions rest) :
    (uncommentFrom before regions rest).take n = rest.take n := by
  induction n generalizing before before' regions rest with
  | zero => rfl
  | succ n ih =>
      cases rest with
      | nil => rfl
      | cons c rest =>
          obtain ⟨next, outer, rfl⟩ := List.exists_cons_of_ne_nil ho
          rw [uncommentFrom_literal_cons h, List.take_succ_cons, List.take_succ_cons]
          rw [uncommentFrom_literal_cons h, maskFrom_cons, maskFrom_cons, Role.between_nested,
            Role.shown_content] at hm
          obtain ⟨hc, hm⟩ := List.cons.inj hm
          rcases inLiteral_step h before c rest with hs | ⟨rfl, hq⟩
          · cases n with
            | zero => rfl
            | succ n => exact congrArg (List.cons c) (ih hs hm)
          · rw [step_quoted_close hq] at hc
            exact absurd hc (blanked_ne_of_isQuote hq)

/-- Whether regions lie outside literals: in code or in a comment. -/
def outsideLiterals : List Region → Bool
  | [] => true
  | [region] => region.isComment
  | _ => false

theorem eq_nil_or_comment_of_outsideLiterals {regions : List Region}
    (h : outsideLiterals regions = true) :
    regions = [] ∨ ∃ region, regions = [region] ∧ region.isComment = true := by
  cases regions with
  | nil => exact Or.inl rfl
  | cons region outer =>
      cases outer with
      | nil => exact Or.inr ⟨region, rfl, h⟩
      | cons => cases h

theorem outsideLiterals_step_comment {region : Region} (h : region.isComment = true)
    (before : List Char) (c : Char) (rest : List Char) :
    outsideLiterals (step before c rest [region]) = true := by
  cases region with
  | lineComment =>
      simp only [step]
      split <;> rfl
  | blockOpening => rfl
  | blockComment =>
      simp only [step]
      split <;> rfl
  | blockClosing => rfl
  | _ => cases h

/-- A character outside literals that shows as a blank stays outside literals. -/
theorem outsideLiterals_step {regions : List Region} (h : outsideLiterals regions = true)
    {before : List Char} {c : Char} {rest : List Char}
    (hc : (Role.between regions (step before c rest regions)).uncommented c = ' ') :
    outsideLiterals (step before c rest regions) = true := by
  match regions, h with
  | [region], h => exact outsideLiterals_step_comment h before c rest
  | [], _ =>
      rw [uncommented_step_nil] at hc
      split at hc
      · rename_i ho
        rcases opened?_of_opensComment ho before with ho | ho <;> simp [step, ho] <;> rfl
      · subst hc
        rfl

/-- Outside literals a masked script shows what a script without comments shows. -/
theorem shown_eq_uncommented {regions : List Region} (h : outsideLiterals regions = true)
    (before : List Char) (c : Char) (rest : List Char) :
    (Role.between regions (step before c rest regions)).shown c =
      (Role.between regions (step before c rest regions)).uncommented c := by
  match regions, h with
  | [region], h =>
      rw [between_comment h]
      rfl
  | [], _ => rw [shown_step_nil, uncommented_step_nil]

/-- A slash that a script without comments shows outside literals is in code. -/
theorem eq_slash_of_uncommented {regions : List Region} (h : outsideLiterals regions = true)
    {before : List Char} {c : Char} {rest : List Char}
    (hc : (Role.between regions (step before c rest regions)).uncommented c = '/') :
    regions = [] ∧ c = '/' ∧ opensComment '/' rest = false := by
  match regions, h with
  | [region], h =>
      rw [between_comment h, Role.uncommented_comment] at hc
      rcases blanked_eq c with hb | hb <;>
        exact absurd (hb.symm.trans hc) (by decide)
  | [], _ =>
      rw [uncommented_step_nil] at hc
      split at hc
      · exact absurd hc (by decide)
      · rename_i ho
        subst hc
        exact ⟨rfl, rfl, by simpa using ho⟩

theorem step_regex_succ (before : List Char) (c : Char) (rest : List Char) {m : Nat}
    (h : 0 < m) : step before c rest [regex (m + 1)] = [regex m] :=
  if_neg (by omega)

theorem blanked_of_regex {c : Char} (h : blanked c = c) (hn : c ≠ '\n') : c = ' ' := by
  rcases blanked_eq_self h with rfl | rfl
  · rfl
  · exact absurd rfl hn

/-- A regular expression that the scan without comments takes for code consists of blanks. -/
theorem closesBlank_of_code {n : Nat} {before before' rest : List Char}
    (hn : regexLength? false rest = some n)
    (hm : maskFrom before' [] (uncommentFrom before [regex n] rest) =
      maskFrom before [regex n] rest) :
    closesBlank (uncommentFrom before [regex n] rest) = true := by
  induction rest generalizing n before before' with
  | nil => simp [regexLength?] at hn
  | cons c rest ih =>
      rw [uncommentFrom_regex_cons] at hm ⊢
      rw [maskFrom_cons, maskFrom_cons, shown_step_nil] at hm
      obtain ⟨hc, hm⟩ := List.cons.inj hm
      rcases regexLength?_cons hn with ⟨rfl, rfl⟩ | ⟨hs, hl, m, rfl, hp, hb⟩
      · rw [closesBlank_of_ne (by decide)]
        refine ⟨rfl, Bool.eq_false_iff.mpr ?_⟩
        intro ho
        rw [if_pos ho] at hc
        exact absurd hc (by decide : ' ' ≠ '/')
      · rw [step_regex_succ before c rest hp] at hc hm ⊢
        have hcb : c = ' ' := by
          rw [opensComment_of_ne hs] at hc
          exact blanked_of_regex hc.symm hl
        subst hcb
        rw [closesBlank_blank]
        exact ih (hb rfl) hm

/-- Code and comments that the scan without comments takes for a regular expression
consist of blanks there. -/
theorem closesBlank_of_regex {n : Nat} {before before' rest : List Char} {regions : List Region}
    (ho : outsideLiterals regions = true)
    (hn : regexLength? false (uncommentFrom before regions rest) = some n)
    (hm : maskFrom before' [regex n] (uncommentFrom before regions rest) =
      maskFrom before regions rest) :
    closesBlank (uncommentFrom before regions rest) = true := by
  induction rest generalizing n before before' regions with
  | nil => simp [regexLength?] at hn
  | cons c rest ih =>
      rw [maskFrom_cons before regions, shown_eq_uncommented ho] at hm
      rw [uncommentFrom_cons] at hn hm ⊢
      rw [maskFrom_cons] at hm
      obtain ⟨hc, hm⟩ := List.cons.inj hm
      rcases regexLength?_cons hn with ⟨hs, rfl⟩ | ⟨-, hl, m, rfl, hp, hb⟩
      · rw [hs, closesBlank_of_ne (by decide)]
        constructor
        · rfl
        · obtain ⟨rfl, rfl, hrest⟩ := eq_slash_of_uncommented ho hs
          rw [← hrest]
          exact opensComment_congr (head?_uncommentFrom_code hrest before '/') '/'
      · rw [step_regex_succ _ _ _ hp] at hc hm
        have hcb := blanked_of_regex hc hl
        rw [hcb] at hm ⊢
        rw [closesBlank_blank]
        exact ih (outsideLiterals_step ho hcb) (hb hcb) hm

end PluginContract.Script
