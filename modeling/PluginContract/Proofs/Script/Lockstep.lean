import PluginContract.Proofs.Script.Uncommented

/-!
# Scanning a script with and without comments

The scan of a script and the scan of the script without comments run side by side. They
stand in the same regions, comments apart, as long as every slash opens the same in both.
There is one other way to agree: a regular expression of blanks only looks like the blanks
and the slash that it consists of, so one scan may take it for code.
-/

namespace PluginContract.Script

open Text Region

/-- How the scan of a script and its scan without comments stand to each other before the
rest of the script. -/
inductive Related (before before' rest : List Char) : List Region → List Region → Prop
  /-- Both are outside literals. -/
  | code {regions : List Region} (outside : outsideLiterals regions = true) :
      Related before before' rest regions []
  /-- Both are in the same regular expression. -/
  | regex (n : Nat) : Related before before' rest [regex n] [regex n]
  /-- Both are in the same quoted literal. An interpolation starts with a brace, so the
  texts before are the same back to there. -/
  | literal {regions : List Region} (inside : inLiteral regions = true)
      (enclosed : 2 ≤ regions.length → Enclosed before before' ∨ rest.head? = some '{') :
      Related before before' rest regions regions
  /-- The scan without comments takes a regular expression of blanks for code. -/
  | textRegex {n : Nat} (length : regexLength? false rest = some n)
      (blank : closesBlank (uncommentFrom before [Region.regex n] rest) = true)
      (slash : afterSlash before' = true) :
      Related before before' rest [Region.regex n] []
  /-- The scan without comments takes blanks, or comments, for a regular expression. -/
  | blankRegex {regions : List Region} {n : Nat} (outside : outsideLiterals regions = true)
      (length : regexLength? false (uncommentFrom before regions rest) = some n)
      (blank : closesBlank (uncommentFrom before regions rest) = true)
      (slash : afterSlash before' = true)
      (code : regions = [] → afterSlash before = true ∨ rest.head? = some '\n')
      (closing : regions = [blockClosing] → rest.head? = some '/') :
      Related before before' rest regions [Region.regex n]

/-- Both scans take a slash that starts no comment for the same, or one of them takes a
regular expression of blanks for code. -/
def SlashAgrees (before before' : List Char) (regions : List Region) (c : Char)
    (rest rest' : List Char) : Prop :=
  c = '/' → inCode regions = true → opensComment c rest = false →
    opened? before' c rest' = opened? before c rest ∨ regions = [] ∧ closesBlank rest' = true

/-- Both scans show the same for a character and are related after it. -/
def Lockstep (before before' : List Char) (regions regions' : List Region) (c : Char)
    (rest : List Char) : Prop :=
  let after := step before c rest regions
  let c' := (Role.between regions after).uncommented c
  let after' := step before' c' (uncommentFrom (c :: before) after rest) regions'
  (Role.between regions' after').shown c' = (Role.between regions after).shown c ∧
    Related (c :: before) (c' :: before') rest after after'

variable {before before' rest : List Char} {c : Char}

theorem related_of_opened (h : opensComment c rest = false) (text : List Char) :
    Related (c :: text) (c :: before') rest (step before c rest []) (step before c rest []) := by
  rcases opened?_cases h before with ho | ⟨hq, ho⟩ | ⟨-, n, ho⟩
  · simp only [step, ho, Option.toList_none]
    exact .code rfl
  · simp only [step, ho, Option.toList_some]
    refine .literal (by simpa [inLiteral] using hq) ?_
    intro hl
    exact absurd hl (by simp)
  · simp only [step, ho, Option.toList_some]
    exact .regex n

/-- A slash that closes blanks anyway leaves the scans related, whatever it opens in each. -/
theorem related_of_closesBlank (h : opensComment '/' rest = false)
    (hb : closesBlank (uncommentFrom ('/' :: before) (step before '/' rest []) rest) = true) :
    Related ('/' :: before) ('/' :: before') rest (step before '/' rest [])
      (step before' '/' (uncommentFrom ('/' :: before) (step before '/' rest []) rest) []) := by
  have h' := h
  rw [← opensComment_congr (head?_uncommentFrom_code h before '/')] at h'
  rcases opened?_slash_cases h before with ho | ⟨n, hn, ho⟩
  · simp only [step, ho, Option.toList_none] at h' hb ⊢
    rcases opened?_slash_cases h' before' with ho' | ⟨n, hn, ho'⟩
    · rw [ho']
      exact .code rfl
    · rw [ho']
      refine .blankRegex rfl hn hb (afterSlash_slash before') ?_ ?_
      · intro _
        exact Or.inl (afterSlash_slash before)
      · intro hr
        exact absurd hr (by simp)
  · simp only [step, ho, Option.toList_some] at h' hb ⊢
    rcases opened?_slash_cases h' before' with ho' | ⟨m, hm, ho'⟩
    · rw [ho']
      exact .textRegex hn hb (afterSlash_slash before')
    · rw [ho']
      rw [regexLength?_uncommentFrom hn] at hm
      obtain rfl := Option.some.inj hm
      exact .regex n

theorem lockstep_code
    (ha : SlashAgrees before before' [] c rest
      (uncommentFrom (c :: before) (step before c rest []) rest)) :
    Lockstep before before' [] [] c rest := by
  unfold Lockstep
  simp only [shown_step_nil, uncommented_step_nil]
  by_cases h : opensComment c rest = true
  · rw [if_pos h]
    constructor
    · rfl
    · have hs : step before' ' ' (uncommentFrom (c :: before) (step before c rest []) rest) [] =
        [] := rfl
      rw [hs]
      rcases opened?_of_opensComment h before with ho | ho <;>
      · simp only [step, ho, Option.toList_some]
        exact .code rfl
  · have h := Bool.eq_false_iff.mpr h
    rw [h]
    simp only [Bool.false_eq_true, if_false]
    by_cases hc : c = '/'
    · subst hc
      rw [opensComment_congr (head?_uncommentFrom_code h before '/'), h]
      constructor
      · rfl
      · rcases ha rfl rfl h with ho | ⟨-, hb⟩
        · have hs : step before' '/' (uncommentFrom ('/' :: before) (step before '/' rest []) rest)
              [] = step before '/' rest [] := congrArg Option.toList ho
          rw [hs]
          exact related_of_opened h before
        · exact related_of_closesBlank h hb
    · rw [opensComment_of_ne hc]
      constructor
      · rfl
      · have hs : step before' c (uncommentFrom (c :: before) (step before c rest []) rest) [] =
            step before c rest [] := congrArg Option.toList (opened?_of_ne_slash hc _ _ _ _)
        rw [hs]
        exact related_of_opened h before

theorem step_blanked (before rest : List Char) (c : Char) :
    step before (blanked c) rest [] = [] := by
  rcases blanked_eq c with h | h <;>
  · rw [h]
    rfl

theorem lockstep_comment {region : Region} (h : region.isComment = true) :
    Lockstep before before' [region] [] c rest := by
  unfold Lockstep
  simp only [between_comment h, Role.uncommented_comment, Role.shown_comment, step_blanked]
  exact ⟨rfl, .code (outsideLiterals_step_comment h before c rest)⟩

theorem lockstep_regex (n : Nat) : Lockstep before before' [.regex n] [.regex n] c rest := by
  unfold Lockstep
  simp only [Role.uncommented_of_ne (between_regex_ne_comment n [] _)]
  constructor
  · rfl
  · simp only [step]
    split
    · exact .code rfl
    · exact .regex (n - 1)

/-- Within a quoted literal both scans step alike if a slash of an interpolation opens the same. -/
theorem step_literal {regions : List Region} (h : inLiteral regions = true)
    (hs : inLiteral (step before c rest regions) = true)
    (ha : SlashAgrees before before' regions c rest
      (uncommentFrom (c :: before) (step before c rest regions) rest)) :
    step before' c (uncommentFrom (c :: before) (step before c rest regions) rest) regions =
      step before c rest regions := by
  have hhead := head?_uncommentFrom_literal hs (c :: before) rest
  refine step_congr ?_ hhead
  intro hcode
  by_cases hc : c = '/'
  · subst hc
    cases ho : opensComment '/' rest with
    | true => exact opened?_congr_of_opensComment ho hhead _ _
    | false =>
        rcases ha rfl hcode ho with heq | ⟨hnil, -⟩
        · exact heq
        · subst hnil
          cases h
  · exact opened?_of_ne_slash hc _ _ _ _

/-- The texts before a place in an interpolation are the same back to the brace that opens it. -/
theorem enclosed_step {regions : List Region} (h : inLiteral regions = true)
    (he : 2 ≤ regions.length → Enclosed before before' ∨ (c :: rest).head? = some '{')
    (text : List Char) (hl : 2 ≤ (step text c rest regions).length) :
    Enclosed (c :: before) (c :: before') ∨ rest.head? = some '{' := by
  match regions, h with
  | [region], h => exact Or.inr (head?_of_two_le_length_step h hl)
  | _ :: _ :: _, _ =>
      left
      rcases he (by simp) with he | hb
      · exact he.cons c
      · obtain rfl := Option.some.inj hb
        exact .brace before before'

/-- Inside a quoted literal the scans read the same characters, so they step alike if a
slash of an interpolation opens the same. -/
theorem lockstep_literal {regions : List Region} (h : inLiteral regions = true)
    (he : 2 ≤ regions.length → Enclosed before before' ∨ (c :: rest).head? = some '{')
    (ha : SlashAgrees before before' regions c rest
      (uncommentFrom (c :: before) (step before c rest regions) rest)) :
    Lockstep before before' regions regions c rest := by
  unfold Lockstep
  simp only [Role.uncommented_of_ne (between_ne_comment h _)]
  rcases inLiteral_step h before c rest with hs | ⟨rfl, hq⟩
  · rw [step_literal h hs ha]
    exact ⟨rfl, .literal hs (enclosed_step h he before)⟩
  · simp only [step_quoted_close hq]
    exact ⟨trivial, .code rfl⟩

theorem lockstep_textRegex {n : Nat} (hn : regexLength? false (c :: rest) = some n)
    (hb : closesBlank (uncommentFrom before [.regex n] (c :: rest)) = true)
    (hs : afterSlash before' = true) : Lockstep before before' [.regex n] [] c rest := by
  unfold Lockstep
  simp only [Role.uncommented_of_ne (between_regex_ne_comment n [] _), shown_step_nil]
  rw [uncommentFrom_regex_cons] at hb
  rcases regexLength?_cons hn with ⟨rfl, rfl⟩ | ⟨hc, -, m, rfl, hp, hm⟩
  · rw [closesBlank_of_ne (by decide)] at hb
    have ho := hb.2
    have hstep : step before' '/' (uncommentFrom ('/' :: before)
        (step before '/' rest [.regex 1]) rest) [] = [] :=
      congrArg Option.toList (opened?_of_afterSlash hs ho)
    rw [hstep, ho]
    exact ⟨rfl, .code rfl⟩
  · obtain rfl : c = ' ' := by
      by_cases h : c = ' '
      · exact h
      · exact absurd ((closesBlank_of_ne h _).mp hb).1 hc
    rw [step_regex_succ before ' ' rest hp] at hb ⊢
    refine ⟨rfl, .textRegex (hm rfl) hb ?_⟩
    rw [afterSlash_blank, hs]

/-- Back in code after blanks and comments, the text before ends in the slash of a block
comment, if it ended in a slash, or a line comment ends here. -/
theorem afterSlash_of_step_nil {regions : List Region} (ho : outsideLiterals regions = true)
    (hblank : (Role.between regions (step before c rest regions)).uncommented c = ' ')
    (hcode : regions = [] → afterSlash before = true ∨ (c :: rest).head? = some '\n')
    (hclosing : regions = [blockClosing] → (c :: rest).head? = some '/')
    (hs : step before c rest regions = []) :
    afterSlash (c :: before) = true ∨ rest.head? = some '\n' := by
  match regions, ho with
  | [], _ =>
      have hc : c = ' ' := by
        rw [hs] at hblank
        exact hblank
      subst hc
      left
      rw [afterSlash_blank]
      rcases hcode rfl with h | h
      · exact h
      · exact absurd h (by simp)
  | [region], hcomment =>
      cases region with
      | lineComment =>
          right
          simp only [step] at hs
          split at hs
          · assumption
          · cases hs
      | blockOpening => cases hs
      | blockComment =>
          simp only [step] at hs
          split at hs <;> cases hs
      | blockClosing =>
          left
          obtain rfl := Option.some.inj (hclosing rfl)
          exact afterSlash_slash before
      | _ => cases hcomment

theorem head?_of_step_blockClosing {regions : List Region} (ho : outsideLiterals regions = true)
    (hs : step before c rest regions = [blockClosing]) : rest.head? = some '/' := by
  match regions, ho with
  | [], _ =>
      exfalso
      cases h : opensComment c rest with
      | true => rcases opened?_of_opensComment h before with ho | ho <;> simp [step, ho] at hs
      | false =>
          rcases opened?_cases h before with ho | ⟨-, ho⟩ | ⟨-, n, ho⟩ <;> simp [step, ho] at hs
  | [region], hcomment =>
      cases region with
      | lineComment =>
          simp only [step] at hs
          split at hs <;> cases hs
      | blockComment =>
          simp only [step] at hs
          split at hs
          · rename_i h
            simpa using (Bool.and_eq_true_iff.mp h).2
          · cases hs
      | blockOpening => cases hs
      | blockClosing => cases hs
      | _ => cases hcomment

theorem lockstep_blankRegex {regions : List Region} {n : Nat}
    (ho : outsideLiterals regions = true)
    (hn : regexLength? false (uncommentFrom before regions (c :: rest)) = some n)
    (hb : closesBlank (uncommentFrom before regions (c :: rest)) = true)
    (hs : afterSlash before' = true)
    (hcode : regions = [] → afterSlash before = true ∨ (c :: rest).head? = some '\n')
    (hclosing : regions = [blockClosing] → (c :: rest).head? = some '/') :
    Lockstep before before' regions [.regex n] c rest := by
  unfold Lockstep
  simp only [shown_eq_uncommented ho]
  rw [uncommentFrom_cons] at hn hb
  rcases regexLength?_cons hn with ⟨hc, rfl⟩ | ⟨hc, -, m, rfl, hp, hm⟩
  · obtain ⟨rfl, rfl, hrest⟩ := eq_slash_of_uncommented ho hc
    have hbefore : afterSlash before = true := by
      rcases hcode rfl with h | h
      · exact h
      · exact absurd h (by simp)
    have hstep : step before '/' rest [] = [] :=
      congrArg Option.toList (opened?_of_afterSlash hbefore hrest)
    rw [hstep]
    exact ⟨rfl, .code rfl⟩
  · have hblank : (Role.between regions (step before c rest regions)).uncommented c = ' ' := by
      by_cases h : (Role.between regions (step before c rest regions)).uncommented c = ' '
      · exact h
      · exact absurd ((closesBlank_of_ne h _).mp hb).1 hc
    rw [hblank, closesBlank_blank] at hb
    rw [hblank, step_regex_succ _ _ _ hp]
    refine ⟨rfl, .blankRegex (outsideLiterals_step ho hblank) (hm hblank) hb ?_ ?_ ?_⟩
    · rw [afterSlash_blank, hs]
    · exact afterSlash_of_step_nil ho hblank hcode hclosing
    · exact head?_of_step_blockClosing ho

/-- Related scans stay in lockstep as long as slashes agree. -/
theorem Related.lockstep {regions regions' : List Region}
    (h : Related before before' (c :: rest) regions regions')
    (ha : SlashAgrees before before' regions c rest
      (uncommentFrom (c :: before) (step before c rest regions) rest)) :
    Lockstep before before' regions regions' c rest := by
  cases h with
  | code outside =>
      match regions, outside with
      | [], _ => exact lockstep_code ha
      | [region], outside => exact lockstep_comment outside
  | regex n => exact lockstep_regex n
  | literal inside enclosed => exact lockstep_literal inside enclosed ha
  | textRegex length blank slash => exact lockstep_textRegex length blank slash
  | blankRegex outside length blank slash code closing =>
      exact lockstep_blankRegex outside length blank slash code closing

end PluginContract.Script
