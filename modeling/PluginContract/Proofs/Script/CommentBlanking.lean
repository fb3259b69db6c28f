import PluginContract.Proofs.Script.Lockstep

/-!
# Masking a script after blanking its comments

What lies before a slash is the text itself, comments included. A comment directly before a
regular expression therefore looks like the end of an operand, and masking a script after
blanking its comments is not the same as masking it. The masks agree exactly as long as the
slashes do.
-/

namespace PluginContract.Script

open Text Region

variable {before before' rest : List Char} {c : Char}

/-- A slash in an interpolation that opens different regions shows in the mask. -/
theorem slashAgrees_literal {regions : List Region} (h : inLiteral regions = true)
    (he : 2 ≤ regions.length → Enclosed before before' ∨ (c :: rest).head? = some '{')
    (hm : maskFrom before' regions (uncommentFrom before regions (c :: rest)) =
      maskFrom before regions (c :: rest)) :
    SlashAgrees before before' regions c rest
      (uncommentFrom (c :: before) (step before c rest regions) rest) := by
  rintro rfl hcode ho
  left
  match regions, hcode with
  | .interpolation closers :: outer, _ =>
      have houter : outer ≠ [] := by
        rintro rfl
        cases h
      have hl : 2 ≤ (Region.interpolation closers :: outer).length :=
        Nat.succ_le_succ (List.length_pos_iff.mpr houter)
      have hb : Enclosed before before' := by
        rcases he hl with hb | hb
        · exact hb
        · exact absurd hb (by simp)
      have hs : inLiteral (step before '/' rest (.interpolation closers :: outer)) = true := by
        rcases inLiteral_step h before '/' rest with hs | ⟨hq, -⟩
        · exact hs
        · cases hq
      rw [uncommentFrom_literal_cons h, maskFrom_cons, maskFrom_cons] at hm
      obtain ⟨-, hm⟩ := List.cons.inj hm
      have ho' := ho
      rw [← opensComment_congr (head?_uncommentFrom_literal hs ('/' :: before) rest)] at ho'
      -- A regular expression that only one of the scans finds lies in the quoted literal,
      -- so the other scan finds it too.
      rcases opened?_slash_cases ho before with hopened | ⟨n, hn, hopened⟩
      · rcases opened?_slash_cases ho' before' with hopened' | ⟨n, hn', hopened'⟩
        · rw [hopened, hopened']
        · rw [step_interpolation_of_opened hopened'] at hm
          have ht := take_uncommentFrom_literal n hs (List.cons_ne_nil _ _) hm
          have hn := regexLength?_of_take hn' ht.symm
          rw [opened?_slash_of_length ho' hn', opened?_slash_of_length ho hn,
            hb.expectsOperand_eq]
      · have hn' : regexLength? false (uncommentFrom ('/' :: before)
            (step before '/' rest (.interpolation closers :: outer)) rest) = some n := by
          rw [step_interpolation_of_opened hopened]
          exact regexLength?_uncommentFrom hn _ _
        rw [opened?_slash_of_length ho' hn', opened?_slash_of_length ho hn,
          hb.expectsOperand_eq]

/-- A slash in code that opens different regions shows in the mask, unless it closes blanks. -/
theorem slashAgrees_code
    (hm : maskFrom before' [] (uncommentFrom before [] (c :: rest)) =
      maskFrom before [] (c :: rest)) :
    SlashAgrees before before' [] c rest
      (uncommentFrom (c :: before) (step before c rest []) rest) := by
  rintro rfl - ho
  rw [uncommentFrom_code_cons, ho, maskFrom_cons, maskFrom_cons] at hm
  obtain ⟨-, hm⟩ := List.cons.inj hm
  have ho' := ho
  rw [← opensComment_congr (head?_uncommentFrom_code ho before '/')] at ho'
  simp only [Bool.false_eq_true, if_false] at hm
  rcases opened?_slash_cases ho before with hopened | ⟨n, hn, hopened⟩
  · simp only [step, hopened, Option.toList_none] at hm ho' ⊢
    rcases opened?_slash_cases ho' before' with hopened' | ⟨n, hn, hopened'⟩
    · exact Or.inl hopened'
    · rw [hopened'] at hm
      exact Or.inr ⟨trivial, closesBlank_of_regex rfl hn hm⟩
  · simp only [step, hopened, Option.toList_some] at hm ho' ⊢
    have hn' := regexLength?_uncommentFrom hn [] ('/' :: before)
    rw [opened?_slash_of_length ho' hn'] at hm ⊢
    split
    · exact Or.inl rfl
    · rename_i hexpects
      rw [if_neg hexpects] at hm
      exact Or.inr ⟨trivial, closesBlank_of_code hn hm⟩

theorem eq_nil_of_inCode {regions : List Region} (ho : outsideLiterals regions = true)
    (hcode : inCode regions = true) : regions = [] := by
  match regions, ho with
  | [], _ => rfl
  | [region], ho =>
      cases region with
      | interpolation closers => cases ho
      | _ => cases hcode

/-- Related scans that show the same agree on the next slash. -/
theorem Related.slashAgrees {regions regions' : List Region}
    (h : Related before before' (c :: rest) regions regions')
    (hm : maskFrom before' regions' (uncommentFrom before regions (c :: rest)) =
      maskFrom before regions (c :: rest)) :
    SlashAgrees before before' regions c rest
      (uncommentFrom (c :: before) (step before c rest regions) rest) := by
  cases h with
  | code outside =>
      match regions, outside with
      | [], _ => exact slashAgrees_code hm
      | [region], outside =>
          intro _ hcode
          exact absurd (eq_nil_of_inCode outside hcode) (List.cons_ne_nil _ _)
  | regex n =>
      intro _ hcode
      cases hcode
  | literal inside enclosed => exact slashAgrees_literal inside enclosed hm
  | textRegex length blank slash =>
      intro _ hcode
      cases hcode
  | blankRegex outside length blank slash code closing =>
      rintro rfl hcode ho
      left
      obtain rfl := eq_nil_of_inCode outside hcode
      rw [uncommentFrom_code_cons, ho] at blank
      have ho' := ((closesBlank_of_ne (by decide) _).mp blank).2
      have hbefore : afterSlash before = true := by
        rcases code rfl with h | h
        · exact h
        · exact absurd h (by simp)
      rw [opened?_of_afterSlash slash ho', opened?_of_afterSlash hbefore ho]

/-- Two related scans show the same from a place on if and only if slashes agree. -/
def SlashesAgree (before before' : List Char) (regions : List Region) : List Char → Prop
  | [] => True
  | c :: rest =>
      let after := step before c rest regions
      let c' := (Role.between regions after).uncommented c
      SlashAgrees before before' regions c rest (uncommentFrom (c :: before) after rest) ∧
        SlashesAgree (c :: before) (c' :: before') after rest

theorem Related.maskFrom_eq_iff {regions regions' : List Region}
    (h : Related before before' rest regions regions') :
    maskFrom before' regions' (uncommentFrom before regions rest) = maskFrom before regions rest ↔
      SlashesAgree before before' regions rest := by
  induction rest generalizing before before' regions regions' with
  | nil => exact ⟨fun _ => trivial, fun _ => rfl⟩
  | cons c rest ih =>
      constructor
      · intro hm
        have ha := h.slashAgrees hm
        have hl := h.lockstep ha
        rw [uncommentFrom_cons, maskFrom_cons, maskFrom_cons] at hm
        exact ⟨ha, (ih hl.2).mp (List.cons.inj hm).2⟩
      · intro ha
        have hl := h.lockstep ha.1
        rw [uncommentFrom_cons, maskFrom_cons, maskFrom_cons]
        rw [hl.1, (ih hl.2).mpr ha.2]

/-- What the character so many characters further on opens in code. -/
def openedFrom (before t : List Char) (n : Nat) : Option Region :=
  match t.drop n with
  | [] => none
  | c :: rest => opened? ((t.take n).reverse ++ before) c rest

/-- Whether so many characters further on there is a slash in code that starts no comment. -/
def SlashFrom (before : List Char) (regions : List Region) (t : List Char) (n : Nat) : Prop :=
  ∃ rest, t.drop n = '/' :: rest ∧ inCode (regionsFrom before regions t n) = true ∧
    opensComment '/' rest = false

theorem openedFrom_succ (before : List Char) (c : Char) (t : List Char) (n : Nat) :
    openedFrom before (c :: t) (n + 1) = openedFrom (c :: before) t n := by
  simp [openedFrom]

theorem uncommented_of_inCode {regions : List Region} (h : inCode regions = true)
    (ho : opensComment c rest = false) :
    (Role.between regions (step before c rest regions)).uncommented c = c := by
  match regions, h with
  | [], _ => rw [uncommented_step_nil, ho, if_neg Bool.false_ne_true]
  | [interpolation closers], _ =>
      refine Role.uncommented_of_ne ?_ c
      cases step before c rest [interpolation closers] <;> simp [Role.between, isComment]
  | interpolation closers :: next :: outer, _ => rfl

theorem slashesAgree_iff {regions : List Region} :
    SlashesAgree before before' regions rest ↔
      ∀ n, SlashFrom before regions rest n →
        openedFrom before' (uncommentFrom before regions rest) n = openedFrom before rest n ∨
          regionsFrom before regions rest n = [] ∧
            closesBlank ((uncommentFrom before regions rest).drop (n + 1)) = true := by
  induction rest generalizing before before' regions with
  | nil =>
      refine ⟨?_, fun _ => trivial⟩
      rintro - n ⟨rest, ht, -⟩
      simp at ht
  | cons c rest ih =>
      rw [SlashesAgree, ih, uncommentFrom_cons]
      constructor
      · rintro ⟨hnow, hlater⟩ n
        cases n with
        | zero =>
            rintro ⟨tail, ht, hcode, ho⟩
            obtain ⟨rfl, rfl⟩ := List.cons.inj ht
            replace hcode : inCode regions = true := hcode
            rw [uncommented_of_inCode hcode ho]
            exact hnow rfl hcode ho
        | succ n =>
            intro hs
            rw [openedFrom_succ, openedFrom_succ]
            exact hlater n hs
      · intro h
        constructor
        · rintro rfl hcode ho
          have hnow := h 0 ⟨rest, rfl, hcode, ho⟩
          rw [uncommented_of_inCode hcode ho] at hnow
          exact hnow
        · intro n hs
          have hlater := h (n + 1) hs
          rw [openedFrom_succ, openedFrom_succ] at hlater
          exact hlater

/-- What the character at an offset opens if it is in code. -/
def openedAt (t : List Char) (n : Nat) : Option Region := openedFrom [] t n

/-- Whether there is a slash at an offset that is in code and starts no comment. -/
def SlashAt (t : List Char) (n : Nat) : Prop := SlashFrom [] [] t n

/-- Blanking the comments of a script keeps its mask if and only if every slash in code still
opens the same: a regular expression of the same length, or nothing. Outside all literals a
slash may also open, in one of the scripts only, a regular expression of blanks. -/
theorem mask_stripComments_eq_iff (t : List Char) :
    mask (stripComments t) = mask t ↔
      ∀ n, SlashAt t n →
        openedAt (stripComments t) n = openedAt t n ∨
          regionsAt t n = [] ∧ closesBlank ((stripComments t).drop (n + 1)) = true := by
  have h : Related [] [] t [] [] := .code rfl
  rw [mask_eq, mask_eq, stripComments_eq]
  exact h.maskFrom_eq_iff.trans slashesAgree_iff

/-- The slash of a comment that precedes a regular expression looks like an operand's end,
so the quote in the expression opens a literal. -/
theorem mask_stripComments_ne_comment_before_regex :
    mask (stripComments "x = /* c */ /'/; a".toList) ≠ mask "x = /* c */ /'/; a".toList := by
  decide +kernel

end PluginContract.Script
