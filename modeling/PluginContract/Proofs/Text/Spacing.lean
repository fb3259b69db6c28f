import PluginContract.Proofs.Text.Words

/-!
# Tokens with blanks between them

A text lays out a list of tokens if it consists of them with any blanks before, between and after
them, and each name among them ends where it says. A text and its words with single spaces between
them lay out the same tokens.
-/

namespace PluginContract.Text

/-- A text that consists of tokens and blanks around them. No name goes on after its token. -/
inductive Spaced : (tokens : List (List Char)) → List Char → Prop
  | nil {tail : List Char} (blanks : tail.all isBlank = true) : Spaced [] tail
  | cons {gap token rest : List Char} {tokens : List (List Char)}
      (blanks : gap.all isBlank = true) (ends : isName token = true → EndsName rest)
      (after : Spaced tokens rest) : Spaced (token :: tokens) (gap ++ (token ++ rest))

/-- A text that holds something, and no blank. -/
structure Token (t : List Char) : Prop where
  ne_nil : t ≠ []
  notBlank : ∀ c ∈ t, isBlank c = false

theorem token_of_isName {t : List Char} (h : isName t = true) : Token t :=
  ⟨ne_nil_of_isName h, fun c hc => not_isBlank_of_isNameChar (isNameChar_of_isName h c hc)⟩

theorem token_singleton {c : Char} (h : isBlank c = false) : Token [c] := by
  refine ⟨List.cons_ne_nil c [], fun d hd => ?_⟩
  rwa [List.mem_singleton.mp hd]

namespace Token

variable {token : List Char} (h : Token token)
include h

theorem head?_append (t : List Char) : ∃ c ∈ (token ++ t).head?, isBlank c = false := by
  obtain ⟨c, rest, rfl⟩ := List.exists_cons_of_ne_nil h.ne_nil
  exact ⟨c, rfl, h.notBlank c List.mem_cons_self⟩

theorem trimStart_append {gap : List Char} (hgap : gap.all isBlank = true) (t : List Char) :
    trimStart (gap ++ (token ++ t)) = token ++ t :=
  Text.trimStart_append hgap (h.head?_append t)

end Token

/-- A name is read up to where it ends. -/
theorem endsName_of_name? {t name rest : List Char} (h : name? t = some (name, rest)) :
    EndsName rest := by
  cases t with
  | nil => cases h
  | cons c t =>
      rw [name?] at h
      split at h
      · obtain ⟨-, rfl⟩ := Prod.mk.inj (Option.some.inj h)
        intro d hd
        have hnot := List.head?_dropWhile_not isNameChar t
        rwa [Option.mem_def.mp hd] at hnot
      · cases h

theorem endsName_of_trimStart {t : List Char} (h : EndsName (trimStart t)) : EndsName t := by
  cases t with
  | nil => exact h
  | cons c t =>
      cases hc : isBlank c with
      | true => exact endsName_cons (not_isNameChar_of_isBlank hc) t
      | false =>
          have hstart : trimStart (c :: t) = c :: t :=
            trimStart_of_head? fun d hd => Option.some.inj hd ▸ hc
          rwa [hstart] at h

section Respaced

variable {t u : List Char} {c : Char}

theorem respace_blanks_append {gap : List Char} (hgap : gap.all isBlank = true) (t : List Char) :
    respace (gap ++ t) = respace t :=
  congrArg ([' '].intercalate ·) (words_blanks_append hgap t)

theorem respace_blank_cons (hc : isBlank c = true) (t : List Char) :
    respace (c :: t) = respace t := by
  have hgap : [c].all isBlank = true := by simp [hc]
  exact respace_blanks_append hgap t

/-- What becomes of a text that follows a word. -/
def respaceAfter (t : List Char) : List Char :=
  match t with
  | [] => []
  | c :: rest =>
      if isBlank c then if words rest = [] then [] else ' ' :: respace rest
      else respace (c :: rest)

theorem intercalate_runs_append (hne : u ≠ []) (v t : List Char) :
    [' '].intercalate (runs isBlank (u ++ v) t) =
      v.reverse ++ [' '].intercalate (runs isBlank u t) := by
  have hempty : ¬ u.isEmpty = true := by simpa using hne
  have hempty' : ¬ (u ++ v).isEmpty = true := by simp [hne]
  induction t generalizing u with
  | nil =>
      rw [runs, runs, if_neg hempty, if_neg hempty', List.intercalate_singleton,
        List.intercalate_singleton, List.reverse_append]
  | cons c t ih =>
      rw [runs, runs, if_neg hempty, if_neg hempty']
      split
      · cases runs isBlank [] t with
        | nil => rw [List.intercalate_singleton, List.intercalate_singleton, List.reverse_append]
        | cons w us =>
            rw [List.intercalate_cons_cons, List.intercalate_cons_cons, List.reverse_append,
              List.append_assoc, List.append_assoc, List.append_assoc]
      · exact ih (List.cons_ne_nil c u) Bool.false_ne_true Bool.false_ne_true

/-- A character of a word stays in front of what becomes of the rest. -/
theorem respace_cons (hc : isBlank c = false) (t : List Char) :
    respace (c :: t) = c :: respaceAfter t := by
  rw [respace, words, runs, hc, if_neg Bool.false_ne_true]
  cases t with
  | nil => rfl
  | cons d t =>
      rw [runs, respaceAfter]
      split
      · rw [List.isEmpty_cons, if_neg Bool.false_ne_true, respace, words]
        cases runs isBlank [] t with
        | nil => rfl
        | cons w us =>
            rw [List.intercalate_cons_cons, if_neg (List.cons_ne_nil w us)]
            rfl
      · rename_i hd
        rw [respace, words, runs, if_neg hd]
        exact intercalate_runs_append (List.cons_ne_nil d []) [c] t

theorem respaceAfter_of_not_blank (hc : isBlank c = false) (t : List Char) :
    respaceAfter (c :: t) = c :: respaceAfter t := by
  rw [respaceAfter, hc, if_neg Bool.false_ne_true, respace_cons hc]

theorem respaceAfter_append (h : ∀ c ∈ u, isBlank c = false) (t : List Char) :
    respaceAfter (u ++ t) = u ++ respaceAfter t := by
  induction u with
  | nil => rfl
  | cons c u ih =>
      obtain ⟨hc, hu⟩ := List.forall_mem_cons.mp h
      rw [List.cons_append, respaceAfter_of_not_blank hc, ih hu, List.cons_append]

theorem Token.respace_append (h : Token u) (t : List Char) :
    respace (u ++ t) = u ++ respaceAfter t := by
  rw [← respaceAfter_append h.notBlank]
  obtain ⟨c, rest, rfl⟩ := List.exists_cons_of_ne_nil h.ne_nil
  have hc := h.notBlank c List.mem_cons_self
  rw [List.cons_append, respace_cons hc, respaceAfter_of_not_blank hc]

/-- What stands at the start of what becomes of a text stands at the start of the text. -/
theorem exists_of_respaceAfter {token rest : List Char} (h : ∀ c ∈ token, isBlank c = false)
    (heq : respaceAfter t = token ++ rest) :
    ∃ u, t = token ++ u ∧ respaceAfter u = rest := by
  induction token generalizing t with
  | nil => exact ⟨t, rfl, heq⟩
  | cons c token ih =>
      obtain ⟨hc, htoken⟩ := List.forall_mem_cons.mp h
      cases t with
      | nil => cases heq
      | cons d t =>
          cases hd : isBlank d with
          | true =>
              rw [respaceAfter, hd, if_pos rfl] at heq
              split at heq
              · cases heq
              · obtain ⟨rfl, -⟩ := List.cons.inj heq
                exact absurd hc (by decide)
          | false =>
              rw [respaceAfter_of_not_blank hd] at heq
              obtain ⟨rfl, hrest⟩ := List.cons.inj heq
              obtain ⟨u, rfl, hu⟩ := ih htoken hrest
              exact ⟨u, rfl, hu⟩

theorem endsName_respaceAfter_iff : EndsName (respaceAfter t) ↔ EndsName t := by
  cases t with
  | nil => exact Iff.rfl
  | cons c t =>
      cases hc : isBlank c with
      | false =>
          rw [respaceAfter_of_not_blank hc, EndsName, EndsName, List.head?_cons, List.head?_cons]
      | true =>
          refine iff_of_true ?_ (endsName_cons (not_isNameChar_of_isBlank hc) t)
          rw [respaceAfter, hc, if_pos rfl]
          split
          · exact endsName_nil
          · exact endsName_cons (by decide) _

theorem respace_of_blanks (h : t.all isBlank = true) : respace t = [] := by
  rw [← List.append_nil t, respace_blanks_append h]
  rfl

theorem all_isBlank_of_respace (h : (respace t).all isBlank = true) : t.all isBlank = true := by
  induction t with
  | nil => rfl
  | cons c t ih =>
      cases hc : isBlank c with
      | true =>
          rw [respace_blank_cons hc] at h
          rw [List.all_cons, hc, ih h, Bool.and_self]
      | false =>
          rw [respace_cons hc, List.all_cons, hc] at h
          cases h

/-- A text without words is blank. -/
theorem words_of_respace (h : respace t = []) : words t = [] := by
  have hblank : t.all isBlank = true := all_isBlank_of_respace (by rw [h]; rfl)
  rw [← List.append_nil t, words_blanks_append hblank]
  rfl

/-- After a word a text becomes what it becomes on its own, perhaps after a space. -/
theorem respaceAfter_cases (t : List Char) :
    respaceAfter t = respace t ∨ respaceAfter t = ' ' :: respace t ∧ respace t ≠ [] := by
  cases t with
  | nil => exact Or.inl rfl
  | cons c t =>
      rw [respaceAfter]
      split
      · rename_i hc
        rw [respace_blank_cons hc]
        split
        · rename_i hwords
          left
          rw [respace, hwords]
          rfl
        · rename_i hwords
          exact Or.inr ⟨rfl, fun hnil => hwords (words_of_respace hnil)⟩
      · exact Or.inl rfl

/-- The words of a text do not end with a space. -/
theorem not_isBlank_of_getLast?_respace (h : (respace t).getLast? = some c) :
    isBlank c = false := by
  induction t with
  | nil => cases h
  | cons d t ih =>
      cases hd : isBlank d with
      | true =>
          rw [respace_blank_cons hd] at h
          exact ih h
      | false =>
          rw [respace_cons hd, List.getLast?_cons] at h
          rcases respaceAfter_cases t with heq | ⟨heq, hne⟩
          · rw [heq] at h
            cases hlast : (respace t).getLast? with
            | none =>
                rw [hlast] at h
                exact Option.some.inj h ▸ hd
            | some e =>
                rw [hlast] at h
                exact ih (hlast.trans h)
          · rw [heq, List.getLast?_cons, List.getLast?_eq_some_getLast hne] at h
            exact ih ((List.getLast?_eq_some_getLast hne).trans h)

theorem trimStart_respace (t : List Char) : trimStart (respace t) = respace t := by
  induction t with
  | nil => rfl
  | cons c t ih =>
      cases hc : isBlank c with
      | true => rwa [respace_blank_cons hc]
      | false =>
          rw [respace_cons hc]
          exact trimStart_of_head? fun d hd => Option.some.inj hd ▸ hc

/-- A token at the start of the words of a text stands at its start, after blanks. -/
theorem Token.exists_of_respace {token gap rest : List Char} (h : Token token)
    (hgap : gap.all isBlank = true) (heq : respace t = gap ++ (token ++ rest)) :
    ∃ lead u, lead.all isBlank = true ∧ t = lead ++ (token ++ u) ∧ respaceAfter u = rest := by
  obtain ⟨lead, ht, hlead⟩ := exists_trimStart t
  have hwords : respace (trimStart t) = gap ++ (token ++ rest) := by
    rw [← heq, ← respace_blanks_append hlead (trimStart t), ← ht]
  cases hstart : trimStart t with
  | nil =>
      rw [hstart] at hwords
      obtain ⟨-, hnil⟩ := List.append_eq_nil_iff.mp hwords.symm
      exact absurd (List.append_eq_nil_iff.mp hnil).1 h.ne_nil
  | cons c u =>
      have hc : isBlank c = false := isBlank_of_head?_trimStart (by rw [hstart]; rfl)
      rw [hstart, respace_cons hc, ← respaceAfter_of_not_blank hc] at hwords
      -- The words start with no blank, so nothing stands before the token.
      obtain rfl : gap = [] := by
        cases gap with
        | nil => rfl
        | cons d gap =>
            rw [respaceAfter_of_not_blank hc] at hwords
            obtain ⟨rfl, -⟩ := List.cons.inj hwords
            rw [List.all_cons, hc] at hgap
            cases hgap
      obtain ⟨v, hv, hrest⟩ := exists_of_respaceAfter h.notBlank hwords
      exact ⟨lead, v, hlead, by rw [← hv, ← hstart]; exact ht, hrest⟩

end Respaced

namespace Spaced

variable {tokens : List (List Char)} {t lead : List Char} {c : Char}

theorem blanks_append (hlead : lead.all isBlank = true) (h : Spaced tokens t) :
    Spaced tokens (lead ++ t) := by
  cases h with
  | nil blanks =>
      apply nil
      rw [List.all_append, hlead, blanks, Bool.and_self]
  | @cons gap token rest _ blanks ends after =>
      rw [← List.append_assoc]
      refine cons ?_ ends after
      rw [List.all_append, hlead, blanks, Bool.and_self]

theorem token_append {token rest : List Char} (ends : isName token = true → EndsName rest)
    (after : Spaced tokens rest) : Spaced (token :: tokens) (token ++ rest) := by
  have hgap : ([] : List Char).all isBlank = true := rfl
  exact cons hgap ends after

/-- The blanks before a layout do not matter. -/
theorem of_blank_cons (hc : isBlank c = true) (htokens : ∀ token ∈ tokens, Token token)
    (h : Spaced tokens (c :: t)) : Spaced tokens t := by
  generalize heq : c :: t = u at h
  cases h with
  | nil blanks =>
      subst heq
      exact nil (Bool.and_eq_true_iff.mp blanks).2
  | @cons gap token rest tokens blanks ends after =>
      cases gap with
      | nil =>
          obtain ⟨d, hd, hblank⟩ := (List.forall_mem_cons.mp htokens).1.head?_append rest
          rw [List.nil_append] at heq
          rw [← heq] at hd
          obtain rfl := Option.some.inj hd
          rw [hc] at hblank
          cases hblank
      | cons d gap =>
          obtain ⟨rfl, rfl⟩ := List.cons.inj heq
          exact cons (Bool.and_eq_true_iff.mp blanks).2 ends after

theorem trimStart (htokens : ∀ token ∈ tokens, Token token) (h : Spaced tokens t) :
    Spaced tokens (trimStart t) := by
  induction t with
  | nil => exact h
  | cons c t ih =>
      cases hc : isBlank c with
      | true =>
          rw [Text.trimStart, List.dropWhile_cons_of_pos hc]
          exact ih (h.of_blank_cons hc htokens)
      | false =>
          rwa [Text.trimStart, List.dropWhile_cons_of_neg (by simp [hc])]

theorem respaceAfter_iff (htokens : ∀ token ∈ tokens, Token token) :
    Spaced tokens (respaceAfter t) ↔ Spaced tokens (respace t) := by
  rcases respaceAfter_cases t with heq | ⟨heq, -⟩
  · rw [heq]
  · have hspace : [' '].all isBlank = true := by decide
    rw [heq]
    exact ⟨of_blank_cons (by decide) htokens, blanks_append hspace⟩

theorem respace (htokens : ∀ token ∈ tokens, Token token) (h : Spaced tokens t) :
    Spaced tokens (respace t) := by
  induction h with
  | nil blanks =>
      rw [respace_of_blanks blanks]
      exact nil rfl
  | @cons gap token rest tokens blanks ends after ih =>
      obtain ⟨htoken, htokens⟩ := List.forall_mem_cons.mp htokens
      rw [respace_blanks_append blanks, htoken.respace_append]
      refine token_append ?_ ((respaceAfter_iff htokens).mpr (ih htokens))
      exact fun hname => endsName_respaceAfter_iff.mpr (ends hname)

theorem of_respace (htokens : ∀ token ∈ tokens, Token token)
    (h : Spaced tokens (Text.respace t)) : Spaced tokens t := by
  induction tokens generalizing t with
  | nil =>
      generalize heq : Text.respace t = u at h
      cases h with
      | nil blanks =>
          subst heq
          exact nil (all_isBlank_of_respace blanks)
  | cons token tokens ih =>
      obtain ⟨htoken, htokens⟩ := List.forall_mem_cons.mp htokens
      generalize heq : Text.respace t = u at h
      cases h with
      | cons blanks ends after =>
          obtain ⟨lead, v, hlead, rfl, rfl⟩ := htoken.exists_of_respace blanks heq
          refine cons hlead (fun hname => endsName_respaceAfter_iff.mp (ends hname)) ?_
          exact ih htokens ((respaceAfter_iff htokens).mp after)

/-- A text lays out the same tokens as its words with single spaces between them. -/
theorem respace_iff (htokens : ∀ token ∈ tokens, Token token) :
    Spaced tokens (Text.respace t) ↔ Spaced tokens t :=
  ⟨of_respace htokens, respace htokens⟩

theorem of_trimStart (h : Spaced tokens (Text.trimStart t)) : Spaced tokens t := by
  obtain ⟨lead, heq, hlead⟩ := exists_trimStart t
  rw [heq]
  exact blanks_append hlead h

theorem of_after? {token rest : List Char} (hafter : after? token t = some rest)
    (hends : isName token = true → EndsName rest) (h : Spaced tokens rest) :
    Spaced (token :: tokens) t := by
  rw [after?_eq_some_iff.mp hafter]
  exact token_append hends h

/-- A mark is no part of a name. -/
theorem of_mark {c : Char} {rest : List Char} (hc : isNameChar c = false)
    (hafter : after? [c] t = some rest) (h : Spaced tokens rest) :
    Spaced ([c] :: tokens) t := by
  refine of_after? hafter (fun hname => ?_) h
  rw [isNameChar_of_isName hname c List.mem_cons_self] at hc
  cases hc

theorem of_name? {name rest : List Char} (hname : name? t = some (name, rest))
    (h : Spaced tokens rest) : Spaced (name :: tokens) t := by
  rw [name?_append hname]
  exact token_append (fun _ => endsName_of_name? hname) h

end Spaced

/-- A layout of tokens without blanks at its end. -/
structure Tight (tokens : List (List Char)) (t : List Char) : Prop where
  spaced : Spaced tokens t
  ends : ∀ c ∈ t.getLast?, isBlank c = false

namespace Tight

variable {tokens : List (List Char)} {t rest : List Char}

theorem of_suffix (h : Tight tokens t) {tokens' : List (List Char)} (hsuffix : rest <:+ t)
    (hspaced : Spaced tokens' rest) : Tight tokens' rest := by
  refine ⟨hspaced, fun c hc => h.ends c ?_⟩
  obtain ⟨u, rfl⟩ := hsuffix
  rw [List.getLast?_append, Option.mem_def.mp hc]
  rfl

theorem eq_nil (h : Tight [] t) : t = [] := by
  obtain ⟨hspaced, hends⟩ := h
  cases hspaced with
  | nil blanks =>
      cases hlast : t.getLast? with
      | none => exact List.getLast?_eq_none_iff.mp hlast
      | some c =>
          have hblank := hends c hlast
          rw [List.all_eq_true.mp blanks c (List.mem_of_getLast? hlast)] at hblank
          cases hblank

/-- The first token of a layout, and the layout of the rest. -/
theorem uncons {token : List Char} (htoken : Token token) (h : Tight (token :: tokens) t) :
    ∃ rest, trimStart t = token ++ rest ∧ (isName token = true → EndsName rest) ∧
      Tight tokens rest := by
  cases h.spaced with
  | @cons gap _ rest _ blanks ends after =>
      refine ⟨rest, htoken.trimStart_append blanks _, ends, h.of_suffix ?_ after⟩
      exact (List.suffix_append token rest).trans (List.suffix_append gap _)

theorem trimStart (htokens : ∀ token ∈ tokens, Token token) (h : Tight tokens t) :
    Tight tokens (trimStart t) :=
  h.of_suffix (List.dropWhile_suffix isBlank) (h.spaced.trimStart htokens)

end Tight

theorem tight_respace {tokens : List (List Char)} {t : List Char}
    (htokens : ∀ token ∈ tokens, Token token) (h : Spaced tokens t) : Tight tokens (respace t) :=
  ⟨h.respace htokens, fun _ => not_isBlank_of_getLast?_respace⟩

end PluginContract.Text
