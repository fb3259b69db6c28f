import PluginContract.Script.Role

/-!
# Steps of a scan

Masking a script and blanking its comments read the same roles character by
character. A step looks at the text around it only for what it opens and for one
character ahead, and it touches the innermost region only; so a scan leaves the
outermost literal at its own closing quote and nowhere else.
-/

namespace PluginContract.Script

open Text

theorem blanked_ne_of_isQuote {c : Char} (h : isQuote c = true) : blanked c ≠ c := by
  simp only [isQuote, Bool.or_eq_true, beq_iff_eq] at h
  rcases h with (rfl | rfl) | rfl <;> decide

theorem blanked_eq_self {c : Char} (h : blanked c = c) : c = ' ' ∨ c = '\n' := by
  unfold blanked at h
  split at h
  · exact Or.inr h.symm
  · exact Or.inl h.symm

theorem blanked_eq (c : Char) : blanked c = ' ' ∨ blanked c = '\n' := by
  unfold blanked
  split
  · exact Or.inr rfl
  · exact Or.inl rfl

namespace Role

/-- A character as a masked script shows it. -/
def shown (role : Role) (c : Char) : Char := if role.isShown then c else blanked c

/-- A character as a script without comments shows it. -/
def uncommented (role : Role) (c : Char) : Char := if role = .comment then blanked c else c

theorem uncommented_of_ne {role : Role} (h : role ≠ .comment) (c : Char) :
    role.uncommented c = c := if_neg h

@[simp] theorem uncommented_comment (c : Char) : comment.uncommented c = blanked c := rfl

@[simp] theorem shown_code (c : Char) : code.shown c = c := rfl

@[simp] theorem shown_opening (c : Char) : opening.shown c = c := rfl

@[simp] theorem shown_closing (c : Char) : closing.shown c = c := rfl

@[simp] theorem shown_content (c : Char) : content.shown c = blanked c := rfl

@[simp] theorem shown_comment (c : Char) : comment.shown c = blanked c := rfl

theorem between_nested (region next : Region) (outer after : List Region) :
    between (region :: next :: outer) after = content := rfl

end Role

/-- The masked script from a place on. -/
def maskFrom (before : List Char) (regions : List Region) (t : List Char) : List Char :=
  (scanFrom before regions t).map fun entry => entry.2.shown entry.1

/-- The script from a place on, with comments blanked out. -/
def uncommentFrom (before : List Char) (regions : List Region) (t : List Char) : List Char :=
  (scanFrom before regions t).map fun entry => entry.2.uncommented entry.1

theorem mask_eq (t : List Char) : mask t = maskFrom [] [] t := rfl

theorem stripComments_eq (t : List Char) : stripComments t = uncommentFrom [] [] t := rfl

@[simp] theorem maskFrom_nil (before : List Char) (regions : List Region) :
    maskFrom before regions [] = [] := rfl

@[simp] theorem uncommentFrom_nil (before : List Char) (regions : List Region) :
    uncommentFrom before regions [] = [] := rfl

/-- The regions so many characters further on. -/
def regionsFrom (before : List Char) (regions : List Region) : List Char → Nat → List Region
  | _, 0 => regions
  | [], _ + 1 => regions
  | c :: rest, n + 1 => regionsFrom (c :: before) (Region.step before c rest regions) rest n

/-- The regions around an offset. -/
def regionsAt (t : List Char) (n : Nat) : List Region := regionsFrom [] [] t n

@[simp] theorem regionsFrom_zero (before : List Char) (regions : List Region) (t : List Char) :
    regionsFrom before regions t 0 = regions := by
  cases t <;> rfl

@[simp] theorem regionsAt_zero (t : List Char) : regionsAt t 0 = [] := regionsFrom_zero [] [] t

theorem maskFrom_cons (before : List Char) (regions : List Region) (c : Char) (rest : List Char) :
    maskFrom before regions (c :: rest) =
      (Role.between regions (Region.step before c rest regions)).shown c ::
        maskFrom (c :: before) (Region.step before c rest regions) rest := rfl

theorem uncommentFrom_cons (before : List Char) (regions : List Region) (c : Char)
    (rest : List Char) :
    uncommentFrom before regions (c :: rest) =
      (Role.between regions (Region.step before c rest regions)).uncommented c ::
        uncommentFrom (c :: before) (Region.step before c rest regions) rest := rfl

namespace Region

/-- Whether a stack of regions lies in code: outside all regions, or in an interpolation. -/
def inCode : List Region → Bool
  | [] => true
  | interpolation _ :: _ => true
  | _ => false

/-- Whether a stack of regions lies in a quoted literal, however deep. -/
def inLiteral : List Region → Bool
  | [] => false
  | [quoted quote] => isQuote quote
  | [escaped quote] => isQuote quote
  | [_] => false
  | _ :: region :: outer => inLiteral (region :: outer)

theorem inLiteral_cons_cons (first second : Region) (outer : List Region) :
    inLiteral (first :: second :: outer) = inLiteral (second :: outer) := by
  cases first <;> rfl

theorem inLiteral_append (inner : List Region) {outer : List Region} (h : outer ≠ []) :
    inLiteral (inner ++ outer) = inLiteral outer := by
  obtain ⟨region, outer, rfl⟩ := List.exists_cons_of_ne_nil h
  induction inner with
  | nil => rfl
  | cons first inner ih =>
      rw [← ih]
      cases inner with
      | nil => exact inLiteral_cons_cons first region outer
      | cons second inner => exact inLiteral_cons_cons first second (inner ++ region :: outer)

/-- A step touches the innermost region only. -/
theorem step_cons (before : List Char) (c : Char) (rest : List Char) (region : Region)
    (outer : List Region) :
    ∃ inner, step before c rest (region :: outer) = inner ++ outer := by
  cases region with
  | quoted quote =>
      simp only [step]
      split
      · exact ⟨[escaped quote], rfl⟩
      · split
        · exact ⟨[], rfl⟩
        · split
          · exact ⟨[interpolation [], quoted quote], rfl⟩
          · exact ⟨[quoted quote], rfl⟩
  | escaped quote => exact ⟨[quoted quote], rfl⟩
  | interpolation closers =>
      simp only [step]
      split
      · rename_i region _
        exact ⟨[region, interpolation closers], rfl⟩
      · split
        · exact ⟨[], rfl⟩
        · rename_i closers _ _
          exact ⟨[interpolation _], rfl⟩
  | regex left =>
      simp only [step]
      split
      · exact ⟨[], rfl⟩
      · exact ⟨[regex (left - 1)], rfl⟩
  | lineComment =>
      simp only [step]
      split
      · exact ⟨[], rfl⟩
      · exact ⟨[lineComment], rfl⟩
  | blockOpening => exact ⟨[blockComment], rfl⟩
  | blockComment =>
      simp only [step]
      split
      · exact ⟨[blockClosing], rfl⟩
      · exact ⟨[blockComment], rfl⟩
  | blockClosing => exact ⟨[], rfl⟩

/-- A step in a quoted literal stays in it, or closes it at its own quote. -/
theorem inLiteral_step {regions : List Region} (h : inLiteral regions = true)
    (before : List Char) (c : Char) (rest : List Char) :
    inLiteral (step before c rest regions) = true ∨
      regions = [quoted c] ∧ isQuote c = true := by
  match regions, h with
  | [quoted quote], h =>
      by_cases he : c = '\\'
      · left
        simpa [step, he, inLiteral] using h
      · by_cases hq : c = quote
        · right
          exact ⟨by rw [hq], hq ▸ h⟩
        · left
          simp only [step, if_neg he, if_neg hq]
          split
          · simpa [inLiteral] using h
          · simpa [inLiteral] using h
  | [escaped quote], h =>
      left
      simpa [step, inLiteral] using h
  | region :: next :: outer, h =>
      left
      obtain ⟨inner, hs⟩ := step_cons before c rest region (next :: outer)
      rw [hs, inLiteral_append inner (List.cons_ne_nil _ _)]
      exact inLiteral_cons_cons region next outer ▸ h

theorem step_quoted_close {c : Char} (h : isQuote c = true) (before rest : List Char) :
    step before c rest [quoted c] = [] := by
  have he : c ≠ '\\' := by
    rintro rfl
    cases h
  simp [step, he]

/-- A quoted literal opens a region in itself at an opening brace only. -/
theorem head?_of_two_le_length_step {region : Region} (h : inLiteral [region] = true)
    {before : List Char} {c : Char} {rest : List Char}
    (hl : 2 ≤ (step before c rest [region]).length) : rest.head? = some '{' := by
  match region, h with
  | quoted quote, _ =>
      by_cases hb : (decide (quote = backtick) && decide (c = '$') &&
          decide (rest.head? = some '{')) = true
      · simp only [Bool.and_eq_true, decide_eq_true_eq] at hb
        exact hb.2
      · simp only [step, if_neg hb] at hl
        split at hl
        · simp at hl
        · split at hl <;> simp at hl
  | escaped quote, _ => simp [step] at hl

/-- Inside a quoted literal nothing is a comment. -/
theorem between_ne_comment {regions : List Region} (h : inLiteral regions = true)
    (after : List Region) : Role.between regions after ≠ .comment := by
  match regions, h with
  | [quoted quote], _ => cases after <;> simp [Role.between, isComment]
  | [escaped quote], _ => cases after <;> simp [Role.between, isComment]
  | region :: next :: outer, _ => simp [Role.between_nested]

/-- What a step opens is all that it reads of the text around it, the next character apart. -/
theorem step_congr {before before' rest rest' : List Char} {c : Char} {regions : List Region}
    (hopened : inCode regions = true → opened? before c rest = opened? before' c rest')
    (hhead : rest.head? = rest'.head?) :
    step before c rest regions = step before' c rest' regions := by
  cases regions with
  | nil => simp only [step, hopened rfl]
  | cons region outer =>
      cases region with
      | interpolation closers => simp only [step, hopened rfl]
      | _ => simp only [step, hhead]

theorem step_interpolation_of_opened {before rest : List Char} {c : Char} {region : Region}
    (h : opened? before c rest = some region) (closers : List Char) (outer : List Region) :
    step before c rest (interpolation closers :: outer) =
      region :: interpolation closers :: outer := by
  simp only [step, h]

theorem opened?_of_ne_slash {c : Char} (h : c ≠ '/') (before before' rest rest' : List Char) :
    opened? before c rest = opened? before' c rest' := by
  simp [opened?, h]

/-- Whether a code character opens a comment before the given text. -/
def opensComment (c : Char) (rest : List Char) : Bool :=
  c == '/' && (rest.head? == some '/' || rest.head? == some '*')

theorem opensComment_of_ne {c : Char} (h : c ≠ '/') (rest : List Char) :
    opensComment c rest = false := by
  simp [opensComment, h]

theorem eq_slash_of_opensComment {c : Char} {rest : List Char} (h : opensComment c rest = true) :
    c = '/' := by
  simp only [opensComment, Bool.and_eq_true, beq_iff_eq] at h
  exact h.1

theorem opensComment_congr {rest rest' : List Char} (h : rest.head? = rest'.head?) (c : Char) :
    opensComment c rest = opensComment c rest' := by
  simp only [opensComment, h]

theorem opened?_of_opensComment {c : Char} {rest : List Char} (h : opensComment c rest = true)
    (before : List Char) :
    opened? before c rest = some lineComment ∨ opened? before c rest = some blockOpening := by
  simp only [opensComment, Bool.and_eq_true, Bool.or_eq_true, beq_iff_eq] at h
  obtain ⟨rfl, hr | hr⟩ := h
  · left
    simp [opened?, hr, isQuote, backtick]
  · right
    simp [opened?, hr, isQuote, backtick]

theorem opened?_congr_of_opensComment {c : Char} {rest rest' : List Char}
    (h : opensComment c rest = true) (hhead : rest'.head? = rest.head?)
    (before before' : List Char) : opened? before' c rest' = opened? before c rest := by
  simp only [opensComment, Bool.and_eq_true, Bool.or_eq_true, beq_iff_eq] at h
  obtain ⟨rfl, hr | hr⟩ := h <;> simp [opened?, hhead, hr]

theorem opened?_slash {rest : List Char} (h : opensComment '/' rest = false)
    (before : List Char) :
    opened? before '/' rest =
      if expectsOperand before then (regexLength? false rest).map regex else none := by
  have hq : isQuote '/' = false := by decide
  simp only [opensComment, beq_self_eq_true, Bool.true_and, Bool.or_eq_false_iff,
    beq_eq_false_iff_ne, ne_eq] at h
  simp only [opened?, hq, Bool.false_eq_true, if_false, if_true]
  split
  · rename_i heq
    exact absurd heq h.1
  · rename_i heq
    exact absurd heq h.2
  · rfl

theorem opened?_slash_of_length {rest : List Char} {n : Nat}
    (h : opensComment '/' rest = false) (hn : regexLength? false rest = some n)
    (before : List Char) :
    opened? before '/' rest = if expectsOperand before then some (regex n) else none := by
  rw [opened?_slash h, hn, Option.map_some]

/-- What a slash in code opens that starts no comment. -/
theorem opened?_slash_cases {rest : List Char} (h : opensComment '/' rest = false)
    (before : List Char) :
    opened? before '/' rest = none ∨
      ∃ n, regexLength? false rest = some n ∧ opened? before '/' rest = some (regex n) := by
  rw [opened?_slash h]
  split
  · cases hn : regexLength? false rest with
    | none => exact Or.inl rfl
    | some n => exact Or.inr ⟨n, rfl, rfl⟩
  · exact Or.inl rfl

/-- What a code character opens that starts no comment. -/
theorem opened?_cases {c : Char} {rest : List Char} (h : opensComment c rest = false)
    (before : List Char) :
    opened? before c rest = none ∨
      isQuote c = true ∧ opened? before c rest = some (quoted c) ∨
      c = '/' ∧ ∃ n, opened? before c rest = some (regex n) := by
  by_cases hq : isQuote c = true
  · exact Or.inr (Or.inl ⟨hq, by simp [opened?, hq]⟩)
  · by_cases hc : c = '/'
    · subst hc
      rcases opened?_slash_cases h before with ho | ⟨n, -, ho⟩
      · exact Or.inl ho
      · exact Or.inr (Or.inr ⟨rfl, n, ho⟩)
    · exact Or.inl (by simp [opened?, hq, hc])

theorem between_of_opensComment {c : Char} {rest : List Char} (h : opensComment c rest = true)
    (before : List Char) : Role.between [] (step before c rest []) = .comment := by
  rcases opened?_of_opensComment h before with ho | ho <;>
    simp [step, ho, Role.between, isComment]

theorem between_of_not_opensComment {c : Char} {rest : List Char}
    (h : opensComment c rest = false) (before : List Char) :
    Role.between [] (step before c rest []) = .code ∨
      Role.between [] (step before c rest []) = .opening := by
  rcases opened?_cases h before with ho | ⟨-, ho⟩ | ⟨-, n, ho⟩ <;>
    simp [step, ho, Role.between, isComment]

/-- In code a masked script shows what a script without comments shows. -/
theorem shown_step_nil (before : List Char) (c : Char) (rest : List Char) :
    (Role.between [] (step before c rest [])).shown c =
      if opensComment c rest then ' ' else c := by
  cases h : opensComment c rest with
  | true =>
      obtain rfl := eq_slash_of_opensComment h
      rw [between_of_opensComment h]
      rfl
  | false => rcases between_of_not_opensComment h before with hr | hr <;> simp [hr]

theorem uncommented_step_nil (before : List Char) (c : Char) (rest : List Char) :
    (Role.between [] (step before c rest [])).uncommented c =
      if opensComment c rest then ' ' else c := by
  cases h : opensComment c rest with
  | true =>
      obtain rfl := eq_slash_of_opensComment h
      rw [between_of_opensComment h]
      rfl
  | false =>
      rcases between_of_not_opensComment h before with hr | hr <;> simp [hr, Role.uncommented]

theorem between_comment {region : Region} (h : region.isComment = true) (after : List Region) :
    Role.between [region] after = .comment := by
  cases after <;> simp [Role.between, h]

theorem between_regex_ne_comment (n : Nat) (outer after : List Region) :
    Role.between (regex n :: outer) after ≠ .comment := by
  cases outer with
  | nil => cases after <;> simp [Role.between, isComment]
  | cons region outer => simp [Role.between_nested]

end Region

theorem exists_of_take_succ {c : Char} {rest t : List Char} {n : Nat}
    (h : t.take (n + 1) = (c :: rest).take (n + 1)) :
    ∃ t', t = c :: t' ∧ t'.take n = rest.take n := by
  cases t with
  | nil => simp at h
  | cons d t =>
      obtain ⟨rfl, ht⟩ := List.cons.inj h
      exact ⟨t, rfl, ht⟩

/-- A regular expression is known from the characters that it takes. -/
theorem regexLength?_of_take {inClass : Bool} {t t' : List Char} {n : Nat}
    (h : regexLength? inClass t = some n) (ht : t'.take n = t.take n) :
    regexLength? inClass t' = some n := by
  fun_induction regexLength? inClass t generalizing t' n with
  | case1 => simp at h
  | case2 => simp at h
  | case3 inClass d rest ih =>
      obtain ⟨m, hm, rfl⟩ := Option.map_eq_some_iff.mp h
      obtain ⟨u, rfl, hu⟩ := exists_of_take_succ ht
      obtain ⟨v, rfl, hv⟩ := exists_of_take_succ hu
      simp [regexLength?, ih hm hv]
  | case4 => simp at h
  | case5 inClass c rest _ hn hs =>
      obtain rfl := Option.some.inj h
      obtain ⟨u, rfl, -⟩ := exists_of_take_succ ht
      simp [regexLength?, hn, hs]
  | case6 inClass c rest _ hn hs nextClass =>
      rename_i ih
      obtain ⟨m, hm, rfl⟩ := Option.map_eq_some_iff.mp h
      obtain ⟨u, rfl, hu⟩ := exists_of_take_succ ht
      simpa [regexLength?, hn, hs] using ih hm hu

end PluginContract.Script
