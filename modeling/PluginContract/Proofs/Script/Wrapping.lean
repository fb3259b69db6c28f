import PluginContract.Script.Expression
import PluginContract.Proofs.Script.Balanced
import PluginContract.Proofs.Script.Shown
import PluginContract.Proofs.Script.Uncommented

/-!
# Expressions in parentheses

Blanks and parentheses around an expression are taken away. What stands in them keeps its
literals, and a balanced expression comes out whole.
-/

namespace PluginContract.Script

open Text Region

section Trimmed

variable {t u lead tail before : List Char} {c : Char} {regions : List Region}
  {current : Option (List Char)}

theorem takeWhile_isNameChar_append_blanks (hlead : lead.all isBlank = true) (u : List Char) :
    (u ++ lead).takeWhile isNameChar = u.takeWhile isNameChar := by
  induction u with
  | nil =>
      cases lead with
      | nil => rfl
      | cons c lead =>
          have hc : isBlank c = true := (Bool.and_eq_true_iff.mp hlead).1
          exact List.takeWhile_cons_of_neg (by simp [not_isNameChar_of_isBlank hc])
  | cons c u ih => rw [List.cons_append, List.takeWhile_cons, List.takeWhile_cons, ih]

/-- Blanks at the start of the text before a place are not looked back at. -/
theorem expectsOperand_append_blanks (hlead : lead.all isBlank = true) (before : List Char) :
    expectsOperand (before ++ lead) = expectsOperand before := by
  induction before with
  | nil =>
      have hdrop : lead.dropWhile isBlank = [] := by
        have hblanks : (lead ++ []).dropWhile isBlank = [] :=
          List.dropWhile_append_of_pos (List.all_eq_true.mp hlead)
        rwa [List.append_nil] at hblanks
      rw [List.nil_append, expectsOperand, hdrop]
      rfl
  | cons c before ih =>
      by_cases hc : isBlank c = true
      · simpa [expectsOperand, hc] using ih
      · have htake := takeWhile_isNameChar_append_blanks hlead (c :: before)
        rw [List.cons_append] at htake ⊢
        simp only [expectsOperand, List.dropWhile_cons_of_neg hc, htake]

/-- A scan is the same after blanks. -/
theorem scanFrom_append_blanks (hlead : lead.all isBlank = true) (before : List Char)
    (regions : List Region) (t : List Char) :
    scanFrom (before ++ lead) regions t = scanFrom before regions t := by
  induction t generalizing before regions with
  | nil => rfl
  | cons c t ih =>
      have hstep : step (before ++ lead) c t regions = step before c t regions := by
        refine step_congr (fun _ => ?_) rfl
        simp only [opened?, expectsOperand_append_blanks hlead]
      rw [scanFrom, scanFrom, hstep, ← List.cons_append, ih]

theorem slash_notMem_blanks (h : tail.all isBlank = true) : '/' ∉ tail := by
  intro hslash
  exact absurd (List.all_eq_true.mp h _ hslash) (by decide)

theorem quotedContents_asCode (u : List Char) (s : List (Char × Role)) :
    quotedContents current (asCode u ++ s) = quotedContents current s := by
  induction u with
  | nil => rfl
  | cons c u ih => cases current <;> exact ih

theorem stringLiterals_append_blanks (hlead : lead.all isBlank = true) (t : List Char) :
    stringLiterals (lead ++ t) = stringLiterals t := by
  have hreverse : lead.reverse.all isBlank = true := by rwa [List.all_reverse]
  have hblanks := scanFrom_append_blanks hreverse [] [] t
  rw [List.nil_append] at hblanks
  rw [stringLiterals, scan, scanFrom_plain (plain_of_blanks hlead), List.append_nil, hblanks,
    quotedContents_asCode]
  rfl

/-- No regular expression closes without a slash. -/
theorem regexLength?_eq_none (h : '/' ∉ t) (inClass : Bool) : regexLength? inClass t = none := by
  cases hn : regexLength? inClass t with
  | none => rfl
  | some n => exact absurd (List.mem_of_getElem? (getElem?_of_regexLength? hn)) h

theorem regexLength?_append (h : '/' ∉ tail) (inClass : Bool) (u : List Char) :
    regexLength? inClass (u ++ tail) = regexLength? inClass u := by
  fun_induction regexLength? inClass u with
  | case1 => exact regexLength?_eq_none h _
  | case2 =>
      cases tail with
      | nil => rfl
      | cons c tail =>
          have hnone := regexLength?_eq_none fun hmem => h (List.mem_cons_of_mem c hmem)
          simp [regexLength?, hnone]
  | case3 inClass d rest ih => simp [regexLength?, ih]
  | case4 inClass rest hne => simp [regexLength?]
  | case5 inClass c rest hne hn hs => simp [regexLength?, hn, hs]
  | case6 inClass c rest hne hn hs next ih => simp [regexLength?, hn, hs, ih, next]

theorem opened?_append_blanks (htail : tail.all isBlank = true) (before : List Char) (c : Char)
    (u : List Char) : opened? before c (u ++ tail) = opened? before c u := by
  cases u with
  | cons d u =>
      have hhead : ((d :: u) ++ tail).head? = (d :: u).head? := rfl
      simp only [opened?, hhead, regexLength?_append (slash_notMem_blanks htail)]
  | nil =>
      cases tail with
      | nil => rfl
      | cons d tail =>
          have hd : isBlank d = true := (Bool.and_eq_true_iff.mp htail).1
          have hslash : d ≠ '/' := by
            rintro rfl
            revert hd
            decide
          have hstar : d ≠ '*' := by
            rintro rfl
            revert hd
            decide
          have hregex := regexLength?_append (slash_notMem_blanks htail) false []
          rw [List.nil_append] at hregex ⊢
          simp [opened?, hslash, hstar, hregex]

/-- Blanks after a text change a step at its end only where they end a line comment. -/
theorem step_append_blanks (htail : tail.all isBlank = true) (before : List Char) (c : Char)
    (hline : u ≠ [] ∨ regions.head? ≠ some .lineComment) :
    step before c (u ++ tail) regions = step before c u regions := by
  have hopened := opened?_append_blanks htail before c u
  cases u with
  | cons d u => exact step_congr (fun _ => hopened) rfl
  | nil =>
      have hhead {d : Char} (hd : isBlank d = false) : tail.head? ≠ some d := by
        intro hhead
        have hblank := List.all_eq_true.mp htail d (List.mem_of_mem_head? hhead)
        rw [hblank] at hd
        cases hd
      have hbrace := hhead (by decide : isBlank '{' = false)
      have hslash := hhead (by decide : isBlank '/' = false)
      rw [List.nil_append] at hopened ⊢
      cases regions with
      | nil => simp only [step, hopened]
      | cons region outer =>
          cases region with
          | lineComment => exact absurd rfl (hline.resolve_left (absurd rfl))
          | interpolation closers => simp only [step, hopened]
          | quoted quote => simp [step, hbrace]
          | blockComment => simp [step, hslash]
          | escaped | regex | blockOpening | blockClosing => rfl

/-- Whether what is collected fits the regions around: a quoted literal that is read may be
collected, a regular expression is not. -/
def Collects (regions : List Region) (current : Option (List Char)) : Prop :=
  outsideLiterals regions = true ∨ inLiteral regions = true ∨
    (∃ n, regions = [.regex n]) ∧ current = none

/-- What is collected after a scanned character. -/
def collect (entry : Char × Role) (current : Option (List Char)) : Option (List Char) :=
  match entry.2, current with
  | .opening, _ => if entry.1 = '"' || entry.1 = '\'' then some [] else none
  | .content, some inside => some (entry.1 :: inside)
  | .closing, some _ => none
  | _, current => current

/-- The literal that a scanned character closes. -/
def emitted (entry : Char × Role) (current : Option (List Char)) : List (List Char) :=
  match entry.2, current with
  | .closing, some inside => [inside.reverse]
  | _, _ => []

theorem quotedContents_cons (entry : Char × Role) (s : List (Char × Role)) :
    quotedContents current (entry :: s) =
      emitted entry current ++ quotedContents (collect entry current) s := by
  obtain ⟨c, role⟩ := entry
  cases role <;> cases current <;> rfl

theorem Collects.step (h : Collects regions current) (before : List Char) (c : Char)
    (rest : List Char) :
    Collects (Region.step before c rest regions)
      (collect (c, Role.between regions (Region.step before c rest regions)) current) := by
  rcases h with houtside | hinside | ⟨⟨n, rfl⟩, rfl⟩
  · match regions, houtside with
    | [region], hcomment => exact Or.inl (outsideLiterals_step_comment hcomment before c rest)
    | [], _ =>
        cases ho : opensComment c rest with
        | true =>
            left
            rcases opened?_of_opensComment ho before with h | h <;> rw [Region.step, h] <;> rfl
        | false =>
            rcases opened?_cases ho before with h | ⟨hq, h⟩ | ⟨rfl, n, h⟩ <;> rw [Region.step, h]
            · exact Or.inl rfl
            · exact Or.inr (Or.inl (by simpa [inLiteral] using hq))
            · exact Or.inr (Or.inr ⟨⟨n, rfl⟩, rfl⟩)
  · rcases inLiteral_step hinside before c rest with hs | ⟨rfl, hq⟩
    · exact Or.inr (Or.inl hs)
    · left
      rw [step_quoted_close hq]
      rfl
  · by_cases hn : n ≤ 1
    · left
      rw [Region.step, if_pos hn]
      rfl
    · rw [Region.step, if_neg hn]
      exact Or.inr (Or.inr ⟨⟨n - 1, rfl⟩, rfl⟩)

/-- A blank closes no literal that is collected. -/
theorem Collects.emitted_blank (h : Collects regions current) (hc : isBlank c = true)
    (before rest : List Char) :
    emitted (c, Role.between regions (Region.step before c rest regions)) current = [] := by
  have hplain := isPlain_of_isBlank hc
  rcases h with houtside | hinside | ⟨-, rfl⟩
  · match regions, houtside with
    | [region], hcomment =>
        rw [between_comment hcomment]
        rfl
    | [], _ =>
        rw [Region.step, opened?_of_isPlain hplain]
        rfl
  · rcases inLiteral_step hinside before c rest with hs | ⟨rfl, hq⟩
    · have hne : Region.step before c rest regions ≠ [] := by
        intro hnil
        rw [hnil] at hs
        cases hs
      rw [between_of_inLiteral hinside hne]
      rfl
    · rw [isPlain, hq] at hplain
      cases hplain
  · cases Role.between regions (Region.step before c rest regions) <;> rfl

theorem quotedContents_blanks (htail : tail.all isBlank = true) (h : Collects regions current)
    (before : List Char) : quotedContents current (scanFrom before regions tail) = [] := by
  induction tail generalizing before regions current with
  | nil => rfl
  | cons c tail ih =>
      obtain ⟨hc, htail⟩ := Bool.and_eq_true_iff.mp htail
      rw [scanFrom, quotedContents_cons, h.emitted_blank hc, ih htail (h.step before c tail)]
      rfl

/-- Blanks at the end complete no literal, also where the text ends in one. -/
theorem quotedContents_append_blanks (htail : tail.all isBlank = true)
    (h : Collects regions current) (before u : List Char) :
    quotedContents current (scanFrom before regions (u ++ tail)) =
      quotedContents current (scanFrom before regions u) := by
  induction u generalizing before regions current with
  | nil => exact quotedContents_blanks htail h before
  | cons c u ih =>
      rw [List.cons_append, scanFrom, scanFrom, quotedContents_cons, quotedContents_cons]
      by_cases hline : u ≠ [] ∨ regions.head? ≠ some .lineComment
      · rw [step_append_blanks htail before c hline, ih (h.step before c u)]
      · obtain ⟨hu, hhead⟩ := not_or.mp hline
        obtain rfl := Decidable.not_not.mp hu
        obtain ⟨outer, rfl⟩ := List.head?_eq_some_iff.mp (Decidable.not_not.mp hhead)
        have hrole (after after' : List Region) :
            Role.between (.lineComment :: outer) after =
              Role.between (.lineComment :: outer) after' := by
          cases outer <;> rfl
        rw [List.nil_append, quotedContents_blanks htail (h.step before c tail), hrole]
        rfl

theorem stringLiterals_trim (t : List Char) : stringLiterals (trim t) = stringLiterals t := by
  obtain ⟨lead, tail, ht, hlead, htail⟩ := exists_trim t
  have hcollects : Collects [] none := Or.inl rfl
  calc
    stringLiterals (trim t) = stringLiterals (trim t ++ tail) :=
      congrArg (List.map unescape) (quotedContents_append_blanks htail hcollects [] _).symm
    _ = stringLiterals (lead ++ (trim t ++ tail)) := (stringLiterals_append_blanks hlead _).symm
    _ = stringLiterals t := by rw [← ht]

end Trimmed

section Unwrapped

variable {e : List Char}

/-- An expression that one pair of parentheses wraps as a whole. -/
theorem eq_of_matching? (h : matching? e 0 '(' ')' = some (e.length - 1)) :
    e = '(' :: ((e.drop 1).dropLast ++ [')']) ∧
      scan e = ('(', .code) :: (scan (e.drop 1).dropLast ++ [(')', .code)]) := by
  have hb : closingBracket? '(' = some ')' := rfl
  obtain ⟨rest, he, hleft, hlength⟩ := exists_of_matching? hb h
  generalize slice e (0 + 1) (e.length - 1) = inside at he hleft hlength
  rw [List.drop_zero] at he
  obtain rfl : rest = [] := by
    have hcount := congrArg List.length he
    simp only [List.length_cons, List.length_append] at hcount
    exact List.eq_nil_of_length_eq_zero (by omega)
  have hinside : (e.drop 1).dropLast = inside := by
    rw [he, List.drop_one, List.tail_cons, List.dropLast_concat]
  have hscan := scanFrom_append_of_left [] [] hb (unnoticed_closing hb []) hleft
  rw [hinside]
  refine ⟨he, ?_⟩
  rw [he, scan, scanFrom, step_bracket hb]
  exact congrArg (('(', Role.code) :: ·) hscan

theorem quotedContents_concat_code (current : Option (List Char)) (s : List (Char × Role))
    (c : Char) : quotedContents current (s ++ [(c, .code)]) = quotedContents current s := by
  induction s generalizing current with
  | nil => cases current <;> rfl
  | cons entry s ih => rw [List.cons_append, quotedContents_cons, quotedContents_cons, ih]

/-- Parentheses around an expression hold the same literals. -/
theorem stringLiterals_unwrap (e : List Char) : stringLiterals (unwrap e) = stringLiterals e := by
  induction e using unwrap.induct with
  | case1 e h ih =>
      rw [unwrap, dif_pos h, ih, stringLiterals_trim]
      have hcontents : quotedContents none (scan e) =
          quotedContents none (scan (e.drop 1).dropLast) := by
        rw [(eq_of_matching? h.2).2]
        exact quotedContents_concat_code none _ ')'
      rw [stringLiterals, stringLiterals, hcontents]
  | case2 e h => rw [unwrap, dif_neg h]

theorem stringLiterals_stripParens (e : List Char) :
    stringLiterals (stripParens e) = stringLiterals e := by
  rw [stripParens, stringLiterals_unwrap, stringLiterals_trim]

theorem mem_trim {t : List Char} {c : Char} (h : c ∈ t) (hc : isBlank c = false) : c ∈ trim t := by
  obtain ⟨lead, tail, ht, hlead, htail⟩ := exists_trim t
  have hnot {u : List Char} (hu : u.all isBlank = true) : c ∉ u := by
    intro hmem
    rw [List.all_eq_true.mp hu c hmem] at hc
    cases hc
  rw [ht] at h
  exact ((List.mem_append.mp ((List.mem_append.mp h).resolve_left (hnot hlead))).resolve_right
    (hnot htail))

/-- Nothing but blanks and parentheses is taken away. -/
theorem mem_stripParens {c : Char} (h : c ∈ e) (hc : isBlank c = false) (hopens : c ≠ '(')
    (hcloses : c ≠ ')') : c ∈ stripParens e := by
  have hunwrap {u : List Char} (hu : c ∈ u) : c ∈ unwrap u := by
    induction u using unwrap.induct with
    | case1 u hmatch ih =>
        rw [unwrap, dif_pos hmatch]
        refine ih (mem_trim ?_ hc)
        rw [(eq_of_matching? hmatch.2).1] at hu
        have hrest := (List.mem_cons.mp hu).resolve_left hopens
        exact (List.mem_append.mp hrest).resolve_right (by simpa using hcloses)
    | case2 u hmatch =>
        rw [unwrap, dif_neg hmatch]
        exact hu
  exact hunwrap (mem_trim h hc)

end Unwrapped

/-- An expression with so many pairs of parentheses around it. -/
def wrapped : Nat → List Char → List Char
  | 0, e => e
  | n + 1, e => '(' :: (wrapped n e ++ [')'])

section Wrapped

variable {e : List Char}

theorem balanced_wrapped {commas : Bool} (h : Balanced .brackets commas e) (n : Nat) :
    Balanced .brackets commas (wrapped n e) := by
  induction n with
  | zero => exact h
  | succ n ih =>
      have hround : Balanced .brackets commas ('(' :: (wrapped n e ++ ')' :: [])) :=
        .bracket rfl ih.allow nofun .nil
      exact hround

/-- A parenthesis is matched by the one right after balanced code. -/
theorem matching?_round {commas : Bool} {inside : List Char}
    (h : Balanced .brackets commas inside) (rest : List Char) :
    matching? ('(' :: (inside ++ ')' :: rest)) 0 '(' ')' = some (inside.length + 1) := by
  have hproper : (Pairing.brackets.also '(' ')').Proper := by
    rw [Pairing.also_round]
    exact Pairing.proper_brackets
  have hinside : Balanced (Pairing.brackets.also '(' ')') true inside := by
    rw [Pairing.also_round]
    exact h.allow
  have hclose := matching?_of_balanced hproper hinside nofun [] rest
  rwa [List.nil_append, List.length_nil, Nat.zero_add, Nat.add_comm] at hclose

theorem trim_inside_parens (h : Solid e) : trim (('(' :: (e ++ [')'])).drop 1).dropLast = e := by
  rw [List.drop_one, List.tail_cons, List.dropLast_concat]
  exact trim_of_solid h

/-- Parentheses around a balanced expression are taken away. -/
theorem unwrap_parens {commas : Bool} (h : Balanced .brackets commas e) (hsolid : Solid e) :
    unwrap ('(' :: (e ++ [')'])) = unwrap e := by
  have hmatch : matching? ('(' :: (e ++ [')'])) 0 '(' ')' =
      some (('(' :: (e ++ [')'])).length - 1) := by
    rw [matching?_round h]
    simp
  rw [unwrap, dif_pos ⟨rfl, hmatch⟩, trim_inside_parens hsolid]

theorem solid_between {c d : Char} (hc : isBlank c = false) (hd : isBlank d = false)
    (inside : List Char) : Solid (c :: (inside ++ [d])) :=
  (solid_singleton hc).append (solid_singleton hd) inside

theorem solid_wrapped (h : Solid e) (n : Nat) : Solid (wrapped n e) := by
  cases n with
  | zero => exact h
  | succ n => exact solid_between (by decide) (by decide) _

/-- Parentheses around a balanced expression are taken away, up to one that starts with no
parenthesis. -/
theorem stripParens_wrapped {commas : Bool} (h : Balanced .brackets commas e) (hsolid : Solid e)
    (hhead : e.head? ≠ some '(') (n : Nat) : stripParens (wrapped n e) = e := by
  rw [stripParens, trim_of_solid (solid_wrapped hsolid n)]
  induction n with
  | zero =>
      rw [unwrap, dif_neg]
      · rfl
      · exact fun hopens => hhead hopens.1
  | succ n ih => rw [wrapped, unwrap_parens (balanced_wrapped h n) (solid_wrapped hsolid n), ih]

end Wrapped

end PluginContract.Script
