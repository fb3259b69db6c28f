import PluginContract.Proofs.Script.Scan
import PluginContract.Script.Literal

/-!
# Unions of string literals

A union of string literals is written as single- or double-quoted literals with bars
between them and blanks and comments around them. Its literals are exactly its members,
whatever the comments hold; a bar may also come first.
-/

namespace PluginContract.Script

open Text Region

/-- Blanks and comments that leave the text after them in code. -/
inductive Gap : List Char → Prop
  | nil : Gap []
  | blank {c : Char} {t : List Char} (blank : isBlank c = true) (rest : Gap t) : Gap (c :: t)
  /-- A line comment with its line feed. -/
  | line {body t : List Char} (oneLine : '\n' ∉ body) (rest : Gap t) :
      Gap ('/' :: '/' :: (body ++ '\n' :: t))
  | block {body t : List Char} (unclosed : ¬ ['*', '/'] <:+: body) (rest : Gap t) :
      Gap ('/' :: '*' :: (body ++ '*' :: '/' :: t))

/-- Blanks and comments up to the end of a text, which may come before the end of a comment. -/
inductive Trailing : List Char → Prop
  | gap {t : List Char} (gap : Gap t) : Trailing t
  | line {t body : List Char} (gap : Gap t) (oneLine : '\n' ∉ body) :
      Trailing (t ++ '/' :: '/' :: body)
  | block {t body : List Char} (gap : Gap t) (unclosed : ¬ ['*', '/'] <:+: body) :
      Trailing (t ++ '/' :: '*' :: body)

/-- The inside of a literal between such quotes, as written. -/
inductive Quoted (quote : Char) : List Char → Prop
  | nil : Quoted quote []
  | plain {c : Char} {body : List Char} (notQuote : c ≠ quote) (notEscape : c ≠ '\\')
      (rest : Quoted quote body) : Quoted quote (c :: body)
  | escaped {c : Char} {body : List Char} (rest : Quoted quote body) :
      Quoted quote ('\\' :: c :: body)

/-- A text from the first literal of a union on, with the insides of its literals. -/
inductive Members : List Char → List (List Char) → Prop
  | last {quote : Char} {body t : List Char} (text : quote = '"' ∨ quote = '\'')
      (quoted : Quoted quote body) (trailing : Trailing t) :
      Members (quote :: (body ++ quote :: t)) [body]
  | cons {quote : Char} {body g g' t : List Char} {bodies : List (List Char)}
      (text : quote = '"' ∨ quote = '\'') (quoted : Quoted quote body) (before : Gap g)
      (after : Gap g') (rest : Members t bodies) :
      Members (quote :: (body ++ quote :: (g ++ '|' :: (g' ++ t)))) (body :: bodies)

/-- A union of string literals, with the insides of its members as written. -/
inductive LiteralUnion : List Char → List (List Char) → Prop
  | plain {g t : List Char} {bodies : List (List Char)} (gap : Gap g)
      (members : Members t bodies) : LiteralUnion (g ++ t) bodies
  /-- A bar comes first. -/
  | barred {g g' t : List Char} {bodies : List (List Char)} (before : Gap g) (after : Gap g')
      (members : Members t bodies) : LiteralUnion (g ++ '|' :: (g' ++ t)) bodies

/-- In code, a text holds these literals as written, whatever comes before it. -/
def Holds (t : List Char) (bodies : List (List Char)) : Prop :=
  ∀ before, quotedContents none (scanFrom before [] t) = bodies

namespace Holds

variable {t : List Char} {bodies : List (List Char)}

theorem nil : Holds [] [] := by
  intro before
  rfl

/-- A character that opens nothing does not change the literals. -/
theorem code {c : Char} (hq : isQuote c = false) (hs : c ≠ '/') (h : Holds t bodies) :
    Holds (c :: t) bodies := by
  intro before
  have hopened : opened? before c t = none := by
    simp [opened?, hq, hs]
  simp only [scanFrom, step, hopened, Option.toList_none]
  exact h (c :: before)

theorem blank {c : Char} (hc : isBlank c = true) (h : Holds t bodies) :
    Holds (c :: t) bodies := by
  refine code ?_ ?_ h
  · apply Bool.eq_false_iff.mpr
    intro hq
    simp only [isQuote, Bool.or_eq_true, beq_iff_eq] at hq
    rcases hq with (rfl | rfl) | rfl <;> exact absurd hc (by decide)
  · rintro rfl
    exact absurd hc (by decide)

theorem bar (h : Holds t bodies) : Holds ('|' :: t) bodies :=
  code (by decide) (by decide) h

end Holds

/-- A line comment ends before its line feed, or with the text. -/
theorem quotedContents_lineComment {c : Char} {body t : List Char} {bodies : List (List Char)}
    (hb : '\n' ∉ body) (ht : ∀ d ∈ t.head?, d = '\n') (h : Holds t bodies)
    (before : List Char) :
    quotedContents none (scanFrom before [lineComment] (c :: (body ++ t))) = bodies := by
  induction body generalizing c before with
  | nil =>
      cases t with
      | nil => exact h before
      | cons d t =>
          obtain rfl := ht d rfl
          exact h (c :: before)
  | cons d body ih =>
      have hd : d ≠ '\n' := by
        rintro rfl
        exact hb List.mem_cons_self
      have hstep : step before c (d :: (body ++ t)) [lineComment] = [lineComment] := by
        simp [step, hd]
      rw [List.cons_append, scanFrom, hstep]
      exact ih (fun hm => hb (List.mem_cons_of_mem d hm)) (c :: before)

/-- A block comment goes on up to an asterisk and a slash. -/
theorem quotedContents_blockComment {body t : List Char} (hb : ¬ ['*', '/'] <:+: body)
    (ht : t.head? ≠ some '/') (before : List Char) :
    quotedContents none (scanFrom before [blockComment] (body ++ t)) =
      quotedContents none (scanFrom (body.reverse ++ before) [blockComment] t) := by
  induction body generalizing before with
  | nil => rfl
  | cons c body ih =>
      have hc : ¬ (c = '*' ∧ (body ++ t).head? = some '/') := by
        rintro ⟨rfl, hs⟩
        cases body with
        | nil => exact ht hs
        | cons d body =>
            obtain rfl := Option.some.inj hs
            exact hb ⟨[], body, rfl⟩
      have hstep : step before c (body ++ t) [blockComment] = [blockComment] := by
        simpa [step] using hc
      rw [List.cons_append, scanFrom, hstep, List.reverse_cons, List.append_assoc]
      exact ih (fun hm => hb (List.infix_cons hm)) (c :: before)

namespace Holds

variable {t : List Char} {bodies : List (List Char)}

theorem line {body : List Char} (hb : '\n' ∉ body) (ht : ∀ d ∈ t.head?, d = '\n')
    (h : Holds t bodies) : Holds ('/' :: '/' :: (body ++ t)) bodies := by
  intro before
  exact quotedContents_lineComment hb ht h ('/' :: before)

theorem block {body : List Char} (hb : ¬ ['*', '/'] <:+: body) (h : Holds t bodies) :
    Holds ('/' :: '*' :: (body ++ '*' :: '/' :: t)) bodies := by
  intro before
  have hbody := quotedContents_blockComment hb (t := '*' :: '/' :: t) (by simp)
    ('*' :: '/' :: before)
  exact hbody.trans (h _)

theorem lastBlock {body : List Char} (hb : ¬ ['*', '/'] <:+: body) :
    Holds ('/' :: '*' :: body) [] := by
  intro before
  have hbody := quotedContents_blockComment hb (t := []) (by simp) ('*' :: '/' :: before)
  rw [List.append_nil] at hbody
  exact hbody

theorem gap {g : List Char} (hg : Gap g) (h : Holds t bodies) : Holds (g ++ t) bodies := by
  induction hg with
  | nil => exact h
  | blank hc _ ih => exact ih.blank hc
  | line hb _ ih =>
      rw [List.cons_append, List.cons_append, List.append_assoc]
      refine line hb ?_ (ih.blank (by decide))
      rintro d ⟨⟩
      rfl
  | block hb _ ih =>
      rw [List.cons_append, List.cons_append, List.append_assoc]
      exact ih.block hb

theorem trailing (h : Trailing t) : Holds t [] := by
  cases h with
  | gap hg =>
      rw [← List.append_nil t]
      exact nil.gap hg
  | line hg hb =>
      apply gap hg
      rw [← List.append_nil (_ :: _)]
      exact nil.line hb (by simp)
  | block hg hb => exact (lastBlock hb).gap hg

end Holds

theorem scanFrom_quoted_close {quote : Char} (hq : isQuote quote = true)
    (before t : List Char) :
    scanFrom before [quoted quote] (quote :: t) =
      (quote, .closing) :: scanFrom (quote :: before) [] t := by
  rw [scanFrom, step_quoted_close hq]
  rfl

theorem scanFrom_quoted_plain {quote c : Char} (hc : c ≠ quote) (he : c ≠ '\\')
    (hb : quote ≠ backtick) (before t : List Char) :
    scanFrom before [quoted quote] (c :: t) =
      (c, .content) :: scanFrom (c :: before) [quoted quote] t := by
  have hstep : step before c t [quoted quote] = [quoted quote] := by
    simp [step, hc, he, hb]
  rw [scanFrom, hstep]
  rfl

theorem scanFrom_quoted_escape (quote c : Char) (before t : List Char) :
    scanFrom before [quoted quote] ('\\' :: c :: t) =
      ('\\', .content) :: (c, .content) :: scanFrom (c :: '\\' :: before) [quoted quote] t := rfl

/-- A quoted literal ends at its own quote, and its inside is collected as written. -/
theorem quotedContents_quoted {quote : Char} {body t : List Char} {bodies : List (List Char)}
    (hq : quote = '"' ∨ quote = '\'') (hb : Quoted quote body) (h : Holds t bodies)
    (inside before : List Char) :
    quotedContents (some inside) (scanFrom before [quoted quote] (body ++ quote :: t)) =
      (inside.reverse ++ body) :: bodies := by
  have hquote : isQuote quote = true := by
    rcases hq with rfl | rfl <;> rfl
  have hbacktick : quote ≠ backtick := by
    rcases hq with rfl | rfl <;> decide
  induction hb generalizing inside before with
  | nil =>
      rw [List.nil_append, scanFrom_quoted_close hquote, quotedContents, h, List.append_nil]
  | @plain c body hc he _ ih =>
      rw [List.cons_append, scanFrom_quoted_plain hc he hbacktick, quotedContents, ih,
        List.reverse_cons, List.append_assoc]
      rfl
  | @escaped c body _ ih =>
      rw [List.cons_append, List.cons_append, scanFrom_quoted_escape, quotedContents,
        quotedContents, ih, List.reverse_cons, List.reverse_cons, List.append_assoc,
        List.append_assoc]
      rfl

theorem Holds.quoted {quote : Char} {body t : List Char} {bodies : List (List Char)}
    (hq : quote = '"' ∨ quote = '\'') (hb : Quoted quote body) (h : Holds t bodies) :
    Holds (quote :: (body ++ quote :: t)) (body :: bodies) := by
  intro before
  have hinside := quotedContents_quoted hq hb h [] (quote :: before)
  rcases hq with rfl | rfl <;> exact hinside

theorem Members.holds {t : List Char} {bodies : List (List Char)} (h : Members t bodies) :
    Holds t bodies := by
  induction h with
  | last hq hb ht => exact .quoted hq hb (.trailing ht)
  | cons hq hb hg hg' _ ih => exact .quoted hq hb (.gap hg (.bar (.gap hg' ih)))

theorem LiteralUnion.holds {t : List Char} {bodies : List (List Char)}
    (h : LiteralUnion t bodies) : Holds t bodies := by
  cases h with
  | plain hg hm => exact .gap hg hm.holds
  | barred hg hg' hm => exact .gap hg (.bar (.gap hg' hm.holds))

/-- The literals of a union are its members, without their escapes. -/
theorem LiteralUnion.stringLiterals_eq {t : List Char} {bodies : List (List Char)}
    (h : LiteralUnion t bodies) : stringLiterals t = bodies.map unescape :=
  congrArg (List.map unescape) (h.holds [])

theorem Members.ne_nil {t : List Char} {bodies : List (List Char)} (h : Members t bodies) :
    bodies ≠ [] := by
  cases h <;> exact List.cons_ne_nil _ _

theorem LiteralUnion.ne_nil {t : List Char} {bodies : List (List Char)}
    (h : LiteralUnion t bodies) : bodies ≠ [] := by
  cases h with
  | plain _ hm => exact hm.ne_nil
  | barred _ _ hm => exact hm.ne_nil

/-- A character that a gap, a bar or a text literal may start with. -/
def startsUnion (c : Char) : Bool := isBlank c || c == '/' || c == '|' || c == '"' || c == '\''

theorem Gap.startsUnion {g : List Char} (h : Gap g) : ∀ c ∈ g.head?, startsUnion c = true := by
  cases h with
  | nil => simp
  | blank hb _ => simp [Script.startsUnion, hb]
  | line _ _ => simp [Script.startsUnion]
  | block _ _ => simp [Script.startsUnion]

theorem Members.startsUnion {t : List Char} {bodies : List (List Char)} (h : Members t bodies) :
    ∀ c ∈ t.head?, startsUnion c = true := by
  cases h with
  | last hq _ _ => rcases hq with rfl | rfl <;> simp [Script.startsUnion]
  | cons hq _ _ _ _ => rcases hq with rfl | rfl <;> simp [Script.startsUnion]

/-- A union starts with a blank, a comment, a bar or a quote. -/
theorem LiteralUnion.startsUnion {t : List Char} {bodies : List (List Char)}
    (h : LiteralUnion t bodies) : ∀ c ∈ t.head?, startsUnion c = true := by
  cases h with
  | @plain g t _ hg hm =>
      cases g with
      | nil => exact hm.startsUnion
      | cons c g => exact hg.startsUnion
  | @barred g g' t _ hg _ _ =>
      cases g with
      | nil => simp [Script.startsUnion]
      | cons c g => exact hg.startsUnion

theorem quotedContents_eq_nil {entries : List (Char × Role)}
    (h : ∀ c ∈ entries.map Prod.fst, isQuote c = false) : quotedContents none entries = [] := by
  induction entries with
  | nil => rfl
  | cons entry entries ih =>
      obtain ⟨c, role⟩ := entry
      have hrest := ih fun d hd => h d (List.mem_cons_of_mem c hd)
      cases role with
      | opening =>
          have hc := h c List.mem_cons_self
          have hne : ¬ (decide (c = '"') || decide (c = '\'')) = true := by
            rw [Bool.or_eq_true, decide_eq_true_eq, decide_eq_true_eq]
            rintro (rfl | rfl) <;> cases hc
          rw [quotedContents, if_neg hne, hrest]
      | _ => exact hrest

/-- A text without quotes has no literals. -/
theorem stringLiterals_eq_nil {t : List Char} (h : ∀ c ∈ t, isQuote c = false) :
    stringLiterals t = [] := by
  have hscan : ∀ c ∈ (scan t).map Prod.fst, isQuote c = false := by
    rw [scan, scanFrom_chars]
    exact h
  rw [stringLiterals, quotedContents_eq_nil hscan, List.map_nil]

theorem isQuote_of_isNameChar {c : Char} (h : isNameChar c = true) : isQuote c = false := by
  apply Bool.eq_false_iff.mpr
  intro hq
  simp only [isQuote, Bool.or_eq_true, beq_iff_eq] at hq
  rcases hq with (rfl | rfl) | rfl <;> exact absurd h (by decide)

theorem stringLiterals_of_isName {t : List Char} (h : isName t = true) :
    stringLiterals t = [] := by
  refine stringLiterals_eq_nil fun c hc => isQuote_of_isNameChar ?_
  cases t with
  | nil => cases hc
  | cons d t =>
      obtain ⟨hstart, hrest⟩ := Bool.and_eq_true_iff.mp h
      rcases List.mem_cons.mp hc with rfl | hc
      · exact isWord_of_isNameStart hstart
      · exact List.all_eq_true.mp hrest c hc

end PluginContract.Script
