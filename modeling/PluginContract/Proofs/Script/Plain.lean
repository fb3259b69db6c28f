import PluginContract.Proofs.Script.LiteralUnion
import PluginContract.Proofs.Text.Words

/-!
# Plain code

Without quotes and slashes all of a text is code: no comment is taken out of it and nothing
in it is masked. A quoted literal in between hides its inside only.
-/

namespace PluginContract.Script

open Text Region

/-- A character that opens no region. -/
def isPlain (c : Char) : Bool := !isQuote c && c != '/'

/-- A text in which nothing but code stands. -/
def Plain (t : List Char) : Prop := t.all isPlain = true

/-- A text as code. -/
def asCode (t : List Char) : List (Char × Role) := t.map (·, .code)

@[simp] theorem asCode_nil : asCode [] = [] := rfl

@[simp] theorem asCode_cons (c : Char) (t : List Char) :
    asCode (c :: t) = (c, .code) :: asCode t := rfl

@[simp] theorem asCode_append (u v : List Char) : asCode (u ++ v) = asCode u ++ asCode v :=
  List.map_append

section Plain

variable {u t : List Char}

theorem Plain.append {v : List Char} (hu : Plain u) (hv : Plain v) : Plain (u ++ v) := by
  rw [Plain, List.all_append, hu, hv]
  rfl

theorem isPlain_of_isNameChar {c : Char} (h : isNameChar c = true) : isPlain c = true := by
  have hslash : c ≠ '/' := ne_of_isNameChar h (by decide)
  rw [isPlain, isQuote_of_isNameChar h]
  simp [hslash]

theorem isPlain_of_isBlank {c : Char} (hc : isBlank c = true) : isPlain c = true := by
  rw [isPlain, Bool.and_eq_true, Bool.not_eq_true', bne_iff_ne]
  constructor
  · apply Bool.eq_false_iff.mpr
    intro hquote
    simp only [isQuote, Bool.or_eq_true, beq_iff_eq] at hquote
    rcases hquote with (rfl | rfl) | rfl <;> revert hc <;> decide
  · rintro rfl
    revert hc
    decide

theorem plain_of_blanks (h : u.all isBlank = true) : Plain u :=
  List.all_eq_true.mpr fun c hc => isPlain_of_isBlank (List.all_eq_true.mp h c hc)

theorem opened?_of_isPlain {c : Char} (hc : isPlain c = true) (before rest : List Char) :
    opened? before c rest = none := by
  obtain ⟨hquote, hslash⟩ := Bool.and_eq_true_iff.mp hc
  rw [opened?, if_neg (by simpa using hquote), if_neg (by simpa using hslash)]

theorem scanFrom_plain (h : Plain u) (before rest : List Char) :
    scanFrom before [] (u ++ rest) =
      asCode u ++ scanFrom (u.reverse ++ before) [] rest := by
  induction u generalizing before with
  | nil => rfl
  | cons c u ih =>
      obtain ⟨hc, hu⟩ := Bool.and_eq_true_iff.mp h
      simp only [List.cons_append, scanFrom, step, opened?_of_isPlain hc, Option.toList_none,
        asCode_cons, ih hu, List.reverse_cons, List.append_assoc]
      rfl

theorem scan_plain (h : Plain t) : scan t = asCode t := by
  have := scanFrom_plain h [] []
  rwa [List.append_nil, scanFrom, List.append_nil] at this

theorem stripComments_plain (h : Plain t) : stripComments t = t := by
  rw [stripComments, scan_plain h, asCode, List.map_map]
  exact List.map_id t

theorem maskFrom_plain (h : Plain u) (before rest : List Char) :
    maskFrom before [] (u ++ rest) = u ++ maskFrom (u.reverse ++ before) [] rest := by
  rw [maskFrom, scanFrom_plain h, List.map_append, asCode, List.map_map]
  exact congrArg (· ++ _) (List.map_id u)

end Plain

section Quoted

variable {quote : Char} {inside : List Char}

theorem quoted_of_notMem (hquote : quote ∉ inside) (hescape : '\\' ∉ inside) :
    Quoted quote inside := by
  induction inside with
  | nil => exact .nil
  | cons c inside ih =>
      obtain ⟨hq, hquote⟩ := not_or.mp (mt List.mem_cons.mpr hquote)
      obtain ⟨he, hescape⟩ := not_or.mp (mt List.mem_cons.mpr hescape)
      exact .plain (Ne.symm hq) (Ne.symm he) (ih hquote hescape)

variable (text : quote = '"' ∨ quote = '\'') (quoted : Quoted quote inside)
include text quoted

/-- The inside of a literal is masked, up to the quote that closes it. -/
theorem maskFrom_inside (before rest : List Char) :
    maskFrom before [.quoted quote] (inside ++ quote :: rest) =
      inside.map blanked ++
        quote :: maskFrom (quote :: (inside.reverse ++ before)) [] rest := by
  have hquote : isQuote quote = true := by
    rcases text with rfl | rfl <;> rfl
  have hbacktick : quote ≠ backtick := by
    rcases text with rfl | rfl <;> decide
  induction quoted generalizing before with
  | nil =>
      rw [List.nil_append, maskFrom, scanFrom_quoted_close hquote]
      rfl
  | @plain c inside hc he _ ih =>
      rw [List.cons_append, maskFrom, scanFrom_quoted_plain hc he hbacktick, List.map_cons]
      refine congrArg (blanked c :: ·) ((ih (c :: before)).trans ?_)
      rw [List.reverse_cons, List.append_assoc]
      rfl
  | @escaped c inside _ ih =>
      rw [List.cons_append, List.cons_append, maskFrom, scanFrom_quoted_escape, List.map_cons,
        List.map_cons]
      refine congrArg (blanked '\\' :: blanked c :: ·) ((ih (c :: '\\' :: before)).trans ?_)
      rw [List.reverse_cons, List.reverse_cons, List.append_assoc, List.append_assoc]
      rfl

theorem maskFrom_literal (before rest : List Char) :
    maskFrom before [] (quote :: (inside ++ quote :: rest)) =
      quote :: (inside.map blanked ++
        quote :: maskFrom (quote :: (inside.reverse ++ quote :: before)) [] rest) := by
  have hopen : maskFrom before [] (quote :: (inside ++ quote :: rest)) =
      quote :: maskFrom (quote :: before) [.quoted quote] (inside ++ quote :: rest) := by
    rcases text with rfl | rfl <;> rfl
  rw [hopen, maskFrom_inside text quoted]

theorem distanceOut?_inside (before rest : List Char) :
    distanceOut? before [.quoted quote] (inside ++ quote :: rest) = some inside.length := by
  have hquote : isQuote quote = true := by
    rcases text with rfl | rfl <;> rfl
  have hbacktick : quote ≠ backtick := by
    rcases text with rfl | rfl <;> decide
  induction quoted generalizing before with
  | nil =>
      rw [List.nil_append, distanceOut?, step_quoted_close hquote]
      rfl
  | @plain c inside hc he _ ih =>
      have hstep : step before c (inside ++ quote :: rest) [.quoted quote] = [.quoted quote] := by
        simp [step, hc, he, hbacktick]
      rw [List.cons_append, distanceOut?, hstep]
      dsimp only
      rw [ih]
      rfl
  | @escaped c inside _ ih =>
      rw [List.cons_append, List.cons_append]
      refine (congrArg (fun d => (d.map (· + 1)).map (· + 1)) (ih (c :: '\\' :: before))).trans ?_
      rfl

/-- The text of a literal is what stands between its quotes. -/
theorem literalText_literal (u rest : List Char) :
    literalText (u ++ quote :: (inside ++ quote :: rest)) u.length = inside := by
  rw [literalText, literalEnd?, List.drop_left]
  dsimp only
  rw [distanceOut?_inside text quoted]
  dsimp only
  rw [slice, ← List.drop_drop, List.drop_left, List.drop_one, List.tail_cons,
    show u.length + 1 + inside.length - (u.length + 1) = inside.length by omega, List.take_left]

end Quoted

end PluginContract.Script
