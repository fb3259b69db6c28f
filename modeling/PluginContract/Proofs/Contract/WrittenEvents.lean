import PluginContract.Proofs.Contract.EventReduction
import PluginContract.Proofs.Script.Wrapping
import PluginContract.Proofs.Script.WrittenTexts

/-!
# Unions of events as they are written

A union of events is written as quoted texts with bars between them, perhaps with one
before the first, with blanks and comments around every token and with any number of
parentheses around it all. Its literals are just these texts in their order, whatever
stands in them and in the comments, and the events are the texts without repetitions.
-/

namespace PluginContract.Contract

open Text Files Script Source Resolution

/-- Blanks and comments between two tokens. -/
structure Spacing where
  chars : List Char
  gap : Gap chars

/-- A member of a union, with what stands around its literal. -/
structure WrittenMember where
  before : Spacing
  literal : WrittenText
  after : Spacing

/-- A type for events as it is written. -/
inductive WrittenEvents
  /-- A union, perhaps with a bar before its first member. -/
  | union (bar : Option Spacing) (first : WrittenMember) (others : List WrittenMember)
  | parens (before : Spacing) (inner : WrittenEvents) (after : Spacing)

/-- The text of a member. -/
def WrittenMember.text (w : WrittenMember) : List Char :=
  w.before.chars ++ (w.literal.text ++ w.after.chars)

namespace WrittenEvents

/-- The bar before the first member, if there is one. -/
def leadingBar : Option Spacing → List Char
  | none => []
  | some before => before.chars ++ ['|']

/-- The text of a type. -/
def text : WrittenEvents → List Char
  | union bar first others =>
      leadingBar bar ++ ['|'].intercalate ((first :: others).map WrittenMember.text)
  | parens before inner after => before.chars ++ '(' :: (inner.text ++ ')' :: after.chars)

/-- The quoted texts of a type. -/
def literals : WrittenEvents → List WrittenText
  | union _ first others => (first :: others).map WrittenMember.literal
  | parens _ inner _ => inner.literals

/-- The texts that the literals of a type stand for. -/
def values (w : WrittenEvents) : List (List Char) := w.literals.map WrittenText.value

section Literals

variable {rest : List Char} {bodies : List (List Char)}

theorem holds_member (w : WrittenMember) (h : Holds rest bodies) :
    Holds (w.text ++ rest) (w.literal.inside :: bodies) := by
  rw [WrittenMember.text, List.append_assoc, List.append_assoc]
  exact .gap w.before.gap (w.literal.holds (.gap w.after.gap h))

theorem holds_members (first : WrittenMember) (others : List WrittenMember)
    (h : Holds rest bodies) :
    Holds (['|'].intercalate ((first :: others).map WrittenMember.text) ++ rest)
      ((first :: others).map (fun w => w.literal.inside) ++ bodies) := by
  induction others generalizing first with
  | nil =>
      rw [List.map_singleton, List.intercalate_singleton]
      exact holds_member first h
  | cons next others ih =>
      rw [List.map_cons, List.map_cons, List.intercalate_cons_cons, List.append_assoc,
        List.append_assoc]
      exact holds_member first (.bar (ih next))

/-- A type holds its literals as they are written, whatever comes before and after it. -/
theorem holds (w : WrittenEvents) (h : Holds rest bodies) :
    Holds (w.text ++ rest) (w.literals.map WrittenText.inside ++ bodies) := by
  induction w generalizing rest bodies with
  | union bar first others =>
      have hmembers := holds_members first others h
      rw [text, literals, List.map_map, List.append_assoc]
      cases bar with
      | none => exact hmembers
      | some before =>
          rw [leadingBar, List.append_assoc]
          exact .gap before.gap (.bar hmembers)
  | parens before inner after ih =>
      have hafter : Holds (')' :: (after.chars ++ rest)) bodies :=
        .code (by decide) (by decide) (.gap after.gap h)
      rw [text, literals, List.append_assoc, List.cons_append, List.append_assoc]
      exact .gap before.gap (.code (by decide) (by decide) (ih hafter))

theorem stringLiterals_text (w : WrittenEvents) : stringLiterals w.text = w.values := by
  have hholds := w.holds Holds.nil []
  rw [List.append_nil, List.append_nil] at hholds
  rw [stringLiterals, scan, hholds, values, List.map_map]
  exact List.map_congr_left fun literal _ => literal.unescape_inside

theorem values_ne_nil (w : WrittenEvents) : w.values ≠ [] := by
  rw [values, ne_eq, List.map_eq_nil_iff]
  induction w with
  | union bar first others => exact List.cons_ne_nil _ _
  | parens before inner after ih => exact ih

end Literals

/-- What is written is what is read: the literals of a type are its texts in order, and the events
that it stands for are these without repetitions. -/
theorem decodes (w : WrittenEvents) :
    stringLiterals w.text = w.values ∧
      ∀ (project : Project) (tree : Tree) (m : Module) (seen : List Link) (cache : Cache),
        outcome (resolveEvents project tree w.text m seen) cache =
          (.ok (distinct (w.values.map String.ofList)), cache) := by
  refine ⟨w.stringLiterals_text, fun project tree m seen cache => ?_⟩
  have hliterals : stringLiterals (stripParens w.text) = w.values :=
    (stringLiterals_stripParens w.text).trans w.stringLiterals_text
  have hnonempty : w.values.isEmpty = false := List.isEmpty_eq_false_iff.mpr w.values_ne_nil
  have hname : isName (stripParens w.text) = false := by
    apply Bool.eq_false_iff.mpr
    intro hname
    exact w.values_ne_nil (hliterals.symm.trans (stringLiterals_of_isName hname))
  rw [resolveEvents, outcome_eventsWithin_of_not_name hname, reduction, hliterals, hnonempty]
  rfl

end WrittenEvents

end PluginContract.Contract
