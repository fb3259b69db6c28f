import PluginContract.Proofs.Script.LiteralUnion

/-!
# Texts as they are written between quotes

A text stands between single or double quotes, with a backslash before its own quote and
before backslashes. Control characters may be named after a backslash, and any other
character may have one too, unless it would then name a control character. Whatever is
chosen, the literal ends at its closing quote and stands for the text.
-/

namespace PluginContract.Script

open Text

/-- The control characters that have a name, each with the character that names it after a
backslash. -/
def controlNames : List (Char × Char) := [('\n', 'n'), ('\t', 't'), ('\r', 'r'), ('\x00', '0')]

/-- The name of a control character. -/
def controlName? (c : Char) : Option Char :=
  (controlNames.find? fun entry => entry.1 = c).map Prod.snd

/-- Whether a character names a control character after a backslash. -/
def namesControl (c : Char) : Bool := controlNames.any fun entry => entry.2 = c

/-- A character as it stands between such quotes, with a backslash where one is needed, or asked for
and possible. -/
def spell (quote c : Char) (escaped : Bool) : List Char :=
  match controlName? c with
  | some name => if escaped then ['\\', name] else [c]
  | none =>
      if c = quote || c = '\\' || (escaped && !namesControl c) then ['\\', c] else [c]

/-- A quoted literal: its quote, and its characters with whether a backslash is asked for. -/
structure WrittenText where
  quote : Char
  isText : quote = '"' ∨ quote = '\''
  chars : List (Char × Bool)

namespace WrittenText

/-- The text that a literal stands for. -/
def value (w : WrittenText) : List Char := w.chars.map Prod.fst

/-- What stands between the quotes. -/
def inside (w : WrittenText) : List Char := w.chars.flatMap fun c => spell w.quote c.1 c.2

/-- A literal with its inside filled in. -/
def write (fill : List Char → List Char) (w : WrittenText) : List Char :=
  w.quote :: (fill w.inside ++ [w.quote])

/-- A literal as it is written. -/
def text (w : WrittenText) : List Char := w.write id

end WrittenText

section Spell

variable {quote c name : Char} {u : List Char}

theorem mem_controlNames (h : controlName? c = some name) : (c, name) ∈ controlNames := by
  obtain ⟨entry, hfind, rfl⟩ := Option.map_eq_some_iff.mp h
  obtain rfl : entry.1 = c := by simpa using List.find?_some hfind
  exact List.mem_of_find?_eq_some hfind

theorem unescape_named (h : (c, name) ∈ controlNames) (u : List Char) :
    unescape ('\\' :: name :: u) = c :: unescape u := by
  simp only [controlNames, List.mem_cons, Prod.mk.injEq, List.not_mem_nil, or_false] at h
  rcases h with ⟨rfl, rfl⟩ | ⟨rfl, rfl⟩ | ⟨rfl, rfl⟩ | ⟨rfl, rfl⟩ <;> rfl

/-- A character that names none stands for itself after a backslash. -/
theorem unescape_escaped (h : namesControl c = false) (u : List Char) :
    unescape ('\\' :: c :: u) = c :: unescape u := by
  simp only [namesControl, controlNames, List.any_cons, List.any_nil, Bool.or_false,
    Bool.or_eq_false_iff, decide_eq_false_iff_not, eq_comm (b := c)] at h
  simp [unescape, h]

theorem unescape_plain (hc : c ≠ '\\') (u : List Char) : unescape (c :: u) = c :: unescape u := by
  rw [unescape]
  rintro d rest rfl
  exact absurd rfl hc

/-- The ways in which a character stands between quotes. -/
theorem spell_cases (isText : quote = '"' ∨ quote = '\'') (c : Char) (escaped : Bool) :
    (c ≠ quote ∧ c ≠ '\\' ∧ spell quote c escaped = [c]) ∨
      ∃ d, spell quote c escaped = ['\\', d] ∧
        ∀ u, unescape ('\\' :: d :: u) = c :: unescape u := by
  have hother (d : Char) (hd : controlNames.all (fun entry => entry.1 != d) = true)
      {name : Char} (hname : controlName? c = some name) : c ≠ d := by
    have hne := List.all_eq_true.mp hd _ (mem_controlNames hname)
    simpa using hne
  rw [spell]
  cases hname : controlName? c with
  | some name =>
      cases escaped with
      | true => exact Or.inr ⟨name, rfl, unescape_named (mem_controlNames hname)⟩
      | false =>
          refine Or.inl ⟨?_, hother '\\' (by decide) hname, rfl⟩
          rcases isText with rfl | rfl
          · exact hother '"' (by decide) hname
          · exact hother '\'' (by decide) hname
  | none =>
      dsimp only
      split
      · rename_i h
        refine Or.inr ⟨c, rfl, unescape_escaped ?_⟩
        simp only [Bool.or_eq_true, decide_eq_true_eq, Bool.and_eq_true, Bool.not_eq_true'] at h
        rcases h with (rfl | rfl) | ⟨-, h⟩
        · rcases isText with rfl | rfl <;> decide
        · decide
        · exact h
      · rename_i h
        simp only [Bool.or_eq_true, decide_eq_true_eq, not_or] at h
        exact Or.inl ⟨h.1.1, h.1.2, rfl⟩

end Spell

namespace WrittenText

/-- Nothing inside a literal ends it early. -/
theorem quoted_inside (w : WrittenText) : Quoted w.quote w.inside := by
  rw [inside]
  induction w.chars with
  | nil => exact .nil
  | cons c chars ih =>
      rw [List.flatMap_cons]
      rcases spell_cases w.isText c.1 c.2 with ⟨hquote, hescape, hspell⟩ | ⟨d, hspell, -⟩
      · rw [hspell]
        exact .plain hquote hescape ih
      · rw [hspell]
        exact .escaped ih

/-- Reading the inside of a literal undoes all escapes. -/
theorem unescape_inside (w : WrittenText) : unescape w.inside = w.value := by
  rw [inside, value]
  induction w.chars with
  | nil => rfl
  | cons c chars ih =>
      rw [List.flatMap_cons, List.map_cons, ← ih]
      rcases spell_cases w.isText c.1 c.2 with ⟨-, hescape, hspell⟩ | ⟨d, hspell, hunescape⟩
      · rw [hspell]
        exact unescape_plain hescape _
      · rw [hspell]
        exact hunescape _

/-- A literal is read as written, whatever comes before and after it. -/
theorem holds (w : WrittenText) {rest : List Char} {bodies : List (List Char)}
    (h : Holds rest bodies) : Holds (w.text ++ rest) (w.inside :: bodies) := by
  rw [text, write, List.cons_append, List.append_assoc, List.singleton_append]
  exact .quoted w.isText w.quoted_inside h

end WrittenText

end PluginContract.Script
