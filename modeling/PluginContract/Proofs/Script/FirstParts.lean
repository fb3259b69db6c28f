import PluginContract.Proofs.Script.Balanced

/-!
# The first part of a list

What stands before a list goes into its first part, and leaves the other parts as they are. So
blanks before a list are trimmed away, and a word before it is not.
-/

namespace PluginContract.Script

open Text

/-- The parts of a list of which the first one is collected, and the others are those after it. The
last part counts only if it is not empty. -/
def partsOf (first : List Char) : (after : Option (List (List Char))) → List (List Char)
  | some after => trim first :: after
  | none => if (trim first).isEmpty then [] else [trim first]

theorem partsOf_blanks_append {lead : List Char} (h : lead.all isBlank = true) (first : List Char)
    (after : Option (List (List Char))) : partsOf (lead ++ first) after = partsOf first after := by
  cases after <;> rw [partsOf, trim_blanks_append h] <;> rfl

theorem partsOf_cons {c : Char} (hc : isBlank c = false) (first : List Char)
    (after : Option (List (List Char))) :
    ∃ rest more, partsOf (c :: first) after = (c :: rest) :: more := by
  obtain ⟨rest, hrest⟩ := trim_cons hc first
  cases after with
  | some after => exact ⟨rest, after, by rw [partsOf, hrest]⟩
  | none => exact ⟨rest, [], by rw [partsOf, hrest]; rfl⟩

/-- The first part is in the list, or else it is empty. -/
theorem trim_eq_of_partsOf_eq {first first' : List Char} {after : Option (List (List Char))}
    (h : partsOf first after = partsOf first' after) : trim first = trim first' := by
  cases after with
  | some after => exact (List.cons.inj h).1
  | none =>
      rw [partsOf, partsOf] at h
      split at h <;> split at h
      · rename_i hfirst hfirst'
        rw [List.isEmpty_iff.mp hfirst, List.isEmpty_iff.mp hfirst']
      · cases h
      · cases h
      · exact (List.cons.inj h).1

section Split

variable {pairing : Pairing}

/-- A list is split in one way, whatever has been collected of its first part. -/
theorem exists_splitFrom (pairing : Pairing) (awaited : List Char) (before : Option Char)
    (s : List (Char × Role)) :
    ∃ first after, ∀ part, splitFrom pairing [','] awaited before 0 part s =
      partsOf (part.reverse ++ first) after := by
  induction s generalizing awaited before with
  | nil =>
      refine ⟨[], none, fun part => ?_⟩
      rw [List.append_nil]
      rfl
  | cons entry s ih =>
      obtain ⟨c, role⟩ := entry
      have hpass (next : List Char) :
          ∃ first after, ∀ part, splitFrom pairing [','] next (some c) 0 (c :: part) s =
            partsOf (part.reverse ++ first) after := by
        obtain ⟨first, after, h⟩ := ih next (some c)
        refine ⟨c :: first, after, fun part => ?_⟩
        rw [h, List.reverse_cons, List.append_assoc]
        rfl
      simp only [splitFrom]
      split
      · split
        · exact hpass _
        · split
          · refine ⟨[], some (splitFrom pairing [','] [] (some c) 0 [] s), fun part => ?_⟩
            rw [List.append_nil]
            rfl
          · exact hpass awaited
      · exact hpass awaited

/-- The character before matters only inside of angle brackets. -/
theorem splitFrom_before (before before' : Option Char) (part : List Char)
    (s : List (Char × Role)) :
    splitFrom pairing [','] [] before 0 part s = splitFrom pairing [','] [] before' 0 part s := by
  cases s with
  | nil => rfl
  | cons entry s =>
      obtain ⟨c, role⟩ := entry
      have hstep : bracketStep? pairing [] before c = bracketStep? pairing [] before' c := by
        rw [bracketStep?.eq_def, bracketStep?.eq_def]
        cases pairing c <;> rfl
      simp only [splitFrom, hstep]

end Split

section Commas

variable {t u : List Char}

/-- What is put before a list of plain code goes into its first part. -/
theorem exists_splitCommas_append (ht : Plain t) :
    ∃ first after, ∀ u, Balanced .brackets false u →
      splitCommas (u ++ t) = partsOf (u ++ first) after := by
  obtain ⟨first, after, h⟩ := exists_splitFrom .brackets [] none (scan t)
  refine ⟨first, after, fun u hu => ?_⟩
  have hscan : scan (u ++ t) = scan u ++ scan t :=
    (hu.selfContained Pairing.proper_brackets).scan_append (selfContained_plain ht)
  have hpass := hu.splitFrom_append Pairing.proper_brackets none [] (scan t)
  rw [splitCommas, split, hscan]
  refine hpass.trans ?_
  rw [splitFrom_before _ none, h, List.reverse_reverse, List.nil_append]

theorem splitCommas_blanks_append {lead : List Char} (hlead : lead.all isBlank = true)
    (ht : Plain t) : splitCommas (lead ++ t) = splitCommas t := by
  obtain ⟨first, after, h⟩ := exists_splitCommas_append ht
  have hbalanced : Balanced .brackets false lead :=
    balanced_words fun c hc => Or.inr (List.all_eq_true.mp hlead c hc)
  have halone := h [] .nil
  rw [h lead hbalanced, partsOf_blanks_append hlead]
  exact halone.symm

theorem splitCommas_append_ne (hu : Balanced .brackets false u)
    (hsolid : ∃ c ∈ u, isBlank c = false) (ht : Plain t) :
    splitCommas (u ++ t) ≠ splitCommas t := by
  obtain ⟨first, after, h⟩ := exists_splitCommas_append ht
  intro heq
  have halone := h [] .nil
  rw [List.nil_append, List.nil_append] at halone
  rw [h u hu, halone] at heq
  exact trim_append_ne hsolid first (trim_eq_of_partsOf_eq heq)

/-- The first part of a list starts as the list does, if that is with no blank and no comma. -/
theorem exists_splitCommas_cons {c : Char} (hblank : isBlank c = false) (hcomma : c ≠ ',')
    (t : List Char) : ∃ rest more, splitCommas (c :: t) = (c :: rest) :: more := by
  have hpass (role : Role) (next : List Char) (s : List (Char × Role)) :
      ∃ rest more, splitFrom .brackets [','] next (some c) 0 [c] s = (c :: rest) :: more := by
    obtain ⟨first, after, h⟩ := exists_splitFrom .brackets next (some c) s
    rw [h]
    exact partsOf_cons hblank first after
  rw [splitCommas, split, scan, scanFrom]
  generalize Role.between [] (Region.step [] c t []) = role
  generalize scanFrom [c] (Region.step [] c t []) t = s
  have hspells : spells [','] ((c, role) :: s) = false := by simp [spells, Ne.symm hcomma]
  rw [splitFrom]
  simp only [hspells, Bool.and_false]
  split
  · split
    · exact hpass role _ s
    · exact hpass role [] s
  · exact hpass role [] s

end Commas

end PluginContract.Script
