import PluginContract.Proofs.Json.Numbers
import PluginContract.Proofs.Text.Words

/-!
# Words and numbers

A value that is a single token, other than a string, is a word or a number. The reader takes such a
token alike wherever it stands, provided that the text after it does not go on with a number.
-/

namespace PluginContract.Json

open Reader Text

/-- A character of a word or a number. -/
def isAtomChar (c : Char) : Bool := c.isAlphanum || c == '+' || c == '-' || c == '.'

/-- A word or a number, with the value that the reader takes it to. -/
structure Atom where
  text : List Char
  value : Json
  ne_nil : text ≠ []
  chars : text.all isAtomChar = true
  noFields : value.fields? = none
  read : ∀ r, EndsNumber r → atom? (text ++ r) = .ok (value, r)

/-- Whether a text starts with no digit. -/
def EndsDigits (t : List Char) : Prop := ∀ c ∈ t.head?, isDigit c = false

/-- A sign before the digits of an exponent, if there is one, and whether it is a minus. -/
inductive PowerSign : Bool → List Char → Prop
  | none : PowerSign false []
  | plus : PowerSign false ['+']
  | minus : PowerSign true ['-']

section Characters

variable {c : Char} {t : List Char}

theorem isAtomChar_of_isDigit (h : isDigit c = true) : isAtomChar c = true := by
  rw [isDigit_eq] at h
  simp [isAtomChar, Char.isAlphanum, h]

theorem all_isAtomChar_of_digits (h : ∀ c ∈ t, isDigit c = true) : t.all isAtomChar = true :=
  List.all_eq_true.mpr fun c hc => isAtomChar_of_isDigit (h c hc)

theorem EndsFraction.endsDigits (h : EndsFraction t) : EndsDigits t := fun c hc => (h c hc).1

theorem EndsNumber.endsDigits (h : EndsNumber t) : EndsDigits t := h.endsFraction.endsDigits

end Characters

section Exponents

variable {t u rest sign digits : List Char} {c : Char} {negative : Bool} {power : Option Int}

theorem PowerSign.all_isAtomChar (h : PowerSign negative sign) : sign.all isAtomChar = true := by
  cases h <;> decide

/-- The digits of an exponent are taken up to their end. -/
theorem exponent_digits (hc : (c = 'e' || c = 'E') = true) (hsign : PowerSign negative sign)
    (hne : digits ≠ []) (hdigits : ∀ d ∈ digits, isDigit d = true) (h : EndsDigits rest) :
    exponent (c :: (sign ++ (digits ++ rest))) =
      (some (if negative then -(digitsValue digits : Int) else digitsValue digits), rest) := by
  have htake := takeWhile_append_of_head? hdigits h
  have hdrop := dropWhile_append_of_head? hdigits h
  have hempty : ¬ digits.isEmpty = true := by rwa [List.isEmpty_iff]
  cases hsign with
  | plus =>
      unfold exponent
      simp only [if_pos hc, List.singleton_append, htake, hdrop, if_neg hempty]
  | minus =>
      unfold exponent
      simp only [if_pos hc, List.singleton_append, htake, hdrop, if_neg hempty]
  | none =>
      obtain ⟨d, digits, rfl⟩ := List.exists_cons_of_ne_nil hne
      have hd := hdigits d List.mem_cons_self
      have hfirst {e : Char} (he : isDigit e = false) (more : List Char) :
          [] ++ (d :: digits ++ rest) = e :: more → False := by
        intro heq
        rw [List.nil_append, List.cons_append] at heq
        rw [(List.cons.inj heq).1, he] at hd
        cases hd
      rw [exponent, if_pos hc]
      · simp only [List.nil_append, htake, hdrop, if_neg hempty]
      · exact hfirst rfl
      · exact hfirst rfl

/-- The part of an exponent that stands before a rest, read alike before other rests. -/
def ReadsPower (power : Option Int) (u : List Char) : Prop :=
  u.all isAtomChar = true ∧
    ∀ r, EndsNumber r → EndsFraction (u ++ r) ∧ exponent (u ++ r) = (power, r)

theorem readsPower_nil : ReadsPower none [] :=
  ⟨rfl, fun _ hr => ⟨hr.endsFraction, exponent_of_endsNumber hr⟩⟩

theorem exists_readsPower_of_digits (hc : (c = 'e' || c = 'E') = true)
    (hsign : PowerSign negative sign) {unsigned : List Char}
    (h : (if (unsigned.takeWhile isDigit).isEmpty then (none, c :: (sign ++ unsigned))
      else (some (if negative then -(digitsValue (unsigned.takeWhile isDigit) : Int)
        else digitsValue (unsigned.takeWhile isDigit)), unsigned.dropWhile isDigit)) = (power, rest))
    (hrest : EndsNumber rest) : ∃ u, c :: (sign ++ unsigned) = u ++ rest ∧ ReadsPower power u := by
  have hletter : c = 'e' ∨ c = 'E' := by simpa using hc
  split at h
  · -- Without digits the letter is left, and it does not end a number.
    obtain ⟨-, rfl⟩ := Prod.mk.inj h
    obtain ⟨-, -, hsmall, hcapital⟩ := hrest c rfl
    exact absurd hletter (not_or.mpr ⟨hsmall, hcapital⟩)
  · rename_i hempty
    obtain ⟨rfl, rfl⟩ := Prod.mk.inj h
    have hdigits : ∀ d ∈ unsigned.takeWhile isDigit, isDigit d = true :=
      fun d hd => List.mem_takeWhile_imp hd
    refine ⟨c :: (sign ++ unsigned.takeWhile isDigit), ?_, ?_, fun r hr => ⟨?_, ?_⟩⟩
    · rw [List.cons_append, List.append_assoc, List.takeWhile_append_dropWhile]
    · rw [List.all_cons, List.all_append, hsign.all_isAtomChar, all_isAtomChar_of_digits hdigits]
      rcases hletter with rfl | rfl <;> decide
    · rintro d ⟨⟩
      rcases hletter with rfl | rfl <;> decide
    · rw [List.cons_append, List.append_assoc]
      exact exponent_digits hc hsign (by simpa using hempty) hdigits hr.endsDigits

theorem exists_readsPower (h : exponent t = (power, rest)) (hrest : EndsNumber rest) :
    ∃ u, t = u ++ rest ∧ ReadsPower power u := by
  have hnone (hsame : (none, t) = (power, rest)) : ∃ u, t = u ++ rest ∧ ReadsPower power u := by
    obtain ⟨rfl, rfl⟩ := Prod.mk.inj hsame
    exact ⟨[], rfl, readsPower_nil⟩
  unfold exponent at h
  split at h
  · split at h
    · rename_i hc
      dsimp only at h
      split at h
      · exact exists_readsPower_of_digits hc .minus h hrest
      · exact exists_readsPower_of_digits hc .plus h hrest
      · exact exists_readsPower_of_digits hc .none h hrest
    · exact hnone h
  · exact hnone h

end Exponents

section Numbers

variable {t rest digits places : List Char} {v : Json} {negative : Bool}

theorem exists_of_fraction (h : fraction t = (places, rest)) (hrest : EndsFraction rest) :
    ∃ u, t = u ++ rest ∧ u.all isAtomChar = true ∧
      ∀ r, EndsFraction r → EndsDigits (u ++ r) ∧ fraction (u ++ r) = (places, r) := by
  have hnone (hsame : ([], t) = (places, rest)) : ∃ u, t = u ++ rest ∧ u.all isAtomChar = true ∧
      ∀ r, EndsFraction r → EndsDigits (u ++ r) ∧ fraction (u ++ r) = (places, r) := by
    obtain ⟨rfl, rfl⟩ := Prod.mk.inj hsame
    exact ⟨[], rfl, rfl, fun r hr => ⟨hr.endsDigits, fraction_of_endsFraction hr⟩⟩
  unfold fraction at h
  split at h
  · rename_i more
    dsimp only at h
    split at h
    · exact hnone h
    · rename_i hempty
      obtain ⟨rfl, rfl⟩ := Prod.mk.inj h
      have hdigits : ∀ d ∈ more.takeWhile isDigit, isDigit d = true :=
        fun d hd => List.mem_takeWhile_imp hd
      refine ⟨'.' :: more.takeWhile isDigit, ?_, ?_, fun r hr => ⟨?_, ?_⟩⟩
      · rw [List.cons_append, List.takeWhile_append_dropWhile]
      · rw [List.all_cons, all_isAtomChar_of_digits hdigits]
        rfl
      · rintro d ⟨⟩
        rfl
      · rw [List.cons_append, fraction]
        simp only [takeWhile_append_of_head? hdigits hr.endsDigits,
          dropWhile_append_of_head? hdigits hr.endsDigits, if_neg hempty]
  · exact hnone h

theorem whole?_append (h : whole? t = some (digits, rest)) {r : List Char} (hr : EndsDigits r) :
    whole? (digits ++ r) = some (digits, r) := by
  unfold whole? at h
  split at h
  · obtain ⟨rfl, rfl⟩ := Prod.mk.inj (Option.some.inj h)
    rfl
  · rename_i c more hzero
    split at h
    · rename_i hc
      obtain ⟨rfl, rfl⟩ := Prod.mk.inj (Option.some.inj h)
      have hdigits : ∀ d ∈ more.takeWhile isDigit, isDigit d = true :=
        fun d hd => List.mem_takeWhile_imp hd
      rw [List.cons_append, whole?]
      · rw [if_pos hc, takeWhile_append_of_head? hdigits hr, dropWhile_append_of_head? hdigits hr]
      · exact hzero
    · cases h
  · cases h

/-- A number is read alike wherever it stands. -/
theorem exists_of_number? (h : number? negative t = .ok (v, rest)) (hrest : EndsNumber rest) :
    ∃ c u, t = (c :: u) ++ rest ∧ isDigit c = true ∧ u.all isAtomChar = true ∧
      v.fields? = none ∧ ∀ r, EndsNumber r → number? negative ((c :: u) ++ r) = .ok (v, r) := by
  have hfields : v.fields? = none := by
    cases readsNumber_of_number? h <;> rfl
  unfold number? at h
  split at h
  · cases h
  · rename_i digits after hwhole
    obtain ⟨rfl, hne, hdigits⟩ := whole?_eq_some hwhole
    rcases hfraction : fraction after with ⟨places, middle⟩
    rcases hexponent : exponent middle with ⟨power, last⟩
    simp only [hfraction, hexponent] at h
    obtain rfl : last = rest := by
      split at h
      · split at h
        · cases h
        · exact (Prod.mk.inj (Except.ok.inj h)).2
      · exact (Prod.mk.inj (Except.ok.inj h)).2
    obtain ⟨w, rfl, hw, hpower⟩ := exists_readsPower hexponent hrest
    obtain ⟨u, rfl, hu, hplaces⟩ := exists_of_fraction hfraction (hpower last hrest).1
    obtain ⟨c, digits, rfl⟩ := List.exists_cons_of_ne_nil hne
    obtain ⟨hc, hmore⟩ := List.forall_mem_cons.mp hdigits
    refine ⟨c, digits ++ (u ++ w), by simp, hc, ?_, hfields, fun r hr => ?_⟩
    · rw [List.all_append, List.all_append, all_isAtomChar_of_digits hmore, hu, hw]
      rfl
    · obtain ⟨hends, hpower⟩ := hpower r hr
      obtain ⟨hends, hplaces⟩ := hplaces (w ++ r) hends
      have hsplit : (c :: (digits ++ (u ++ w))) ++ r = (c :: digits) ++ (u ++ (w ++ r)) := by simp
      unfold number?
      rw [hsplit, whole?_append hwhole hends]
      simp only [hplaces, hpower]
      split at h
      · rename_i hinteger
        split at h
        · cases h
        rename_i hmost
        rw [if_pos hinteger, if_neg hmost, (Prod.mk.inj (Except.ok.inj h)).1]
      · rename_i hfloat
        rw [if_neg hfloat, (Prod.mk.inj (Except.ok.inj h)).1]

end Numbers

section Atoms

variable {t rest : List Char} {v : Json}

theorem exists_of_mem_atomConstants : ∀ entry ∈ atomConstants,
    ∃ a : Atom, a.text = entry.1.toList ∧ a.value = entry.2 := by
  intro entry hmem
  simp only [atomConstants, List.mem_cons, List.not_mem_nil, or_false] at hmem
  rcases hmem with rfl | rfl | rfl | rfl | rfl | rfl
  all_goals exact ⟨⟨_, _, by decide, by decide, rfl, fun _ _ => rfl⟩, rfl, rfl⟩

/-- What the reader takes as a single token is a word or a number. -/
theorem exists_of_atom? (h : atom? t = .ok (v, rest)) (hrest : EndsNumber rest) :
    ∃ a : Atom, t = a.text ++ rest ∧ a.value = v := by
  cases readsAtom_of_atom? h with
  | constant known starts =>
      obtain ⟨a, htext, hvalue⟩ := exists_of_mem_atomConstants _ known
      exact ⟨a, by rw [htext]; exact starts, hvalue⟩
  | negative starts number =>
      obtain ⟨c, u, rfl, hc, hu, hfields, hread⟩ := exists_of_number? number hrest
      refine ⟨⟨'-' :: c :: u, v, List.cons_ne_nil _ _, ?_, hfields, fun r hr => ?_⟩, starts, rfl⟩
      · rw [List.all_cons, List.all_cons, isAtomChar_of_isDigit hc, hu]
        rfl
      · rw [List.cons_append, List.cons_append, atom?_of_sign hc]
        exact hread r hr
  | number number =>
      obtain ⟨c, u, rfl, hc, hu, hfields, hread⟩ := exists_of_number? number hrest
      refine ⟨⟨c :: u, v, List.cons_ne_nil _ _, ?_, hfields, fun r hr => ?_⟩, rfl, rfl⟩
      · rw [List.all_cons, isAtomChar_of_isDigit hc, hu]
        rfl
      · rw [List.cons_append, atom?_of_digit hc]
        exact hread r hr

end Atoms

end PluginContract.Json
