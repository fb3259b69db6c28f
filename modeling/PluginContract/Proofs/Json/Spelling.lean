import PluginContract.Proofs.Json.Strings
import PluginContract.Proofs.Script.Terminated

/-!
# How strings are spelled

What stands between the quotes of a string token spells the string: each character as it is, by a
letter after a backslash, or by the digits of one code unit or two. The reader takes a text as a
string token exactly if it is so spelled. A spelling is also the inside of a literal of a script.
-/

namespace PluginContract.Json

open Reader

/-- Four hexadecimal digits that write a code unit. -/
structure UnitDigits (digits : List Char) (unit : Nat) : Prop where
  length : digits.length = 4
  isHex : ∀ c ∈ digits, (hexValue? c).isSome
  read : ∀ t, unit? (digits ++ t) = some (unit, t)

/-- The low surrogate that is escaped at the start of a text. -/
def lowUnit? (t : List Char) : Option Nat :=
  match t with
  | '\\' :: 'u' :: more =>
      match unit? more with
      | some (low, _) => if 0xDC00 ≤ low && low ≤ 0xDFFF then some low else none
      | none => none
  | _ => none

/-- The character of a code unit before an escaped low surrogate, or without one. -/
def joinedChar (unit : Nat) (low? : Option Nat) : Char × Nat :=
  if 0xD800 ≤ unit && unit ≤ 0xDBFF then
    match low? with
    | some low => (Char.ofNat (0x10000 + (unit - 0xD800) * 0x400 + (low - 0xDC00)), 6)
    | none => (Char.ofNat 0xFFFD, 0)
  else if 0xDC00 ≤ unit && unit ≤ 0xDFFF then (Char.ofNat 0xFFFD, 0)
  else (Char.ofNat unit, 0)

/-- An escaped code unit, or nothing. -/
def IsLow (t : List Char) : Prop :=
  t = [] ∨ ∃ digits unit, t = '\\' :: 'u' :: digits ∧ UnitDigits digits unit

/-- A text between quotes that spells a string. -/
inductive Spells : (written s : List Char) → Prop
  | nil : Spells [] []
  | plain {c : Char} {written s : List Char} (notQuote : c ≠ '"') (notEscape : c ≠ '\\')
      (notControl : ¬ c.toNat < 0x20) (rest : Spells written s) : Spells (c :: written) (c :: s)
  | short {c e : Char} {written s : List Char} (notUnit : e ≠ 'u')
      (escape : Reader.shortEscape? e = some c) (rest : Spells written s) :
      Spells ('\\' :: e :: written) (c :: s)
  | unit {c : Char} {unit : Nat} {digits low written s : List Char}
      (isUnit : UnitDigits digits unit)
      (isLow : IsLow low)
      (joined : joinedChar unit (lowUnit? (low ++ written)) = (c, low.length))
      (rest : Spells written s) : Spells ('\\' :: 'u' :: (digits ++ (low ++ written))) (c :: s)

section Units

variable {t rest digits : List Char} {unit : Nat} {c e : Char}

theorem exists_digits_of_unit? (h : unit? t = some (unit, rest)) :
    ∃ digits, t = digits ++ rest ∧ UnitDigits digits unit := by
  unfold unit? at h
  split at h
  · rename_i p q r s after
    simp only [Option.bind_eq_bind, Option.bind_eq_some_iff, Option.pure_def, Option.some.injEq,
      Prod.mk.injEq] at h
    obtain ⟨a, ha, b, hb, c, hc, d, hd, rfl, rfl⟩ := h
    refine ⟨[p, q, r, s], rfl, rfl, ?_, fun t => ?_⟩
    · simp [ha, hb, hc, hd]
    · simp only [List.cons_append, List.nil_append, unit?, ha, hb, hc, hd, Option.bind_eq_bind,
        Option.bind_some, Option.pure_def]
  · cases h

theorem lowUnit?_of_other (h : ∀ more, t ≠ '\\' :: 'u' :: more) : lowUnit? t = none := by
  unfold lowUnit?
  split
  · exact absurd rfl (h _)
  · rfl

theorem lowUnit?_of_ne (h : c ≠ '\\') (t : List Char) : lowUnit? (c :: t) = none :=
  lowUnit?_of_other fun _ heq => h (List.cons.inj heq).1

theorem lowUnit?_of_ne_unit (h : e ≠ 'u') (t : List Char) : lowUnit? ('\\' :: e :: t) = none :=
  lowUnit?_of_other fun _ heq => h (List.cons.inj (List.cons.inj heq).2).1

theorem escapedChar_eq (unit : Nat) (t : List Char) :
    escapedChar unit t = joinedChar unit (lowUnit? t) := by
  unfold escapedChar wholeChar?
  split
  · rename_i hhigh
    have hjoined (low? : Option Nat) : joinedChar unit low? =
        low?.elim (Char.ofNat 0xFFFD, 0) fun low =>
          (Char.ofNat (0x10000 + (unit - 0xD800) * 0x400 + (low - 0xDC00)), 6) := by
      cases low? <;> exact if_pos hhigh
    rw [hjoined]
    split
    · rename_i more
      rw [lowUnit?]
      rcases unit? more with _ | ⟨low, rest⟩
      · rfl
      · dsimp only
        split <;> rfl
    · rename_i hother
      rw [lowUnit?_of_other hother]
      rfl
  · rename_i hhigh
    unfold joinedChar
    rw [if_neg hhigh]
    split <;> rfl

/-- Whatever follows the digits of a unit, the unit is the same. -/
theorem lowUnit?_digits (h : UnitDigits digits unit) (t t' : List Char) :
    lowUnit? ('\\' :: 'u' :: (digits ++ t)) = lowUnit? ('\\' :: 'u' :: (digits ++ t')) := by
  rw [lowUnit?, lowUnit?, h.read, h.read]

theorem exists_digits_of_lowUnit? {low : Nat} (h : lowUnit? t = some low) :
    ∃ digits more, t = '\\' :: 'u' :: (digits ++ more) ∧ UnitDigits digits low := by
  unfold lowUnit? at h
  split at h
  · split at h
    · rename_i hunit
      obtain ⟨digits, rfl, hdigits⟩ := exists_digits_of_unit? hunit
      split at h
      · obtain rfl := Option.some.inj h
        exact ⟨digits, _, rfl, hdigits⟩
      · cases h
    · cases h
  · cases h

/-- What a code unit takes of the text after it. -/
theorem exists_isLow_of_joinedChar {extra : Nat} (h : joinedChar unit (lowUnit? t) = (c, extra)) :
    ∃ low more, t = low ++ more ∧ low.length = extra ∧ IsLow low := by
  have hnone (hzero : 0 = extra) : ∃ low more, t = low ++ more ∧ low.length = extra ∧ IsLow low :=
    ⟨[], t, rfl, hzero, Or.inl rfl⟩
  unfold joinedChar at h
  split at h
  · cases hlow : lowUnit? t with
    | none =>
        rw [hlow] at h
        exact hnone (Prod.mk.inj h).2
    | some low =>
        rw [hlow] at h
        obtain ⟨digits, more, rfl, hdigits⟩ := exists_digits_of_lowUnit? hlow
        refine ⟨'\\' :: 'u' :: digits, more, rfl, ?_, Or.inr ⟨digits, low, rfl, hdigits⟩⟩
        rw [List.length_cons, List.length_cons, hdigits.length]
        exact (Prod.mk.inj h).2
  · split at h
    · exact hnone (Prod.mk.inj h).2
    · exact hnone (Prod.mk.inj h).2

end Units

namespace Spells

variable {written s : List Char}

/-- The closing quote is no part of an escape. -/
theorem lowUnit?_append (h : Spells written s) (rest : List Char) :
    lowUnit? (written ++ '"' :: rest) = lowUnit? written := by
  cases h with
  | nil => rfl
  | plain notQuote notEscape notControl rest =>
      rw [List.cons_append, lowUnit?_of_ne notEscape, lowUnit?_of_ne notEscape]
  | short notUnit escape rest =>
      rw [List.cons_append, List.cons_append, lowUnit?_of_ne_unit notUnit,
        lowUnit?_of_ne_unit notUnit]
  | unit isUnit isLow joined rest =>
      rw [List.cons_append, List.cons_append, List.append_assoc]
      exact lowUnit?_digits isUnit _ _

theorem lowUnit?_isLow_append (h : Spells written s) {low : List Char} (hlow : IsLow low)
    (rest : List Char) :
    lowUnit? (low ++ (written ++ '"' :: rest)) = lowUnit? (low ++ written) := by
  rcases hlow with rfl | ⟨digits, unit, rfl, hdigits⟩
  · exact h.lowUnit?_append rest
  · exact lowUnit?_digits hdigits _ _

end Spells

/-- Characters of an escape are passed over. -/
theorem chars?_skip (u t : List Char) : chars? u.length (u ++ t) = chars? 0 t := by
  induction u with
  | nil => rfl
  | cons c u ih => rw [List.length_cons, List.cons_append, chars?, ih]

theorem chars?_unit {digits low t : List Char} {unit : Nat} {c : Char}
    (h : UnitDigits digits unit) (hjoined : joinedChar unit (lowUnit? (low ++ t)) = (c, low.length)) :
    chars? 0 ('\\' :: 'u' :: (digits ++ (low ++ t))) =
      (chars? 0 t).map fun found => (c :: found.1, found.2) := by
  have hlength : 5 + low.length = ('u' :: (digits ++ low)).length := by
    rw [List.length_cons, List.length_append, h.length]
    omega
  have hskip : chars? (5 + low.length) ('u' :: (digits ++ (low ++ t))) = chars? 0 t := by
    rw [hlength, ← chars?_skip ('u' :: (digits ++ low)) t, List.cons_append, List.append_assoc]
  rw [chars?, h.read]
  simp only [escapedChar_eq, hjoined, hskip]

/-- A spelled string is read up to its closing quote. -/
theorem Spells.chars?_append {written s : List Char} (h : Spells written s) (rest : List Char) :
    chars? 0 (written ++ '"' :: rest) = some (s, rest) := by
  induction h with
  | nil => rfl
  | plain notQuote notEscape notControl _ ih =>
      rw [List.cons_append, chars?_raw notQuote notEscape notControl, ih]
      rfl
  | short notUnit escape _ ih =>
      rw [List.cons_append, List.cons_append, chars?_short notUnit escape, ih]
      rfl
  | @unit c unit digits low written s isUnit isLow joined spelled ih =>
      have hlow := spelled.lowUnit?_isLow_append isLow rest
      rw [List.cons_append, List.cons_append, List.append_assoc, List.append_assoc,
        chars?_unit isUnit (hlow.symm ▸ joined), ih]
      rfl

/-- What the reader takes as the characters of a string spells them. -/
theorem exists_spells_of_chars? {skip : Nat} {t s rest : List Char}
    (h : chars? skip t = some (s, rest)) :
    ∃ u written, u.length = skip ∧ t = u ++ (written ++ '"' :: rest) ∧ Spells written s := by
  induction skip, t using chars?.induct generalizing s rest with
  | case1 => simp [chars?] at h
  | case2 skip c t ih =>
      obtain ⟨u, written, rfl, rfl, hspells⟩ := ih h
      exact ⟨c :: u, written, rfl, rfl, hspells⟩
  | case3 t =>
      obtain ⟨rfl, rfl⟩ := Prod.mk.inj (Option.some.inj h)
      exact ⟨[], [], rfl, rfl, .nil⟩
  | case4 => cases h
  | case5 after unit more hunit c extra hchar ih =>
      rw [chars?, hunit] at h
      simp only [hchar] at h
      obtain ⟨s, rfl, hfound⟩ := exists_of_map_cons h
      obtain ⟨u, written, hlength, heq, hspells⟩ := ih hfound
      obtain ⟨digits, rfl, hdigits⟩ := exists_digits_of_unit? hunit
      rw [escapedChar_eq] at hchar
      obtain ⟨low, more, rfl, rfl, hlow⟩ := exists_isLow_of_joinedChar hchar
      have hsplit : ('u' :: (digits ++ low)) ++ more = u ++ (written ++ '"' :: rest) := by
        rw [← heq, List.cons_append, List.append_assoc]
      have hlengths : ('u' :: (digits ++ low)).length = u.length := by
        rw [hlength, List.length_cons, List.length_append, hdigits.length]
        omega
      obtain ⟨rfl, rfl⟩ := List.append_inj hsplit hlengths
      rw [hspells.lowUnit?_isLow_append hlow] at hchar
      refine ⟨[], '\\' :: 'u' :: (digits ++ (low ++ written)), rfl, ?_,
        .unit hdigits hlow hchar hspells⟩
      simp
  | case6 after hunit =>
      rw [chars?, hunit] at h
      cases h
  | case7 e t hu c he ih =>
      rw [chars?_short hu he] at h
      obtain ⟨s, rfl, hfound⟩ := exists_of_map_cons h
      obtain ⟨u, written, hlength, heq, hspells⟩ := ih hfound
      obtain ⟨d, rfl⟩ := List.length_eq_one_iff.mp hlength
      obtain ⟨rfl, rfl⟩ := List.cons.inj heq
      exact ⟨[], '\\' :: e :: written, rfl, rfl, .short hu he hspells⟩
  | case8 e t hu he =>
      simp [chars?, he] at h
  | case9 c t hquote hbackslash hc =>
      simp [chars?, hc] at h
  | case10 c t hquote hbackslash hc ih =>
      rw [chars?_raw hquote hbackslash hc] at h
      obtain ⟨s, rfl, hfound⟩ := exists_of_map_cons h
      obtain ⟨u, written, hlength, rfl, hspells⟩ := ih hfound
      obtain rfl := List.eq_nil_of_length_eq_zero hlength
      exact ⟨[], c :: written, rfl, rfl, .plain hquote hbackslash hc hspells⟩

/-- A text is read as a string token if and only if it starts with a spelling between quotes. -/
theorem string?_eq_some_iff {t rest : List Char} {s : String} :
    string? t = some (s, rest) ↔
      ∃ written, t = '"' :: (written ++ '"' :: rest) ∧ Spells written s.toList := by
  constructor
  · intro h
    unfold string? at h
    split at h
    · obtain ⟨⟨s, after⟩, hfound, heq⟩ := Option.map_eq_some_iff.mp h
      obtain ⟨rfl, rfl⟩ := Prod.mk.inj heq
      obtain ⟨u, written, hlength, rfl, hspells⟩ := exists_spells_of_chars? hfound
      obtain rfl := List.eq_nil_of_length_eq_zero hlength
      exact ⟨written, rfl, by rwa [String.toList_ofList]⟩
    · cases h
  · rintro ⟨written, rfl, hspells⟩
    rw [string?, hspells.chars?_append, Option.map_some, String.ofList_toList]

section Literals

variable {written s digits : List Char} {unit : Nat}

theorem UnitDigits.quoted_append (h : UnitDigits digits unit) {t : List Char}
    (ht : Script.Quoted '"' t) : Script.Quoted '"' (digits ++ t) := by
  have hisHex := h.isHex
  clear h
  induction digits with
  | nil => exact ht
  | cons c digits ih =>
      obtain ⟨hc, hdigits⟩ := List.forall_mem_cons.mp hisHex
      refine .plain ?_ ?_ (ih hdigits)
      · rintro rfl
        cases hc
      · rintro rfl
        cases hc

/-- A spelling is the inside of a literal of a script. -/
theorem Spells.quoted (h : Spells written s) : Script.Quoted '"' written := by
  induction h with
  | nil => exact .nil
  | plain notQuote notEscape _ _ ih => exact .plain notQuote notEscape ih
  | short _ _ _ ih => exact .escaped ih
  | unit isUnit isLow _ _ ih =>
      refine .escaped (isUnit.quoted_append ?_)
      rcases isLow with rfl | ⟨digits', unit', rfl, isUnit'⟩
      · exact ih
      · exact .escaped (isUnit'.quoted_append ih)

end Literals

end PluginContract.Json
