import Mathlib.Algebra.Group.Nat.Defs
import Mathlib.Data.List.Basic
import Mathlib.Data.List.TakeWhile
import PluginContract.Json.Printer
import PluginContract.Json.Reader

/-!
# Integer tokens

The reader takes the decimal digits of a short integer back to it, provided that no digit, point
or exponent follows. An integer has no shorter text than its digits, so one that is read is short.
-/

namespace PluginContract.Json

open Reader

theorem isDigit_eq (c : Char) : isDigit c = c.isDigit := rfl

theorem toNat_of_isDigit {c : Char} (h : isDigit c = true) : 48 ≤ c.toNat ∧ c.toNat ≤ 57 := by
  simp only [isDigit, Bool.and_eq_true, decide_eq_true_eq, Char.le_def,
    UInt32.le_iff_toNat_le] at h
  exact h

theorem isDigit_of_mem_toDigits {c : Char} {n : Nat} (h : c ∈ Nat.toDigits 10 n) :
    isDigit c = true := by
  rw [isDigit_eq]
  exact Nat.isDigit_of_mem_toDigits (by decide) (by decide) h

theorem digitsValue_toDigits (n : Nat) : digitsValue (Nat.toDigits 10 n) = n :=
  Nat.ofDigitChars_ten_toDigits

/-- Only zero starts with a zero. -/
theorem head?_toDigits {n : Nat} (h : 0 < n) : (Nat.toDigits 10 n).head? ≠ some '0' := by
  induction n using Nat.base_induction 10 (by decide) with
  | single m hm =>
      rw [Nat.toDigits_of_lt_base hm]
      intro hzero
      have hvalue := Nat.toNat_digitChar_of_lt_ten hm
      rw [Option.some.inj hzero] at hvalue
      have : '0'.toNat = 48 := rfl
      omega
  | digit m k hk hm ih =>
      rw [← Nat.toDigits_append_toDigits (by decide) hm hk,
        List.head?_append_of_ne_nil _ Nat.toDigits_ne_nil]
      exact ih hm

/-- Whether a text may follow a number: it starts with no digit, point or exponent. -/
def EndsNumber (t : List Char) : Prop :=
  ∀ c ∈ t.head?, isDigit c = false ∧ c ≠ '.' ∧ c ≠ 'e' ∧ c ≠ 'E'

/-- The digits of a number are taken up to its end. -/
theorem whole?_toDigits (n : Nat) {t : List Char} (h : EndsNumber t) :
    whole? (Nat.toDigits 10 n ++ t) = some (Nat.toDigits 10 n, t) := by
  rcases Nat.eq_zero_or_pos n with rfl | hpos
  · rw [Nat.toDigits_zero]
    rfl
  · obtain ⟨c, digits, heq⟩ := List.exists_cons_of_ne_nil (Nat.toDigits_ne_nil (n := n) (b := 10))
    have hzero := head?_toDigits hpos
    have hdigits : ∀ d ∈ Nat.toDigits 10 n, isDigit d = true := fun d => isDigit_of_mem_toDigits
    rw [heq] at hzero hdigits ⊢
    obtain ⟨hc, hdigits⟩ := List.forall_mem_cons.mp hdigits
    have htake : t.takeWhile isDigit = [] := by
      cases t with
      | nil => rfl
      | cons d t => simp [(h d rfl).1]
    have hdrop : t.dropWhile isDigit = t := by
      cases t with
      | nil => rfl
      | cons d t => simp [(h d rfl).1]
    rw [List.cons_append, whole?]
    · rw [if_pos hc, List.takeWhile_append_of_pos hdigits, List.dropWhile_append_of_pos hdigits,
        htake, hdrop, List.append_nil]
    · intro hc
      exact hzero (congrArg some hc)

/-- Whether a text starts with no digit and no point. -/
def EndsFraction (t : List Char) : Prop := ∀ c ∈ t.head?, isDigit c = false ∧ c ≠ '.'

theorem EndsNumber.endsFraction {t : List Char} (h : EndsNumber t) : EndsFraction t :=
  fun c hc => ⟨(h c hc).1, (h c hc).2.1⟩

theorem fraction_of_endsFraction {t : List Char} (h : EndsFraction t) : fraction t = ([], t) := by
  unfold fraction
  split
  · exact absurd rfl (h '.' rfl).2
  · rfl

theorem exponent_of_endsNumber {t : List Char} (h : EndsNumber t) : exponent t = (none, t) := by
  unfold exponent
  split
  · rename_i c rest
    obtain ⟨-, -, hsmall, hcapital⟩ := h c rfl
    rw [if_neg]
    simp [hsmall, hcapital]
  · rfl

theorem tenTo_eq (n : Nat) : Decimal.tenTo n = 10 ^ n := rfl

theorem isShort_iff {n : Int} : isShort n = true ↔ n.natAbs < 10 ^ mostDigits := by
  rw [isShort, decide_eq_true_iff, tenTo_eq]

theorem length_toDigits_le_mostDigits {n : Nat} (h : n < 10 ^ mostDigits) :
    (Nat.toDigits 10 n).length ≤ mostDigits :=
  (Nat.length_toDigits_le_iff (by decide) (by decide)).mpr h

theorem number?_toDigits (negative : Bool) {n : Nat} (hn : n < 10 ^ mostDigits) {t : List Char}
    (h : EndsNumber t) :
    number? negative (Nat.toDigits 10 n ++ t) =
      .ok (.int (if negative then -(n : Int) else n), t) := by
  have hdigits : ¬ mostDigits < (Nat.toDigits 10 n).length :=
    Nat.not_lt.mpr (length_toDigits_le_mostDigits hn)
  unfold number?
  rw [whole?_toDigits n h]
  simp only [fraction_of_endsFraction h.endsFraction, exponent_of_endsNumber h,
    digitsValue_toDigits, if_neg hdigits]
  rfl

theorem isPrefixOf_cons_of_ne {c d : Char} (h : d ≠ c) (word t : List Char) :
    (d :: word).isPrefixOf (c :: t) = false := by
  simp [List.isPrefixOf, h]

/-- The words among atoms. -/
def atomWords : List String := ["null", "true", "false", "NaN", "Infinity", "-Infinity"]

/-- A text that starts with none of the words is read as a number. -/
theorem atom?_of_not_word (t : List Char) :
    (∀ word ∈ atomWords, word.toList.isPrefixOf t = false) →
      atom? t = match t with
        | '-' :: rest => number? true rest
        | _ => number? false t := by
  intro h
  have hword : ∀ word ∈ atomWords, ¬ word.toList.isPrefixOf t = true :=
    fun word hmem => Bool.eq_false_iff.mp (h word hmem)
  unfold atom?
  refine (if_neg (hword "null" (by decide))).trans ?_
  refine (if_neg (hword "true" (by decide))).trans ?_
  refine (if_neg (hword "false" (by decide))).trans ?_
  refine (if_neg (hword "NaN" (by decide))).trans ?_
  refine (if_neg (hword "Infinity" (by decide))).trans ?_
  exact if_neg (hword "-Infinity" (by decide))

/-- The words with their values. -/
def atomConstants : List (String × Json) :=
  [("null", .null), ("true", .bool true), ("false", .bool false), ("NaN", .float .notANumber),
    ("Infinity", .float (.infinite false)), ("-Infinity", .float (.infinite true))]

/-- What may be read as a single token: a word, or a number with its sign. -/
inductive ReadsAtom (t : List Char) (v : Json) (rest : List Char) : Prop
  | constant {word : String} (known : (word, v) ∈ atomConstants) (starts : t = word.toList ++ rest)
  | negative {more : List Char} (starts : t = '-' :: more)
      (number : number? true more = .ok (v, rest))
  | number (number : number? false t = .ok (v, rest))

theorem constant_cases {word : String} {value v : Json} {t rest : List Char}
    {otherwise : Except Fault (Json × List Char)}
    (h : (if word.toList.isPrefixOf t then .ok (value, t.drop word.length) else otherwise) =
      .ok (v, rest)) :
    (t = word.toList ++ rest ∧ value = v) ∨ otherwise = .ok (v, rest) := by
  split at h
  · rename_i hprefix
    obtain ⟨rfl, rfl⟩ := Prod.mk.inj (Except.ok.inj h)
    obtain ⟨more, rfl⟩ := List.isPrefixOf_iff_prefix.mp hprefix
    rw [← String.length_toList, List.drop_left]
    exact Or.inl ⟨rfl, rfl⟩
  · exact Or.inr h

theorem readsAtom_of_atom? {t rest : List Char} {v : Json} (h : atom? t = .ok (v, rest)) :
    ReadsAtom t v rest := by
  unfold atom? at h
  rcases constant_cases h with ⟨ht, rfl⟩ | h
  · exact .constant (by simp [atomConstants]) ht
  rcases constant_cases h with ⟨ht, rfl⟩ | h
  · exact .constant (by simp [atomConstants]) ht
  rcases constant_cases h with ⟨ht, rfl⟩ | h
  · exact .constant (by simp [atomConstants]) ht
  rcases constant_cases h with ⟨ht, rfl⟩ | h
  · exact .constant (by simp [atomConstants]) ht
  rcases constant_cases h with ⟨ht, rfl⟩ | h
  · exact .constant (by simp [atomConstants]) ht
  rcases constant_cases h with ⟨ht, rfl⟩ | h
  · exact .constant (by simp [atomConstants]) ht
  split at h
  · exact .negative rfl h
  · exact .number h

/-- Whether a word starts with neither a digit nor a sign before a digit. -/
def startsNoNumber : List Char → Bool
  | [] => false
  | d :: more => !isDigit d && (d != '-' || more.head?.any fun e => !isDigit e)

theorem startsNoNumber_of_mem_atomWords {word : String} (h : word ∈ atomWords) :
    startsNoNumber word.toList = true := by
  have hall : (atomWords.all fun word => startsNoNumber word.toList) = true := by decide
  exact List.all_eq_true.mp hall word h

theorem ne_of_isDigit {c d : Char} (hd : isDigit d = false) (hc : isDigit c = true) : d ≠ c := by
  rintro rfl
  rw [hd] at hc
  cases hc

theorem isPrefixOf_digit {word : List Char} (h : startsNoNumber word = true) {c : Char}
    (hc : isDigit c = true) (t : List Char) : word.isPrefixOf (c :: t) = false := by
  cases word with
  | nil => cases h
  | cons d more =>
      rw [startsNoNumber, Bool.and_eq_true, Bool.not_eq_true'] at h
      exact isPrefixOf_cons_of_ne (ne_of_isDigit h.1 hc) more t

theorem isPrefixOf_sign {word : List Char} (h : startsNoNumber word = true) {c : Char}
    (hc : isDigit c = true) (t : List Char) : word.isPrefixOf ('-' :: c :: t) = false := by
  cases word with
  | nil => cases h
  | cons d more =>
      rw [startsNoNumber, Bool.and_eq_true, Bool.or_eq_true, bne_iff_ne] at h
      rcases h.2 with hsign | hmore
      · exact isPrefixOf_cons_of_ne hsign more _
      · cases more with
        | nil => cases hmore
        | cons e more =>
            rw [List.head?_cons, Option.any_some, Bool.not_eq_true'] at hmore
            simp [List.isPrefixOf, ne_of_isDigit hmore hc]

theorem atom?_of_digit {c : Char} (h : isDigit c = true) (t : List Char) :
    atom? (c :: t) = number? false (c :: t) := by
  rw [atom?_of_not_word]
  · split
    · rename_i heq
      rw [(List.cons.inj heq).1] at h
      cases h
    · rfl
  · intro word hword
    exact isPrefixOf_digit (startsNoNumber_of_mem_atomWords hword) h t

theorem atom?_of_sign {c : Char} (h : isDigit c = true) (t : List Char) :
    atom? ('-' :: c :: t) = number? true (c :: t) := by
  refine (atom?_of_not_word _ ?_).trans rfl
  intro word hword
  exact isPrefixOf_sign (startsNoNumber_of_mem_atomWords hword) h t

theorem exists_toDigits_eq_cons (n : Nat) :
    ∃ c digits, Nat.toDigits 10 n = c :: digits ∧ isDigit c = true := by
  obtain ⟨c, digits, heq⟩ := List.exists_cons_of_ne_nil (Nat.toDigits_ne_nil (n := n) (b := 10))
  exact ⟨c, digits, heq, isDigit_of_mem_toDigits (n := n) (heq ▸ List.mem_cons_self)⟩

/-- An integer starts with a sign or a digit. -/
theorem exists_integerText_eq_cons (n : Int) :
    ∃ c more, integerText n = c :: more ∧ (c = '-' ∨ isDigit c = true) := by
  unfold integerText
  split
  · exact ⟨'-', _, rfl, Or.inl rfl⟩
  · obtain ⟨c, digits, heq, hc⟩ := exists_toDigits_eq_cons n.natAbs
    exact ⟨c, digits, heq, Or.inr hc⟩

/-- The text of a short integer is read back. -/
theorem atom?_integerText {n : Int} (hn : isShort n = true) {t : List Char} (h : EndsNumber t) :
    atom? (integerText n ++ t) = .ok (.int n, t) := by
  obtain ⟨c, digits, heq, hc⟩ := exists_toDigits_eq_cons n.natAbs
  unfold integerText
  split
  · rename_i hneg
    have hvalue : -(n.natAbs : Int) = n := by omega
    rw [heq, List.cons_append, List.cons_append, atom?_of_sign hc, ← List.cons_append, ← heq,
      number?_toDigits true (isShort_iff.mp hn) h, if_pos rfl, hvalue]
  · rename_i hneg
    have hvalue : (n.natAbs : Int) = n := by omega
    rw [heq, List.cons_append, atom?_of_digit hc, ← List.cons_append, ← heq,
      number?_toDigits false (isShort_iff.mp hn) h, if_neg Bool.false_ne_true, hvalue]

theorem digitsValue_lt {digits : List Char} (h : ∀ c ∈ digits, isDigit c = true) :
    digitsValue digits < 10 ^ digits.length := by
  induction digits with
  | nil => decide
  | cons c digits ih =>
      obtain ⟨hc, hdigits⟩ := List.forall_mem_cons.mp h
      have hvalue : digitsValue (c :: digits) =
          10 ^ digits.length * (c.toNat - '0'.toNat) + digitsValue digits := by
        have hsplit : Nat.ofDigitChars 10 digits (c.toNat - '0'.toNat) =
            10 ^ digits.length * (c.toNat - '0'.toNat) + Nat.ofDigitChars 10 digits 0 :=
          Nat.ofDigitChars_eq_ofDigitChars_zero
        simpa [digitsValue, Nat.ofDigitChars_eq_foldl] using hsplit
      have hnine : c.toNat - '0'.toNat ≤ 9 := by
        have hzero : '0'.toNat = 48 := rfl
        have hcode := toNat_of_isDigit hc
        omega
      calc
        digitsValue (c :: digits) =
            10 ^ digits.length * (c.toNat - '0'.toNat) + digitsValue digits := hvalue
        _ < 10 ^ digits.length * (c.toNat - '0'.toNat) + 10 ^ digits.length :=
          Nat.add_lt_add_left (ih hdigits) _
        _ ≤ 10 ^ digits.length * 9 + 10 ^ digits.length :=
          Nat.add_le_add_right (Nat.mul_le_mul_left _ hnine) _
        _ = 10 ^ (c :: digits).length := by
          rw [List.length_cons, Nat.pow_succ]
          omega

/-- Digits are no fewer than those of the number that they write. -/
theorem length_toDigits_le {digits : List Char} (hne : digits ≠ [])
    (h : ∀ c ∈ digits, isDigit c = true) :
    (Nat.toDigits 10 (digitsValue digits)).length ≤ digits.length :=
  (Nat.length_toDigits_le_iff (by decide) (List.length_pos_iff.mpr hne)).mpr (digitsValue_lt h)

theorem whole?_eq_some {t digits rest : List Char} (h : whole? t = some (digits, rest)) :
    t = digits ++ rest ∧ digits ≠ [] ∧ ∀ c ∈ digits, isDigit c = true := by
  unfold whole? at h
  split at h
  · obtain ⟨rfl, rfl⟩ := Prod.mk.inj (Option.some.inj h)
    refine ⟨rfl, List.cons_ne_nil _ _, ?_⟩
    intro c hc
    rw [List.mem_singleton.mp hc]
    rfl
  · split at h
    · rename_i c t _ hc
      obtain ⟨rfl, rfl⟩ := Prod.mk.inj (Option.some.inj h)
      refine ⟨?_, List.cons_ne_nil _ _, ?_⟩
      · rw [List.cons_append, List.takeWhile_append_dropWhile]
      · exact List.forall_mem_cons.mpr ⟨hc, fun d hd => List.mem_takeWhile_imp hd⟩
    · cases h
  · cases h

theorem fraction_cases (t : List Char) :
    fraction t = ([], t) ∨ (fraction t).1 ≠ [] ∧ (fraction t).2.length ≤ t.length := by
  unfold fraction
  split
  · rename_i rest
    dsimp only
    split
    · exact Or.inl rfl
    · rename_i hne
      right
      constructor
      · rwa [List.isEmpty_iff] at hne
      · exact Nat.le_succ_of_le (List.length_dropWhile_le isDigit rest)
  · exact Or.inl rfl

/-- Digits after the letter of an exponent and its sign are taken, if there are any. -/
theorem exponentDigits_cases (value : Nat → Int) {unsigned t : List Char}
    (h : unsigned.length ≤ t.length) :
    let found :=
      if (unsigned.takeWhile isDigit).isEmpty then (none, t)
      else (some (value (digitsValue (unsigned.takeWhile isDigit))), unsigned.dropWhile isDigit)
    found = (none, t) ∨ found.1 ≠ none ∧ found.2.length ≤ t.length := by
  intro found
  by_cases hdigits : (unsigned.takeWhile isDigit).isEmpty = true
  · exact Or.inl (if_pos hdigits)
  · right
    have hfound : found = (some (value (digitsValue (unsigned.takeWhile isDigit))),
        unsigned.dropWhile isDigit) := if_neg hdigits
    rw [hfound]
    exact ⟨Option.some_ne_none _, Nat.le_trans (List.length_dropWhile_le isDigit unsigned) h⟩

theorem exponent_cases (t : List Char) :
    exponent t = (none, t) ∨ (exponent t).1 ≠ none ∧ (exponent t).2.length ≤ t.length := by
  unfold exponent
  split
  · split
    · dsimp only
      split
      · apply exponentDigits_cases (fun n => -(n : Int))
        simp only [List.length_cons]
        omega
      · apply exponentDigits_cases (fun n => (n : Int))
        simp only [List.length_cons]
        omega
      · exact exponentDigits_cases (fun n => (n : Int)) (Nat.le_succ _)
    · exact Or.inl rfl
  · exact Or.inl rfl

/-- What a number leaves is no longer than what its fraction and exponent start from. -/
theorem length_exponent_fraction_le (t : List Char) :
    (exponent (fraction t).2).2.length ≤ t.length := by
  have hfraction : (fraction t).2.length ≤ t.length := by
    rcases fraction_cases t with h | ⟨-, h⟩
    · rw [h]
    · exact h
  rcases exponent_cases (fraction t).2 with h | ⟨-, h⟩
  · rw [h]
    exact hfraction
  · exact Nat.le_trans h hfraction

theorem exponent_fraction_of_integer {t : List Char} (hplaces : (fraction t).1 = [])
    (hpower : (exponent (fraction t).2).1 = none) : (exponent (fraction t).2).2 = t := by
  rcases fraction_cases t with h | ⟨hne, -⟩
  · rw [h] at hpower ⊢
    rcases exponent_cases t with he | ⟨hne, -⟩
    · rw [he]
    · exact absurd hpower hne
  · exact absurd hplaces hne

theorem length_integerText_le (negative : Bool) (n : Nat) :
    (integerText (if negative then -(n : Int) else n)).length ≤
      (Nat.toDigits 10 n).length + if negative then 1 else 0 := by
  cases negative with
  | true =>
      simp only [if_true, integerText, Int.natAbs_neg, Int.natAbs_natCast]
      split
      · exact Nat.le_refl _
      · exact Nat.le_succ _
  | false =>
      have hn : ¬ (n : Int) < 0 := by omega
      simp only [Bool.false_eq_true, if_false, integerText, if_neg hn, Int.natAbs_natCast]
      exact Nat.le_refl _

/-- How a number can be read: as a short integer, of which the text is no shorter than the
printer's, or as a floating-point number. -/
inductive ReadsNumber (negative : Bool) (t : List Char) : Json → List Char → Prop
  | int {n : Int} {rest : List Char} (short : isShort n = true)
      (length : (integerText n).length + rest.length ≤ t.length + if negative then 1 else 0) :
      ReadsNumber negative t (.int n) rest
  | float (value : Decimal.Binary64) {rest : List Char} (length : rest.length ≤ t.length) :
      ReadsNumber negative t (.float value) rest

theorem readsNumber_of_number? {negative : Bool} {t rest : List Char} {v : Json}
    (h : number? negative t = .ok (v, rest)) : ReadsNumber negative t v rest := by
  unfold number? at h
  split at h
  · cases h
  · rename_i digits after hwhole
    obtain ⟨rfl, hne, hdigits⟩ := whole?_eq_some hwhole
    dsimp only at h
    split at h
    · rename_i hinteger
      split at h
      · cases h
      rename_i hmost
      rw [Bool.and_eq_true, List.isEmpty_iff, Option.isNone_iff_eq_none] at hinteger
      rw [exponent_fraction_of_integer hinteger.1 hinteger.2] at h
      obtain ⟨rfl, rfl⟩ := Prod.mk.inj (Except.ok.inj h)
      have hvalue : digitsValue digits < 10 ^ mostDigits :=
        Nat.lt_of_lt_of_le (digitsValue_lt hdigits)
          (Nat.pow_le_pow_right (by decide) (Nat.not_lt.mp hmost))
      refine .int (isShort_iff.mpr ?_) ?_
      · cases negative <;> simpa using hvalue
      · have hprinted := length_integerText_le negative (digitsValue digits)
        have hread := length_toDigits_le hne hdigits
        rw [List.length_append]
        omega
    · obtain ⟨rfl, rfl⟩ := Prod.mk.inj (Except.ok.inj h)
      refine .float _ ?_
      have := length_exponent_fraction_le after
      rw [List.length_append]
      omega

end PluginContract.Json
