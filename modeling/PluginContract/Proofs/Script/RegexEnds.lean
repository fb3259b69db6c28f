import PluginContract.Proofs.Script.Spans
import PluginContract.Proofs.Text.Occurrences

/-!
# Where a regular expression ends

A regular expression ends at the first slash that no backslash escapes and that stands in no
class. A line feed before it ends the search, but a backslash takes one along like any other
character. So a regular expression stays on its line unless there is an escaped line feed in it.
-/

namespace PluginContract.Script

open Text

/-- Whether a character is escaped: the backslashes right before it are an odd number. -/
def EscapedAt (t : List Char) (i : Nat) : Prop :=
  ((t.take i).reverse.takeWhile (· == '\\')).length % 2 = 1

instance (t : List Char) (i : Nat) : Decidable (EscapedAt t i) :=
  inferInstanceAs (Decidable (_ = 1))

/-- Whether an offset lies in a class of the regular expression that opens at `start`: a bracket
that is not escaped has opened before it, and none that is not escaped has closed since. -/
def InClassAt (t : List Char) (start i : Nat) : Prop :=
  ∃ k, start < k ∧ k < i ∧ t[k]? = some '[' ∧ ¬ EscapedAt t k ∧
    ∀ j, k < j → j < i → t[j]? = some ']' → EscapedAt t j

/-- Whether the character at an offset can close the regular expression that opens at `start`. -/
structure ClosesRegex (t : List Char) (start i : Nat) : Prop where
  slash : t[i]? = some '/'
  unescaped : ¬ EscapedAt t i
  outside : ¬ InClassAt t start i

/-- Whether the regular expression that opens at `start` goes on after the character at an
offset. -/
structure GoesOn (t : List Char) (start i : Nat) : Prop where
  slash : t[i]? = some '/' → EscapedAt t i ∨ InClassAt t start i
  lineFeed : t[i]? = some '\n' → EscapedAt t i

/-- Whether the regular expression that opens at `start`, read on from an offset, ends at
another. -/
structure EndsRegex (t : List Char) (start i e : Nat) : Prop where
  le : i ≤ e
  closes : ClosesRegex t start e
  goesOn : ∀ j, i ≤ j → j < e → GoesOn t start j

/-- Whether no regular expression that opens at an offset goes beyond its line. -/
structure StaysOnLine (t : List Char) (start : Nat) : Prop where
  /-- A regular expression ends with a slash that is neither escaped nor in a class, and there is no
  line feed in it. -/
  literal : ∀ e, regexEnd? t start = some e →
    start < e ∧ ClosesRegex t start e ∧ '\n' ∉ slice t start (e + 1)
  /-- A slash opens nothing if no such slash follows on its line. -/
  division : (∀ e, start < e → ClosesRegex t start e → '\n' ∈ slice t start e) →
    regexEnd? t start = none

variable {t : List Char} {c : Char} {start i e : Nat}

section States

/-- A backslash escapes the next character unless it is escaped itself. -/
theorem escapedAt_succ (hc : t[i]? = some c) :
    EscapedAt t (i + 1) ↔ c = '\\' ∧ ¬ EscapedAt t i := by
  rw [EscapedAt, EscapedAt, reverse_take_succ hc, List.takeWhile_cons]
  by_cases hback : c = '\\'
  · simp only [hback, beq_self_eq_true, if_true, List.length_cons, true_and]
    omega
  · simp [hback]

theorem inClassAt_succ (hi : start < i) (hc : t[i]? = some c) :
    InClassAt t start (i + 1) ↔
      c = '[' ∧ ¬ EscapedAt t i ∨ InClassAt t start i ∧ (c = ']' → EscapedAt t i) := by
  constructor
  · rintro ⟨k, hk, hki, hopens, hescaped, hcloses⟩
    rcases Nat.lt_succ_iff_lt_or_eq.mp hki with hlt | rfl
    · refine Or.inr ⟨⟨k, hk, hlt, hopens, hescaped, fun j hj hji => ?_⟩, ?_⟩
      · exact hcloses j hj (Nat.lt_succ_of_lt hji)
      · rintro rfl
        exact hcloses i hlt (Nat.lt_succ_self i) hc
    · exact Or.inl ⟨Option.some.inj (hc.symm.trans hopens), hescaped⟩
  · rintro (⟨rfl, hescaped⟩ | ⟨⟨k, hk, hki, hopens, hescaped, hcloses⟩, hlast⟩)
    · exact ⟨i, hi, Nat.lt_succ_self i, hc, hescaped, fun j hj hji => by omega⟩
    · refine ⟨k, hk, Nat.lt_succ_of_lt hki, hopens, hescaped, fun j hj hji hclose => ?_⟩
      rcases Nat.lt_succ_iff_lt_or_eq.mp hji with hlt | rfl
      · exact hcloses j hj hlt hclose
      · exact hlast (Option.some.inj (hc.symm.trans hclose))

theorem not_inClassAt_succ_self : ¬ InClassAt t start (start + 1) := by
  rintro ⟨k, hk, hki, -⟩
  omega

/-- The flag of the scan says whether the next character is in a class. -/
theorem inClassAt_succ_iff {inClass : Bool} (hi : start < i) (hc : t[i]? = some c)
    (hescaped : ¬ EscapedAt t i) (hclass : inClass = true ↔ InClassAt t start i) :
    (if inClass then c != ']' else c == '[') = true ↔ InClassAt t start (i + 1) := by
  have hopens : c = '[' → c ≠ ']' := by
    rintro rfl
    decide
  rw [inClassAt_succ hi hc, ← hclass]
  cases inClass with
  | false => simp [hescaped]
  | true => simpa [hescaped] using hopens

end States

section Ends

theorem GoesOn.not_closesRegex (h : GoesOn t start i) : ¬ ClosesRegex t start i := by
  rintro ⟨hslash, hescaped, hclass⟩
  exact (h.slash hslash).elim hescaped hclass

theorem GoesOn.endsRegex_iff (h : GoesOn t start i) :
    EndsRegex t start i e ↔ EndsRegex t start (i + 1) e := by
  constructor
  · rintro ⟨hle, hcloses, hgoes⟩
    have hne : i ≠ e := by
      rintro rfl
      exact h.not_closesRegex hcloses
    exact ⟨by omega, hcloses, fun j hj => hgoes j (by omega)⟩
  · rintro ⟨hle, hcloses, hgoes⟩
    refine ⟨by omega, hcloses, fun j hj hje => ?_⟩
    rcases Nat.eq_or_lt_of_le hj with rfl | hlt
    · exact h
    · exact hgoes j hlt hje

theorem ClosesRegex.endsRegex_iff (h : ClosesRegex t start i) :
    EndsRegex t start i e ↔ e = i := by
  constructor
  · rintro ⟨hle, -, hgoes⟩
    rcases Nat.eq_or_lt_of_le hle with heq | hlt
    · exact heq.symm
    · exact absurd h (hgoes i (Nat.le_refl i) hlt).not_closesRegex
  · rintro rfl
    exact ⟨Nat.le_refl _, h, fun j hj hje => by omega⟩

theorem goesOn_of_ne (hc : t[i]? = some c) (hslash : c ≠ '/') (hlineFeed : c ≠ '\n') :
    GoesOn t start i :=
  ⟨fun h => absurd (Option.some.inj (hc.symm.trans h)) hslash,
    fun h => absurd (Option.some.inj (hc.symm.trans h)) hlineFeed⟩

theorem goesOn_of_escapedAt (h : EscapedAt t i) : GoesOn t start i :=
  ⟨fun _ => Or.inl h, fun _ => h⟩

theorem not_endsRegex_of_lineFeed (hc : t[i]? = some '\n') (hescaped : ¬ EscapedAt t i) :
    ¬ EndsRegex t start i e := by
  rintro ⟨hle, hcloses, hgoes⟩
  rcases Nat.eq_or_lt_of_le hle with rfl | hlt
  · exact absurd (Option.some.inj (hc.symm.trans hcloses.slash)) (by decide)
  · exact hescaped ((hgoes i (Nat.le_refl i) hlt).lineFeed hc)

theorem not_endsRegex_of_drop_eq_nil (h : t.drop i = []) : ¬ EndsRegex t start i e := by
  rintro ⟨hle, hcloses, -⟩
  have hlt := (List.getElem?_eq_some_iff.mp hcloses.slash).1
  have hlength := List.drop_eq_nil_iff.mp h
  omega

end Ends

/-- Characters that the scan has passed count towards the end. -/
theorem exists_map_add_iff {length : Option Nat} (k : Nat) :
    (∃ n, length.map (· + k) = some n ∧ e + 1 = i + n) ↔
      ∃ n, length = some n ∧ e + 1 = i + k + n := by
  constructor
  · rintro ⟨_, hmap, he⟩
    obtain ⟨n, hn, rfl⟩ := Option.map_eq_some_iff.mp hmap
    exact ⟨n, hn, by omega⟩
  · rintro ⟨n, rfl, he⟩
    exact ⟨n + k, rfl, by omega⟩

/-- The scan finds the end of a regular expression from any offset that is not escaped, if its flag
says whether that offset is in a class. -/
theorem regexLength?_eq_some_iff {inClass : Bool} {rest : List Char} (hrest : t.drop i = rest)
    (hi : start < i) (hescaped : ¬ EscapedAt t i) (hclass : inClass = true ↔ InClassAt t start i) :
    (∃ n, regexLength? inClass rest = some n ∧ e + 1 = i + n) ↔ EndsRegex t start i e := by
  -- The scan is never at an escaped offset: a backslash takes it on by two characters.
  fun_induction regexLength? inClass rest generalizing i with
  | case1 => simp [not_endsRegex_of_drop_eq_nil hrest]
  | case2 =>
      obtain ⟨hc, hnext⟩ := getElem?_of_drop hrest
      rw [(goesOn_of_ne hc (by decide) (by decide)).endsRegex_iff]
      simp [not_endsRegex_of_drop_eq_nil hnext]
  | case3 inClass d rest ih =>
      obtain ⟨hc, hnext⟩ := getElem?_of_drop hrest
      obtain ⟨hd, hafter⟩ := getElem?_of_drop hnext
      have hescapes : EscapedAt t (i + 1) := (escapedAt_succ hc).mpr ⟨rfl, hescaped⟩
      have hfree : ¬ EscapedAt t (i + 1 + 1) := fun h => ((escapedAt_succ hd).mp h).2 hescapes
      have hsame : inClass = true ↔ InClassAt t start (i + 1 + 1) := by
        rw [inClassAt_succ (Nat.lt_succ_of_lt hi) hd, inClassAt_succ hi hc, hclass]
        simp [hescapes]
      rw [(goesOn_of_ne hc (by decide) (by decide)).endsRegex_iff,
        (goesOn_of_escapedAt hescapes).endsRegex_iff, ← ih hafter (by omega) hfree hsame]
      exact exists_map_add_iff 2
  | case4 inClass rest =>
      obtain ⟨hc, -⟩ := getElem?_of_drop hrest
      simp [not_endsRegex_of_lineFeed hc hescaped]
  | case5 inClass c rest _ _ hslash =>
      obtain ⟨hc, -⟩ := getElem?_of_drop hrest
      obtain ⟨hc', hopen⟩ : c = '/' ∧ inClass = false := by simpa using hslash
      have hcloses : ClosesRegex t start i := by
        refine ⟨hc' ▸ hc, hescaped, fun h => ?_⟩
        exact Bool.false_ne_true (hopen.symm.trans (hclass.mpr h))
      rw [hcloses.endsRegex_iff]
      simp only [Option.some.injEq, exists_eq_left']
      omega
  | case6 inClass c rest hback hlineFeed hslash nextClass =>
      rename_i ih
      obtain ⟨hc, hnext⟩ := getElem?_of_drop hrest
      have hgoes : GoesOn t start i := by
        refine ⟨fun h => Or.inr (hclass.mp ?_), fun h => ?_⟩
        · obtain rfl := Option.some.inj (hc.symm.trans h)
          simpa using hslash
        · exact absurd (Option.some.inj (hc.symm.trans h)) hlineFeed
      have hfree : ¬ EscapedAt t (i + 1) := fun h => hback ((escapedAt_succ hc).mp h).1
      rw [hgoes.endsRegex_iff,
        ← ih hnext (Nat.lt_succ_of_lt hi) hfree (inClassAt_succ_iff hi hc hescaped hclass)]
      exact exists_map_add_iff 1

/-- A regular expression opens where an operand is expected, and ends at the first slash that closes
it, unless a line feed that is not escaped comes before. -/
theorem regexEnd?_eq_some_iff (h : t[start]? = some '/') :
    regexEnd? t start = some e ↔
      expectsOperand (t.take start).reverse = true ∧ EndsRegex t start (start + 1) e := by
  have hescaped : ¬ EscapedAt t (start + 1) := fun hback =>
    absurd ((escapedAt_succ h).mp hback).1 (by decide)
  have hclass : false = true ↔ InClassAt t start (start + 1) := by
    simp [not_inClassAt_succ_self]
  rw [← regexLength?_eq_some_iff rfl (Nat.lt_succ_self start) hescaped hclass, regexEnd?]
  split
  · rename_i hoperand
    simp only [Option.map_eq_some_iff, hoperand, true_and]
    constructor
    · rintro ⟨n, hn, rfl⟩
      exact ⟨n, hn, by omega⟩
    · rintro ⟨n, hn, he⟩
      exact ⟨n, hn, by omega⟩
  · rename_i hoperand
    simp [hoperand]

/-- A line feed in a regular expression is escaped. -/
theorem EndsRegex.lineFeed_notMem_iff (hopen : t[start]? = some '/')
    (h : EndsRegex t start (start + 1) e) :
    '\n' ∉ slice t start (e + 1) ↔
      ∀ i, start < i → i < e → EscapedAt t i → t[i]? ≠ some '\n' := by
  rw [mem_slice_iff]
  constructor
  · intro hnone i hi hie _ hfeed
    exact hnone ⟨i, Nat.le_of_lt hi, by omega, hfeed⟩
  · rintro hnone ⟨i, hi, hie, hfeed⟩
    have hstart : start ≠ i := by
      rintro rfl
      exact absurd (Option.some.inj (hopen.symm.trans hfeed)) (by decide)
    have hend : i ≠ e := by
      rintro rfl
      exact absurd (Option.some.inj (h.closes.slash.symm.trans hfeed)) (by decide)
    exact hnone i (by omega) (by omega) ((h.goesOn i (by omega) (by omega)).lineFeed hfeed) hfeed

/-- Where a regular expression opens and ends, and that it stays on its line just if there is no
escaped line feed in it. -/
theorem regexEnd?_exact_and_staysOnLine_iff (h : t[start]? = some '/') :
    (∀ e, regexEnd? t start = some e ↔
        expectsOperand (t.take start).reverse = true ∧ EndsRegex t start (start + 1) e) ∧
      (StaysOnLine t start ↔
        ∀ e, expectsOperand (t.take start).reverse = true → EndsRegex t start (start + 1) e →
          ∀ i, start < i → i < e → EscapedAt t i → t[i]? ≠ some '\n') := by
  refine ⟨fun e => regexEnd?_eq_some_iff h, ?_⟩
  constructor
  · intro hstays e hoperand hends
    obtain ⟨-, -, hfeed⟩ := hstays.literal e ((regexEnd?_eq_some_iff h).mpr ⟨hoperand, hends⟩)
    exact (hends.lineFeed_notMem_iff h).mp hfeed
  · intro hnone
    have hliteral : ∀ e, regexEnd? t start = some e →
        start < e ∧ ClosesRegex t start e ∧ '\n' ∉ slice t start (e + 1) := by
      intro e he
      obtain ⟨hoperand, hends⟩ := (regexEnd?_eq_some_iff h).mp he
      exact ⟨hends.le, hends.closes, (hends.lineFeed_notMem_iff h).mpr (hnone e hoperand hends)⟩
    refine ⟨hliteral, fun hbeyond => Option.eq_none_iff_forall_not_mem.mpr fun e he => ?_⟩
    obtain ⟨hlt, hcloses, hfeed⟩ := hliteral e he
    obtain ⟨i, hi, hie, hc⟩ := mem_slice_iff.mp (hbeyond e hlt hcloses)
    exact hfeed (mem_slice_iff.mpr ⟨i, hi, Nat.lt_succ_of_lt hie, hc⟩)

/-- A class and a backslash hide the slashes before the last one. -/
theorem regexEnd?_exact_and_staysOnLine_iff_hiddenSlashes :
    let t := "x = /[/]\\/a/.test(s)".toList
    t[4]? = some '/' ∧ EndsRegex t 4 5 11 ∧ StaysOnLine t 4 := by
  intro t
  have hopen : t[4]? = some '/' := by decide
  have hend : regexEnd? t 4 = some 11 := by decide
  have hfeed : '\n' ∉ t := by decide
  obtain ⟨hexact, hstays⟩ := regexEnd?_exact_and_staysOnLine_iff hopen
  refine ⟨hopen, ((hexact 11).mp hend).2, hstays.mpr fun e _ _ i _ _ _ hc => ?_⟩
  exact hfeed (List.mem_of_getElem? hc)

/-- A division before an index with a comment that ends in a backslash is taken for a regular
expression, which ends at a division on the next line. -/
theorem not_staysOnLine_escapedLineFeed :
    let t := "y++ / a[ // \\\n0] / b".toList
    t[4]? = some '/' ∧ regexEnd? t 4 = some 17 ∧ EscapedAt t 13 ∧ t[13]? = some '\n' ∧
      ¬ StaysOnLine t 4 := by
  intro t
  have hend : regexEnd? t 4 = some 17 := by decide
  have hfeed : '\n' ∈ slice t 4 18 := by decide
  exact ⟨by decide, hend, by decide, by decide, fun h => (h.literal 17 hend).2.2 hfeed⟩

end PluginContract.Script
