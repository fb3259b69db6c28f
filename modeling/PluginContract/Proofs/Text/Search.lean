import PluginContract.Text.Search

/-!
# Searching a text piece by piece

A search passes over a piece of text if nothing matches in it, whatever comes before; then
it goes on after it just as if it had started there. A match is passed over as a whole.
-/

namespace PluginContract.Text.Pattern

variable {α : Type} {pattern : Pattern α} {u v rest : List Char}

theorem getLast?_cons_or (c : Char) (u : List Char) (before : Option Char) :
    (c :: u).getLast?.or before = u.getLast?.or (some c) := by
  rw [List.getLast?_cons]
  cases u.getLast? <;> rfl

/-- The search passes over a piece of text before the rest. -/
def Passes (pattern : Pattern α) (u rest : List Char) : Prop :=
  ∀ offset before, pattern.findFrom 0 offset before (u ++ rest) =
    pattern.findFrom 0 (offset + u.length) (u.getLast?.or before) rest

theorem passes_nil (rest : List Char) : pattern.Passes [] rest := by
  intro offset before
  rfl

theorem Passes.append (hu : pattern.Passes u (v ++ rest)) (hv : pattern.Passes v rest) :
    pattern.Passes (u ++ v) rest := by
  intro offset before
  rw [List.append_assoc, hu, hv, List.getLast?_append, Option.or_assoc, List.length_append,
    Nat.add_assoc]

/-- Parts with separators between them are passed over one by one. Each may depend on what kind of
text follows it. -/
theorem passes_intercalate {separator : List Char} {parts : List (List Char)}
    {Follows : List Char → Prop} (hseparator : ∀ rest, pattern.Passes separator rest)
    (hfollows : ∀ rest, Follows (separator ++ rest))
    (hparts : ∀ part ∈ parts, ∀ rest, Follows rest → pattern.Passes part rest)
    (hrest : Follows rest) : pattern.Passes (separator.intercalate parts) rest := by
  induction parts with
  | nil => exact passes_nil rest
  | cons part parts ih =>
      obtain ⟨hpart, hmore⟩ := List.forall_mem_cons.mp hparts
      cases parts with
      | nil =>
          rw [List.intercalate_singleton]
          exact hpart rest hrest
      | cons next parts =>
          rw [List.intercalate_cons_cons, List.append_assoc]
          refine (hpart _ ?_).append ((hseparator _).append (ih hmore))
          rw [List.append_assoc]
          exact hfollows _

theorem findFrom_of_none {c : Char} {before : Option Char} (h : pattern before (c :: rest) = none)
    (offset : Nat) :
    pattern.findFrom 0 offset before (c :: rest) =
      pattern.findFrom 0 (offset + 1) (some c) rest := by
  rw [findFrom, h]

theorem passes_cons {c : Char} (hc : ∀ before, pattern before (c :: (u ++ rest)) = none)
    (hu : pattern.Passes u rest) : pattern.Passes (c :: u) rest := by
  refine Passes.append (u := [c]) ?_ hu
  intro offset before
  exact findFrom_of_none (hc before) offset

/-- What is passed over after a match is not searched. -/
theorem findFrom_skip (pattern : Pattern α) (u rest : List Char) (offset : Nat)
    (before : Option Char) :
    pattern.findFrom u.length offset before (u ++ rest) =
      pattern.findFrom 0 (offset + u.length) (u.getLast?.or before) rest := by
  induction u generalizing offset before with
  | nil => rfl
  | cons c u ih =>
      rw [List.length_cons, List.cons_append, findFrom, ih, getLast?_cons_or, Nat.add_assoc,
        Nat.add_comm 1]

theorem findFrom_of_match {before : Option Char} {value : α} (hu : u ≠ [])
    (h : pattern before (u ++ rest) = some (value, u.length)) (offset : Nat) :
    pattern.findFrom 0 offset before (u ++ rest) =
      ⟨offset, u.length, value⟩ ::
        pattern.findFrom 0 (offset + u.length) (u.getLast?.or before) rest := by
  obtain ⟨c, u, rfl⟩ := List.exists_cons_of_ne_nil hu
  rw [List.cons_append] at h ⊢
  rw [findFrom, h]
  dsimp only
  rw [List.length_cons, Nat.add_sub_cancel, findFrom_skip, getLast?_cons_or, Nat.add_assoc,
    Nat.add_comm 1]

section Matches

variable {found : Found α} {skip offset : Nat} {before : Option Char} {t : List Char}

/-- What a search reports is a match that starts past what was still to be passed over. -/
theorem exists_of_mem_findFrom (h : found ∈ pattern.findFrom skip offset before t) :
    ∃ u v, t = u ++ v ∧ v ≠ [] ∧ skip ≤ u.length ∧ found.start = offset + u.length ∧
      pattern (u.getLast?.or before) v = some (found.value, found.length) := by
  induction t generalizing skip offset before with
  | nil => simp [findFrom] at h
  | cons c t ih =>
      have hrest {skip' : Nat} (hskip : skip ≤ skip' + 1)
          (h : found ∈ pattern.findFrom skip' (offset + 1) (some c) t) :
          ∃ u v, c :: t = u ++ v ∧ v ≠ [] ∧ skip ≤ u.length ∧ found.start = offset + u.length ∧
            pattern (u.getLast?.or before) v = some (found.value, found.length) := by
        obtain ⟨u, v, rfl, hv, hlength, hstart, hmatch⟩ := ih h
        refine ⟨c :: u, v, rfl, hv, ?_, ?_, ?_⟩
        · rw [List.length_cons]
          omega
        · rw [hstart, List.length_cons]
          omega
        · rwa [getLast?_cons_or]
      cases skip with
      | succ skip => exact hrest (Nat.le_refl _) h
      | zero =>
          rw [findFrom] at h
          split at h
          · rename_i value length hmatch
            rcases List.mem_cons.mp h with rfl | h
            · exact ⟨[], c :: t, rfl, List.cons_ne_nil c t, Nat.le_refl 0, rfl, hmatch⟩
            · exact hrest (Nat.zero_le _) h
          · exact hrest (Nat.zero_le _) h

/-- Matches are reported from left to right. -/
theorem pairwise_findFrom (pattern : Pattern α) (skip offset : Nat) (before : Option Char)
    (t : List Char) :
    (pattern.findFrom skip offset before t).Pairwise fun f g => f.start < g.start := by
  induction t generalizing skip offset before with
  | nil => simp [findFrom]
  | cons c t ih =>
      cases skip with
      | succ skip => exact ih skip (offset + 1) (some c)
      | zero =>
          rw [findFrom]
          split
          · refine List.pairwise_cons.mpr ⟨fun g hg => ?_, ih _ _ _⟩
            obtain ⟨u, -, -, -, -, hstart, -⟩ := exists_of_mem_findFrom hg
            rw [hstart]
            exact Nat.lt_of_lt_of_le (Nat.lt_succ_self offset) (Nat.le_add_right _ _)
          · exact ih 0 (offset + 1) (some c)

/-- Whether no match starts within another. -/
def Separate (pattern : Pattern α) : Prop :=
  ∀ before u v, u ≠ [] → ∀ value length, pattern before (u ++ v) = some (value, length) →
    u.length < length → pattern u.getLast? v = none

/-- A search reports a match that no earlier one reaches into. -/
theorem mem_findFrom_of_clear {u v : List Char} {value : α} {length : Nat} (hv : v ≠ [])
    (hskip : skip ≤ u.length)
    (hclear : ∀ x c value' length', u = x ++ c → c ≠ [] →
      pattern (x.getLast?.or before) (c ++ v) = some (value', length') → length' ≤ c.length)
    (hmatch : pattern (u.getLast?.or before) v = some (value, length)) :
    ⟨offset + u.length, length, value⟩ ∈ pattern.findFrom skip offset before (u ++ v) := by
  induction u generalizing skip offset before with
  | nil =>
      obtain ⟨c, v, rfl⟩ := List.exists_cons_of_ne_nil hv
      obtain rfl : skip = 0 := Nat.le_zero.mp hskip
      rw [List.getLast?_nil, Option.none_or] at hmatch
      rw [List.nil_append, findFrom, hmatch]
      exact List.mem_cons_self
  | cons c u ih =>
      have hrest {skip' : Nat} (hskip : skip' ≤ u.length) :
          ⟨offset + (c :: u).length, length, value⟩ ∈
            pattern.findFrom skip' (offset + 1) (some c) (u ++ v) := by
        rw [getLast?_cons_or] at hmatch
        rw [List.length_cons, Nat.add_comm u.length, ← Nat.add_assoc]
        refine ih hskip (fun x w value' length' hu hw hfirst => ?_) hmatch
        refine hclear (c :: x) w value' length' (by rw [hu, List.cons_append]) hw ?_
        rwa [getLast?_cons_or]
      cases skip with
      | succ skip => exact hrest (Nat.le_of_succ_le_succ hskip)
      | zero =>
          rw [List.cons_append, findFrom]
          split
          · rename_i value' length' hfirst
            have hlength := hclear [] (c :: u) value' length' rfl (List.cons_ne_nil c u) hfirst
            rw [List.length_cons] at hlength
            exact List.mem_cons_of_mem _ (hrest (by omega))
          · exact hrest (Nat.zero_le _)

/-- A search reports all matches of a pattern of which none starts within another. -/
theorem mem_findFrom (hseparate : pattern.Separate) {u v : List Char} {value : α} {length : Nat}
    (hv : v ≠ []) (hskip : skip ≤ u.length)
    (hmatch : pattern (u.getLast?.or before) v = some (value, length)) :
    ⟨offset + u.length, length, value⟩ ∈ pattern.findFrom skip offset before (u ++ v) := by
  refine mem_findFrom_of_clear hv hskip (fun x c value' length' hu hc hfirst => ?_) hmatch
  refine Nat.le_of_not_lt fun hlt => ?_
  have hnone := hseparate _ c v hc value' length' hfirst hlt
  have hlast : u.getLast?.or before = c.getLast? := by
    rw [hu, List.getLast?_append, List.getLast?_eq_some_getLast hc, Option.some_or, Option.some_or]
  rw [hlast] at hmatch
  cases hnone.symm.trans hmatch

theorem mem_findAll_iff (hseparate : pattern.Separate) :
    found ∈ pattern.findAll t ↔ ∃ u v, t = u ++ v ∧ v ≠ [] ∧ found.start = u.length ∧
      pattern u.getLast? v = some (found.value, found.length) := by
  constructor
  · intro h
    obtain ⟨u, v, ht, hv, -, hstart, hmatch⟩ := exists_of_mem_findFrom h
    rw [Nat.zero_add] at hstart
    rw [Option.or_none] at hmatch
    exact ⟨u, v, ht, hv, hstart, hmatch⟩
  · rintro ⟨u, v, rfl, hv, hstart, hmatch⟩
    rw [← Option.or_none (o := u.getLast?)] at hmatch
    have hmem : ⟨0 + u.length, found.length, found.value⟩ ∈ pattern.findFrom 0 0 none (u ++ v) :=
      mem_findFrom hseparate hv (Nat.zero_le _) hmatch
    rw [Nat.zero_add, ← hstart] at hmem
    exact hmem

end Matches

/-- A pattern that only matches where a word with a given first letter starts. -/
structure Opens (pattern : Pattern α) (letter : Char) : Prop where
  atLetter : ∀ before c t, c ≠ letter → pattern before (c :: t) = none
  notInWord : ∀ c t, isNameChar c = true → pattern (some c) t = none

namespace Opens

variable {letter : Char} (h : pattern.Opens letter)
include h

theorem passes_of_notMem (hu : letter ∉ u) (rest : List Char) : pattern.Passes u rest := by
  induction u with
  | nil => exact passes_nil rest
  | cons c u ih =>
      obtain ⟨hc, hu⟩ := not_or.mp (mt List.mem_cons.mpr hu)
      exact passes_cons (fun before => h.atLetter before c _ (Ne.symm hc)) (ih hu)

theorem passes_blanks (hletter : isBlank letter = false) (hu : u.all isBlank = true)
    (rest : List Char) : pattern.Passes u rest := by
  refine h.passes_of_notMem (fun hmem => ?_) rest
  rw [List.all_eq_true.mp hu letter hmem] at hletter
  cases hletter

theorem findFrom_inWord (hu : ∀ c ∈ u, isNameChar c = true) {c : Char} (hc : isNameChar c = true)
    (offset : Nat) :
    pattern.findFrom 0 offset (some c) (u ++ rest) =
      pattern.findFrom 0 (offset + u.length) (u.getLast?.or (some c)) rest := by
  induction u generalizing c offset with
  | nil => rfl
  | cons d u ih =>
      obtain ⟨hd, hu⟩ := List.forall_mem_cons.mp hu
      rw [List.cons_append, findFrom_of_none (h.notInWord c _ hc), ih hu hd, getLast?_cons_or,
        List.length_cons, Nat.add_assoc, Nat.add_comm 1]

/-- A word is passed over if the pattern does not match at its start. -/
theorem findFrom_word (hu : ∀ c ∈ u, isNameChar c = true) {before : Option Char}
    (hstart : pattern before (u ++ rest) = none) (offset : Nat) :
    pattern.findFrom 0 offset before (u ++ rest) =
      pattern.findFrom 0 (offset + u.length) (u.getLast?.or before) rest := by
  cases u with
  | nil => rfl
  | cons c u =>
      obtain ⟨hc, hu⟩ := List.forall_mem_cons.mp hu
      rw [List.cons_append] at hstart
      rw [List.cons_append, findFrom_of_none hstart, h.findFrom_inWord hu hc, getLast?_cons_or,
        List.length_cons, Nat.add_assoc, Nat.add_comm 1]

theorem passes_word (hu : ∀ c ∈ u, isNameChar c = true)
    (hstart : ∀ before, pattern before (u ++ rest) = none) : pattern.Passes u rest :=
  fun offset before => h.findFrom_word hu (hstart before) offset

/-- A word that starts with another letter is passed over. -/
theorem passes_otherWord {c : Char} (hu : (c :: u).all isNameChar = true) (hc : c ≠ letter)
    (rest : List Char) : pattern.Passes (c :: u) rest :=
  h.passes_word (List.all_eq_true.mp hu) fun before => h.atLetter before c _ hc

end Opens

/-- What starts with a keyword starts with its first letter, and not within a word. -/
theorem opens_of_keyword? {letter : Char} {word : List Char}
    (h : ∀ before t, keyword? (letter :: word) before t = none → pattern before t = none) :
    pattern.Opens letter := by
  constructor
  · intro before c t hc
    refine h before _ ?_
    rw [keyword?, after?, if_neg (Ne.symm hc), ite_self]
  · intro c t hc
    refine h (some c) t ?_
    rw [keyword?, if_pos]
    simp [hc]

end PluginContract.Text.Pattern
