import PluginContract.Text.Pieces
import PluginContract.Text.Search

/-!
# Words and the blanks between them

A text that starts and ends with no blank is what trimming leaves of it with blanks around
it. Words with single blanks between them are those that the text is cut into. A name
holds no blank, and it is read whole where no more of it follows.
-/

namespace PluginContract.Text

/-- A character that passes a check is another one than a character that does not. -/
theorem ne_of_check {p : Char → Bool} {c d : Char} (hc : p c = true) (hd : p d = false) :
    c ≠ d := by
  rintro rfl
  rw [hc] at hd
  cases hd

/-- No code point lies in a range of both sets. -/
def CodeRanges.Apart (ranges others : CodeRanges) : Prop :=
  ∀ range ∈ ranges, ∀ other ∈ others, range.2 < other.1 ∨ other.2 < range.1

instance (ranges others : CodeRanges) : Decidable (ranges.Apart others) :=
  inferInstanceAs (Decidable (∀ range ∈ ranges, ∀ other ∈ others, _))

theorem CodeRanges.Apart.not_has {ranges others : CodeRanges} (h : ranges.Apart others)
    {code : Nat} (hcode : ranges.has code = true) : others.has code = false := by
  apply Bool.eq_false_iff.mpr
  intro hother
  obtain ⟨range, hrange, hle⟩ := CodeRanges.has_iff.mp hcode
  obtain ⟨other, hother, hle'⟩ := CodeRanges.has_iff.mp hother
  have := h range hrange other hother
  omega

theorem not_isBlank_of_isAlphanum {c : Char} (h : c.isAlphanum = true) : isBlank c = false := by
  apply Bool.eq_false_iff.mpr
  intro hblank
  simp [isBlank, blankRanges, CodeRanges.has] at hblank
  delta Char.isAlphanum Char.isAlpha Char.isUpper Char.isLower Char.isDigit at h
  have hn : c.toNat = c.val.toNat := rfl
  simp [UInt32.le_iff_toNat_le] at h
  omega

/-- No name holds a blank. -/
theorem not_isBlank_of_isNameChar {c : Char} (h : isNameChar c = true) : isBlank c = false := by
  have hapart : alphanumericRanges.Apart blankRanges := by decide +kernel
  simp only [isNameChar, isWord, Bool.or_eq_true, beq_iff_eq] at h
  rcases h with h | rfl
  · split at h
    · rcases Bool.or_eq_true_iff.mp h with h | h
      · exact not_isBlank_of_isAlphanum h
      · obtain rfl := beq_iff_eq.mp h
        decide
    · exact hapart.not_has h
  · decide

theorem not_isNameChar_of_isBlank {c : Char} (h : isBlank c = true) : isNameChar c = false := by
  apply Bool.eq_false_iff.mpr
  intro hname
  rw [not_isBlank_of_isNameChar hname] at h
  cases h

/-- Each range lies in one of some others. -/
def CodeRanges.Within (ranges others : CodeRanges) : Prop :=
  ∀ range ∈ ranges, ∃ other ∈ others, other.1 ≤ range.1 ∧ range.2 ≤ other.2

instance (ranges others : CodeRanges) : Decidable (ranges.Within others) :=
  decidable_of_iff
    ((ranges.all fun range =>
      others.any fun other => other.1.ble range.1 && range.2.ble other.2) = true)
    (by simp [CodeRanges.Within, Nat.ble_eq])

theorem CodeRanges.Within.has {ranges others : CodeRanges} (h : ranges.Within others)
    {code : Nat} (hcode : ranges.has code = true) : others.has code = true := by
  obtain ⟨range, hrange, hstart, hstop⟩ := CodeRanges.has_iff.mp hcode
  obtain ⟨other, hother, hstart', hstop'⟩ := h range hrange
  exact CodeRanges.has_iff.mpr
    ⟨other, hother, Nat.le_trans hstart' hstart, Nat.le_trans hstop hstop'⟩

/-- Digits of any script may stand in names. -/
theorem isNameChar_of_isDecimal {c : Char} (h : isDecimal c = true) : isNameChar c = true := by
  rw [isDecimal] at h
  rw [isNameChar, isWord]
  by_cases hascii : c.toNat < 0x80
  · have hwithin : decimalDigitRanges.Within [(0x30, 0x39), (0x80, 0x10FFFF)] := by decide +kernel
    have hdigit : c.isDigit = true := by
      have hhas := hwithin.has h
      simp only [CodeRanges.has, List.any_cons, List.any_nil, Bool.or_false, Bool.or_eq_true,
        Bool.and_eq_true, decide_eq_true_eq] at hhas
      have hn : c.toNat = c.val.toNat := rfl
      delta Char.isDigit
      simp [UInt32.le_iff_toNat_le]
      omega
    simp [hascii, Char.isAlphanum, hdigit]
  · have hwithin : decimalDigitRanges.Within ((0x30, 0x39) :: alphanumericRanges) := by
      decide +kernel
    have hword : alphanumericRanges.has c.toNat = true := by
      have hhas := hwithin.has h
      rw [CodeRanges.has, List.any_cons, Bool.or_eq_true] at hhas
      refine hhas.resolve_left ?_
      simp only [Bool.and_eq_true, decide_eq_true_eq]
      omega
    simp [hascii, hword]

section Trim

variable {t u v w lead tail : List Char}

/-- Whether a text starts and ends with characters that are no blanks. -/
def Solid (t : List Char) : Prop :=
  (∃ c ∈ t.head?, isBlank c = false) ∧ ∃ c ∈ t.getLast?, isBlank c = false

theorem solid_singleton {c : Char} (h : isBlank c = false) : Solid [c] := ⟨⟨c, rfl, h⟩, c, rfl, h⟩

theorem Solid.ne_nil (h : Solid t) : t ≠ [] := by
  rintro rfl
  obtain ⟨⟨c, hc, -⟩, -⟩ := h
  cases hc

theorem Solid.append (hu : Solid u) (hv : Solid v) (w : List Char) : Solid (u ++ (w ++ v)) := by
  obtain ⟨⟨c, hc, hblank⟩, -⟩ := hu
  obtain ⟨-, d, hd, hblank'⟩ := hv
  refine ⟨⟨c, ?_, hblank⟩, d, ?_, hblank'⟩
  · rw [List.head?_append, Option.mem_def.mp hc]
    rfl
  · rw [List.getLast?_append, List.getLast?_append, Option.mem_def.mp hd]
    rfl

theorem Solid.head?_append (hu : Solid u) (v : List Char) : (u ++ v).head? = u.head? := by
  obtain ⟨⟨c, hc, -⟩, -⟩ := hu
  rw [List.head?_append, Option.mem_def.mp hc]
  rfl

/-- A text ends as its last piece does. -/
theorem Solid.getLast?_of_suffix (hv : Solid v) (h : v <:+ t) : t.getLast? = v.getLast? := by
  obtain ⟨u, rfl⟩ := h
  obtain ⟨-, c, hc, -⟩ := hv
  rw [List.getLast?_append, Option.mem_def.mp hc]
  rfl

theorem exists_trimStart (t : List Char) :
    ∃ lead, t = lead ++ trimStart t ∧ lead.all isBlank = true :=
  ⟨t.takeWhile isBlank, (List.takeWhile_append_dropWhile).symm, List.all_takeWhile⟩

theorem exists_of_blanks? (h : blanks? t = some u) :
    ∃ lead, t = lead ++ u ∧ lead.all isBlank = true := by
  cases t with
  | nil => cases h
  | cons c t =>
      rw [blanks?] at h
      split at h
      · rename_i hc
        obtain rfl := Option.some.inj h
        obtain ⟨lead, heq, hlead⟩ := exists_trimStart t
        refine ⟨c :: lead, congrArg (c :: ·) heq, ?_⟩
        rw [List.all_cons, hc, hlead]
        rfl
      · cases h

theorem trimStart_append (hlead : lead.all isBlank = true)
    (h : ∃ c ∈ t.head?, isBlank c = false) : trimStart (lead ++ t) = t := by
  obtain ⟨c, hc, hblank⟩ := h
  rw [trimStart, List.dropWhile_append_of_pos (List.all_eq_true.mp hlead)]
  refine trimStart_of_head? fun d hd => ?_
  rw [Option.mem_def.mp hc] at hd
  exact Option.some.inj hd ▸ hblank

/-- Trimming stops at the first character that is no blank. -/
theorem trimStart_eq_cons_iff {c : Char} {rest : List Char} (hc : isBlank c = false) :
    trimStart t = c :: rest ↔ ∃ gap, t = gap ++ c :: rest ∧ gap.all isBlank = true := by
  constructor
  · intro h
    refine ⟨t.takeWhile isBlank, ?_, List.all_takeWhile⟩
    rw [← h, trimStart, List.takeWhile_append_dropWhile]
  · rintro ⟨gap, rfl, hgap⟩
    exact trimStart_append hgap ⟨c, rfl, hc⟩

/-- Trimming takes away the blanks around a text. -/
theorem trim_append (hlead : lead.all isBlank = true) (htail : tail.all isBlank = true)
    (h : Solid t) : trim (lead ++ (t ++ tail)) = t := by
  obtain ⟨⟨c, hc, hblank⟩, d, hd, hblank'⟩ := h
  have hhead : ∃ c ∈ (t ++ tail).head?, isBlank c = false := by
    refine ⟨c, ?_, hblank⟩
    rw [List.head?_append, Option.mem_def.mp hc]
    rfl
  have hlast : ∃ c ∈ t.reverse.head?, isBlank c = false := by
    refine ⟨d, ?_, hblank'⟩
    rw [List.head?_reverse]
    exact hd
  rw [trim, trimStart_append hlead hhead, trimEnd_eq_reverse, List.reverse_append,
    trimStart_append (by rwa [List.all_reverse]) hlast, List.reverse_reverse]

theorem trim_of_solid (h : Solid t) : trim t = t := by
  have htrim : trim ([] ++ (t ++ [])) = t := trim_append rfl rfl h
  rwa [List.nil_append, List.append_nil] at htrim

/-- What trimming leaves over is empty, or it starts and ends with no blank. -/
theorem solid_trim (h : trim t ≠ []) : Solid (trim t) := by
  constructor
  · obtain ⟨c, hc⟩ := Option.isSome_iff_exists.mp (List.isSome_head?.mpr h)
    obtain ⟨rest, hrest⟩ := trimEnd_isPrefix (trimStart t)
    refine ⟨c, hc, isBlank_of_head?_trimStart (t := t) ?_⟩
    rw [← hrest, List.head?_append, show (trimEnd (trimStart t)).head? = some c from hc]
    rfl
  · obtain ⟨c, hc⟩ := Option.isSome_iff_exists.mp (List.getLast?_isSome.mpr h)
    refine ⟨c, hc, isBlank_of_head?_trimStart (t := (trimStart t).reverse) ?_⟩
    rw [← hc, trim, trimEnd_eq_reverse, List.getLast?_reverse]

theorem trimEnd_of_solid (h : Solid t) : trimEnd t = t := by
  have hstart : trimStart ([] ++ t) = t := trimStart_append rfl h.1
  rw [List.nil_append] at hstart
  rw [← hstart, ← trim, trim_of_solid h, hstart]

theorem trim_of_blanks (h : t.all isBlank = true) : trim t = [] := by
  rw [trim, trimStart, ← List.append_nil t, List.dropWhile_append_of_pos (List.all_eq_true.mp h)]
  rfl

/-- Trimming takes away nothing but blanks. -/
theorem exists_trim (t : List Char) :
    ∃ lead tail, t = lead ++ (trim t ++ tail) ∧ lead.all isBlank = true ∧
      tail.all isBlank = true := by
  obtain ⟨lead, hstart, hlead⟩ := exists_trimStart t
  obtain ⟨tail, hend, htail⟩ := exists_trimStart (trimStart t).reverse
  refine ⟨lead, tail.reverse, ?_, hlead, by rwa [List.all_reverse]⟩
  rw [trim, trimEnd_eq_reverse, ← List.reverse_append, ← hend, List.reverse_reverse]
  exact hstart

theorem trim_blanks_append (h : lead.all isBlank = true) (t : List Char) :
    trim (lead ++ t) = trim t := by
  rw [trim, trimStart, List.dropWhile_append_of_pos (List.all_eq_true.mp h)]
  rfl

theorem trim_blank_cons {c : Char} (h : isBlank c = true) (t : List Char) :
    trim (c :: t) = trim t := by
  rw [trim, trimStart, List.dropWhile_cons, if_pos h]
  rfl

theorem trim_cons {c : Char} (hc : isBlank c = false) (t : List Char) :
    ∃ rest, trim (c :: t) = c :: rest := by
  obtain ⟨lead, tail, heq, hlead, htail⟩ := exists_trim (c :: t)
  cases lead with
  | cons d lead =>
      obtain ⟨rfl, -⟩ := List.cons.inj heq
      rw [List.all_cons, hc] at hlead
      cases hlead
  | nil =>
      cases htrim : trim (c :: t) with
      | cons d rest =>
          rw [htrim] at heq
          obtain ⟨rfl, -⟩ := List.cons.inj heq
          exact ⟨rest, rfl⟩
      | nil =>
          rw [htrim, List.nil_append, List.nil_append] at heq
          rw [← heq, List.all_cons, hc] at htail
          cases htail

/-- Trimming keeps all characters that are no blanks. -/
theorem countP_trim (t : List Char) : (trim t).countP (!isBlank ·) = t.countP (!isBlank ·) := by
  obtain ⟨lead, tail, heq, hlead, htail⟩ := exists_trim t
  have hzero {u : List Char} (hu : u.all isBlank = true) : u.countP (!isBlank ·) = 0 :=
    List.countP_eq_zero.mpr fun c hc => by simp [List.all_eq_true.mp hu c hc]
  conv => rhs; rw [heq, List.countP_append, List.countP_append, hzero hlead, hzero htail]
  rw [Nat.zero_add, Nat.add_zero]

theorem trim_append_ne (hu : ∃ c ∈ u, isBlank c = false) (t : List Char) :
    trim (u ++ t) ≠ trim t := by
  intro heq
  obtain ⟨c, hc, hblank⟩ := hu
  have hpos : 0 < u.countP (!isBlank ·) := List.countP_pos_iff.mpr ⟨c, hc, by simp [hblank]⟩
  have hcount := congrArg (List.countP (!isBlank ·)) heq
  rw [countP_trim, countP_trim, List.countP_append] at hcount
  omega

/-- A text that ends with no blank keeps its end. -/
theorem exists_trim_of_getLast? (h : ∃ c ∈ t.getLast?, isBlank c = false) :
    ∃ lead, t = lead ++ trim t ∧ lead.all isBlank = true := by
  obtain ⟨lead, tail, heq, hlead, htail⟩ := exists_trim t
  obtain ⟨c, hc, hblank⟩ := h
  rcases List.eq_nil_or_concat tail with rfl | ⟨tail, d, rfl⟩
  · rw [List.append_nil] at heq
    exact ⟨lead, heq, hlead⟩
  · rw [List.concat_eq_append] at heq htail
    rw [heq, ← List.append_assoc, ← List.append_assoc, List.getLast?_concat] at hc
    obtain rfl := Option.some.inj hc
    rw [List.all_append, Bool.and_eq_true, List.all_cons, hblank] at htail
    cases htail.2

end Trim

section Words

variable {u : List Char} {us : List (List Char)}

theorem runs_append (h : ∀ c ∈ u, isBlank c = false) (current rest : List Char) :
    runs isBlank current (u ++ rest) = runs isBlank (u.reverse ++ current) rest := by
  induction u generalizing current with
  | nil => rfl
  | cons c u ih =>
      obtain ⟨hc, hu⟩ := List.forall_mem_cons.mp h
      rw [List.cons_append, runs, hc, if_neg Bool.false_ne_true, ih hu, List.reverse_cons,
        List.append_assoc]
      rfl

theorem words_intercalate (h : ∀ u ∈ us, u ≠ [] ∧ ∀ c ∈ u, isBlank c = false) :
    words ([' '].intercalate us) = us := by
  induction us with
  | nil => rfl
  | cons u us ih =>
      obtain ⟨⟨hne, hu⟩, hus⟩ := List.forall_mem_cons.mp h
      have hcurrent : (u.reverse ++ []).isEmpty = false := by simp [hne]
      cases us with
      | nil =>
          rw [List.intercalate_singleton, ← List.append_nil u, words, runs_append hu, runs,
            hcurrent, if_neg Bool.false_ne_true]
          simp
      | cons v us =>
          have hrest := ih hus
          rw [words] at hrest ⊢
          rw [List.intercalate_cons_cons, List.append_assoc, runs_append hu, List.singleton_append,
            runs, if_pos (by decide), hcurrent, if_neg Bool.false_ne_true, hrest]
          simp

/-- Words with single blanks between them stay as they are. -/
theorem respace_intercalate (h : ∀ u ∈ us, u ≠ [] ∧ ∀ c ∈ u, isBlank c = false) :
    respace ([' '].intercalate us) = [' '].intercalate us := by
  rw [respace, words_intercalate h]

theorem intercalate_append {separator : List Char} {us vs : List (List Char)} (hus : us ≠ [])
    (hvs : vs ≠ []) :
    separator.intercalate (us ++ vs) =
      separator.intercalate us ++ (separator ++ separator.intercalate vs) := by
  induction us with
  | nil => exact absurd rfl hus
  | cons u us ih =>
      cases us with
      | nil =>
          rw [List.singleton_append, List.intercalate_cons_of_ne_nil hvs,
            List.intercalate_singleton, List.append_assoc]
      | cons next us =>
          have hrest := ih (List.cons_ne_nil next us)
          rw [List.cons_append] at hrest
          rw [List.cons_append, List.cons_append, List.intercalate_cons_cons, hrest,
            List.intercalate_cons_cons, List.append_assoc, List.append_assoc, List.append_assoc]

/-- A blank ends a word. -/
theorem runs_append_blank {c : Char} (hc : isBlank c = true) (current u rest : List Char) :
    runs isBlank current (u ++ c :: rest) = runs isBlank current u ++ runs isBlank [] rest := by
  induction u generalizing current with
  | nil =>
      rw [List.nil_append, runs, runs, if_pos hc]
      split <;> rfl
  | cons d u ih =>
      rw [List.cons_append, runs, runs]
      split
      · split
        · exact ih []
        · exact congrArg (current.reverse :: ·) (ih [])
      · exact ih (d :: current)

theorem words_blanks_append {gap : List Char} (hgap : gap.all isBlank = true) (t : List Char) :
    words (gap ++ t) = words t := by
  induction gap with
  | nil => rfl
  | cons c gap ih =>
      obtain ⟨hc, hgap⟩ := Bool.and_eq_true_iff.mp hgap
      exact (runs_append_blank hc [] [] (gap ++ t)).trans (ih hgap)

/-- Texts with blanks between them have the words of one and then those of the other. -/
theorem words_append {gap : List Char} (hgap : gap.all isBlank = true) (hne : gap ≠ [])
    (u v : List Char) : words (u ++ (gap ++ v)) = words u ++ words v := by
  obtain ⟨c, gap, rfl⟩ := List.exists_cons_of_ne_nil hne
  obtain ⟨hc, hgap⟩ := Bool.and_eq_true_iff.mp hgap
  exact (runs_append_blank hc [] u (gap ++ v)).trans
    (congrArg (words u ++ ·) (words_blanks_append hgap v))

theorem words_ne_nil {t : List Char} (h : respace t ≠ []) : words t ≠ [] := by
  intro hnil
  rw [respace, hnil] at h
  exact h rfl

theorem respace_append {gap v : List Char} (hgap : gap.all isBlank = true) (hne : gap ≠ [])
    (hu : respace u ≠ []) (hv : respace v ≠ []) :
    respace (u ++ (gap ++ v)) = respace u ++ ' ' :: respace v := by
  rw [respace, words_append hgap hne, intercalate_append (words_ne_nil hu) (words_ne_nil hv)]
  rfl

theorem runs_closed {quote : Char} (hquote : isBlank quote = false) {inside : List Char}
    (hinside : quote ∉ inside) (current : List Char) :
    ∃ mid, quote ∉ mid ∧ runs isBlank current (inside ++ [quote]) ≠ [] ∧
      [' '].intercalate (runs isBlank current (inside ++ [quote])) =
        current.reverse ++ (mid ++ [quote]) := by
  induction inside generalizing current with
  | nil =>
      refine ⟨[], by simp, ?_⟩
      rw [List.nil_append, runs, hquote, if_neg Bool.false_ne_true, runs, List.isEmpty_cons,
        if_neg Bool.false_ne_true, List.intercalate_singleton, List.reverse_cons]
      exact ⟨List.cons_ne_nil _ _, rfl⟩
  | cons c inside ih =>
      obtain ⟨hc, hinside⟩ := not_or.mp (mt List.mem_cons.mpr hinside)
      rw [List.cons_append, runs]
      split
      · split
        · rename_i hcurrent
          rw [List.isEmpty_iff.mp hcurrent]
          exact ih hinside []
        · obtain ⟨mid, hmid, hne, heq⟩ := ih hinside []
          refine ⟨' ' :: mid, ?_, List.cons_ne_nil _ _, ?_⟩
          · have hspace : quote ≠ ' ' := fun h => by
              rw [h] at hquote
              revert hquote
              decide
            simp [hspace, hmid]
          · rw [List.intercalate_cons_of_ne_nil hne, heq, List.append_assoc]
            rfl
      · obtain ⟨mid, hmid, hne, heq⟩ := ih hinside (c :: current)
        refine ⟨c :: mid, by simp [hc, hmid], hne, ?_⟩
        rw [heq, List.reverse_cons, List.append_assoc]
        rfl

/-- A quoted text with single blanks in it is still one quoted text. -/
theorem exists_respace_quoted {quote : Char} (hquote : isBlank quote = false) {inside : List Char}
    (hinside : quote ∉ inside) :
    ∃ mid, quote ∉ mid ∧ respace (quote :: (inside ++ [quote])) = quote :: (mid ++ [quote]) := by
  obtain ⟨mid, hmid, -, heq⟩ := runs_closed hquote hinside [quote]
  refine ⟨mid, hmid, ?_⟩
  rw [respace, words, runs, hquote, if_neg Bool.false_ne_true, heq]
  rfl

end Words

section Names

variable {name rest : List Char}

theorem ne_of_isNameChar {c d : Char} (h : isNameChar c = true) (hd : isNameChar d = false) :
    c ≠ d := ne_of_check h hd

theorem isNameChar_of_isName (h : isName name = true) : ∀ c ∈ name, isNameChar c = true := by
  cases name with
  | nil => cases h
  | cons d name =>
      obtain ⟨hstart, hrest⟩ := Bool.and_eq_true_iff.mp h
      exact List.forall_mem_cons.mpr
        ⟨isWord_of_isNameStart hstart, fun c hc => List.all_eq_true.mp hrest c hc⟩

theorem ne_nil_of_isName (h : isName name = true) : name ≠ [] := by
  rintro rfl
  cases h

theorem solid_of_isName (h : isName name = true) : Solid name := by
  have hne := ne_nil_of_isName h
  have hblank : ∀ c ∈ name, isBlank c = false := fun c hc =>
    not_isBlank_of_isNameChar (isNameChar_of_isName h c hc)
  exact ⟨⟨name.head hne, List.head?_eq_some_head hne, hblank _ (List.head_mem hne)⟩,
    name.getLast hne, List.getLast?_eq_some_getLast hne, hblank _ (List.getLast_mem hne)⟩

/-- No more of a name follows. -/
def EndsName (rest : List Char) : Prop := ∀ c ∈ rest.head?, isNameChar c = false

theorem endsName_nil : EndsName [] := by
  intro c hc
  cases hc

theorem endsName_cons {c : Char} (h : isNameChar c = false) (rest : List Char) :
    EndsName (c :: rest) := by
  rintro d ⟨⟩
  exact h

theorem takeWhile_append_of_head? {p : Char → Bool} {u : List Char} (hu : ∀ c ∈ u, p c = true)
    (h : ∀ c ∈ rest.head?, p c = false) : (u ++ rest).takeWhile p = u := by
  rw [List.takeWhile_append_of_pos hu]
  cases rest with
  | nil => simp
  | cons c rest => simp [h c rfl]

theorem dropWhile_append_of_head? {p : Char → Bool} {u : List Char} (hu : ∀ c ∈ u, p c = true)
    (h : ∀ c ∈ rest.head?, p c = false) : (u ++ rest).dropWhile p = rest := by
  rw [List.dropWhile_append_of_pos hu]
  cases rest with
  | nil => simp
  | cons c rest => simp [h c rfl]

theorem takeWhile_append {u : List Char} (hu : ∀ c ∈ u, isNameChar c = true) (h : EndsName rest) :
    (u ++ rest).takeWhile isNameChar = u := takeWhile_append_of_head? hu h

theorem dropWhile_append {u : List Char} (hu : ∀ c ∈ u, isNameChar c = true) (h : EndsName rest) :
    (u ++ rest).dropWhile isNameChar = rest := dropWhile_append_of_head? hu h

/-- A name is read whole. -/
theorem name?_append_of_isName (hname : isName name = true) (h : EndsName rest) :
    name? (name ++ rest) = some (name, rest) := by
  have hchars := isNameChar_of_isName hname
  cases name with
  | nil => cases hname
  | cons c name =>
      have hstart : isNameStart c = true := (Bool.and_eq_true_iff.mp hname).1
      have hrest := (List.forall_mem_cons.mp hchars).2
      rw [List.cons_append, name?, if_pos hstart, takeWhile_append hrest h,
        dropWhile_append hrest h]

theorem isName_of_name? {t : List Char} (h : name? t = some (name, rest)) : isName name = true := by
  cases t with
  | nil => cases h
  | cons c t =>
      rw [name?] at h
      split at h
      · obtain ⟨rfl, -⟩ := Prod.mk.inj (Option.some.inj h)
        rename_i hstart
        rw [isName, hstart, List.all_takeWhile]
        rfl
      · cases h

/-- A name starts with a word only if it is that word, or goes on after it. -/
theorem after?_append_of_isName {word after : List Char} (hname : isName name = true)
    (h : EndsName rest) (hword : isName word = true)
    (hafter : after? word (name ++ rest) = some after) :
    (name = word ∧ after = rest) ∨ ∃ c ∈ after.head?, isNameChar c = true := by
  rw [after?_eq_some_iff] at hafter
  have htake := takeWhile_append (isNameChar_of_isName hname) h
  have hdrop := dropWhile_append (isNameChar_of_isName hname) h
  have hchars := isNameChar_of_isName hword
  rw [hafter, List.takeWhile_append_of_pos hchars] at htake
  rw [hafter, List.dropWhile_append_of_pos hchars] at hdrop
  cases after with
  | nil => exact Or.inl ⟨by simpa using htake.symm, hdrop⟩
  | cons c after =>
      cases hc : isNameChar c with
      | true => exact Or.inr ⟨c, rfl, hc⟩
      | false =>
          rw [List.takeWhile_cons, hc, if_neg Bool.false_ne_true, List.append_nil] at htake
          rw [List.dropWhile_cons, hc, if_neg Bool.false_ne_true] at hdrop
          exact Or.inl ⟨htake.symm, hdrop⟩

end Names

end PluginContract.Text
