import PluginContract.Proofs.Script.Runs

/-!
# Sweeps over a whole text

All that reads a text to its end goes over it in one and the same way, from one comment, literal or
single character to the next. Its code, its masked form, its form without comments, its parts
and its quoted texts are told here from the offsets at which such a sweep stops.
-/

namespace PluginContract.Script

open Text Region

/-- What a sweep passes over at once: a comment, a literal or a single character. -/
structure Passage where
  start : Nat
  last : Nat
  comment : Bool

/-- A sweep from an offset to the end of the text, with what it passes over and the offsets at which
it looks up literals. -/
inductive Sweep (t : List Char) : Nat → (passages : List Passage) → (lookups : List Nat) → Prop
  | ended {i : Nat} (hi : t.length ≤ i) : Sweep t i [] []
  | comment {i e : Nat} {passages : List Passage} {lookups : List Nat}
      (he : commentEnd? t i = some e) (rest : Sweep t (e + 1) passages lookups) :
      Sweep t i (⟨i, e, true⟩ :: passages) lookups
  | seen {c : Char} {i e : Nat} {passages : List Passage} {lookups more : List Nat}
      (hc : t[i]? = some c) (hn : commentEnd? t i = none) (inner : Run t .span i (some e) lookups)
      (rest : Sweep t (e + 1) passages more) :
      Sweep t i (⟨i, e, false⟩ :: passages) (lookups ++ more)

/-- The characters that are seen on the way, with their offsets. -/
def codeOf (t : List Char) (passages : List Passage) : List (Nat × Char) :=
  passages.filterMap fun p => if p.comment then none else t[p.start]?.map (p.start, ·)

/-- The text with the characters from an offset up to another blanked out. -/
def blankRange (t : List Char) (range : Nat × Nat) : List Char :=
  t.mapIdx fun j c => if range.1 ≤ j ∧ j < range.2 then blanked c else c

/-- The range of a passage that a masked script hides. -/
def Passage.hidden (p : Passage) : Nat × Nat :=
  if p.comment then (p.start, p.last + 1) else (p.start + 1, p.last)

/-- The ranges of comments. -/
def commentRanges (passages : List Passage) : List (Nat × Nat) :=
  (passages.filter (·.comment)).map Passage.hidden

/-- The trimmed parts between delimiters outside of all brackets, along code; the current part
starts at an offset, and the last one is dropped if it is empty. -/
def splitAlong (pairing : Pairing) (delimiter t : List Char) :
    (awaited : List Char) → (start : Nat) → List (Nat × Char) → List (List Char)
  | _, start, [] =>
      let last := trim (t.drop start)
      if last.isEmpty then [] else [last]
  | awaited, start, (i, c) :: code =>
      match bracketStep? pairing awaited (t.take i).getLast? c with
      | some next => splitAlong pairing delimiter t next start code
      | none =>
          if awaited.isEmpty && (after? delimiter (t.drop i)).isSome then
            trim (slice t start i) ::
              splitAlong pairing delimiter t [] (i + delimiter.length) code
          else splitAlong pairing delimiter t awaited start code

/-- The value of the literal that is opened at an offset, if it is a single- or double-quoted one
and closed. -/
def quotedText? (t : List Char) (entry : Nat × Char) : Option (List Char) :=
  if entry.2 = '"' ∨ entry.2 = '\'' then
    (literalEnd? t entry.1).bind fun e =>
      if e < t.length then some (unescape (slice t (entry.1 + 1) e)) else none
  else none

section Sweeps

variable {t : List Char} {i j : Nat} {c : Char} {passages : List Passage} {lookups : List Nat}

theorem exists_sweep (t : List Char) (i : Nat) :
    ∃ passages lookups, Sweep t i passages lookups := by
  induction hleft : t.length - i using Nat.strongRecOn generalizing i with
  | ind left ih =>
      cases hc : t[i]? with
      | none => exact ⟨[], [], .ended (List.getElem?_eq_none_iff.mp hc)⟩
      | some c =>
          have hi : i < t.length := (List.getElem?_eq_some_iff.mp hc).1
          cases hn : commentEnd? t i with
          | some e =>
              obtain ⟨hlt, -, -⟩ := passesTo_comment hn
              obtain ⟨passages, lookups, hrest⟩ := ih (t.length - (e + 1)) (by omega) (e + 1) rfl
              exact ⟨_, lookups, .comment hn hrest⟩
          | none =>
              obtain ⟨found, lookups, hinner⟩ := ends_span hc hn (loopsEnd t (i + 1))
              obtain ⟨e, rfl, hle, -⟩ := hinner.bounds
              obtain ⟨passages, more, hrest⟩ := ih (t.length - (e + 1)) (by omega) (e + 1) rfl
              exact ⟨_, lookups ++ more, .seen hc hn hinner hrest⟩

theorem Sweep.onQuote (h : Sweep t i passages lookups) : ∀ j ∈ lookups, OnQuote t j := by
  induction h with
  | ended _ => nofun
  | comment _ _ ih => exact ih
  | seen _ _ inner _ ih => exact List.forall_mem_append.mpr ⟨inner.onQuote nofun, ih⟩

/-- Code has its characters at their own offsets. -/
theorem getElem?_of_mem_codeAt {start : Nat} (h : (i, c) ∈ codeAt t start) :
    start ≤ i ∧ t[i]? = some c := by
  obtain ⟨n, role, rfl, hn, -⟩ := mem_seenFrom_iff.mp h
  have hchar := congrArg (Option.map Prod.fst) hn
  rw [← List.getElem?_map, scanAt_chars, List.getElem?_drop] at hchar
  exact ⟨Nat.le_add_right start n, hchar⟩

theorem seenFrom_unseen {inside : List (Char × Role)}
    (hunseen : ∀ entry ∈ inside, entry.2.isSeen = false) (k : Nat) : seenFrom k inside = [] := by
  induction inside generalizing k with
  | nil => rfl
  | cons entry inside ih =>
      obtain ⟨hentry, hinside⟩ := List.forall_mem_cons.mp hunseen
      rw [seenFrom_cons, hentry, if_neg Bool.false_ne_true, ih hinside]

theorem seenFrom_of_passesTo {regions : List Region} (h : PassesTo t regions i j) (hij : i ≤ j) :
    seenFrom i (scanFrom (t.take i).reverse regions (t.drop i)) = codeAt t j := by
  obtain ⟨inside, hunseen, hscan, -, hlength⟩ := h.exists_inside hij
  rw [hscan, seenFrom_append, seenFrom_unseen hunseen, List.nil_append, codeAt_eq]
  by_cases hj : j ≤ t.length
  · rw [hlength hj, Nat.add_sub_cancel' hij]
  · rw [scanAt_of_length_le (Nat.le_of_not_le hj)]
    rfl

theorem codeAt_of_seenTo (h : SeenTo t i c j) (hij : i < j) :
    codeAt t i = (i, c) :: codeAt t j := by
  obtain ⟨regions, hrole, hscan, hpass⟩ := h
  rw [codeAt_eq, hscan, seenFrom_cons, if_pos hrole, seenFrom_of_passesTo hpass hij]

/-- Code is what a sweep stops at, comments apart. -/
theorem Sweep.codeOf_eq (h : Sweep t i passages lookups) : codeOf t passages = codeAt t i := by
  induction h with
  | ended hi =>
      rw [codeAt_eq, scanAt_of_length_le hi]
      rfl
  | comment he _ ih =>
      obtain ⟨hlt, -, hpass⟩ := passesTo_comment he
      exact ih.trans (seenFrom_of_passesTo hpass (by omega)).symm
  | @seen c i e passages _ _ hc hn inner _ ih =>
      obtain ⟨e', heq, hle, -⟩ := inner.bounds
      obtain rfl := Option.some.inj heq
      rw [codeAt_of_seenTo (seenTo_of_spanEnd? hc hn inner.eq_outcome.symm) (by omega), ← ih]
      simp [codeOf, hc]

theorem blanked_blanked (c : Char) : blanked (blanked c) = blanked c := by
  by_cases hc : c = '\n' <;> simp [blanked, hc]

/-- Whether a range holds an offset. -/
def holds (range : Nat × Nat) (j : Nat) : Prop := range.1 ≤ j ∧ j < range.2

instance (range : Nat × Nat) (j : Nat) : Decidable (holds range j) :=
  inferInstanceAs (Decidable (_ ∧ _))

theorem getElem?_blankRanges (ranges : List (Nat × Nat)) (u : List Char) (j : Nat) :
    (ranges.foldl blankRange u)[j]? =
      u[j]?.map fun c => if ∃ range ∈ ranges, holds range j then blanked c else c := by
  induction ranges generalizing u with
  | nil => simp
  | cons range ranges ih =>
      rw [List.foldl_cons, ih, blankRange, List.getElem?_mapIdx, Option.map_map]
      congr 1
      funext c
      simp only [Function.comp_apply, List.mem_cons, exists_eq_or_imp]
      by_cases hrange : holds range j
      · rw [if_pos (show range.1 ≤ j ∧ j < range.2 from hrange), if_pos (Or.inl hrange),
          blanked_blanked, ite_self]
      · rw [if_neg (show ¬ (range.1 ≤ j ∧ j < range.2) from hrange)]
        simp only [hrange, false_or]

theorem foldl_blankRange_eq {ranges : List (Nat × Nat)} {v : List Char}
    (hlength : v.length = t.length)
    (h : ∀ j c, t[j]? = some c →
      v[j]? = some (if ∃ range ∈ ranges, holds range j then blanked c else c)) :
    ranges.foldl blankRange t = v := by
  refine List.ext_getElem? fun j => ?_
  rw [getElem?_blankRanges]
  cases hc : t[j]? with
  | none =>
      rw [List.getElem?_eq_none_iff, ← hlength] at hc
      rw [List.getElem?_eq_none_iff.mpr hc]
      rfl
  | some c => exact (h j c hc).symm

theorem spanEnd?_of_commentEnd? {e : Nat} (he : commentEnd? t i = some e) :
    spanEnd? t i = some e := by
  have hc : t[i]? = some '/' := by
    obtain ⟨c, hc⟩ : ∃ c, t[i]? = some c :=
      ⟨_, List.getElem?_eq_getElem (lt_length_of_commentEnd? he)⟩
    by_cases hslash : c = '/'
    · rw [hc, hslash]
    · rw [commentEnd?_eq_none_of_ne hc hslash] at he
      cases he
  rw [spanEnd?, hc]
  simp [he, isQuote, backtick]

/-- What a sweep passes over has the roles of a comment, a literal or code. -/
structure Passage.Spans (t : List Char) (p : Passage) : Prop where
  span : Span t p.start p.last
  comment : p.comment = (commentEnd? t p.start).isSome

/-- What a sweep passes over is what starts at the stops of the loop that tells the roles. -/
theorem Sweep.spans (h : Sweep t i passages lookups) (hstop : Stop t i) :
    ∀ p ∈ passages, p.Spans t := by
  have hspans {k e : Nat} (hstop : Stop t k) (he : spanEnd? t k = some e) {comment : Bool}
      (hcomment : comment = (commentEnd? t k).isSome) : Passage.Spans t ⟨k, e, comment⟩ := by
    obtain ⟨e', he', hspan⟩ := exists_span_of_stop hstop (lt_length_of_spanEnd? he)
    obtain rfl := Option.some.inj (he.symm.trans he')
    exact ⟨hspan, hcomment⟩
  induction h with
  | ended _ => nofun
  | comment he _ ih =>
      have hspan := spanEnd?_of_commentEnd? he
      exact List.forall_mem_cons.mpr ⟨hspans hstop hspan (by rw [he]; rfl), ih (.next hstop hspan)⟩
  | seen hc hn inner _ ih =>
      have hspan := inner.eq_outcome.symm
      exact List.forall_mem_cons.mpr ⟨hspans hstop hspan (by rw [hn]; rfl), ih (.next hstop hspan)⟩

/-- A sweep passes over every character from where it starts. -/
theorem Sweep.exists_mem (h : Sweep t i passages lookups) (hij : i ≤ j) (hj : j < t.length) :
    ∃ p ∈ passages, p.start ≤ j ∧ j ≤ p.last := by
  have hnext {p : Passage} {rest : List Passage} (hstart : p.start ≤ j)
      (hrest : p.last + 1 ≤ j → ∃ p ∈ rest, p.start ≤ j ∧ j ≤ p.last) :
      ∃ q ∈ p :: rest, q.start ≤ j ∧ j ≤ q.last := by
    by_cases hlast : j ≤ p.last
    · exact ⟨p, List.mem_cons_self, hstart, hlast⟩
    · obtain ⟨q, hq, hbounds⟩ := hrest (by omega)
      exact ⟨q, List.mem_cons_of_mem p hq, hbounds⟩
  induction h with
  | ended _ => omega
  | comment _ _ ih => exact hnext hij ih
  | seen _ _ _ _ ih => exact hnext hij ih

theorem holds_iff {start stop : Nat} : holds (start, stop) j ↔ start ≤ j ∧ j < stop := Iff.rfl

theorem Passage.hidden_of_comment {p : Passage} (h : p.comment = true) :
    p.hidden = (p.start, p.last + 1) := if_pos h

theorem Passage.hidden_of_seen {p : Passage} (h : p.comment = false) :
    p.hidden = (p.start + 1, p.last) := if_neg (Bool.eq_false_iff.mp h)

theorem Passage.Spans.hidden_iff {p : Passage} (h : p.Spans t) (hstart : p.start ≤ j)
    (hlast : j ≤ p.last) (hj : j < t.length) :
    holds p.hidden j ↔ (roleAt t j).isShown = false := by
  obtain ⟨hspan, hcomment⟩ := h
  cases hspan with
  | comment he roles =>
      rw [he] at hcomment
      rw [Passage.hidden_of_comment hcomment, holds_iff, roles.comment j hstart hlast]
      exact iff_of_true (by omega) rfl
  | literal hn ho roles =>
      rw [hn] at hcomment
      rw [Passage.hidden_of_seen hcomment, holds_iff]
      by_cases hfirst : j = p.start
      · rw [hfirst, roles.opening]
        exact iff_of_false (by omega) nofun
      · by_cases hclosing : j = p.last
        · rw [hclosing, roles.closing (hclosing ▸ hj)]
          exact iff_of_false (by omega) nofun
        · rw [roles.content j (by omega) (by omega)]
          exact iff_of_true (by omega) rfl
  | code hn he role =>
      obtain rfl : j = p.start := by omega
      rw [hn] at hcomment
      rw [Passage.hidden_of_seen hcomment, holds_iff, role]
      exact iff_of_false (by omega) nofun

theorem Passage.Spans.comment_iff {p : Passage} (h : p.Spans t) (hstart : p.start ≤ j)
    (hlast : j ≤ p.last) (hj : j < t.length) : p.comment = true ↔ roleAt t j = .comment := by
  obtain ⟨hspan, hcomment⟩ := h
  rw [hcomment]
  cases hspan with
  | comment he roles => simp [he, roles.comment j hstart hlast]
  | literal hn ho roles =>
      have hrole : roleAt t j ≠ .comment := by
        by_cases hfirst : j = p.start
        · rw [hfirst, roles.opening]
          nofun
        · by_cases hclosing : j = p.last
          · rw [hclosing, roles.closing (hclosing ▸ hj)]
            nofun
          · rw [roles.content j (by omega) (by omega)]
            nofun
      simp [hn, hrole]
  | code hn he role =>
      obtain rfl : j = p.start := by omega
      simp [hn, role]

theorem Passage.bounds_of_holds {p : Passage} (h : holds p.hidden j) :
    p.start ≤ j ∧ j ≤ p.last := by
  cases hcomment : p.comment with
  | true =>
      rw [Passage.hidden_of_comment hcomment, holds_iff] at h
      omega
  | false =>
      rw [Passage.hidden_of_seen hcomment, holds_iff] at h
      omega

theorem Sweep.exists_hidden_iff (h : Sweep t 0 passages lookups) (hj : j < t.length) :
    (∃ range ∈ passages.map Passage.hidden, holds range j) ↔ (roleAt t j).isShown = false := by
  constructor
  · rintro ⟨range, hrange, hholds⟩
    obtain ⟨p, hp, rfl⟩ := List.mem_map.mp hrange
    obtain ⟨hstart, hlast⟩ := Passage.bounds_of_holds hholds
    exact ((h.spans .start p hp).hidden_iff hstart hlast hj).mp hholds
  · intro hrole
    obtain ⟨p, hp, hstart, hlast⟩ := h.exists_mem (Nat.zero_le j) hj
    exact ⟨p.hidden, List.mem_map_of_mem hp,
      ((h.spans .start p hp).hidden_iff hstart hlast hj).mpr hrole⟩

theorem Sweep.exists_comment_iff (h : Sweep t 0 passages lookups) (hj : j < t.length) :
    (∃ range ∈ commentRanges passages, holds range j) ↔ roleAt t j = .comment := by
  constructor
  · rintro ⟨range, hrange, hholds⟩
    obtain ⟨p, hp, rfl⟩ := List.mem_map.mp hrange
    obtain ⟨hp, hcomment⟩ := List.mem_filter.mp hp
    obtain ⟨hstart, hlast⟩ := Passage.bounds_of_holds hholds
    exact ((h.spans .start p hp).comment_iff hstart hlast hj).mp hcomment
  · intro hrole
    obtain ⟨p, hp, hstart, hlast⟩ := h.exists_mem (Nat.zero_le j) hj
    have hspans := h.spans .start p hp
    have hcomment : p.comment = true := (hspans.comment_iff hstart hlast hj).mpr hrole
    exact ⟨p.hidden, List.mem_map_of_mem (List.mem_filter.mpr ⟨hp, hcomment⟩),
      (hspans.hidden_iff hstart hlast hj).mpr (by rw [hrole]; rfl)⟩

/-- A masked script is a text with the insides of literals and the comments blanked out that a
sweep passes over. -/
theorem Sweep.mask_eq (h : Sweep t 0 passages lookups) :
    (passages.map Passage.hidden).foldl blankRange t = mask t := by
  refine foldl_blankRange_eq (length_mask t) fun j c hc => ?_
  have hiff := h.exists_hidden_iff (List.getElem?_eq_some_iff.mp hc).1
  rw [getElem?_mask hc, Role.shown]
  cases hshown : (roleAt t j).isShown with
  | true => rw [if_pos rfl, if_neg (mt hiff.mp (by rw [hshown]; decide))]
  | false => rw [if_neg Bool.false_ne_true, if_pos (hiff.mpr hshown)]

/-- A script without comments is a text with the comments blanked out that a sweep passes over. -/
theorem Sweep.stripComments_eq (h : Sweep t 0 passages lookups) :
    (commentRanges passages).foldl blankRange t = stripComments t := by
  refine foldl_blankRange_eq (length_stripComments t) fun j c hc => ?_
  have hiff := h.exists_comment_iff (List.getElem?_eq_some_iff.mp hc).1
  rw [getElem?_stripComments hc, Role.uncommented]
  by_cases hrole : roleAt t j = .comment
  · rw [if_pos hrole, if_pos (hiff.mpr hrole)]
  · rw [if_neg hrole, if_neg (mt hiff.mp hrole)]

theorem spells_eq (delimiter : List Char) (s : List (Char × Role)) :
    spells delimiter s = (after? delimiter (s.map Prod.fst)).isSome := by
  induction delimiter generalizing s with
  | nil => rfl
  | cons d delimiter ih =>
      cases s with
      | nil => rfl
      | cons entry s =>
          rw [spells, ih, List.map_cons, after?]
          by_cases hd : d = entry.1 <;> simp [hd]

theorem slice_succ {start : Nat} (hc : t[i]? = some c) (hstart : start ≤ i) :
    slice t start (i + 1) = slice t start i ++ [c] := by
  rw [slice, slice, Nat.succ_sub hstart, List.take_add_one, List.getElem?_drop,
    Nat.add_sub_cancel' hstart, hc]
  rfl

theorem slice_of_le {start : Nat} (h : i ≤ start) : slice t start i = [] := by
  rw [slice, Nat.sub_eq_zero_of_le h, List.take_zero]

/-- A text is split along its code: the part that is collected is the text from the end of the last
delimiter on, which may lie ahead. -/
theorem splitFrom_eq_splitAlong (pairing : Pairing) (delimiter : List Char)
    {s : List (Char × Role)} (hchars : s.map Prod.fst = t.drop i) (awaited : List Char)
    (start : Nat) :
    splitFrom pairing delimiter awaited (t.take i).getLast? (start - i) (slice t start i).reverse
        s = splitAlong pairing delimiter t awaited start (seenFrom i s) := by
  induction s generalizing i awaited start with
  | nil =>
      have hi : t.length ≤ i := List.drop_eq_nil_iff.mp hchars.symm
      have hslice : slice t start i = t.drop start :=
        List.take_of_length_le (by rw [List.length_drop]; omega)
      rw [splitFrom, List.reverse_reverse, hslice]
      rfl
  | cons entry s ih =>
      obtain ⟨c, role⟩ := entry
      obtain ⟨hc, hrest⟩ := getElem?_of_drop hchars.symm
      have hlast : (t.take (i + 1)).getLast? = some c := by
        rw [List.take_add_one, hc, Option.toList_some, List.getLast?_concat]
      have hnext := @ih (i + 1) hrest.symm
      rw [hlast] at hnext
      -- a character goes into the part, unless the part starts further on
      have hpass (next : List Char) (hskip : start - i = 0) :
          splitFrom pairing delimiter next (some c) 0 (c :: (slice t start i).reverse) s =
            splitAlong pairing delimiter t next start (seenFrom (i + 1) s) := by
        rw [← hnext next start, Nat.sub_eq_zero_of_le (by omega), slice_succ hc (by omega),
          List.reverse_concat]
      have hwait {skip : Nat} (next : List Char) (hskip : start - i = skip + 1) :
          splitFrom pairing delimiter next (some c) skip (slice t start i).reverse s =
            splitAlong pairing delimiter t next start (seenFrom (i + 1) s) := by
        have hrest : start - (i + 1) = skip := by omega
        rw [← hnext next start, hrest, slice_of_le (by omega), slice_of_le (by omega)]
      rw [splitFrom.eq_def, seenFrom_cons]
      dsimp only
      cases hseen : role.isSeen with
      | false =>
          rw [if_neg Bool.false_ne_true, if_neg Bool.false_ne_true]
          cases hskip : start - i with
          | zero => exact hpass awaited hskip
          | succ skip => exact hwait awaited hskip
      | true =>
          rw [if_pos rfl, if_pos rfl, splitAlong]
          cases hstep : bracketStep? pairing awaited (t.take i).getLast? c with
          | some next =>
              cases hskip : start - i with
              | zero => exact hpass next hskip
              | succ skip => exact hwait next hskip
          | none =>
              dsimp only
              rw [spells_eq, hchars, List.reverse_reverse]
              split
              · congr 1
                have hmore := hnext [] (i + delimiter.length)
                cases delimiter with
                | nil =>
                    rw [List.length_nil, Nat.add_zero] at hmore ⊢
                    rw [Nat.sub_eq_zero_of_le (Nat.le_succ i), slice_succ hc (Nat.le_refl i),
                      slice_of_le (Nat.le_refl i)] at hmore
                    exact hmore
                | cons d more =>
                    rw [List.length_cons] at hmore ⊢
                    rw [slice_of_le (by omega), (by omega : i + (more.length + 1) - (i + 1) =
                      more.length)] at hmore
                    exact hmore
              · cases hskip : start - i with
                | zero => exact hpass awaited hskip
                | succ skip => exact hwait awaited hskip

/-- The parts of a text are those along its code. -/
theorem splitAlong_codeAt (pairing : Pairing) (delimiter t : List Char) :
    splitAlong pairing delimiter t [] 0 (codeAt t 0) = split pairing delimiter t :=
  (splitFrom_eq_splitAlong pairing delimiter (scanAt_chars t 0) [] 0).symm

theorem quotedContents_unseen {inside : List (Char × Role)}
    (hunseen : ∀ entry ∈ inside, entry.2.isSeen = false) (s : List (Char × Role)) :
    quotedContents none (inside ++ s) = quotedContents none s := by
  induction inside with
  | nil => rfl
  | cons entry inside ih =>
      obtain ⟨hentry, hinside⟩ := List.forall_mem_cons.mp hunseen
      obtain ⟨c, role⟩ := entry
      cases role with
      | code | opening => cases hentry
      | content | closing | comment => exact ih hinside

theorem lt_length_of_distanceOut? {regions : List Region} {before u : List Char} {d : Nat}
    (h : distanceOut? before regions u = some d) : d < u.length := by
  induction u generalizing before regions d with
  | nil => cases h
  | cons c u ih =>
      rw [distanceOut?] at h
      split at h
      · obtain rfl := Option.some.inj h
        exact Nat.succ_pos _
      · obtain ⟨d, hd, rfl⟩ := Option.map_eq_some_iff.mp h
        exact Nat.succ_lt_succ (ih hd)

/-- The contents of a literal that is open go up to the character that leaves it. -/
theorem quotedContents_inLiteral {regions : List Region} (h : inLiteral regions = true)
    (inside before u : List Char) :
    quotedContents (some inside) (scanFrom before regions u) =
      match distanceOut? before regions u with
      | some d => (inside.reverse ++ u.take d) ::
          quotedContents none (scanFrom ((u.take (d + 1)).reverse ++ before) [] (u.drop (d + 1)))
      | none => [] := by
  induction u generalizing inside before regions with
  | nil => rfl
  | cons c u ih =>
      rcases inLiteral_step h before c u with hafter | ⟨rfl, hquote⟩
      · have hne : step before c u regions ≠ [] := by
          intro hnil
          rw [hnil] at hafter
          cases hafter
        rw [scanFrom, between_of_inLiteral h hne, quotedContents, ih hafter,
          distanceOut?_cons rfl hne]
        cases distanceOut? (c :: before) (step before c u regions) u <;> simp
      · have hstep : step before c u [.quoted c] = [] := step_quoted_close hquote before u
        rw [scanFrom, distanceOut?, hstep]
        simp [Role.between, isComment, quotedContents]

/-- A single- or double-quoted literal gives its contents, if it is closed. -/
theorem quotedContents_quote (hc : t[i]? = some c) (hquote : c = '"' ∨ c = '\'') :
    (quotedContents none (scanAt t i)).map unescape =
      (quotedText? t (i, c)).toList ++
        (quotedContents none (scanAt t (literalStop t c (i + 1) + 1))).map unescape := by
  have hisQuote : isQuote c = true := by rcases hquote with rfl | rfl <;> rfl
  have hopened : (opened? (t.take i).reverse c (t.drop (i + 1))).toList = [.quoted c] := by
    rw [opened?, if_pos hisQuote]
    rfl
  have hrole : Role.between [] [.quoted c] = .opening := rfl
  have hcontents := @quotedContents_inLiteral [.quoted c] hisQuote []
    (t.take (i + 1)).reverse (t.drop (i + 1))
  rw [scanAt_cons hc hopened, hrole, quotedContents, if_pos (by simpa using hquote), hcontents,
    quotedText?, if_pos hquote, literalEnd?_eq_literalStop hc, literalStop]
  cases hd : distanceOut? (t.take (i + 1)).reverse [.quoted c] (t.drop (i + 1)) with
  | none =>
      dsimp only
      rw [scanAt_of_length_le (Nat.le_succ _), Option.bind_some, if_neg (Nat.lt_irrefl _)]
      rfl
  | some d =>
      have hlt := lt_length_of_distanceOut? hd
      rw [List.length_drop] at hlt
      dsimp only
      rw [Option.bind_some, if_pos (by omega), slice, Nat.add_sub_cancel_left, scanAt,
        List.drop_drop, ← List.reverse_append, ← List.take_add, Nat.add_assoc (i + 1) d 1]
      rfl

/-- What is seen and no single or double quote starts no quoted text. -/
theorem quotedContents_other (h : SeenTo t i c j) (hij : i < j) (hquote : ¬ (c = '"' ∨ c = '\'')) :
    quotedContents none (scanAt t i) = quotedContents none (scanAt t j) := by
  obtain ⟨regions, hrole, hscan, hpass⟩ := h
  obtain ⟨inside, hunseen, hinside, -⟩ := hpass.exists_inside hij
  rw [hscan, hinside]
  have hfirst (s : List (Char × Role)) :
      quotedContents none ((c, Role.between [] regions) :: s) = quotedContents none s := by
    cases hbetween : Role.between [] regions with
    | code => rfl
    | opening => rw [quotedContents, if_neg (by simpa using hquote)]
    | content | closing | comment =>
        rw [hbetween] at hrole
        cases hrole
  rw [hfirst, quotedContents_unseen hunseen]

/-- The quoted texts of a script are those that start at its code. -/
theorem Sweep.quotedTexts_eq (h : Sweep t i passages lookups) :
    (codeOf t passages).filterMap (quotedText? t) =
      (quotedContents none (scanAt t i)).map unescape := by
  induction h with
  | ended hi =>
      rw [scanAt_of_length_le hi]
      rfl
  | @comment i e _ _ he _ ih =>
      obtain ⟨hlt, -, hpass⟩ := passesTo_comment he
      obtain ⟨inside, hunseen, hinside, -⟩ := hpass.exists_inside (by omega)
      have hscan : scanAt t i = inside ++ scanAt t (e + 1) := hinside
      rw [hscan, quotedContents_unseen hunseen]
      exact ih
  | @seen c i e passages _ _ hc hn inner _ ih =>
      obtain ⟨e', heq, hle, -⟩ := inner.bounds
      obtain rfl := Option.some.inj heq
      have hspan : spanEnd? t i = some e := inner.eq_outcome.symm
      have hcode : (codeOf t (⟨i, e, false⟩ :: passages)).filterMap (quotedText? t) =
          (quotedText? t (i, c)).toList ++ (codeOf t passages).filterMap (quotedText? t) := by
        have hcons : codeOf t (⟨i, e, false⟩ :: passages) = (i, c) :: codeOf t passages := by
          simp [codeOf, hc]
        rw [hcons, List.filterMap_cons]
        cases quotedText? t (i, c) <;> rfl
      rw [hcode, ih]
      by_cases hquote : c = '"' ∨ c = '\''
      · have hend : e = literalStop t c (i + 1) := by
          have hisQuote : isQuote c = true := by rcases hquote with rfl | rfl <;> rfl
          rw [spanEnd?, hc] at hspan
          dsimp only at hspan
          rw [if_pos hisQuote, literalEnd?_eq_literalStop hc] at hspan
          exact (Option.some.inj hspan).symm
        rw [quotedContents_quote hc hquote, hend]
      · rw [quotedContents_other (seenTo_of_spanEnd? hc hn hspan) (by omega) hquote, quotedText?,
          if_neg hquote]
        rfl

/-- Whether a text is read as these passages over it tell, whatever it is read for. -/
structure ReadsAlong (t : List Char) (passages : List Passage) : Prop where
  code : codeOf t passages = codeAt t 0
  mask : (passages.map Passage.hidden).foldl blankRange t = mask t
  stripComments : (commentRanges passages).foldl blankRange t = stripComments t
  split : ∀ pairing delimiter,
    splitAlong pairing delimiter t [] 0 (codeOf t passages) = split pairing delimiter t
  stringLiterals : (codeOf t passages).filterMap (quotedText? t) = stringLiterals t

theorem Sweep.readsAlong (h : Sweep t 0 passages lookups) : ReadsAlong t passages where
  code := h.codeOf_eq
  mask := h.mask_eq
  stripComments := h.stripComments_eq
  split pairing delimiter := by rw [h.codeOf_eq, splitAlong_codeAt]
  stringLiterals := h.quotedTexts_eq

end Sweeps

end PluginContract.Script
