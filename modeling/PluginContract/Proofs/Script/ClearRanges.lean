import PluginContract.Proofs.Script.Lockstep
import PluginContract.Proofs.Script.Shown
import PluginContract.Proofs.Text.Occurrences

/-!
# Pieces of a script with comments only

Where a masked script shows no quote and no slash, nothing but code and comments stands. Such a
piece shows just what is left of it once its comments are blanked, and if it starts and ends in
code, this is also what blanking leaves of the piece alone.
-/

namespace PluginContract.Script

open Text Region

section Piece

variable {before before' rest rest' v w : List Char} {c : Char} {regions : List Region}

/-- From code or a comment a plain character leads to code or a comment, and what it leads to is
seen from the next character alone. -/
theorem step_of_isPlain (hout : outsideLiterals regions = true)
    (hplain : isPlain ((Role.between regions (step before c rest regions)).shown c) = true) :
    outsideLiterals (step before c rest regions) = true ∧
      ∀ before' rest', rest'.head? = rest.head? →
        step before' c rest' regions = step before c rest regions := by
  rcases eq_nil_or_comment_of_outsideLiterals hout with rfl | ⟨region, rfl, hcomment⟩
  · rw [shown_step_nil] at hplain
    cases ho : opensComment c rest with
    | true =>
        constructor
        · rcases opened?_of_opensComment ho before with h | h <;> rw [step, h] <;> rfl
        · intro before' rest' hhead
          exact congrArg Option.toList (opened?_congr_of_opensComment ho hhead _ _)
    | false =>
        rw [ho, if_neg Bool.false_ne_true] at hplain
        have hstep (before rest : List Char) : step before c rest [] = [] :=
          congrArg Option.toList (opened?_of_isPlain hplain before rest)
        rw [hstep]
        exact ⟨rfl, fun before' rest' _ => hstep before' rest'⟩
  · have hcode : inCode [region] = false := by
      cases region with
      | lineComment | blockOpening | blockComment | blockClosing => rfl
      | _ => cases hcomment
    refine ⟨outsideLiterals_step_comment hcomment before c rest, fun before' rest' hhead => ?_⟩
    exact step_congr (fun h => absurd h (by simp [hcode])) hhead

theorem outsideLiterals_regionsFrom (hout : outsideLiterals regions = true)
    (hplain : Plain ((maskFrom before regions (v ++ w)).take v.length)) :
    outsideLiterals (regionsFrom before regions (v ++ w) v.length) = true := by
  induction v generalizing before regions with
  | nil =>
      rw [List.length_nil, regionsFrom_zero]
      exact hout
  | cons c v ih =>
      rw [List.cons_append, maskFrom_cons, List.length_cons, List.take_succ_cons] at hplain
      obtain ⟨hc, hv⟩ := Bool.and_eq_true_iff.mp hplain
      exact ih (step_of_isPlain hout hc).1 hv

/-- A piece shows what is left of it once its comments are blanked. -/
theorem take_uncommentFrom (hout : outsideLiterals regions = true)
    (hplain : Plain ((maskFrom before regions (v ++ w)).take v.length)) :
    (uncommentFrom before regions (v ++ w)).take v.length =
      (maskFrom before regions (v ++ w)).take v.length := by
  induction v generalizing before regions with
  | nil => rfl
  | cons c v ih =>
      rw [List.cons_append, maskFrom_cons, List.length_cons, List.take_succ_cons] at hplain
      obtain ⟨hc, hv⟩ := Bool.and_eq_true_iff.mp hplain
      rw [List.cons_append, uncommentFrom_cons, maskFrom_cons, List.length_cons,
        List.take_succ_cons, List.take_succ_cons, shown_eq_uncommented hout,
        ih (step_of_isPlain hout hc).1 hv]

/-- Alone the piece is scanned as it is in its place, if nothing comes after it there or all
comments end in it. -/
theorem scanFrom_alone (hout : outsideLiterals regions = true)
    (hplain : Plain ((maskFrom before regions (v ++ w)).take v.length))
    (hend : w = [] ∨ regionsFrom before regions (v ++ w) v.length = []) (before' : List Char) :
    scanFrom before' regions v = (scanFrom before regions (v ++ w)).take v.length := by
  induction v generalizing before before' regions with
  | nil => rfl
  | cons c v ih =>
      rw [List.cons_append, maskFrom_cons, List.length_cons, List.take_succ_cons] at hplain
      obtain ⟨hc, hv⟩ := Bool.and_eq_true_iff.mp hplain
      rw [List.cons_append, List.length_cons, regionsFrom] at hend
      obtain ⟨hnext, hstep⟩ := step_of_isPlain hout hc
      rw [List.cons_append, scanFrom, scanFrom, List.length_cons, List.take_succ_cons]
      by_cases hhead : v.head? = (v ++ w).head?
      · have hsame : step before' c v regions = step before c (v ++ w) regions :=
          hstep before' v hhead
        rw [hsame, ih hnext hv hend (c :: before')]
      · -- What comes after the last character is looked at, but that opens nothing and closes all.
        obtain rfl : v = [] := by
          cases v with
          | nil => rfl
          | cons d v => exact absurd rfl hhead
        have hclosed : step before c w regions = [] := by
          rcases hend with rfl | hend
          · exact absurd rfl hhead
          · rwa [List.length_nil, regionsFrom_zero] at hend
        refine congrArg (fun role => [(c, role)]) ?_
        rcases eq_nil_or_comment_of_outsideLiterals hout with rfl | ⟨region, rfl, hcomment⟩
        · have ho : opensComment c w = false := by
            apply Bool.eq_false_iff.mpr
            intro ho
            rcases opened?_of_opensComment ho before with h | h <;> rw [step, h] at hclosed <;>
              cases hclosed
          rw [List.nil_append, shown_step_nil, ho, if_neg Bool.false_ne_true] at hc
          rw [step, step, opened?_of_isPlain hc, opened?_of_isPlain hc]
        · rw [between_comment hcomment, between_comment hcomment]

end Piece

section Offsets

variable {t : List Char} {a b j : Nat} {c : Char}

/-- A character that a masked script shows outside of literals is in code. -/
theorem regionsAt_of_visible (hout : outsideLiterals (regionsAt t j) = true)
    (h : (mask t)[j]? = some c) (hblank : isBlank c = false) :
    regionsAt t j = [] ∧ t[j]? = some c := by
  have hj : j < t.length := by
    have := (List.getElem?_eq_some_iff.mp h).1
    rwa [length_mask] at this
  have hd : t[j]? = some t[j] := List.getElem?_eq_getElem hj
  have hshown : (roleAt t j).shown t[j] = c :=
    Option.some.inj ((getElem?_mask hd).symm.trans h)
  rw [roleAt, regionsAt_succ hd] at hshown
  rcases eq_nil_or_comment_of_outsideLiterals hout with hregions | ⟨region, hregions, hcomment⟩
  · rw [hregions, shown_step_nil] at hshown
    split at hshown
    · rw [← hshown] at hblank
      cases hblank
    · rw [hd, hshown]
      exact ⟨hregions, rfl⟩
  · rw [hregions, between_comment hcomment, Role.shown_comment] at hshown
    rw [← hshown] at hblank
    rcases blanked_eq t[j] with heq | heq <;> rw [heq] at hblank <;> cases hblank

theorem regionsAt_succ_of_isPlain (hregions : regionsAt t j = []) (hc : t[j]? = some c)
    (hplain : isPlain c = true) : regionsAt t (j + 1) = [] := by
  rw [regionsAt_succ_of_nil hregions hc, opened?_of_isPlain hplain]
  rfl

/-- A range of offsets that starts in code or in a comment, and for which a masked script shows
neither a quote nor a slash. -/
structure Clear (t : List Char) (a b : Nat) : Prop where
  le : a ≤ b
  bound : b ≤ t.length
  outside : outsideLiterals (regionsAt t a) = true
  plain : Plain (slice (mask t) a b)

/-- A range that starts with a visible character starts in code. -/
theorem clear_of_visible (hc : (mask t)[a]? = some c) (hplain : isPlain c = true)
    (hblank : isBlank c = false) (hle : a ≤ b) (hbound : b ≤ t.length)
    (hslice : Plain (slice (mask t) a b)) : Clear t a b where
  le := hle
  bound := hbound
  outside := by
    rw [regionsAt_of_code (code_of_getElem?_mask hc hplain hblank).2]
    rfl
  plain := hslice

namespace Clear

theorem drop_eq (h : Clear t a b) : t.drop a = slice t a b ++ t.drop b := by
  have hdrop : t.drop b = (t.drop a).drop (b - a) := by
    rw [List.drop_drop, Nat.add_sub_cancel' h.le]
  rw [slice, hdrop, List.take_append_drop]

theorem length_slice (h : Clear t a b) : (slice t a b).length = b - a := by
  have hbound := h.bound
  rw [Text.length_slice]
  omega

theorem slice_mask (h : Clear t a b) :
    slice (mask t) a b = (maskFrom (t.take a).reverse (regionsAt t a)
      (slice t a b ++ t.drop b)).take (slice t a b).length := by
  rw [h.length_slice, ← h.drop_eq, ← drop_mask]
  rfl

theorem plain_take (h : Clear t a b) : Plain ((maskFrom (t.take a).reverse (regionsAt t a)
    (slice t a b ++ t.drop b)).take (slice t a b).length) := h.slice_mask ▸ h.plain

theorem regionsAt_end (h : Clear t a b) :
    regionsAt t b = regionsFrom (t.take a).reverse (regionsAt t a) (slice t a b ++ t.drop b)
      (slice t a b).length := by
  rw [regionsAt_eq h.le h.bound, h.length_slice, ← h.drop_eq]

/-- The range also ends in code or in a comment. -/
theorem outside_end (h : Clear t a b) : outsideLiterals (regionsAt t b) = true := by
  rw [h.regionsAt_end]
  exact outsideLiterals_regionsFrom h.outside h.plain_take

theorem slice_stripComments (h : Clear t a b) :
    slice (stripComments t) a b = slice (mask t) a b := by
  rw [h.slice_mask, ← take_uncommentFrom h.outside h.plain_take, ← h.drop_eq, h.length_slice,
    ← drop_stripComments]
  rfl

section Whole

variable (h : Clear t a b) (hstart : regionsAt t a = []) (hend : regionsAt t b = [])
include h hstart hend

/-- If the range starts and ends in code, its text alone is scanned as it is in its place. -/
theorem scan_slice : scan (slice t a b) = ((scan t).drop a).take (b - a) := by
  have halone := scanFrom_alone h.outside h.plain_take (Or.inr (h.regionsAt_end ▸ hend)) []
  rw [hstart, ← h.drop_eq, h.length_slice] at halone
  rw [drop_scan, hstart]
  exact halone

theorem mask_slice : mask (slice t a b) = slice (mask t) a b := by
  rw [mask, h.scan_slice hstart hend, List.map_take, List.map_drop]
  rfl

end Whole

theorem take {d : Nat} (h : Clear t a b) (had : a ≤ d) (hdb : d ≤ b) : Clear t a d where
  le := had
  bound := Nat.le_trans hdb h.bound
  outside := h.outside
  plain := by
    have hslice : slice (mask t) a d = (slice (mask t) a b).take (d - a) := by
      rw [slice, slice, List.take_take, Nat.min_eq_left (by omega)]
    rw [hslice]
    exact List.all_eq_true.mpr fun c hc => List.all_eq_true.mp h.plain c (List.mem_of_mem_take hc)

theorem drop {d : Nat} (h : Clear t a b) (had : a ≤ d) (hdb : d ≤ b) : Clear t d b where
  le := hdb
  bound := h.bound
  outside := (h.take had hdb).outside_end
  plain := by
    have hslice : slice (mask t) d b = (slice (mask t) a b).drop (d - a) := by
      rw [slice, slice, List.drop_take, List.drop_drop, Nat.add_sub_cancel' had,
        show b - a - (d - a) = b - d by omega]
    rw [hslice]
    exact List.all_eq_true.mpr fun c hc => List.all_eq_true.mp h.plain c (List.mem_of_mem_drop hc)

/-- A range that shows no blank at its ends starts and ends in code. -/
theorem regionsAt_of_solid (h : Clear t a b) (hsolid : Solid (slice (mask t) a b)) :
    regionsAt t a = [] ∧ regionsAt t b = [] := by
  obtain ⟨⟨c, hc, hblank⟩, d, hd, hblank'⟩ := hsolid
  rw [Option.mem_def] at hc hd
  have hdplain : isPlain d = true := List.all_eq_true.mp h.plain d (List.mem_of_mem_getLast? hd)
  have hbound := h.bound
  have hle := h.le
  have hlength : (slice (mask t) a b).length = b - a := by
    rw [Text.length_slice, length_mask]
    omega
  have hlt : a < b := by
    apply Nat.lt_of_le_of_ne hle
    rintro rfl
    rw [slice, Nat.sub_self] at hc
    cases hc
  rw [List.head?_eq_getElem?, slice, List.getElem?_take_of_lt (by omega), List.getElem?_drop] at hc
  rw [List.getLast?_eq_getElem?, hlength, slice, List.getElem?_take_of_lt (by omega),
    List.getElem?_drop] at hd
  have hout : outsideLiterals (regionsAt t (a + (b - a - 1))) = true :=
    (h.take (d := a + (b - a - 1)) (by omega) (by omega)).outside_end
  obtain ⟨hlast, hchar⟩ := regionsAt_of_visible hout hd hblank'
  have hend := regionsAt_succ_of_isPlain hlast hchar hdplain
  rw [show a + (b - a - 1) + 1 = b by omega] at hend
  exact ⟨(regionsAt_of_visible h.outside hc hblank).1, hend⟩

/-- A comment that no line end follows ends with a slash. -/
theorem eq_slash_of_comment_end (h : Clear t a b) (hlt : a < b) {d : Char} (hd : t[b]? = some d)
    (hopen : regionsAt t b ≠ []) (hnext : regionsAt t (b + 1) = [])
    (hline : t[b + 1]? ≠ some '\n') : d = '/' := by
  have hb := regionsAt_succ hd
  rw [hnext] at hb
  rcases eq_nil_or_comment_of_outsideLiterals h.outside_end with
    hregions | ⟨region, hregions, hcomment⟩
  · exact absurd hregions hopen
  · rw [hregions] at hb
    cases region with
    | lineComment =>
        simp only [step] at hb
        split at hb
        · rename_i hhead
          rw [List.head?_drop] at hhead
          exact absurd hhead hline
        · cases hb
    | blockComment =>
        simp only [step] at hb
        split at hb <;> cases hb
    | blockClosing =>
        -- The character before has seen the slash that it goes on to.
        have hlength := (List.getElem?_eq_some_iff.mp hd).1
        have hprev : t[b - 1]? = some t[b - 1] := List.getElem?_eq_getElem (by omega)
        have hstep := regionsAt_succ hprev
        rw [show b - 1 + 1 = b by omega, hregions] at hstep
        have hbefore := (h.take (d := b - 1) (by omega) (by omega)).outside_end
        have hhead := head?_of_step_blockClosing hbefore hstep.symm
        rw [List.head?_drop, hd] at hhead
        exact Option.some.inj hhead
    | blockOpening => cases hb
    | _ => cases hcomment

end Clear

end Offsets

section Text

variable {u v w : List Char} {c : Char}

theorem stripComments_eq_mask (h : Plain (mask w)) : stripComments w = mask w := by
  have hplain : Plain ((maskFrom [] [] (w ++ [])).take w.length) := by
    rw [List.append_nil, ← mask_eq, List.take_of_length_le (Nat.le_of_eq (length_mask w))]
    exact h
  have htake := take_uncommentFrom rfl hplain
  rwa [List.append_nil, ← mask_eq, ← stripComments_eq,
    List.take_of_length_le (Nat.le_of_eq (length_stripComments w)),
    List.take_of_length_le (Nat.le_of_eq (length_mask w))] at htake

/-- After plain code the rest of a text with comments only is scanned as it is alone. -/
theorem scan_append_of_plain (hu : Plain u) (h : Plain (mask (u ++ w))) :
    scan (u ++ w) = asCode u ++ scan w := by
  have hmask : mask (u ++ w) = u ++ maskFrom (u.reverse ++ []) [] w := maskFrom_plain hu [] w
  have hw : Plain ((maskFrom (u.reverse ++ []) [] (w ++ [])).take w.length) := by
    rw [hmask, Plain, List.all_append, Bool.and_eq_true] at h
    rw [List.append_nil w, List.take_of_length_le (by simp [maskFrom])]
    exact h.2
  have halone := scanFrom_alone rfl hw (Or.inl rfl) []
  rw [List.append_nil w, List.take_of_length_le (Nat.le_of_eq (length_scanFrom _ _ w))] at halone
  rw [scan, scanFrom_plain hu, ← halone]
  rfl

theorem mask_append_of_plain (hu : Plain u) (h : Plain (mask (u ++ w))) :
    mask (u ++ w) = u ++ mask w := by
  rw [mask, scan_append_of_plain hu h, List.map_append, asCode, List.map_map]
  exact congrArg (· ++ mask w) (List.map_id u)

theorem plain_mask_of_append (hu : Plain u) (h : Plain (mask (u ++ w))) : Plain (mask w) := by
  rw [mask_append_of_plain hu h, Plain, List.all_append, Bool.and_eq_true] at h
  exact h.2

/-- A name at the start of such a text is shown, and what is shown as one is a name. -/
theorem exists_of_mask_eq_append (hv : ∀ c ∈ v, isNameChar c = true) (hplain : Plain (mask w))
    (h : mask w = v ++ u) : ∃ w', w = v ++ w' ∧ mask w' = u := by
  have hprefix : v <+: (mask w).drop 0 := ⟨u, h.symm⟩
  obtain ⟨w', hw⟩ := prefix_drop_of_mask hv hprefix
  rw [List.drop_zero] at hw
  have hname : Plain v := List.all_eq_true.mpr fun c hc => isPlain_of_isNameChar (hv c hc)
  rw [← hw] at hplain h
  rw [mask_append_of_plain hname hplain] at h
  exact ⟨w', hw.symm, List.append_cancel_left h⟩

theorem exists_mask_cons (hc : c ≠ '/') (w : List Char) : ∃ v, mask (c :: w) = c :: v := by
  rw [mask_eq, maskFrom_cons, shown_step_nil, opensComment_of_ne hc, if_neg Bool.false_ne_true]
  exact ⟨_, rfl⟩

/-- A slash in such a text starts a comment. -/
theorem exists_mask_slash (h : Plain (mask ('/' :: w))) : ∃ v, mask ('/' :: w) = ' ' :: v := by
  rw [mask_eq, maskFrom_cons, shown_step_nil] at h ⊢
  cases ho : opensComment '/' w with
  | true => exact ⟨_, rfl⟩
  | false =>
      rw [ho, if_neg Bool.false_ne_true] at h
      cases (Bool.and_eq_true_iff.mp h).1

/-- What such a text starts and ends with is shown if it is no blank. -/
theorem solid_of_mask (hplain : Plain (mask w)) (h : Solid (mask w)) : Solid w := by
  obtain ⟨⟨c, hc, hblank⟩, d, hd, hblank'⟩ := h
  rw [Option.mem_def] at hc hd
  have hcplain : isPlain c = true :=
    List.all_eq_true.mp hplain c (List.mem_of_mem_head? hc)
  have hdplain : isPlain d = true :=
    List.all_eq_true.mp hplain d (List.mem_of_mem_getLast? hd)
  rw [List.head?_eq_getElem?] at hc
  rw [List.getLast?_eq_getElem?, length_mask] at hd
  refine ⟨⟨c, ?_, hblank⟩, d, ?_, hblank'⟩
  · rw [List.head?_eq_getElem?]
    exact (code_of_getElem?_mask hc hcplain hblank).1
  · rw [List.getLast?_eq_getElem?]
    exact (code_of_getElem?_mask hd hdplain hblank').1

end Text

end PluginContract.Script
