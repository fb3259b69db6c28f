import PluginContract.Proofs.Script.Lockstep
import PluginContract.Proofs.Script.Terminated

/-!
# Scripts with slashes in comments and literals only

A slash that divides or opens a regular expression is read by what stands before it, and that
may be a comment. Without such slashes outside of literals, blanking the comments of a script
changes the role of no character but those of the comments, and these become code.
-/

namespace PluginContract.Script

open Text Region

/-- Whether a slash that starts no comment lies in a literal. There it is in an interpolation, and
it divides or opens a regular expression that closes. -/
def slashHidden (before : List Char) (regions : List Region) (rest : List Char) : Bool :=
  !regions.isEmpty && (!expectsOperand before || (regexLength? false rest).isSome)

/-- Whether slashes stand in comments and in literals only, from a place on. -/
def slashesHidden : (before : List Char) → (regions : List Region) → List Char → Bool
  | _, _, [] => true
  | before, regions, c :: rest =>
      (!(c == '/' && inCode regions && !opensComment c rest) || slashHidden before regions rest) &&
        slashesHidden (c :: before) (step before c rest regions) rest

/-- Whether slashes stand in the comments and the literals of a script only. -/
def HidesSlashes (t : List Char) : Prop := slashesHidden [] [] t = true

instance (t : List Char) : Decidable (HidesSlashes t) :=
  inferInstanceAs (Decidable (slashesHidden [] [] t = true))

/-- A scanned character once comments are blanked. -/
def bare (entry : Char × Role) : Char × Role :=
  if entry.2 = .comment then (blanked entry.1, .code) else entry

section Scan

variable {before before' rest : List Char} {c : Char} {regions regions' : List Region}

theorem slashesHidden_cons (h : slashesHidden before regions (c :: rest) = true) :
    (c = '/' → inCode regions = true → opensComment c rest = false →
      slashHidden before regions rest = true) ∧
    slashesHidden (c :: before) (step before c rest regions) rest = true := by
  rw [slashesHidden, Bool.and_eq_true] at h
  refine ⟨fun hc hcode ho => ?_, h.2⟩
  have hslash := h.1
  rw [hcode, ho, hc] at hslash
  exact hslash

/-- Outside of literals a slash opens a comment. -/
theorem opensComment_of_hidden (h : slashesHidden before [] (c :: rest) = true) (hc : c = '/') :
    opensComment c rest = true := by
  cases ho : opensComment c rest with
  | true => rfl
  | false => exact absurd ((slashesHidden_cons h).1 hc rfl ho) (by simp [slashHidden])

/-- A slash in an interpolation opens the same once comments are blanked. A regular expression
that closes lies in the literal, and what stands before the slash is the same up to a brace. -/
theorem slashAgrees_of_hidden (h : inLiteral regions = true)
    (he : 2 ≤ regions.length → Enclosed before before' ∨ (c :: rest).head? = some '{')
    (hidden : slashesHidden before regions (c :: rest) = true) :
    SlashAgrees before before' regions c rest
      (uncommentFrom (c :: before) (step before c rest regions) rest) := by
  rintro rfl hcode ho
  left
  match regions, hcode with
  | .interpolation closers :: outer, _ =>
      have houter : outer ≠ [] := by
        rintro rfl
        cases h
      have henclosed : Enclosed before before' := by
        refine (he (Nat.succ_le_succ (List.length_pos_iff.mpr houter))).resolve_right ?_
        simp
      have hs : inLiteral (step before '/' rest (.interpolation closers :: outer)) = true := by
        rcases inLiteral_step h before '/' rest with hs | ⟨hq, -⟩
        · exact hs
        · cases hq
      have ho' := ho
      rw [← opensComment_congr (head?_uncommentFrom_literal hs ('/' :: before) rest)] at ho'
      have hslash := (slashesHidden_cons hidden).1 rfl rfl ho
      rw [opened?_slash ho', opened?_slash ho, henclosed.expectsOperand_eq]
      cases hoperand : expectsOperand before' with
      | false => rfl
      | true =>
          have hbefore : expectsOperand before = true := henclosed.expectsOperand_eq.trans hoperand
          rw [slashHidden, hbefore] at hslash
          obtain ⟨n, hn⟩ := Option.isSome_iff_exists.mp hslash
          have hopened : opened? before '/' rest = some (regex n) := by
            rw [opened?_slash ho, hbefore, hn]
            rfl
          rw [step_interpolation_of_opened hopened, regexLength?_uncommentFrom hn, hn]

/-- How the scan of a script and its scan once comments are blanked stand to each other: both are
outside of literals, or both in the same one. An interpolation starts with a brace, so the texts
before are the same back to there. -/
inductive Alongside (before before' rest : List Char) : List Region → List Region → Prop
  | code {regions : List Region} (outside : outsideLiterals regions = true) :
      Alongside before before' rest regions []
  | literal {regions : List Region} (inside : inLiteral regions = true)
      (enclosed : 2 ≤ regions.length → Enclosed before before' ∨ rest.head? = some '{') :
      Alongside before before' rest regions regions

theorem Alongside.outside_or_inside (h : Alongside before before' rest regions regions') :
    outsideLiterals regions = true ∨ inLiteral regions = true := by
  cases h with
  | code outside => exact Or.inl outside
  | literal inside _ => exact Or.inr inside

/-- What a character opens that is no slash, or starts a comment. -/
theorem step_nil_cases (hc : c = '/' → opensComment c rest = true)
    (before text text' : List Char) :
    (opensComment c rest = true ∧ Role.between [] (step before c rest []) = .comment ∧
        outsideLiterals (step before c rest []) = true) ∨
      opensComment c rest = false ∧ c ≠ '/' ∧
        Alongside text text' rest (step before c rest []) (step before c rest []) := by
  cases ho : opensComment c rest with
  | true =>
      left
      refine ⟨rfl, between_of_opensComment ho before, ?_⟩
      rcases opened?_of_opensComment ho before with h | h <;> rw [step, h] <;> rfl
  | false =>
      right
      have hne : c ≠ '/' := by
        intro hslash
        rw [hc hslash] at ho
        cases ho
      refine ⟨rfl, hne, ?_⟩
      rcases opened?_cases ho before with h | ⟨hq, h⟩ | ⟨hslash, -⟩
      · rw [step, h]
        exact .code rfl
      · rw [step, h]
        exact .literal (by simpa [inLiteral] using hq) fun hl => absurd hl (by simp)
      · exact absurd hslash hne

/-- Side by side, the two scans give every character the same role, comments apart. -/
theorem Alongside.scanFrom_eq (h : Alongside before before' rest regions regions')
    (hidden : slashesHidden before regions rest = true) :
    scanFrom before' regions' (uncommentFrom before regions rest) =
      (scanFrom before regions rest).map bare := by
  induction rest generalizing before before' regions regions' with
  | nil => rfl
  | cons c rest ih =>
      have hrest := (slashesHidden_cons hidden).2
      cases h with
      | code outside =>
          match regions, outside with
          | [], _ =>
              rw [uncommentFrom_code_cons]
              rcases step_nil_cases (opensComment_of_hidden hidden) before (c :: before)
                (c :: before') with ⟨ho, hrole, houtside⟩ | ⟨ho, hne, hnext⟩
              · obtain rfl := eq_slash_of_opensComment ho
                have hcode : step before' ' ' (uncommentFrom ('/' :: before)
                    (step before '/' rest []) rest) [] = [] := rfl
                rw [ho, if_pos rfl, scanFrom, hcode, scanFrom, List.map_cons, hrole,
                  ih (.code houtside) hrest]
                rfl
              · have hstep : step before' c (uncommentFrom (c :: before) (step before c rest [])
                    rest) [] = step before c rest [] :=
                  congrArg Option.toList (opened?_of_ne_slash hne _ _ _ _)
                have hbare : bare (c, Role.between [] (step before c rest [])) =
                    (c, Role.between [] (step before c rest [])) := by
                  rcases between_of_not_opensComment ho before with hrole | hrole <;> rw [hrole] <;>
                    rfl
                rw [ho, if_neg Bool.false_ne_true, scanFrom, hstep, scanFrom, List.map_cons, hbare,
                  ih hnext hrest]
          | [region], outside =>
              rw [uncommentFrom_cons, between_comment outside, Role.uncommented_comment, scanFrom,
                step_blanked, scanFrom, List.map_cons, between_comment outside,
                ih (.code (outsideLiterals_step_comment outside before c rest)) hrest]
              rfl
      | literal inside enclosed =>
          have hbare : bare (c, Role.between regions (step before c rest regions)) =
              (c, Role.between regions (step before c rest regions)) :=
            if_neg (between_ne_comment inside _)
          rw [uncommentFrom_literal_cons inside, scanFrom, scanFrom, List.map_cons, hbare]
          rcases inLiteral_step inside before c rest with hs | ⟨rfl, hq⟩
          · rw [step_literal inside hs (slashAgrees_of_hidden inside enclosed hidden),
              ih (.literal hs (enclosed_step inside enclosed before)) hrest]
          · simp only [step_quoted_close hq] at hrest ⊢
            rw [ih (.code rfl) hrest]

/-- A masked script shows no slash then. -/
theorem slash_notMem_maskFrom (hidden : slashesHidden before regions rest = true)
    (hregions : outsideLiterals regions = true ∨ inLiteral regions = true) :
    '/' ∉ maskFrom before regions rest := by
  induction rest generalizing before regions with
  | nil => exact List.not_mem_nil
  | cons c rest ih =>
      have hrest := (slashesHidden_cons hidden).2
      have hblanked : '/' ≠ blanked c := by
        rcases blanked_eq c with h | h <;> rw [h] <;> decide
      suffices h : '/' ≠ (Role.between regions (step before c rest regions)).shown c ∧
          (outsideLiterals (step before c rest regions) = true ∨
            inLiteral (step before c rest regions) = true) by
        rw [maskFrom_cons]
        exact fun hmem => (List.mem_cons.mp hmem).elim h.1 (ih hrest h.2)
      rcases hregions with houtside | hliteral
      · match regions, houtside with
        | [], _ =>
            rw [shown_step_nil]
            rcases step_nil_cases (opensComment_of_hidden hidden) before [] [] with
              ⟨ho, -, hnext⟩ | ⟨ho, hne, hnext⟩
            · rw [ho, if_pos rfl]
              exact ⟨by decide, Or.inl hnext⟩
            · rw [ho, if_neg Bool.false_ne_true]
              exact ⟨Ne.symm hne, hnext.outside_or_inside⟩
        | [region], hcomment =>
            rw [between_comment hcomment]
            exact ⟨hblanked, Or.inl (outsideLiterals_step_comment hcomment before c rest)⟩
      · rcases inLiteral_step hliteral before c rest with hnext | ⟨rfl, hq⟩
        · have hne : step before c rest regions ≠ [] := by
            intro hnil
            rw [hnil] at hnext
            cases hnext
          rw [between_of_inLiteral hliteral hne]
          exact ⟨hblanked, Or.inr hnext⟩
        · rw [step_quoted_close hq]
          refine ⟨?_, Or.inl rfl⟩
          have hshown : (Role.between [.quoted c] []).shown c = c := rfl
          rw [hshown]
          rintro rfl
          cases hq

/-- Where no slash stands, nothing is a comment. -/
theorem uncommentFrom_eq_self (hslash : '/' ∉ rest)
    (hregions : regions = [] ∨ inLiteral regions = true) :
    uncommentFrom before regions rest = rest := by
  induction rest generalizing before regions with
  | nil => rfl
  | cons c rest ih =>
      obtain ⟨hc, hrest⟩ := not_or.mp (mt List.mem_cons.mpr hslash)
      have ho := opensComment_of_ne (Ne.symm hc) rest
      rcases hregions with rfl | hliteral
      · rw [uncommentFrom_code_cons, ho, if_neg Bool.false_ne_true]
        rcases opened?_cases ho before with h | ⟨hq, h⟩ | ⟨rfl, -⟩
        · rw [step, h, Option.toList_none, ih hrest (Or.inl rfl)]
        · rw [step, h, Option.toList_some, ih hrest (Or.inr (by simpa [inLiteral] using hq))]
        · exact absurd rfl hc
      · rw [uncommentFrom_literal_cons hliteral]
        rcases inLiteral_step hliteral before c rest with hs | ⟨rfl, hq⟩
        · rw [ih hrest (Or.inr hs)]
        · rw [step_quoted_close hq, ih hrest (Or.inl rfl)]

theorem stripComments_eq_self {t : List Char} (hslash : '/' ∉ t) : stripComments t = t :=
  uncommentFrom_eq_self hslash (Or.inl rfl)

end Scan

section Literals

variable {before rest : List Char} {regions : List Region} {t : List Char} {i : Nat} {q : Char}

theorem quotedContents_map_bare (current : Option (List Char)) (s : List (Char × Role)) :
    quotedContents current (s.map bare) = quotedContents current s := by
  induction s generalizing current with
  | nil => rfl
  | cons entry s ih =>
      obtain ⟨c, role⟩ := entry
      cases role <;> cases current <;> simp [bare, quotedContents, ih]

/-- Whether a scanned character is inside a literal. -/
def isContent (entry : Char × Role) : Bool := entry.2 == .content

/-- The inside of a literal is all content up to the character that leaves it. -/
theorem take_distanceOut? (h : inLiteral regions = true) :
    ((scanFrom before regions rest).takeWhile isContent).map Prod.fst =
      rest.take ((distanceOut? before regions rest).getD rest.length) := by
  induction rest generalizing before regions with
  | nil => rfl
  | cons c rest ih =>
      rw [scanFrom, distanceOut?]
      cases hstep : step before c rest regions with
      | nil =>
          rcases inLiteral_step h before c rest with hs | ⟨rfl, -⟩
          · rw [hstep] at hs
            cases hs
          · rfl
      | cons region outer =>
          have hcontent := between_of_inLiteral h (List.cons_ne_nil region outer)
          rw [List.takeWhile_cons_of_pos (by rw [hcontent]; rfl), List.map_cons,
            ih (inLiteral_of_step_eq_cons h hstep)]
          cases hd : distanceOut? (c :: before) (region :: outer) rest <;> simp [hd]

/-- The text of a literal is its content. -/
theorem literalText_eq (hregions : regionsAt t i = []) (hi : t[i]? = some q)
    (hq : isQuote q = true) :
    literalText t i = (((scan t).drop (i + 1)).takeWhile isContent).map Prod.fst := by
  have hopen : regionsAt t (i + 1) = [.quoted q] := by
    rw [regionsAt_succ hi, hregions, step, opened?, if_pos hq, Option.toList_some]
  have hliteral : inLiteral [.quoted q] = true := hq
  rw [drop_scan, hopen, take_distanceOut? hliteral, literalText, literalEnd?, drop_eq_cons hi]
  dsimp only
  rw [reverse_take_succ hi]
  cases distanceOut? (q :: (t.take i).reverse) [.quoted q] (t.drop (i + 1)) with
  | none => simp [slice]
  | some n => simp [slice]

/-- Comments end what is inside a literal just as code does. -/
theorem takeWhile_map_bare (s : List (Char × Role)) :
    (s.map bare).takeWhile isContent = s.takeWhile isContent := by
  induction s with
  | nil => rfl
  | cons entry s ih =>
      obtain ⟨c, role⟩ := entry
      cases role with
      | content => exact congrArg ((c, Role.content) :: ·) ih
      | code => rfl
      | opening => rfl
      | closing => rfl
      | comment => rfl

end Literals

section Script

variable {t : List Char} (h : HidesSlashes t)
include h

/-- Blanking the comments of a script leaves all else as it is. -/
theorem HidesSlashes.scan_stripComments : scan (stripComments t) = (scan t).map bare := by
  have halongside : Alongside [] [] t [] [] := .code rfl
  exact halongside.scanFrom_eq h

theorem HidesSlashes.slash_notMem_mask : '/' ∉ mask t :=
  slash_notMem_maskFrom h (Or.inl rfl)

theorem HidesSlashes.mask_stripComments : mask (stripComments t) = mask t := by
  rw [mask, h.scan_stripComments, List.map_map, mask]
  refine List.map_congr_left fun entry _ => ?_
  rw [Function.comp_apply, bare]
  split
  · rename_i hcomment
    rw [hcomment]
    rfl
  · rfl

theorem HidesSlashes.stripComments_stripComments :
    stripComments (stripComments t) = stripComments t := by
  rw [stripComments, h.scan_stripComments, List.map_map, stripComments]
  refine List.map_congr_left fun entry _ => ?_
  rw [Function.comp_apply, bare]
  split
  · rfl
  · rfl

theorem HidesSlashes.stringLiterals_stripComments :
    stringLiterals (stripComments t) = stringLiterals t := by
  rw [stringLiterals, h.scan_stripComments, quotedContents_map_bare, stringLiterals]

/-- A literal that starts outside of all regions keeps its text. -/
theorem HidesSlashes.literalText_stripComments {i : Nat} {q : Char} (hregions : regionsAt t i = [])
    (hi : t[i]? = some q) (hq : isQuote q = true) :
    literalText (stripComments t) i = literalText t i := by
  have hrole : roleAt t i = .opening := by
    rw [roleAt, regionsAt_succ hi, hregions, step, opened?, if_pos hq]
    rfl
  have hi' : (stripComments t)[i]? = some q := by
    rw [getElem?_stripComments hi, hrole]
    rfl
  have hregions' : regionsAt (stripComments t) i = [] := by
    have hscan := getElem?_scan (stripComments t) i
    rw [h.scan_stripComments, List.getElem?_map, getElem?_scan, hi, hi', hrole] at hscan
    have hrole' : roleAt (stripComments t) i = .opening :=
      (congrArg Prod.snd (Option.some.inj hscan)).symm
    apply regionsAt_of_isSeen
    rw [hrole']
    rfl
  rw [literalText_eq hregions' hi' hq, literalText_eq hregions hi hq, h.scan_stripComments,
    ← List.map_drop, takeWhile_map_bare]

end Script

end PluginContract.Script
