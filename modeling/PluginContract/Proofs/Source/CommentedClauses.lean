import Mathlib.Data.List.Basic
import PluginContract.Proofs.Script.ClearRanges
import PluginContract.Proofs.Script.FirstParts
import PluginContract.Proofs.Script.HiddenSlashes
import PluginContract.Proofs.Source.FoundStatements

/-!
# Comments in import and export clauses

Statements are found in the masked script, and that is the same once comments are blanked. A brace
list of an export is read with its comments blanked, so it is read the same as well. An import
clause is cut off after the word `type` before its comments are blanked: a comment right after this
word hides it. A comment right before a parenthesis leaves its last slash in the clause.
-/

namespace PluginContract.Source

open Text Script

/-- A module specifier after code and comments is read the same once comments are blanked. -/
theorem literalText_of_clear {t : List Char} (h : HidesSlashes t) {a b : Nat}
    (hclear : Clear t a b) {quote : Char} (hquote : (mask t)[b]? = some quote)
    (isText : IsTextQuote quote) :
    literalText (stripComments t) b = literalText t b := by
  have hblank : isBlank quote = false := by rcases isText with rfl | rfl <;> decide
  have hisQuote : isQuote quote = true := by rcases isText with rfl | rfl <;> rfl
  obtain ⟨hregions, hchar⟩ := regionsAt_of_visible hclear.outside_end hquote hblank
  exact h.literalText_stripComments hregions hchar hisQuote

/-- The import statements of a script, as they are found in it masked. -/
def importStatements (source : List Char) : List (Found ImportStatement) :=
  ImportStatement.pattern.findAll (mask source)

namespace ImportTable

/-- The module that an import statement refers to. -/
def moduleOf (source : List Char) (found : Found ImportStatement) : String :=
  String.ofList (literalText source (found.start + found.value.quote))

/-- The clause of an import statement. -/
def clauseOf (source : List Char) (found : Found ImportStatement) : List Char :=
  trim (slice source (found.start + found.value.clauseStart) (found.start + found.value.clauseEnd))

/-- The parts that a clause is read as. -/
def clauseParts (clause : List Char) : List (List Char) :=
  splitCommas (stripComments (dropType clause))

/-- Whether a clause starts with a comment, of which it then holds the last slash only, or a comment
stands right after the word `type` at its start. -/
def opensWithComment (clause : List Char) : Bool :=
  (after? ['/'] clause).isSome || (after? "type/".toList clause).isSome

theorem addStatement_eq (source : List Char) (table : ImportTable)
    (found : Found ImportStatement) :
    addStatement source table found =
      (clauseParts (clauseOf source found)).foldl (addPart (moduleOf source found)) table := rfl

section Clause

variable {t u w : List Char} {c : Char}

theorem dropType_marked (hc : c = ' ' ∨ c = '{') (t : List Char) :
    dropType ("type".toList ++ c :: t) = trim (c :: t) := by
  rcases hc with rfl | rfl <;> rfl

theorem dropType_unmarked (h : ∀ c u, t = "type".toList ++ c :: u → c ≠ ' ' ∧ c ≠ '{') :
    dropType t = t := by
  rw [dropType, if_neg]
  rw [Bool.or_eq_true, Option.isSome_iff_exists, Option.isSome_iff_exists]
  rintro (⟨u, hu⟩ | ⟨u, hu⟩)
  · exact (h ' ' u ((after?_eq_some_iff.mp hu).trans rfl)).1 rfl
  · exact (h '{' u ((after?_eq_some_iff.mp hu).trans rfl)).2 rfl

theorem clauseParts_unmarked (hplain : Plain (mask t))
    (h : ∀ c u, t = "type".toList ++ c :: u → c ≠ ' ' ∧ c ≠ '{') :
    clauseParts t = splitCommas (mask t) := by
  rw [clauseParts, dropType_unmarked h, stripComments_eq_mask hplain]

/-- After the word `type` a clause is read without its comments, and without the blanks before. -/
theorem clauseParts_marked (hc : c = ' ' ∨ c = '{') (hplain : Plain (mask (c :: t)))
    (hends : ∃ d ∈ (c :: t).getLast?, isBlank d = false) :
    clauseParts ("type".toList ++ c :: t) = splitCommas (mask (c :: t)) := by
  obtain ⟨lead, heq, hlead⟩ := exists_trim_of_getLast? hends
  have hmask : mask (c :: t) = lead ++ mask (trim (c :: t)) := by
    conv => lhs; rw [heq]
    exact mask_append_of_plain (plain_of_blanks hlead) (heq ▸ hplain)
  have hrest : Plain (mask (trim (c :: t))) :=
    plain_mask_of_append (plain_of_blanks hlead) (heq ▸ hplain)
  rw [clauseParts, dropType_marked hc, stripComments_eq_mask hrest, hmask,
    splitCommas_blanks_append hlead hrest]

theorem plain_type : Plain "type".toList := rfl

theorem isName_type : isName "type".toList = true := rfl

theorem getLast?_of_solid (h : Solid ("type".toList ++ c :: t)) :
    ∃ d ∈ (c :: t).getLast?, isBlank d = false := by
  obtain ⟨-, d, hd, hblank⟩ := h
  rw [List.getLast?_append, List.getLast?_cons, Option.some_or] at hd
  exact ⟨d, by rwa [List.getLast?_cons], hblank⟩

section Masked

variable (hplain : Plain (mask w))
include hplain

/-- A masked clause is marked if it shows a blank or a brace after the word `type`. -/
theorem clauseParts_mask (hsolid : Solid (mask w)) (hw : w = "type".toList ++ u)
    (hu : mask u = c :: t) (hc : c = ' ' ∨ c = '{') :
    clauseParts (mask w) = splitCommas (mask u) := by
  subst hw
  have hrest := plain_mask_of_append plain_type hplain
  rw [mask_append_of_plain plain_type hplain, hu] at hsolid ⊢
  rw [hu] at hrest
  rw [clauseParts_marked hc (by rwa [mask_plain hrest]) (getLast?_of_solid hsolid),
    mask_plain hrest]

theorem clauseParts_mask_marked (hsolid : Solid (mask w)) (hw : w = "type".toList ++ c :: t)
    (hc : c = ' ' ∨ c = '{') : clauseParts (mask w) = clauseParts w := by
  have hslash : c ≠ '/' := by rcases hc with rfl | rfl <;> decide
  obtain ⟨v, hv⟩ := exists_mask_cons hslash t
  rw [clauseParts_mask hplain hsolid hw hv hc]
  subst hw
  have hends := getLast?_of_solid (solid_of_mask hplain hsolid)
  rw [clauseParts_marked hc (plain_mask_of_append plain_type hplain) hends]

/-- The word `type` stays in the clause if a comment follows it. -/
theorem clauseParts_mask_ne (hsolid : Solid (mask w)) (hw : w = "type".toList ++ '/' :: t) :
    clauseParts (mask w) ≠ clauseParts w := by
  subst hw
  have hrest := plain_mask_of_append plain_type hplain
  obtain ⟨v, hv⟩ := exists_mask_slash hrest
  have hunmarked : clauseParts ("type".toList ++ '/' :: t) =
      splitCommas ("type".toList ++ mask ('/' :: t)) := by
    rw [clauseParts_unmarked hplain, mask_append_of_plain plain_type hplain]
    intro c u heq
    obtain ⟨rfl, -⟩ := List.cons.inj (List.append_cancel_left heq)
    decide
  have htype : Balanced .brackets false "type".toList :=
    balanced_words fun c hc => Or.inl (isNameChar_of_isName isName_type c hc)
  rw [clauseParts_mask hplain hsolid rfl hv (Or.inl rfl), hunmarked]
  exact (splitCommas_append_ne htype ⟨'t', by decide⟩ hrest).symm

theorem clauseParts_mask_unmarked
    (h : ∀ c u, w = "type".toList ++ c :: u → c ≠ ' ' ∧ c ≠ '{' ∧ c ≠ '/') :
    clauseParts (mask w) = clauseParts w := by
  have hmask : ∀ c u, mask w = "type".toList ++ c :: u → c ≠ ' ' ∧ c ≠ '{' := by
    intro c u heq
    obtain ⟨w', rfl, hw'⟩ := exists_of_mask_eq_append (isNameChar_of_isName isName_type) hplain heq
    cases w' with
    | nil => cases hw'
    | cons d w' =>
        obtain ⟨hspace, hbrace, hslash⟩ := h d w' rfl
        obtain ⟨v, hv⟩ := exists_mask_cons hslash w'
        obtain ⟨rfl, -⟩ := List.cons.inj (hv.symm.trans hw')
        exact ⟨hspace, hbrace⟩
  have hmasked : mask (mask w) = mask w := mask_plain hplain
  rw [clauseParts_unmarked hplain fun c u heq => ⟨(h c u heq).1, (h c u heq).2.1⟩,
    clauseParts_unmarked (hmasked.symm ▸ hplain) hmask, hmasked]

/-- A clause with comments is read as it is without them, unless a comment stands right after the
word `type` at its start. -/
theorem clauseParts_mask_iff (hsolid : Solid (mask w)) :
    clauseParts (mask w) = clauseParts w ↔ (after? "type/".toList w).isSome = false := by
  cases hcomment : after? "type/".toList w with
  | some u =>
      have hne := clauseParts_mask_ne hplain hsolid ((after?_eq_some_iff.mp hcomment).trans rfl)
      exact iff_of_false hne (by simp)
  | none =>
      refine iff_of_true ?_ rfl
      have hslash (u : List Char) : w ≠ "type".toList ++ '/' :: u := by
        intro heq
        have hsome : after? "type/".toList w = some u :=
          after?_eq_some_iff.mpr (heq.trans rfl)
        rw [hcomment] at hsome
        cases hsome
      by_cases hw : ∃ c u, w = "type".toList ++ c :: u ∧ (c = ' ' ∨ c = '{')
      · obtain ⟨c, u, hw, hc⟩ := hw
        exact clauseParts_mask_marked hplain hsolid hw hc
      · refine clauseParts_mask_unmarked hplain fun c u heq => ⟨?_, ?_, ?_⟩
        · exact fun hc => hw ⟨c, u, heq, Or.inl hc⟩
        · exact fun hc => hw ⟨c, u, heq, Or.inr hc⟩
        · rintro rfl
          exact hslash u heq

end Masked

end Clause

section Ranges

variable {t : List Char} {a b : Nat}

/-- A clause that stands in a script from a visible character to a visible one. -/
theorem clauseParts_slice_iff (h : Clear t a b) (hsolid : Solid (slice (mask t) a b)) :
    Solid (slice t a b) ∧
      (clauseParts (trim (slice (stripComments t) a b)) = clauseParts (slice t a b) ↔
        opensWithComment (slice t a b) = false) := by
  obtain ⟨hstart, hend⟩ := h.regionsAt_of_solid hsolid
  have hmask := h.mask_slice hstart hend
  have hplain : Plain (mask (slice t a b)) := hmask ▸ h.plain
  have hshown : Solid (mask (slice t a b)) := hmask ▸ hsolid
  have hsource := solid_of_mask hplain hshown
  have hfirst : after? ['/'] (slice t a b) = none := by
    rw [Option.eq_none_iff_forall_ne_some]
    intro u hu
    have hslash : slice t a b = '/' :: u := after?_eq_some_iff.mp hu
    rw [hslash] at hplain hshown
    obtain ⟨v, hv⟩ := exists_mask_slash hplain
    obtain ⟨⟨c, hc, hblank⟩, -⟩ := hshown
    rw [hv] at hc
    obtain rfl := Option.some.inj hc
    cases hblank
  refine ⟨hsource, ?_⟩
  rw [h.slice_stripComments, trim_of_solid hsolid, ← hmask, opensWithComment, hfirst,
    Option.isSome_none, Bool.false_or]
  exact clauseParts_mask_iff hplain hshown

/-- A clause that starts with the last slash of a comment is read with that slash. -/
theorem clauseParts_slash_ne (u v : List Char) :
    clauseParts ('(' :: v) ≠ clauseParts ('/' :: '(' :: u) := by
  have hfirst {c : Char} {x : List Char} (hc : isBlank c = false) (hcomma : c ≠ ',')
      (hx : ∃ y, stripComments (dropType x) = c :: y) :
      ∃ y more, clauseParts x = (c :: y) :: more := by
    obtain ⟨y, hy⟩ := hx
    rw [clauseParts, hy]
    exact exists_splitCommas_cons hc hcomma y
  have hparen : ∃ y, stripComments (dropType ('(' :: v)) = '(' :: y := ⟨_, rfl⟩
  have hslash : ∃ y, stripComments (dropType ('/' :: '(' :: u)) = '/' :: y := by
    have hkeep : dropType ('/' :: '(' :: u) = '/' :: '(' :: u :=
      dropType_unmarked fun c x heq => by cases heq
    rw [hkeep, stripComments_eq, uncommentFrom_cons, Region.uncommented_step_nil]
    exact ⟨_, rfl⟩
  obtain ⟨y, more, hv⟩ := hfirst (by decide) (by decide) hparen
  obtain ⟨y', more', hu⟩ := hfirst (by decide) (by decide) hslash
  rw [hv, hu]
  nofun

/-- A clause that starts with the blank before a parenthesis: this is the end of a comment, or it is
trimmed away. -/
theorem clauseParts_parenthesis_iff {start : Nat} {c : Char} {v : List Char}
    (hbefore : Clear t start a) (hlt : start < a) (h : Clear t a b)
    (hclause : slice (mask t) a b = c :: '(' :: v) (hc : isBlank c = true)
    (hlast : ∃ d ∈ ('(' :: v).getLast?, isBlank d = false) :
    clauseParts (trim (slice (stripComments t) a b)) = clauseParts (trim (slice t a b)) ↔
      opensWithComment (trim (slice t a b)) = false := by
  have hlength : a + 1 < b ∧ a < t.length := by
    have hle := congrArg List.length hclause
    rw [length_slice, length_mask, List.length_cons, List.length_cons] at hle
    omega
  obtain ⟨hblank, hrest⟩ := slice_uncons hclause
  obtain ⟨hparen, -⟩ := slice_uncons hrest
  have hnext : Clear t (a + 1) b := h.drop (Nat.le_succ a) (Nat.le_of_lt hlength.1)
  have hsolid : Solid (slice (mask t) (a + 1) b) := by
    rw [hrest]
    exact ⟨⟨'(', rfl, by decide⟩, hlast⟩
  have hshown : trim (slice (stripComments t) a b) = trim (slice (stripComments t) (a + 1) b) := by
    rw [h.slice_stripComments, hnext.slice_stripComments, hclause, hrest]
    exact trim_blank_cons hc ('(' :: v)
  obtain ⟨hsource, hiff⟩ := clauseParts_slice_iff hnext hsolid
  have hd : t[a]? = some t[a] := List.getElem?_eq_getElem hlength.2
  generalize t[a] = d at hd
  rw [hshown, slice_eq_cons hd (by omega)]
  cases hdblank : isBlank d with
  | true =>
      have htrim : trim (d :: slice t (a + 1) b) = slice t (a + 1) b :=
        (trim_blank_cons hdblank _).trans (trim_of_solid hsource)
      rw [htrim]
      exact hiff
  | false =>
      obtain ⟨hopen, hchar⟩ := regionsAt_of_visible hnext.outside hparen (by decide)
      have hcomment : regionsAt t a ≠ [] := by
        intro hcode
        have hmask : (mask t)[a]? = some d := by
          rw [getElem?_mask hd, roleAt, hcode, hopen]
          rfl
        obtain rfl := Option.some.inj (hblank.symm.trans hmask)
        rw [hdblank] at hc
        cases hc
      obtain rfl := hbefore.eq_slash_of_comment_end hlt hd hcomment hopen (by rw [hchar]; decide)
      have htrim : trim ('/' :: slice t (a + 1) b) = '/' :: slice t (a + 1) b := by
        obtain ⟨-, e, he, heblank⟩ := hsource
        refine trim_of_solid ⟨⟨'/', rfl, by decide⟩, e, ?_, heblank⟩
        rw [List.getLast?_cons, Option.mem_def.mp he]
        rfl
      rw [htrim, hnext.slice_stripComments, trim_of_solid hsolid, hrest,
        slice_eq_cons hchar hlength.1]
      exact iff_of_false (clauseParts_slash_ne _ _) (by simp [opensWithComment, after?])

end Ranges

section Statement

variable {s : List Char} {found : Found ImportStatement} (h : HidesSlashes s)
  (hfound : found ∈ importStatements s)
include h hfound

/-- Up to the quote of its module specifier an import statement consists of code and comments. -/
theorem exists_importPieces :
    ∃ p : ImportPieces ((mask s).drop found.start), found.value = p.place ∧
      Clear s found.start (found.start + p.place.quote) := by
  obtain ⟨u, v, hmask, -, -, hstart, hmatch⟩ := Pattern.exists_of_mem_findFrom hfound
  obtain ⟨p, hplace⟩ := exists_of_importPattern hmatch
  rw [Nat.zero_add] at hstart
  have hdrop : (mask s).drop found.start = v := by
    rw [hmask, hstart, List.drop_left]
  rw [hdrop]
  refine ⟨p, hplace, ?_⟩
  have hslice : slice (mask s) found.start (found.start + p.place.quote) = p.front := by
    rw [slice, hdrop, Nat.add_sub_cancel_left, p.take_quote]
  have hletter : (mask s)[found.start]? = some 'i' := by
    rw [← List.head?_drop, hdrop, p.text]
    rfl
  have hbound : found.start + p.place.quote ≤ s.length := by
    have hquote := (List.getElem?_eq_some_iff.mp p.getElem?_quote).1
    have hlength := congrArg List.length hmask
    rw [length_mask, List.length_append] at hlength
    omega
  have hslash : '/' ∉ v := fun hmem =>
    h.slash_notMem_mask (hmask ▸ List.mem_append_right u hmem)
  exact clear_of_visible hletter (by decide) (by decide) (Nat.le_add_right _ _) hbound
    (hslice ▸ p.plain_front hslash)

/-- A clause is read the same once comments are blanked just if it does not open with a comment. -/
theorem clauseParts_clauseOf_iff :
    clauseParts (clauseOf (stripComments s) found) = clauseParts (clauseOf s found) ↔
      opensWithComment (clauseOf s found) = false := by
  obtain ⟨p, hplace, hclear⟩ := exists_importPieces h hfound
  have hmask := p.slice_clause
  have hquote := p.clauseEnd_le
  have hstop : p.place.clauseEnd = p.place.clauseStart + p.pieces.clause.length := rfl
  have hword : 6 ≤ p.place.clauseStart := Nat.le_add_right _ _
  rw [slice_drop] at hmask
  have hrange : Clear s (found.start + p.place.clauseStart) (found.start + p.place.clauseEnd) :=
    (hclear.take (by omega) (by omega)).drop (by omega) (by omega)
  have hbefore : Clear s found.start (found.start + p.place.clauseStart) :=
    hclear.take (by omega) (by omega)
  rw [clauseOf, clauseOf, hplace]
  generalize hA : found.start + p.place.clauseStart = a at *
  generalize hB : found.start + p.place.clauseEnd = b at *
  by_cases hempty : p.pieces.clause = []
  · have hnone (t : List Char) : slice t a b = [] := by
      rw [hempty, List.length_nil] at hstop
      rw [slice, show b - a = 0 by omega, List.take_zero]
    rw [hnone, hnone]
    exact iff_of_true rfl rfl
  · have hlast : ∃ c ∈ p.pieces.clause.getLast?, isBlank c = false :=
      ⟨_, List.getLast?_eq_some_getLast hempty, p.pieces.ends_clause _
        (List.getLast?_eq_some_getLast hempty)⟩
    rcases p.starts with hhead | ⟨c, v, hc, hclause⟩
    · have hsolid : Solid (slice (mask s) a b) := by
        rw [hmask]
        exact ⟨⟨_, List.head?_eq_some_head hempty, hhead _ (List.head?_eq_some_head hempty)⟩, hlast⟩
      obtain ⟨hsource, hiff⟩ := clauseParts_slice_iff hrange hsolid
      rw [trim_of_solid hsource]
      exact hiff
    · refine clauseParts_parenthesis_iff hbefore (by omega) hrange (hmask.trans hclause) hc ?_
      rwa [hclause, List.getLast?_cons_cons] at hlast

theorem moduleOf_stripComments : moduleOf (stripComments s) found = moduleOf s found := by
  obtain ⟨p, hplace, hclear⟩ := exists_importPieces h hfound
  have hquote := p.getElem?_quote
  rw [List.getElem?_drop] at hquote
  rw [moduleOf, moduleOf, hplace, literalText_of_clear h hclear hquote p.pieces.isText]

/-- A statement whose clause does not open with a comment gives the same names. -/
theorem addStatement_stripComments (hopen : opensWithComment (clauseOf s found) = false)
    (table : ImportTable) :
    addStatement (stripComments s) table found = addStatement s table found := by
  rw [addStatement_eq, addStatement_eq, moduleOf_stripComments h hfound,
    (clauseParts_clauseOf_iff h hfound).mpr hopen]

end Statement

end ImportTable

section Exports

variable {s : List Char} (h : HidesSlashes s)
include h

/-- A list between braces is read the same once comments are blanked. -/
theorem readList_stripComments {start stop : Nat} (hbraced : Braced (mask s) start stop) :
    Specifier.readList (slice (stripComments s) start stop) =
      Specifier.readList (slice s start stop) := by
  have hblanked {t : List Char} (hmask : mask t = mask s) :
      stripComments (slice t start stop) = slice (stripComments t) start stop := by
    obtain ⟨i, rfl, hi⟩ := hbraced.opening
    have hstop := hbraced.closing
    rw [← hmask] at hi hstop
    obtain ⟨hopens, hopen⟩ := code_of_getElem?_mask hi (by decide) (by decide)
    obtain ⟨hcloses, hclose⟩ := code_of_getElem?_mask hstop (by decide) (by decide)
    rw [stripComments, scan_slice_of_brackets (rfl : closingBracket? '{' = some '}') hopens
      (regionsAt_of_code hopen) hcloses (regionsAt_of_code hclose) hbraced.le, List.map_take,
      List.map_drop]
    rfl
  rw [Specifier.readList, Specifier.readList, hblanked rfl, hblanked h.mask_stripComments,
    h.stripComments_stripComments]

theorem literalText_of_pieces {found : Found ExportClause} {v : List Char}
    (hdrop : (mask s).drop found.start = v) (p : ReexportPieces v found.value)
    (hlength : found.length = p.front.length + 1 + p.between.length) :
    literalText (stripComments s) (found.start + found.length) =
      literalText s (found.start + found.length) := by
  have hmark : isPlain p.mark = true ∧ isBlank p.mark = false := by
    rcases p.isMark with hmark | hmark <;> rw [hmark] <;> decide
  have hget (i : Nat) : (mask s)[found.start + i]? = v[i]? := by
    rw [← List.getElem?_drop, hdrop]
  have hopen := (hget _).trans p.getElem?_mark
  have hquote := (hget _).trans p.getElem?_quote
  rw [← hlength] at hquote
  have hslice : slice (mask s) (found.start + p.front.length) (found.start + found.length) =
      p.mark :: p.between := by
    rw [← slice_drop, hdrop, hlength, p.slice_between]
  have hbound := (List.getElem?_eq_some_iff.mp hquote).1
  rw [length_mask] at hbound
  have hclear : Clear s (found.start + p.front.length) (found.start + found.length) := by
    refine clear_of_visible hopen hmark.1 hmark.2 (by omega) (Nat.le_of_lt hbound) ?_
    rw [hslice, Plain, List.all_cons, hmark.1, p.plain_between]
    rfl
  exact literalText_of_clear h hclear hquote p.isText

theorem ReexportTable.read_stripComments :
    ReexportTable.read (stripComments s) = ReexportTable.read s := by
  rw [ReexportTable.read, ReexportTable.read, h.mask_stripComments]
  refine List.foldl_ext _ _ _ fun table found hfound => ?_
  obtain ⟨u, v, hmask, -, -, hstart, hmatch⟩ := Pattern.exists_of_mem_findFrom hfound
  rw [Nat.zero_add] at hstart
  obtain ⟨p, hlength⟩ := exists_of_exportPattern hmatch
  have hdrop : (mask s).drop found.start = v := by
    rw [hmask, hstart, List.drop_left]
  rw [addStatement, addStatement, literalText_of_pieces h hdrop p hlength]
  cases hvalue : found.value with
  | star => rfl
  | starAs name => rfl
  | braces start stop =>
      have hbraced := (p.braced start stop hvalue).append u
      rw [← hmask, ← hstart] at hbraced
      dsimp only
      rw [readList_stripComments h hbraced]

theorem readLocalExports_stripComments :
    readLocalExports (stripComments s) = readLocalExports s := by
  rw [readLocalExports, readLocalExports, h.mask_stripComments]
  congr 2
  refine List.flatMap_congr fun found hfound => ?_
  obtain ⟨u, v, hmask, -, -, hstart, hmatch⟩ := Pattern.exists_of_mem_findFrom hfound
  rw [Nat.zero_add] at hstart
  have hbraced := (braced_of_localExport hmatch).append u
  rw [← hmask, ← hstart] at hbraced
  exact readList_stripComments h hbraced

end Exports

/-- Comments do not matter to the exports of a script whose slashes stand in comments and literals.
They do not matter to its imports if no clause opens with a comment, and it is read the same just
if it does not. -/
theorem tables_stripComments {s : List Char} (h : HidesSlashes s) :
    ReexportTable.read (stripComments s) = ReexportTable.read s ∧
      readLocalExports (stripComments s) = readLocalExports s ∧
      ((∀ found ∈ importStatements s,
          ImportTable.opensWithComment (ImportTable.clauseOf s found) = false) →
        ImportTable.read (stripComments s) = ImportTable.read s) ∧
      ∀ found ∈ importStatements s,
        (ImportTable.clauseParts (ImportTable.clauseOf (stripComments s) found) =
            ImportTable.clauseParts (ImportTable.clauseOf s found) ↔
          ImportTable.opensWithComment (ImportTable.clauseOf s found) = false) := by
  refine ⟨ReexportTable.read_stripComments h, readLocalExports_stripComments h, fun hopen => ?_,
    fun found hfound => ImportTable.clauseParts_clauseOf_iff h hfound⟩
  rw [ImportTable.read, ImportTable.read, h.mask_stripComments]
  exact List.foldl_ext _ _ _ fun table found hfound =>
    ImportTable.addStatement_stripComments h hfound (hopen found hfound) table

/-- Comments before and inside of brace lists, and around the word `from`. -/
theorem tables_stripComments_lists :
    let s := ("import /* a */ type \x7b /* b, */ A \x7d // c\nfrom \"m\"; " ++
      "export \x7b A /* d */ \x7d").toList
    HidesSlashes s ∧ ReexportTable.read (stripComments s) = ReexportTable.read s ∧
      readLocalExports (stripComments s) = readLocalExports s ∧
      ImportTable.read (stripComments s) = ImportTable.read s := by
  intro s
  have hidden : HidesSlashes s := by decide +kernel
  obtain ⟨hreexports, hexports, himports, -⟩ := tables_stripComments hidden
  exact ⟨hidden, hreexports, hexports, himports (by decide +kernel)⟩

/-- A comment right after the word `type` hides it, and no name is imported. -/
theorem imports_stripComments_ne_of_type :
    let s := "import type/* c */\x7b A \x7d from \"m\"".toList
    HidesSlashes s ∧ ImportTable.read (stripComments s) ≠ ImportTable.read s := by
  decide +kernel

end PluginContract.Source
