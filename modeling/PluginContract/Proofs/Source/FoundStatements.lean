import PluginContract.Proofs.Source.Matches
import PluginContract.Proofs.Text.Occurrences

/-!
# What is found as a statement

An import that is found in a masked script consists of the word `import`, a clause between blanks,
the word `from` and a quote. Before the quote of a re-export there is code up to a star or a
brace, and an exported list stands between two braces.
-/

namespace PluginContract.Source

open Text Script

section Quotes

variable {t rest : List Char}

theorem exists_of_quoteFollows (h : quoteFollows (trimStart t) = true) :
    ∃ last quote rest, t = last ++ quote :: rest ∧ trimStart t = quote :: rest ∧
      last.all isBlank = true ∧ IsTextQuote quote := by
  obtain ⟨last, heq, hlast⟩ := exists_trimStart t
  cases htrim : trimStart t with
  | nil =>
      rw [htrim] at h
      cases h
  | cons quote rest =>
      rw [htrim] at h heq
      exact ⟨last, quote, rest, heq, rfl, hlast, by simpa [quoteFollows, IsTextQuote] using h⟩

/-- Up to the quote there are blanks and the word `from`. -/
theorem exists_of_fromQuote? {after : List Char} (h : ExportClause.fromQuote? t = some after) :
    ∃ between quote rest, after = quote :: rest ∧ t = between ++ quote :: rest ∧ Plain between ∧
      IsTextQuote quote := by
  rw [ExportClause.fromQuote?] at h
  split at h
  · rename_i found hfound
    split at h
    · rename_i hquote
      obtain ⟨lead, heq, hlead⟩ := exists_trimStart t
      obtain ⟨last, quote, rest, hafter, htrim, hlast, hisText⟩ := exists_of_quoteFollows hquote
      have hword : Plain "from".toList := rfl
      refine ⟨lead ++ ("from".toList ++ last), quote, rest, ?_, ?_, ?_, hisText⟩
      · rw [← Option.some.inj h, htrim]
      · rw [heq, after?_eq_some_iff.mp hfound, hafter]
        simp
      · exact (plain_of_blanks hlead).append (hword.append (plain_of_blanks hlast))
    · cases h
  · cases h

/-- The name of a re-exported module is plain code too. -/
theorem exists_of_starName? {name after : List Char}
    (h : ExportClause.starName? t = some (name, after)) :
    ∃ between quote rest, after = quote :: rest ∧ t = between ++ quote :: rest ∧ Plain between ∧
      IsTextQuote quote := by
  rw [ExportClause.starName?] at h
  split at h
  · cases h
  · rename_i whole rest hwhole
    obtain ⟨afterBlanks, hblanks, hname⟩ := Option.bind_eq_some_iff.mp hwhole
    obtain ⟨afterAs, hopen, hafterAs⟩ := Option.bind_eq_some_iff.mp hblanks
    obtain ⟨start, hstart, hword⟩ := Option.bind_eq_some_iff.mp hopen
    obtain ⟨lead, rfl, hlead⟩ := exists_of_blanks? hstart
    obtain rfl := after?_eq_some_iff.mp hword
    obtain ⟨gap, rfl, hgap⟩ := exists_of_blanks? hafterAs
    obtain rfl := name?_append hname
    have hword : Plain "as".toList := rfl
    have hplain : Plain whole := List.all_eq_true.mpr fun c hc =>
      isPlain_of_isNameChar (isNameChar_of_isName (isName_of_name? hname) c hc)
    have hopen : Plain (lead ++ ("as".toList ++ gap)) :=
      (plain_of_blanks hlead).append (hword.append (plain_of_blanks hgap))
    have hresult {before text : List Char} (hbefore : Plain before)
        (hsplit : whole ++ rest = before ++ text)
        (hquote : ExportClause.fromQuote? text = some after) :
        ∃ between quote rest', after = quote :: rest' ∧
          lead ++ ("as".toList ++ (gap ++ (whole ++ rest))) = between ++ quote :: rest' ∧
          Plain between ∧ IsTextQuote quote := by
      obtain ⟨between, quote, rest', hafter, htext, hbetween, hisText⟩ :=
        exists_of_fromQuote? hquote
      refine ⟨lead ++ ("as".toList ++ gap) ++ (before ++ between), quote, rest', hafter, ?_,
        hopen.append (hbefore.append hbetween), hisText⟩
      rw [hsplit, htext]
      simp
    split at h
    · rename_i found hquote
      obtain ⟨-, rfl⟩ := Prod.mk.inj (Option.some.inj h)
      exact hresult hplain rfl hquote
    · dsimp only at h
      split at h
      · cases h
      · obtain ⟨found, hquote, heq⟩ := Option.map_eq_some_iff.mp h
        obtain ⟨-, rfl⟩ := Prod.mk.inj heq
        have hshorter : Plain (whole.take (whole.length - 4)) := List.all_eq_true.mpr fun c hc =>
          List.all_eq_true.mp hplain c (List.mem_of_mem_take hc)
        refine hresult hshorter ?_ hquote
        rw [← List.append_assoc, List.take_append_drop]

end Quotes

section Imports

variable {t : List Char} {found : ImportStatement} {length blanks stop far : Nat}
  {before : Option Char}

/-- An import from its clause on: the clause, the word `from` with blanks around it, and the quote
of the module specifier. -/
structure ClausePieces (t : List Char) where
  clause : List Char
  gap : List Char
  last : List Char
  quote : Char
  rest : List Char
  text : t = clause ++ (gap ++ ("from".toList ++ (last ++ quote :: rest)))
  open_clause : ∀ c ∈ clause, ImportStatement.endsClause c = false
  ends_clause : ∀ c ∈ clause.getLast?, isBlank c = false
  blank_gap : gap.all isBlank = true
  blank_last : last.all isBlank = true
  isText : IsTextQuote quote

namespace ClausePieces

/-- How far the quote is. -/
def distance (p : ClausePieces t) : Nat := p.clause.length + p.gap.length + 4 + p.last.length

/-- A text whose clause goes on in front with a character. -/
def cons (p : ClausePieces t) (c : Char) (hopen : ImportStatement.endsClause c = false)
    (hends : p.clause = [] → isBlank c = false) : ClausePieces (c :: t) where
  clause := c :: p.clause
  gap := p.gap
  last := p.last
  quote := p.quote
  rest := p.rest
  text := congrArg (c :: ·) p.text
  open_clause := List.forall_mem_cons.mpr ⟨hopen, p.open_clause⟩
  ends_clause d hd := by
    cases hclause : p.clause with
    | nil =>
        rw [hclause] at hd
        obtain rfl := Option.some.inj hd
        exact hends hclause
    | cons first others =>
        rw [hclause, List.getLast?_cons_cons, ← hclause] at hd
        exact p.ends_clause d hd
  blank_gap := p.blank_gap
  blank_last := p.blank_last
  isText := p.isText

/-- A text whose clause is empty, with one more blank. -/
def blank (p : ClausePieces t) (c : Char) (hc : isBlank c = true) (hempty : p.clause = []) :
    ClausePieces (c :: t) where
  clause := []
  gap := c :: p.gap
  last := p.last
  quote := p.quote
  rest := p.rest
  text := by
    conv => lhs; rw [p.text, hempty]
    rfl
  open_clause := nofun
  ends_clause := nofun
  blank_gap := by
    rw [List.all_cons, hc, p.blank_gap]
    rfl
  blank_last := p.blank_last
  isText := p.isText

@[simp] theorem cons_clause (p : ClausePieces t) {c : Char}
    (hopen : ImportStatement.endsClause c = false) (hends : p.clause = [] → isBlank c = false) :
    (p.cons c hopen hends).clause = c :: p.clause := rfl

@[simp] theorem cons_distance (p : ClausePieces t) {c : Char}
    (hopen : ImportStatement.endsClause c = false) (hends : p.clause = [] → isBlank c = false) :
    (p.cons c hopen hends).distance = p.distance + 1 := by
  simp only [distance, cons, List.length_cons]
  omega

@[simp] theorem blank_clause (p : ClausePieces t) {c : Char} (hc : isBlank c = true)
    (hempty : p.clause = []) : (p.blank c hc hempty).clause = [] := rfl

@[simp] theorem blank_distance (p : ClausePieces t) {c : Char} (hc : isBlank c = true)
    (hempty : p.clause = []) : (p.blank c hc hempty).distance = p.distance + 1 := by
  simp only [distance, blank, hempty, List.length_cons, List.length_nil]
  omega

end ClausePieces

/-- Where the word `from` and a quote follow, the clause is empty. -/
theorem exists_emptyClause {after : List Char} (hafter : after? "from".toList t = some after)
    (hquote : quoteFollows (trimStart after) = true) :
    ∃ p : ClausePieces t, p.clause = [] ∧
      p.distance = 4 + (after.length - (trimStart after).length) := by
  obtain ⟨last, quote, rest, hsplit, htrim, hlast, hisText⟩ := exists_of_quoteFollows hquote
  have hlength : after.length - (trimStart after).length = last.length := by
    rw [htrim, hsplit, List.length_append, Nat.add_sub_cancel]
  refine ⟨⟨[], [], last, quote, rest, ?_, nofun, nofun, rfl, hlast, hisText⟩, rfl, ?_⟩
  · rw [after?_eq_some_iff.mp hafter, hsplit]
    rfl
  · simp only [ClausePieces.distance, hlength, List.length_nil, Nat.zero_add]

/-- What is read as a clause is one, and is followed by the word `from` and a quote. Blanks that
have been passed belong to the clause if more of it follows. -/
theorem exists_of_clause? (h : ImportStatement.clause? length blanks before t = some (stop, far)) :
    ∃ p : ClausePieces t, far = length + blanks + p.distance ∧
      stop = if p.clause = [] then length else length + blanks + p.clause.length := by
  induction t generalizing length blanks before with
  | nil => cases h
  | cons c t ih =>
      rw [ImportStatement.clause?] at h
      split at h
      · rename_i gap hhere
        obtain ⟨rfl, rfl⟩ := Prod.mk.inj (Option.some.inj h)
        split at hhere
        · cases hhere
        · split at hhere
          · rename_i after hafter
            split at hhere
            · rename_i hquote
              obtain ⟨p, hempty, hdistance⟩ := exists_emptyClause hafter hquote
              refine ⟨p, ?_, (if_pos hempty).symm⟩
              rw [hdistance, ← Option.some.inj hhere]
              omega
            · cases hhere
          · cases hhere
      · split at h
        · cases h
        · rename_i hopen
          rw [Bool.not_eq_true] at hopen
          split at h
          · rename_i hblank
            obtain ⟨p, hfar, hstop⟩ := ih h
            by_cases hempty : p.clause = []
            · refine ⟨p.blank c hblank hempty, ?_, ?_⟩
              · rw [hfar, p.blank_distance]
                omega
              · rw [hstop, if_pos hempty, p.blank_clause, if_pos rfl]
            · refine ⟨p.cons c hopen fun h => absurd h hempty, ?_, ?_⟩
              · rw [hfar, p.cons_distance]
                omega
              · rw [hstop, if_neg hempty, p.cons_clause, if_neg (List.cons_ne_nil _ _),
                  List.length_cons]
                omega
          · rename_i hblank
            rw [Bool.not_eq_true] at hblank
            obtain ⟨p, hfar, hstop⟩ := ih h
            refine ⟨p.cons c hopen fun _ => hblank, ?_, ?_⟩
            · rw [hfar, p.cons_distance]
              omega
            · rw [hstop, p.cons_clause, if_neg (List.cons_ne_nil _ _), List.length_cons]
              split
              · rename_i hempty
                rw [hempty]
                rfl
              · omega

/-- The text of an import statement. Its clause starts with no blank, or with one blank before a
parenthesis. -/
structure ImportPieces (t : List Char) where
  lead : List Char
  tail : List Char
  pieces : ClausePieces tail
  text : t = "import".toList ++ (lead ++ tail)
  blank_lead : lead.all isBlank = true
  starts : (∀ c ∈ pieces.clause.head?, isBlank c = false) ∨
    ∃ c v, isBlank c = true ∧ pieces.clause = c :: '(' :: v

/-- Where the pieces of an import statement stand. -/
def ImportPieces.place (p : ImportPieces t) : ImportStatement where
  clauseStart := 6 + p.lead.length
  clauseEnd := 6 + p.lead.length + p.pieces.clause.length
  quote := 6 + p.lead.length + p.pieces.distance

namespace ImportPieces

variable (p : ImportPieces t)

/-- The text up to the quote. -/
def front : List Char :=
  "import".toList ++ (p.lead ++ (p.pieces.clause ++ (p.pieces.gap ++
    ("from".toList ++ p.pieces.last))))

theorem front_eq : p.front = "import".toList ++ (p.lead ++ (p.pieces.clause ++ (p.pieces.gap ++
    ("from".toList ++ p.pieces.last)))) := rfl

theorem text_eq : t = p.front ++ p.pieces.quote :: p.pieces.rest := by
  conv => lhs; rw [p.text, p.pieces.text]
  simp [front_eq]

theorem length_front : p.front.length = p.place.quote := by
  have hwords : "import".toList.length = 6 ∧ "from".toList.length = 4 := ⟨rfl, rfl⟩
  simp only [front_eq, place, ClausePieces.distance, List.length_append, hwords.1, hwords.2]
  omega

theorem take_quote : t.take p.place.quote = p.front := by
  have htake : (p.front ++ p.pieces.quote :: p.pieces.rest).take p.front.length = p.front :=
    List.take_left
  rwa [← p.text_eq, p.length_front] at htake

theorem getElem?_quote : t[p.place.quote]? = some p.pieces.quote := by
  have hquote : (p.front ++ p.pieces.quote :: p.pieces.rest)[p.front.length]? =
      some p.pieces.quote := by simp
  rwa [← p.text_eq, p.length_front] at hquote

theorem slice_clause : slice t p.place.clauseStart p.place.clauseEnd = p.pieces.clause := by
  refine slice_eq (a := "import".toList ++ p.lead)
    (c := p.pieces.gap ++ ("from".toList ++ (p.pieces.last ++ p.pieces.quote :: p.pieces.rest)))
    ?_ ?_ ?_
  · conv => lhs; rw [p.text, p.pieces.text]
    simp
  · rw [List.length_append]
    rfl
  · rw [List.length_append]
    rfl

theorem clauseEnd_le : p.place.clauseEnd ≤ p.place.quote := by
  simp only [place, ClausePieces.distance]
  omega

/-- Without slashes all of the text up to the quote is plain code. -/
theorem plain_front (hslash : '/' ∉ t) : Plain p.front := by
  have hclause : Plain p.pieces.clause := by
    refine List.all_eq_true.mpr fun c hc => ?_
    have hopen := p.pieces.open_clause c hc
    have hne : c ≠ '/' := by
      rintro rfl
      apply hslash
      rw [p.text, p.pieces.text]
      simp [hc]
    simp only [ImportStatement.endsClause, Bool.or_eq_false_iff] at hopen
    simp [isPlain, isQuote, hopen.1.1.2, hopen.1.2, hopen.2, hne]
  have hfrom : Plain ("from".toList ++ p.pieces.last) :=
    Plain.append (u := "from".toList) rfl (plain_of_blanks p.pieces.blank_last)
  exact Plain.append (u := "import".toList) rfl ((plain_of_blanks p.blank_lead).append
    (hclause.append ((plain_of_blanks p.pieces.blank_gap).append hfrom)))

end ImportPieces

/-- A clause that comes after all blanks but the last one, which a parenthesis follows. -/
theorem ClausePieces.exists_parenthesis {c : Char} {v : List Char} (p : ClausePieces t)
    (ht : t = c :: '(' :: v) (hc : isBlank c = true) : ∃ v', p.clause = c :: '(' :: v' := by
  have htext := ht.symm.trans p.text
  cases hclause : p.clause with
  | nil =>
      rw [hclause] at htext
      have hgap := p.blank_gap
      match hcase : p.gap with
      | [] =>
          rw [hcase] at htext
          rw [(List.cons.inj htext).1] at hc
          cases hc
      | [d] =>
          rw [hcase] at htext
          cases (List.cons.inj (List.cons.inj htext).2).1
      | d :: e :: gap =>
          rw [hcase] at htext hgap
          rw [← (List.cons.inj (List.cons.inj htext).2).1] at hgap
          simp [show isBlank '(' = false by decide] at hgap
  | cons d clause =>
      rw [hclause] at htext
      obtain ⟨rfl, htail⟩ := List.cons.inj htext
      cases clause with
      | nil =>
          have hends := p.ends_clause c (by rw [hclause]; rfl)
          rw [hc] at hends
          cases hends
      | cons e clause =>
          obtain ⟨rfl, -⟩ := List.cons.inj htail
          exact ⟨clause, rfl⟩

/-- How many of the blanks after the word stand before the clause: all of them, or all but the last
one if a parenthesis follows. -/
def clauseGap (t : List Char) : Nat :=
  if (t.dropWhile isBlank).head? = some '(' then (t.takeWhile isBlank).length - 1
  else (t.takeWhile isBlank).length

theorem clauseGap_le (t : List Char) : clauseGap t ≤ (t.takeWhile isBlank).length := by
  rw [clauseGap]
  split <;> omega

theorem take_clauseGap (t : List Char) :
    t.take (clauseGap t) = (t.takeWhile isBlank).take (clauseGap t) := by
  conv => lhs; arg 2; rw [← List.takeWhile_append_dropWhile (p := isBlank) (l := t)]
  rw [List.take_append_of_le_length (clauseGap_le t)]

theorem length_take_clauseGap (t : List Char) : (t.take (clauseGap t)).length = clauseGap t := by
  rw [take_clauseGap, List.length_take, Nat.min_eq_left (clauseGap_le t)]

theorem blank_take_clauseGap (t : List Char) : (t.take (clauseGap t)).all isBlank = true := by
  rw [take_clauseGap]
  exact List.all_eq_true.mpr fun c hc =>
    List.all_eq_true.mp List.all_takeWhile c (List.mem_of_mem_take hc)

theorem drop_clauseGap_cases (t : List Char) (hne : clauseGap t ≠ 0) :
    (∀ c ∈ (t.drop (clauseGap t)).head?, isBlank c = false) ∨
      ∃ c v, isBlank c = true ∧ t.drop (clauseGap t) = c :: '(' :: v := by
  have hsplit : t = t.takeWhile isBlank ++ t.dropWhile isBlank :=
    (List.takeWhile_append_dropWhile).symm
  by_cases hparen : (t.dropWhile isBlank).head? = some '('
  · right
    obtain ⟨v, hv⟩ := List.head?_eq_some_iff.mp hparen
    have hgap : clauseGap t = (t.takeWhile isBlank).length - 1 := if_pos hparen
    rcases List.eq_nil_or_concat (t.takeWhile isBlank) with hnil | ⟨lead, c, hlead⟩
    · rw [hnil] at hgap
      exact absurd hgap hne
    · rw [List.concat_eq_append] at hlead
      have hlength : clauseGap t = lead.length := by
        rw [hgap, hlead, List.length_append]
        rfl
      have hc : c ∈ t.takeWhile isBlank := by simp [hlead]
      refine ⟨c, v, List.all_eq_true.mp List.all_takeWhile c hc, ?_⟩
      rw [hlength, hsplit, hlead, hv, List.append_assoc, List.drop_left]
      rfl
  · left
    have hgap : clauseGap t = (t.takeWhile isBlank).length := if_neg hparen
    have hdrop : (t.takeWhile isBlank ++ t.dropWhile isBlank).drop (t.takeWhile isBlank).length =
        t.dropWhile isBlank := List.drop_left
    rw [← hsplit, ← hgap] at hdrop
    intro c hc
    rw [hdrop] at hc
    exact isBlank_of_head?_trimStart hc

theorem ClausePieces.starts (hne : clauseGap t ≠ 0) (p : ClausePieces (t.drop (clauseGap t))) :
    (∀ c ∈ p.clause.head?, isBlank c = false) ∨
      ∃ c v, isBlank c = true ∧ p.clause = c :: '(' :: v := by
  rcases drop_clauseGap_cases t hne with hhead | ⟨c, v, hc, htail⟩
  · left
    intro c hc
    refine hhead c (Option.mem_def.mpr ?_)
    rw [p.text, List.head?_append, Option.mem_def.mp hc, Option.some_or]
  · obtain ⟨v', hv'⟩ := p.exists_parenthesis htail hc
    exact Or.inr ⟨c, v', hc, hv'⟩

/-- What is found as an import is one. -/
theorem exists_of_importPattern (h : ImportStatement.pattern before t = some (found, length)) :
    ∃ p : ImportPieces t, found = p.place := by
  rw [ImportStatement.pattern] at h
  cases hkeyword : keyword? "import".toList before t with
  | none =>
      rw [hkeyword] at h
      cases h
  | some rest =>
      have htext := after?_eq_some_iff.mp (keyword?_eq_some hkeyword)
      rw [hkeyword] at h
      dsimp only at h
      rw [← clauseGap] at h
      split at h
      · cases h
      · rename_i hne
        split at h
        · rename_i stop far hclause
          obtain ⟨pieces, hfar, hstop⟩ := exists_of_clause? hclause
          have hfound := (Prod.mk.inj (Option.some.inj h)).1
          have hclause : stop = pieces.clause.length := by
            rw [hstop]
            split
            · rename_i hempty
              rw [hempty]
              rfl
            · omega
          refine ⟨⟨rest.take (clauseGap rest), rest.drop (clauseGap rest), pieces, ?_,
            blank_take_clauseGap rest, pieces.starts hne⟩, ?_⟩
          · rw [htext, List.take_append_drop]
          · simp only [← hfound, ImportPieces.place, length_take_clauseGap, hclause, hfar,
              Nat.zero_add]
        · cases h

end Imports

section Exports

variable {t rest : List Char} {before : Option Char} {offset start stop length : Nat}

/-- A list stands between braces. -/
structure Braced (t : List Char) (start stop : Nat) : Prop where
  opening : ∃ i, start = i + 1 ∧ t[i]? = some '{'
  closing : t[stop]? = some '}'
  le : start ≤ stop

theorem Braced.append (h : Braced t start stop) (u : List Char) :
    Braced (u ++ t) (u.length + start) (u.length + stop) where
  opening := by
    obtain ⟨i, rfl, hi⟩ := h.opening
    refine ⟨u.length + i, rfl, ?_⟩
    rw [List.getElem?_append_right (Nat.le_add_right _ _), Nat.add_sub_cancel_left, hi]
  closing := by
    rw [List.getElem?_append_right (Nat.le_add_right _ _), Nat.add_sub_cancel_left, h.closing]
  le := Nat.add_le_add_left h.le _

theorem exists_of_opening? (h : ExportClause.opening? before t = some (rest, offset)) :
    ∃ front, t = front ++ rest ∧ offset = front.length := by
  rw [ExportClause.opening?] at h
  cases hopen : (keyword? "export".toList before t).bind blanks? with
  | none =>
      rw [hopen] at h
      cases h
  | some after =>
      obtain ⟨word, hword, hblanks⟩ := Option.bind_eq_some_iff.mp hopen
      obtain ⟨gap, rfl, -⟩ := exists_of_blanks? hblanks
      have htext := after?_eq_some_iff.mp (keyword?_eq_some hword)
      rw [hopen] at h
      obtain ⟨hrest, hoffset⟩ := Prod.mk.inj (Option.some.inj h)
      have hsuffix : rest <:+ t := by
        have hafter : after <:+ t := by
          rw [htext]
          exact (List.suffix_append gap after).trans (List.suffix_append _ _)
        cases htype : (after? "type".toList after).bind blanks? with
        | none =>
            rw [htype] at hrest
            exact hrest ▸ hafter
        | some marked =>
            obtain ⟨word, hword, hblanks⟩ := Option.bind_eq_some_iff.mp htype
            obtain ⟨gap, rfl, -⟩ := exists_of_blanks? hblanks
            rw [htype] at hrest
            obtain rfl := after?_eq_some_iff.mp hword
            rw [← hrest]
            exact ((List.suffix_append gap marked).trans (List.suffix_append _ _)).trans hafter
      obtain ⟨front, rfl⟩ := hsuffix
      refine ⟨front, rfl, ?_⟩
      rw [← hoffset, hrest, List.length_append, Nat.add_sub_cancel]

/-- A brace list is closed by the first brace after it. -/
theorem exists_of_inside (h : (rest.takeWhile (· != '}')).length ≠ rest.length) :
    ∃ after, rest = rest.takeWhile (· != '}') ++ '}' :: after ∧
      rest.drop ((rest.takeWhile (· != '}')).length + 1) = after := by
  have hsplit : rest.takeWhile (· != '}') ++ rest.dropWhile (· != '}') = rest :=
    List.takeWhile_append_dropWhile
  cases hdrop : rest.dropWhile (· != '}') with
  | nil =>
      rw [hdrop, List.append_nil] at hsplit
      exact absurd (congrArg List.length hsplit) h
  | cons c after =>
      have hnot := List.head?_dropWhile_not (· != '}') rest
      rw [hdrop] at hnot hsplit
      obtain rfl : c = '}' := by simpa using hnot
      have hafter := drop_inside (rest.takeWhile (· != '}')) after
      rw [hsplit] at hafter
      exact ⟨after, hsplit.symm, hafter⟩

theorem braced_inside (front inside after : List Char) :
    Braced (front ++ '{' :: (inside ++ '}' :: after)) (front.length + 1)
      (front.length + 1 + inside.length) where
  opening := ⟨front.length, rfl, by simp⟩
  closing := by
    rw [show front.length + 1 + inside.length = front.length + (inside.length + 1) by omega,
      List.getElem?_append_right (Nat.le_add_right _ _), Nat.add_sub_cancel_left,
      List.getElem?_cons_succ]
    simp
  le := Nat.le_add_right _ _

/-- What is found as a local export has its list between braces. -/
theorem braced_of_localExport {place : Nat × Nat}
    (h : localExport before t = some (place, length)) : Braced t place.1 place.2 := by
  rw [localExport] at h
  split at h
  · rename_i rest offset hopen
    obtain ⟨front, rfl, rfl⟩ := exists_of_opening? hopen
    dsimp only at h
    split at h
    · cases h
    · rename_i hclosed
      rw [Bool.or_eq_true, not_or] at hclosed
      obtain ⟨after, hrest, -⟩ := exists_of_inside (by simpa using hclosed.1)
      obtain ⟨rfl, -⟩ := Prod.mk.inj (Option.some.inj h)
      conv => arg 1; rw [hrest]
      exact braced_inside _ _ _
  · cases h

/-- The text of a re-export: a star or a closing brace is the last character before plain code and
the quote of the module specifier. A list that is given stands between braces. -/
structure ReexportPieces (t : List Char) (value : ExportClause) where
  front : List Char
  mark : Char
  between : List Char
  quote : Char
  rest : List Char
  text : t = front ++ mark :: (between ++ quote :: rest)
  isMark : mark = '*' ∨ mark = '}'
  plain_between : Plain between
  isText : IsTextQuote quote
  braced : ∀ start stop, value = .braces start stop → Braced t start stop

namespace ReexportPieces

variable {value : ExportClause} (p : ReexportPieces t value)

theorem getElem?_mark : t[p.front.length]? = some p.mark := by
  have hmark : (p.front ++ p.mark :: (p.between ++ p.quote :: p.rest))[p.front.length]? =
      some p.mark := by simp
  rwa [← p.text] at hmark

theorem getElem?_quote : t[p.front.length + 1 + p.between.length]? = some p.quote := by
  have hlength : p.front.length + 1 + p.between.length =
      (p.front ++ p.mark :: p.between).length := by
    rw [List.length_append, List.length_cons]
    omega
  have hquote : ((p.front ++ p.mark :: p.between) ++ p.quote :: p.rest)[
      (p.front ++ p.mark :: p.between).length]? = some p.quote := by simp
  rwa [List.append_assoc, List.cons_append, ← p.text, ← hlength] at hquote

theorem slice_between : slice t p.front.length (p.front.length + 1 + p.between.length) =
    p.mark :: p.between := by
  refine slice_eq (a := p.front) (c := p.quote :: p.rest) p.text rfl ?_
  rw [List.length_cons]
  omega

/-- Where the quote stands, counted from the end. -/
theorem length_sub_rest : t.length - (p.quote :: p.rest).length =
    p.front.length + 1 + p.between.length := by
  have hlength := congrArg List.length p.text
  simp only [List.length_append, List.length_cons] at hlength ⊢
  omega

end ReexportPieces

section Forms

variable (front : List Char) {between after : List Char} {quote : Char} (hplain : Plain between)
  (hisText : IsTextQuote quote)

/-- A statement that exports everything, under a name or not. -/
def ReexportPieces.ofStar (value : ExportClause)
    (hvalue : ∀ start stop, value ≠ .braces start stop) :
    ReexportPieces (front ++ '*' :: (between ++ quote :: after)) value where
  front := front
  mark := '*'
  between := between
  quote := quote
  rest := after
  text := rfl
  isMark := Or.inl rfl
  plain_between := hplain
  isText := hisText
  braced start stop heq := absurd heq (hvalue start stop)

/-- A statement that exports a list. -/
def ReexportPieces.ofList (inside : List Char) :
    ReexportPieces (front ++ '\x7b' :: (inside ++ '\x7d' :: (between ++ quote :: after)))
      (.braces (front.length + 1) (front.length + 1 + inside.length)) where
  front := front ++ '\x7b' :: inside
  mark := '\x7d'
  between := between
  quote := quote
  rest := after
  text := by simp
  isMark := Or.inr rfl
  plain_between := hplain
  isText := hisText
  braced := by
    rintro start stop ⟨⟩
    exact braced_inside _ _ _

end Forms

/-- What is found as a re-export is one, and its quote is found. -/
theorem exists_of_exportPattern {value : ExportClause}
    (h : ExportClause.pattern before t = some (value, length)) :
    ∃ p : ReexportPieces t value, length = p.front.length + 1 + p.between.length := by
  rw [ExportClause.pattern] at h
  split at h
  · cases h
  · rename_i rest offset hopen
    obtain ⟨front, rfl, rfl⟩ := exists_of_opening? hopen
    split at h
    · split at h
      · rename_i name after hname
        obtain ⟨between, quote, rest', rfl, rfl, hplain, hisText⟩ := exists_of_starName? hname
        obtain ⟨rfl, rfl⟩ := Prod.mk.inj (Option.some.inj h)
        exact ⟨_, (ReexportPieces.ofStar front hplain hisText (.starAs _) (by simp)).length_sub_rest⟩
      · obtain ⟨after, hquote, heq⟩ := Option.map_eq_some_iff.mp h
        obtain ⟨between, quote, rest', rfl, rfl, hplain, hisText⟩ := exists_of_fromQuote? hquote
        obtain ⟨rfl, rfl⟩ := Prod.mk.inj heq
        exact ⟨_, (ReexportPieces.ofStar front hplain hisText .star (by simp)).length_sub_rest⟩
    · rename_i rest
      obtain ⟨after, hquote, heq⟩ := Option.bind_eq_some_iff.mp h
      split at heq
      · cases heq
      · rename_i hclosed
        obtain ⟨rest', hrest, hdrop⟩ := exists_of_inside hclosed
        obtain ⟨between, quote, last, rfl, htext, hplain, hisText⟩ := exists_of_fromQuote? hquote
        obtain ⟨rfl, rfl⟩ := Prod.mk.inj (Option.some.inj heq)
        rw [hdrop] at htext
        generalize rest.takeWhile (· != '\x7d') = inside at hrest
        subst hrest htext
        exact ⟨_, (ReexportPieces.ofList front hplain hisText inside).length_sub_rest⟩
    · cases h

end Exports

end PluginContract.Source
