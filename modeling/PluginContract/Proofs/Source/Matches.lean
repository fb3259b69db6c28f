import PluginContract.Proofs.Source.Lines

/-!
# What is found at the start of a line

An import clause ends before the only word `from` that a quote follows, whatever its names
are. An exported brace list ends at its closing brace, and it is a re-export if and only if
the word `from` comes next.
-/

namespace PluginContract.Source

open Text Script

theorem keyword?_atLine {before : Option Char} (h : AtLine before) (word t : List Char) :
    keyword? word before (word ++ t) = some t := by
  have hafter : after? word (word ++ t) = some t := after?_eq_some_iff.mpr rfl
  rcases h with rfl | rfl
  · exact hafter
  · rw [keyword?, if_neg (by decide), hafter]

/-- A quote that opens a module specifier. -/
def IsTextQuote (quote : Char) : Prop := quote = '"' ∨ quote = '\''

section Clause

variable {u rest : List Char} {c quote : Char} {length blanks : Nat} {before : Option Char}

/-- The word `from`, with blanks around it, and a quote. -/
def fromQuote (quote : Char) (rest : List Char) : List Char :=
  ' ' :: 'f' :: 'r' :: 'o' :: 'm' :: ' ' :: quote :: rest

/-- No quote is the first thing after a part of a clause that may be empty. -/
theorem quoteFollows_clause (hu : ∀ c ∈ u, ImportStatement.endsClause c = false) :
    quoteFollows (trimStart (u ++ fromQuote quote rest)) = false := by
  induction u with
  | nil => rfl
  | cons c u ih =>
      obtain ⟨hc, hu⟩ := List.forall_mem_cons.mp hu
      rw [List.cons_append, trimStart, List.dropWhile_cons]
      split
      · exact ih hu
      · simp only [ImportStatement.endsClause, Bool.or_eq_false_iff] at hc
        exact Bool.or_eq_false_iff.mpr ⟨by simpa using hc.1.2, by simpa using hc.1.1.2⟩

/-- Within a clause no quote comes after the word `from`. -/
theorem quoteFollows_of_after? (hne : u ≠ [])
    (hu : ∀ c ∈ u, ImportStatement.endsClause c = false) {after : List Char}
    (h : after? "from".toList (u ++ fromQuote quote rest) = some after) :
    quoteFollows (trimStart after) = false := by
  have heq : u ++ fromQuote quote rest = 'f' :: 'r' :: 'o' :: 'm' :: after :=
    after?_eq_some_iff.mp h
  -- A shorter piece would go on with a blank in the middle of the word.
  match u, hne with
  | [_], _ | [_, _], _ | [_, _, _], _ => simp [fromQuote] at heq
  | a :: b :: c :: d :: u, _ =>
      simp only [List.cons_append, List.cons.injEq] at heq
      rw [← heq.2.2.2.2]
      exact quoteFollows_clause fun x hx => hu x (by simp [hx])

theorem clause?_cons (hc : ImportStatement.endsClause c = false)
    (h : ∀ after, after? "from".toList (c :: u) = some after →
      quoteFollows (trimStart after) = false) :
    ImportStatement.clause? length blanks before (c :: u) =
      if isBlank c then ImportStatement.clause? length (blanks + 1) (some c) u
      else ImportStatement.clause? (length + blanks + 1) 0 (some c) u := by
  rw [ImportStatement.clause?]
  split
  · rename_i gap hhere
    split at hhere
    · cases hhere
    · split at hhere
      · rename_i after hafter
        rw [h after hafter, if_neg Bool.false_ne_true] at hhere
        cases hhere
      · cases hhere
  · rw [hc, if_neg Bool.false_ne_true]

/-- The clause is passed over up to its last character. -/
theorem clause?_append (hu : ∀ d ∈ u, ImportStatement.endsClause d = false)
    (hc : ImportStatement.endsClause c = false) (hblank : isBlank c = false) :
    ImportStatement.clause? length blanks before (u ++ c :: fromQuote quote rest) =
      ImportStatement.clause? (length + blanks + u.length + 1) 0 (some c)
        (fromQuote quote rest) := by
  induction u generalizing length blanks before with
  | nil =>
      have hall : ∀ d ∈ [c], ImportStatement.endsClause d = false := by simpa using hc
      have hfrom (after : List Char)
          (h : after? "from".toList (c :: fromQuote quote rest) = some after) :
          quoteFollows (trimStart after) = false :=
        quoteFollows_of_after? (List.cons_ne_nil c []) hall h
      rw [List.nil_append, clause?_cons hc hfrom, hblank, if_neg Bool.false_ne_true]
      rfl
  | cons d u ih =>
      obtain ⟨hd, hu⟩ := List.forall_mem_cons.mp hu
      have hall : ∀ x ∈ d :: (u ++ [c]), ImportStatement.endsClause x = false := by
        refine List.forall_mem_cons.mpr ⟨hd, List.forall_mem_append.mpr ⟨hu, ?_⟩⟩
        simpa using hc
      have hfrom (after : List Char)
          (h : after? "from".toList (d :: (u ++ c :: fromQuote quote rest)) = some after) :
          quoteFollows (trimStart after) = false := by
        have hshape : d :: (u ++ c :: fromQuote quote rest) =
            d :: (u ++ [c]) ++ fromQuote quote rest := by simp
        exact quoteFollows_of_after? (by simp) hall (hshape ▸ h)
      rw [List.cons_append, clause?_cons hd hfrom, ih hu, ih hu, List.length_cons]
      split <;> congr 1 <;> omega

theorem clause?_fromQuote (hquote : IsTextQuote quote) :
    ImportStatement.clause? length 0 (some c) (fromQuote quote rest) =
      some (length, length + 6) := by
  have htrim : trimStart (' ' :: quote :: rest) = quote :: rest := by
    rcases hquote with rfl | rfl <;> rfl
  have hfollows : quoteFollows (quote :: rest) = true := by
    rcases hquote with rfl | rfl <;> rfl
  have hafter : after? "from".toList ('f' :: 'r' :: 'o' :: 'm' :: ' ' :: quote :: rest) =
      some (' ' :: quote :: rest) := after?_eq_some_iff.mpr rfl
  rw [fromQuote, clause?_cons (by decide) fun after h => by cases h]
  rw [if_pos (by decide), ImportStatement.clause?, hafter]
  dsimp only
  rw [htrim, hfollows, Option.any_some, if_neg (by decide), if_pos rfl]
  simp

/-- After a single blank, an import statement is as long as its clause makes it. -/
theorem importPattern_clause (hbefore : AtLine before) (hblank : isBlank c = false)
    (hparen : c ≠ '(') :
    ImportStatement.pattern before ("import".toList ++ ' ' :: c :: u) =
      (ImportStatement.clause? 0 0 (some ' ') (c :: u)).map fun found =>
        (⟨7, 7 + found.1, 7 + found.2⟩, 7 + found.2) := by
  have htake : (' ' :: c :: u).takeWhile isBlank = [' '] := by
    rw [List.takeWhile_cons, if_pos (by decide), List.takeWhile_cons, hblank,
      if_neg Bool.false_ne_true]
  have hdrop : (' ' :: c :: u).dropWhile isBlank = c :: u := by
    rw [List.dropWhile_cons, if_pos (by decide), List.dropWhile_cons, hblank,
      if_neg Bool.false_ne_true]
  rw [ImportStatement.pattern, keyword?_atLine hbefore]
  simp only [htake, hdrop, List.head?_cons, Option.some.injEq, hparen, if_false,
    List.length_cons, List.length_nil]
  cases hclause : ImportStatement.clause? 0 0 (some ' ') (c :: u) <;> simp [hclause]

/-- An import statement is found with its whole clause. -/
theorem importPattern_eq (hbefore : AtLine before) (hsolid : Solid u)
    (hu : ∀ d ∈ u, ImportStatement.endsClause d = false) (hparen : u.head? ≠ some '(')
    (hquote : IsTextQuote quote) :
    ImportStatement.pattern before ("import".toList ++ ' ' :: (u ++ fromQuote quote rest)) =
      some (⟨7, 7 + u.length, 13 + u.length⟩, 13 + u.length) := by
  have htext : ∃ front c, u = front ++ [c] ∧ isBlank c = false := by
    obtain ⟨-, c, hc, hblank⟩ := hsolid
    obtain ⟨front, rfl⟩ := List.getLast?_eq_some_iff.mp hc
    exact ⟨front, c, rfl, hblank⟩
  have hhead : ∃ d v, u ++ fromQuote quote rest = d :: v ∧ isBlank d = false ∧ d ≠ '(' := by
    obtain ⟨⟨d, hd, hblank⟩, -⟩ := hsolid
    obtain ⟨v, rfl⟩ := List.head?_eq_some_iff.mp hd
    exact ⟨d, _, List.cons_append, hblank, by simpa using hparen⟩
  have hclause : ImportStatement.clause? 0 0 (some ' ') (u ++ fromQuote quote rest) =
      some (u.length, u.length + 6) := by
    obtain ⟨front, c, rfl, hblank⟩ := htext
    obtain ⟨hfront, hc⟩ := List.forall_mem_append.mp hu
    rw [List.append_assoc, List.singleton_append,
      clause?_append hfront (hc c List.mem_cons_self) hblank, clause?_fromQuote hquote]
    simp
  obtain ⟨d, v, hshape, hblank, hparen⟩ := hhead
  rw [hshape] at hclause ⊢
  have hdistance : 7 + (u.length + 6) = 13 + u.length := by omega
  rw [importPattern_clause hbefore hblank hparen, hclause, Option.map_some, hdistance]

end Clause

section Export

variable {t inside rest : List Char} {quote : Char} {before : Option Char}

/-- The text of an export up to the star or the brace. -/
def exportOpening (marked : Bool) (t : List Char) : List Char :=
  "export".toList ++ ' ' :: (mark marked ++ t)

theorem exportOpening_eq (marked : Bool) (t : List Char) :
    exportOpening marked t = "export".toList ++ ' ' :: (mark marked ++ t) := rfl

theorem length_exportOpening (marked : Bool) (t : List Char) :
    (exportOpening marked t).length = 7 + (mark marked).length + t.length := by
  have hword : "export".toList.length = 6 := rfl
  rw [exportOpening_eq, List.length_append, List.length_cons, List.length_append]
  omega

theorem opening?_eq (hbefore : AtLine before) (marked : Bool)
    (ht : t.head? = some '*' ∨ t.head? = some '{') :
    ExportClause.opening? before (exportOpening marked t) =
      some (t, 7 + (mark marked).length) := by
  have htrim : trimStart t = t := by
    refine trimStart_of_head? fun c hc => ?_
    rcases ht with h | h <;> rw [h] at hc <;> obtain rfl := Option.some.inj hc <;> decide
  have hmark : ∃ c v, mark marked ++ t = c :: v ∧ isBlank c = false := by
    cases marked with
    | true => exact ⟨'t', _, rfl, by decide⟩
    | false =>
        rcases ht with h | h <;> obtain ⟨v, rfl⟩ := List.head?_eq_some_iff.mp h <;>
          exact ⟨_, v, rfl, by decide⟩
  have hblanks : blanks? (' ' :: (mark marked ++ t)) = some (mark marked ++ t) := by
    obtain ⟨c, v, hshape, hblank⟩ := hmark
    rw [blanks?, if_pos (by decide), hshape, trimStart, List.dropWhile_cons, hblank,
      if_neg Bool.false_ne_true]
  have htype : ((after? "type".toList (mark marked ++ t)).bind blanks?).getD (mark marked ++ t) =
      t := by
    cases marked with
    | true =>
        have hafter : after? "type".toList (mark true ++ t) = some (' ' :: t) :=
          after?_eq_some_iff.mpr rfl
        have hblanks : blanks? (' ' :: t) = some (trimStart t) := rfl
        rw [hafter, Option.bind_some, hblanks, htrim]
        rfl
    | false =>
        have hafter : after? "type".toList (mark false ++ t) = none := by
          rcases ht with h | h <;> obtain ⟨v, rfl⟩ := List.head?_eq_some_iff.mp h <;> rfl
        rw [hafter]
        rfl
  have hlength : (exportOpening marked t).length - t.length = 7 + (mark marked).length := by
    rw [length_exportOpening]
    omega
  rw [exportOpening_eq] at hlength ⊢
  rw [ExportClause.opening?, keyword?_atLine hbefore, Option.bind_some, hblanks]
  dsimp only
  rw [htype, hlength]

theorem takeWhile_inside (hinside : '}' ∉ inside) (rest : List Char) :
    (inside ++ '}' :: rest).takeWhile (· != '}') = inside := by
  rw [List.takeWhile_append_of_pos fun c hc => ?_]
  · simp
  · simp only [bne_iff_ne, ne_eq]
    rintro rfl
    exact hinside hc

theorem drop_inside (inside rest : List Char) :
    (inside ++ '}' :: rest).drop (inside.length + 1) = rest := by
  rw [← List.drop_drop, List.drop_left]
  rfl

/-- What a star comes to after the opening of an export. -/
theorem pattern_star {offset : Nat}
    (h : ExportClause.opening? before t = some ('*' :: rest, offset)) :
    ExportClause.pattern before t =
      match ExportClause.starName? rest with
      | some (name, quote) => some (.starAs name, t.length - quote.length)
      | none =>
          (ExportClause.fromQuote? rest).map fun quote => (.star, t.length - quote.length) := by
  rw [ExportClause.pattern, h]
  rfl

theorem pattern_brace {offset : Nat}
    (h : ExportClause.opening? before t = some ('{' :: rest, offset)) :
    ExportClause.pattern before t =
      (ExportClause.fromQuote? (rest.drop ((rest.takeWhile (· != '}')).length + 1))).bind
        fun quote =>
          if (rest.takeWhile (· != '}')).length = rest.length then none
          else some (.braces (offset + 1) (offset + 1 + (rest.takeWhile (· != '}')).length),
            t.length - quote.length) := by
  rw [ExportClause.pattern, h]
  rfl

theorem localExport_brace {offset : Nat}
    (h : ExportClause.opening? before t = some ('{' :: rest, offset)) :
    localExport before t =
      if (rest.takeWhile (· != '}')).length = rest.length ||
          fromFollows (rest.drop ((rest.takeWhile (· != '}')).length + 1)) then none
      else some ((offset + 1, offset + 1 + (rest.takeWhile (· != '}')).length),
        offset + (rest.takeWhile (· != '}')).length + 2) := by
  rw [localExport, h]
  rfl

section Closed

variable {offset : Nat} (hinside : '}' ∉ inside)
  (h : ExportClause.opening? before t = some ('{' :: (inside ++ '}' :: rest), offset))
include hinside h

/-- What a closed brace list comes to after the opening of an export. -/
theorem pattern_closed :
    ExportClause.pattern before t =
      (ExportClause.fromQuote? rest).map fun quote =>
        (.braces (offset + 1) (offset + 1 + inside.length), t.length - quote.length) := by
  rw [pattern_brace h, takeWhile_inside hinside, drop_inside]
  cases ExportClause.fromQuote? rest with
  | none => rfl
  | some quote =>
      rw [Option.bind_some, if_neg (by simp)]
      rfl

theorem localExport_closed :
    localExport before t =
      if fromFollows rest then none
      else some ((offset + 1, offset + 1 + inside.length), offset + inside.length + 2) := by
  rw [localExport_brace h, takeWhile_inside hinside, drop_inside]
  simp

end Closed

theorem fromQuote?_eq (hquote : IsTextQuote quote) (rest : List Char) :
    ExportClause.fromQuote? (fromQuote quote rest) = some (quote :: rest) := by
  rcases hquote with rfl | rfl <;> rfl

theorem starPattern_eq (hbefore : AtLine before) (hquote : IsTextQuote quote) :
    ExportClause.pattern before (exportOpening false ('*' :: fromQuote quote rest)) =
      some (.star, 14) := by
  have hname : ExportClause.starName? (fromQuote quote rest) = none := rfl
  rw [pattern_star (opening?_eq hbefore false (Or.inl rfl)), hname]
  dsimp only
  rw [fromQuote?_eq hquote]
  simp [length_exportOpening, mark, fromQuote]
  omega

/-- A name for a whole module is read whole, also if it ends in the word `from`. -/
theorem starName?_eq (i : Identifier) (hquote : IsTextQuote quote) (rest : List Char) :
    ExportClause.starName? (i.asName ++ fromQuote quote rest) =
      some (i.chars, quote :: rest) := by
  have hname : name? (i.chars ++ fromQuote quote rest) = some (i.chars, fromQuote quote rest) :=
    name?_append_of_isName i.isName (endsName_cons (by decide) _)
  have htrim : trimStart (i.chars ++ fromQuote quote rest) = i.chars ++ fromQuote quote rest := by
    obtain ⟨⟨c, hc, hblank⟩, -⟩ := i.solid
    refine trimStart_of_head? fun d hd => ?_
    rw [List.head?_append, Option.mem_def.mp hc] at hd
    exact Option.some.inj hd ▸ hblank
  have hopen : (((blanks? (i.asName ++ fromQuote quote rest)).bind (after? "as".toList)).bind
      blanks? |>.bind name?) = name? (trimStart (i.chars ++ fromQuote quote rest)) := rfl
  rw [ExportClause.starName?, hopen, htrim, hname]
  dsimp only
  rw [fromQuote?_eq hquote]

theorem starAsPattern_eq (hbefore : AtLine before) (i : Identifier) (hquote : IsTextQuote quote) :
    ExportClause.pattern before
        (exportOpening false ('*' :: (i.asName ++ fromQuote quote rest))) =
      some (.starAs i.chars, 18 + i.chars.length) := by
  rw [pattern_star (opening?_eq hbefore false (Or.inl rfl)), starName?_eq i hquote]
  simp [length_exportOpening, mark, fromQuote, Identifier.asName]
  omega

/-- A brace list before the word `from` is a re-export. -/
theorem bracesPattern_eq (hbefore : AtLine before) (marked : Bool) (hinside : '}' ∉ inside)
    (hquote : IsTextQuote quote) :
    ExportClause.pattern before
        (exportOpening marked ('{' :: (inside ++ '}' :: fromQuote quote rest))) =
      some (.braces (8 + (mark marked).length) (8 + (mark marked).length + inside.length),
        15 + (mark marked).length + inside.length) := by
  rw [pattern_closed hinside (opening?_eq hbefore marked (Or.inr rfl)), fromQuote?_eq hquote]
  simp [length_exportOpening, fromQuote]
  omega

theorem bracesPattern_eq_none (hbefore : AtLine before) (marked : Bool) (hinside : '}' ∉ inside) :
    ExportClause.pattern before (exportOpening marked ('{' :: (inside ++ '}' :: ';' :: rest))) =
      none := by
  have hfrom : ExportClause.fromQuote? (';' :: rest) = none := rfl
  rw [pattern_closed hinside (opening?_eq hbefore marked (Or.inr rfl)), hfrom, Option.map_none]

/-- A brace list before a semicolon is a local export. -/
theorem localExport_eq (hbefore : AtLine before) (marked : Bool) (hinside : '}' ∉ inside) :
    localExport before (exportOpening marked ('{' :: (inside ++ '}' :: ';' :: rest))) =
      some ((8 + (mark marked).length, 8 + (mark marked).length + inside.length),
        9 + (mark marked).length + inside.length) := by
  have hfrom : fromFollows (';' :: rest) = false := rfl
  rw [localExport_closed hinside (opening?_eq hbefore marked (Or.inr rfl)), hfrom,
    if_neg Bool.false_ne_true]
  simp only [Option.some.injEq, Prod.mk.injEq]
  omega

theorem localExport_eq_none (hbefore : AtLine before) (marked : Bool) (hinside : '}' ∉ inside) :
    localExport before
      (exportOpening marked ('{' :: (inside ++ '}' :: fromQuote quote rest))) = none := by
  have hfrom : fromFollows (fromQuote quote rest) = true := rfl
  rw [localExport_closed hinside (opening?_eq hbefore marked (Or.inr rfl)), hfrom, if_pos rfl]

theorem localExport_star (hbefore : AtLine before) (rest : List Char) :
    localExport before (exportOpening false ('*' :: rest)) = none := by
  rw [localExport, opening?_eq hbefore false (Or.inl rfl)]
  rfl

end Export

end PluginContract.Source
