import PluginContract.Proofs.Source.WrittenAliases

/-!
# Type aliases round-trip

Aliases that are written and read back give the names with the texts of the unions. A search
goes over all of an alias but its word `type`. The body is cut at the semicolon, or at the first
line end before the next alias, since past a line end inside a union there comes a bar or a quote.
-/

namespace PluginContract.Source

open Text Script

section Passing

variable {rest : List Char} {before : Option Char}

theorem passes_notMem {u : List Char} (hu : 't' ∉ u) (rest : List Char) :
    TypeAlias.pattern.Passes u rest := opens_alias.passes_of_notMem hu rest

theorem ParameterName.passes (name : ParameterName) (hrest : EndsName rest) :
    TypeAlias.pattern.Passes name.chars rest :=
  opens_alias.passes_word (isNameChar_of_isName name.isName)
    (aliasPattern_name name.isName name.notType hrest)

namespace TypeParameter

theorem endsName_clause (word : List Char) (name : Option ParameterName) (hrest : EndsName rest) :
    EndsName (clause word name ++ rest) := by
  cases name with
  | none => exact hrest
  | some name => exact endsName_cons (by decide) _

theorem passes_clause {word : List Char} (hword : ∀ rest, TypeAlias.pattern.Passes word rest)
    (name : Option ParameterName) (hrest : EndsName rest) :
    TypeAlias.pattern.Passes (clause word name) rest := by
  cases name with
  | none => exact Pattern.passes_nil rest
  | some name =>
      have hblank : 't' ∉ [' '] := by decide
      exact (passes_notMem hblank _).append ((hword _).append
        ((passes_notMem hblank _).append (name.passes hrest)))

theorem passes_text (p : TypeParameter) (hrest : EndsName rest) :
    TypeAlias.pattern.Passes p.text rest := by
  have hextends (rest : List Char) : TypeAlias.pattern.Passes "extends".toList rest :=
    opens_alias.passes_otherWord (by decide) (by decide) rest
  have hequals (rest : List Char) : TypeAlias.pattern.Passes ['='] rest :=
    passes_notMem (by decide) rest
  have hdefault := endsName_clause ['='] p.default hrest
  refine (p.name.passes ?_).append
    ((passes_clause hextends p.bound hdefault).append (passes_clause hequals p.default hrest))
  rw [List.append_assoc]
  exact endsName_clause _ p.bound hdefault

theorem passes_inside (parameters : List TypeParameter) (hrest : EndsName rest) :
    TypeAlias.pattern.Passes (inside parameters) rest := by
  have hcomma (rest : List Char) : TypeAlias.pattern.Passes [',', ' '] rest :=
    passes_notMem (by decide) rest
  refine Pattern.passes_intercalate hcomma (fun _ => endsName_cons (by decide) _) ?_ hrest
  exact List.forall_mem_map.mpr fun p _ rest hrest => p.passes_text hrest

theorem passes_list (parameters : List TypeParameter) (rest : List Char) :
    TypeAlias.pattern.Passes (list parameters) rest := by
  rw [list]
  split
  · exact Pattern.passes_nil rest
  · have hopens : TypeAlias.pattern.Passes ['<'] ((inside parameters ++ ['>']) ++ rest) :=
      passes_notMem (by decide) _
    exact hopens.append ((passes_inside parameters (endsName_cons (by decide) _)).append
      (passes_notMem (by decide) rest))

end TypeParameter

/-- What a masked union is made of: blanks, quotes and bars. -/
def isUnionChar (c : Char) : Bool := isBlank c || c == '"' || c == '\'' || c == '|'

theorem isUnionChar_of_isBlank {c : Char} (h : isBlank c = true) : isUnionChar c = true := by
  rw [isUnionChar, h]
  rfl

theorem all_isUnionChar_blanks (b : Blanks) : b.chars.all isUnionChar = true :=
  List.all_eq_true.mpr fun c hc => isUnionChar_of_isBlank (List.all_eq_true.mp b.isBlank c hc)

theorem all_isUnionChar_literal (w : WrittenText) :
    (w.write (List.map blanked)).all isUnionChar = true := by
  have hquote : isUnionChar w.quote = true := by
    rcases w.isText with h | h <;> rw [h] <;> rfl
  have hblanked (c : Char) : isUnionChar (blanked c) = true := by
    rcases blanked_eq c with h | h <;> rw [h] <;> decide
  simp [WrittenText.write, hquote, hblanked]

namespace AliasUnion

theorem all_isUnionChar (u : AliasUnion) : (u.write (List.map blanked)).all isUnionChar = true := by
  have hbar : (u.bar.elim [] fun after => '|' :: after.chars).all isUnionChar = true := by
    cases u.bar with
    | none => rfl
    | some after => exact all_isUnionChar_blanks after
  have hothers : (u.others.flatMap (Alternative.write (List.map blanked))).all isUnionChar =
      true := by
    rw [List.all_flatMap, List.all_eq_true]
    intro a _
    have hsign : isUnionChar '|' = true := rfl
    simp [Alternative.write, all_isUnionChar_blanks, all_isUnionChar_literal, hsign,
      -List.all_eq_true]
  simp [write, core, all_isUnionChar_blanks, all_isUnionChar_literal, hbar, hothers,
    -List.all_eq_true]

end AliasUnion

namespace WrittenAlias

theorem passes_front (d : WrittenAlias) (rest : List Char) :
    TypeAlias.pattern.Passes d.front rest := by
  have hblank : 't' ∉ [' '] := by decide
  have hexport (rest : List Char) :
      TypeAlias.pattern.Passes (if d.exported then "export ".toList else []) rest := by
    split
    · exact (opens_alias.passes_otherWord (c := 'e') (u := "xport".toList) (by decide) (by decide)
        ([' '] ++ rest)).append (passes_notMem hblank rest)
    · exact Pattern.passes_nil rest
  have hbefore := opens_alias.passes_blanks (by decide) d.before.isBlank
  refine (hbefore _).append ((hexport _).append (passes_notMem ?_ rest))
  split <;> decide

theorem passes_back (d : WrittenAlias) (rest : List Char) :
    TypeAlias.pattern.Passes (d.back (List.map blanked)) rest := by
  have hunion : 't' ∉ d.union.write (List.map blanked) := by
    intro ht
    exact absurd (List.all_eq_true.mp d.union.all_isUnionChar 't' ht) (by decide)
  have hending : 't' ∉ d.ending := by
    rw [ending]
    split <;> decide
  exact ((TypeParameter.passes_list d.parameters _).append (passes_notMem (by decide) _)).append
    ((passes_notMem hunion _).append (passes_notMem hending rest))

theorem endsName_back (d : WrittenAlias) (fill : List Char → List Char) (rest : List Char) :
    EndsName (d.back fill ++ rest) := by
  rw [back, middle, TypeParameter.list]
  split <;> exact endsName_cons (by decide) _

/-- In an alias its word `type` is found, and nothing else. -/
theorem findFrom_masked (d : WrittenAlias) (hbefore : AfterBlank (d.front.getLast?.or before))
    (offset : Nat) :
    TypeAlias.pattern.findFrom 0 offset before (d.masked ++ rest) =
      ⟨offset + d.front.length, d.head.length, d.chars⟩ ::
        TypeAlias.pattern.findFrom 0 (offset + d.masked.length) (d.masked.getLast?.or before)
          rest := by
  have hmatch := aliasPattern_head d hbefore (d.endsName_back (List.map blanked) rest)
  have hne : d.head ≠ [] := by simp [head]
  rw [masked, write, List.append_assoc, passes_front, List.append_assoc,
    Pattern.findFrom_of_match hne hmatch, passes_back]
  simp only [List.getLast?_append, Option.or_assoc, List.length_append, Nat.add_assoc]

end WrittenAlias

end Passing

section Equals

variable {u v : List Char}

/-- A text that is empty or ends with a character of a name. -/
def EndsInName (t : List Char) : Prop := ∀ c ∈ t.getLast?, isNameChar c = true

theorem EndsInName.append (hu : EndsInName u) (hv : EndsInName v) : EndsInName (u ++ v) := by
  intro c hc
  rw [List.getLast?_append, Option.mem_def, Option.or_eq_some_iff] at hc
  rcases hc with hc | ⟨-, hc⟩
  · exact hv c hc
  · exact hu c hc

theorem EndsInName.after (hv : EndsInName v) (hne : v ≠ []) (u : List Char) :
    EndsInName (u ++ v) := by
  intro c hc
  rw [List.getLast?_append_of_ne_nil u hne] at hc
  exact hv c hc

theorem ParameterName.endsInName (name : ParameterName) : EndsInName name.chars := fun c hc =>
  isNameChar_of_isName name.isName c (List.mem_of_getLast? hc)

namespace TypeParameter

theorem endsInName_clause (word : List Char) (name : Option ParameterName) :
    EndsInName (clause word name) := by
  cases name with
  | none => exact nofun
  | some name =>
      have hname := name.endsInName.after (ne_nil_of_isName name.isName) (' ' :: (word ++ [' ']))
      rwa [List.cons_append, List.append_assoc] at hname

theorem endsInName_text (p : TypeParameter) : EndsInName p.text :=
  p.name.endsInName.append ((endsInName_clause _ p.bound).append (endsInName_clause _ p.default))

theorem endsInName_inside (parameters : List TypeParameter) : EndsInName (inside parameters) := by
  induction parameters with
  | nil => exact nofun
  | cons p parameters ih =>
      rw [inside, List.map_cons]
      cases parameters with
      | nil =>
          rw [List.map_nil, List.intercalate_singleton]
          exact p.endsInName_text
      | cons q parameters =>
          rw [List.map_cons, List.intercalate_cons_cons, List.append_assoc]
          refine EndsInName.after (.after ih ?_ _) (by simp) _
          have hne : q.name.chars ≠ [] := ne_nil_of_isName q.name.isName
          cases parameters <;> simp [inside, text, hne]

theorem balanced_inside (parameters : List TypeParameter) :
    Balanced .angled true (inside parameters) :=
  (spelled_inside parameters).balanced_of_among Pairing.among_angled (by decide) (by decide)

/-- A list of type parameters closes at the angle bracket at its end. -/
theorem matching?_inside (parameters : List TypeParameter) (u v : List Char) :
    matching? (u ++ '<' :: (inside parameters ++ '>' :: v)) u.length '<' '>' =
      some (u.length + 1 + (inside parameters).length) := by
  refine matching?_of_balanced Pairing.proper_angled (balanced_inside parameters) ?_ u v
  intro _ hlast
  exact absurd (endsInName_inside parameters '=' hlast) (by decide)

end TypeParameter

variable {rest : List Char}

theorem takeWhile_blank_equals (rest : List Char) :
    (' ' :: '=' :: rest).takeWhile isBlank = [' '] := by
  simp [show isBlank ' ' = true by decide, show isBlank '=' = false by decide]

theorem head?_ne (hrest : ∀ c ∈ rest.head?, isUnionChar c = true) {d : Char}
    (hd : isUnionChar d = false) : rest.head? ≠ some d := by
  intro hhead
  rw [hrest d hhead] at hd
  cases hd

theorem equalsSign?_bare (hrest : ∀ c ∈ rest.head?, isUnionChar c = true) (u : List Char) :
    TypeAlias.equalsSign? (u ++ ' ' :: '=' :: rest) u.length = some (u.length + 1) := by
  have hdrop : (u ++ ' ' :: '=' :: rest).drop (u.length + 1) = '=' :: rest := by
    rw [← List.drop_drop, List.drop_left]
    rfl
  have hchar : (u ++ ' ' :: '=' :: rest)[u.length + 1]? = some '=' := by
    rw [← List.head?_drop, hdrop]
    rfl
  simp only [TypeAlias.equalsSign?, List.drop_left, takeWhile_blank_equals, List.length_singleton,
    hchar, Option.some.injEq, Char.reduceEq, if_false, Option.bind_some, hdrop,
    head?_ne hrest (by decide : isUnionChar '=' = false),
    head?_ne hrest (by decide : isUnionChar '>' = false), decide_false, Bool.or_false,
    Bool.false_eq_true]

theorem equalsSign?_list (hrest : ∀ c ∈ rest.head?, isUnionChar c = true)
    (parameters : List TypeParameter) (u : List Char) :
    TypeAlias.equalsSign?
        (u ++ '<' :: (TypeParameter.inside parameters ++ '>' :: ' ' :: '=' :: rest)) u.length =
      some (u.length + (TypeParameter.inside parameters).length + 3) := by
  have hclose := TypeParameter.matching?_inside parameters u (' ' :: '=' :: rest)
  generalize TypeParameter.inside parameters = inside at hclose ⊢
  have hdrop (w : List Char) : (u ++ '<' :: (inside ++ '>' :: w)).drop
      (u.length + 1 + inside.length + 1) = w := by
    rw [show u ++ '<' :: (inside ++ '>' :: w) = (u ++ '<' :: (inside ++ ['>'])) ++ w by simp,
      List.drop_left']
    simp
    omega
  have hsign : (u ++ '<' :: (inside ++ '>' :: ' ' :: '=' :: rest)).drop
      (u.length + 1 + inside.length + 1 + 1) = '=' :: rest := by
    rw [← List.drop_drop, hdrop]
    rfl
  have hchar : (u ++ '<' :: (inside ++ '>' :: ' ' :: '=' :: rest))[u.length]? = some '<' := by
    rw [← List.head?_drop, List.drop_left]
    rfl
  have hstart : ('<' :: (inside ++ '>' :: ' ' :: '=' :: rest)).takeWhile isBlank = [] := by
    rw [List.takeWhile_cons, if_neg (by decide)]
  simp only [TypeAlias.equalsSign?, List.drop_left, hstart, List.length_nil, Nat.add_zero, hchar,
    if_true, hclose, Option.map_some, hdrop, takeWhile_blank_equals, List.length_singleton,
    Option.bind_some, hsign, head?_ne hrest (by decide : isUnionChar '=' = false),
    head?_ne hrest (by decide : isUnionChar '>' = false), decide_false, Bool.or_false,
    Bool.false_eq_true, if_false, Option.some.injEq]
  omega

/-- The equals sign of an alias is found past its type parameters. -/
theorem equalsSign?_back (d : WrittenAlias) (u rest : List Char) :
    TypeAlias.equalsSign? (u ++ (d.back (List.map blanked) ++ rest)) u.length =
      some (u.length + (TypeParameter.list d.parameters).length + 1) := by
  have hunion : ∀ c ∈ (d.union.write (List.map blanked) ++ (d.ending ++ rest)).head?,
      isUnionChar c = true := by
    intro c hc
    have hne : d.union.write (List.map blanked) ≠ [] := by
      simp [AliasUnion.write, AliasUnion.core, WrittenText.write]
    rw [List.head?_append_of_ne_nil _ hne] at hc
    exact List.all_eq_true.mp d.union.all_isUnionChar c (List.mem_of_mem_head? hc)
  rw [WrittenAlias.back, WrittenAlias.middle, TypeParameter.list]
  split
  · simpa using equalsSign?_bare hunion u
  · have hlist := equalsSign?_list hunion d.parameters u
    simpa [Nat.add_assoc] using hlist

end Equals

section Body

variable {u rest : List Char}

theorem declarationFollows_blanks (hu : u.all isBlank = true) (rest : List Char) :
    TypeAlias.declarationFollows (u ++ rest) = TypeAlias.declarationFollows rest := by
  rw [TypeAlias.declarationFollows, TypeAlias.declarationFollows, trimStart,
    List.dropWhile_append_of_pos (List.all_eq_true.mp hu)]
  rfl

/-- A quote or a bar starts no declaration. -/
theorem declarationFollows_sign {c : Char} (hc : isUnionChar c = true) (hblank : isBlank c = false)
    (rest : List Char) : TypeAlias.declarationFollows (c :: rest) = false := by
  have hword : TypeAlias.declarationWords.contains [] = false := by decide
  have htrim : trimStart (c :: rest) = c :: rest := by
    rw [trimStart, List.dropWhile_cons, hblank, if_neg Bool.false_ne_true]
  have hbrace : c ≠ '}' := by
    rintro rfl
    exact absurd hc (by decide)
  have hname : isNameChar c = false := by
    simp only [isUnionChar, hblank, Bool.false_or, Bool.or_eq_true, beq_iff_eq] at hc
    rcases hc with (rfl | rfl) | rfl <;> decide
  rw [TypeAlias.declarationFollows, htrim]
  simp [hbrace, hname, hword, -List.contains_eq_mem]

theorem getLast?_of_cons {c : Char} (hne : u ≠ [])
    (h : ∃ d ∈ (c :: u).getLast?, isBlank d = false) :
    ∃ d ∈ u.getLast?, isBlank d = false := by
  rwa [List.getLast?_cons_of_ne_nil hne] at h

/-- After a line end inside a union no declaration follows. -/
theorem declarationFollows_union (hu : u.all isUnionChar = true)
    (hlast : ∃ c ∈ u.getLast?, isBlank c = false) (rest : List Char) :
    TypeAlias.declarationFollows (u ++ rest) = false := by
  induction u with
  | nil =>
      obtain ⟨c, hc, -⟩ := hlast
      cases hc
  | cons c u ih =>
      obtain ⟨hc, hu⟩ := Bool.and_eq_true_iff.mp hu
      cases hblank : isBlank c with
      | false => exact declarationFollows_sign hc hblank (u ++ rest)
      | true =>
          have hne : u ≠ [] := by
            rintro rfl
            obtain ⟨d, hd, hlast⟩ := hlast
            obtain rfl : c = d := Option.some.inj hd
            rw [hblank] at hlast
            cases hlast
          have hskip : [c].all isBlank = true := by simp [hblank]
          exact (declarationFollows_blanks hskip (u ++ rest)).trans
            (ih hu (getLast?_of_cons hne hlast))

theorem declarationFollows_word {word : List Char} (hword : word ∈ TypeAlias.declarationWords)
    (hrest : EndsName rest) : TypeAlias.declarationFollows (word ++ rest) = true := by
  have hnames : ∀ word ∈ TypeAlias.declarationWords, isName word = true := by decide
  have hname := hnames word hword
  obtain ⟨⟨c, hc, hblank⟩, -⟩ := solid_of_isName hname
  have htrim : trimStart (word ++ rest) = word ++ rest := by
    have hhead : ∃ c ∈ (word ++ rest).head?, isBlank c = false :=
      ⟨c, by rw [List.head?_append, Option.mem_def.mp hc]; rfl, hblank⟩
    have happend : trimStart ([] ++ (word ++ rest)) = word ++ rest := trimStart_append rfl hhead
    exact happend
  obtain ⟨word, rfl⟩ : ∃ more, word = c :: more := by
    cases word with
    | nil => cases hc
    | cons d word => exact ⟨word, by rw [← Option.some.inj hc]⟩
  have hbrace : c ≠ '}' := ne_of_isNameChar
    (isNameChar_of_isName hname c List.mem_cons_self) (by decide)
  rw [TypeAlias.declarationFollows, htrim]
  have htake := takeWhile_append (isNameChar_of_isName hname) hrest
  simp only [List.cons_append] at htake ⊢
  simp [hbrace, htake, hword]

theorem depthChange_of_isUnionChar {c : Char} (hc : isUnionChar c = true) : depthChange c = 0 :=
  (Pairing.among_brackets.noBracket_of_check (by decide) hc).depthChange_eq

/-- A character of a union, or a blank after it, ends the body only at a line end before a
declaration. -/
theorem bodyLength_cons {c : Char} (hc : isUnionChar c = true) (isFirst : Bool)
    (hline : c = '\n' → TypeAlias.declarationFollows rest = false) :
    TypeAlias.bodyLength isFirst 0 (c :: rest) = TypeAlias.bodyLength false 0 rest + 1 := by
  have hsemicolon : c ≠ ';' := by
    rintro rfl
    exact absurd hc (by decide)
  have hstay : (c = '\n' && !isFirst && TypeAlias.declarationFollows rest) = false := by
    by_cases hnewline : c = '\n'
    · rw [hline hnewline, Bool.and_false]
    · simp [hnewline]
  rw [TypeAlias.bodyLength]
  simp [depthChange_of_isUnionChar hc, hsemicolon, hstay]

/-- A union belongs to the body as a whole. -/
theorem bodyLength_union (hu : u.all isUnionChar = true)
    (hlast : ∃ c ∈ u.getLast?, isBlank c = false) (isFirst : Bool) (rest : List Char) :
    TypeAlias.bodyLength isFirst 0 (u ++ rest) =
      u.length + TypeAlias.bodyLength false 0 rest := by
  induction u generalizing isFirst with
  | nil =>
      obtain ⟨c, hc, -⟩ := hlast
      cases hc
  | cons c u ih =>
      obtain ⟨hc, hu⟩ := Bool.and_eq_true_iff.mp hu
      by_cases hne : u = []
      · subst hne
        obtain ⟨d, hd, hblank⟩ := hlast
        obtain rfl : c = d := Option.some.inj hd
        have hline : c ≠ '\n' := by
          rintro rfl
          exact absurd hblank (by decide)
        rw [List.cons_append, List.nil_append, bodyLength_cons hc isFirst fun h => absurd h hline,
          List.length_singleton, Nat.add_comm]
      · have hrest := getLast?_of_cons hne hlast
        rw [List.cons_append, bodyLength_cons hc isFirst fun _ =>
          declarationFollows_union hu hrest rest, ih hu hrest, List.length_cons]
        omega

/-- Past a union nothing but blanks belongs to the body. -/
theorem exists_bodyLength_blanks (hu : u.all isBlank = true)
    (hrest : rest = [] ∨ '\n' ∈ u ∧ TypeAlias.declarationFollows rest = true) :
    ∃ v, v <+: u ∧ TypeAlias.bodyLength false 0 (u ++ rest) = v.length := by
  induction u with
  | nil =>
      obtain rfl := hrest.resolve_right fun h => List.not_mem_nil h.1
      exact ⟨[], List.nil_prefix, rfl⟩
  | cons c u ih =>
      obtain ⟨hc, hu⟩ := Bool.and_eq_true_iff.mp hu
      have hfollows := declarationFollows_blanks hu rest
      by_cases hends : c = '\n' ∧ TypeAlias.declarationFollows rest = true
      · obtain ⟨rfl, hdeclaration⟩ := hends
        refine ⟨[], List.nil_prefix, ?_⟩
        rw [List.cons_append, TypeAlias.bodyLength, hfollows, hdeclaration]
        rfl
      · have hgoesOn : rest = [] ∨ '\n' ∈ u ∧ TypeAlias.declarationFollows rest = true := by
          refine hrest.imp_right fun ⟨hmem, hdeclaration⟩ => ⟨?_, hdeclaration⟩
          exact (List.mem_cons.mp hmem).resolve_left fun hline => hends ⟨hline.symm, hdeclaration⟩
        obtain ⟨v, hprefix, hlength⟩ := ih hu hgoesOn
        refine ⟨c :: v, List.cons_prefix_cons.mpr ⟨rfl, hprefix⟩, ?_⟩
        rw [List.cons_append, bodyLength_cons (isUnionChar_of_isBlank hc), hlength,
          List.length_cons]
        intro hline
        rw [hfollows]
        exact Bool.eq_false_iff.mpr fun hdeclaration => hends ⟨hline, hdeclaration⟩

end Body

section Reading

theorem solid_literal (w : WrittenText) (fill : List Char → List Char) :
    Solid (w.write fill) := by
  have hquote := isBlank_of_isTextQuote w.isText
  exact solid_between hquote hquote (fill w.inside)

namespace AliasUnion

variable (u : AliasUnion) (fill : List Char → List Char)

theorem solid_core : Solid (u.core fill) := by
  have hmembers : Solid (u.first.write fill ++ u.others.flatMap (Alternative.write fill)) := by
    have hothers {first : List Char} (hfirst : Solid first) :
        Solid (first ++ u.others.flatMap (Alternative.write fill)) := by
      induction u.others generalizing first with
      | nil => rwa [List.flatMap_nil, List.append_nil]
      | cons a others ih =>
          have ha := hfirst.append (solid_literal a.literal fill)
            (a.before.chars ++ '|' :: a.after.chars)
          rw [List.flatMap_cons, ← List.append_assoc]
          refine ih ?_
          rwa [List.append_assoc, List.cons_append] at ha
    exact hothers (solid_literal u.first fill)
  rw [core]
  cases u.bar with
  | none => exact hmembers
  | some after => exact (solid_singleton (by decide : isBlank '|' = false)).append hmembers _

theorem length_masked : (u.write (List.map blanked)).length = u.text.length :=
  u.maskedAs.length_eq

/-- The blanks around a union are trimmed away. -/
theorem trim_append_blanks {v : List Char} (hv : v.all isBlank = true) :
    trim (u.text ++ v) = trim u.text := by
  have htrim {v : List Char} (hv : v.all isBlank = true) :
      trim (u.lead.chars ++ (u.core id ++ v)) = u.core id :=
    trim_append u.lead.isBlank hv (u.solid_core id)
  have hunion := htrim (v := []) rfl
  rw [List.append_nil] at hunion
  rw [text, write, List.append_assoc, htrim hv, hunion]

end AliasUnion

namespace WrittenAlias

theorem length_masked (d : WrittenAlias) : d.masked.length = d.text.length := d.maskedAs.length_eq

variable {gap more moreMasked : List Char}

/-- The body of an alias is the union, perhaps with blanks after it. -/
theorem exists_bodyLength (d : WrittenAlias) (hgap : gap.all isBlank = true)
    (hmore : moreMasked = [] ∨ '\n' ∈ gap ∧ TypeAlias.declarationFollows moreMasked = true) :
    ∃ v, v.all isBlank = true ∧ v <+: d.ending ++ gap ∧
      TypeAlias.bodyLength true 0
          (d.union.write (List.map blanked) ++ (d.ending ++ (gap ++ moreMasked))) =
        d.union.text.length + v.length := by
  have hlast : ∃ c ∈ (d.union.write (List.map blanked)).getLast?, isBlank c = false := by
    obtain ⟨-, c, hc, hblank⟩ := d.union.solid_core (List.map blanked)
    refine ⟨c, ?_, hblank⟩
    rw [AliasUnion.write, List.getLast?_append, Option.mem_def.mp hc]
    rfl
  rw [bodyLength_union d.union.all_isUnionChar hlast, d.union.length_masked, ending]
  split
  · exact ⟨[], rfl, List.nil_prefix, rfl⟩
  · obtain ⟨v, hprefix, hlength⟩ := exists_bodyLength_blanks hgap hmore
    refine ⟨v, ?_, hprefix, congrArg (_ + ·) hlength⟩
    refine List.all_eq_true.mpr fun c hc => ?_
    exact List.all_eq_true.mp hgap c (List.IsPrefix.subset hprefix hc)

/-- An alias up to its union. -/
def opening (d : WrittenAlias) : List Char := d.front ++ (d.head ++ d.middle)

theorem write_eq (d : WrittenAlias) (fill : List Char → List Char) :
    d.write fill = d.opening ++ (d.union.write fill ++ d.ending) := by
  simp only [write, back, opening, List.append_assoc]

theorem drop_opening (d : WrittenAlias) (fill : List Char → List Char) (pre rest : List Char) :
    (pre ++ (d.write fill ++ rest)).drop (pre.length + d.opening.length) =
      d.union.write fill ++ (d.ending ++ rest) := by
  rw [← List.drop_drop, List.drop_left, write_eq, List.append_assoc, List.drop_left,
    List.append_assoc]

theorem equalsSign?_masked (d : WrittenAlias) (pre rest : List Char) :
    ∃ equals, TypeAlias.equalsSign? (pre ++ (d.masked ++ rest))
        (pre.length + d.front.length + d.head.length) = some equals ∧
      equals + 1 = pre.length + d.opening.length := by
  have hsign := equalsSign?_back d (pre ++ (d.front ++ d.head)) rest
  have heq : (pre ++ (d.front ++ d.head)) ++ (d.back (List.map blanked) ++ rest) =
      pre ++ (d.masked ++ rest) := by
    simp only [masked, write, List.append_assoc]
  rw [heq, List.length_append, List.length_append, ← Nat.add_assoc] at hsign
  refine ⟨_, hsign, ?_⟩
  simp only [opening, middle, List.length_append, List.length_cons, List.length_nil]
  omega

/-- What is found of an alias adds its name with the text of its union. -/
theorem add_alias (d : WrittenAlias) {pre preMasked : List Char}
    (hlength : preMasked.length = pre.length) (hgap : gap.all isBlank = true)
    (hmore : moreMasked = [] ∨ '\n' ∈ gap ∧ TypeAlias.declarationFollows moreMasked = true)
    {table : Entries (List Char)} (hnew : d.name ∉ table.keys) :
    TypeAlias.add (pre ++ (d.text ++ (gap ++ more)))
        (preMasked ++ (d.masked ++ (gap ++ moreMasked)))
        table ⟨preMasked.length + d.front.length, d.head.length, d.chars⟩ =
      table ++ [(d.name, trim d.union.text)] := by
  obtain ⟨equals, hsign, hequals⟩ := d.equalsSign?_masked preMasked (gap ++ moreMasked)
  obtain ⟨v, hblank, ⟨w, hprefix⟩, hbody⟩ := d.exists_bodyLength hgap hmore
  have hhas : table.has d.name = false := by
    rw [Entries.has, Entries.get?_eq_none_iff.mpr hnew]
    rfl
  have hslice : slice (pre ++ (d.text ++ (gap ++ more))) (equals + 1)
      (equals + 1 + (d.union.text.length + v.length)) = d.union.text ++ v := by
    have hrest : d.ending ++ (gap ++ more) = v ++ (w ++ more) := by
      rw [← List.append_assoc, ← hprefix, List.append_assoc]
    rw [slice, hequals, hlength, text, drop_opening, hrest, Nat.add_sub_cancel_left,
      ← List.length_append, ← List.append_assoc]
    exact List.take_left
  rw [TypeAlias.add]
  dsimp only
  rw [hsign]
  dsimp only
  rw [show String.ofList d.chars = d.name from rfl, hhas, if_neg Bool.false_ne_true,
    Entries.put_of_notMem hnew]
  have hdrop := d.drop_opening (List.map blanked) preMasked (gap ++ moreMasked)
  rw [← hequals, show d.write (List.map blanked) = d.masked from rfl] at hdrop
  rw [hdrop, hbody, hslice, d.union.trim_append_blanks hblank]

/-- The name of an alias with the text of its union. -/
def entry (d : WrittenAlias) : String × List Char := (d.name, trim d.union.text)

theorem afterBlank_getLast?_front (d : WrittenAlias) : AfterBlank d.front.getLast? := by
  have hmarks : AfterBlank d.marks.getLast? := by
    rw [marks, AfterBlank]
    cases d.exported <;> cases d.declared <;> rintro c ⟨⟩ <;> rfl
  intro c hc
  rw [front, List.getLast?_append, Option.mem_def, Option.or_eq_some_iff] at hc
  rcases hc with hc | ⟨-, hc⟩
  · exact hmarks c hc
  · exact List.all_eq_true.mp d.before.isBlank c (List.mem_of_getLast? hc)

/-- Before the word `type` stands a blank, or nothing. -/
theorem afterBlank_front (d : WrittenAlias) {before : Option Char}
    (h : '\n' ∈ d.before.chars ∨ before = none) : AfterBlank (d.front.getLast?.or before) := by
  rcases h with hline | rfl
  · have hne : d.front ≠ [] := List.ne_nil_of_mem (List.mem_append_left _ hline)
    have hc := List.getLast?_eq_some_getLast hne
    rw [hc, Option.some_or, ← hc]
    exact d.afterBlank_getLast?_front
  · rw [Option.or_none]
    exact d.afterBlank_getLast?_front

/-- An alias is a declaration, past the blanks before it. -/
theorem declarationFollows_marks (d : WrittenAlias) (rest : List Char) :
    TypeAlias.declarationFollows (d.marks ++ (d.head ++ rest)) = true := by
  have hword (word : List Char) (hword : word ∈ TypeAlias.declarationWords) (rest : List Char) :
      TypeAlias.declarationFollows (word ++ ' ' :: rest) = true :=
    declarationFollows_word hword (endsName_cons (by decide) rest)
  rw [marks]
  cases d.exported with
  | true =>
      rw [List.append_assoc]
      exact hword "export".toList (by decide) _
  | false =>
      cases d.declared with
      | true => exact hword "declare".toList (by decide) _
      | false => exact hword "type".toList (by decide) (d.chars ++ rest)

/-- After an alias come blanks, and then nothing or the next alias on a line of its own. -/
theorem exists_gap (ds : List WrittenAlias) (tail : Blanks)
    (hlines : ∀ d ∈ ds, '\n' ∈ d.before.chars) :
    ∃ gap more moreMasked, gap.all isBlank = true ∧ print ds ++ tail.chars = gap ++ more ∧
      ds.flatMap masked ++ tail.chars = gap ++ moreMasked ∧
      (moreMasked = [] ∨ '\n' ∈ gap ∧ TypeAlias.declarationFollows moreMasked = true) := by
  cases ds with
  | nil => exact ⟨tail.chars, [], [], tail.isBlank, by simp [print], by simp, Or.inl rfl⟩
  | cons d ds =>
      have hmore (fill : List Char → List Char) (rest : List Char) : d.write fill ++ rest =
          d.before.chars ++ (d.marks ++ (d.head ++ (d.back fill ++ rest))) := by
        simp only [write, front, List.append_assoc]
      refine ⟨d.before.chars, d.marks ++ (d.head ++ (d.back id ++ (print ds ++ tail.chars))),
        d.marks ++ (d.head ++ (d.back (List.map blanked) ++ (ds.flatMap masked ++ tail.chars))),
        d.before.isBlank, ?_, ?_, Or.inr ⟨hlines d List.mem_cons_self, ?_⟩⟩
      · rw [print, List.flatMap_cons, List.append_assoc]
        exact hmore id _
      · rw [List.flatMap_cons, List.append_assoc]
        exact hmore (List.map blanked) _
      · exact d.declarationFollows_marks _

/-- A search reads aliases one after the other. -/
theorem foldl_findFrom (ds : List WrittenAlias) (tail : Blanks) {pre preMasked : List Char}
    (hlength : preMasked.length = pre.length) {before : Option Char}
    (hfirst : ∀ d ∈ ds.head?, '\n' ∈ d.before.chars ∨ before = none)
    (hlines : ∀ d ∈ ds.tail, '\n' ∈ d.before.chars) {table : Entries (List Char)}
    (hnames : (table.keys ++ ds.map name).Nodup) :
    (TypeAlias.pattern.findFrom 0 preMasked.length before
        (ds.flatMap masked ++ tail.chars)).foldl
        (TypeAlias.add (pre ++ (print ds ++ tail.chars))
          (preMasked ++ (ds.flatMap masked ++ tail.chars))) table =
      table ++ ds.map entry := by
  induction ds generalizing pre preMasked before table with
  | nil =>
      have hpasses := opens_alias.passes_blanks (by decide) tail.isBlank [] preMasked.length before
      rw [List.append_nil] at hpasses
      rw [List.flatMap_nil, List.nil_append, hpasses]
      exact (List.append_nil table).symm
  | cons d ds ih =>
      rw [List.map_cons] at hnames
      have hnew : d.name ∉ table.keys := fun hmem =>
        (List.nodup_append.mp hnames).2.2 _ hmem _ List.mem_cons_self rfl
      have hothers : ((table ++ [d.entry]).keys ++ ds.map name).Nodup := by
        rw [Entries.keys, List.map_append, List.append_assoc]
        exact hnames
      have hadd : TypeAlias.add (pre ++ (d.text ++ (print ds ++ tail.chars)))
          (preMasked ++ (d.masked ++ (ds.flatMap masked ++ tail.chars))) table
          ⟨preMasked.length + d.front.length, d.head.length, d.chars⟩ = table ++ [d.entry] := by
        obtain ⟨gap, more, moreMasked, hgap, hprint, hmasked, hmore⟩ := exists_gap ds tail hlines
        rw [hprint, hmasked]
        exact d.add_alias hlength hgap hmore hnew
      have hlength' : (preMasked ++ d.masked).length = (pre ++ d.text).length := by
        rw [List.length_append, List.length_append, hlength, d.length_masked]
      have hfirst' : ∀ next ∈ ds.head?,
          '\n' ∈ next.before.chars ∨ d.masked.getLast?.or before = none :=
        fun next hnext => Or.inl (hlines next (List.mem_of_mem_head? hnext))
      have hrest := ih hlength' hfirst'
        (fun next hnext => hlines next (List.mem_of_mem_tail hnext)) hothers
      have hprint : print (d :: ds) = d.text ++ print ds := List.flatMap_cons
      rw [List.append_assoc, List.append_assoc, List.length_append] at hrest
      rw [List.flatMap_cons, List.append_assoc, hprint, List.append_assoc,
        d.findFrom_masked (d.afterBlank_front (hfirst d rfl)), List.foldl_cons, hadd, hrest,
        List.append_assoc]
      rfl

/-- Aliases that are written and read back give their names, each with the text of its union. -/
theorem readAll_written (ds : List WrittenAlias) (tail : Blanks)
    (hnames : (ds.map name).Nodup) (hlines : ∀ d ∈ ds.tail, '\n' ∈ d.before.chars) :
    TypeAlias.readAll (print ds ++ tail.chars) =
      ds.map fun d => (d.name, trim d.union.text) := by
  have hlength : ([] : List Char).length = ([] : List Char).length := rfl
  have hfirst : ∀ d ∈ ds.head?, '\n' ∈ d.before.chars ∨ (none : Option Char) = none :=
    fun _ _ => Or.inr rfl
  have hnew : (Entries.keys ([] : Entries (List Char)) ++ ds.map name).Nodup := hnames
  rw [TypeAlias.readAll, mask_print]
  exact foldl_findFrom ds tail hlength hfirst hlines hnew

/-- An alias that only a line end closes, with a semicolon in its text. -/
def onLine : WrittenAlias where
  before := ⟨['\n'], rfl⟩
  exported := true
  declared := false
  chars := ['A']
  isName := rfl
  parameters := [⟨⟨['T'], rfl, nofun⟩, none, some ⟨['U'], rfl, nofun⟩⟩]
  union := ⟨⟨[' '], rfl⟩, none, ⟨'\'', Or.inr rfl, [('a', false), (';', false)]⟩, []⟩
  semicolon := false

/-- An alias with a member on each line, closed by a semicolon. -/
def onLines : WrittenAlias where
  before := ⟨['\n'], rfl⟩
  exported := false
  declared := false
  chars := ['B']
  isName := rfl
  parameters := []
  union := ⟨⟨['\n'], rfl⟩, some ⟨[' '], rfl⟩, ⟨'\'', Or.inr rfl, [('b', false)]⟩,
    [⟨⟨['\n'], rfl⟩, ⟨[' '], rfl⟩, ⟨'\'', Or.inr rfl, [('\'', false)]⟩⟩]⟩
  semicolon := true

theorem readAll_onLine_onLines :
    TypeAlias.readAll
        "\nexport type A<T = U> = 'a;'\ntype B =\n| 'b'\n| '\\'';\n".toList =
      [("A", "'a;'".toList), ("B", "| 'b'\n| '\\''".toList)] := by
  have hread := readAll_written [onLine, onLines] ⟨['\n'], rfl⟩ (by decide) (by decide)
  have hprint : print [onLine, onLines] ++ ['\n'] =
      "\nexport type A<T = U> = 'a;'\ntype B =\n| 'b'\n| '\\'';\n".toList := by
    decide
  have hentries : ([onLine, onLines].map fun d => (d.name, trim d.union.text)) =
      [("A", "'a;'".toList), ("B", "| 'b'\n| '\\''".toList)] := by
    decide
  rw [← hprint, ← hentries]
  exact hread

end WrittenAlias

end Reading

end PluginContract.Source
