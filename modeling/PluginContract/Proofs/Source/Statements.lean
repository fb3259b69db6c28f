import PluginContract.Proofs.Source.Matches
import PluginContract.Proofs.Source.Tables
import PluginContract.Proofs.Text.Occurrences

/-!
# What a found statement is read as

The offsets of a statement lead to its clause and to its module specifier in the source,
whatever comes before and after it, and the statement adds to a table what its declaration
makes up.
-/

namespace PluginContract.Source

open Text Script

section Offsets

variable {source a c : List Char} {start : Nat}

theorem literalText_eq (o : Origin) (h : source = a ++ (o.write id ++ c))
    (hstart : start = a.length) : literalText source start = o.chars := by
  have hwrite : o.write id ++ c = o.quote :: (o.chars ++ o.quote :: (';' :: '\n' :: c)) := by
    simp [Origin.write]
  rw [h, hstart, hwrite]
  exact literalText_literal o.isText (quoted_of_notMem o.noQuote o.noEscape) a _

end Offsets

section Texts

theorem spelled_list (bindings : List Binding) :
    Spelled [',', ' ', '{', '}'] (Binding.list bindings) := by
  have hinside : Spelled [',', ' ', '{', '}'] (Binding.inside bindings) :=
    (Binding.spelled_inside bindings).mono (by simp)
  exact .cons (by simp) (hinside.append (.cons (by simp) .nil))

theorem solid_list (bindings : List Binding) : Solid (Binding.list bindings) :=
  Solid.append (u := ['{']) (solid_singleton (by decide)) (solid_singleton (by decide)) _

theorem trimOf_list (bindings : List Binding) :
    trimOf (fun c => c == '{' || c == '}') (Binding.list bindings) = Binding.inside bindings := by
  rw [Binding.list, Binding.inside]
  split
  · rfl
  · simp [trimOf]

theorem brace_notMem_inside (bindings : List Binding) : '}' ∉ Binding.inside bindings :=
  (Binding.spelled_inside bindings).notMem (by decide) (by decide)

namespace ImportPart

variable {part : ImportPart}

theorem spelled_text (part : ImportPart) : Spelled [',', ' ', '{', '}', '*'] part.text := by
  cases part with
  | default name => exact .of_isName name.isName
  | space name => exact .cons (by simp) ((spelled_asName name).mono (by simp))
  | braces bindings => exact (spelled_list bindings).mono (by simp)

theorem solid_text (part : ImportPart) : Solid part.text := by
  cases part with
  | default name => exact name.solid
  | space name =>
      exact Solid.append (u := ['*']) (solid_singleton (by decide)) name.solid [' ', 'a', 's', ' ']
  | braces bindings => exact solid_list bindings

theorem balanced_text (part : ImportPart) : Balanced .brackets false part.text := by
  cases part with
  | default name => exact (Spelled.of_isName name.isName : Spelled [] _).balanced (by simp)
  | space name =>
      have hspelled : Spelled [' ', '*'] ('*' :: name.asName) :=
        .cons (by simp) ((spelled_asName name).mono (by simp))
      exact hspelled.balanced (by decide)
  | braces bindings =>
      exact .bracket rfl ((Binding.spelled_inside bindings).balanced (by decide)) nofun .nil

variable {first : ImportPart} {others : List ImportPart}

theorem spelled_clause (parts : List ImportPart) :
    Spelled [',', ' ', '{', '}', '*'] (clause parts) := by
  refine Binding.spelled_intercalate (by simp) (by simp) fun t ht => ?_
  obtain ⟨part, -, rfl⟩ := List.mem_map.mp ht
  exact part.spelled_text

theorem solid_clause (first : ImportPart) (others : List ImportPart) :
    Solid (clause (first :: others)) := by
  induction others generalizing first with
  | nil =>
      rw [clause, List.map_singleton, List.intercalate_singleton]
      exact first.solid_text
  | cons next others ih =>
      have hshape : clause (first :: next :: others) =
          first.text ++ ([',', ' '] ++ clause (next :: others)) := by
        simp [clause, List.intercalate_cons_cons]
      rw [hshape]
      exact first.solid_text.append (ih next) _

theorem splitCommas_clause (first : ImportPart) (others : List ImportPart) :
    splitCommas (clause (first :: others)) = (first :: others).map text := by
  have hparts : ∀ t ∈ (first :: others).map text, Balanced .brackets false t ∧ Solid t := by
    intro t ht
    obtain ⟨part, -, rfl⟩ := List.mem_map.mp ht
    exact ⟨part.balanced_text, part.solid_text⟩
  rw [splitCommas, ← List.append_nil (clause _)]
  exact split_balanced Pairing.proper_brackets hparts blank_nil blank_nil

/-- A part is read as what it makes up. -/
theorem addPart_text (origin : Origin) (table : ImportTable) (part : ImportPart) :
    ImportTable.addPart origin.specifier table part.text = table.addPartOf origin part := by
  cases part with
  | default name =>
      obtain ⟨c, rest, hshape⟩ := List.exists_cons_of_ne_nil (ne_nil_of_isName name.isName)
      have hc : isNameChar c = true := isNameChar_of_isName name.isName c (by rw [hshape]; simp)
      have hhead (d : Char) (hd : isNameChar d = false) : name.chars.head? ≠ some d := by
        rw [hshape, List.head?_cons]
        exact fun h => ne_of_isNameChar hc hd (Option.some.inj h)
      rw [ImportTable.addPart, text, if_neg (hhead '*' (by decide)), if_neg (hhead '{' (by decide)),
        if_pos name.isName]
      rfl
  | space name =>
      have hname : ImportTable.namespaceName? ('*' :: name.asName) = some name.chars := by
        have htrim : trimStart ([] ++ name.chars) = name.chars :=
          trimStart_append rfl name.solid.1
        rw [List.nil_append] at htrim
        have hopen : ImportTable.namespaceName? ('*' :: name.asName) =
            if isName (trimStart name.chars) then some (trimStart name.chars) else none := rfl
        rw [hopen, htrim, if_pos name.isName]
      rw [ImportTable.addPart, text, List.head?_cons, if_pos rfl, hname]
      rfl
  | braces bindings =>
      have hhead : (Binding.list bindings).head? = some '{' := rfl
      rw [ImportTable.addPart, text, hhead, if_neg (by decide), if_pos rfl, trimOf_list,
        Binding.readList_inside]
      exact foldl_addNamed origin bindings table

end ImportPart

theorem spelled_head (marked : Bool) (first : ImportPart) (others : List ImportPart) :
    Spelled [',', ' ', '{', '}', '*'] (mark marked ++ ImportPart.clause (first :: others)) :=
  ((spelled_mark marked).mono (by simp)).append (ImportPart.spelled_clause _)

theorem solid_head (marked : Bool) (first : ImportPart) (others : List ImportPart) :
    Solid (mark marked ++ ImportPart.clause (first :: others)) := by
  have hclause := ImportPart.solid_clause first others
  cases marked with
  | false => exact hclause
  | true =>
      have htype : Solid "type".toList := solid_of_isName (by decide)
      exact htype.append hclause [' ']

/-- A comma comes after the first name of a clause, if anything does. -/
theorem endsName_clause (name : Identifier) (others : List ImportPart) :
    ∃ rest, ImportPart.clause (.default name :: others) = name.chars ++ rest ∧
      EndsName rest ∧ rest.head? ≠ some ' ' ∧ rest.head? ≠ some '{' := by
  cases others with
  | nil => exact ⟨[], by simp [ImportPart.clause, ImportPart.text], endsName_nil, by simp, by simp⟩
  | cons next others =>
      refine ⟨[',', ' '] ++ ImportPart.clause (next :: others), ?_, endsName_cons (by decide) _,
        by simp, by simp⟩
      simp [ImportPart.clause, ImportPart.text, List.intercalate_cons_cons]

/-- A clause without the mark starts with the word `type` only as a name. -/
theorem after?_clause (first : ImportPart) (others : List ImportPart) {c : Char}
    (hc : c = ' ' ∨ c = '{') :
    after? ("type".toList ++ [c]) (ImportPart.clause (first :: others)) = none := by
  rw [Option.eq_none_iff_forall_ne_some]
  intro after h
  have hword : after? "type".toList (ImportPart.clause (first :: others)) = some (c :: after) := by
    rw [after?_eq_some_iff] at h ⊢
    rw [h, List.append_assoc]
    rfl
  cases first with
  | default name =>
      obtain ⟨rest, hshape, hends, hspace, hbrace⟩ := endsName_clause name others
      rw [hshape] at hword
      rcases after?_append_of_isName name.isName hends (by decide) hword with
        ⟨-, rfl⟩ | ⟨d, hd, hname⟩
      · rcases hc with rfl | rfl
        · exact hspace rfl
        · exact hbrace rfl
      · obtain rfl := Option.some.inj hd
        rcases hc with rfl | rfl <;> exact absurd hname (by decide)
  | space name =>
      cases others <;>
        simp [ImportPart.clause, ImportPart.text, List.intercalate_cons_cons, after?] at hword
  | braces bindings =>
      cases others <;>
        simp [ImportPart.clause, ImportPart.text, Binding.list, List.intercalate_cons_cons,
          after?] at hword

theorem dropType_eq (marked : Bool) (first : ImportPart) (others : List ImportPart) :
    ImportTable.dropType (mark marked ++ ImportPart.clause (first :: others)) =
      ImportPart.clause (first :: others) := by
  cases marked with
  | true =>
      have hafter : after? "type ".toList (mark true ++ ImportPart.clause (first :: others)) =
          some (ImportPart.clause (first :: others)) := after?_eq_some_iff.mpr rfl
      have htrim : trim ([' '] ++ (ImportPart.clause (first :: others) ++ [])) =
          ImportPart.clause (first :: others) :=
        trim_append rfl rfl (ImportPart.solid_clause first others)
      rw [List.append_nil] at htrim
      rw [ImportTable.dropType, hafter, Option.isSome_some, Bool.true_or, if_pos rfl]
      exact htrim
  | false =>
      have hspace : after? "type ".toList (ImportPart.clause (first :: others)) = none :=
        after?_clause first others (Or.inl rfl)
      have hbrace : after? "type\x7b".toList (ImportPart.clause (first :: others)) = none :=
        after?_clause first others (Or.inr rfl)
      change ImportTable.dropType (ImportPart.clause (first :: others)) = _
      rw [ImportTable.dropType, hspace, hbrace]
      rfl

end Texts

/-- The text of an import or a re-export up to the quote of its module specifier. -/
def beforeQuote (keyword head : List Char) : List Char :=
  keyword ++ ' ' :: (head ++ [' ', 'f', 'r', 'o', 'm', ' '])

/-- What stands between the first word and the word `from`. -/
def Declaration.head : Declaration → List Char
  | imports marked first others _ => mark marked ++ ImportPart.clause (first :: others)
  | star _ => ['*']
  | starAs name _ => '*' :: name.asName
  | reexports marked bindings _ => mark marked ++ Binding.list bindings
  | exports marked bindings => mark marked ++ Binding.list bindings

/-- The module that a declaration refers to. -/
def Declaration.origin? : Declaration → Option Origin
  | imports _ _ _ origin | star origin | starAs _ origin | reexports _ _ origin => some origin
  | exports .. => none

theorem length_beforeQuote (d : Declaration) :
    (beforeQuote d.keyword d.head).length = 13 + d.head.length := by
  simp [beforeQuote, d.length_keyword]
  omega

theorem write_eq {d : Declaration} {origin : Origin} (h : d.origin? = some origin)
    (fill : List Char → List Char) :
    d.write fill = beforeQuote d.keyword d.head ++ origin.write fill := by
  cases d <;> cases h <;>
    simp [Declaration.write, Declaration.body, beforeQuote, Declaration.head, Origin.fromText]

theorem write_exports (marked : Bool) (bindings : List Binding) (fill : List Char → List Char) :
    (Declaration.exports marked bindings).write fill =
      ("export".toList ++ ' ' :: (mark marked ++ Binding.list bindings)) ++ [';', '\n'] := by
  simp [Declaration.write, Declaration.body]

section Statements

variable {d : Declaration} {origin : Origin} {pre post : List Char}

/-- The module specifier of a declaration is read from the quote that opens it. -/
theorem literalText_text (h : d.origin? = some origin) {start : Nat}
    (hstart : start = pre.length + (beforeQuote d.keyword d.head).length) :
    literalText (pre ++ (d.text ++ post)) start = origin.chars := by
  refine literalText_eq origin (a := pre ++ beforeQuote d.keyword d.head) (c := post) ?_ ?_
  · rw [Declaration.text, write_eq h]
    simp
  · rw [hstart, List.length_append]

/-- The list between the braces of a declaration is read from its offsets. -/
theorem slice_braces {marked : Bool} {bindings : List Binding} {start stop : Nat} {rest : List Char}
    (h : d.text = "export".toList ++ ' ' :: (mark marked ++ (Binding.list bindings ++ rest)))
    (hstart : start = pre.length + (8 + (mark marked).length))
    (hstop : stop = start + (Binding.inside bindings).length) :
    slice (pre ++ (d.text ++ post)) start stop = Binding.inside bindings := by
  refine slice_eq (a := pre ++ ("export".toList ++ ' ' :: (mark marked ++ ['{'])))
    (c := '}' :: (rest ++ post)) ?_ ?_ ?_
  · rw [h]
    simp [Binding.list]
  · rw [hstart]
    simp
    omega
  · rw [hstop, hstart]
    simp
    omega

theorem addStatement_imports (marked : Bool) (first : ImportPart) (others : List ImportPart)
    (origin : Origin) (pre post : List Char) (table : ImportTable) {length : Nat}
    (hlength : length = (mark marked ++ ImportPart.clause (first :: others)).length) :
    ImportTable.addStatement
        (pre ++ ((Declaration.imports marked first others origin).text ++ post)) table
        ⟨pre.length, 13 + length, ⟨7, 7 + length, 13 + length⟩⟩ =
      table.declare (.imports marked first others origin) := by
  have hplain : Plain (ImportPart.clause (first :: others)) :=
    (ImportPart.spelled_clause _).plain (by decide)
  have hclause : slice (pre ++ ((Declaration.imports marked first others origin).text ++ post))
      (pre.length + 7) (pre.length + (7 + length)) =
        mark marked ++ ImportPart.clause (first :: others) := by
    refine slice_eq (a := pre ++ ("import".toList ++ [' '])) (c := origin.fromText id ++ post)
      ?_ ?_ ?_
    · simp [Declaration.text, Declaration.write, Declaration.body]
    · simp
    · rw [hlength]
      simp
      omega
  have hmodule : literalText
      (pre ++ ((Declaration.imports marked first others origin).text ++ post))
      (pre.length + (13 + length)) = origin.chars := by
    refine literalText_text rfl ?_
    rw [length_beforeQuote, hlength]
    simp [Declaration.head]
  rw [ImportTable.addStatement]
  dsimp only
  rw [hclause, hmodule, trim_of_solid (solid_head marked first others), dropType_eq,
    stripComments_plain hplain, ImportPart.splitCommas_clause, List.foldl_map]
  have hadd : (fun table part => ImportTable.addPart (String.ofList origin.chars) table
      (ImportPart.text part)) = ImportTable.addPartOf origin :=
    funext fun table => funext fun part => ImportPart.addPart_text origin table part
  rw [hadd, foldl_addPartOf]
  rfl

theorem addStatement_star (origin : Origin) (pre post : List Char) (table : ReexportTable) :
    ReexportTable.addStatement (pre ++ ((Declaration.star origin).text ++ post)) table
        ⟨pre.length, 14, .star⟩ = table.declare (.star origin) := by
  have hmodule : literalText (pre ++ ((Declaration.star origin).text ++ post))
      (pre.length + 14) = origin.chars := literalText_text rfl rfl
  rw [ReexportTable.addStatement]
  dsimp only
  rw [hmodule, ReexportTable.declare]
  simp only [Declaration.stars, Declaration.reexported, List.foldl_cons, List.foldl_nil,
    Entries.putAll_nil, Origin.specifier]
  split <;> rfl

theorem addStatement_starAs (name : Identifier) (origin : Origin) (pre post : List Char)
    (table : ReexportTable) :
    ReexportTable.addStatement (pre ++ ((Declaration.starAs name origin).text ++ post)) table
        ⟨pre.length, 18 + name.chars.length, .starAs name.chars⟩ =
      table.declare (.starAs name origin) := by
  have hmodule : literalText (pre ++ ((Declaration.starAs name origin).text ++ post))
      (pre.length + (18 + name.chars.length)) = origin.chars := by
    refine literalText_text rfl ?_
    rw [length_beforeQuote]
    simp [Declaration.head, Identifier.asName]
    omega
  rw [ReexportTable.addStatement]
  dsimp only
  rw [hmodule]
  rfl

theorem addStatement_reexports (marked : Bool) (bindings : List Binding) (origin : Origin)
    (pre post : List Char) (table : ReexportTable) :
    ReexportTable.addStatement
        (pre ++ ((Declaration.reexports marked bindings origin).text ++ post)) table
        ⟨pre.length, 15 + (mark marked).length + (Binding.inside bindings).length,
          .braces (8 + (mark marked).length)
            (8 + (mark marked).length + (Binding.inside bindings).length)⟩ =
      table.declare (.reexports marked bindings origin) := by
  have hmodule : literalText
      (pre ++ ((Declaration.reexports marked bindings origin).text ++ post))
      (pre.length + (15 + (mark marked).length + (Binding.inside bindings).length)) =
        origin.chars := by
    refine literalText_text rfl ?_
    rw [length_beforeQuote]
    simp [Declaration.head, Binding.list]
    omega
  have hslice : slice (pre ++ ((Declaration.reexports marked bindings origin).text ++ post))
      (pre.length + (8 + (mark marked).length))
      (pre.length + (8 + (mark marked).length + (Binding.inside bindings).length)) =
        Binding.inside bindings := slice_braces rfl rfl (by omega)
  rw [ReexportTable.addStatement]
  dsimp only
  rw [hmodule, hslice, Binding.readList_inside, List.foldl_map]
  simp only [ReexportTable.declare, Declaration.stars, List.foldl_nil, Declaration.reexported,
    Entries.putAll, List.foldl_map]
  rfl

theorem readList_exports (marked : Bool) (bindings : List Binding) (pre post : List Char) :
    Specifier.readList (slice (pre ++ ((Declaration.exports marked bindings).text ++ post))
        (pre.length + (8 + (mark marked).length))
        (pre.length + (8 + (mark marked).length + (Binding.inside bindings).length))) =
      (Declaration.exports marked bindings).exportedSpecifiers := by
  rw [slice_braces rfl rfl (by omega), Binding.readList_inside]
  rfl

end Statements

end PluginContract.Source
