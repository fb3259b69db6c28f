import PluginContract.Proofs.Source.WrittenSpecifiers

/-!
# Specifier lists in imports and re-exports

The same list may stand between the braces of an import and of a re-export. Both put its
specifiers into tables with the one reader, but an import is not found at all if a quote
stands between the words `import` and `from`. So lists with a quoted name are read in
re-exports only, and all others alike, as long as no name is given both to the default
export and to another one.
-/

namespace PluginContract.Source

open Text Script

/-- A statement with a specifier list between braces, alone in a module. -/
def statement (keyword : String) (list : List Char) : List Char :=
  keyword.toList ++ ' ' :: ('\x7b' :: (list ++ ['\x7d']) ++ " from \"m\"".toList)

/-- What an import of a re-exported name puts into the table of named imports. -/
def Reexport.imported? (r : Reexport) : Option ImportedName :=
  match r.target with
  | .name given => if given = "default" then none else some ⟨r.source, given⟩
  | .everything => none

/-- What an import of a re-exported name puts into the table of default imports. -/
def Reexport.importedDefault? (r : Reexport) : Option String :=
  match r.target with
  | .name given => if given = "default" then some r.source else none
  | .everything => none

/-- An import and a re-export of a list record the same pairs of names: under each name the import
has what the re-export has, in the table that the name of the exporting side calls for. -/
def ReadAlike (list : List Char) : Prop :=
  let reexported := (ReexportTable.read (statement "export" list)).named
  let imports := ImportTable.read (statement "import" list)
  imports.namespaces = [] ∧ ∀ name,
    imports.named.get? name = (reexported.get? name).bind Reexport.imported? ∧
      imports.defaults.get? name = (reexported.get? name).bind Reexport.importedDefault?

namespace SpecifierList

/-- No name of the list is quoted. -/
def Unquoted (l : SpecifierList) : Prop := ∀ n ∈ l.names, n.isQuoted = false

/-- The word `import` is no name of the list. -/
def WithoutImport (l : SpecifierList) : Prop := ∀ n ∈ l.names, n.text ≠ "import".toList

/-- No name is given both to the default export and to another one. -/
def Unmixed (l : SpecifierList) : Prop :=
  ∀ s ∈ l.specifiers, ∀ s' ∈ l.specifiers, s.renamed = s'.renamed → s.isDefault = s'.isDefault

instance (l : SpecifierList) : Decidable l.Unquoted :=
  inferInstanceAs (Decidable (∀ n ∈ l.names, _))

instance (l : SpecifierList) : Decidable l.WithoutImport :=
  inferInstanceAs (Decidable (∀ n ∈ l.names, _))

instance (l : SpecifierList) : Decidable l.Unmixed :=
  inferInstanceAs (Decidable (∀ s ∈ l.specifiers, ∀ s' ∈ l.specifiers, _))

end SpecifierList

section Statement

variable {α : Type} {pattern : Pattern α} {letter : Char} {keyword : String} {u v : List Char}

theorem mask_statement (hkeyword : isName keyword.toList = true) (h : MaskedAs u v) :
    mask (statement keyword u) =
      keyword.toList ++ ' ' :: ('\x7b' :: (v ++ ['\x7d']) ++ fromQuote '"' [' ', '"']) := by
  have hopening : MaskedAs (keyword.toList ++ [' ', '\x7b']) (keyword.toList ++ [' ', '\x7b']) :=
    (maskedAs_of_isName hkeyword).append (maskedAs_plain rfl)
  have hfrom : MaskedAs "\x7d from ".toList "\x7d from ".toList := maskedAs_plain rfl
  have hmodule : MaskedAs ('"' :: (['m'] ++ ['"'])) ('"' :: (['m'].map blanked ++ ['"'])) :=
    maskedAs_quoted (Or.inl rfl) (quoted_of_notMem (by decide) (by decide))
  have hmask := (hopening.append (h.append (hfrom.append hmodule))) [] []
  rw [List.append_nil, maskFrom_nil, List.append_nil, ← mask_eq] at hmask
  have hleft : keyword.toList ++ [' ', '\x7b'] ++ (u ++ ("\x7d from ".toList ++
      '"' :: (['m'] ++ ['"']))) = statement keyword u := by simp [statement]
  rw [hleft] at hmask
  rw [hmask]
  simp [fromQuote, blanked]

/-- A statement that is found up to the quote of its module specifier is all that is found. -/
theorem findAll_statement (h : SkipsNames pattern letter) {head : List Char} {value : α}
    (hkeyword : keyword.toList.length = 6)
    (hmatch : pattern none (keyword.toList ++ ' ' :: (head ++ fromQuote '"' [' ', '"'])) =
      some (value, 13 + head.length)) :
    pattern.findAll (keyword.toList ++ ' ' :: (head ++ fromQuote '"' [' ', '"'])) =
      [⟨0, 13 + head.length, value⟩] := by
  have hshape : keyword.toList ++ ' ' :: (head ++ fromQuote '"' [' ', '"']) =
      beforeQuote keyword.toList head ++ ['"', ' ', '"'] := by
    simp [beforeQuote, fromQuote]
  have hlength : (beforeQuote keyword.toList head).length = 13 + head.length := by
    simp [beforeQuote, hkeyword]
    omega
  have hne : beforeQuote keyword.toList head ≠ [] := by simp [beforeQuote]
  rw [hshape, ← hlength] at hmatch
  rw [hshape, ← hlength, Pattern.findAll, Pattern.findFrom_of_match hne hmatch]
  have hrest : pattern.Passes ['"', ' ', '"'] [] := passes_other h (by decide) []
  exact congrArg (_ :: ·) (hrest _ _)

theorem literalText_statement {start : Nat} (hkeyword : keyword.toList.length = 6)
    (hstart : start = 15 + u.length) : literalText (statement keyword u) start = ['m'] := by
  have hshape : statement keyword u =
      beforeQuote keyword.toList ('\x7b' :: (u ++ ['\x7d'])) ++ '"' :: (['m'] ++ '"' :: []) := by
    simp [statement, beforeQuote]
  have hlength : start = (beforeQuote keyword.toList ('\x7b' :: (u ++ ['\x7d']))).length := by
    simp [beforeQuote, hkeyword, hstart]
    omega
  rw [hshape, hlength]
  exact literalText_literal (Or.inl rfl) (quoted_of_notMem (by decide) (by decide)) _ _

end Statement

section Tables

variable (specifiers : List Specifier) (name : String)

/-- The last specifier that gives a name. -/
def lastOf? : Option Specifier :=
  specifiers.reverse.find? fun s => String.ofList s.renamed == name

/-- The re-exports of the specifiers of a list. -/
def reexportsOf : Entries Reexport :=
  .ofPairs (specifiers.map fun s =>
    (String.ofList s.renamed, ⟨"m", .name (String.ofList s.given)⟩))

/-- The imports of the specifiers of a list. -/
def importsOf : ImportTable := specifiers.foldl (ImportTable.addNamed "m") .empty

theorem get?_reexportsOf :
    (reexportsOf specifiers).get? name =
      (lastOf? specifiers name).map fun s => ⟨"m", .name (String.ofList s.given)⟩ := by
  rw [reexportsOf, Entries.get?_ofPairs, ← List.map_reverse, List.find?_map, Option.map_map]
  rfl

theorem namespaces_importsOf : (importsOf specifiers).namespaces = [] := by
  rw [importsOf, foldl_addNamed_eq]
  rfl

theorem get?_named_importsOf :
    (importsOf specifiers).named.get? name =
      (lastOf? (specifiers.filter fun s => !s.isDefault) name).map fun s =>
        ⟨"m", String.ofList s.given⟩ := by
  have hnamed : (importsOf specifiers).named = .ofPairs
      ((specifiers.filter fun s => !s.isDefault).map fun s =>
        (String.ofList s.renamed, ⟨"m", String.ofList s.given⟩)) := by
    rw [importsOf, foldl_addNamed_eq]
    rfl
  rw [hnamed, Entries.get?_ofPairs, ← List.map_reverse, List.find?_map, Option.map_map]
  rfl

theorem get?_defaults_importsOf :
    (importsOf specifiers).defaults.get? name =
      (lastOf? (specifiers.filter Specifier.isDefault) name).map fun _ => "m" := by
  have hdefaults : (importsOf specifiers).defaults = .ofPairs
      ((specifiers.filter Specifier.isDefault).map fun s => (String.ofList s.renamed, "m")) := by
    rw [importsOf, foldl_addNamed_eq]
    rfl
  rw [hdefaults, Entries.get?_ofPairs, ← List.map_reverse, List.find?_map, Option.map_map]
  rfl

end Tables

section Agreement

variable {specifiers : List Specifier} {name : String} {s : Specifier}

theorem of_lastOf?_eq_some (h : lastOf? specifiers name = some s) :
    s ∈ specifiers ∧ String.ofList s.renamed = name := by
  have hmem := List.mem_of_find?_eq_some h
  have hname := List.find?_some h
  exact ⟨List.mem_reverse.mp hmem, by simpa using hname⟩

theorem exists_lastOf? (h : s ∈ specifiers) :
    ∃ s', lastOf? specifiers (String.ofList s.renamed) = some s' := by
  rw [← Option.isSome_iff_exists, lastOf?, List.find?_isSome]
  exact ⟨s, List.mem_reverse.mpr h, by simp⟩

/-- If all specifiers that give a name pass a test, the last of them is that of those that pass. -/
theorem lastOf?_filter {passes : Specifier → Bool}
    (h : ∀ s ∈ specifiers, String.ofList s.renamed = name → passes s = true) :
    lastOf? (specifiers.filter passes) name = lastOf? specifiers name := by
  rw [lastOf?, lastOf?, ← List.filter_reverse, ← List.head?_filter, ← List.head?_filter,
    List.filter_filter]
  refine congrArg List.head? (List.filter_congr fun s hs => ?_)
  have hpasses := h s (List.mem_reverse.mp hs)
  by_cases hname : String.ofList s.renamed = name
  · simp [hname, hpasses hname]
  · simp [hname]

/-- If none of them does, none is found. -/
theorem lastOf?_filter_eq_none {passes : Specifier → Bool}
    (h : ∀ s ∈ specifiers, String.ofList s.renamed = name → passes s = false) :
    lastOf? (specifiers.filter passes) name = none := by
  rw [Option.eq_none_iff_forall_ne_some]
  intro s hs
  obtain ⟨hmem, hname⟩ := of_lastOf?_eq_some hs
  obtain ⟨hmem, hpasses⟩ := List.mem_filter.mp hmem
  rw [h s hmem hname] at hpasses
  cases hpasses

theorem eq_default_iff (s : Specifier) :
    String.ofList s.given = "default" ↔ s.isDefault = true := by
  have hstring : "default" = String.ofList "default".toList := String.ofList_toList.symm
  rw [hstring, String.ofList_inj, Specifier.isDefault, decide_eq_true_iff]

theorem imported?_name (s : Specifier) :
    Reexport.imported? ⟨"m", .name (String.ofList s.given)⟩ =
      if s.isDefault then none else some ⟨"m", String.ofList s.given⟩ := by
  simp only [Reexport.imported?, eq_default_iff]

theorem importedDefault?_name (s : Specifier) :
    Reexport.importedDefault? ⟨"m", .name (String.ofList s.given)⟩ =
      if s.isDefault then some "m" else none := by
  simp only [Reexport.importedDefault?, eq_default_iff]

/-- Whether the tables that one list of specifiers makes up agree. -/
def TablesAlike (specifiers : List Specifier) : Prop :=
  ∀ name,
    (importsOf specifiers).named.get? name =
        ((reexportsOf specifiers).get? name).bind Reexport.imported? ∧
      (importsOf specifiers).defaults.get? name =
        ((reexportsOf specifiers).get? name).bind Reexport.importedDefault?

/-- A name in both tables of an import is too much for the one entry of the re-export. -/
theorem TablesAlike.renamed_ne {s s' : Specifier} (h : TablesAlike specifiers)
    (hs : s ∈ specifiers) (hs' : s' ∈ specifiers) (hdefault : s.isDefault = true)
    (hother : s'.isDefault = false) : s.renamed ≠ s'.renamed := by
  intro hname
  obtain ⟨d, hd⟩ := exists_lastOf? (List.mem_filter.mpr ⟨hs, hdefault⟩)
  obtain ⟨o, ho⟩ := exists_lastOf? (List.mem_filter (p := fun s => !s.isDefault).mpr
    ⟨hs', by simp [hother]⟩)
  obtain ⟨last, hlast⟩ := exists_lastOf? hs'
  obtain ⟨hnamed, hdefaults⟩ := h (String.ofList s'.renamed)
  rw [get?_named_importsOf, ho, get?_reexportsOf, hlast, Option.map_some, Option.map_some,
    Option.bind_some, imported?_name] at hnamed
  rw [get?_defaults_importsOf, ← hname, hd, hname, get?_reexportsOf, hlast, Option.map_some,
    Option.map_some, Option.bind_some, importedDefault?_name] at hdefaults
  cases hisDefault : last.isDefault <;> simp [hisDefault] at hnamed hdefaults

/-- Where all specifiers that give a name agree on the table, the last of them is in it. -/
theorem tablesAlike_of_forall
    (h : ∀ s ∈ specifiers, ∀ s' ∈ specifiers, s.renamed = s'.renamed → s.isDefault = s'.isDefault) :
    TablesAlike specifiers := by
  intro name
  rw [get?_named_importsOf, get?_defaults_importsOf, get?_reexportsOf]
  cases hlast : lastOf? specifiers name with
  | none =>
      have hnone (s : Specifier) (hs : s ∈ specifiers) (hname : String.ofList s.renamed = name)
          {b : Bool} : b = false := by
        obtain ⟨s', hs'⟩ := exists_lastOf? hs
        rw [hname, hlast] at hs'
        cases hs'
      rw [lastOf?_filter_eq_none fun s hs hname => hnone s hs hname,
        lastOf?_filter_eq_none fun s hs hname => hnone s hs hname]
      exact ⟨rfl, rfl⟩
  | some last =>
      obtain ⟨hmem, hname⟩ := of_lastOf?_eq_some hlast
      have hall (s : Specifier) (hs : s ∈ specifiers) (h' : String.ofList s.renamed = name) :
          s.isDefault = last.isDefault :=
        h s hs last hmem (String.ofList_inj.mp (h'.trans hname.symm))
      rw [Option.map_some, Option.bind_some, Option.bind_some, imported?_name,
        importedDefault?_name]
      cases hdefault : last.isDefault with
      | true =>
          rw [lastOf?_filter_eq_none fun s hs h => by rw [hall s hs h, hdefault]; rfl,
            lastOf?_filter fun s hs h => (hall s hs h).trans hdefault, hlast]
          exact ⟨rfl, rfl⟩
      | false =>
          rw [lastOf?_filter fun s hs h => by rw [hall s hs h, hdefault]; rfl,
            lastOf?_filter_eq_none fun s hs h => (hall s hs h).trans hdefault, hlast]
          exact ⟨rfl, rfl⟩

theorem tablesAlike_iff :
    TablesAlike specifiers ↔
      ∀ s ∈ specifiers, ∀ s' ∈ specifiers, s.renamed = s'.renamed →
        s.isDefault = s'.isDefault := by
  refine ⟨fun h s hs s' hs' hname => ?_, tablesAlike_of_forall⟩
  cases hdefault : s.isDefault <;> cases hother : s'.isDefault
  · rfl
  · exact absurd hname.symm (h.renamed_ne hs' hs hother hdefault)
  · exact absurd hname (h.renamed_ne hs hs' hdefault hother)
  · rfl

end Agreement

section Reading

variable {l : SpecifierList}

namespace SpecifierList

theorem length_masked (l : SpecifierList) : l.masked.length = l.text.length :=
  l.maskedAs.length_eq

/-- A character of a list outside the quotes. -/
def IsOutside (c : Char) : Prop := isNameChar c = true ∨ isBlank c = true ∨ c = ','

theorem IsOutside.ne {c d : Char} (hc : IsOutside c) (hname : isNameChar d = false)
    (hblank : isBlank d = false) (hcomma : d ≠ ',') : c ≠ d := by
  rintro rfl
  rcases hc with h | h | h
  · rw [hname] at h
    cases h
  · rw [hblank] at h
    cases h
  · exact hcomma h

theorem IsOutside.isPlain {c : Char} (hc : IsOutside c) : isPlain c = true := by
  rcases hc with h | h | rfl
  · exact isPlain_of_isNameChar h
  · exact isPlain_of_isBlank h
  · decide

theorem IsOutside.endsClause {c : Char} (hc : IsOutside c) :
    ImportStatement.endsClause c = false := by
  have hplain := hc.isPlain
  have hend : c ≠ ';' := hc.ne (by decide) (by decide) (by decide)
  simp only [Script.isPlain, isQuote, Bool.and_eq_true, Bool.not_eq_true',
    Bool.or_eq_false_iff] at hplain
  simp [ImportStatement.endsClause, hend, hplain.1]

/-- No brace shows in a masked list. -/
theorem brace_notMem_masked (l : SpecifierList) : '\x7d' ∉ l.masked := by
  have hne {d : Char} (h : IsOutside d) : d ≠ '\x7d' := h.ne (by decide) (by decide) (by decide)
  have hall : ∀ c ∈ l.masked, c ≠ '\x7d' := by
    refine l.forall_write (fun c hc => hne (Or.inl hc)) (fun c hc => hne (Or.inr (Or.inl hc)))
      (by decide) fun n hn hquoted c hc => ?_
    cases n with
    | bare => cases hquoted
    | quoted quote inside isText =>
        have hquote : quote ≠ '\x7d' := by
          rcases isText with rfl | rfl <;> decide
        have hinside : ∀ c ∈ inside.map blanked, c ≠ '\x7d' := by
          intro c hc
          obtain ⟨d, -, rfl⟩ := List.mem_map.mp hc
          rcases blanked_eq d with h | h <;> rw [h] <;> decide
        simp only [SpecifierName.write, List.mem_cons, List.mem_append, List.not_mem_nil,
          or_false] at hc
        rcases hc with rfl | hc | rfl
        · exact hquote
        · exact hinside c hc
        · exact hquote
  exact fun hmem => hall _ hmem rfl

/-- A list without quoted names holds words, blanks and commas. -/
theorem Unquoted.isOutside (h : l.Unquoted) {fill : List Char → List Char} :
    ∀ c ∈ l.write fill, IsOutside c :=
  l.forall_write (p := IsOutside) (fun _ hc => Or.inl hc) (fun _ hc => Or.inr (Or.inl hc))
    (Or.inr (Or.inr rfl)) fun n hn hquoted => by rw [h n hn] at hquoted; cases hquoted

end SpecifierList

/-- A re-export records the specifiers of its list. -/
theorem read_reexports (l : SpecifierList) :
    ReexportTable.read (statement "export" l.text) = ⟨reexportsOf l.specifiers, []⟩ := by
  have hmatch : ExportClause.pattern none ("export".toList ++
      ' ' :: ('\x7b' :: (l.masked ++ ['\x7d']) ++ fromQuote '"' [' ', '"'])) =
        some (.braces 8 (8 + l.text.length), 13 + ('\x7b' :: (l.masked ++ ['\x7d'])).length) := by
    have hshape :
        exportOpening false ('\x7b' :: (l.masked ++ '\x7d' :: fromQuote '"' [' ', '"'])) =
          "export".toList ++
            ' ' :: ('\x7b' :: (l.masked ++ ['\x7d']) ++ fromQuote '"' [' ', '"']) := by
      simp [exportOpening_eq, mark]
    rw [← hshape, bracesPattern_eq (Or.inl rfl) false l.brace_notMem_masked (Or.inl rfl)]
    simp [mark, l.length_masked]
    omega
  have hslice : slice (statement "export" l.text) 8 (8 + l.text.length) = l.text :=
    slice_eq (a := "export \x7b".toList) (c := "\x7d from \"m\"".toList)
      (by simp [statement]) rfl rfl
  have hmodule : literalText (statement "export" l.text)
      (13 + ('\x7b' :: (l.masked ++ ['\x7d'])).length) = ['m'] := by
    refine literalText_statement rfl ?_
    simp [l.length_masked]
    omega
  rw [ReexportTable.read, mask_statement (by decide) l.maskedAs,
    findAll_statement skipsNames_reexport rfl hmatch, List.foldl_cons, List.foldl_nil,
    ReexportTable.addStatement]
  simp only [Nat.zero_add]
  rw [hmodule, hslice, l.readList_text, reexportsOf, Entries.ofPairs, List.foldl_map]
  rfl

/-- Nothing is masked or blanked in a list without quoted names. -/
theorem SpecifierList.Unquoted.plain_braced (h : l.Unquoted) :
    Plain ('\x7b' :: (l.text ++ ['\x7d'])) := by
  refine List.all_eq_true.mpr ?_
  simp only [List.forall_mem_cons, List.forall_mem_append]
  exact ⟨by decide, fun c hc => (h.isOutside c hc).isPlain, by decide, List.forall_mem_nil _⟩

/-- A clause is not cut at the commas of its list. -/
theorem SpecifierList.splitCommas_braced (l : SpecifierList) :
    splitCommas ('\x7b' :: (l.text ++ ['\x7d'])) = ['\x7b' :: (l.text ++ ['\x7d'])] := by
  have hlist : Solid ('\x7b' :: (l.text ++ ['\x7d'])) := solid_between (by decide) (by decide) _
  have hbalanced : Balanced .brackets false ('\x7b' :: (l.text ++ ['\x7d'])) :=
    .bracket rfl l.balanced_text (fun h => absurd h (by decide)) .nil
  have hpieces : ∀ piece ∈ ['\x7b' :: (l.text ++ ['\x7d'])],
      Balanced .brackets false piece ∧ trim piece ≠ [] :=
    List.forall_mem_singleton.mpr ⟨hbalanced, by rw [trim_of_solid hlist]; simp⟩
  have hcommas := split_commas Pairing.proper_brackets hpieces
  rwa [List.intercalate_singleton, List.map_singleton, trim_of_solid hlist] at hcommas

theorem SpecifierList.Unquoted.trimOf_braced (h : l.Unquoted) :
    trimOf (fun c => c == '\x7b' || c == '\x7d') ('\x7b' :: (l.text ++ ['\x7d'])) = l.text := by
  refine trimOf_append (u := ['\x7b']) (List.forall_mem_singleton.mpr rfl)
    (List.forall_mem_singleton.mpr rfl) fun c hc => ?_
  have houtside : SpecifierList.IsOutside c := h.isOutside c hc
  have hopens : c ≠ '\x7b' := houtside.ne (by decide) (by decide) (by decide)
  have hcloses : c ≠ '\x7d' := houtside.ne (by decide) (by decide) (by decide)
  simp [hopens, hcloses]

/-- An import of a list without quoted names records the same specifiers. -/
theorem read_imports (h : l.Unquoted) :
    ImportTable.read (statement "import" l.text) = importsOf l.specifiers := by
  have hbraces : Solid ('\x7b' :: (l.masked ++ ['\x7d'])) := solid_between (by decide) (by decide) _
  have hlist : Solid ('\x7b' :: (l.text ++ ['\x7d'])) := solid_between (by decide) (by decide) _
  have hclause : ∀ c ∈ '\x7b' :: (l.masked ++ ['\x7d']), ImportStatement.endsClause c = false := by
    simp only [List.forall_mem_cons, List.forall_mem_append]
    exact ⟨by decide, fun c hc => (h.isOutside c hc).endsClause, by decide, List.forall_mem_nil _⟩
  have hmatch : ImportStatement.pattern none ("import".toList ++
      ' ' :: ('\x7b' :: (l.masked ++ ['\x7d']) ++ fromQuote '"' [' ', '"'])) = _ :=
    importPattern_eq (Or.inl rfl) hbraces hclause (by simp) (Or.inl rfl)
  have hlength : ('\x7b' :: (l.masked ++ ['\x7d'])).length = 2 + l.text.length := by
    simp [l.length_masked]
    omega
  have hslice : slice (statement "import" l.text) 7 (7 + (2 + l.text.length)) =
      '\x7b' :: (l.text ++ ['\x7d']) :=
    slice_eq (a := "import ".toList) (c := " from \"m\"".toList)
      (by simp [statement]) rfl (by simp; omega)
  have hmodule : literalText (statement "import" l.text) (13 + (2 + l.text.length)) = ['m'] :=
    literalText_statement rfl (by omega)
  have hdrop : ImportTable.dropType ('\x7b' :: (l.text ++ ['\x7d'])) =
      '\x7b' :: (l.text ++ ['\x7d']) := rfl
  rw [ImportTable.read, mask_statement (by decide) l.maskedAs]
  have hfound := findAll_statement skipsNames_import (rfl : "import".toList.length = 6) hmatch
  rw [hfound, hlength, List.foldl_cons, List.foldl_nil, ImportTable.addStatement]
  simp only [Nat.zero_add]
  rw [hmodule, hslice, trim_of_solid hlist, hdrop, stripComments_plain h.plain_braced,
    l.splitCommas_braced, List.foldl_cons, List.foldl_nil, ImportTable.addPart, List.head?_cons,
    if_neg (by decide), if_pos rfl, h.trimOf_braced, l.readList_text]
  rfl

end Reading

section Quoted

variable {t u v pre post rest : List Char} {quote : Char}

/-- The last character of a text that is no blank. -/
def lastVisible? (t : List Char) : Option Char := t.reverse.find? fun c => !isBlank c

theorem lastVisible?_append (u v : List Char) :
    lastVisible? (u ++ v) = (lastVisible? v).or (lastVisible? u) := by
  rw [lastVisible?, List.reverse_append, List.find?_append]
  rfl

theorem lastVisible?_blanks (h : u.all isBlank = true) : lastVisible? u = none := by
  rw [lastVisible?, List.find?_eq_none]
  intro c hc
  simp [List.all_eq_true.mp h c (List.mem_reverse.mp hc)]

theorem quoteFollows_of_visible (hu : ∀ c ∈ u, ImportStatement.endsClause c = false)
    (hvisible : u.all isBlank = false) (v : List Char) :
    quoteFollows (trimStart (u ++ v)) = false := by
  induction u with
  | nil => cases hvisible
  | cons c u ih =>
      obtain ⟨hc, hu⟩ := List.forall_mem_cons.mp hu
      rw [List.cons_append, trimStart, List.dropWhile_cons]
      split
      · rename_i hblank
        rw [List.all_cons, hblank, Bool.true_and] at hvisible
        exact ih hu hvisible
      · simp only [ImportStatement.endsClause, Bool.or_eq_false_iff] at hc
        exact Bool.or_eq_false_iff.mpr ⟨by simpa using hc.1.2, by simpa using hc.1.1.2⟩

/-- The word `from` at the start does not end right before the first quote then. -/
theorem quoteFollows_of_from {after : List Char}
    (hpre : ∀ c ∈ pre, ImportStatement.endsClause c = false) (hquote : IsTextQuote quote)
    (hlast : lastVisible? pre ≠ some 'm')
    (h : after? "from".toList (pre ++ quote :: post) = some after) :
    quoteFollows (trimStart after) = false := by
  have hfrom : quote ∉ "from".toList := by
    rcases hquote with rfl | rfl <;> decide
  rcases List.append_eq_append_iff.mp (after?_eq_some_iff.mp h) with
    ⟨a, hword, hrest⟩ | ⟨pre', rfl, rfl⟩
  · cases a with
    | nil =>
        rw [List.append_nil] at hword
        rw [← hword] at hlast
        exact absurd rfl hlast
    | cons d a =>
        obtain rfl := (List.cons.inj hrest).1
        exact absurd (by simp [hword]) hfrom
  · cases hvisible : pre'.all isBlank with
    | false =>
        exact quoteFollows_of_visible (fun d hd => hpre d (List.mem_append_right _ hd)) hvisible _
    | true =>
        rw [lastVisible?_append, lastVisible?_blanks hvisible] at hlast
        exact absurd rfl hlast

/-- No clause ends before a quote that does not come after the word `from`. -/
theorem clause?_eq_none (hpre : ∀ c ∈ pre, ImportStatement.endsClause c = false)
    (hquote : IsTextQuote quote) (hlast : lastVisible? pre ≠ some 'm') (length blanks : Nat)
    (before : Option Char) :
    ImportStatement.clause? length blanks before (pre ++ quote :: post) = none := by
  induction pre generalizing length blanks before with
  | nil =>
      rcases hquote with rfl | rfl <;>
        simp [ImportStatement.clause?, after?, ImportStatement.endsClause]
  | cons c pre ih =>
      have hfrom (after : List Char)
          (h : after? "from".toList (c :: (pre ++ quote :: post)) = some after) :
          quoteFollows (trimStart after) = false := quoteFollows_of_from hpre hquote hlast h
      obtain ⟨hc, hpre⟩ := List.forall_mem_cons.mp hpre
      have hlast : lastVisible? pre ≠ some 'm' := by
        intro hm
        rw [← List.singleton_append, lastVisible?_append, hm] at hlast
        exact hlast rfl
      rw [List.cons_append, clause?_cons hc hfrom, ih hpre hlast, ih hpre hlast, ite_self]

/-- The first quote of a text does not come after the letter m, blanks aside. -/
def FirstQuote (t : List Char) : Prop :=
  ∃ pre quote post, t = pre ++ quote :: post ∧ IsTextQuote quote ∧
    (∀ c ∈ pre, SpecifierList.IsOutside c) ∧ lastVisible? pre ≠ some 'm'

namespace FirstQuote

theorem append (h : FirstQuote t) (v : List Char) : FirstQuote (t ++ v) := by
  obtain ⟨pre, quote, post, rfl, hrest⟩ := h
  exact ⟨pre, quote, post ++ v, by simp, hrest⟩

theorem after (h : FirstQuote t) (hu : ∀ c ∈ u, SpecifierList.IsOutside c)
    (hlast : lastVisible? u ≠ some 'm') : FirstQuote (u ++ t) := by
  obtain ⟨pre, quote, post, rfl, hquote, hpre, hpreLast⟩ := h
  refine ⟨u ++ pre, quote, post, by simp, hquote, List.forall_mem_append.mpr ⟨hu, hpre⟩, ?_⟩
  rw [lastVisible?_append]
  cases hvisible : lastVisible? pre with
  | none => exact hlast
  | some c =>
      rw [hvisible] at hpreLast
      exact hpreLast

end FirstQuote

theorem SpecifierName.firstQuote {n : SpecifierName} (h : n.isQuoted = true)
    (fill : List Char → List Char) : FirstQuote (n.write fill) := by
  cases n with
  | bare => cases h
  | quoted quote inside isText =>
      exact ⟨[], quote, fill inside ++ [quote], rfl, isText, List.forall_mem_nil _, by decide⟩

theorem Blanks.isOutside (b : Blanks) : ∀ c ∈ b.chars, SpecifierList.IsOutside c :=
  b.forall_chars fun _ h => Or.inr (Or.inl h)

theorem isOutside_of_isName {name : List Char} (h : isName name = true) :
    ∀ c ∈ name, SpecifierList.IsOutside c :=
  forall_of_isName h fun _ hc => Or.inl hc

/-- A word before a quoted name is the word `type` or the word `as`. -/
theorem FirstQuote.mark (h : FirstQuote t) (gap : Option Gap) :
    FirstQuote (markText gap ++ t) := by
  cases gap with
  | none => exact h
  | some gap =>
      refine h.after (List.forall_mem_append.mpr
        ⟨isOutside_of_isName (by decide), gap.isOutside⟩) ?_
      rw [markText, Option.elim_some, lastVisible?_append, lastVisible?_blanks gap.isBlank]
      decide

theorem Renaming.firstQuote {r : Renaming} (h : r.name.isQuoted = true) {given : List Char}
    (hgiven : isName given = true) (fill : List Char → List Char) :
    FirstQuote (given ++ r.write fill) := by
  have houtside : ∀ c ∈ given ++ (r.before.chars ++ ("as".toList ++ r.after.chars)),
      SpecifierList.IsOutside c := by
    simp only [List.forall_mem_append]
    exact ⟨isOutside_of_isName hgiven, r.before.isOutside, isOutside_of_isName (by decide),
      r.after.isOutside⟩
  have hlast : lastVisible? (given ++ (r.before.chars ++ ("as".toList ++ r.after.chars))) ≠
      some 'm' := by
    rw [← List.append_assoc, ← List.append_assoc, lastVisible?_append,
      lastVisible?_blanks r.after.isBlank, lastVisible?_append,
      (by decide : lastVisible? "as".toList = some 's')]
    exact fun heq => absurd (Option.some.inj heq) (by decide)
  have hfirst := (r.name.firstQuote h fill).after houtside hlast
  simpa [Renaming.write] using hfirst

theorem WrittenSpecifier.firstQuote {s : WrittenSpecifier}
    (h : ∃ n ∈ s.names, n.isQuoted = true) (fill : List Char → List Char) :
    FirstQuote (s.write fill) := by
  refine FirstQuote.after (.append (.mark ?_ s.typeGap) _) s.lead.isOutside
    (by rw [lastVisible?_blanks s.lead.isBlank]; exact nofun)
  cases hgiven : s.given with
  | quoted quote inside isText noQuote closes =>
      have hquote :=
        SpecifierName.firstQuote (n := .quoted quote inside isText noQuote closes) rfl fill
      exact hquote.append _
  | bare chars isName =>
      obtain ⟨n, hn, hquoted⟩ := h
      rw [names, hgiven, List.mem_cons] at hn
      rcases hn with rfl | hn
      · cases hquoted
      · obtain ⟨r, hr, rfl⟩ := Option.map_eq_some_iff.mp (Option.mem_toList.mp hn)
        rw [hr]
        exact r.firstQuote hquoted isName fill

/-- The specifiers before the first one with a quoted name hold words, blanks and commas. -/
theorem firstQuote_intercalate {written : List WrittenSpecifier}
    (h : ∃ s ∈ written, ∃ n ∈ s.names, n.isQuoted = true) (fill : List Char → List Char) :
    FirstQuote ([','].intercalate (written.map (WrittenSpecifier.write fill))) := by
  induction written with
  | nil =>
      obtain ⟨s, hs, -⟩ := h
      cases hs
  | cons s written ih =>
      cases written with
      | nil =>
          obtain ⟨s', hs', hnames⟩ := h
          obtain rfl := List.mem_singleton.mp hs'
          rw [List.map_singleton, List.intercalate_singleton]
          exact s'.firstQuote hnames fill
      | cons next written =>
          rw [List.map_cons, List.map_cons, List.intercalate_cons_cons]
          by_cases hs : ∃ n ∈ s.names, n.isQuoted = true
          · rw [List.append_assoc]
            exact (s.firstQuote hs fill).append _
          · have hmore : ∃ s ∈ next :: written, ∃ n ∈ s.names, n.isQuoted = true := by
              obtain ⟨s', hs', hnames⟩ := h
              rcases List.mem_cons.mp hs' with rfl | hs'
              · exact absurd hnames hs
              · exact ⟨s', hs', hnames⟩
            have houtside : ∀ c ∈ s.write fill, SpecifierList.IsOutside c :=
              s.forall_write (p := SpecifierList.IsOutside) (fun _ hc => Or.inl hc)
                (fun _ hc => Or.inr (Or.inl hc)) fun n hn hquoted => absurd ⟨n, hn, hquoted⟩ hs
            refine (ih hmore).after (List.forall_mem_append.mpr
              ⟨houtside, List.forall_mem_singleton.mpr (Or.inr (Or.inr rfl))⟩) ?_
            rw [lastVisible?_append, (by decide : lastVisible? [','] = some ',')]
            exact fun heq => absurd (Option.some.inj heq) (by decide)

theorem SpecifierList.firstQuote {l : SpecifierList} (h : ¬l.Unquoted)
    (fill : List Char → List Char) : FirstQuote (l.write fill) := by
  have hquoted : ∃ s ∈ l.written, ∃ n ∈ s.names, n.isQuoted = true := by
    obtain ⟨n, hn, hquoted⟩ : ∃ n ∈ l.names, n.isQuoted = true := by simpa [Unquoted] using h
    obtain ⟨s, hs, hns⟩ := List.mem_flatMap.mp hn
    exact ⟨s, hs, n, hns, hquoted⟩
  cases l with
  | blank blanks =>
      obtain ⟨s, hs, -⟩ := hquoted
      cases hs
  | entries first others trailing => exact (firstQuote_intercalate hquoted fill).append _

section Passing

theorem endsName_blanks (h : u.all isBlank = true) (hrest : EndsName rest) :
    EndsName (u ++ rest) := by
  cases u with
  | nil => exact hrest
  | cons c u =>
      exact endsName_cons (not_isNameChar_of_isBlank (Bool.and_eq_true_iff.mp h).1) _

/-- No statement starts at a name of a list, unless it is the word `import`. -/
theorem SpecifierName.passes {n : SpecifierName} (hn : n.text ≠ "import".toList)
    (hrest : EndsName rest) :
    ImportStatement.pattern.Passes (n.write (List.map blanked)) rest := by
  cases n with
  | bare chars isName =>
      exact skipsNames_import.passes_word (isNameChar_of_isName isName) fun before =>
        importPattern_name isName hn hrest before
  | quoted quote inside isText =>
      have hquote : 'i' ≠ quote := by
        rcases isText with rfl | rfl <;> decide
      have hblanked (c : Char) : blanked c ≠ 'i' := by
        rcases blanked_eq c with hc | hc <;> rw [hc] <;> decide
      exact skipsNames_import.passes_of_notMem (by simp [write, hquote, hblanked]) rest

theorem WrittenSpecifier.passes {s : WrittenSpecifier}
    (h : ∀ n ∈ s.names, n.text ≠ "import".toList) (hrest : EndsName rest) :
    ImportStatement.pattern.Passes (s.write (List.map blanked)) rest := by
  have hother {u : List Char} (hu : 'i' ∉ u) (rest : List Char) :
      ImportStatement.pattern.Passes u rest := skipsNames_import.passes_of_notMem hu rest
  have hblanks {u : List Char} (hu : u.all isBlank = true) (rest : List Char) :
      ImportStatement.pattern.Passes u rest := skipsNames_import.passes_blanks (by decide) hu rest
  have htail := endsName_blanks s.tail.isBlank hrest
  have hmark (rest : List Char) :
      ImportStatement.pattern.Passes (markText s.typeGap) rest := by
    cases s.typeGap with
    | none => exact Pattern.passes_nil rest
    | some gap => exact (hother (by decide) _).append (hblanks gap.isBlank _)
  have hrenamed : EndsName (s.renamed.elim [] (Renaming.write (List.map blanked)) ++
      (s.tail.chars ++ rest)) ∧ ImportStatement.pattern.Passes
        (s.renamed.elim [] (Renaming.write (List.map blanked))) (s.tail.chars ++ rest) := by
    cases hr : s.renamed with
    | none => exact ⟨htail, Pattern.passes_nil _⟩
    | some r =>
        have hname : r.name.text ≠ "import".toList := h _ (by simp [names, hr])
        have hpasses := (hblanks r.before.isBlank _).append
          ((hother (by decide : 'i' ∉ "as".toList) _).append
            ((hblanks r.after.isBlank _).append (r.name.passes hname htail)))
        refine ⟨?_, hpasses⟩
        obtain ⟨c, gap, hgap⟩ := List.exists_cons_of_ne_nil r.before.ne_nil
        have hblank := r.before.isBlank
        rw [hgap] at hblank
        obtain ⟨hc, -⟩ := Bool.and_eq_true_iff.mp hblank
        rw [Option.elim_some, Renaming.write, hgap]
        exact endsName_cons (not_isNameChar_of_isBlank hc) _
  have hcore : ImportStatement.pattern.Passes (s.core (List.map blanked)) (s.tail.chars ++ rest) :=
    (hmark _).append ((s.given.passes (h _ List.mem_cons_self) hrenamed.1).append hrenamed.2)
  exact (hblanks s.lead.isBlank _).append (hcore.append (hblanks s.tail.isBlank _))

theorem SpecifierList.passes {l : SpecifierList} (h : l.WithoutImport) (hrest : EndsName rest) :
    ImportStatement.pattern.Passes l.masked rest := by
  have hcomma (rest : List Char) : ImportStatement.pattern.Passes [','] rest :=
    skipsNames_import.passes_of_notMem (by decide) rest
  have hblanks (blanks : Blanks) : ImportStatement.pattern.Passes blanks.chars rest :=
    skipsNames_import.passes_blanks (by decide) blanks.isBlank rest
  have hlist {written : List WrittenSpecifier}
      (h : ∀ s ∈ written, ∀ n ∈ s.names, n.text ≠ "import".toList) {rest : List Char}
      (hrest : EndsName rest) :
      ImportStatement.pattern.Passes
        ([','].intercalate (written.map (WrittenSpecifier.write (List.map blanked)))) rest := by
    refine Pattern.passes_intercalate hcomma (fun _ => endsName_cons (by decide) _) ?_ hrest
    exact List.forall_mem_map.mpr fun s hs rest hrest => s.passes (h s hs) hrest
  cases l with
  | blank blanks => exact hblanks blanks
  | entries first others trailing =>
      have hall : ∀ s ∈ first :: others, ∀ n ∈ s.names, n.text ≠ "import".toList :=
        fun s hs n hn => h n (List.mem_flatMap.mpr ⟨s, hs, hn⟩)
      cases trailing with
      | none => exact (hlist hall hrest).append (Pattern.passes_nil _)
      | some blanks =>
          exact (hlist hall (endsName_cons (by decide) _)).append
            ((hcomma _).append (hblanks blanks))

end Passing

/-- Nothing is imported through a list with a quoted name. -/
theorem read_imports_of_quoted {l : SpecifierList} (hquoted : ¬l.Unquoted)
    (himport : l.WithoutImport) :
    ImportTable.read (statement "import" l.text) = .empty := by
  have hother {u : List Char} (hu : 'i' ∉ u) (rest : List Char) :
      ImportStatement.pattern.Passes u rest := skipsNames_import.passes_of_notMem hu rest
  have hnone : ImportStatement.pattern none ("import".toList ++
      ' ' :: ('\x7b' :: (l.masked ++ ['\x7d']) ++ fromQuote '"' [' ', '"'])) = none := by
    obtain ⟨pre, quote, post, heq, hquote, hpre, hlast⟩ := l.firstQuote hquoted (List.map blanked)
    have hclause : ∀ c ∈ '\x7b' :: pre, ImportStatement.endsClause c = false :=
      List.forall_mem_cons.mpr ⟨by decide, fun c hc => (hpre c hc).endsClause⟩
    have hvisible : lastVisible? (['\x7b'] ++ pre) ≠ some 'm' := by
      rw [lastVisible?_append]
      cases hpreLast : lastVisible? pre with
      | none => exact nofun
      | some c =>
          rw [hpreLast] at hlast
          exact hlast
    have hstop : ImportStatement.clause? 0 0 (some ' ')
        ('\x7b' :: pre ++ quote :: (post ++ ('\x7d' :: fromQuote '"' [' ', '"']))) = none :=
      clause?_eq_none hclause hquote hvisible 0 0 (some ' ')
    have hshape : '\x7b' :: (l.masked ++ ['\x7d']) ++ fromQuote '"' [' ', '"'] =
        '\x7b' :: pre ++ quote :: (post ++ ('\x7d' :: fromQuote '"' [' ', '"'])) := by
      rw [SpecifierList.masked, heq]
      simp
    rw [hshape, List.cons_append, importPattern_clause (Or.inl rfl) (by decide) (by decide)]
    rw [List.cons_append] at hstop
    rw [hstop]
    rfl
  have hpasses : ImportStatement.pattern.Passes
      (' ' :: ('\x7b' :: (l.masked ++ ['\x7d']) ++ fromQuote '"' [' ', '"'])) [] := by
    have hshape : ' ' :: ('\x7b' :: (l.masked ++ ['\x7d']) ++ fromQuote '"' [' ', '"']) =
        [' ', '\x7b'] ++ (l.masked ++ ('\x7d' :: fromQuote '"' [' ', '"'])) := by simp
    rw [hshape]
    exact (hother (by decide) _).append ((l.passes himport (endsName_cons (by decide) _)).append
      (hother (by decide) _))
  have hfind : ImportStatement.pattern.findAll ("import".toList ++
      ' ' :: ('\x7b' :: (l.masked ++ ['\x7d']) ++ fromQuote '"' [' ', '"'])) = [] := by
    rw [Pattern.findAll, skipsNames_import.findFrom_word (isNameChar_of_isName (by decide)) hnone]
    have hrest := hpasses (0 + "import".toList.length) ("import".toList.getLast?.or none)
    rw [List.append_nil] at hrest
    rw [hrest]
    rfl
  rw [ImportTable.read, mask_statement (by decide) l.maskedAs, hfind]
  rfl

end Quoted

/-- An import and a re-export read a specifier list alike if and only if none of its names is quoted
and none is given both to the default export and to another one. A quoted name beside the word
`import` as a name is left out, since a statement may be found from that word on. -/
theorem readAlike_iff {l : SpecifierList} (h : l.Unquoted ∨ l.WithoutImport) :
    ReadAlike l.text ↔ l.Unquoted ∧ l.Unmixed := by
  by_cases hunquoted : l.Unquoted
  · rw [ReadAlike, read_reexports, read_imports hunquoted, namespaces_importsOf]
    simp only [true_and, hunquoted]
    exact tablesAlike_iff
  · refine iff_of_false (fun halike => ?_) fun hboth => hunquoted hboth.1
    obtain ⟨-, hall⟩ := halike
    -- Some entry has the quoted name, and the re-export records it.
    obtain ⟨s, hs⟩ : ∃ s, s ∈ l.specifiers := by
      obtain ⟨n, hn, -⟩ : ∃ n ∈ l.names, n.isQuoted = true := by
        simpa [SpecifierList.Unquoted] using hunquoted
      obtain ⟨s, hs, -⟩ := List.mem_flatMap.mp hn
      exact ⟨s.specifier, List.mem_map_of_mem hs⟩
    obtain ⟨last, hlast⟩ := exists_lastOf? hs
    have hname := hall (String.ofList s.renamed)
    rw [read_reexports, read_imports_of_quoted hunquoted (h.resolve_left hunquoted),
      get?_reexportsOf, hlast, Option.map_some, Option.bind_some, Option.bind_some, imported?_name,
      importedDefault?_name] at hname
    cases hdefault : last.isDefault <;> simp [hdefault, ImportTable.empty, Entries.get?] at hname

section Examples

/-- A single blank. -/
def oneBlank : Gap := ⟨⟨[' '], by decide⟩, by decide⟩

/-- The list ` type a as b, default as c `. -/
def renamedNames : SpecifierList :=
  .entries
    ⟨oneBlank.toBlanks, some oneBlank, .bare ['a'] (by decide),
      some ⟨oneBlank, oneBlank, .bare ['b'] (by decide)⟩, ⟨[], rfl⟩⟩
    [⟨oneBlank.toBlanks, none, .bare "default".toList (by decide),
      some ⟨oneBlank, oneBlank, .bare ['c'] (by decide)⟩, oneBlank.toBlanks⟩]
    none

theorem readAlike_renamedNames :
    renamedNames.text = " type a as b, default as c ".toList ∧ ReadAlike renamedNames.text := by
  have hunquoted : renamedNames.Unquoted := by decide
  have hunmixed : renamedNames.Unmixed := by decide +kernel
  exact ⟨by decide, (readAlike_iff (Or.inl hunquoted)).mpr ⟨hunquoted, hunmixed⟩⟩

/-- The list ` "a-b" as c `. -/
def quotedName : SpecifierList :=
  .entries
    ⟨oneBlank.toBlanks, none,
      .quoted '"' "a-b".toList (Or.inl rfl) (by decide)
        (quoted_of_notMem (by decide) (by decide)),
      some ⟨oneBlank, oneBlank, .bare ['c'] (by decide)⟩, oneBlank.toBlanks⟩
    [] none

/-- The name `c` is re-exported through this list, but not imported. -/
theorem not_readAlike_quotedName :
    quotedName.text = " \"a-b\" as c ".toList ∧ ¬ReadAlike quotedName.text := by
  have htext : quotedName.text = " \"a-b\" as c ".toList := by decide
  refine ⟨htext, fun h => ?_⟩
  have hreexport : (ReexportTable.read (statement "export" " \"a-b\" as c ".toList)).named.get? "c" =
      some ⟨"m", .name "a-b"⟩ := by decide +kernel
  have himport : (ImportTable.read (statement "import" " \"a-b\" as c ".toList)).named.get? "c" =
      none := by decide +kernel
  rw [htext] at h
  have hnamed := (h.2 "c").1
  rw [hreexport, himport] at hnamed
  exact absurd hnamed (by decide)

end Examples

end PluginContract.Source
