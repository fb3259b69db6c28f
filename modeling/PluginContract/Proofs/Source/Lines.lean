import PluginContract.Proofs.Source.SpecifierLists
import PluginContract.Proofs.Text.Search

/-!
# Where declarations are found

A search for declarations matches at the start of a line or nowhere in it: a name may be the
word that a declaration starts with, but what follows a name never continues one.
-/

namespace PluginContract.Source

open Text Script

/-- What can follow a name in a printed declaration. -/
inductive Follows : List Char → Prop
  | comma (rest : List Char) : Follows (',' :: rest)
  /-- The word `as` or `from`, or the end of a brace list. -/
  | space {c : Char} (rest : List Char) (h : c = 'a' ∨ c = 'f' ∨ c = '}') :
      Follows (' ' :: c :: rest)

theorem Follows.endsName {rest : List Char} (h : Follows rest) : EndsName rest := by
  cases h with
  | comma rest => exact endsName_cons (by decide) rest
  | space rest _ => exact endsName_cons (by decide) _

/-- A pattern for declarations matches neither in a word nor at a name. -/
structure SkipsNames {α : Type} (pattern : Pattern α) (letter : Char) : Prop
    extends pattern.Opens letter where
  isLetter : letter = 'i' ∨ letter = 'e'
  atName : ∀ (i : Identifier) (rest : List Char) (before : Option Char), Follows rest →
    pattern before (i.chars ++ rest) = none

section Patterns

variable {i : Identifier} {rest after : List Char} {before : Option Char}

theorem keyword?_eq_some {word t : List Char} (h : keyword? word before t = some after) :
    after? word t = some after := by
  rw [keyword?] at h
  split at h
  · cases h
  · exact h

theorem blanks?_of_head? {t : List Char} (h : ∃ c ∈ t.head?, isBlank c = false) :
    blanks? t = none := by
  obtain ⟨c, hc, hblank⟩ := h
  cases t with
  | nil => cases hc
  | cons d t =>
      obtain rfl := Option.some.inj hc
      rw [blanks?, hblank, if_neg Bool.false_ne_true]

/-- No import statement starts at another name than the word `import`. -/
theorem importPattern_name {name : List Char} (hname : isName name = true)
    (hne : name ≠ "import".toList) (hrest : EndsName rest) (before : Option Char) :
    ImportStatement.pattern before (name ++ rest) = none := by
  rw [ImportStatement.pattern]
  cases hkeyword : keyword? "import".toList before (name ++ rest) with
  | none => rfl
  | some after =>
      rcases after?_append_of_isName hname hrest (by decide) (keyword?_eq_some hkeyword) with
        ⟨heq, -⟩ | ⟨c, hc, hnameChar⟩
      · exact absurd heq hne
      · -- The word goes on, so no blank follows and nothing is left to be a clause.
        cases after with
        | nil => cases hc
        | cons d after =>
            obtain rfl := Option.some.inj hc
            have hblank := not_isBlank_of_isNameChar hnameChar
            simp [hblank]

theorem skipsNames_import : SkipsNames ImportStatement.pattern 'i' where
  toOpens := @Pattern.opens_of_keyword? _ _ 'i' "mport".toList fun before t h => by
    rw [ImportStatement.pattern, show keyword? "import".toList before t = none from h]
  isLetter := Or.inl rfl
  atName i _ before follows := importPattern_name i.isName i.notImport follows.endsName before

theorem opening?_of_keyword? {t : List Char}
    (h : keyword? "export".toList before t = none) :
    ExportClause.opening? before t = none := by
  rw [ExportClause.opening?, h]
  rfl

/-- At a name there is no brace list and no star to be exported. -/
theorem opening?_name (i : Identifier) (before : Option Char) (follows : Follows rest) :
    ExportClause.opening? before (i.chars ++ rest) = none ∨
      ∃ c after offset, ExportClause.opening? before (i.chars ++ rest) =
        some (c :: after, offset) ∧ c ≠ '*' ∧ c ≠ '{' := by
  cases hkeyword : keyword? "export".toList before (i.chars ++ rest) with
  | none => exact Or.inl (opening?_of_keyword? hkeyword)
  | some after =>
      rcases after?_append_of_isName i.isName follows.endsName (by decide)
        (keyword?_eq_some hkeyword) with ⟨-, rfl⟩ | ⟨c, hc, hname⟩
      · cases follows with
        | comma rest =>
            left
            rw [ExportClause.opening?, hkeyword]
            rfl
        | @space c rest h =>
            right
            have hblanks : blanks? (' ' :: c :: rest) = some (c :: rest) := by
              rcases h with rfl | rfl | rfl <;> rfl
            have htype : after? "type".toList (c :: rest) = none := by
              rcases h with rfl | rfl | rfl <;> rfl
            rw [ExportClause.opening?, hkeyword, Option.bind_some, hblanks]
            dsimp only
            rw [htype]
            refine ⟨c, rest, _, rfl, ?_⟩
            rcases h with rfl | rfl | rfl <;> decide
      · left
        rw [ExportClause.opening?, hkeyword, Option.bind_some,
          blanks?_of_head? ⟨c, hc, not_isBlank_of_isNameChar hname⟩]

theorem skipsNames_reexport : SkipsNames ExportClause.pattern 'e' where
  toOpens := @Pattern.opens_of_keyword? _ _ 'e' "xport".toList fun before t h => by
    rw [ExportClause.pattern, opening?_of_keyword? h]
  isLetter := Or.inr rfl
  atName i rest before follows := by
    rw [ExportClause.pattern]
    rcases opening?_name i before follows with h | ⟨c, after, offset, h, hstar, hbrace⟩
    · rw [h]
    · rw [h]
      dsimp only
      split
      · rename_i heq
        exact absurd (List.cons.inj heq).1 hstar
      · rename_i heq
        exact absurd (List.cons.inj heq).1 hbrace
      · rfl

theorem skipsNames_localExport : SkipsNames localExport 'e' where
  toOpens := @Pattern.opens_of_keyword? _ _ 'e' "xport".toList fun before t h => by
    rw [localExport, opening?_of_keyword? h]
  isLetter := Or.inr rfl
  atName i rest before follows := by
    rw [localExport]
    rcases opening?_name i before follows with h | ⟨c, after, offset, h, -, hbrace⟩
    · rw [h]
    · rw [h]
      split
      · rename_i heq
        exact absurd (List.cons.inj (Prod.mk.inj (Option.some.inj heq)).1).1 hbrace
      · rfl

end Patterns

/-- A line with the inside of its literal blanked out. -/
def Declaration.masked (d : Declaration) : List Char := d.write (List.map blanked)

section Passing

variable {α : Type} {pattern : Pattern α} {letter : Char} (h : SkipsNames pattern letter)
  {rest : List Char}
include h

/-- Only names and the words `type`, `import` and `export` hold a letter to look at. -/
theorem passes_other {u : List Char} (hu : 'i' ∉ u ∧ 'e' ∉ u) (rest : List Char) :
    pattern.Passes u rest := by
  refine h.passes_of_notMem ?_ rest
  rcases h.isLetter with rfl | rfl
  · exact hu.1
  · exact hu.2

theorem passes_chars (i : Identifier) (follows : Follows rest) : pattern.Passes i.chars rest :=
  h.passes_word (isNameChar_of_isName i.isName) fun before => h.atName i rest before follows

theorem passes_asName (i : Identifier) (follows : Follows rest) : pattern.Passes i.asName rest :=
  Pattern.Passes.append (u := [' ', 'a', 's', ' ']) (passes_other h (by decide) _)
    (passes_chars h i follows)

theorem passes_mark (marked : Bool) (rest : List Char) : pattern.Passes (mark marked) rest := by
  cases marked with
  | false => exact Pattern.passes_nil rest
  | true =>
      have hword : pattern.Passes "type".toList ([' '] ++ rest) :=
        h.passes_word (isNameChar_of_isName (by decide)) fun before => by
          refine h.atLetter before 't' _ ?_
          rcases h.isLetter with rfl | rfl <;> decide
      exact hword.append (passes_other h (by decide) rest)

theorem passes_text (b : Binding) (follows : Follows rest) : pattern.Passes b.text rest := by
  obtain ⟨marked, given, renamed⟩ := b
  refine (passes_mark h marked _).append ?_
  cases renamed with
  | none =>
      rw [List.append_nil]
      exact passes_chars h given follows
  | some name =>
      exact (passes_chars h given (.space _ (Or.inl rfl))).append (passes_asName h name follows)

theorem passes_intercalate {texts : List (List Char)} (follows : Follows rest)
    (htexts : ∀ t ∈ texts, ∀ rest, Follows rest → pattern.Passes t rest) :
    pattern.Passes ([',', ' '].intercalate texts) rest := by
  induction texts with
  | nil => exact Pattern.passes_nil rest
  | cons t texts ih =>
      obtain ⟨ht, htexts⟩ := List.forall_mem_cons.mp htexts
      cases texts with
      | nil =>
          rw [List.intercalate_singleton]
          exact ht rest follows
      | cons next texts =>
          rw [List.intercalate_cons_cons, List.append_assoc]
          exact (ht _ (.comma _)).append ((passes_other h (by decide) _).append (ih htexts))

theorem passes_list (bindings : List Binding) (rest : List Char) :
    pattern.Passes (Binding.list bindings) rest := by
  rw [Binding.list]
  refine Pattern.Passes.append (u := ['{']) (passes_other h (by decide) _) ?_
  refine Pattern.Passes.append ?_ (passes_other h (by decide) _)
  rw [Binding.inside]
  split
  · exact Pattern.passes_nil _
  · refine Pattern.Passes.append (u := [' ']) (passes_other h (by decide) _) ?_
    refine Pattern.Passes.append ?_ (passes_other h (by decide) _)
    refine passes_intercalate h (.space _ (Or.inr (Or.inr rfl))) fun t ht rest follows => ?_
    obtain ⟨b, -, rfl⟩ := List.mem_map.mp ht
    exact passes_text h b follows

theorem passes_clause (parts : List ImportPart) (follows : Follows rest) :
    pattern.Passes (ImportPart.clause parts) rest := by
  refine passes_intercalate h follows fun t ht rest follows => ?_
  obtain ⟨part, -, rfl⟩ := List.mem_map.mp ht
  cases part with
  | default name => exact passes_chars h name follows
  | space name =>
      exact Pattern.Passes.append (u := ['*']) (passes_other h (by decide) _)
        (passes_asName h name follows)
  | braces bindings => exact passes_list h bindings rest

/-- The quotes and what is left of the inside of a literal hold no letter. -/
theorem passes_write (o : Origin) (rest : List Char) :
    pattern.Passes (o.write (List.map blanked)) rest := by
  have hquote : 'i' ≠ o.quote ∧ 'e' ≠ o.quote := by
    rcases o.isText with hq | hq <;> rw [hq] <;> decide
  have hblanked (c : Char) : blanked c ≠ 'i' ∧ blanked c ≠ 'e' := by
    rcases blanked_eq c with hc | hc <;> rw [hc] <;> decide
  refine passes_other h ?_ rest
  simp [Origin.write, hquote, hblanked]

theorem passes_fromText (o : Origin) (rest : List Char) :
    pattern.Passes (o.fromText (List.map blanked)) rest :=
  Pattern.Passes.append (u := [' ', 'f', 'r', 'o', 'm', ' ']) (passes_other h (by decide) _)
    (passes_write h o rest)

theorem passes_body (d : Declaration) (rest : List Char) :
    pattern.Passes (d.body (List.map blanked)) rest := by
  have follows (o : Origin) : Follows (o.fromText (List.map blanked) ++ rest) :=
    .space _ (Or.inr (Or.inl rfl))
  have hstar (rest : List Char) : pattern.Passes ['*'] rest := passes_other h (by decide) rest
  cases d with
  | imports marked first others origin =>
      refine (passes_mark h marked _).append ?_
      exact (passes_clause h _ (follows origin)).append (passes_fromText h origin rest)
  | star origin => exact (hstar _).append (passes_fromText h origin rest)
  | starAs name origin =>
      refine (hstar _).append ?_
      exact (passes_asName h name (follows origin)).append (passes_fromText h origin rest)
  | reexports marked bindings origin =>
      refine (passes_mark h marked _).append ?_
      exact (passes_list h bindings _).append (passes_fromText h origin rest)
  | exports marked bindings =>
      refine (passes_mark h marked _).append ?_
      exact (passes_list h bindings _).append (passes_other h (by decide) rest)

end Passing

namespace Declaration

theorem isName_keyword (d : Declaration) : isName d.keyword = true := by
  have himport : isName "import".toList = true := by decide
  have hexport : isName "export".toList = true := by decide
  cases d with
  | imports => exact himport
  | star | starAs | reexports | exports => exact hexport

theorem length_masked (d : Declaration) : d.masked.length = d.text.length := by
  cases d <;> simp [masked, text, write, body, Origin.fromText, Origin.write]

theorem getLast?_masked (d : Declaration) : d.masked.getLast? = some '\n' := by
  cases d <;>
    simp [masked, write, body, Origin.fromText, Origin.write, List.getLast?_append,
      List.getLast?_cons]

end Declaration

/-- At the start of a text or of a line. -/
def AtLine (before : Option Char) : Prop := before = none ∨ before = some '\n'

section Search

variable {α : Type} {pattern : Pattern α} {letter : Char} {d : Declaration}
  {before : Option Char} {rest : List Char}

/-- A line is passed over if nothing matches at its start. -/
theorem findFrom_masked_of_none (h : SkipsNames pattern letter)
    (hnone : pattern before (d.masked ++ rest) = none) (offset : Nat) :
    pattern.findFrom 0 offset before (d.masked ++ rest) =
      pattern.findFrom 0 (offset + d.masked.length) (some '\n') rest := by
  have hword := isNameChar_of_isName d.isName_keyword
  have hbody : pattern.Passes (' ' :: d.body (List.map blanked)) rest :=
    Pattern.Passes.append (u := [' ']) (passes_other h (by decide) _) (passes_body h d rest)
  have hlast := d.getLast?_masked
  rw [Declaration.masked, Declaration.write] at hnone hlast ⊢
  rw [List.append_assoc] at hnone ⊢
  rw [h.findFrom_word hword hnone, hbody, List.length_append, Nat.add_assoc, ← Option.or_assoc,
    ← List.getLast?_append, hlast]
  rfl

/-- A match at the start of a line is all that is found in it. -/
theorem findFrom_masked_of_match {u v : List Char} {value : α} (hsplit : d.masked = u ++ v)
    (hu : u ≠ []) (hmatch : pattern before (u ++ (v ++ rest)) = some (value, u.length))
    (hpasses : pattern.Passes v rest) (offset : Nat) :
    pattern.findFrom 0 offset before (d.masked ++ rest) =
      ⟨offset, u.length, value⟩ ::
        pattern.findFrom 0 (offset + d.masked.length) (some '\n') rest := by
  have hlast := d.getLast?_masked
  rw [hsplit] at hlast ⊢
  rw [List.append_assoc, Pattern.findFrom_of_match hu hmatch, hpasses, List.length_append,
    Nat.add_assoc, ← Option.or_assoc, ← List.getLast?_append, hlast]
  rfl

end Search

end PluginContract.Source
