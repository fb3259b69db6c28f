import Mathlib.Data.List.Basic
import PluginContract.Proofs.Source.Statements

/-!
# Module tables round-trip

Declarations that are printed and read back give the tables that they make up. Masking
leaves all of a printed declaration but the inside of its literal, a search finds it at the
start of its line or nowhere, and what is found is read from its own line.
-/

namespace PluginContract.Source

open Text Script Files

section Masking

variable {u v u' v' : List Char}

/-- A text is masked as another one, wherever it stands in code. -/
def MaskedAs (u v : List Char) : Prop :=
  ∀ before rest, maskFrom before [] (u ++ rest) = v ++ maskFrom (u.reverse ++ before) [] rest

theorem maskedAs_nil : MaskedAs [] [] := fun _ _ => rfl

theorem MaskedAs.append (h : MaskedAs u v) (h' : MaskedAs u' v') :
    MaskedAs (u ++ u') (v ++ v') := by
  intro before rest
  rw [List.append_assoc, h, h', List.append_assoc, List.reverse_append, List.append_assoc]

theorem MaskedAs.length_eq (h : MaskedAs u v) : v.length = u.length := by
  have hmask := h [] []
  rw [List.append_nil, maskFrom_nil, List.append_nil, ← mask_eq] at hmask
  rw [← hmask, length_mask]

theorem maskedAs_plain (h : Plain u) : MaskedAs u u := maskFrom_plain h

/-- All of a literal but its inside is left. -/
theorem maskedAs_quoted {quote : Char} {inside : List Char} (isText : IsTextQuote quote)
    (closes : Quoted quote inside) :
    MaskedAs (quote :: (inside ++ [quote])) (quote :: (inside.map blanked ++ [quote])) := by
  intro before rest
  simpa using maskFrom_literal isText closes before rest

theorem maskedAs_write (o : Origin) : MaskedAs (o.write id) (o.write (List.map blanked)) := by
  have hliteral := maskedAs_quoted o.isText (quoted_of_notMem o.noQuote o.noEscape)
  have hend : MaskedAs [';', '\n'] [';', '\n'] := maskedAs_plain rfl
  have h := hliteral.append hend
  simpa [Origin.write] using h

theorem spelled_head_eq (d : Declaration) : Spelled [',', ' ', '{', '}', '*'] d.head := by
  have hmark (marked : Bool) : Spelled [',', ' ', '{', '}', '*'] (mark marked) :=
    (spelled_mark marked).mono (by simp)
  have hlist (bindings : List Binding) :
      Spelled [',', ' ', '{', '}', '*'] (Binding.list bindings) :=
    (spelled_list bindings).mono (by simp)
  cases d with
  | imports marked first others origin => exact spelled_head marked first others
  | star origin => exact .cons (by simp) .nil
  | starAs name origin => exact .cons (by simp) ((spelled_asName name).mono (by simp))
  | reexports marked bindings origin => exact (hmark marked).append (hlist bindings)
  | exports marked bindings => exact (hmark marked).append (hlist bindings)

/-- A line up to the quote, or to the semicolon if there is none. -/
theorem spelled_line (d : Declaration) (others : List Char) :
    Spelled ([',', ' ', '{', '}', '*'] ++ others) (d.keyword ++ ' ' :: d.head) := by
  exact (Spelled.of_isName d.isName_keyword).append
    (.cons (by simp) ((spelled_head_eq d).mono (by simp)))

theorem write_eq_line (d : Declaration) (fill : List Char → List Char) :
    d.write fill = (d.keyword ++ ' ' :: d.head) ++
      d.origin?.elim [';', '\n'] (Origin.fromText fill) := by
  cases d <;> simp [Declaration.write, Declaration.body, Declaration.head, Declaration.origin?]

theorem maskedAs_text (d : Declaration) : MaskedAs d.text d.masked := by
  rw [Declaration.text, Declaration.masked, write_eq_line, write_eq_line]
  refine MaskedAs.append (maskedAs_plain ((spelled_line d []).plain (by decide))) ?_
  cases d.origin? with
  | none => exact maskedAs_plain rfl
  | some origin =>
      have hfrom : MaskedAs [' ', 'f', 'r', 'o', 'm', ' '] [' ', 'f', 'r', 'o', 'm', ' '] :=
        maskedAs_plain rfl
      exact hfrom.append (maskedAs_write origin)

theorem mask_print (ds : List Declaration) :
    mask (Declaration.print ds) = ds.flatMap Declaration.masked := by
  have h : MaskedAs (Declaration.print ds) (ds.flatMap Declaration.masked) := by
    induction ds with
    | nil => exact maskedAs_nil
    | cons d ds ih => exact (maskedAs_text d).append ih
  have hmask := h [] []
  rwa [List.append_nil, maskFrom_nil, List.append_nil] at hmask

end Masking

section Search

variable {α τ : Type} {pattern : Pattern α} {letter : Char}
  {add : List Char → τ → Found α → τ} {apply : τ → Declaration → τ}

/-- What a search makes of a line: nothing is found in it and nothing is to be added, or what is
found at its start is read as what the declaration adds. -/
inductive ReadsLine (pattern : Pattern α) (add : List Char → τ → Found α → τ)
    (apply : τ → Declaration → τ) (d : Declaration) : Prop
  | passed (noMatch : ∀ before rest, AtLine before → pattern before (d.masked ++ rest) = none)
      (kept : ∀ table, apply table d = table)
  | found {u v : List Char} {value : α} (split : d.masked = u ++ v) (nonempty : u ≠ [])
      (isMatch : ∀ before rest, AtLine before →
        pattern before (u ++ (v ++ rest)) = some (value, u.length))
      (passes : ∀ rest, pattern.Passes v rest)
      (adds : ∀ pre post table,
        add (pre ++ (d.text ++ post)) table ⟨pre.length, u.length, value⟩ = apply table d)

/-- A search reads declarations line by line. -/
theorem foldl_findFrom (h : SkipsNames pattern letter) (lines : ∀ d, ReadsLine pattern add apply d)
    (ds : List Declaration) {before : Option Char} (hbefore : AtLine before) (pre : List Char)
    (table : τ) :
    (pattern.findFrom 0 pre.length before (ds.flatMap Declaration.masked)).foldl
        (add (pre ++ Declaration.print ds)) table =
      ds.foldl apply table := by
  induction ds generalizing before pre table with
  | nil => rfl
  | cons d ds ih =>
      have hnext (table : τ) := ih (Or.inr rfl : AtLine (some '\n')) (pre ++ d.text) table
      rw [List.append_assoc, List.length_append, ← d.length_masked] at hnext
      rw [List.flatMap_cons, List.foldl_cons, Declaration.print, List.flatMap_cons]
      cases lines d with
      | passed noMatch kept =>
          rw [findFrom_masked_of_none h (noMatch before _ hbefore), kept]
          exact hnext table
      | found split nonempty isMatch passes adds =>
          rw [findFrom_masked_of_match split nonempty (isMatch before _ hbefore) (passes _),
            List.foldl_cons, adds]
          exact hnext _

theorem foldl_findAll (h : SkipsNames pattern letter) (lines : ∀ d, ReadsLine pattern add apply d)
    (ds : List Declaration) (table : τ) :
    (pattern.findAll (mask (Declaration.print ds))).foldl (add (Declaration.print ds)) table =
      ds.foldl apply table := by
  rw [mask_print]
  exact foldl_findFrom h lines ds (Or.inl rfl) [] table

end Search

section Lines

variable {d : Declaration} {origin : Origin}

/-- The masked text from the quote of a module specifier on, after its quote. -/
def Origin.rest (origin : Origin) (rest : List Char) : List Char :=
  origin.chars.map blanked ++ (origin.quote :: ';' :: '\n' :: rest)

theorem beforeQuote_append (keyword head : List Char) (origin : Origin) (rest : List Char) :
    beforeQuote keyword head ++ (origin.write (List.map blanked) ++ rest) =
      keyword ++ ' ' :: (head ++ fromQuote origin.quote (origin.rest rest)) := by
  simp [beforeQuote, fromQuote, Origin.write, Origin.rest]

theorem masked_eq (h : d.origin? = some origin) (rest : List Char) :
    d.masked ++ rest =
      d.keyword ++ ' ' :: (d.head ++ fromQuote origin.quote (origin.rest rest)) := by
  rw [Declaration.masked, write_eq h, List.append_assoc, beforeQuote_append]

theorem masked_exports (marked : Bool) (bindings : List Binding) (rest : List Char) :
    (Declaration.exports marked bindings).masked ++ rest =
      exportOpening marked ('{' :: (Binding.inside bindings ++ '}' :: ';' :: '\n' :: rest)) := by
  simp [Declaration.masked, write_exports, exportOpening_eq, Binding.list]

theorem reexports_head (marked : Bool) (bindings : List Binding) (origin : Origin)
    (rest : List Char) :
    (Declaration.reexports marked bindings origin).keyword ++
        ' ' :: ((Declaration.reexports marked bindings origin).head ++ rest) =
      exportOpening marked ('{' :: (Binding.inside bindings ++ '}' :: rest)) := by
  simp [exportOpening_eq, Declaration.head, Binding.list]

theorem endsClause_of_isNameChar {c : Char} (h : isNameChar c = true) :
    ImportStatement.endsClause c = false := by
  have hquote := isQuote_of_isNameChar h
  simp only [isQuote, Bool.or_eq_false_iff] at hquote
  have hend : c ≠ ';' := ne_of_isNameChar h (by decide)
  simp [ImportStatement.endsClause, hend, hquote]

/-- A declaration with a module specifier that a pattern finds up to the quote. -/
theorem readsLine_of_origin {α τ : Type} {pattern : Pattern α} {letter : Char}
    {add : List Char → τ → Found α → τ} {apply : τ → Declaration → τ} {value : α} {length : Nat}
    (h : SkipsNames pattern letter) (horigin : d.origin? = some origin)
    (hlength : length = (beforeQuote d.keyword d.head).length)
    (isMatch : ∀ before rest, AtLine before →
      pattern before (d.keyword ++ ' ' :: (d.head ++ fromQuote origin.quote rest)) =
        some (value, length))
    (adds : ∀ pre post table,
      add (pre ++ (d.text ++ post)) table ⟨pre.length, length, value⟩ = apply table d) :
    ReadsLine pattern add apply d := by
  subst hlength
  refine .found (write_eq horigin _) (by simp [beforeQuote]) (fun before rest hbefore => ?_)
    (passes_write h origin) adds
  rw [beforeQuote_append]
  exact isMatch before _ hbefore

theorem readsLine_import (d : Declaration) :
    ReadsLine ImportStatement.pattern ImportTable.addStatement ImportTable.declare d := by
  have hother (d : Declaration) (hkeyword : d.keyword = "export".toList) (before : Option Char)
      (rest : List Char) : ImportStatement.pattern before (d.masked ++ rest) = none := by
    rw [Declaration.masked, Declaration.write, hkeyword]
    exact skipsNames_import.atLetter before 'e' _ (by decide)
  cases d with
  | imports marked first others origin =>
      have hspelled := spelled_head marked first others
      have hparen : (mark marked ++ ImportPart.clause (first :: others)).head? ≠ some '(' := by
        intro hhead
        exact hspelled.notMem (by decide) (by decide) (List.mem_of_mem_head? hhead)
      have hclause : ∀ c ∈ mark marked ++ ImportPart.clause (first :: others),
          ImportStatement.endsClause c = false :=
        hspelled.all (fun c => endsClause_of_isNameChar)
          (by simp [ImportStatement.endsClause, backtick])
      refine readsLine_of_origin skipsNames_import rfl ?_
        (fun before rest hbefore => importPattern_eq hbefore (solid_head marked first others)
          hclause hparen origin.isText)
        fun pre post table => addStatement_imports marked first others origin pre post table rfl
      exact (length_beforeQuote _).symm
  | star origin => exact .passed (fun before rest _ => hother _ rfl before rest) fun _ => rfl
  | starAs name origin => exact .passed (fun before rest _ => hother _ rfl before rest) fun _ => rfl
  | reexports marked bindings origin =>
      exact .passed (fun before rest _ => hother _ rfl before rest) fun _ => rfl
  | exports marked bindings =>
      exact .passed (fun before rest _ => hother _ rfl before rest) fun _ => rfl

theorem readsLine_reexport (d : Declaration) :
    ReadsLine ExportClause.pattern ReexportTable.addStatement ReexportTable.declare d := by
  cases d with
  | imports marked first others origin =>
      refine .passed (fun before rest _ => ?_) fun _ => rfl
      exact skipsNames_reexport.atLetter before 'i' _ (by decide)
  | star origin =>
      refine readsLine_of_origin skipsNames_reexport rfl rfl (fun before rest hbefore => ?_)
        (addStatement_star origin)
      exact starPattern_eq hbefore origin.isText
  | starAs name origin =>
      refine readsLine_of_origin skipsNames_reexport rfl ?_ (fun before rest hbefore => ?_)
        (addStatement_starAs name origin)
      · rw [length_beforeQuote]
        simp [Declaration.head, Identifier.asName]
        omega
      · exact starAsPattern_eq hbefore name origin.isText
  | reexports marked bindings origin =>
      refine readsLine_of_origin skipsNames_reexport rfl ?_ (fun before rest hbefore => ?_)
        (addStatement_reexports marked bindings origin)
      · rw [length_beforeQuote]
        simp [Declaration.head, Binding.list]
        omega
      · rw [reexports_head]
        exact bracesPattern_eq hbefore marked (brace_notMem_inside bindings) origin.isText
  | exports marked bindings =>
      refine .passed (fun before rest hbefore => ?_) fun _ => rfl
      rw [masked_exports]
      exact bracesPattern_eq_none hbefore marked (brace_notMem_inside bindings)

theorem readsLine_localExport (d : Declaration) :
    ReadsLine localExport
      (fun source found f => found ++ Specifier.readList
        (slice source (f.start + f.value.1) (f.start + f.value.2)))
      (fun found d => found ++ d.exportedSpecifiers) d := by
  cases d with
  | imports marked first others origin =>
      refine .passed (fun before rest _ => ?_) fun found => List.append_nil found
      exact skipsNames_localExport.atLetter before 'i' _ (by decide)
  | star origin =>
      refine .passed (fun before rest hbefore => ?_) fun found => List.append_nil found
      exact localExport_star hbefore _
  | starAs name origin =>
      refine .passed (fun before rest hbefore => ?_) fun found => List.append_nil found
      exact localExport_star hbefore _
  | reexports marked bindings origin =>
      refine .passed (fun before rest hbefore => ?_) fun found => List.append_nil found
      rw [masked_eq rfl, reexports_head]
      exact localExport_eq_none hbefore marked (brace_notMem_inside bindings)
  | exports marked bindings =>
      have hlength : ("export".toList ++ ' ' :: (mark marked ++ Binding.list bindings)).length =
          9 + (mark marked).length + (Binding.inside bindings).length := by
        simp [Binding.list]
        omega
      have hmatch (before : Option Char) (rest : List Char) (hbefore : AtLine before) :
          localExport before (("export".toList ++ ' ' :: (mark marked ++ Binding.list bindings)) ++
              ([';', '\n'] ++ rest)) =
            some ((8 + (mark marked).length,
                8 + (mark marked).length + (Binding.inside bindings).length),
              ("export".toList ++ ' ' :: (mark marked ++ Binding.list bindings)).length) := by
        rw [hlength, ← List.append_assoc, ← write_exports marked bindings (List.map blanked)]
        refine (congrArg (localExport before) (masked_exports marked bindings rest)).trans ?_
        exact localExport_eq hbefore marked (brace_notMem_inside bindings)
      refine .found (write_exports marked bindings _) (by simp) hmatch
        (passes_other skipsNames_localExport (by decide)) fun pre post found => ?_
      exact congrArg (found ++ ·) (readList_exports marked bindings pre post)

end Lines

section Aliases

variable {masked : List Char}

theorem equalsSign?_of_notMem (h : '=' ∉ masked) (start : Nat) :
    TypeAlias.equalsSign? masked start = none := by
  rw [TypeAlias.equalsSign?]
  dsimp only
  rw [Option.bind_eq_none_iff]
  intro offset _
  split
  · rename_i rest heq
    exact absurd (List.mem_of_mem_drop (heq ▸ List.mem_cons_self)) h
  · rfl

theorem equals_notMem_masked (d : Declaration) : '=' ∉ d.masked := by
  have hline : '=' ∉ d.keyword ++ ' ' :: d.head :=
    (spelled_line d []).notMem (by decide) (by decide)
  rw [Declaration.masked, write_eq_line]
  refine List.mem_append.not.mpr (not_or.mpr ⟨hline, ?_⟩)
  cases d.origin? with
  | none => decide
  | some origin =>
      have hquote : '=' ≠ origin.quote := by
        rcases origin.isText with h | h <;> rw [h] <;> decide
      have hblanked (c : Char) : blanked c ≠ '=' := by
        rcases blanked_eq c with h | h <;> rw [h] <;> decide
      simp [Origin.fromText, Origin.write, hquote, hblanked]

/-- Nothing in a printed declaration is taken for a type alias. -/
theorem readAll_print (ds : List Declaration) :
    TypeAlias.readAll (Declaration.print ds) = [] := by
  have hequals : '=' ∉ ds.flatMap Declaration.masked := by
    intro hmem
    obtain ⟨d, -, hd⟩ := List.mem_flatMap.mp hmem
    exact equals_notMem_masked d hd
  have hadd : TypeAlias.add (Declaration.print ds) (ds.flatMap Declaration.masked) =
      fun table _ => table := by
    funext table found
    rw [TypeAlias.add, equalsSign?_of_notMem hequals]
  rw [TypeAlias.readAll, mask_print, hadd]
  exact List.foldl_fixed _

end Aliases

/-- Reading printed declarations gives back what they make up and nothing else. -/
theorem Module.ofText_print (path : Path) (ds : List Declaration) :
    Module.ofText path (Declaration.print ds) =
      { path
        text := Declaration.print ds
        imports := Declaration.importTable ds
        reexports := Declaration.reexportTable ds
        typeAliases := []
        localExports := Declaration.exportTable ds } := by
  have himports : ImportTable.read (Declaration.print ds) = Declaration.importTable ds :=
    (foldl_findAll skipsNames_import readsLine_import ds .empty).trans (importTable_eq ds)
  have hreexports : ReexportTable.read (Declaration.print ds) = Declaration.reexportTable ds :=
    (foldl_findAll skipsNames_reexport readsLine_reexport ds .empty).trans (reexportTable_eq ds)
  have hexports : readLocalExports (Declaration.print ds) = Declaration.exportTable ds := by
    have hlists := foldl_findAll skipsNames_localExport readsLine_localExport ds []
    rw [← List.flatMap_eq_foldl, ← List.flatMap_eq_foldl] at hlists
    rw [readLocalExports, hlists]
    exact exportTable_eq ds
  rw [Module.ofText, himports, hreexports, hexports, readAll_print]

end PluginContract.Source
