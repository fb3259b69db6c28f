import PluginContract.Proofs.Noting
import PluginContract.Proofs.Script.Sweeps
import PluginContract.Proofs.Source.FoundStatements
import PluginContract.Source.Module

/-!
# What reading a module asks of the scanner

A module is read from its masked text, but its module specifiers are looked up in the text itself,
at the offsets at which the masked one shows their quotes. Reading is observed here by a
note for each call of the scanner. All literals that these calls look up are looked up at a quote,
so no look-up goes past the end of a text.
-/

namespace PluginContract.Source

open Text Script Files

/-- Whether pure steps come to a result, and each note that they leave is as told. -/
def Yields {ε α : Type} (told : ε → Prop) (run : Noting ε Id α) (a : α) : Prop :=
  ∀ before, ∃ noted, run.run before = (a, before ++ noted) ∧ ∀ e ∈ noted, told e

namespace Yields

variable {ε α β : Type} {told : ε → Prop} {run : Noting ε Id α} {next : α → Noting ε Id β} {a : α}
  {b : β}

theorem pure (told : ε → Prop) (a : α) : Yields told (Pure.pure a) a := fun before =>
  ⟨[], by rw [List.append_nil]; rfl, nofun⟩

theorem noting {e : ε} (he : told e) (a : α) :
    Yields told (PluginContract.noting (Pure.pure a : Id α) fun _ => e) a := fun _ =>
  ⟨[e], rfl, List.forall_mem_singleton.mpr he⟩

theorem bind (h : Yields told run a) (hnext : Yields told (next a) b) :
    Yields told (run >>= next) b := by
  intro before
  obtain ⟨noted, hrun, htold⟩ := h before
  obtain ⟨more, hmore, htold'⟩ := hnext (before ++ noted)
  refine ⟨noted ++ more, ?_, List.forall_mem_append.mpr ⟨htold, htold'⟩⟩
  rw [StateT.run_bind, hrun, ← List.append_assoc]
  exact hmore

/-- A loop yields what it comes to without notes, if each of its rounds does. -/
theorem foldlM {f : β → α → Noting ε Id β} {g : β → α → β} {xs : List α}
    (h : ∀ b, ∀ a ∈ xs, Yields told (f b a) (g b a)) (b : β) :
    Yields told (xs.foldlM f b) (xs.foldl g b) := by
  induction xs generalizing b with
  | nil => exact .pure told b
  | cons a xs ih =>
      obtain ⟨hfirst, hrest⟩ : (∀ b, Yields told (f b a) (g b a)) ∧
          ∀ b, ∀ a ∈ xs, Yields told (f b a) (g b a) :=
        ⟨fun b => h b a List.mem_cons_self, fun b a' ha' => h b a' (List.mem_cons_of_mem a ha')⟩
      rw [List.foldlM_cons, List.foldl_cons]
      exact (hfirst b).bind (ih hrest (g b a))

end Yields

/-- A call of the scanner. -/
inductive ScannerCall
  /-- The end of the literal is looked up that is opened at an offset. -/
  | literal (t : List Char) (start : Nat)
  /-- A text is read to its end. -/
  | sweep (t : List Char)
  /-- The delimiter is looked up that closes the one at an offset. -/
  | pair (t : List Char) (start : Nat) (opens closes : Char)

namespace ScannerCall

/-- The text that a call reads. -/
def text : ScannerCall → List Char
  | literal t _ => t
  | sweep t => t
  | pair t _ _ _ => t

/-- The offsets at which a call looks up literals, itself or in calls of its own. -/
def LooksUp : ScannerCall → (lookups : List Nat) → Prop
  | literal t start, lookups => ∃ found, Run t .literal start found lookups
  | sweep t, lookups => ∃ passages, Sweep t 0 passages lookups
  | pair t start opens closes, lookups => ∃ found, Run t (.pair opens closes) start found lookups

/-- Whether a call comes to an end, and looks literals up at quotes only. -/
structure InRange (call : ScannerCall) : Prop where
  ends : ∃ lookups, call.LooksUp lookups
  quotes : ∀ lookups, call.LooksUp lookups → ∀ j ∈ lookups, OnQuote call.text j

theorem inRange_literal {t : List Char} {start : Nat} (h : OnQuote t start) :
    (literal t start).InRange := by
  obtain ⟨r, -, hfinds, -⟩ := finds_literal h
  obtain ⟨lookups, hrun⟩ := hfinds.ends
  exact ⟨⟨lookups, _, hrun⟩, fun lookups ⟨_, hother⟩ => (hfinds.only _ lookups hother).2⟩

theorem inRange_sweep (t : List Char) : (sweep t).InRange := by
  obtain ⟨passages, lookups, hsweep⟩ := exists_sweep t 0
  exact ⟨⟨lookups, passages, hsweep⟩, fun _ ⟨_, hother⟩ => hother.onQuote⟩

theorem inRange_pair (t : List Char) (start : Nat) (opens closes : Char) :
    (pair t start opens closes).InRange := by
  have hfinds := finds_matching t start opens closes
  obtain ⟨lookups, hrun⟩ := hfinds.ends
  exact ⟨⟨lookups, _, hrun⟩, fun lookups ⟨_, hother⟩ => (hfinds.only _ lookups hother).2⟩

end ScannerCall

/-- A run that notes the calls of the scanner. -/
abbrev Calling (α : Type) : Type := Noting ScannerCall Id α

namespace Calling

/-- A call with its answer. -/
def asking {α : Type} (call : ScannerCall) (answer : α) : Calling α :=
  noting (pure answer) fun _ => call

/-- The parts between commas of a text without its comments. -/
def parts (t : List Char) : Calling (List (List Char)) := do
  let body ← asking (.sweep t) (stripComments t)
  asking (.sweep body) (splitCommas body)

/-- The specifiers of a list. -/
def specifiers (list : List Char) : Calling (List Specifier) := do
  return (← parts list).filterMap Specifier.read?

/-- The table with the names of one part of a clause. -/
def importPart (source : String) (table : ImportTable) (part : List Char) : Calling ImportTable :=
  if part.head? = some '{' then do
    let list ← specifiers (trimOf (fun c => c == '{' || c == '}') part)
    return list.foldl (ImportTable.addNamed source) table
  else return ImportTable.addPart source table part

/-- The table with the names of one import statement. -/
def importStatement (source : List Char) (table : ImportTable) (found : Found ImportStatement) :
    Calling ImportTable := do
  let place := found.value
  let quote := found.start + place.quote
  let specifier ← asking (.literal source quote) (literalText source quote)
  let clause := ImportTable.dropType
    (trim (slice source (found.start + place.clauseStart) (found.start + place.clauseEnd)))
  (← parts clause).foldlM (importPart (String.ofList specifier)) table

/-- The table with one re-export statement. -/
def reexportStatement (source : List Char) (table : ReexportTable) (found : Found ExportClause) :
    Calling ReexportTable := do
  let quote := found.start + found.length
  let specifier := String.ofList (← asking (.literal source quote) (literalText source quote))
  match found.value with
  | .braces start stop =>
      let list ← specifiers (slice source (found.start + start) (found.start + stop))
      let add (named : Entries Reexport) (s : Specifier) : Entries Reexport :=
        named.put (String.ofList s.renamed) ⟨specifier, .name (String.ofList s.given)⟩
      return { table with named := list.foldl add table.named }
  | _ => return ReexportTable.addStatement source table found

/-- The specifiers of the local exports up to one more list. -/
def localExport (source : List Char) (lists : List Specifier) (found : Found (Nat × Nat)) :
    Calling (List Specifier) := do
  let (start, stop) := found.value
  return lists ++ (← specifiers (slice source (found.start + start) (found.start + stop)))

/-- The offset of the equals sign before an alias body, past a list of type parameters. -/
def equalsSign? (masked : List Char) (start : Nat) : Calling (Option Nat) := do
  let blanksFrom (offset : Nat) := offset + ((masked.drop offset).takeWhile isBlank).length
  let afterName := blanksFrom start
  let place ←
    if masked[afterName]? = some '<' then do
      let close ← asking (.pair masked afterName '<' '>') (matching? masked afterName '<' '>')
      pure (close.map fun close => blanksFrom (close + 1))
    else pure (some afterName)
  return place.bind fun offset =>
    match masked.drop offset with
    | '=' :: rest => if rest.head? = some '=' || rest.head? = some '>' then none else some offset
    | _ => none

/-- The table with the alias that is declared at one place. -/
def typeAlias (source masked : List Char) (table : Entries (List Char))
    (found : Found (List Char)) : Calling (Entries (List Char)) := do
  let name := String.ofList found.value
  match ← equalsSign? masked (found.start + found.length) with
  | none => return table
  | some equals =>
      if table.has name then return table
      else
        let length := TypeAlias.bodyLength true 0 (masked.drop (equals + 1))
        return table.put name (trim (slice source (equals + 1) (equals + 1 + length)))

/-- A source module that is read from its text. -/
def module (path : Path) (source : List Char) : Calling Module := do
  let masked ← asking (.sweep source) (mask source)
  let imports ←
    (ImportStatement.pattern.findAll masked).foldlM (importStatement source) ImportTable.empty
  let reexports ←
    (ExportClause.pattern.findAll masked).foldlM (reexportStatement source) ReexportTable.empty
  let again ← asking (.sweep source) (mask source)
  let typeAliases ← (TypeAlias.pattern.findAll again).foldlM (typeAlias source again) []
  let lists ← (Source.localExport.findAll masked).foldlM (localExport source) []
  return {
    path, text := source, imports, reexports, typeAliases
    localExports := Entries.ofPairs (lists.map fun s =>
      (String.ofList s.renamed, String.ofList s.given)) }

end Calling

section Yields

variable {t source : List Char} {c : Char} {i : Nat}

theorem yields_asking {α : Type} {call : ScannerCall} (h : call.InRange) (answer : α) :
    Yields ScannerCall.InRange (Calling.asking call answer) answer := .noting h answer

theorem yields_parts (t : List Char) :
    Yields ScannerCall.InRange (Calling.parts t) (splitCommas (stripComments t)) :=
  (yields_asking (ScannerCall.inRange_sweep t) _).bind
    (yields_asking (ScannerCall.inRange_sweep (stripComments t)) _)

theorem yields_specifiers (list : List Char) :
    Yields ScannerCall.InRange (Calling.specifiers list) (Specifier.readList list) :=
  (yields_parts list).bind (.pure _ _)

theorem yields_importPart (source : String) (table : ImportTable) (part : List Char) :
    Yields ScannerCall.InRange (Calling.importPart source table part)
      (ImportTable.addPart source table part) := by
  rw [Calling.importPart]
  split
  · rename_i hbrace
    have hadd : ImportTable.addPart source table part =
        (Specifier.readList (trimOf (fun c => c == '{' || c == '}') part)).foldl
          (ImportTable.addNamed source) table := by
      simp [ImportTable.addPart, hbrace]
    rw [hadd]
    exact (yields_specifiers _).bind (.pure _ _)
  · exact .pure _ _

/-- A quote that a masked text shows is a quote of the text itself. -/
theorem onQuote_of_mask (h : (mask t)[i]? = some c) (hc : isQuote c = true) : OnQuote t i := by
  have hi : i < t.length := by
    have hlt := (List.getElem?_eq_some_iff.mp h).1
    rwa [length_mask] at hlt
  have hd : t[i]? = some t[i] := List.getElem?_eq_getElem hi
  have hshown : (roleAt t i).shown t[i] = c := Option.some.inj ((getElem?_mask hd).symm.trans h)
  rw [Role.shown] at hshown
  split at hshown
  · exact ⟨c, hshown ▸ hd, hc⟩
  · rcases blanked_eq t[i] with hblank | hblank <;> rw [hblank] at hshown <;> subst hshown <;>
      cases hc

theorem isQuote_of_isTextQuote (h : IsTextQuote c) : isQuote c = true := by
  rcases h with rfl | rfl <;> rfl

/-- The module specifier of an import is looked up at its quote. -/
theorem onQuote_of_import {found : Found ImportStatement}
    (h : found ∈ ImportStatement.pattern.findAll (mask source)) :
    OnQuote source (found.start + found.value.quote) := by
  obtain ⟨u, v, htext, -, -, hstart, hmatch⟩ := Pattern.exists_of_mem_findFrom h
  obtain ⟨p, hplace⟩ := exists_of_importPattern hmatch
  refine onQuote_of_mask ?_ (isQuote_of_isTextQuote p.pieces.isText)
  rw [htext, hstart, hplace, Nat.zero_add, List.getElem?_append_right (Nat.le_add_right _ _),
    Nat.add_sub_cancel_left, p.getElem?_quote]

/-- The module specifier of a re-export is looked up at its quote. -/
theorem onQuote_of_reexport {found : Found ExportClause}
    (h : found ∈ ExportClause.pattern.findAll (mask source)) :
    OnQuote source (found.start + found.length) := by
  obtain ⟨u, v, htext, -, -, hstart, hmatch⟩ := Pattern.exists_of_mem_findFrom h
  obtain ⟨p, hlength⟩ := exists_of_exportPattern hmatch
  refine onQuote_of_mask ?_ (isQuote_of_isTextQuote p.isText)
  rw [htext, hstart, hlength, Nat.zero_add, List.getElem?_append_right (Nat.le_add_right _ _),
    Nat.add_sub_cancel_left, p.getElem?_quote]

theorem yields_importStatement {found : Found ImportStatement}
    (h : OnQuote source (found.start + found.value.quote)) (table : ImportTable) :
    Yields ScannerCall.InRange (Calling.importStatement source table found)
      (ImportTable.addStatement source table found) := by
  refine (yields_asking (ScannerCall.inRange_literal h) _).bind ((yields_parts _).bind ?_)
  exact .foldlM (fun table part _ => yields_importPart _ table part) table

theorem yields_reexportStatement {found : Found ExportClause}
    (h : OnQuote source (found.start + found.length)) (table : ReexportTable) :
    Yields ScannerCall.InRange (Calling.reexportStatement source table found)
      (ReexportTable.addStatement source table found) := by
  obtain ⟨start, length, value⟩ := found
  refine (yields_asking (ScannerCall.inRange_literal h) _).bind ?_
  cases value with
  | braces start stop => exact (yields_specifiers _).bind (.pure _ _)
  | star => exact .pure _ _
  | starAs name => exact .pure _ _

theorem yields_equalsSign? (masked : List Char) (start : Nat) :
    Yields ScannerCall.InRange (Calling.equalsSign? masked start)
      (TypeAlias.equalsSign? masked start) := by
  rw [Calling.equalsSign?, TypeAlias.equalsSign?]
  dsimp only
  split
  · exact ((yields_asking (ScannerCall.inRange_pair _ _ _ _) _).bind (.pure _ _)).bind (.pure _ _)
  · exact (Yields.pure _ _).bind (.pure _ _)

theorem yields_typeAlias (source masked : List Char) (table : Entries (List Char))
    (found : Found (List Char)) :
    Yields ScannerCall.InRange (Calling.typeAlias source masked table found)
      (TypeAlias.add source masked table found) := by
  refine (yields_equalsSign? masked (found.start + found.length)).bind ?_
  rw [TypeAlias.add]
  dsimp only
  cases TypeAlias.equalsSign? masked (found.start + found.length) with
  | none => exact .pure _ _
  | some equals =>
      dsimp only
      split <;> exact .pure _ _

theorem yields_localExports (source : List Char) (founds : List (Found (Nat × Nat))) :
    Yields ScannerCall.InRange (founds.foldlM (Calling.localExport source) [])
      (founds.flatMap fun found => Specifier.readList
        (slice source (found.start + found.value.1) (found.start + found.value.2))) := by
  rw [List.flatMap_eq_foldl]
  refine .foldlM (fun lists found _ => ?_) []
  obtain ⟨start, length, first, stop⟩ := found
  exact (yields_specifiers _).bind (.pure _ _)

/-- Reading a module calls the scanner in range only. -/
theorem yields_module (path : Path) (source : List Char) :
    Yields ScannerCall.InRange (Calling.module path source) (Module.ofText path source) := by
  refine (yields_asking (ScannerCall.inRange_sweep source) (mask source)).bind ?_
  have himports : Yields ScannerCall.InRange
      ((ImportStatement.pattern.findAll (mask source)).foldlM (Calling.importStatement source)
        ImportTable.empty) (ImportTable.read source) :=
    .foldlM (fun table _ h => yields_importStatement (onQuote_of_import h) table) _
  have hreexports : Yields ScannerCall.InRange
      ((ExportClause.pattern.findAll (mask source)).foldlM (Calling.reexportStatement source)
        ReexportTable.empty) (ReexportTable.read source) :=
    .foldlM (fun table _ h => yields_reexportStatement (onQuote_of_reexport h) table) _
  have haliases : Yields ScannerCall.InRange
      ((TypeAlias.pattern.findAll (mask source)).foldlM
        (Calling.typeAlias source (mask source)) []) (TypeAlias.readAll source) :=
    .foldlM (fun table found _ => yields_typeAlias source (mask source) table found) _
  refine himports.bind (hreexports.bind ?_)
  refine (yields_asking (ScannerCall.inRange_sweep source) (mask source)).bind (haliases.bind ?_)
  exact (yields_localExports source _).bind (.pure _ _)

end Yields

/-- How the scanner behaves on a text, however malformed. -/
structure ScansInRange (t : List Char) : Prop where
  /-- A look-up at a quote ends at a later offset, with the same quote or with the text. -/
  literal : ∀ start, OnQuote t start → ∃ r, literalEnd? t start = some r ∧
    Finds t .literal start (some r) ∧ start < r ∧ r ≤ t.length ∧
      (r < t.length → t[r]? = t[start]?)
  /-- Code has its characters from left to right, each at its own offset. -/
  code : ∀ start, ((codeAt t start).Pairwise fun e e' => e.1 < e'.1) ∧
    ∀ i c, (i, c) ∈ codeAt t start → start ≤ i ∧ i < t.length ∧ t[i]? = some c
  matching : ∀ start opens closes,
    Finds t (.pair opens closes) start (matching? t start opens closes)
  /-- A loop over the code from an offset on comes to an end, and looks literals up at quotes
  only. -/
  sweep : ∀ start, (∃ passages lookups, Sweep t start passages lookups) ∧
    ∀ passages lookups, Sweep t start passages lookups →
      codeOf t passages = codeAt t start ∧ ∀ j ∈ lookups, OnQuote t j
  /-- What such a loop tells is all that a text is read for. -/
  reads : ∀ passages lookups, Sweep t 0 passages lookups → ReadsAlong t passages
  /-- The literals of which the values are taken are looked up once more, at their quotes. -/
  quotedTexts : ∀ i c, (i, c) ∈ codeAt t 0 → c = '"' ∨ c = '\'' → OnQuote t i
  module : ∀ path, Yields ScannerCall.InRange (Calling.module path t) (Module.ofText path t)

/-- On every text each scan comes to an end, and no literal is looked up but at a quote. -/
theorem scansInRange (t : List Char) : ScansInRange t where
  literal _ h := finds_literal h
  code start := by
    refine ⟨pairwise_seenFrom start (scanAt t start), fun i c hmem => ?_⟩
    obtain ⟨hle, hc⟩ := getElem?_of_mem_codeAt hmem
    exact ⟨hle, (List.getElem?_eq_some_iff.mp hc).1, hc⟩
  matching := finds_matching t
  sweep start := ⟨exists_sweep t start, fun _ _ h => ⟨h.codeOf_eq, h.onQuote⟩⟩
  reads _ _ h := h.readsAlong
  quotedTexts i c hmem hquote :=
    ⟨c, (getElem?_of_mem_codeAt hmem).2, isQuote_of_isTextQuote hquote⟩
  module path := yields_module path t

end PluginContract.Source
