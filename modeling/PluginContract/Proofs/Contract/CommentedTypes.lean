import PluginContract.Contract.Command
import PluginContract.Proofs.Contract.EventReduction
import PluginContract.Proofs.Script.HiddenSlashes
import PluginContract.Proofs.Script.Wrapping

/-!
# Comments in contract types

The literals of a type are read with its comments passed over. A type is compared with `null`,
taken for a name and matched as a static type together with its comments. So the comments of a
type matter exactly where the type is one of these once they are blanked.
-/

namespace PluginContract.Contract

open Text Files Script Source Resolution

/-- Whether two results are the same value, contract errors of the same kind, or the same other
failure. -/
inductive Alike {α : Type} : Except Failure α → Except Failure α → Prop
  | ok (a : α) : Alike (.ok a) (.ok a)
  | contract {e e' : ContractError} (kind : e.kind = e'.kind) :
      Alike (.error (.contract e)) (.error (.contract e'))
  | failure (f : Failure) : Alike (.error f) (.error f)

theorem Alike.refl {α : Type} (x : Except Failure α) : Alike x x := by
  cases x with
  | error f => exact .failure f
  | ok a => exact .ok a

/-- The command schema that the declaration of a command type stands for. -/
def commandOf (project : Project) (tree : Tree) (found : AliasDeclaration) :
    Resolving (Option Reference) :=
  match schemaValue? found.body with
  | none => reject (.commandNotStatic found.name found.module.path (String.ofList found.body))
  | some value =>
      match project.reference tree value found.module with
      | .ok reference => return some reference
      | .error failure => throw failure

/-- The events that the declaration of a type stands for, with so many names left to follow. -/
def eventsOf (project : Project) (tree : Tree) (names : Nat) (found : AliasDeclaration) :
    Resolving (List String) :=
  eventsWithin project tree names found.body found.module found.seen

/-- Whether a type stands for the same with and without its comments, both as an argument and as
the body of a declaration. -/
structure CommentsIgnored (e : List Char) : Prop where
  command : ∀ project tree m cache,
    Alike (outcome (resolveCommand project tree e m) cache).1
      (outcome (resolveCommand project tree (stripComments e) m) cache).1
  events : ∀ project tree m seen cache,
    Alike (outcome (resolveEvents project tree e m seen) cache).1
      (outcome (resolveEvents project tree (stripComments e) m seen) cache).1
  commandBody : ∀ project tree (found : AliasDeclaration) cache, found.body = e →
    Alike (outcome (commandOf project tree found) cache).1
      (outcome (commandOf project tree { found with body := stripComments e }) cache).1
  eventsBody : ∀ project tree names (found : AliasDeclaration) cache, found.body = e →
    Alike (outcome (eventsOf project tree names found) cache).1
      (outcome (eventsOf project tree names { found with body := stripComments e }) cache).1

section Commented

variable {project : Project} {tree : Tree} {e t : List Char} {m : Module} {cache : Cache}

/-- A declaration is read where a command type names it. -/
theorem resolveCommand_of_name (hnull : stripParens e ≠ "null".toList)
    (hname : isName (stripParens e) = true) :
    resolveCommand project tree e m =
      project.findAlias tree (String.ofList (stripParens e)) m [] >>= commandOf project tree := by
  rw [resolveCommand, if_neg hnull, hname, if_neg (by decide)]
  rfl

/-- A command type is rejected that is no name. -/
theorem outcome_resolveCommand_of_not_name (hname : isName (stripParens e) = false) :
    outcome (resolveCommand project tree e m) cache =
      (.error (.contract (.commandNotName (String.ofList (stripParens e)) m.path)), cache) := by
  have hnull : stripParens e ≠ "null".toList := by
    intro hnull
    rw [hnull] at hname
    exact absurd hname (by decide)
  rw [resolveCommand, if_neg hnull, hname]
  rfl

theorem outcome_commandOf_of_none (found : AliasDeclaration)
    (h : schemaValue? found.body = none) :
    outcome (commandOf project tree found) cache =
      (.error (.contract (.commandNotStatic found.name found.module.path
        (String.ofList found.body))), cache) := by
  rw [commandOf, h]
  rfl

/-- With a comment in it, a type is no name. -/
theorem isName_stripParens_of_slash (h : '/' ∈ e) : isName (stripParens e) = false := by
  apply Bool.eq_false_iff.mpr
  intro hname
  have hslash := mem_stripParens h (by decide) (by decide) (by decide)
  exact absurd (isNameChar_of_isName hname '/' hslash) (by decide)

end Commented

section StaticTypes

variable {t rest : List Char}

/-- A slash is in one of the words of a text. -/
theorem slash_mem_runs {current t : List Char} (h : '/' ∈ current ∨ '/' ∈ t) :
    ∃ u ∈ runs isBlank current t, '/' ∈ u := by
  have hnonempty {current : List Char} (hmem : '/' ∈ current) : current.isEmpty = false := by
    cases current with
    | nil => cases hmem
    | cons d current => rfl
  induction t generalizing current with
  | nil =>
      have hmem := h.resolve_right List.not_mem_nil
      rw [runs, hnonempty hmem, if_neg Bool.false_ne_true]
      exact ⟨_, List.mem_singleton_self _, List.mem_reverse.mpr hmem⟩
  | cons c t ih =>
      rw [runs]
      cases hc : isBlank c with
      | false =>
          rw [if_neg Bool.false_ne_true]
          apply ih
          rcases h with hmem | hmem
          · exact Or.inl (List.mem_cons_of_mem c hmem)
          · rcases List.mem_cons.mp hmem with rfl | hmem
            · exact Or.inl List.mem_cons_self
            · exact Or.inr hmem
      | true =>
          rw [if_pos rfl]
          rcases h with hmem | hmem
          · rw [hnonempty hmem, if_neg Bool.false_ne_true]
            exact ⟨_, List.mem_cons_self, List.mem_reverse.mpr hmem⟩
          · have hslash : '/' ∈ t := by
              rcases List.mem_cons.mp hmem with rfl | hmem
              · exact absurd hc (by decide)
              · exact hmem
            obtain ⟨u, hu, hmem⟩ : ∃ u ∈ runs isBlank [] t, '/' ∈ u := ih (Or.inr hslash)
            split
            · exact ⟨u, hu, hmem⟩
            · exact ⟨u, List.mem_cons_of_mem _ hu, hmem⟩

theorem slash_mem_respace (h : '/' ∈ t) : '/' ∈ respace t := by
  obtain ⟨u, hu, hmem⟩ : ∃ u ∈ runs isBlank [] t, '/' ∈ u := slash_mem_runs (Or.inr h)
  rw [respace, words]
  generalize runs isBlank [] t = us at hu
  induction us with
  | nil => cases hu
  | cons v us ih =>
      cases us with
      | nil =>
          obtain rfl := List.mem_singleton.mp hu
          rwa [List.intercalate_singleton]
      | cons w us =>
          rw [List.intercalate_cons_cons]
          rcases List.mem_cons.mp hu with rfl | hu
          · exact List.mem_append_left _ (List.mem_append_left _ hmem)
          · exact List.mem_append_right _ (ih hu)

theorem slash_mem_of_blanks_append {lead : List Char} (hlead : lead.all isBlank = true)
    (h : '/' ∈ lead ++ rest) : '/' ∈ rest :=
  (List.mem_append.mp h).resolve_left (slash_notMem_blanks hlead)

theorem slash_mem_trimStart (h : '/' ∈ t) : '/' ∈ trimStart t := by
  obtain ⟨lead, heq, hlead⟩ := exists_trimStart t
  exact slash_mem_of_blanks_append hlead (heq ▸ h)

theorem slash_mem_of_after? {start : List Char} (hstart : '/' ∉ start)
    (hafter : after? start t = some rest) (h : '/' ∈ t) : '/' ∈ rest := by
  rw [after?_eq_some_iff.mp hafter] at h
  exact (List.mem_append.mp h).resolve_left hstart

theorem slash_mem_of_blanks? (hblanks : blanks? t = some rest) (h : '/' ∈ t) : '/' ∈ rest := by
  obtain ⟨lead, rfl, hlead⟩ := exists_of_blanks? hblanks
  exact slash_mem_of_blanks_append hlead h

theorem slash_mem_of_name? {name : List Char} (hname : name? t = some (name, rest))
    (h : '/' ∈ t) : '/' ∈ rest := by
  rw [name?_append hname] at h
  refine (List.mem_append.mp h).resolve_left fun hmem => ?_
  exact absurd (isNameChar_of_isName (isName_of_name? hname) _ hmem) (by decide)

theorem of_orElse_eq_some {α : Type} {x : Option α} {f : Unit → Option α} {a : α}
    (h : x.orElse f = some a) : x = some a ∨ f () = some a := by
  cases x with
  | none => exact Or.inr h
  | some b => exact Or.inl h

theorem slash_mem_of_afterStatic? (hstatic : afterStatic? t = some rest) (h : '/' ∈ t) :
    '/' ∈ rest := by
  have hangle {word : String} (hword : '/' ∉ word.toList)
      (hafter : ((after? word.toList t).bind fun rest => after? ['<'] (trimStart rest)) =
        some rest) : '/' ∈ rest := by
    obtain ⟨after, hafter, hrest⟩ := Option.bind_eq_some_iff.mp hafter
    exact slash_mem_of_after? (by decide) hrest
      (slash_mem_trimStart (slash_mem_of_after? hword hafter h))
  rcases of_orElse_eq_some hstatic with hword | hword
  · exact hangle (by decide) hword
  · exact hangle (by decide) hword

theorem slash_mem_of_afterNamespace? (hspace : afterNamespace? t = some rest) (h : '/' ∈ t) :
    '/' ∈ rest := by
  rw [afterNamespace?] at hspace
  split at hspace
  · cases hspace
  · rename_i name after hname
    obtain ⟨more, hafter, rfl⟩ := Option.map_eq_some_iff.mp hspace
    have hmem := slash_mem_trimStart (slash_mem_of_name? hname h)
    exact slash_mem_trimStart (slash_mem_of_after? (by decide) hafter hmem)

theorem slash_mem_of_dotted? {value : List Char} (hdotted : dotted? t = some (value, rest))
    (h : '/' ∈ t) : '/' ∈ rest := by
  rw [dotted?] at hdotted
  split at hdotted
  · cases hdotted
  · rename_i name after hname
    have hafter := slash_mem_of_name? hname h
    split at hdotted
    · rename_i more htrim
      have hmore : '/' ∈ more := by
        have hmem := slash_mem_trimStart hafter
        rw [htrim] at hmem
        exact (List.mem_cons.mp hmem).resolve_left (by decide)
      split at hdotted
      · rename_i member last hmember
        obtain ⟨-, rfl⟩ := Prod.mk.inj (Option.some.inj hdotted)
        exact slash_mem_of_name? hmember (slash_mem_trimStart hmore)
      · obtain ⟨-, rfl⟩ := Prod.mk.inj (Option.some.inj hdotted)
        exact hafter
    · obtain ⟨-, rfl⟩ := Prod.mk.inj (Option.some.inj hdotted)
      exact hafter

/-- With a comment in it, a type is no static type. -/
theorem schemaValue?_of_slash (h : '/' ∈ t) : schemaValue? t = none := by
  have hwords := slash_mem_respace h
  rw [schemaValue?]
  split
  · rfl
  · rename_i argument hargument
    have hmem : '/' ∈ argument := by
      rcases of_orElse_eq_some hargument with hspace | hstatic
      · obtain ⟨after, hspace, hstatic⟩ := Option.bind_eq_some_iff.mp hspace
        exact slash_mem_of_afterStatic? hstatic (slash_mem_of_afterNamespace? hspace hwords)
      · exact slash_mem_of_afterStatic? hstatic hwords
    split
    · rfl
    · rename_i value rest hvalue
      obtain ⟨after, hafter, hdotted⟩ := Option.bind_eq_some_iff.mp hvalue
      obtain ⟨word, hword, hblanks⟩ := Option.bind_eq_some_iff.mp hafter
      have hargs := slash_mem_of_after? (by decide) hword (slash_mem_trimStart hmem)
      have hrest := slash_mem_of_dotted? hdotted (slash_mem_of_blanks? hblanks hargs)
      rw [if_neg]
      intro hclose
      have hmem := slash_mem_trimStart hrest
      rw [hclose] at hmem
      exact absurd (List.mem_singleton.mp hmem) (by decide)

end StaticTypes

section Surroundings

variable {e : List Char}

/-- A module in which nothing is declared. -/
def bareModule : Module := .ofText ⟨.top, ["src", "a.ts"]⟩ []

/-- A project without path aliases. -/
def bareProject : Project := ⟨⟨.top, []⟩, []⟩

/-- A project directory with one empty file. -/
def bareTree : Tree := ⟨[], [(["src"], .directory), (["src", "a.ts"], .file [])], .usual⟩

theorem outcome_findAlias_bare (name : String) :
    outcome (bareProject.findAlias bareTree name bareModule []) .empty =
      (.error (.contract (.aliasNotFound name bareModule.path)), .empty) := rfl

/-- A reference in a bare module fails, if it does, as no fault of the command type. -/
theorem kind_of_reference_bare {value : List Char} {failure : Failure}
    (h : bareProject.reference bareTree value bareModule = .error failure) :
    ∃ error : ContractError, failure = .contract error ∧ error.kind = .resolution := by
  have hnamespaces (name : String) : bareModule.imports.namespaces.get? name = none := rfl
  have hnamed (name : String) : bareModule.imports.named.get? name = none := rfl
  have hdefaults (name : String) : bareModule.imports.defaults.get? name = none := rfl
  have hhas (name : String) : bareModule.imports.namespaces.has name = false := rfl
  rw [Project.reference] at h
  simp only [hnamespaces, hnamed, hdefaults, hhas, Bool.false_eq_true, if_false] at h
  split at h
  · exact ⟨_, (Except.error.inj h).symm, rfl⟩
  · split at h
    · exact ⟨_, (Except.error.inj h).symm, rfl⟩
    · cases h

/-- Where a type with comments is a name without them, only the latter is looked up. -/
theorem not_commentsIgnored_of_name (hslash : '/' ∈ e)
    (hname : isName (stripParens (stripComments e)) = true) : ¬ CommentsIgnored e := by
  intro h
  have halike := h.command bareProject bareTree bareModule .empty
  rw [outcome_resolveCommand_of_not_name (isName_stripParens_of_slash hslash)] at halike
  by_cases hnull : stripParens (stripComments e) = "null".toList
  · rw [resolveCommand, if_pos hnull, outcome_pure] at halike
    cases halike
  · rw [resolveCommand_of_name hnull hname, outcome_bind, outcome_findAlias_bare] at halike
    cases halike with
    | contract kind => cases kind

/-- Where a declaration with comments is a static type without them, only the latter is one. -/
theorem not_commentsIgnored_of_static (hslash : '/' ∈ e)
    (hstatic : schemaValue? (stripComments e) ≠ none) : ¬ CommentsIgnored e := by
  intro h
  have halike := h.commandBody bareProject bareTree ⟨"T", bareModule, e, []⟩ .empty rfl
  rw [outcome_commandOf_of_none _ (schemaValue?_of_slash hslash)] at halike
  obtain ⟨value, hvalue⟩ := Option.ne_none_iff_exists'.mp hstatic
  rw [commandOf, hvalue] at halike
  dsimp only at halike
  cases hreference : bareProject.reference bareTree value bareModule with
  | ok reference =>
      rw [hreference] at halike
      cases halike
  | error failure =>
      obtain ⟨error, rfl, hkind⟩ := kind_of_reference_bare hreference
      rw [hreference] at halike
      cases halike with
      | contract kind =>
          rw [hkind] at kind
          cases kind
      | failure => cases hkind

end Surroundings

section Comments

variable {e : List Char}

/-- Types that are no names are reduced to their literals, and a comment holds none. -/
theorem alike_eventsWithin (h : HidesSlashes e) (hname : isName (stripParens e) = false)
    (hname' : isName (stripParens (stripComments e)) = false) (project : Project) (tree : Tree)
    (names : Nat) (m : Module) (seen : List Link) (cache : Cache) :
    Alike (outcome (eventsWithin project tree names e m seen) cache).1
      (outcome (eventsWithin project tree names (stripComments e) m seen) cache).1 := by
  rw [outcome_eventsWithin_of_not_name hname, outcome_eventsWithin_of_not_name hname', reduction,
    reduction, stringLiterals_stripParens, stringLiterals_stripParens,
    h.stringLiterals_stripComments]
  split
  · exact .contract rfl
  · exact .ok _

theorem commentsIgnored_of_not_name (h : HidesSlashes e) (hslash : '/' ∈ e)
    (hname : isName (stripParens (stripComments e)) = false)
    (hstatic : schemaValue? (stripComments e) = none) : CommentsIgnored e where
  command project tree m cache := by
    rw [outcome_resolveCommand_of_not_name (isName_stripParens_of_slash hslash),
      outcome_resolveCommand_of_not_name hname]
    exact .contract rfl
  events project tree m seen cache :=
    alike_eventsWithin h (isName_stripParens_of_slash hslash) hname project tree _ m seen cache
  commandBody project tree found cache hbody := by
    subst hbody
    rw [outcome_commandOf_of_none found (schemaValue?_of_slash hslash),
      outcome_commandOf_of_none { found with body := stripComments found.body } hstatic]
    exact .contract rfl
  eventsBody project tree names found cache hbody := by
    subst hbody
    exact alike_eventsWithin h (isName_stripParens_of_slash hslash) hname project tree names
      found.module found.seen cache

theorem commentsIgnored_of_eq (h : stripComments e = e) : CommentsIgnored e where
  command project tree m cache := by
    rw [h]
    exact .refl _
  events project tree m seen cache := by
    rw [h]
    exact .refl _
  commandBody project tree found cache hbody := by
    rw [h, ← hbody]
    exact .refl _
  eventsBody project tree names found cache hbody := by
    rw [h, ← hbody]
    exact .refl _

/-- The comments of a type are ignored if and only if there are none, or the type is neither `null`
nor another name nor a static type once they are blanked. -/
theorem commentsIgnored_iff (h : HidesSlashes e) :
    CommentsIgnored e ↔ stripComments e = e ∨
      (isName (stripParens (stripComments e)) = false ∧ schemaValue? (stripComments e) = none) := by
  constructor
  · intro hignored
    by_cases hslash : '/' ∈ e
    · refine Or.inr ⟨?_, ?_⟩
      · apply Bool.eq_false_iff.mpr
        intro hname
        exact not_commentsIgnored_of_name hslash hname hignored
      · apply Decidable.of_not_not
        intro hstatic
        exact not_commentsIgnored_of_static hslash hstatic hignored
    · exact Or.inl (stripComments_eq_self hslash)
  · rintro (heq | ⟨hname, hstatic⟩)
    · exact commentsIgnored_of_eq heq
    · by_cases hslash : '/' ∈ e
      · exact commentsIgnored_of_not_name h hslash hname hstatic
      · exact commentsIgnored_of_eq (stripComments_eq_self hslash)

/-- A union with comments between its members and slashes in one of them. -/
theorem commentsIgnored_iff_union :
    let e := "\"a.b\" /* first */ | \"c/d\" // last".toList
    HidesSlashes e ∧ (CommentsIgnored e ↔ stripComments e = e ∨
      (isName (stripParens (stripComments e)) = false ∧
        schemaValue? (stripComments e) = none)) := by
  intro e
  have h : HidesSlashes e := by decide +kernel
  exact ⟨h, commentsIgnored_iff h⟩

/-- The type `null` after a comment is rejected, although no commands are meant. -/
theorem not_commentsIgnored_null :
    HidesSlashes "/* none */ null".toList ∧ ¬ CommentsIgnored "/* none */ null".toList := by
  have hnull : stripParens (stripComments "/* none */ null".toList) = "null".toList := by
    have hstrip : stripComments "/* none */ null".toList = "           null".toList := by
      decide +kernel
    have htrim : trim "           null".toList = "null".toList := by decide +kernel
    rw [hstrip, stripParens, htrim, unwrap, dif_neg]
    rintro ⟨hhead, -⟩
    cases hhead
  refine ⟨by decide +kernel, not_commentsIgnored_of_name (by decide) ?_⟩
  rw [hnull]
  decide

end Comments

end PluginContract.Contract
