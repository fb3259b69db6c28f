import PluginContract.Proofs.Script.Peeling
import PluginContract.Resolution.Reference

/-!
# References through assertions

An expression that asserts something about a name, or about a member of a namespace, refers to the
same export as that name or member, in every module, and fails as that one fails. Only the source
that a reference shows is the expression as it is written.
-/

namespace PluginContract.Resolution

open Text Files Script Source

variable {core u w space member : List Char}

/-- A member of a namespace is read as its two names. -/
theorem member?_eq_some (isSpace : isName space = true) (isMember : isName member = true) :
    member? (space ++ '.' :: member) = some (space, member) := by
  have hdot : trimStart ('.' :: member) = '.' :: member :=
    trimStart_of_head? fun c hc => Option.some.inj hc ▸ by decide
  have hmember : trimStart member = member := by
    refine trimStart_of_head? fun c hc => ?_
    exact not_isBlank_of_isNameChar (isNameChar_of_isName isMember c (List.mem_of_mem_head? hc))
  rw [member?, name?_append_of_isName isSpace (endsName_cons (by decide) member)]
  simp only [hdot, hmember, if_pos isMember]

namespace Project

variable {project : Project} {tree : Tree} {m : Module}

/-- Expressions that are the same without their assertions, and then a name or a member of a
namespace, are resolved alike. -/
theorem reference_eq_map (hsame : stripAssertions w = stripAssertions u)
    (hshape : isName (stripAssertions u) = true ∨ (member? (stripAssertions u)).isSome) :
    project.reference tree w m = (project.reference tree u m).map fun reference =>
      { reference with source := String.ofList (trim w) } := by
  have hthrough (required : Except Failure Path) (exported : String) :
      (required.map fun path => (⟨path, exported, String.ofList (trim w)⟩ : Reference)) =
        (required.map fun path => (⟨path, exported, String.ofList (trim u)⟩ : Reference)).map
          fun reference => { reference with source := String.ofList (trim w) } := by
    cases required <;> rfl
  rw [reference, reference, hsame]
  dsimp only
  cases hmember : member? (stripAssertions u) with
  | some names =>
      dsimp only
      cases m.imports.namespaces.get? (String.ofList names.1) with
      | some specifier => exact hthrough _ _
      | none => rfl
  | none =>
      have hname : isName (stripAssertions u) = true :=
        hshape.resolve_right (by simp [hmember])
      rw [hname]
      dsimp only
      cases m.imports.named.get? (String.ofList (stripAssertions u)) with
      | some imported => exact hthrough _ _
      | none =>
          cases m.imports.defaults.get? (String.ofList (stripAssertions u)) with
          | some specifier => exact hthrough _ _
          | none => cases m.imports.namespaces.has (String.ofList (stripAssertions u)) <;> rfl

/-- All assertions around a name, or around a member of a namespace, are peeled off, and the
expression is resolved as what is left, whatever the module imports. -/
theorem reference_of_asserts (hcore : Referent core) (h : Asserts core w) :
    stripAssertions w = core ∧
      ∀ (project : Project) (tree : Tree) (m : Module),
        project.reference tree w m = (project.reference tree core m).map fun reference =>
          { reference with source := String.ofList w } := by
  have hbare : stripAssertions core = core := (Asserts.bare).stripAssertions_eq hcore
  have hpeeled := h.stripAssertions_eq hcore
  refine ⟨hpeeled, fun project tree m => ?_⟩
  rw [reference_eq_map (hpeeled.trans hbare.symm), trim_of_solid (h.solid hcore)]
  rw [hbare]
  cases hcore with
  | name isName => exact Or.inl isName
  | member isSpace isMember => exact Or.inr (by rw [member?_eq_some isSpace isMember]; rfl)

/-- Layers of all kinds around a member of a namespace. -/
theorem reference_of_layers :
    stripAssertions "(<Alias<B>>ns.item as C[])! satisfies D | E".toList = "ns.item".toList ∧
      ∀ (project : Project) (tree : Tree) (m : Module),
        project.reference tree "(<Alias<B>>ns.item as C[])! satisfies D | E".toList m =
          (project.reference tree "ns.item".toList m).map fun reference =>
            { reference with source := "(<Alias<B>>ns.item as C[])! satisfies D | E" } := by
  have hmember : Referent ("ns".toList ++ '.' :: "item".toList) := .member (by decide) (by decide)
  have hgeneric : AssertedType "Alias<B>".toList := by
    refine ⟨?_, ⟨⟨'A', rfl, by decide⟩, '>', rfl, by decide⟩, by decide⟩
    exact (TypeText.of_all (t := "Alias".toList) (by decide)).append
      (.bracket rfl (.char (by decide) .nil) .nil)
  have hlist : AssertedType "C[]".toList := by
    refine ⟨.char (by decide) (.bracket rfl .nil .nil), ?_, by decide⟩
    exact ⟨⟨'C', rfl, by decide⟩, ']', rfl, by decide⟩
  have hunion : AssertedType "D | E".toList :=
    ⟨.of_all (by decide), ⟨⟨'D', rfl, by decide⟩, 'E', rfl, by decide⟩, by decide⟩
  have hangled : Asserts "ns.item".toList "<Alias<B>>ns.item".toList := .angled hgeneric .bare
  have has : "as".toList ∈ assertionWords := by decide
  have hinner : Asserts "ns.item".toList "<Alias<B>>ns.item as C[]".toList :=
    hangled.typed has hlist
  have hsatisfies : "satisfies".toList ∈ assertionWords := by decide
  have hwhole : Asserts "ns.item".toList "(<Alias<B>>ns.item as C[])! satisfies D | E".toList :=
    hinner.parens.nonNull.typed hsatisfies hunion
  exact reference_of_asserts hmember hwhole

end Project

end PluginContract.Resolution
