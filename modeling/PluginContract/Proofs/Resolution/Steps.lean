import PluginContract.Resolution.TypeAlias

/-!
# Outcomes of resolving steps

A step takes the cache of the run to a result and the cache after it. What holds of every
value that a step returns is read off its parts. A search for a type alias returns with
more steps seen than before, and with no more of them than it was allowed.
-/

namespace PluginContract.Resolution

open Files Source

variable {α β : Type}

/-- The result of a step and the cache after it. -/
def outcome (x : Resolving α) (cache : Cache) : Except Failure α × Cache := x.run cache

theorem outcome_pure (a : α) (cache : Cache) : outcome (pure a) cache = (.ok a, cache) := rfl

theorem outcome_throw (failure : Failure) (cache : Cache) :
    outcome (throw failure : Resolving α) cache = (.error failure, cache) := rfl

theorem outcome_reject (error : ContractError) (cache : Cache) :
    outcome (reject error : Resolving α) cache = (.error (.contract error), cache) := rfl

theorem outcome_bind (x : Resolving α) (f : α → Resolving β) (cache : Cache) :
    outcome (x >>= f) cache =
      match outcome x cache with
      | (.ok a, after) => outcome (f a) after
      | (.error failure, after) => (.error failure, after) := by
  rcases h : outcome x cache with ⟨_ | _, _⟩ <;>
  · change x cache = _ at h
    simp only [outcome, bind, ExceptT.bind, ExceptT.mk, ExceptT.run, StateT.bind, h]
    rfl

theorem outcome_tryCatch (x : Resolving α) (f : Failure → Resolving α) (cache : Cache) :
    outcome (tryCatch x f) cache =
      match outcome x cache with
      | (.ok a, after) => (.ok a, after)
      | (.error failure, after) => outcome (f failure) after := by
  rcases h : outcome x cache with ⟨_ | _, _⟩ <;>
  · change x cache = _ at h
    simp only [outcome, tryCatch, tryCatchThe, MonadExceptOf.tryCatch, ExceptT.tryCatch,
      ExceptT.run_mk, bind, StateT.bind, h]
    rfl

theorem outcome_bind_eq_ok_iff {x : Resolving α} {f : α → Resolving β} {cache after : Cache}
    {b : β} :
    outcome (x >>= f) cache = (.ok b, after) ↔
      ∃ a middle, outcome x cache = (.ok a, middle) ∧ outcome (f a) middle = (.ok b, after) := by
  rw [outcome_bind]
  rcases outcome x cache with ⟨_ | a, middle⟩
  · simp
  · constructor
    · intro h
      exact ⟨a, middle, rfl, h⟩
    · rintro ⟨_, _, ⟨⟩, h⟩
      exact h

/-- What holds of every value that a step returns. -/
def Returns (x : Resolving α) (P : α → Prop) : Prop :=
  ∀ cache a after, outcome x cache = (.ok a, after) → P a

namespace Returns

variable {P : α → Prop} {Q : β → Prop}

theorem pure {a : α} (h : P a) : Returns (pure a) P := by
  intro cache b after hb
  rw [outcome_pure] at hb
  cases hb
  exact h

theorem throw (failure : Failure) : Returns (throw failure : Resolving α) P := by
  intro cache b after hb
  rw [outcome_throw] at hb
  cases hb

theorem reject (error : ContractError) : Returns (reject error : Resolving α) P := by
  intro cache b after hb
  rw [outcome_reject] at hb
  cases hb

theorem bind {x : Resolving α} {f : α → Resolving β} (hx : Returns x P)
    (hf : ∀ a, P a → Returns (f a) Q) : Returns (x >>= f) Q := by
  intro cache b after h
  obtain ⟨a, middle, ha, hb⟩ := outcome_bind_eq_ok_iff.mp h
  exact hf a (hx cache a middle ha) middle b after hb

/-- A step after one of which nothing needs to be known. -/
theorem andThen (x : Resolving α) {f : α → Resolving β} (hf : ∀ a, Returns (f a) Q) :
    Returns (x >>= f) Q := by
  refine bind (P := fun _ => True) ?_ fun a _ => hf a
  intro _ _ _ _
  trivial

theorem orNothing {x : Resolving α} (hx : Returns x P) :
    Returns (orNothing x) fun found => ∀ a, found = some a → P a := by
  intro cache found after h a ha
  subst ha
  rw [Resolution.orNothing, outcome_tryCatch] at h
  split at h
  · rename_i b middle hm
    rw [map_eq_pure_bind, outcome_bind_eq_ok_iff] at hm
    obtain ⟨a', middle', ha', ⟨⟩⟩ := hm
    cases h
    exact hx cache a _ ha'
  · split at h
    · split at h <;> cases h
    · cases h

theorem firstSuccess {search : α → Resolving (Option β)} {alternatives : List α}
    (h : ∀ a, Returns (search a) fun found => ∀ b, found = some b → Q b) :
    Returns (firstSuccess search alternatives) fun found => ∀ b, found = some b → Q b := by
  induction alternatives with
  | nil => exact pure (by simp)
  | cons a rest ih =>
      refine bind (h a) ?_
      rintro (_ | b) hb
      · exact ih
      · exact pure hb

end Returns

/-- How a module declares a name, for a search for type aliases. -/
inductive Declared
  | here (body : List Char)
  /-- By a named import or re-export, under its name in the other module. -/
  | elsewhere (specifier other : String)
  | renamed (other : String)
  /-- If at all, in a module all of whose names are re-exported. -/
  | unnamed

/-- The declaration of a name that a search goes by. -/
def declared (m : Module) (name : String) : Declared :=
  match m.typeAliases.get? name with
  | some body => .here body
  | none =>
      match m.imports.named.get? name with
      | some imported => .elsewhere imported.source imported.exported
      | none =>
          match m.reexports.named.get? name with
          | some ⟨source, .name other⟩ => .elsewhere source other
          | _ =>
              match m.localExports.get? name with
              | some other => if other = name then .unnamed else .renamed other
              | none => .unnamed

namespace Project

variable (project : Project) (tree : Tree) (limit steps : Nat)

/-- The rest of a search in the module of a specifier. -/
def searchThrough (m : Module) (seen : List Link) (specifier other : String) :
    Resolving AliasDeclaration := do
  let path ← searchAlias.liftExcept (project.require tree m.path specifier)
  let target ← getModule tree path
  project.searchAlias tree limit steps other target seen

/-- The rest of a search in the module of a star re-export. -/
def searchStar (name : String) (m : Module) (seen : List Link) (specifier : String) :
    Resolving (Option AliasDeclaration) := do
  match ← searchAlias.liftExcept (project.find? tree m.path specifier) with
  | none => return none
  | some path => orNothing do
      let target ← getModule tree path
      project.searchAlias tree limit steps name target seen

/-- The rest of a search in the modules of all star re-exports. -/
def searchStars (name : String) (m : Module) (seen : List Link) :
    Resolving AliasDeclaration := do
  match ← firstSuccess (project.searchStar tree limit steps name m seen) m.reexports.stars with
  | some found => return found
  | none => reject (.aliasNotFound name m.path)

theorem searchAlias_zero (name : String) (m : Module) (seen : List Link) :
    project.searchAlias tree limit 0 name m seen =
      if seen.contains (m.path, name) then reject (.cycle (seen ++ [(m.path, name)]))
      else reject (.tooDeep name limit m.path) := by
  rw [searchAlias.eq_def]

variable {project tree limit steps} {name : String} {m : Module} {seen : List Link}

theorem searchAlias_of_mem (h : (m.path, name) ∈ seen) :
    project.searchAlias tree limit steps name m seen = reject (.cycle (seen ++ [(m.path, name)])) := by
  rw [searchAlias.eq_def]
  dsimp only
  rw [if_pos (List.contains_iff_mem.mpr h)]

theorem searchAlias_of_notMem (h : (m.path, name) ∉ seen) :
    project.searchAlias tree limit (steps + 1) name m seen =
      match declared m name with
      | .here body => return ⟨name, m, body, seen ++ [(m.path, name)]⟩
      | .elsewhere specifier other =>
          project.searchThrough tree limit steps m (seen ++ [(m.path, name)]) specifier other
      | .renamed other =>
          project.searchAlias tree limit steps other m (seen ++ [(m.path, name)])
      | .unnamed => project.searchStars tree limit steps name m (seen ++ [(m.path, name)]) := by
  rw [searchAlias.eq_def]
  dsimp only
  rw [if_neg (mt List.contains_iff_mem.mp h), declared]
  cases m.typeAliases.get? name with
  | some body => rfl
  | none =>
      cases m.imports.named.get? name with
      | some imported => rfl
      | none =>
          rcases m.reexports.named.get? name with _ | ⟨source, other | _⟩
          case some.name => rfl
          -- A whole module under a name of its own declares no type alias.
          all_goals
            cases m.localExports.get? name with
            | none => rfl
            | some other =>
                dsimp only
                by_cases ho : other = name
                · rw [if_pos ho, if_pos ho]
                  rfl
                · rw [if_neg ho, if_neg ho]

variable {P : AliasDeclaration → Prop}

theorem searchThrough_returns
    (h : ∀ name m, Returns (project.searchAlias tree limit steps name m seen) P)
    (m : Module) (specifier other : String) :
    Returns (project.searchThrough tree limit steps m seen specifier other) P := by
  refine .andThen _ fun path => ?_
  exact .andThen _ fun target => h other target

theorem searchStars_returns
    (h : ∀ name m, Returns (project.searchAlias tree limit steps name m seen) P)
    (name : String) (m : Module) :
    Returns (project.searchStars tree limit steps name m seen) P := by
  have hstar (specifier : String) :
      Returns (project.searchStar tree limit steps name m seen specifier) fun found =>
        ∀ declaration, found = some declaration → P declaration := by
    refine .andThen _ ?_
    rintro (_ | path)
    · exact .pure (by simp)
    · exact .orNothing (.andThen _ fun target => h name target)
  refine .bind (.firstSuccess hstar) ?_
  rintro (_ | found) hfound
  · exact .reject _
  · exact .pure (hfound found rfl)

/-- A search that finds a declaration has seen at least one step more, and no more steps than
it had left. -/
theorem searchAlias_returns (name : String) (m : Module) (seen : List Link) :
    Returns (project.searchAlias tree limit steps name m seen) fun found =>
      seen.length < found.seen.length ∧ found.seen.length ≤ seen.length + steps := by
  induction steps generalizing name m seen with
  | zero =>
      rw [searchAlias_zero]
      split
      · exact .reject _
      · exact .reject _
  | succ steps ih =>
      by_cases hmem : (m.path, name) ∈ seen
      · rw [searchAlias_of_mem hmem]
        exact .reject _
      have hlength : (seen ++ [(m.path, name)]).length = seen.length + 1 := by
        rw [List.length_append, List.length_singleton]
      have hnext (other : String) (target : Module) :
          Returns (project.searchAlias tree limit steps other target (seen ++ [(m.path, name)]))
            fun found =>
              seen.length < found.seen.length ∧ found.seen.length ≤ seen.length + (steps + 1) := by
        intro cache found after h
        have := ih other target _ cache found after h
        omega
      rw [searchAlias_of_notMem hmem]
      cases declared m name with
      | here body =>
          refine .pure ?_
          dsimp only
          omega
      | elsewhere specifier other => exact searchThrough_returns hnext m specifier other
      | renamed other => exact hnext other m
      | unnamed => exact searchStars_returns hnext name m

/-- The declaration of an alias is found within the limit of steps. -/
theorem findAlias_returns (name : String) (m : Module) (seen : List Link) :
    Returns (project.findAlias tree name m seen) fun found =>
      seen.length < found.seen.length ∧ found.seen.length ≤ stepLimit := by
  intro cache found after h
  have := searchAlias_returns name m seen cache found after h
  omega

end Project

end PluginContract.Resolution
