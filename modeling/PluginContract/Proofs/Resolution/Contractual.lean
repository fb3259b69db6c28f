import PluginContract.Proofs.Resolution.Steps

/-!
# Contractual steps

A result is contractual if it is a value or a contract error. Any other failure breaks a
run. Where steps follow each other, the run breaks at the first one that does; where they are
alternatives, at the first one that does before any has succeeded. A module that cannot be
read is a contract error and breaks nothing.
-/

namespace PluginContract.Resolution

open Files Source

/-- Whether a result is a value or a contract error. -/
def Contractual {α : Type} : Except Failure α → Prop
  | .ok _ => True
  | .error failure => failure.isContract = true

instance {α : Type} (result : Except Failure α) : Decidable (Contractual result) :=
  match result with
  | .ok _ => .isTrue trivial
  | .error failure => inferInstanceAs (Decidable (failure.isContract = true))

@[simp] theorem contractual_ok {α : Type} (a : α) : Contractual (.ok a) := trivial

@[simp] theorem contractual_error {α : Type} (failure : Failure) :
    Contractual (.error failure : Except Failure α) ↔ failure.isContract = true := Iff.rfl

/-- Whether a step fails with anything but a contract error. -/
def Breaks {α : Type} (x : Resolving α) (cache : Cache) : Prop :=
  ¬ Contractual (outcome x cache).1

section

variable {α β : Type} {x : Resolving α} {f : α → Resolving β} {cache after : Cache}

theorem not_breaks_pure (a : α) (cache : Cache) : ¬ Breaks (pure a) cache := fun h => h trivial

theorem not_breaks_reject (error : ContractError) (cache : Cache) :
    ¬ Breaks (reject error : Resolving α) cache := fun h => h rfl

theorem breaks_bind_iff :
    Breaks (x >>= f) cache ↔
      Breaks x cache ∨ ∃ a middle, outcome x cache = (.ok a, middle) ∧ Breaks (f a) middle := by
  simp only [Breaks, outcome_bind]
  rcases outcome x cache with ⟨failure | a, middle⟩
  · simp
  · simp only [contractual_ok, not_true_eq_false, false_or]
    constructor
    · exact fun h => ⟨a, middle, rfl, h⟩
    · rintro ⟨_, _, ⟨⟩, h⟩
      exact h

theorem not_breaks_bind (hx : ¬ Breaks x cache) (hf : ∀ a middle, ¬ Breaks (f a) middle) :
    ¬ Breaks (x >>= f) cache := by
  rw [breaks_bind_iff]
  rintro (h | ⟨a, middle, -, h⟩)
  · exact hx h
  · exact hf a middle h

/-- What only breaks after a step that cannot break itself. -/
theorem breaks_bind_iff_of_not_breaks (hx : ¬ Breaks x cache) :
    Breaks (x >>= f) cache ↔
      ∃ a middle, outcome x cache = (.ok a, middle) ∧ Breaks (f a) middle := by
  rw [breaks_bind_iff, or_iff_right hx]

/-- A step after which nothing can break. -/
theorem breaks_bind_iff_left (hf : ∀ a middle, ¬ Breaks (f a) middle) :
    Breaks (x >>= f) cache ↔ Breaks x cache := by
  rw [breaks_bind_iff, or_iff_left]
  rintro ⟨a, middle, -, h⟩
  exact hf a middle h

theorem breaks_orNothing_iff : Breaks (orNothing x) cache ↔ Breaks x cache := by
  rw [orNothing, Breaks, Breaks, outcome_tryCatch, map_eq_pure_bind, outcome_bind]
  rcases outcome x cache with ⟨failure | a, middle⟩
  · cases failure with
    | contract error =>
        dsimp only
        split
        · rw [outcome_pure]
          simp [Failure.isContract]
        · exact Iff.rfl
    | _ => exact Iff.rfl
  · exact Iff.rfl

theorem breaks_liftExcept_iff {e : Except Failure α} :
    Breaks (Project.searchAlias.liftExcept e) cache ↔ ¬ Contractual e := by
  cases e <;> exact Iff.rfl

theorem outcome_liftExcept_eq_ok_iff {e : Except Failure α} {a : α} :
    outcome (Project.searchAlias.liftExcept e) cache = (.ok a, after) ↔
      e = .ok a ∧ cache = after := by
  cases e with
  | ok b =>
      rw [Project.searchAlias.liftExcept, outcome_pure, Prod.mk.injEq]
  | error failure =>
      rw [Project.searchAlias.liftExcept, outcome_throw]
      simp

theorem outcome_getModule (tree : Tree) (path : Path) (cache : Cache) :
    outcome (getModule tree path) cache =
      match cache.find? (path.resolve tree.home) with
      | some m => (.ok m, cache)
      | none =>
          match tree.readText (path.resolve tree.home) with
          | .error fault =>
              (.error (.contract (.unreadableModule (path.resolve tree.home) (.unreadable fault))),
                cache)
          | .ok text =>
              (.ok (Module.ofText (path.resolve tree.home) text),
                ⟨cache.modules ++ [Module.ofText (path.resolve tree.home) text]⟩) := by
  have hget : outcome (get : Resolving Cache) cache = (.ok cache, cache) := rfl
  rw [getModule, outcome_bind, hget]
  dsimp only
  cases cache.find? (path.resolve tree.home) with
  | some m => rfl
  | none =>
      cases tree.readText (path.resolve tree.home) with
      | error fault => rfl
      | ok text => rfl

/-- A module that cannot be read is a contract error. -/
theorem not_breaks_getModule (tree : Tree) (path : Path) (cache : Cache) :
    ¬ Breaks (getModule tree path) cache := by
  rw [Breaks, outcome_getModule]
  cases cache.find? (path.resolve tree.home) with
  | some m => exact fun h => h trivial
  | none =>
      cases tree.readText (path.resolve tree.home) with
      | error fault => exact fun h => h rfl
      | ok text => exact fun h => h trivial

theorem outcome_firstSuccess_cons_eq_none_iff {search : α → Resolving (Option β)} {a : α}
    {rest : List α} :
    outcome (firstSuccess search (a :: rest)) cache = (.ok none, after) ↔
      ∃ middle, outcome (search a) cache = (.ok none, middle) ∧
        outcome (firstSuccess search rest) middle = (.ok none, after) := by
  rw [firstSuccess, outcome_bind_eq_ok_iff]
  constructor
  · rintro ⟨_ | b, middle, ha, h⟩
    · exact ⟨middle, ha, h⟩
    · cases h
  · rintro ⟨middle, ha, h⟩
    exact ⟨none, middle, ha, h⟩

theorem breaks_firstSuccess_cons_iff {search : α → Resolving (Option β)} {a : α} {rest : List α} :
    Breaks (firstSuccess search (a :: rest)) cache ↔
      Breaks (search a) cache ∨ ∃ middle, outcome (search a) cache = (.ok none, middle) ∧
        Breaks (firstSuccess search rest) middle := by
  rw [firstSuccess, breaks_bind_iff]
  refine or_congr_right ?_
  constructor
  · rintro ⟨_ | b, middle, ha, h⟩
    · exact ⟨middle, ha, h⟩
    · exact absurd h (not_breaks_pure (some b) middle)
  · rintro ⟨middle, ha, h⟩
    exact ⟨none, middle, ha, h⟩

/-- Alternatives break at the first one that does, if none before it has succeeded. -/
theorem breaks_firstSuccess_iff {search : α → Resolving (Option β)} {alternatives : List α} :
    Breaks (firstSuccess search alternatives) cache ↔
      ∃ earlier a later middle, alternatives = earlier ++ a :: later ∧
        outcome (firstSuccess search earlier) cache = (.ok none, middle) ∧
        Breaks (search a) middle := by
  induction alternatives generalizing cache with
  | nil =>
      refine iff_of_false (not_breaks_pure none cache) ?_
      rintro ⟨earlier, a, later, middle, h, -⟩
      exact absurd h.symm (List.append_ne_nil_of_right_ne_nil _ (List.cons_ne_nil _ _))
  | cons a rest ih =>
      rw [breaks_firstSuccess_cons_iff]
      constructor
      · rintro (h | ⟨middle, ha, h⟩)
        · exact ⟨[], a, rest, cache, rfl, rfl, h⟩
        · obtain ⟨earlier, b, later, middle', rfl, hpassed, hb⟩ := ih.mp h
          exact ⟨a :: earlier, b, later, middle', rfl,
            outcome_firstSuccess_cons_eq_none_iff.mpr ⟨middle, ha, hpassed⟩, hb⟩
      · rintro ⟨earlier, b, later, middle, heq, hpassed, hb⟩
        cases earlier with
        | nil =>
            obtain ⟨rfl, rfl⟩ := List.cons.inj heq
            cases hpassed
            exact Or.inl hb
        | cons a' earlier =>
            obtain ⟨rfl, rfl⟩ := List.cons.inj heq
            obtain ⟨middle', ha, hrest⟩ := outcome_firstSuccess_cons_eq_none_iff.mp hpassed
            exact Or.inr ⟨middle', ha, ih.mpr ⟨earlier, b, later, middle, rfl, hrest, hb⟩⟩

end

end PluginContract.Resolution
