import Mathlib
import PluginContract.Proofs.Contract.PlanLookups
import PluginContract.Proofs.Files.Tree
import PluginContract.Proofs.Resolution.AliasTables

/-!
# When an extraction can only fail with a contract error

Loading adds no failure of its own to those of the strategies, so an extraction that is made
with strategies that can run at all fails outside the contract errors only before anything
is loaded: at a root or a configuration file that cannot be used, or at a lookup of the plan that
leads nowhere.
-/

namespace PluginContract.Contract

open Files Source Resolution Loading

/-- Whether a strategy always has a way to run a module, whatever becomes of it. -/
def Available {μ : Type → Type} [Monad μ] (strategy : Strategy μ) : Prop :=
  ∀ module names, SatisfiesM (fun result => result ≠ .unavailable) (strategy.load module names)

/-- Whether the extraction of a contract gives the contract or a contract error, with any
strategies that can run modules in any surroundings. -/
def ExtractsContractually (tree : Tree) (root : Path) (excluded : List String) : Prop :=
  ∀ (μ : Type → Type) [Monad μ] [LawfulMonad μ] (strategies : List (Strategy μ)),
    (∀ strategy ∈ strategies, Available strategy) →
      SatisfiesM Contractual (extract tree root excluded (load strategies))

/-- A project as it can be given: each place of its tree has a path that the system follows, and its
configuration file spells no half of a character, which no string holds. -/
structure GivenProject where
  tree : Tree
  root : Path
  followed : ∀ entry ∈ tree.nodes, tree.Admits ⟨.top, entry.1⟩
  whole : ∀ text, tree.readText ((root.resolve tree.home).child "tsconfig.json") = .ok text →
    Json.Reader.holdsHalf 0 (dropTrailingCommas (Script.stripComments text)) = false

section Loading

variable {μ : Type → Type} [Monad μ] [LawfulMonad μ]

theorem satisfiesM_loadAfter {strategies : List (Strategy μ)}
    (h : ∀ strategy ∈ strategies, Available strategy) (module : Path) (names : List String)
    (failures : List (String × StrategyFailure)) :
    SatisfiesM Contractual (loadAfter module names failures strategies) := by
  induction strategies generalizing failures with
  | nil => exact .pure rfl
  | cons strategy rest ih =>
      obtain ⟨hstrategy, hrest⟩ := List.forall_mem_cons.mp h
      refine .bind (hstrategy module names) fun result hresult => ?_
      cases result with
      | exports value => exact .pure trivial
      | failed failure => exact ih hrest _
      | unavailable => exact absurd rfl hresult

variable {loader : Loader μ}

theorem satisfiesM_loadAll (h : ∀ module names, SatisfiesM Contractual (loader module names))
    (wanted : Wanted) : SatisfiesM Contractual (loadAll loader wanted) := by
  induction wanted with
  | nil => exact .pure trivial
  | cons entry rest ih =>
      refine .bind (h entry.1 entry.2) fun result hresult => ?_
      cases result with
      | error failure => exact .pure hresult
      | ok exports =>
          refine .bind ih fun loaded hloaded => ?_
          cases loaded with
          | error failure => exact .pure hloaded
          | ok loaded => exact .pure trivial

theorem contractual_valueOf (loaded : List (Path × Entries Json)) (r : Reference) :
    Contractual (valueOf loaded r) := by
  rw [valueOf]
  split
  · trivial
  · rfl

theorem contractual_mapM {α β : Type} {f : α → Except Failure β} (h : ∀ a, Contractual (f a))
    (l : List α) : Contractual (l.mapM f) := by
  induction l with
  | nil => trivial
  | cons a rest ih =>
      have ha := h a
      rw [List.mapM_cons]
      cases hfirst : f a with
      | error failure =>
          rw [hfirst] at ha
          exact ha
      | ok b =>
          cases hothers : rest.mapM f with
          | error failure =>
              rw [hothers] at ih
              exact ih
          | ok bs => trivial

theorem satisfiesM_planLoad (h : ∀ module names, SatisfiesM Contractual (loader module names))
    (plan : Plan) (excluded : List String) : SatisfiesM Contractual (plan.load loader excluded) := by
  have hvalues (references : List Reference) :
      SatisfiesM Contractual (loadReferences loader references) := by
    refine .bind (satisfiesM_loadAll h _) fun loaded hloaded => ?_
    cases loaded with
    | error failure => exact .pure hloaded
    | ok loaded => exact .pure (contractual_mapM (contractual_valueOf loaded) references)
  refine .bind (hvalues _) fun values hvalues => ?_
  cases values with
  | error failure => exact .pure hvalues
  | ok values => exact .pure trivial

end Loading

/-- The sources of a plugin give a plan or a contract error if and only if the root and the
configuration file can be used and no lookup of the plan leads nowhere. -/
theorem contractual_planAt_iff (tree : Tree) (root : Path) (excluded : List String) :
    Contractual (planAt tree root excluded) ↔
      (root.holdsNull = false ∧ Configured tree (root.resolve tree.home)) ∧
        ∀ project, Project.ofRoot tree root = .ok project →
          ∀ importer specifier, PlanAsks project tree importer specifier →
            ¬ project.LeadsNowhere tree importer specifier := by
  rw [planAt, ← Project.ofRoot_eq_ok_iff]
  cases hproject : Project.ofRoot tree root with
  | error failure =>
      refine iff_of_false ?_ ?_
      · intro h
        exact Bool.false_ne_true ((Project.not_isContract_of_ofRoot hproject).symm.trans h)
      · rintro ⟨⟨project, ⟨⟩⟩, -⟩
  | ok project =>
      have hplan : Contractual ((makePlan project tree excluded).run .empty).1 ↔
          ¬ Breaks (makePlan project tree excluded) .empty := not_not.symm
      refine hplan.trans ?_
      simp only [breaks_makePlan_iff, Except.ok.injEq, exists_eq', true_and, forall_eq',
        not_exists, not_and]

/-- Whatever the strategies, an extraction fails outside the contract errors just if the making of
its plan does. -/
theorem extractsContractually_iff_contractual_planAt (tree : Tree) (root : Path)
    (excluded : List String) :
    ExtractsContractually tree root excluded ↔ Contractual (planAt tree root excluded) := by
  constructor
  · intro h
    -- Without strategies, what is left of an extraction is its plan.
    have hextract := SatisfiesM_Id_eq.mp (h Id [] (by simp))
    cases hplan : planAt tree root excluded with
    | error failure =>
        rw [extract, hplan] at hextract
        exact hextract
    | ok plan => trivial
  · intro h μ _ _ strategies hstrategies
    rw [extract]
    cases hplan : planAt tree root excluded with
    | error failure =>
        rw [hplan] at h
        exact .pure h
    | ok plan =>
        exact satisfiesM_planLoad
          (fun module names => satisfiesM_loadAfter hstrategies module names []) plan excluded

/-- An extraction gives a contract or a contract error if and only if the path of the root has no
null character, the configuration file can be used and no lookup of the plan leads nowhere. -/
theorem extractsContractually_iff (given : GivenProject) (excluded : List String) :
    ExtractsContractually given.tree given.root excluded ↔
      (given.root.holdsNull = false ∧
          Configured given.tree (given.root.resolve given.tree.home)) ∧
        ∀ project, Project.ofRoot given.tree given.root = .ok project →
          ∀ importer specifier, PlanAsks project given.tree importer specifier →
            ¬ project.LeadsNowhere given.tree importer specifier :=
  (extractsContractually_iff_contractual_planAt _ _ _).trans (contractual_planAt_iff _ _ _)

/-- A project whose configuration file is a byte that is no text. -/
def undecodable : GivenProject where
  tree := { home := [], nodes := [(["tsconfig.json"], .file [255])] }
  root := ⟨.top, []⟩
  followed := by
    intro entry hentry
    obtain rfl := List.mem_singleton.mp hentry
    constructor <;> decide +kernel
  whole := by
    intro text htext
    have hfault : Tree.readText { home := [], nodes := [(["tsconfig.json"], .file [255])] }
        ⟨.top, ["tsconfig.json"]⟩ = .error (.notText ⟨255, 0, 1, .invalidStart⟩) := by
      decide +kernel
    cases hfault.symm.trans htext

/-- A byte that is no text keeps a configuration file from being read. -/
theorem not_extractsContractually_undecodable :
    ¬ ExtractsContractually undecodable.tree undecodable.root [] := by
  intro h
  exact absurd (SatisfiesM_Id_eq.mp (h Id [] (by simp))) (by decide +kernel)

end PluginContract.Contract
