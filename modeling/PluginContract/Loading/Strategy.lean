import PluginContract.Error

/-! # Loading the exports of a module

The values behind references come from running a module. Strategies for that are tried in order, and
the first success counts; if all fail, their failures are reported together. The monad is that of
the surroundings in which strategies run. -/

namespace PluginContract.Loading
open Files

/-- What a strategy comes back with. -/
inductive StrategyResult
  | exports (value : Json)
  | failed (failure : StrategyFailure)
  /-- The strategy has no way to run a module. -/
  | unavailable
deriving Inhabited

/-- A way of turning a module and the names of wanted exports into exports. -/
structure Strategy (μ : Type → Type) where
  name : String
  load : Path → List String → μ StrategyResult

/-- Tries strategies in order, after some that failed already. -/
def loadAfter {μ : Type → Type} [Monad μ] (module : Path) (names : List String) :
    (failures : List (String × StrategyFailure)) → List (Strategy μ) →
      μ (Except Failure (Entries Json))
  | failures, [] => return .error (.contract (.loadFailed module failures))
  | failures, strategy :: rest => do
      match ← strategy.load module names with
      | .exports value => return .ok (pickExports value names)
      | .failed failure => loadAfter module names (failures ++ [(strategy.name, failure)]) rest
      | .unavailable => return .error .strategyUnavailable

/-- The wanted exports of a module; missing names are left out. -/
def load {μ : Type → Type} [Monad μ] (strategies : List (Strategy μ)) (module : Path)
    (names : List String) : μ (Except Failure (Entries Json)) :=
  loadAfter module names [] strategies

end PluginContract.Loading
