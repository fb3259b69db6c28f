import Mathlib

/-!
# Runs that note what happens

Surroundings are observed by letting each of their steps leave a note. What a run notes is told
beside its result, and a run whose notes are forgotten is the run in the surroundings themselves.
-/

namespace PluginContract

/-- Runs that note what happens, in order. -/
abbrev Noting (ε : Type) (μ : Type → Type) : Type → Type := StateT (List ε) μ

variable {μ : Type → Type} [Monad μ] {ε α β : Type}

/-- A step that leaves a note about its result. -/
def noting (step : μ α) (about : α → ε) : Noting ε μ α := fun before =>
  (fun a => (a, before ++ [about a])) <$> step

/-- Whether the result of a run and what it notes are as told, whatever was noted before. -/
def Notes (told : α → List ε → Prop) (run : Noting ε μ α) : Prop :=
  ∀ before, SatisfiesM (fun done => ∃ noted, done.2 = before ++ noted ∧ told done.1 noted)
    (run.run before)

/-- Whether a run is another one as soon as its notes are forgotten. -/
def Forgets (run : Noting ε μ α) (plain : μ α) : Prop := ∀ before, run.run' before = plain

/-- Whether a run notes what is told of it and is another run but for its notes. -/
structure Observes (told : α → List ε → Prop) (run : Noting ε μ α) (plain : μ α) : Prop where
  notes : Notes told run
  forgets : Forgets run plain

variable [LawfulMonad μ]

/-- A run that forgets its state goes on as its steps do, if these do so in every state. -/
theorem run'_bind {σ : Type} {x : StateT σ μ α} {f : α → StateT σ μ β} {y : μ α} {g : α → μ β}
    {s : σ} (hx : x.run' s = y) (hf : ∀ a after, (f a).run' after = g a) :
    (x >>= f).run' s = y >>= g := by
  rw [← hx, StateT.run'_eq, StateT.run'_eq, StateT.run_bind, map_bind, bind_map_left]
  exact bind_congr fun run => hf run.1 run.2

namespace Observes

variable {told : α → List ε → Prop} {told' : β → List ε → Prop} {a : α}
  {run : Noting ε μ α} {next : α → Noting ε μ β} {plain : μ α} {further : α → μ β}

theorem imp {more : α → List ε → Prop} (h : Observes told run plain)
    (himp : ∀ a noted, told a noted → more a noted) : Observes more run plain where
  notes before := (h.notes before).imp fun ⟨noted, hafter, htold⟩ =>
    ⟨noted, hafter, himp _ _ htold⟩
  forgets := h.forgets

theorem pure (h : told a []) : Observes told (Pure.pure a : Noting ε μ α) (Pure.pure a) where
  notes before := .pure ⟨[], (List.append_nil before).symm, h⟩
  forgets before := by simp

/-- What comes after a run has to be observed only for the results that are told of it. -/
theorem bind (h : Observes told run plain)
    (hnext : ∀ a noted, told a noted →
      Observes (fun b more => told' b (noted ++ more)) (next a) (further a)) :
    Observes told' (run >>= next) (plain >>= further) where
  notes before := by
    rw [StateT.run_bind]
    refine (h.notes before).bind fun done hdone => ?_
    obtain ⟨noted, hafter, htold⟩ := hdone
    refine ((hnext _ _ htold).notes done.2).imp fun {last} hlast => ?_
    obtain ⟨more, hmore, htold'⟩ := hlast
    exact ⟨noted ++ more, by rw [hmore, hafter, List.append_assoc], htold'⟩
  forgets before := by
    obtain ⟨done, hdone⟩ := h.notes before
    rw [← h.forgets before, StateT.run'_eq, StateT.run'_eq, StateT.run_bind, ← hdone, map_bind,
      bind_map_left, bind_map_left, bind_map_left]
    refine bind_congr fun done => ?_
    obtain ⟨noted, -, htold⟩ := done.2
    exact (hnext _ _ htold).forgets _

end Observes

theorem observes_noting (step : μ α) (about : α → ε) :
    Observes (fun a noted => noted = [about a]) (noting step about) step where
  notes _ := (SatisfiesM.trivial (x := step)).map fun _ => ⟨_, rfl, rfl⟩
  forgets before := by
    rw [StateT.run'_eq]
    change Prod.fst <$> ((fun a => (a, before ++ [about a])) <$> step) = step
    rw [Functor.map_map]
    exact id_map step

end PluginContract
