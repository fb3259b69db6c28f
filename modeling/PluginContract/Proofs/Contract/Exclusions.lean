import PluginContract.Proofs.Contract.EventReduction

/-!
# Exclusions and supported events

The excluded names are trimmed and distinct, however they are given. The events that are read
from a type are distinct too, and there is at least one. Excluding names from them fails at
a name that is no event, and else if no event is left; what remains otherwise keeps its order.
-/

namespace PluginContract.Contract

open Text Files Script Source Resolution

theorem mem_exclusionNames {items : List String} {event : String} :
    event ∈ exclusionNames items ↔
      event ≠ "" ∧ ∃ item ∈ items, String.ofList (trim item.toList) = event := by
  simp only [exclusionNames, mem_distinct, List.mem_filter, List.mem_map, bne_iff_ne]
  exact and_comm

namespace Exclusions

/-- Every way of giving exclusions comes down to a list of items. -/
theorem exists_names_eq (exclusions : Exclusions) :
    ∃ items, exclusions.names = exclusionNames items := by
  cases exclusions with
  | none => exact ⟨[], rfl⟩
  | written text => exact ⟨_, rfl⟩
  | listed items => exact ⟨items, rfl⟩

theorem nodup_names (exclusions : Exclusions) : exclusions.names.Nodup := by
  obtain ⟨items, h⟩ := exclusions.exists_names_eq
  rw [h]
  exact nodup_distinct _

theorem trim_of_mem_names {exclusions : Exclusions} {event : String}
    (h : event ∈ exclusions.names) : trim event.toList = event.toList := by
  obtain ⟨items, hitems⟩ := exclusions.exists_names_eq
  rw [hitems] at h
  obtain ⟨-, item, -, rfl⟩ := mem_exclusionNames.mp h
  rw [String.toList_ofList, trim_trim]

example : (written "a, b,,a ").names = ["a", "b"] := by decide +kernel

end Exclusions

theorem reduction_returns {t : List Char} {m : Module} {events : List String}
    (h : reduction t m = .ok events) : events ≠ [] ∧ events.Nodup := by
  rw [reduction] at h
  split at h
  · cases h
  · rename_i hne
    cases h
    refine ⟨fun hnil => hne ?_, nodup_distinct _⟩
    rw [List.isEmpty_iff, ← List.map_eq_nil_iff (f := String.ofList), List.eq_nil_iff_forall_not_mem]
    intro event hevent
    rw [← mem_distinct, hnil] at hevent
    cases hevent

/-- The supported events are distinct, and there is at least one. -/
theorem resolveEvents_returns (project : Project) (tree : Tree) (e : List Char) (m : Module)
    (seen : List Link) :
    Returns (resolveEvents project tree e m seen) fun events => events ≠ [] ∧ events.Nodup := by
  intro cache events after h
  obtain ⟨t, target, -, -, hreduced⟩ := reaches_of_outcome_eventsWithin h
  exact reduction_returns hreduced

section Applying

variable {events excluded remaining : List String}

theorem applyExclusions_eq :
    applyExclusions events excluded =
      if ∃ event ∈ excluded, event ∉ events then
        .error (.unknownExcludedEvents (excluded.filter (· ∉ events)) events)
      else if ∀ event ∈ events, event ∈ excluded then .error (.noEventsLeft excluded)
      else .ok (events.filter (· ∉ excluded)) := by
  have hunknown : (!(excluded.filter fun event => !events.contains event).isEmpty) =
      decide (∃ event ∈ excluded, event ∉ events) := by
    rw [Bool.eq_iff_iff]
    simp
  have hcovered : (events.filter fun event => !excluded.contains event).isEmpty =
      decide (∀ event ∈ events, event ∈ excluded) := by
    rw [Bool.eq_iff_iff]
    simp
  simp only [applyExclusions, hunknown, hcovered, decide_eq_true_eq]
  simp

theorem applyExclusions_of_unknown (unknown : ∃ event ∈ excluded, event ∉ events) :
    applyExclusions events excluded =
      .error (.unknownExcludedEvents (excluded.filter (· ∉ events)) events) := by
  rw [applyExclusions_eq, if_pos unknown]

theorem applyExclusions_of_covered (known : ∀ event ∈ excluded, event ∈ events)
    (covered : ∀ event ∈ events, event ∈ excluded) :
    applyExclusions events excluded = .error (.noEventsLeft excluded) := by
  rw [applyExclusions_eq, if_neg (by simpa using known), if_pos covered]

/-- Exclusions can be applied if they are all events and leave one; what is left keeps its
order. -/
theorem applyExclusions_eq_ok_iff :
    applyExclusions events excluded = .ok remaining ↔
      (∀ event ∈ excluded, event ∈ events) ∧ (∃ event ∈ events, event ∉ excluded) ∧
        remaining = events.filter (· ∉ excluded) := by
  rw [applyExclusions_eq]
  split
  · rename_i unknown
    exact ⟨nofun, fun ⟨known, _⟩ => absurd known (by simpa using unknown)⟩
  rename_i known
  split
  · rename_i covered
    exact ⟨nofun, fun ⟨_, left, _⟩ => absurd covered (by simpa using left)⟩
  rename_i left
  rw [Except.ok.injEq, eq_comm]
  exact ⟨fun h => ⟨by simpa using known, by simpa using left, h⟩, fun h => h.2.2⟩

end Applying

end PluginContract.Contract
