import PluginContract.Loading.Payload
import PluginContract.Proofs.Entries

/-!
# Picking exports

A name is picked from the exports themselves or, only if they lack it, from an object under
`default`. The `default` that is picked along with other names is the one of the exports, so picking
from what was picked finds the same values again.
-/

namespace PluginContract.Loading

/-- Whether exports offer a value under a name, directly or, failing that, in an object under
`default`. -/
inductive Offers (exports : Entries Json) (name : String) (value : Json) : Prop
  | direct (there : exports.get? name = some value)
  | byDefault {fallback : Entries Json} (missing : exports.get? name = none)
      (default : exports.get? "default" = some (.obj fallback))
      (there : fallback.get? name = some value)

/-- Whether entries are what exports offer under some names, each name once and in the order in
which the names first appear. -/
structure Picks (exports : Entries Json) (names : List String) (picked : Entries Json) : Prop where
  mem_iff : ∀ name value, (name, value) ∈ picked ↔ name ∈ names ∧ Offers exports name value
  ordered : picked.keys.Pairwise fun a b => names.idxOf a < names.idxOf b
  settled : pickExports (.obj picked) names = picked

/-- The value that exports offer under a name. -/
def offered? (exports : Entries Json) (name : String) : Option Json :=
  (exports.get? name).orElse fun _ =>
    Entries.get? ((Json.field exports "default").fields?.getD []) name

section

variable {exports : Entries Json} {names : List String} {name : String} {value : Json}

theorem pickExports_obj (exports : Entries Json) (names : List String) :
    pickExports (.obj exports) names = Entries.found (offered? exports) names := rfl

theorem offered?_of_direct (h : exports.get? name = some value) :
    offered? exports name = some value := by
  rw [offered?, h]
  rfl

theorem offered?_of_missing (h : exports.get? name = none) :
    offered? exports name =
      Entries.get? ((Json.field exports "default").fields?.getD []) name := by
  rw [offered?, h]
  rfl

theorem offered?_eq_some_iff : offered? exports name = some value ↔ Offers exports name value := by
  constructor
  · intro h
    cases hdirect : exports.get? name with
    | some found =>
        rw [offered?_of_direct hdirect] at h
        exact .direct (hdirect.trans h)
    | none =>
        rw [offered?_of_missing hdirect, Json.field] at h
        cases hdefault : exports.get? "default" with
        | none =>
            rw [hdefault] at h
            cases h
        | some fallback =>
            rw [hdefault, Option.getD_some] at h
            cases fallback with
            | obj fields => exact .byDefault hdirect hdefault h
            | _ => cases h
  · rintro (hdirect | ⟨hmissing, hdefault, hthere⟩)
    · exact offered?_of_direct hdirect
    · rw [offered?_of_missing hmissing, Json.field, hdefault]
      exact hthere

/-- An object under `default` is never found in itself. -/
theorem offered?_default (exports : Entries Json) :
    offered? exports "default" = exports.get? "default" := by
  cases hdefault : exports.get? "default" with
  | some value => exact offered?_of_direct hdefault
  | none =>
      rw [offered?_of_missing hdefault, Json.field, hdefault]
      rfl

/-- Picking from what was picked changes nothing. -/
theorem pickExports_pickExports (exports : Entries Json) (names : List String) :
    pickExports (.obj (pickExports (.obj exports) names)) names =
      pickExports (.obj exports) names := by
  rw [pickExports_obj exports, pickExports_obj]
  refine Entries.found_congr fun name hname => ?_
  have hpicked (key : String) (hkey : key ∈ names) :
      (Entries.found (offered? exports) names).get? key = offered? exports key := by
    rw [Entries.get?_found, if_pos hkey]
  cases hoffered : offered? exports name with
  | some value => exact offered?_of_direct ((hpicked name hname).trans hoffered)
  | none =>
      have hmissing : exports.get? name = none := by
        by_contra h
        obtain ⟨value, hvalue⟩ := Option.ne_none_iff_exists'.mp h
        rw [offered?_of_direct hvalue] at hoffered
        cases hoffered
      rw [offered?_of_missing ((hpicked name hname).trans hoffered)]
      rw [offered?_of_missing hmissing] at hoffered
      -- either the same `default` was picked or none
      by_cases hdefault : "default" ∈ names
      · rwa [Json.field, hpicked _ hdefault, offered?_default, ← Json.field]
      · rw [Json.field, Entries.get?_found, if_neg hdefault]
        rfl

theorem picks_pickExports (exports : Entries Json) (names : List String) :
    Picks exports names (pickExports (.obj exports) names) where
  mem_iff name value := by
    rw [pickExports_obj, ← Entries.get?_eq_some_iff (Entries.nodup_keys_found _ _),
      Entries.get?_found, ← offered?_eq_some_iff]
    split
    · rename_i hname
      exact (and_iff_right hname).symm
    · rename_i hname
      exact iff_of_false nofun fun h => hname h.1
  ordered := Entries.pairwise_keys_found _ _
  settled := pickExports_pickExports exports names

end

end PluginContract.Loading
