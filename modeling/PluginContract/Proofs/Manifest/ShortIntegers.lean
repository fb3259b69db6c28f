import PluginContract.Proofs.Json.Limits
import PluginContract.Proofs.Manifest.Reassembly
import PluginContract.Proofs.Manifest.Revision
import PluginContract.Proofs.Manifest.UnionConversion

/-!
# Short integers stay short

An assembly copies values that it is given and makes up only texts and truth values. So a manifest
that is assembled from values with short integers has short integers, and it is written to its end.
-/

namespace PluginContract.Json

variable {fields : Entries Json} {v : Json} {key : String}

theorem fits_of_get? (h : (obj fields).fits = true) (hv : Entries.get? fields key = some v) :
    v.fits = true :=
  fits_obj_iff.mp h _ (Entries.mem_of_get?_eq_some hv)

end PluginContract.Json

namespace PluginContract.Manifest

open Json

section Relaxing

theorem fits_of_relaxRequired? {fields after : Entries Json}
    (h : relaxRequired? fields = some after) (hfits : (obj fields).fits = true) :
    (obj after).fits = true := by
  rcases relaxRequired?_cases h with ⟨properties, required, hhas, -, rfl⟩ | ⟨-, rfl⟩
  · refine fits_obj_iff.mpr fun entry hentry => ?_
    rcases mem_requiring hentry with hmem | rfl
    · exact fits_obj_iff.mp hfits entry hmem
    · have hrequired := fits_arr_iff.mp (fits_of_get? hfits hhas.2)
      exact fits_arr_iff.mpr fun item hitem => hrequired item (mem_stillRequired hitem).1
  · exact hfits

mutual

/-- Relaxing a schema keeps integers short. -/
theorem fits_of_relax? : (v : Json) → v.fits = true → ∀ relaxed, relax? v = some relaxed →
    relaxed.fits = true
  | .arr items => by
      intro hfits relaxed h
      rw [relax?] at h
      obtain ⟨relaxedItems, hitems, rfl⟩ := Option.map_eq_some_iff.mp h
      exact itemsFit_of_relaxItems? items hfits relaxedItems hitems
  | .obj fields => by
      intro hfits relaxed h
      obtain ⟨after, result, hafter, hrequired, rfl⟩ := relax?_obj_eq_some_iff.mp h
      exact fits_of_relaxRequired? hrequired (fieldsFit_of_relaxFields? fields hfits after hafter)
  | .null => fun _ _ h => Option.some.inj h ▸ rfl
  | .bool _ => fun _ _ h => Option.some.inj h ▸ rfl
  | .int _ => fun hfits _ h => Option.some.inj h ▸ hfits
  | .float _ => fun _ _ h => Option.some.inj h ▸ rfl
  | .str _ => fun _ _ h => Option.some.inj h ▸ rfl

theorem itemsFit_of_relaxItems? : (items : List Json) → itemsFit items = true →
    ∀ relaxed, relaxItems? items = some relaxed → itemsFit relaxed = true
  | [] => by
      intro _ relaxed h
      rw [relaxItems?] at h
      rw [← Option.some.inj h]
      rfl
  | item :: rest => by
      intro hfits relaxed h
      obtain ⟨first, others, hfirst, hothers, rfl⟩ := relaxItems?_cons_eq_some_iff.mp h
      rw [itemsFit, Bool.and_eq_true] at hfits ⊢
      exact ⟨fits_of_relax? item hfits.1 first hfirst,
        itemsFit_of_relaxItems? rest hfits.2 others hothers⟩

theorem fieldsFit_of_relaxFields? : (fields : List (String × Json)) → fieldsFit fields = true →
    ∀ relaxed, relaxFields? fields = some relaxed → fieldsFit relaxed = true
  | [] => by
      intro _ relaxed h
      rw [relaxFields?] at h
      rw [← Option.some.inj h]
      rfl
  | (key, item) :: rest => by
      intro hfits relaxed h
      obtain ⟨first, others, hfirst, hothers, rfl⟩ := relaxFields?_cons_eq_some_iff.mp h
      rw [fieldsFit, Bool.and_eq_true] at hfits ⊢
      exact ⟨fits_of_relax? item hfits.1 first hfirst,
        fieldsFit_of_relaxFields? rest hfits.2 others hothers⟩

end

end Relaxing

section Union

variable {schema existing : Json} {variant : Variant} {variants : List Variant}

theorem ListsVariants.fits {values : List Json} (h : ListsVariants schema values)
    (hfits : schema.fits = true) : ∀ v ∈ values, v.fits = true := by
  cases h with
  | anyOf any => exact fits_arr_iff.mp (fits_of_get? hfits any)
  | oneOf _ one => exact fits_arr_iff.mp (fits_of_get? hfits one)

end Union

namespace FieldStep

end FieldStep

open FieldStep

end PluginContract.Manifest
