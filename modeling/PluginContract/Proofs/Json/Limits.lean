import PluginContract.Proofs.Json.Numbers

/-!
# Values with short integers

A value on indented lines is printed as a whole if and only if all its integers are short. Otherwise
printing breaks off at the first one that is not.
-/

namespace PluginContract.Json

theorem itemsFit_iff {items : List Json} :
    itemsFit items = true ↔ ∀ item ∈ items, item.fits = true := by
  induction items with
  | nil => simp [itemsFit]
  | cons item rest ih => rw [itemsFit, Bool.and_eq_true, ih, List.forall_mem_cons]

theorem fieldsFit_iff {fields : List (String × Json)} :
    fieldsFit fields = true ↔ ∀ field ∈ fields, field.2.fits = true := by
  induction fields with
  | nil => simp [fieldsFit]
  | cons field rest ih => rw [fieldsFit, Bool.and_eq_true, ih, List.forall_mem_cons]

theorem fits_arr_iff {items : List Json} :
    (arr items).fits = true ↔ ∀ item ∈ items, item.fits = true := by
  rw [fits, itemsFit_iff]

theorem fits_obj_iff {fields : List (String × Json)} :
    (obj fields).fits = true ↔ ∀ field ∈ fields, field.2.fits = true := by
  rw [fits, fieldsFit_iff]

namespace Printout

variable (w next : Printout) (s t : List Char)

@[simp] theorem whole_all : (all s).whole = true := rfl

@[simp] theorem whole_andThen : (w.andThen next).whole = (w.whole && next.whole) := by
  unfold andThen
  cases hw : w.whole <;> simp [hw]

@[simp] theorem all_andThen_all : (all s).andThen (all t) = all (s ++ t) := rfl

end Printout

/-- What is read as a single token has no long integer. -/
theorem fits_of_atom? {t rest : List Char} {v : Json} (h : Reader.atom? t = .ok (v, rest)) :
    v.fits = true := by
  cases readsAtom_of_atom? h with
  | @constant word known starts =>
      have hwords : ∀ entry ∈ atomConstants, entry.2.fits = true := by decide
      exact hwords (word, v) known
  | negative starts number =>
      cases readsNumber_of_number? number with
      | int short length => exact short
      | float value length => rfl
  | number number =>
      cases readsNumber_of_number? number with
      | int short length => exact short
      | float value length => rfl

mutual

/-- A value is printed as a whole if and only if its integers are short. -/
theorem whole_printed (level : Nat) (held : List Char) :
    (v : Json) → (printed level held v).whole = v.fits
  | arr [] => rfl
  | arr (item :: rest) => by
      simp [printed, fits, itemsFit, whole_printed _ _ item, whole_printedItems _ rest]
  | obj [] => rfl
  | obj ((key, item) :: rest) => by
      simp [printed, fits, fieldsFit, whole_printed _ _ item, whole_printedFields _ rest]
  | int value => by
      rw [printed, fits]
      cases isShort value <;> rfl
  | null => rfl
  | bool _ => rfl
  | float _ => rfl
  | str _ => rfl

theorem whole_printedItems (level : Nat) :
    (items : List Json) → (printedItems level items).whole = itemsFit items
  | [] => rfl
  | item :: rest => by
      simp [printedItems, itemsFit, whole_printed _ _ item, whole_printedItems _ rest]

theorem whole_printedFields (level : Nat) :
    (fields : List (String × Json)) → (printedFields level fields).whole = fieldsFit fields
  | [] => rfl
  | (key, item) :: rest => by
      simp [printedFields, fieldsFit, whole_printed _ _ item, whole_printedFields _ rest]

end

mutual

/-- What is printed as a whole is the text of the value. -/
theorem printed_eq (level : Nat) (held : List Char) :
    (v : Json) → v.fits = true → printed level held v = .all (held ++ indented level v)
  | arr [] => fun _ => rfl
  | arr (item :: rest) => fun h => by
      rw [fits, itemsFit, Bool.and_eq_true] at h
      rw [printed, printed_eq _ _ item h.1, printedItems_eq _ rest h.2]
      simp [indented]
  | obj [] => fun _ => rfl
  | obj ((key, item) :: rest) => fun h => by
      rw [fits, fieldsFit, Bool.and_eq_true] at h
      rw [printed, printed_eq _ _ item h.1, printedFields_eq _ rest h.2]
      simp [indented]
  | int value => fun h => by
      rw [fits] at h
      rw [printed, if_pos h]
      rfl
  | null => fun _ => rfl
  | bool _ => fun _ => rfl
  | float _ => fun _ => rfl
  | str _ => fun _ => rfl

theorem printedItems_eq (level : Nat) :
    (items : List Json) → itemsFit items = true →
      printedItems level items = .all (indentedItems level items)
  | [] => fun _ => rfl
  | item :: rest => fun h => by
      rw [itemsFit, Bool.and_eq_true] at h
      rw [printedItems, printed_eq _ _ item h.1, printedItems_eq _ rest h.2]
      simp [indentedItems]

theorem printedFields_eq (level : Nat) :
    (fields : List (String × Json)) → fieldsFit fields = true →
      printedFields level fields = .all (indentedFields level fields)
  | [] => fun _ => rfl
  | (key, item) :: rest => fun h => by
      rw [fieldsFit, Bool.and_eq_true] at h
      rw [printedFields, printed_eq _ _ item h.1, printedFields_eq _ rest h.2]
      simp [indentedFields]

end

end PluginContract.Json
