import PluginContract.Proofs.Json.Layout

/-!
# Printed values are read back

Compact text and text on indented lines are layouts, so the reader takes both back to the
value that was printed, if its integers are short.
-/

namespace PluginContract.Json

open Layout

/-- No blanks at all. -/
def Layout.tight : Layout where
  newLine _ := []
  space := []
  isGap_newLine _ c hc := by cases hc
  isGap_space c hc := by cases hc

/-- Items and fields on lines of their own. -/
def Layout.lined : Layout where
  newLine := Json.newLine
  space := [' ']
  isGap_newLine level c hc := by
    rcases List.mem_cons.mp hc with rfl | hc
    · rfl
    · rw [List.eq_of_mem_replicate hc]
      rfl
  isGap_space c hc := by
    rw [List.mem_singleton.mp hc]
    rfl

theorem compactItems_append {level : Nat} {item : Json} {rest : List Json}
    (h : ∀ v ∈ item :: rest, compact v = tight.text level v) (close : List Char) :
    compactItems (item :: rest) ++ close =
      tight.text level item ++ tight.itemsText level rest close := by
  induction rest generalizing item with
  | nil => rw [compactItems, h item List.mem_cons_self, itemsText]
  | cons next rest ih =>
      obtain ⟨hitem, hrest⟩ := List.forall_mem_cons.mp h
      rw [compactItems, hitem, itemsText, List.append_assoc, List.cons_append, ih hrest]
      · rfl
      · exact List.cons_ne_nil next rest

theorem compactFields_append {level : Nat} {key : String} {item : Json}
    {rest : List (String × Json)}
    (h : ∀ field ∈ (key, item) :: rest, compact field.2 = tight.text level field.2)
    (close : List Char) :
    compactFields ((key, item) :: rest) ++ close =
      quoted key ++ ':' :: (tight.text level item ++ tight.fieldsText level rest close) := by
  induction rest generalizing key item with
  | nil =>
      have hitem : compact item = tight.text level item := h _ List.mem_cons_self
      rw [compactFields, hitem, fieldsText, List.append_assoc, List.cons_append]
  | cons next rest ih =>
      obtain ⟨nextKey, next⟩ := next
      obtain ⟨hitem, hrest⟩ := List.forall_mem_cons.mp h
      dsimp only at hitem
      have hnext := ih hrest
      rw [compactFields, hitem, fieldsText, List.append_assoc, List.cons_append, hnext]
      · simp [tight]
      · exact List.cons_ne_nil _ rest

/-- Compact text is the layout without blanks. -/
theorem compact_eq {v : Json} (h : Plain v) (level : Nat) : compact v = tight.text level v := by
  induction h generalizing level with
  | null => rfl
  | bool value => rfl
  | int value => rfl
  | str value => rfl
  | @arr items _ ih =>
      cases items with
      | nil => rfl
      | cons item rest =>
          have hitems := compactItems_append (fun v hv => ih v hv (level + 1)) [']']
          rw [compact, List.cons_append, hitems]
          rfl
  | @obj fields _ _ ih =>
      cases fields with
      | nil => rfl
      | cons field rest =>
          have hfields := compactFields_append (fun v hv => ih v hv (level + 1)) ['}']
          rw [compact, List.cons_append, hfields]
          rfl

theorem indentedItems_append {level : Nat} {rest : List Json}
    (h : ∀ v ∈ rest, indented level v = lined.text level v) (close : List Char) :
    indentedItems level rest ++ close = lined.itemsText level rest close := by
  induction rest with
  | nil => rfl
  | cons item rest ih =>
      obtain ⟨hitem, hrest⟩ := List.forall_mem_cons.mp h
      rw [indentedItems, hitem, itemsText, ← ih hrest]
      simp [lined]

theorem indentedFields_append {level : Nat} {rest : List (String × Json)}
    (h : ∀ field ∈ rest, indented level field.2 = lined.text level field.2)
    (close : List Char) :
    indentedFields level rest ++ close = lined.fieldsText level rest close := by
  induction rest with
  | nil => rfl
  | cons field rest ih =>
      obtain ⟨key, item⟩ := field
      obtain ⟨hitem, hrest⟩ := List.forall_mem_cons.mp h
      dsimp only at hitem
      rw [indentedFields, hitem, fieldsText, ← ih hrest]
      simp [lined]

/-- Text on indented lines is a layout. -/
theorem indented_eq {v : Json} (h : Plain v) (level : Nat) :
    indented level v = lined.text level v := by
  induction h generalizing level with
  | null => rfl
  | bool value => rfl
  | int value => rfl
  | str value => rfl
  | @arr items _ ih =>
      cases items with
      | nil => rfl
      | cons item rest =>
          obtain ⟨hitem, hrest⟩ := List.forall_mem_cons.mp ih
          have hitems := indentedItems_append (fun v hv => hrest v hv (level + 1))
            (newLine level ++ [']'])
          rw [indented, hitem, List.append_assoc, List.append_assoc, hitems]
          simp [text, lined]
  | @obj fields _ _ ih =>
      cases fields with
      | nil => rfl
      | cons field rest =>
          obtain ⟨key, item⟩ := field
          obtain ⟨hitem, hrest⟩ := List.forall_mem_cons.mp ih
          have hfields := indentedFields_append (fun v hv => hrest v hv (level + 1))
            (newLine level ++ ['}'])
          dsimp only at hitem
          rw [indented, hitem, List.append_assoc, List.append_assoc, hfields]
          simp [text, lined]

/-- Compact text is read back. -/
theorem read?_compact {v : Json} (h : Plain v) (hfits : v.fits = true) :
    read? (compact v) = .ok v := by
  rw [compact_eq h 0]
  exact read?_text h hfits 0

/-- Text on indented lines is read back, also with blanks after it. -/
theorem read?_indented_append {v : Json} (h : Plain v) (hfits : v.fits = true) {gap : List Char}
    (hgap : ∀ c ∈ gap, Reader.isGap c = true) : read? (indented 0 v ++ gap) = .ok v := by
  rw [indented_eq h 0]
  exact read?_text_append h hfits 0 hgap

end PluginContract.Json
