import PluginContract.Proofs.Entries
import PluginContract.Proofs.Json.Limits
import PluginContract.Proofs.Json.ReaderSteps
import PluginContract.Proofs.Json.Strings

/-!
# Layouts of JSON text

Compact text and text on indented lines differ in the blanks between tokens only. A layout
says which blanks stand where; the reader takes the text of a value in any layout back to
the value, if no object in it repeats a key, no number in it is a floating-point one and all its
integers are short.
-/

namespace PluginContract.Json

open Reader

/-- The blanks of a text: before an item and before a closing bracket at a level, and after
a colon. -/
structure Layout where
  newLine : Nat → List Char
  space : List Char
  isGap_newLine : ∀ level, ∀ c ∈ newLine level, isGap c = true
  isGap_space : ∀ c ∈ space, isGap c = true

namespace Layout

mutual

/-- The text of a value at a level. -/
def text (layout : Layout) (level : Nat) : Json → List Char
  | arr [] => ['[', ']']
  | arr (item :: rest) =>
      '[' :: (layout.newLine (level + 1) ++ (layout.text (level + 1) item ++
        layout.itemsText (level + 1) rest (layout.newLine level ++ [']'])))
  | obj [] => ['{', '}']
  | obj ((key, item) :: rest) =>
      '{' :: (layout.newLine (level + 1) ++ (quoted key ++ ':' :: (layout.space ++
        (layout.text (level + 1) item ++
          layout.fieldsText (level + 1) rest (layout.newLine level ++ ['}'])))))
  | null => atomText null
  | bool value => atomText (bool value)
  | int value => atomText (int value)
  | float value => atomText (float value)
  | str value => atomText (str value)

/-- The items after the first one, before what closes them. -/
def itemsText (layout : Layout) (level : Nat) : List Json → List Char → List Char
  | [], close => close
  | item :: rest, close =>
      ',' :: (layout.newLine level ++ (layout.text level item ++
        layout.itemsText level rest close))

/-- The fields after the first one, before what closes them. -/
def fieldsText (layout : Layout) (level : Nat) : List (String × Json) → List Char → List Char
  | [], close => close
  | (key, item) :: rest, close =>
      ',' :: (layout.newLine level ++ (quoted key ++ ':' :: (layout.space ++
        (layout.text level item ++ layout.fieldsText level rest close))))

end

end Layout

/-- A value without floating-point numbers in which no object repeats a key. -/
inductive Plain : Json → Prop
  | null : Plain null
  | bool (value : Bool) : Plain (bool value)
  | int (value : Int) : Plain (int value)
  | str (value : String) : Plain (str value)
  | arr {items : List Json} (items_plain : ∀ item ∈ items, Plain item) : Plain (arr items)
  | obj {fields : List (String × Json)} (nodup_keys : (Entries.keys fields).Nodup)
      (fields_plain : ∀ field ∈ fields, Plain field.2) : Plain (obj fields)

theorem isGap_of_isDigit {c : Char} (h : isDigit c = true) : isGap c = false ∧ c ≠ ']' := by
  constructor
  · apply Bool.eq_false_iff.mpr
    intro hgap
    simp only [isGap, Bool.or_eq_true, beq_iff_eq] at hgap
    rcases hgap with ((rfl | rfl) | rfl) | rfl <;> cases h
  · rintro rfl
    cases h

theorem endsNumber_append_gap {gap t : List Char} (hgap : ∀ c ∈ gap, isGap c = true)
    (h : EndsNumber t) : EndsNumber (gap ++ t) := by
  cases gap with
  | nil => exact h
  | cons c gap =>
      rintro d ⟨⟩
      have hc := hgap c List.mem_cons_self
      simp only [isGap, Bool.or_eq_true, beq_iff_eq] at hc
      rcases hc with ((rfl | rfl) | rfl) | rfl <;> decide

theorem endsNumber_cons {c : Char} (h : c = ',' ∨ c = ']' ∨ c = '}') (t : List Char) :
    EndsNumber (c :: t) := by
  rintro d ⟨⟩
  rcases h with rfl | rfl | rfl <;> decide

namespace Layout

variable (layout : Layout)

theorem itemsText_append (level : Nat) (items : List Json) (close t : List Char) :
    layout.itemsText level items close ++ t = layout.itemsText level items (close ++ t) := by
  induction items with
  | nil => rfl
  | cons item items ih => simp [itemsText, ih]

theorem fieldsText_append (level : Nat) (fields : List (String × Json)) (close t : List Char) :
    layout.fieldsText level fields close ++ t = layout.fieldsText level fields (close ++ t) := by
  induction fields with
  | nil => rfl
  | cons field fields ih => simp [fieldsText, ih]

/-- The text of a value starts with no blank and no closing bracket. -/
theorem exists_text_eq_cons {v : Json} (hv : Plain v) (level : Nat) :
    ∃ c t, layout.text level v = c :: t ∧ isGap c = false ∧ c ≠ ']' := by
  cases hv with
  | null => exact ⟨'n', _, rfl, rfl, by decide⟩
  | bool value =>
      cases value with
      | false => exact ⟨'f', _, rfl, rfl, by decide⟩
      | true => exact ⟨'t', _, rfl, rfl, by decide⟩
  | int value =>
      obtain ⟨c, more, heq, hc⟩ := exists_integerText_eq_cons value
      refine ⟨c, more, heq, ?_⟩
      rcases hc with rfl | hc
      · exact ⟨rfl, by decide⟩
      · exact isGap_of_isDigit hc
  | str value => exact ⟨'"', _, rfl, rfl, by decide⟩
  | @arr items _ =>
      cases items with
      | nil => exact ⟨'[', _, rfl, rfl, by decide⟩
      | cons item rest => exact ⟨'[', _, rfl, rfl, by decide⟩
  | @obj fields _ _ =>
      cases fields with
      | nil => exact ⟨'{', _, rfl, rfl, by decide⟩
      | cons field rest => exact ⟨'{', _, rfl, rfl, by decide⟩

theorem skipGap_append_text {v : Json} (hv : Plain v) {gap : List Char}
    (hgap : ∀ c ∈ gap, isGap c = true) (level : Nat) (t : List Char) :
    skipGap (gap ++ (layout.text level v ++ t)) = layout.text level v ++ t := by
  obtain ⟨c, more, heq, hc, -⟩ := layout.exists_text_eq_cons hv level
  rw [skipGap_append hgap, heq, List.cons_append, skipGap_cons_of_not_isGap hc]

/-- Whether the reader takes the text of a value back to it, with fuel for its length. -/
def Readable (v : Json) : Prop :=
  ∀ level fuel t, EndsNumber t → (layout.text level v).length ≤ fuel →
    value? fuel (layout.text level v ++ t) = .ok (v, t)

variable {layout}

theorem exists_fuel_eq {v : Json} (hv : Plain v) {level fuel : Nat}
    (hfuel : (layout.text level v).length ≤ fuel) : ∃ fuel', fuel = fuel' + 1 := by
  obtain ⟨c, t, heq, -⟩ := layout.exists_text_eq_cons hv level
  rw [heq, List.length_cons] at hfuel
  exact Nat.exists_eq_add_one_of_ne_zero (by omega)

theorem items?_text {item : Json} {rest : List Json} {gap : List Char}
    (hplain : ∀ item ∈ rest, Plain item) (hitem : layout.Readable item)
    (hrest : ∀ item ∈ rest, layout.Readable item) (hgap : ∀ c ∈ gap, isGap c = true)
    (level : Nat) (t : List Char) {fuel : Nat}
    (hfuel : (layout.text level item ++
      layout.itemsText level rest (gap ++ [']'])).length ≤ fuel) :
    Reader.items? fuel (layout.text level item ++ layout.itemsText level rest (gap ++ ']' :: t)) =
      .ok (item :: rest, t) := by
  induction rest generalizing item fuel with
  | nil =>
      simp only [itemsText, List.length_append, List.length_singleton] at hfuel ⊢
      obtain ⟨fuel, rfl⟩ := Nat.exists_eq_add_one_of_ne_zero (n := fuel) (by omega)
      have hend : EndsNumber (gap ++ ']' :: t) :=
        endsNumber_append_gap hgap (endsNumber_cons (Or.inr (Or.inl rfl)) t)
      apply items?_last (hitem level fuel _ hend (by omega))
      rw [skipGap_append hgap, skipGap_cons_of_not_isGap rfl]
  | cons next rest ih =>
      obtain ⟨hnext, hplain⟩ := List.forall_mem_cons.mp hplain
      obtain ⟨hread, hrest⟩ := List.forall_mem_cons.mp hrest
      simp only [itemsText, List.length_append, List.length_cons] at hfuel ⊢
      obtain ⟨fuel, rfl⟩ := Nat.exists_eq_add_one_of_ne_zero (n := fuel) (by omega)
      have hend := endsNumber_cons (Or.inl rfl) (layout.newLine level ++ (layout.text level next ++
        layout.itemsText level rest (gap ++ ']' :: t)))
      have hvalue := hitem level fuel _ hend (by omega)
      rw [items?_more hvalue (skipGap_cons_of_not_isGap rfl _),
        layout.skipGap_append_text hnext (layout.isGap_newLine level), ih hplain hread hrest]
      · rfl
      · rw [List.length_append]
        omega

/-- A value after a colon is read. -/
theorem value?_space {v : Json} (hv : Plain v) (hread : layout.Readable v) (level fuel : Nat)
    {t : List Char} (ht : EndsNumber t) (hfuel : (layout.text level v).length ≤ fuel) :
    value? fuel (skipGap (layout.space ++ (layout.text level v ++ t))) = .ok (v, t) := by
  rw [layout.skipGap_append_text hv layout.isGap_space]
  exact hread level fuel t ht hfuel

theorem members?_text {key : String} {item : Json} {rest : List (String × Json)}
    {gap : List Char} (hplain : ∀ field ∈ (key, item) :: rest, Plain field.2)
    (hread : ∀ field ∈ (key, item) :: rest, layout.Readable field.2)
    (hgap : ∀ c ∈ gap, isGap c = true) (level : Nat) (t : List Char) {fuel : Nat}
    (hfuel : (quoted key ++ ':' :: (layout.space ++ (layout.text level item ++
      layout.fieldsText level rest (gap ++ ['}'])))).length ≤ fuel) :
    members? fuel (quoted key ++ ':' :: (layout.space ++ (layout.text level item ++
      layout.fieldsText level rest (gap ++ '}' :: t)))) = .ok ((key, item) :: rest, t) := by
  induction rest generalizing key item fuel with
  | nil =>
      have hitem : layout.Readable item := hread _ List.mem_cons_self
      have hfirst : Plain item := hplain _ List.mem_cons_self
      simp only [fieldsText, List.length_append, List.length_cons] at hfuel ⊢
      obtain ⟨fuel, rfl⟩ := Nat.exists_eq_add_one_of_ne_zero (n := fuel) (by omega)
      have hend : EndsNumber (gap ++ '}' :: t) :=
        endsNumber_append_gap hgap (endsNumber_cons (Or.inr (Or.inr rfl)) t)
      have hvalue := value?_space hfirst hitem level fuel hend (by omega)
      apply members?_last (string?_quoted key _) (skipGap_cons_of_not_isGap rfl _) hvalue
      rw [skipGap_append hgap, skipGap_cons_of_not_isGap rfl]
  | cons next rest ih =>
      obtain ⟨nextKey, next⟩ := next
      obtain ⟨hfirst, hplain⟩ := List.forall_mem_cons.mp hplain
      obtain ⟨hitem, hread⟩ := List.forall_mem_cons.mp hread
      dsimp only at hfirst hitem
      simp only [fieldsText, List.length_append, List.length_cons] at hfuel ⊢
      obtain ⟨fuel, rfl⟩ := Nat.exists_eq_add_one_of_ne_zero (n := fuel) (by omega)
      have hend := endsNumber_cons (Or.inl rfl) (layout.newLine level ++ (quoted nextKey ++
        ':' :: (layout.space ++ (layout.text level next ++
          layout.fieldsText level rest (gap ++ '}' :: t)))))
      have hvalue := value?_space hfirst hitem level fuel hend (by omega)
      have hquote (t : List Char) : skipGap (layout.newLine level ++ (quoted nextKey ++ t)) =
          quoted nextKey ++ t := by
        rw [skipGap_append (layout.isGap_newLine level)]
        rfl
      rw [members?_more (string?_quoted key _) (skipGap_cons_of_not_isGap rfl _) hvalue
        (skipGap_cons_of_not_isGap rfl _), hquote, ih hplain hread]
      · rfl
      · simp only [List.length_append, List.length_cons]
        omega

theorem readable_arr {items : List Json} (hplain : ∀ item ∈ items, Plain item)
    (hread : ∀ item ∈ items, layout.Readable item) : layout.Readable (arr items) := by
  intro level fuel t _ hfuel
  obtain ⟨fuel, rfl⟩ := exists_fuel_eq (.arr hplain) hfuel
  cases items with
  | nil => rfl
  | cons item rest =>
      obtain ⟨hfirst, hplain⟩ := List.forall_mem_cons.mp hplain
      obtain ⟨hitem, hread⟩ := List.forall_mem_cons.mp hread
      have hgap := layout.isGap_newLine level
      have htext : layout.text level (arr (item :: rest)) ++ t =
          '[' :: (layout.newLine (level + 1) ++ (layout.text (level + 1) item ++
            layout.itemsText (level + 1) rest (layout.newLine level ++ ']' :: t))) := by
        simp [text, itemsText_append]
      obtain ⟨c, more, heq, -, hc⟩ := layout.exists_text_eq_cons hfirst (level + 1)
      have hskip := layout.skipGap_append_text hfirst (layout.isGap_newLine (level + 1)) (level + 1)
        (layout.itemsText (level + 1) rest (layout.newLine level ++ ']' :: t))
      rw [htext, value?_arr (hskip.trans (by rw [heq, List.cons_append])) hc, ← List.cons_append,
        ← heq, items?_text hplain hitem hread hgap]
      · rfl
      · simp only [text, List.length_cons, List.length_append] at hfuel ⊢
        omega

theorem readable_obj {fields : List (String × Json)} (hkeys : (Entries.keys fields).Nodup)
    (hplain : ∀ field ∈ fields, Plain field.2)
    (hread : ∀ field ∈ fields, layout.Readable field.2) : layout.Readable (obj fields) := by
  intro level fuel t _ hfuel
  obtain ⟨fuel, rfl⟩ := exists_fuel_eq (.obj hkeys hplain) hfuel
  cases fields with
  | nil => rfl
  | cons field rest =>
      obtain ⟨key, item⟩ := field
      have hgap := layout.isGap_newLine level
      have htext : layout.text level (obj ((key, item) :: rest)) ++ t =
          '{' :: (layout.newLine (level + 1) ++ (quoted key ++ ':' :: (layout.space ++
            (layout.text (level + 1) item ++
              layout.fieldsText (level + 1) rest (layout.newLine level ++ '}' :: t))))) := by
        simp [text, fieldsText_append]
      have hskip (t : List Char) : skipGap (layout.newLine (level + 1) ++ (quoted key ++ t)) =
          '"' :: ((key.toList.flatMap escaped ++ ['"']) ++ t) := by
        rw [skipGap_append (layout.isGap_newLine (level + 1))]
        rfl
      rw [htext, value?_obj (hskip _) (by decide)]
      have hlength : (quoted key ++ ':' :: (layout.space ++ (layout.text (level + 1) item ++
          layout.fieldsText (level + 1) rest (layout.newLine level ++ ['}'])))).length ≤ fuel := by
        simp only [text, List.length_cons, List.length_append] at hfuel ⊢
        omega
      have hmembers := members?_text hplain hread hgap (level + 1) t hlength
      refine (congrArg (Except.map _) hmembers).trans ?_
      rw [Except.map, Entries.ofPairs_eq_self hkeys]

theorem value?_integerText {n : Int} (hn : isShort n = true) (fuel : Nat) {t : List Char}
    (ht : EndsNumber t) : value? (fuel + 1) (integerText n ++ t) = .ok (.int n, t) := by
  have hread := atom?_integerText hn ht
  obtain ⟨c, more, heq, hc⟩ := exists_integerText_eq_cons n
  rw [heq, List.cons_append] at hread ⊢
  rw [value?_atom _ _ _, hread]
  all_goals
    rintro rfl
    rcases hc with hc | hc <;> cases hc

/-- The reader takes the text of a plain value in any layout back to the value. -/
theorem readable_of_plain {v : Json} (h : Plain v) (hfits : v.fits = true) :
    layout.Readable v := by
  induction h with
  | null =>
      intro level fuel t _ hfuel
      obtain ⟨fuel, rfl⟩ := exists_fuel_eq .null hfuel
      rfl
  | bool value =>
      intro level fuel t _ hfuel
      obtain ⟨fuel, rfl⟩ := exists_fuel_eq (.bool value) hfuel
      cases value <;> rfl
  | int value =>
      intro level fuel t ht hfuel
      obtain ⟨fuel, rfl⟩ := exists_fuel_eq (.int value) hfuel
      rw [fits] at hfits
      exact value?_integerText hfits fuel ht
  | str value =>
      intro level fuel t _ hfuel
      obtain ⟨fuel, rfl⟩ := exists_fuel_eq (.str value) hfuel
      exact value?_str (string?_quoted value t) fuel
  | arr items_plain ih =>
      have hitems := fits_arr_iff.mp hfits
      exact readable_arr items_plain fun item hmem => ih item hmem (hitems item hmem)
  | obj nodup_keys fields_plain ih =>
      have hfields := fits_obj_iff.mp hfits
      exact readable_obj nodup_keys fields_plain fun field hmem => ih field hmem (hfields field hmem)

/-- A text is read back also with blanks after it. -/
theorem read?_text_append {v : Json} (h : Plain v) (hfits : v.fits = true) (level : Nat)
    {gap : List Char} (hgap : ∀ c ∈ gap, isGap c = true) :
    read? (layout.text level v ++ gap) = .ok v := by
  have hlayout : layout.Readable v := readable_of_plain h hfits
  have hend : EndsNumber gap := by
    have hnil : EndsNumber (gap ++ []) := endsNumber_append_gap hgap (by rintro c ⟨⟩)
    rwa [List.append_nil] at hnil
  have hread := hlayout level (2 * (layout.text level v ++ gap).length + 2) gap hend
    (by rw [List.length_append]; omega)
  have hnone : ∀ c ∈ ([] : List Char), isGap c = true := by simp
  have hskip := layout.skipGap_append_text h hnone level gap
  rw [List.nil_append] at hskip
  have hrest : skipGap gap = [] := by
    have hnil := skipGap_append hgap []
    rwa [List.append_nil] at hnil
  rw [read?, hskip, hread]
  dsimp only
  rw [hrest]
  rfl

theorem read?_text {v : Json} (h : Plain v) (hfits : v.fits = true) (level : Nat) :
    read? (layout.text level v) = .ok v := by
  have hread : read? (layout.text level v ++ []) = .ok v :=
    read?_text_append h hfits level (by simp)
  rwa [List.append_nil] at hread

end Layout

end PluginContract.Json
