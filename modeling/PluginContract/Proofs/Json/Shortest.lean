import PluginContract.Proofs.Json.Documents
import PluginContract.Proofs.Json.RoundTrip

/-!
# Compact text is shortest

No text that the reader takes to a value is shorter than the compact text of the value, if
no object in it repeats a key and no number in it is a floating-point one.
-/

namespace PluginContract.Json

open Reader

mutual

/-- A number of characters that a text of the value has at least. Floating-point numbers, of
which the reader takes many texts to one, count nothing. -/
def leastLength : Json → Nat
  | arr items => 1 + max 1 (leastLengthItems items)
  | obj fields => 1 + max 1 (leastLengthFields fields)
  | float _ => 0
  | null => (atomText null).length
  | bool value => (atomText (bool value)).length
  | int value => (integerText value).length
  | str value => (quoted value).length

/-- The items, each with the comma or the bracket after it. -/
def leastLengthItems : List Json → Nat
  | [] => 0
  | item :: rest => leastLength item + 1 + leastLengthItems rest

/-- The fields, each with its colon and with the comma or the brace after it. -/
def leastLengthFields : List (String × Json) → Nat
  | [] => 0
  | (key, item) :: rest =>
      (quoted key).length + 1 + (leastLength item + 1) + leastLengthFields rest

end

theorem leastLengthFields_put_le (fields : Entries Json) (key : String) (item : Json) :
    leastLengthFields (fields.put key item) ≤
      (quoted key).length + 1 + (leastLength item + 1) + leastLengthFields fields := by
  induction fields with
  | nil => exact Nat.le_refl _
  | cons field rest ih =>
      obtain ⟨other, value⟩ := field
      rw [Entries.put]
      split
      · rename_i heq
        subst heq
        simp only [leastLengthFields]
        omega
      · simp only [leastLengthFields]
        omega

/-- Keys that come again make an object smaller. -/
theorem leastLengthFields_ofPairs_le (pairs : List (String × Json)) :
    leastLengthFields (Entries.ofPairs pairs) ≤ leastLengthFields pairs := by
  have hfold (start : Entries Json) :
      leastLengthFields
          (pairs.foldl (fun entries pair => Entries.put entries pair.1 pair.2) start) ≤
        leastLengthFields start + leastLengthFields pairs := by
    induction pairs generalizing start with
    | nil => exact Nat.le_refl _
    | cons pair rest ih =>
        obtain ⟨key, item⟩ := pair
        have hput := leastLengthFields_put_le start key item
        have hrest := ih (start.put key item)
        rw [List.foldl_cons, leastLengthFields]
        dsimp only
        omega
  have hpairs := hfold []
  rwa [leastLengthFields, Nat.zero_add] at hpairs

theorem leastLength_number?_le {negative : Bool} {t rest : List Char} {v : Json}
    (h : number? negative t = .ok (v, rest)) :
    leastLength v + rest.length ≤ t.length + if negative then 1 else 0 := by
  cases readsNumber_of_number? h with
  | int short length => exact length
  | float value length =>
      rw [leastLength]
      omega

theorem leastLength_atom?_le {t rest : List Char} {v : Json} (h : atom? t = .ok (v, rest)) :
    leastLength v + rest.length ≤ t.length := by
  cases readsAtom_of_atom? h with
  | @constant word known starts =>
      have hwords : ∀ entry ∈ atomConstants, leastLength entry.2 ≤ entry.1.length := by decide
      have hword := hwords (word, v) known
      rw [starts, List.length_append, String.length_toList]
      exact Nat.add_le_add_right hword _
  | negative starts number =>
      rw [starts]
      exact leastLength_number?_le number
  | number number => exact leastLength_number?_le number

/-- A number of characters that a text of a part has at least. -/
def Part.leastLength : Part → Nat
  | .value w => Json.leastLength w.value
  | .items ws => max 1 (leastLengthItems (writtenItems ws))
  | .member key w => (quoted key.text).length + 1 + Json.leastLength w.value
  | .members ws => max 1 (leastLengthFields (writtenFields ws))

theorem Spelling.length_quoted_le (s : Spelling) : (quoted s.text).length ≤ s.token.length := by
  have hread := s.string?_token []
  rw [List.append_nil] at hread
  simpa using Json.length_quoted_le hread

theorem Lays.leastLength_le {part : Part} {t : List Char} (h : Lays part t) :
    part.leastLength ≤ t.length := by
  induction h with
  | atom a =>
      have hread := a.read [] (by intro c hc; cases hc)
      rw [List.append_nil] at hread
      simpa [Part.leastLength, Written.value] using leastLength_atom?_le hread
  | str s => exact s.length_quoted_le
  | noItems hgap =>
      simp only [Part.leastLength, Written.value, writtenItems, Json.leastLength, leastLengthItems,
        List.length_cons, List.length_append, List.length_nil]
      omega
  | arr hgap h ih =>
      simp only [Part.leastLength, Written.value, Json.leastLength, List.length_cons,
        List.length_append] at ih ⊢
      omega
  | noMembers hgap =>
      simp only [Part.leastLength, Written.value, writtenFields, Json.leastLength, Entries.ofPairs,
        List.foldl_nil, leastLengthFields, List.length_cons, List.length_append, List.length_nil]
      omega
  | @obj gap t members hgap h ih =>
      have hput := leastLengthFields_ofPairs_le (writtenFields members)
      simp only [Part.leastLength, Written.value, Json.leastLength, List.length_cons,
        List.length_append] at ih ⊢
      omega
  | lastItem h hgap ih =>
      simp only [Part.leastLength, writtenItems, leastLengthItems, List.length_append,
        List.length_cons, List.length_nil] at ih ⊢
      omega
  | moreItems h hgap hgap' rest ih ihrest =>
      simp only [Part.leastLength, writtenItems, leastLengthItems, List.length_append,
        List.length_cons] at ih ihrest ⊢
      omega
  | @member key w t gap gap' hgap hgap' h ih =>
      have hkey := key.length_quoted_le
      simp only [Part.leastLength, List.length_append, List.length_cons] at ih ⊢
      omega
  | lastMember h hgap ih =>
      simp only [Part.leastLength, writtenFields, leastLengthFields, List.length_append,
        List.length_cons, List.length_nil] at ih ⊢
      omega
  | moreMembers h hgap hgap' rest ih ihrest =>
      simp only [Part.leastLength, writtenFields, leastLengthFields, List.length_append,
        List.length_cons] at ih ihrest ⊢
      omega

theorem leastLength_le_of_read? {t : List Char} {v : Json} (h : read? t = .ok v) :
    leastLength v ≤ t.length := by
  obtain ⟨w, ⟨gap, u, gap', -, -, hlays, rfl⟩, rfl⟩ := read?_eq_ok_iff.mp h
  have hlength : leastLength w.value ≤ u.length := hlays.leastLength_le
  simp only [List.length_append]
  omega

theorem length_compactItems (item : Json) (rest : List Json)
    (h : ∀ v ∈ item :: rest, (compact v).length = leastLength v) :
    (compactItems (item :: rest)).length + 1 = leastLengthItems (item :: rest) := by
  induction rest generalizing item with
  | nil =>
      have hitem := h item List.mem_cons_self
      simp only [compactItems, leastLengthItems]
      omega
  | cons next rest ih =>
      obtain ⟨hitem, hrest⟩ := List.forall_mem_cons.mp h
      have hlength := ih next hrest
      simp only [compactItems, leastLengthItems, List.length_append, List.length_cons] at hlength ⊢
      omega

theorem length_compactFields (key : String) (item : Json) (rest : List (String × Json))
    (h : ∀ field ∈ (key, item) :: rest, (compact field.2).length = leastLength field.2) :
    (compactFields ((key, item) :: rest)).length + 1 = leastLengthFields ((key, item) :: rest) := by
  induction rest generalizing key item with
  | nil =>
      have hitem : (compact item).length = leastLength item := h _ List.mem_cons_self
      simp only [compactFields, leastLengthFields, List.length_append, List.length_cons]
      omega
  | cons next rest ih =>
      obtain ⟨nextKey, next⟩ := next
      obtain ⟨hitem, hrest⟩ := List.forall_mem_cons.mp h
      have hlength := ih nextKey next hrest
      dsimp only at hitem
      simp only [compactFields, leastLengthFields, List.length_append, List.length_cons]
        at hlength ⊢
      omega

theorem length_compact {v : Json} (h : Plain v) : (compact v).length = leastLength v := by
  induction h with
  | null => rfl
  | bool value => rfl
  | int value => rfl
  | str value => rfl
  | @arr items _ ih =>
      cases items with
      | nil => rfl
      | cons item rest =>
          have hitems := length_compactItems item rest ih
          simp only [compact, leastLength, List.length_append, List.length_cons, List.length_nil]
          omega
  | @obj fields _ _ ih =>
      cases fields with
      | nil => rfl
      | cons field rest =>
          obtain ⟨key, item⟩ := field
          have hfields := length_compactFields key item rest ih
          simp only [compact, leastLength, List.length_append, List.length_cons, List.length_nil]
          omega

/-- No text of a value is shorter than its compact text. -/
theorem length_compact_le_of_read? {t : List Char} {v : Json} (hv : Plain v)
    (h : read? t = .ok v) : (compact v).length ≤ t.length := by
  rw [length_compact hv]
  exact leastLength_le_of_read? h

end PluginContract.Json
