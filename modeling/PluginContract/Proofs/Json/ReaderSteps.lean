import PluginContract.Json.Reader

/-!
# Steps of the reader

What the reader makes of a value, an item or a member, from what it makes of its parts.
-/

namespace PluginContract.Json.Reader

theorem exists_of_map_eq_ok {α β : Type} {found : Except Fault α} {f : α → β} {b : β}
    (h : found.map f = .ok b) : ∃ a, found = .ok a ∧ f a = b := by
  cases found with
  | error fault => cases h
  | ok a => exact ⟨a, rfl, Except.ok.inj h⟩

theorem skipGap_append {gap : List Char} (h : ∀ c ∈ gap, isGap c = true) (t : List Char) :
    skipGap (gap ++ t) = skipGap t :=
  List.dropWhile_append_of_pos h

theorem skipGap_cons_of_not_isGap {c : Char} (h : isGap c = false) (t : List Char) :
    skipGap (c :: t) = c :: t := by
  rw [skipGap, List.dropWhile_cons, h]
  rfl

theorem value?_arr {t more : List Char} {c : Char} (h : skipGap t = c :: more) (hc : c ≠ ']')
    (fuel : Nat) :
    value? (fuel + 1) ('[' :: t) =
      (items? fuel (c :: more)).map fun found => (.arr found.1, found.2) := by
  rw [value?, h]
  split
  · rename_i heq
    exact absurd (List.cons.inj heq).1 hc
  · rfl

theorem value?_obj {t more : List Char} {c : Char} (h : skipGap t = c :: more) (hc : c ≠ '\x7d')
    (fuel : Nat) :
    value? (fuel + 1) ('{' :: t) =
      (members? fuel (c :: more)).map fun found => (.obj (Entries.ofPairs found.1), found.2) := by
  rw [value?, h]
  split
  · rename_i heq
    exact absurd (List.cons.inj heq).1 hc
  · rfl

theorem value?_str {t rest : List Char} {s : String} (h : string? t = some (s, rest))
    (fuel : Nat) : value? (fuel + 1) t = .ok (.str s, rest) := by
  obtain ⟨t, rfl⟩ : ∃ more, t = '"' :: more := by
    unfold string? at h
    split at h
    · exact ⟨_, rfl⟩
    · cases h
  rw [value?, h]

theorem value?_atom {c : Char} (hbrace : c ≠ '{') (hbracket : c ≠ '[') (hquote : c ≠ '"')
    (t : List Char) (fuel : Nat) : value? (fuel + 1) (c :: t) = atom? (c :: t) := by
  rw [value?]
  · intro rest heq
    exact hbrace (List.cons.inj heq).1
  · intro rest heq
    exact hbracket (List.cons.inj heq).1
  · intro rest heq
    exact hquote (List.cons.inj heq).1

theorem items?_last {t rest after : List Char} {item : Json} {fuel : Nat}
    (h : value? fuel t = .ok (item, rest)) (hrest : skipGap rest = ']' :: after) :
    items? (fuel + 1) t = .ok ([item], after) := by
  rw [items?, h]
  simp only [hrest]

theorem items?_more {t rest more : List Char} {item : Json} {fuel : Nat}
    (h : value? fuel t = .ok (item, rest)) (hrest : skipGap rest = ',' :: more) :
    items? (fuel + 1) t =
      (items? fuel (skipGap more)).map fun found => (item :: found.1, found.2) := by
  rw [items?, h]
  simp only [hrest]

theorem members?_last {t between middle rest after : List Char} {key : String} {item : Json}
    {fuel : Nat} (hkey : string? t = some (key, between)) (hcolon : skipGap between = ':' :: middle)
    (h : value? fuel (skipGap middle) = .ok (item, rest)) (hrest : skipGap rest = '}' :: after) :
    members? (fuel + 1) t = .ok ([(key, item)], after) := by
  rw [members?, hkey]
  simp only [hcolon, h, hrest]

theorem members?_more {t between middle rest more : List Char} {key : String} {item : Json}
    {fuel : Nat} (hkey : string? t = some (key, between)) (hcolon : skipGap between = ':' :: middle)
    (h : value? fuel (skipGap middle) = .ok (item, rest)) (hrest : skipGap rest = ',' :: more) :
    members? (fuel + 1) t =
      (members? fuel (skipGap more)).map fun found => ((key, item) :: found.1, found.2) := by
  rw [members?, hkey]
  simp only [hcolon, h, hrest]

end PluginContract.Json.Reader
