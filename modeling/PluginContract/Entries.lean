/-! # Entries in insertion order

A small dictionary: a list of keys and values. Putting a value under a key that is there keeps the
key's place; a new key goes to the end. -/

namespace PluginContract

/-- Keys with their values, in insertion order. -/
abbrev Entries (α : Type) := List (String × α)

namespace Entries

variable {α : Type}

/-- The value under a key. -/
def get? : Entries α → String → Option α
  | [], _ => none
  | (k, v) :: rest, key => if k = key then some v else get? rest key

/-- Whether a key is there. -/
def has (entries : Entries α) (key : String) : Bool := (entries.get? key).isSome

/-- The entries with a value under a key. -/
def put : Entries α → String → α → Entries α
  | [], key, value => [(key, value)]
  | (k, v) :: rest, key, value =>
      if k = key then (k, value) :: rest else (k, v) :: put rest key value

/-- The entries without a key. -/
def remove (entries : Entries α) (key : String) : Entries α := entries.filter fun e => e.1 != key

/-- The entries that result from putting a list of pairs one after the other. -/
def ofPairs (pairs : List (String × α)) : Entries α :=
  pairs.foldl (fun entries pair => entries.put pair.1 pair.2) []

/-- The keys, in order. -/
def keys (entries : Entries α) : List String := entries.map Prod.fst

theorem get?_put (entries : Entries α) (key other : String) (value : α) :
    (entries.put key value).get? other = if key = other then some value else entries.get? other := by
  induction entries with
  | nil => simp [put, get?]
  | cons entry rest ih =>
      obtain ⟨k, v⟩ := entry
      by_cases h : k = key
      · subst h
        by_cases ho : k = other <;> simp [put, get?, ho]
      · by_cases ho : k = other
        · subst ho
          simp [put, get?, h, Ne.symm h]
        · simp [put, get?, h, ho, ih]

theorem mem_keys_put {entries : Entries α} {key other : String} {value : α} :
    other ∈ (entries.put key value).keys ↔ other = key ∨ other ∈ entries.keys := by
  induction entries with
  | nil => simp [put, keys]
  | cons entry rest ih =>
      obtain ⟨k, v⟩ := entry
      by_cases h : k = key
      · subst h
        simp [put, keys]
      · simp only [keys] at ih
        simp [put, keys, h, ih]
        exact or_left_comm

theorem nodup_keys_put {entries : Entries α} (h : entries.keys.Nodup) (key : String) (value : α) :
    (entries.put key value).keys.Nodup := by
  induction entries with
  | nil => simp [put, keys]
  | cons entry rest ih =>
      obtain ⟨k, v⟩ := entry
      have hk : k ∉ keys rest := (List.nodup_cons.1 h).1
      have hr : (keys rest).Nodup := (List.nodup_cons.1 h).2
      by_cases he : k = key
      · subst he
        simpa [put, keys] using h
      · have hnot : k ∉ keys (put rest key value) := by
          rw [mem_keys_put]
          simp [he, hk]
        simpa [put, keys, he] using List.nodup_cons.2 ⟨hnot, ih hr⟩

theorem nodup_keys_ofPairs (pairs : List (String × α)) : (ofPairs pairs).keys.Nodup := by
  suffices h : ∀ (start : Entries α), start.keys.Nodup →
      (pairs.foldl (fun entries pair => entries.put pair.1 pair.2) start).keys.Nodup by
    exact h [] (by simp [keys])
  induction pairs with
  | nil => exact fun _ h => h
  | cons pair rest ih => exact fun start h => ih _ (nodup_keys_put h _ _)

end Entries

/-- The elements of a list without repetitions; the first one of equals stays. -/
def distinct {α : Type} [BEq α] : List α → List α
  | [] => []
  | x :: rest => x :: (distinct rest).filter fun y => !(y == x)

theorem mem_distinct {α : Type} [BEq α] [LawfulBEq α] {x : α} {l : List α} :
    x ∈ distinct l ↔ x ∈ l := by
  induction l with
  | nil => simp [distinct]
  | cons y rest ih =>
      by_cases h : x = y <;> simp [distinct, ih, h]

theorem nodup_distinct {α : Type} [BEq α] [LawfulBEq α] (l : List α) : (distinct l).Nodup := by
  induction l with
  | nil => simp [distinct]
  | cons y rest ih =>
      exact List.nodup_cons.2 ⟨by simp, ih.sublist List.filter_sublist⟩

end PluginContract
