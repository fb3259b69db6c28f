import Mathlib.Data.List.Basic
import Mathlib.Data.List.Induction
import PluginContract.Entries

/-!
# Looking up and rebuilding entries

Entries with distinct keys are determined by the order of their keys and by
what is found under each. Putting a list of pairs keeps the last value of each
key, and the order of the keys does not depend on the values.
-/

namespace PluginContract

namespace Entries

variable {α : Type}

@[simp] theorem keys_nil : keys ([] : Entries α) = [] := rfl

@[simp] theorem keys_cons (entry : String × α) (rest : Entries α) :
    keys (entry :: rest) = entry.1 :: keys rest := rfl

theorem get?_append (entries more : Entries α) (key : String) :
    get? (entries ++ more) key = (get? entries key).orElse fun _ => get? more key := by
  induction entries with
  | nil => rfl
  | cons entry rest ih =>
      obtain ⟨k, v⟩ := entry
      by_cases h : k = key
      · simp [get?, h]
      · simpa [get?, h] using ih

theorem get?_filter_key (keeps : String → Bool) (entries : Entries α) (key : String) :
    get? (entries.filter fun e => keeps e.1) key =
      if keeps key then get? entries key else none := by
  induction entries with
  | nil => simp [get?]
  | cons entry rest ih =>
      obtain ⟨k, v⟩ := entry
      by_cases hk : k = key
      · subst k
        by_cases hp : keeps key = true
        · simp [hp, get?]
        · simp [hp, ih]
      · by_cases hp : keeps k = true
        · simp [hp, get?, hk, ih]
        · simp [hp, get?, hk, ih]

theorem get?_remove (entries : Entries α) (key other : String) :
    (entries.remove key).get? other = if other = key then none else entries.get? other := by
  have h := get?_filter_key (fun k => k != key) entries other
  rw [remove, h]
  by_cases ho : other = key <;> simp [ho]

theorem get?_eq_none_iff {entries : Entries α} {key : String} :
    entries.get? key = none ↔ key ∉ entries.keys := by
  induction entries with
  | nil => simp [get?]
  | cons entry rest ih =>
      obtain ⟨k, v⟩ := entry
      by_cases h : k = key
      · simp [get?, h]
      · simp only [get?, if_neg h, ih, keys_cons, List.mem_cons, not_or]
        exact ⟨fun hr => ⟨Ne.symm h, hr⟩, And.right⟩

/-- Putting back the value that is there changes nothing. -/
theorem put_eq_self {entries : Entries α} {key : String} {value : α}
    (h : entries.get? key = some value) : entries.put key value = entries := by
  induction entries with
  | nil => simp [get?] at h
  | cons entry rest ih =>
      obtain ⟨k, v⟩ := entry
      by_cases hk : k = key
      · have hv : v = value := by simpa [get?, hk] using h
        simp [put, hk, hv]
      · simp only [get?, if_neg hk] at h
        simp [put, hk, ih h]

/-- Removing a key that is not there changes nothing. -/
theorem remove_eq_self {entries : Entries α} {key : String}
    (h : entries.get? key = none) : entries.remove key = entries := by
  apply List.filter_eq_self.mpr
  intro entry he
  have hk : key ∉ entries.keys := get?_eq_none_iff.mp h
  have hne : entry.1 ≠ key := by
    rintro rfl
    exact hk (List.mem_map.mpr ⟨entry, he, rfl⟩)
  simpa using hne

/-- Entries with distinct keys are equal if their keys and look-ups are. -/
theorem eq_of_keys_eq {a b : Entries α} (ha : a.keys.Nodup) (hk : a.keys = b.keys)
    (hg : ∀ key, a.get? key = b.get? key) : a = b := by
  induction a generalizing b with
  | nil =>
      cases b with
      | nil => rfl
      | cons entry rest => simp at hk
  | cons entry rest ih =>
      obtain ⟨k, v⟩ := entry
      cases b with
      | nil => simp at hk
      | cons entry' rest' =>
          obtain ⟨k', v'⟩ := entry'
          obtain ⟨rfl, hkeys⟩ : k = k' ∧ keys rest = keys rest' := by simpa using hk
          have hv : v = v' := by simpa [get?] using hg k
          have hnot : k ∉ keys rest := (List.nodup_cons.mp ha).1
          have hrest : rest = rest' := by
            apply ih (List.nodup_cons.mp ha).2 hkeys
            intro key
            by_cases h : k = key
            · subst h
              rw [get?_eq_none_iff.mpr hnot, get?_eq_none_iff.mpr (hkeys ▸ hnot)]
            · simpa [get?, h] using hg key
          rw [hv, hrest]

/-- The entries with pairs put one after the other. -/
def putAll (entries : Entries α) (pairs : List (String × α)) : Entries α :=
  pairs.foldl (fun entries pair => entries.put pair.1 pair.2) entries

@[simp] theorem putAll_nil (entries : Entries α) : entries.putAll [] = entries := rfl

theorem putAll_append (entries : Entries α) (pairs more : List (String × α)) :
    entries.putAll (pairs ++ more) = (entries.putAll pairs).putAll more := List.foldl_append

theorem ofPairs_concat (pairs : List (String × α)) (pair : String × α) :
    ofPairs (pairs ++ [pair]) = (ofPairs pairs).put pair.1 pair.2 := by
  simp [ofPairs, List.foldl_append]

theorem keys_put (entries : Entries α) (key : String) (value : α) :
    (entries.put key value).keys =
      if key ∈ entries.keys then entries.keys else entries.keys ++ [key] := by
  induction entries with
  | nil => simp [put]
  | cons entry rest ih =>
      obtain ⟨k, v⟩ := entry
      by_cases hk : k = key
      · simp [put, hk]
      · simp only [put, if_neg hk, keys_cons, ih, List.mem_cons, Ne.symm hk, false_or]
        by_cases h : key ∈ keys rest
        · rw [if_pos h, if_pos h]
        · rw [if_neg h, if_neg h, List.cons_append]

/-- A key that is not there goes to the end. -/
theorem put_of_notMem {entries : Entries α} {key : String} (h : key ∉ entries.keys)
    (value : α) : entries.put key value = entries ++ [(key, value)] := by
  induction entries with
  | nil => rfl
  | cons entry rest ih =>
      obtain ⟨k, v⟩ := entry
      simp only [keys_cons, List.mem_cons, not_or] at h
      rw [put, if_neg (Ne.symm h.1), ih h.2]
      rfl

theorem mem_put {entries : Entries α} {key : String} {value : α} {entry : String × α}
    (h : entry ∈ entries.put key value) : entry = (key, value) ∨ entry ∈ entries := by
  induction entries with
  | nil =>
      left
      simpa [put] using h
  | cons first rest ih =>
      obtain ⟨k, v⟩ := first
      rw [put] at h
      split at h
      · rename_i hk
        rcases List.mem_cons.mp h with rfl | hr
        · left
          rw [hk]
        · exact Or.inr (List.mem_cons_of_mem _ hr)
      · rcases List.mem_cons.mp h with rfl | hr
        · exact Or.inr List.mem_cons_self
        · exact (ih hr).imp_right (List.mem_cons_of_mem _)

/-- Every entry is one of the pairs that were put. -/
theorem mem_of_mem_ofPairs {pairs : List (String × α)} {entry : String × α}
    (h : entry ∈ ofPairs pairs) : entry ∈ pairs := by
  induction pairs using List.reverseRecOn with
  | nil => simp [ofPairs] at h
  | append_singleton pairs pair ih =>
      rw [ofPairs_concat] at h
      rcases mem_put h with rfl | hp
      · simp
      · exact List.mem_append_left _ (ih hp)

/-- Putting a value leaves all other entries where they are. -/
theorem filter_put (entries : Entries α) (key : String) (value : α) :
    (entries.put key value).filter (fun e => e.1 != key) =
      entries.filter fun e => e.1 != key := by
  induction entries with
  | nil => simp [put]
  | cons entry rest ih =>
      obtain ⟨k, v⟩ := entry
      by_cases hk : k = key
      · simp [put, hk]
      · simp [put, hk, ih]

theorem keys_append (entries more : Entries α) :
    keys (entries ++ more) = keys entries ++ keys more := List.map_append

theorem keys_filter (keeps : String → Bool) (entries : Entries α) :
    keys (entries.filter fun e => keeps e.1) = (keys entries).filter keeps := by
  rw [keys, keys, List.filter_map]
  rfl

/-- Pairs with distinct keys are put as they are. -/
theorem ofPairs_eq_self {pairs : List (String × α)} (h : (keys pairs).Nodup) :
    ofPairs pairs = pairs := by
  induction pairs using List.reverseRecOn with
  | nil => rfl
  | append_singleton pairs pair ih =>
      rw [keys, List.map_append, List.nodup_append] at h
      rw [ofPairs_concat, ih h.1, put_of_notMem]
      intro hmem
      exact h.2.2 pair.1 hmem pair.1 List.mem_cons_self rfl

/-- The keys of put pairs come in an order that the values have no part in. -/
theorem keys_ofPairs_congr {β : Type} {pairs : List (String × α)} {pairs' : List (String × β)}
    (h : pairs.map Prod.fst = pairs'.map Prod.fst) :
    (ofPairs pairs).keys = (ofPairs pairs').keys := by
  induction pairs using List.reverseRecOn generalizing pairs' with
  | nil => simp [List.map_eq_nil_iff.mp h.symm, ofPairs, keys]
  | append_singleton pairs pair ih =>
      obtain ⟨front, last, rfl⟩ : ∃ front last, pairs' = front ++ [last] := by
        rcases List.eq_nil_or_concat pairs' with rfl | ⟨front, last, he⟩
        · simp at h
        · exact ⟨front, last, by simpa using he⟩
      simp only [List.map_append, List.map_cons, List.map_nil] at h
      obtain ⟨hfront, hlast⟩ := List.append_inj' h rfl
      have hkey : pair.1 = last.1 := by simpa using hlast
      rw [ofPairs_concat, ofPairs_concat, keys_put, keys_put, ih hfront, hkey]

/-- The last pair of a key is the one that counts. -/
theorem get?_ofPairs (pairs : List (String × α)) (key : String) :
    (ofPairs pairs).get? key = (pairs.reverse.find? fun p => p.1 == key).map Prod.snd := by
  induction pairs using List.reverseRecOn with
  | nil => rfl
  | append_singleton pairs pair ih =>
      rw [ofPairs_concat, get?_put, List.reverse_append, List.reverse_singleton,
        List.singleton_append, List.find?_cons]
      by_cases h : pair.1 = key
      · simp [h]
      · simp [h, ih, beq_eq_false_iff_ne.mpr h]

end Entries

/-- A new element is listed last. -/
theorem distinct_concat_of_notMem {α : Type} [BEq α] [LawfulBEq α] {l : List α} {a : α}
    (h : a ∉ l) : distinct (l ++ [a]) = distinct l ++ [a] := by
  induction l with
  | nil => rfl
  | cons b rest ih =>
      obtain ⟨hab, hmem⟩ : a ≠ b ∧ a ∉ rest := by simpa using h
      rw [List.cons_append, distinct, distinct, ih hmem, List.filter_append]
      simp [hab]

/-- An element that is there already is not listed again. -/
theorem distinct_concat_of_mem {α : Type} [BEq α] [LawfulBEq α] {l : List α} {a : α}
    (h : a ∈ l) : distinct (l ++ [a]) = distinct l := by
  induction l with
  | nil => cases h
  | cons b rest ih =>
      rw [List.cons_append, distinct, distinct]
      by_cases hmem : a ∈ rest
      · rw [ih hmem]
      · obtain rfl : a = b := (List.mem_cons.mp h).resolve_right hmem
        rw [distinct_concat_of_notMem hmem, List.filter_append]
        simp

/-- Elements are listed in the order in which they first appear. -/
theorem pairwise_idxOf_distinct {α : Type} [BEq α] [LawfulBEq α] (l : List α) :
    (distinct l).Pairwise fun a b => l.idxOf a < l.idxOf b := by
  induction l with
  | nil => exact .nil
  | cons x rest ih =>
      have hindex {y : α} (hy : y ∈ (distinct rest).filter fun y => !(y == x)) :
          (x :: rest).idxOf y = rest.idxOf y + 1 := by
        have hne : y ≠ x := by simpa using (List.mem_filter.mp hy).2
        rw [List.idxOf_cons, beq_eq_false_iff_ne.mpr hne.symm, cond_false]
      rw [distinct, List.pairwise_cons]
      constructor
      · intro y hy
        rw [List.idxOf_cons_self, hindex hy]
        exact Nat.succ_pos _
      · refine (ih.sublist List.filter_sublist).imp_of_mem fun {a b} ha hb hab => ?_
        rw [hindex ha, hindex hb]
        exact Nat.succ_lt_succ hab

/-- Whether a list holds what another one holds, each element once and in the order in which the
elements first appear there. -/
structure FirstsOf {α : Type} [BEq α] (l found : List α) : Prop where
  mem_iff : ∀ a, a ∈ found ↔ a ∈ l
  ordered : found.Pairwise fun a b => l.idxOf a < l.idxOf b

theorem firstsOf_distinct {α : Type} [BEq α] [LawfulBEq α] (l : List α) :
    FirstsOf l (distinct l) :=
  ⟨fun _ => mem_distinct, pairwise_idxOf_distinct l⟩

/-- Adding what is not there yet leaves each element once, where it first occurs. -/
theorem foldl_eq_distinct {α : Type} [BEq α] [LawfulBEq α] (l : List α) :
    l.foldl (fun found a => if found.contains a then found else found ++ [a]) [] = distinct l := by
  induction l using List.reverseRecOn with
  | nil => rfl
  | append_singleton l a ih =>
      rw [List.foldl_append, ih, List.foldl_cons, List.foldl_nil]
      by_cases ha : a ∈ l
      · rw [distinct_concat_of_mem ha, if_pos (by simpa [mem_distinct] using ha)]
      · rw [distinct_concat_of_notMem ha, if_neg (by simpa [mem_distinct] using ha)]

/-- The keys of put pairs come where they first occur. -/
theorem Entries.keys_ofPairs {α : Type} (pairs : List (String × α)) :
    (Entries.ofPairs pairs).keys = distinct (pairs.map Prod.fst) := by
  induction pairs using List.reverseRecOn with
  | nil => rfl
  | append_singleton pairs pair ih =>
      rw [Entries.ofPairs_concat, Entries.keys_put, ih, List.map_append, List.map_singleton]
      by_cases hmem : pair.1 ∈ pairs.map Prod.fst
      · rw [if_pos (mem_distinct.mpr hmem), distinct_concat_of_mem hmem]
      · rw [if_neg (mt mem_distinct.mp hmem), distinct_concat_of_notMem hmem]

namespace Entries

variable {α : Type} {find : String → Option α} {names : List String}

theorem mem_of_get?_eq_some {entries : Entries α} {key : String} {value : α}
    (h : entries.get? key = some value) : (key, value) ∈ entries := by
  induction entries with
  | nil => cases h
  | cons entry rest ih =>
      obtain ⟨k, v⟩ := entry
      rw [get?] at h
      split at h
      · rename_i hkey
        rw [← hkey, ← Option.some.inj h]
        exact List.mem_cons_self
      · exact List.mem_cons_of_mem _ (ih h)

/-- Under distinct keys every entry is found. -/
theorem get?_eq_some_iff {entries : Entries α} (h : entries.keys.Nodup) {key : String} {value : α} :
    entries.get? key = some value ↔ (key, value) ∈ entries := by
  refine ⟨mem_of_get?_eq_some, fun hmem => ?_⟩
  induction entries with
  | nil => cases hmem
  | cons entry rest ih =>
      obtain ⟨k, v⟩ := entry
      obtain ⟨hfirst, hrest⟩ := List.nodup_cons.mp h
      rw [get?]
      rcases List.mem_cons.mp hmem with hentry | hlater
      · obtain ⟨rfl, rfl⟩ := Prod.mk.inj hentry
        rw [if_pos rfl]
      · rw [if_neg ?_, ih hrest hlater]
        rintro rfl
        exact hfirst (List.mem_map.mpr ⟨_, hlater, rfl⟩)

/-- The entries of those names under which something is found. -/
def found (find : String → Option α) (names : List String) : Entries α :=
  ofPairs (names.filterMap fun name => (find name).map fun value => (name, value))

theorem found_concat (find : String → Option α) (names : List String) (name : String) :
    found find (names ++ [name]) =
      match find name with
      | none => found find names
      | some value => (found find names).put name value := by
  rw [found, List.filterMap_append]
  cases hfind : find name with
  | none => simp [hfind, found]
  | some value => simp [hfind, found, ofPairs_concat]

theorem found_congr {find' : String → Option α} (h : ∀ name ∈ names, find name = find' name) :
    found find names = found find' names := by
  rw [found, found, List.filterMap_congr fun name hname => by rw [h name hname]]

theorem get?_found (name : String) :
    (found find names).get? name = if name ∈ names then find name else none := by
  induction names using List.reverseRecOn with
  | nil => rfl
  | append_singleton names last ih =>
      rw [found_concat]
      by_cases hlast : last = name
      · subst hlast
        cases hfind : find last with
        | none => simp [ih, hfind]
        | some value => simp [get?_put]
      · have hmem : name ∈ names ++ [last] ↔ name ∈ names := by simp [Ne.symm hlast]
        simp only [hmem, ← ih]
        cases find last with
        | none => rfl
        | some value => simp only [get?_put, if_neg hlast]

theorem nodup_keys_found (find : String → Option α) (names : List String) :
    (found find names).keys.Nodup := nodup_keys_ofPairs _

theorem keys_found (find : String → Option α) (names : List String) :
    (found find names).keys = (distinct names).filter fun name => (find name).isSome := by
  induction names using List.reverseRecOn with
  | nil => rfl
  | append_singleton names name ih =>
      have hthere : name ∈ (found find names).keys ↔ name ∈ names ∧ (find name).isSome := by
        rw [ih, List.mem_filter, mem_distinct]
      rw [found_concat]
      by_cases hmem : name ∈ names
      · rw [distinct_concat_of_mem hmem]
        cases hfind : find name with
        | none => exact ih
        | some value => rw [keys_put, if_pos (hthere.mpr ⟨hmem, by rw [hfind]; rfl⟩), ih]
      · rw [distinct_concat_of_notMem hmem, List.filter_append, ← ih]
        cases hfind : find name with
        | none => simp [hfind]
        | some value =>
            rw [keys_put, if_neg fun h => hmem (hthere.mp h).1]
            simp [hfind]

/-- The names under which something is found come where they first occur. -/
theorem pairwise_keys_found (find : String → Option α) (names : List String) :
    (found find names).keys.Pairwise fun a b => names.idxOf a < names.idxOf b := by
  rw [keys_found]
  exact (pairwise_idxOf_distinct names).sublist List.filter_sublist

end Entries

end PluginContract
