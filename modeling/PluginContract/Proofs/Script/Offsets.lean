import PluginContract.Proofs.Script.Scan
import PluginContract.Script.Literal

/-!
# The regions around each offset

The role of the character at an offset is read off the regions before and after
it. A literal or a comment that starts outside of all regions stays a region up
to the offset at which it is looked up to end, and leaves the scan outside of all
regions again.
-/

namespace PluginContract.Script

open Text

/-- The role of the character at an offset. -/
def roleAt (t : List Char) (j : Nat) : Role := Role.between (regionsAt t j) (regionsAt t (j + 1))

section

variable {t : List Char} {c : Char} {i j : Nat}

theorem drop_eq_cons (h : t[j]? = some c) : t.drop j = c :: t.drop (j + 1) := by
  obtain ⟨hj, rfl⟩ := List.getElem?_eq_some_iff.mp h
  exact List.drop_eq_getElem_cons hj

theorem reverse_take_succ (h : t[j]? = some c) :
    (t.take (j + 1)).reverse = c :: (t.take j).reverse := by
  rw [List.take_add_one, h]
  simp

theorem regionsFrom_succ (before : List Char) (regions : List Region) (h : t[j]? = some c) :
    regionsFrom before regions t (j + 1) =
      Region.step ((t.take j).reverse ++ before) c (t.drop (j + 1))
        (regionsFrom before regions t j) := by
  induction j generalizing before regions t with
  | zero =>
      cases t with
      | nil => simp at h
      | cons d rest =>
          obtain rfl : d = c := by simpa using h
          simp [regionsFrom]
  | succ j ih =>
      cases t with
      | nil => simp at h
      | cons d rest =>
          rw [regionsFrom, regionsFrom, ih _ _ (by simpa using h)]
          simp

theorem regionsAt_succ (h : t[j]? = some c) :
    regionsAt t (j + 1) =
      Region.step (t.take j).reverse c (t.drop (j + 1)) (regionsAt t j) := by
  rw [regionsAt, regionsFrom_succ [] [] h, List.append_nil, regionsAt]

theorem scanFrom_regionsAt (h : t[i]? = some c) :
    scanFrom (t.take i).reverse (regionsAt t i) (t.drop i) =
      (c, roleAt t i) ::
        scanFrom (t.take (i + 1)).reverse (regionsAt t (i + 1)) (t.drop (i + 1)) := by
  rw [drop_eq_cons h, scanFrom, reverse_take_succ h, roleAt, regionsAt_succ h]

theorem getElem?_scanFrom (t : List Char) (i k : Nat) :
    (scanFrom (t.take i).reverse (regionsAt t i) (t.drop i))[k]? =
      t[i + k]?.map fun c => (c, roleAt t (i + k)) := by
  induction k generalizing i with
  | zero =>
      cases hc : t[i]? with
      | none => simp [List.drop_eq_nil_of_le (List.getElem?_eq_none_iff.mp hc), scanFrom]
      | some c => simp [scanFrom_regionsAt hc]
  | succ k ih =>
      cases hc : t[i]? with
      | none =>
          have hi : t.length ≤ i := List.getElem?_eq_none_iff.mp hc
          have hk : t[i + (k + 1)]? = none := List.getElem?_eq_none_iff.mpr (by omega)
          simp [List.drop_eq_nil_of_le hi, scanFrom, hk]
      | some c =>
          rw [scanFrom_regionsAt hc, List.getElem?_cons_succ, ih (i + 1), Nat.add_right_comm]
          rfl

/-- A scan gives each character its role. -/
theorem getElem?_scan (t : List Char) (j : Nat) :
    (scan t)[j]? = t[j]?.map fun c => (c, roleAt t j) := by
  have h := getElem?_scanFrom t 0 j
  rw [Nat.zero_add, regionsAt_zero] at h
  exact h

/-- A scan goes on from an offset with the regions around it. -/
theorem drop_scan (t : List Char) (i : Nat) :
    (scan t).drop i = scanFrom (t.take i).reverse (regionsAt t i) (t.drop i) := by
  apply List.ext_getElem?
  intro k
  rw [List.getElem?_drop, getElem?_scan, getElem?_scanFrom]

theorem drop_mask (t : List Char) (i : Nat) :
    (mask t).drop i = maskFrom (t.take i).reverse (regionsAt t i) (t.drop i) := by
  rw [mask, ← List.map_drop, drop_scan]
  rfl

theorem drop_stripComments (t : List Char) (i : Nat) :
    (stripComments t).drop i = uncommentFrom (t.take i).reverse (regionsAt t i) (t.drop i) := by
  rw [stripComments, ← List.map_drop, drop_scan]
  rfl

theorem regionsFrom_append (before : List Char) (regions : List Region) (u v : List Char)
    (n : Nat) :
    regionsFrom before regions (u ++ v) (u.length + n) =
      regionsFrom (u.reverse ++ before) (regionsFrom before regions (u ++ v) u.length) v n := by
  induction u generalizing before regions with
  | nil => rw [List.nil_append, List.length_nil, Nat.zero_add, regionsFrom_zero]; rfl
  | cons c u ih =>
      rw [List.cons_append, List.length_cons, Nat.add_right_comm, regionsFrom, ih, regionsFrom,
        List.reverse_cons, List.append_assoc]
      rfl

/-- The regions around an offset are those that a scan from an earlier one comes to. -/
theorem regionsAt_eq (hij : i ≤ j) (hj : j ≤ t.length) :
    regionsAt t j = regionsFrom (t.take i).reverse (regionsAt t i) (t.drop i) (j - i) := by
  have hlength : (t.take i).length = i := by
    rw [List.length_take]
    omega
  have hsplit := regionsFrom_append [] [] (t.take i) (t.drop i) (j - i)
  rw [List.take_append_drop, hlength, Nat.add_sub_cancel' hij, List.append_nil] at hsplit
  exact hsplit

theorem getElem?_mask (h : t[j]? = some c) : (mask t)[j]? = some ((roleAt t j).shown c) := by
  rw [mask, List.getElem?_map, getElem?_scan, h]
  rfl

theorem getElem?_stripComments (h : t[j]? = some c) :
    (stripComments t)[j]? = some ((roleAt t j).uncommented c) := by
  rw [stripComments, List.getElem?_map, getElem?_scan, h]
  rfl

theorem mem_codeAt_iff : (j, c) ∈ codeAt t 0 ↔ t[j]? = some c ∧ (roleAt t j).isSeen = true := by
  have hscan : scanAt t 0 = scan t := rfl
  simp only [codeAt, hscan, List.mem_filterMap, Prod.exists, List.mem_zipIdx_iff_getElem?,
    getElem?_scan]
  constructor
  · rintro ⟨d, role, k, hk, hs⟩
    split at hs
    · rename_i hseen
      obtain ⟨rfl, rfl⟩ := Prod.mk.inj (Option.some.inj hs)
      obtain ⟨e, hd, he⟩ := Option.map_eq_some_iff.mp hk
      obtain ⟨rfl, rfl⟩ := Prod.mk.inj he
      exact ⟨hd, hseen⟩
    · cases hs
  · rintro ⟨hc, hs⟩
    exact ⟨c, roleAt t j, j, by simp [hc], by simp [hs]⟩

/-- How many characters come before the one that leaves all regions around an offset. -/
def distanceAt? (t : List Char) (i : Nat) : Option Nat :=
  distanceOut? (t.take i).reverse (regionsAt t i) (t.drop i)

theorem distanceAt?_eq (h : t[i]? = some c) :
    distanceAt? t i =
      if regionsAt t (i + 1) = [] then some 0 else (distanceAt? t (i + 1)).map (· + 1) := by
  rw [distanceAt?, drop_eq_cons h, distanceOut?, ← regionsAt_succ h, distanceAt?,
    reverse_take_succ h]
  split
  · rename_i hnil
    rw [if_pos hnil]
  · rename_i hne
    rw [if_neg hne]

theorem distanceAt?_of_length_le (h : t.length ≤ i) : distanceAt? t i = none := by
  rw [distanceAt?, List.drop_eq_nil_of_le h, distanceOut?]

/-- Regions that are left at a distance are not left before. -/
theorem of_distanceAt?_eq_some {d : Nat} (h : distanceAt? t i = some d) :
    i + d < t.length ∧ regionsAt t (i + d + 1) = [] ∧
      ∀ k, i < k → k ≤ i + d → regionsAt t k ≠ [] := by
  induction d generalizing i with
  | zero =>
      cases hc : t[i]? with
      | none => simp [distanceAt?_of_length_le (List.getElem?_eq_none_iff.mp hc)] at h
      | some c =>
          have hlt : i < t.length := (List.getElem?_eq_some_iff.mp hc).1
          rw [distanceAt?_eq hc] at h
          split at h
          · exact ⟨hlt, by assumption, fun k _ _ => by omega⟩
          · simp at h
  | succ d ih =>
      cases hc : t[i]? with
      | none => simp [distanceAt?_of_length_le (List.getElem?_eq_none_iff.mp hc)] at h
      | some c =>
          rw [distanceAt?_eq hc] at h
          split at h
          · simp at h
          · rename_i hne
            have hd : distanceAt? t (i + 1) = some d := by simpa using h
            obtain ⟨hlt, hout, hin⟩ := ih hd
            have he : i + (d + 1) = i + 1 + d := by omega
            refine ⟨he ▸ hlt, he ▸ hout, fun k hk hkd => ?_⟩
            by_cases hfirst : k = i + 1
            · exact hfirst ▸ hne
            · exact hin k (by omega) (by omega)

/-- Regions that are never left are around every later offset. -/
theorem of_distanceAt?_eq_none (h : distanceAt? t i = none) :
    ∀ k, i < k → k ≤ t.length → regionsAt t k ≠ [] := by
  intro k hk hkn
  obtain ⟨d, rfl⟩ := Nat.exists_eq_add_of_lt hk
  induction d generalizing i with
  | zero =>
      have hc : t[i]? = some t[i] := List.getElem?_eq_getElem (by omega)
      rw [distanceAt?_eq hc] at h
      split at h
      · cases h
      · assumption
  | succ d ih =>
      have hc : t[i]? = some t[i] := List.getElem?_eq_getElem (by omega)
      rw [distanceAt?_eq hc] at h
      split at h
      · cases h
      · have hrest : distanceAt? t (i + 1) = none := Option.map_eq_none_iff.mp h
        have he : i + (d + 1) + 1 = i + 1 + d + 1 := by omega
        rw [he]
        exact ih hrest (by omega) (by omega)

end

end PluginContract.Script
