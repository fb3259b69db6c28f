import PluginContract.Text.Pieces

/-!
# Where a text stands in another

A piece between two others is cut out by its offsets, and a character is replaced wherever it
stands. A word stands in texts with a character between them that it does not hold only if it
stands in one of them.
-/

namespace PluginContract.Text

variable {source word a b c u v : List Char} {separator : Char} {start stop i : Nat}

theorem slice_eq (h : source = a ++ (b ++ c)) (hstart : start = a.length)
    (hstop : stop = a.length + b.length) : slice source start stop = b := by
  rw [slice, h, hstart, hstop, List.drop_left, Nat.add_sub_cancel_left, List.take_left]

theorem slice_drop (t : List Char) (n start stop : Nat) :
    slice (t.drop n) start stop = slice t (n + start) (n + stop) := by
  rw [slice, slice, List.drop_drop, Nat.add_sub_add_left]

theorem slice_eq_cons {t : List Char} {d : Char} (h : t[start]? = some d) (hlt : start < stop) :
    slice t start stop = d :: slice t (start + 1) stop := by
  obtain ⟨hstart, rfl⟩ := List.getElem?_eq_some_iff.mp h
  rw [slice, slice, List.drop_eq_getElem_cons hstart,
    show stop - start = stop - (start + 1) + 1 by omega, List.take_succ_cons]

/-- The first character of a piece, and what is left of the piece after it. -/
theorem slice_uncons {t : List Char} {d : Char} (h : slice t start stop = d :: u) :
    t[start]? = some d ∧ slice t (start + 1) stop = u := by
  have hlength := congrArg List.length h
  rw [slice, List.length_take, List.length_drop, List.length_cons] at hlength
  have hstart : t[start]? = some t[start] := List.getElem?_eq_getElem (by omega)
  rw [slice_eq_cons hstart (by omega)] at h
  obtain ⟨hd, hu⟩ := List.cons.inj h
  exact ⟨hd ▸ hstart, hu⟩

theorem mem_slice_iff {t : List Char} {d : Char} :
    d ∈ slice t start stop ↔ ∃ i, start ≤ i ∧ i < stop ∧ t[i]? = some d := by
  rw [slice, List.mem_iff_getElem?]
  constructor
  · rintro ⟨k, hk⟩
    rw [List.getElem?_take] at hk
    split at hk
    · rw [List.getElem?_drop] at hk
      exact ⟨start + k, by omega, by omega, hk⟩
    · cases hk
  · rintro ⟨i, hi, hstop, hd⟩
    obtain ⟨k, rfl⟩ := Nat.exists_eq_add_of_le hi
    exact ⟨k, by rw [List.getElem?_take_of_lt (by omega), List.getElem?_drop, hd]⟩

theorem replace_singleton (p : Char) (fresh t : List Char) :
    replace [p] fresh t = t.flatMap fun d => if d = p then fresh else [d] := by
  rw [replace]
  induction t with
  | nil => rfl
  | cons d t ih =>
      rw [List.flatMap_cons, ← ih]
      by_cases h : d = p
      · simp [replaceFrom, after?, h]
      · simp [replaceFrom, after?, h, Ne.symm h]

theorem infix_of_prefix_drop (h : word <+: u.drop i) : word <:+: u :=
  h.isInfix.trans (List.drop_suffix i u).isInfix

theorem exists_prefix_drop_of_infix (h : word <:+: u) : ∃ i, word <+: u.drop i := by
  obtain ⟨s, t, rfl⟩ := h
  refine ⟨s.length, ?_⟩
  rw [List.append_assoc, List.drop_left]
  exact List.prefix_append word t

theorem prefix_of_prefix_append_cons (hword : separator ∉ word)
    (h : word <+: u ++ separator :: v) : word <+: u := by
  obtain ⟨s, hs⟩ := h
  rcases List.append_eq_append_iff.mp hs with ⟨x, hx, -⟩ | ⟨x, hx, htail⟩
  · exact ⟨x, hx.symm⟩
  · cases x with
    | nil => exact ⟨[], by simpa using hx⟩
    | cons d x =>
        obtain ⟨rfl, -⟩ := List.cons.inj htail
        exact absurd (by rw [hx]; simp) hword

/-- A word stands before a character that it does not hold, or after it. -/
theorem prefix_drop_append_cons (hword : separator ∉ word)
    (h : word <+: (u ++ separator :: v).drop i) :
    word <+: u.drop i ∨ u.length < i ∧ word <:+: v := by
  rcases Nat.lt_or_ge u.length i with hlt | hle
  · obtain ⟨k, rfl⟩ := Nat.exists_eq_add_of_lt hlt
    rw [Nat.add_assoc, ← List.drop_drop, List.drop_left, List.drop_succ_cons] at h
    exact Or.inr ⟨hlt, infix_of_prefix_drop h⟩
  · rw [List.drop_append_of_le_length hle] at h
    exact Or.inl (prefix_of_prefix_append_cons hword h)

theorem infix_of_append_cons (hword : separator ∉ word) (h : word <:+: u ++ separator :: v) :
    word <:+: u ∨ word <:+: v := by
  obtain ⟨i, hi⟩ := exists_prefix_drop_of_infix h
  rcases prefix_drop_append_cons hword hi with hfirst | ⟨-, hsecond⟩
  · exact Or.inl (infix_of_prefix_drop hfirst)
  · exact Or.inr hsecond

/-- A word that stands in a list of parts stands in one of the parts. -/
theorem exists_infix_of_intercalate (hne : word ≠ []) (hcomma : ',' ∉ word) (hspace : ' ' ∉ word)
    {parts : List (List Char)} (h : word <:+: [',', ' '].intercalate parts) :
    ∃ part ∈ parts, word <:+: part := by
  induction parts with
  | nil => exact absurd (List.infix_nil.mp h) hne
  | cons part parts ih =>
      cases parts with
      | nil =>
          rw [List.intercalate_singleton] at h
          exact ⟨part, List.mem_cons_self, h⟩
      | cons next parts =>
          rw [List.intercalate_cons_cons, List.append_assoc] at h
          rcases infix_of_append_cons hcomma h with hpart | hrest
          · exact ⟨part, List.mem_cons_self, hpart⟩
          · rcases infix_of_append_cons (u := []) hspace hrest with hnil | hmore
            · exact absurd (List.infix_nil.mp hnil) hne
            · obtain ⟨u, hu, hinfix⟩ := ih hmore
              exact ⟨u, List.mem_cons_of_mem part hu, hinfix⟩

section Blocks

variable {x y block rest : List Char}

/-- A block in two texts one after the other stands in one of them, or starts in the first one and
ends in the second one. -/
theorem block_in_append (h : x ++ y = u ++ (block ++ rest)) :
    (∃ r, x = u ++ (block ++ r) ∧ rest = r ++ y) ∨
      (∃ v, u = x ++ v ∧ y = v ++ (block ++ rest)) ∨
      ∃ front back, front ≠ [] ∧ back ≠ [] ∧ block = front ++ back ∧ x = u ++ front ∧
        y = back ++ rest := by
  rcases List.append_eq_append_iff.mp h with hsecond | ⟨front, hx, hblock⟩
  · exact Or.inr (Or.inl hsecond)
  rcases List.append_eq_append_iff.mp hblock with ⟨r, rfl, hrest⟩ | ⟨back, hsplit, hy⟩
  · exact Or.inl ⟨r, hx, hrest⟩
  by_cases hback : back = []
  · subst hback
    rw [List.append_nil] at hsplit
    exact Or.inl ⟨[], by rw [hx, hsplit, List.append_nil], hy.symm⟩
  by_cases hfront : front = []
  · subst hfront
    refine Or.inr (Or.inl ⟨[], ?_, ?_⟩)
    · rw [hx]
      simp
    · rw [hy, hsplit]
      rfl
  · exact Or.inr (Or.inr ⟨front, back, hfront, hback, hsplit, hx, hy⟩)

/-- A block stands before a character that it does not hold, or after it. -/
theorem block_in_append_cons (hne : block ≠ []) (hblock : separator ∉ block)
    (h : x ++ separator :: y = u ++ (block ++ rest)) :
    (∃ r, x = u ++ (block ++ r) ∧ rest = r ++ separator :: y) ∨
      ∃ v, u = x ++ separator :: v ∧ y = v ++ (block ++ rest) := by
  rcases block_in_append h with hfirst | ⟨v, hu, hy⟩ | ⟨front, back, -, hback, hsplit, -, hy⟩
  · exact Or.inl hfirst
  · cases v with
    | nil =>
        obtain ⟨c, block, rfl⟩ := List.exists_cons_of_ne_nil hne
        obtain ⟨rfl, -⟩ := List.cons.inj hy
        exact absurd List.mem_cons_self hblock
    | cons c v =>
        obtain ⟨rfl, hrest⟩ := List.cons.inj hy
        exact Or.inr ⟨v, hu, hrest⟩
  · obtain ⟨c, back, rfl⟩ := List.exists_cons_of_ne_nil hback
    obtain ⟨rfl, -⟩ := List.cons.inj hy
    exact absurd (by rw [hsplit]; simp) hblock

end Blocks

end PluginContract.Text
