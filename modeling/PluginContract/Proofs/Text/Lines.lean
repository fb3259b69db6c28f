import PluginContract.Text.Pieces

/-!
# Lines of a text

A line feed closes a line whatever comes before it, so the lines after it are those of the
text after it. Every line is a part of the text without line ends, and it is the whole text
if that has none.
-/

namespace PluginContract.Text

theorem not_isLineEnd_nil : ∀ c ∈ ([] : List Char), isLineEnd c = false := by
  intro c hc
  cases hc

theorem linesFrom_cons_of_not_isLineEnd {c : Char} (h : isLineEnd c = false)
    (current t : List Char) : linesFrom current (c :: t) = linesFrom (c :: current) t := by
  have hc : c ≠ '\r' := by
    rintro rfl
    cases h
  rw [linesFrom]
  · rw [h]
    rfl
  · rintro rest rfl
    exact absurd rfl hc

theorem linesFrom_cons_of_isLineEnd {c : Char} {t : List Char} (h : isLineEnd c = true)
    (ht : ∀ rest, c = '\r' → t = '\n' :: rest → False) (current : List Char) :
    linesFrom current (c :: t) = current.reverse :: linesFrom [] t := by
  rw [linesFrom]
  · rw [h]
    rfl
  · exact ht

theorem linesFrom_lineFeed (current t : List Char) :
    linesFrom current ('\n' :: t) = current.reverse :: lines t := by
  refine linesFrom_cons_of_isLineEnd (by decide) ?_ current
  intro rest hc
  cases hc

/-- Characters that end no line are kept together. -/
theorem linesFrom_append {piece : List Char} (h : ∀ c ∈ piece, isLineEnd c = false)
    (current t : List Char) :
    linesFrom current (piece ++ t) = linesFrom (piece.reverse ++ current) t := by
  induction piece generalizing current with
  | nil => rfl
  | cons c piece ih =>
      obtain ⟨hc, hpiece⟩ := List.forall_mem_cons.mp h
      rw [List.cons_append, linesFrom_cons_of_not_isLineEnd hc, ih hpiece, List.reverse_cons,
        List.append_assoc]
      rfl

/-- A line that is not empty is listed, even without an end. -/
theorem linesFrom_of_not_isLineEnd {current t : List Char}
    (h : ∀ c ∈ t, isLineEnd c = false) (hne : current.reverse ++ t ≠ []) :
    linesFrom current t = [current.reverse ++ t] := by
  have hlast : (t.reverse ++ current).isEmpty = false := by
    rw [List.isEmpty_eq_false_iff]
    intro hnil
    exact hne (by simpa [and_comm] using hnil)
  have hsplit := linesFrom_append h current []
  rw [List.append_nil, linesFrom, hlast] at hsplit
  simpa using hsplit

/-- What follows a carriage return decides whether the two end one line. -/
theorem not_lineFeed_append {c : Char} {t u : List Char}
    (ht : ∀ rest, c = '\r' → t = '\n' :: rest → False)
    (hu : t = [] → ∀ rest, c = '\r' → u = '\n' :: rest → False) :
    ∀ rest, c = '\r' → t ++ u = '\n' :: rest → False := by
  intro rest hc happend
  cases t with
  | nil => exact hu rfl rest hc happend
  | cons d t =>
      obtain ⟨rfl, -⟩ := List.cons.inj happend
      exact ht t hc rfl

/-- A line feed closes a line. The lines before it depend on the text before it only. -/
theorem exists_linesFrom_append_lineFeed (current t : List Char) :
    ∃ before, ∀ rest, linesFrom current (t ++ '\n' :: rest) = before ++ lines rest := by
  induction current, t using linesFrom.induct with
  | case1 current _ | case2 current _ =>
      exact ⟨[current.reverse], linesFrom_lineFeed current⟩
  | case3 current t ih =>
      obtain ⟨before, hbefore⟩ := ih
      exact ⟨current.reverse :: before, fun rest => congrArg (List.cons _) (hbefore rest)⟩
  | case4 current c t hne hend ih =>
      by_cases hlast : c = '\r' ∧ t = []
      · obtain ⟨rfl, rfl⟩ := hlast
        exact ⟨[current.reverse], fun rest => rfl⟩
      · obtain ⟨before, hbefore⟩ := ih
        refine ⟨current.reverse :: before, ?_⟩
        intro rest
        have hnext := not_lineFeed_append (u := '\n' :: rest) hne
          fun ht _ hc _ => hlast ⟨hc, ht⟩
        rw [List.cons_append, linesFrom_cons_of_isLineEnd hend hnext, hbefore]
        rfl
  | case5 current c t hne hend ih =>
      obtain ⟨before, hbefore⟩ := ih
      refine ⟨before, ?_⟩
      intro rest
      rw [List.cons_append, linesFrom_cons_of_not_isLineEnd (Bool.eq_false_iff.mpr hend), hbefore]

/-- A text that ends in no line end is listed with its lines before a line feed. -/
theorem linesFrom_append_lineFeed {c : Char} (h : isLineEnd c = false)
    (current t rest : List Char) :
    linesFrom current (t ++ c :: '\n' :: rest) = linesFrom current (t ++ [c]) ++ lines rest := by
  induction current, t using linesFrom.induct with
  | case1 current _ | case2 current _ =>
      rw [List.nil_append, List.nil_append, linesFrom_cons_of_not_isLineEnd h,
        linesFrom_cons_of_not_isLineEnd h, linesFrom_lineFeed]
      rfl
  | case3 current t ih => exact congrArg (List.cons _) ih
  | case4 current d t hne hend ih =>
      have hnext (u : List Char) := not_lineFeed_append (u := c :: u) hne fun _ _ _ hu => by
        rw [(List.cons.inj hu).1] at h
        cases h
      rw [List.cons_append, List.cons_append, linesFrom_cons_of_isLineEnd hend (hnext _),
        linesFrom_cons_of_isLineEnd hend (hnext _), ih]
      rfl
  | case5 current d t hne hend ih =>
      have hend := Bool.eq_false_iff.mpr hend
      rw [List.cons_append, List.cons_append, linesFrom_cons_of_not_isLineEnd hend,
        linesFrom_cons_of_not_isLineEnd hend, ih]

/-- Lines are parts of the text. -/
theorem infix_of_mem_linesFrom {line current t : List Char} (h : line ∈ linesFrom current t) :
    line <:+: current.reverse ++ t := by
  induction current, t using linesFrom.induct with
  | case1 current hempty =>
      rw [linesFrom, if_pos hempty] at h
      cases h
  | case2 current hempty =>
      rw [linesFrom, if_neg hempty] at h
      rw [List.mem_singleton.mp h]
      exact (List.prefix_append _ _).isInfix
  | case3 current t ih =>
      rcases List.mem_cons.mp h with rfl | h
      · exact (List.prefix_append _ _).isInfix
      · exact (ih h).trans ⟨current.reverse ++ ['\r', '\n'], [], by simp⟩
  | case4 current c t hne hend ih =>
      rw [linesFrom_cons_of_isLineEnd hend hne] at h
      rcases List.mem_cons.mp h with rfl | h
      · exact (List.prefix_append _ _).isInfix
      · exact (ih h).trans ⟨current.reverse ++ [c], [], by simp⟩
  | case5 current c t hne hend ih =>
      rw [linesFrom_cons_of_not_isLineEnd (Bool.eq_false_iff.mpr hend)] at h
      simpa using ih h

theorem infix_of_mem_lines {line t : List Char} (h : line ∈ lines t) : line <:+: t :=
  infix_of_mem_linesFrom h

/-- Lines hold no line ends. -/
theorem not_isLineEnd_of_mem_linesFrom {line current t : List Char}
    (hcurrent : ∀ c ∈ current, isLineEnd c = false) (h : line ∈ linesFrom current t) :
    ∀ c ∈ line, isLineEnd c = false := by
  have hreverse : ∀ c ∈ current.reverse, isLineEnd c = false :=
    fun c hc => hcurrent c (List.mem_reverse.mp hc)
  induction current, t using linesFrom.induct with
  | case1 current hempty =>
      rw [linesFrom, if_pos hempty] at h
      cases h
  | case2 current hempty =>
      rw [linesFrom, if_neg hempty] at h
      rwa [List.mem_singleton.mp h]
  | case3 current t ih =>
      rcases List.mem_cons.mp h with rfl | h
      · exact hreverse
      · exact ih not_isLineEnd_nil h not_isLineEnd_nil
  | case4 current c t hne hend ih =>
      rw [linesFrom_cons_of_isLineEnd hend hne] at h
      rcases List.mem_cons.mp h with rfl | h
      · exact hreverse
      · exact ih not_isLineEnd_nil h not_isLineEnd_nil
  | case5 current c t hne hend ih =>
      have hend := Bool.eq_false_iff.mpr hend
      rw [linesFrom_cons_of_not_isLineEnd hend] at h
      have hnext : ∀ d ∈ c :: current, isLineEnd d = false :=
        List.forall_mem_cons.mpr ⟨hend, hcurrent⟩
      exact ih hnext h fun d hd => hnext d (List.mem_reverse.mp hd)

/-- A text with a line end is longer than each of its lines. -/
theorem length_lt_of_mem_lines {line t : List Char} (h : line ∈ lines t)
    (hend : ∃ c ∈ t, isLineEnd c = true) : line.length < t.length := by
  apply Nat.lt_of_le_of_ne (infix_of_mem_lines h).length_le
  intro hlength
  obtain ⟨c, hc, hend⟩ := hend
  have hline := not_isLineEnd_of_mem_linesFrom not_isLineEnd_nil h
  rw [(infix_of_mem_lines h).eq_of_length hlength] at hline
  rw [hline c hc] at hend
  cases hend

/-- The first line starts with what was read of it. -/
theorem exists_linesFrom_eq_cons {current : List Char} (h : current ≠ []) (t : List Char) :
    ∃ more after, linesFrom current t = (current.reverse ++ more) :: after := by
  induction current, t using linesFrom.induct with
  | case1 current hempty => exact absurd (List.isEmpty_iff.mp hempty) h
  | case2 current hempty =>
      refine ⟨[], [], ?_⟩
      rw [linesFrom, if_neg hempty, List.append_nil]
  | case3 current t _ =>
      refine ⟨[], linesFrom [] t, ?_⟩
      rw [List.append_nil]
      rfl
  | case4 current c t hne hend _ =>
      refine ⟨[], linesFrom [] t, ?_⟩
      rw [linesFrom_cons_of_isLineEnd hend hne, List.append_nil]
  | case5 current c t hne hend ih =>
      obtain ⟨more, after, hlines⟩ := ih (List.cons_ne_nil c current)
      refine ⟨c :: more, after, ?_⟩
      rw [linesFrom_cons_of_not_isLineEnd (Bool.eq_false_iff.mpr hend), hlines, List.reverse_cons,
        List.append_assoc]
      rfl

/-- A text that starts with a piece without line ends has a line that starts with it. -/
theorem exists_mem_lines_append {piece : List Char} (hne : piece ≠ [])
    (h : ∀ c ∈ piece, isLineEnd c = false) (t : List Char) :
    ∃ more, piece ++ more ∈ lines (piece ++ t) := by
  have hreverse : piece.reverse ≠ [] := by
    rwa [ne_eq, List.reverse_eq_nil_iff]
  obtain ⟨more, after, hlines⟩ := exists_linesFrom_eq_cons hreverse t
  refine ⟨more, ?_⟩
  rw [lines, linesFrom_append h, List.append_nil, hlines, List.reverse_reverse]
  exact List.mem_cons_self

end PluginContract.Text
