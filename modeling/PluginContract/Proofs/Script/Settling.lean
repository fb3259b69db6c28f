import PluginContract.Proofs.Script.Wrapping

/-!
# Stripping settles

Parentheses are taken away pair by pair, and assertions pass by pass until a pass changes
nothing. On every text, also with brackets or literals left open, both loops end, after no more
passes than the text has characters. Each pass cuts a trimmed piece out of what the pass before
it left, so what is left is a trimmed piece of the text, and neither loop takes anything from it.
-/

namespace PluginContract.Script

open Text

/-- What one pair of parentheses around a whole expression holds. -/
def unwrapOnce? (e : List Char) : Option (List Char) :=
  if e.head? = some '(' ∧ matching? e 0 '(' ')' = some (e.length - 1) then
    some (trim (e.drop 1).dropLast)
  else none

/-- What a pass over all kinds of layers leaves of an expression that it changes. -/
def peelOnce? (e : List Char) : Option (List Char) :=
  if peel e = e then none else some (peel e)

/-- A loop that makes so many passes, and ends where there is none to be made. -/
inductive Rounds (pass? : List Char → Option (List Char)) : Nat → List Char → List Char → Prop
  | done {e : List Char} (stops : pass? e = none) : Rounds pass? 0 e e
  | pass {n : Nat} {e e' r : List Char} (step : pass? e = some e')
      (more : Rounds pass? n e' r) : Rounds pass? (n + 1) e r

/-- What a loop of passes over a trimmed text comes to, whatever the text is. -/
structure Strips (pass? : List Char → Option (List Char))
    (strip : List Char → List Char) : Prop where
  ends : ∀ e, ∃ n ≤ e.length, Rounds pass? n (trim e) (strip e)
  piece : ∀ e, strip e <:+: e
  trimmed : ∀ e, trim (strip e) = strip e
  fixed : ∀ e, strip (strip e) = strip e

section Trimmed

variable {t u : List Char}

theorem trim_isInfix (t : List Char) : trim t <:+: t := by
  obtain ⟨lead, tail, heq, -, -⟩ := exists_trim t
  exact ⟨lead, tail, by rw [List.append_assoc, ← heq]⟩

/-- What a trimmed text starts with needs no trimming at its own start. -/
theorem trimStart_of_isPrefix (ht : trim t = t) (h : u <+: t) : trimStart u = u := by
  refine trimStart_of_head? fun c hc => ?_
  have hhead : (trim t).head? = some c := by
    obtain ⟨v, rfl⟩ := h
    rw [ht, List.head?_append, hc]
    rfl
  obtain ⟨v, hv⟩ := trimEnd_isPrefix (trimStart t)
  refine isBlank_of_head?_trimStart (t := t) ?_
  rw [← hv, List.head?_append, show (trimEnd (trimStart t)).head? = some c from hhead]
  rfl

end Trimmed

/-- A way of stripping that cuts a trimmed piece out of a trimmed text. -/
def Cuts (f : List Char → List Char) : Prop :=
  ∀ t, trim t = t → f t <:+: t ∧ trim (f t) = f t

namespace Cuts

variable {f g : List Char → List Char} {t : List Char}

theorem comp (hg : Cuts g) (hf : Cuts f) : Cuts fun t => g (f t) := by
  intro t ht
  obtain ⟨hfirst, htrim⟩ := hf t ht
  obtain ⟨hsecond, htrim'⟩ := hg (f t) htrim
  exact ⟨hsecond.trans hfirst, htrim'⟩

/-- What is left as it is by two ways of stripping is so by each. -/
theorem comp_eq_self (hg : Cuts g) (hf : Cuts f) (ht : trim t = t) (h : g (f t) = t) :
    f t = t ∧ g t = t := by
  obtain ⟨hfirst, htrim⟩ := hf t ht
  have hle := (hg (f t) htrim).1.length_le
  rw [h] at hle
  have heq : f t = t := hfirst.eq_of_length (Nat.le_antisymm hfirst.length_le hle)
  rw [heq] at h
  exact ⟨heq, h⟩

theorem eq_self_of_length_le (hf : Cuts f) (ht : trim t = t) (h : t.length ≤ (f t).length) :
    f t = t :=
  (hf t ht).1.eq_of_length (Nat.le_antisymm (hf t ht).1.length_le h)

/-- A trimmed piece of a trimmed text. -/
theorem ofTrim {u : List Char} (h : u <:+: t) : trim u <:+: t ∧ trim (trim u) = trim u :=
  ⟨(trim_isInfix u).trans h, trim_trim u⟩

end Cuts

section Layers

theorem inside_isInfix (e : List Char) : (e.drop 1).dropLast <:+: e :=
  (List.dropLast_prefix _).isInfix.trans (List.drop_suffix 1 e).isInfix

theorem cuts_unwrap : Cuts unwrap := by
  intro t ht
  induction t using unwrap.induct with
  | case1 t h ih =>
      obtain ⟨hpiece, htrim⟩ := ih (trim_trim _)
      rw [unwrap, dif_pos h]
      exact ⟨hpiece.trans (Cuts.ofTrim (inside_isInfix t)).1, htrim⟩
  | case2 t h =>
      rw [unwrap, dif_neg h]
      exact ⟨List.infix_rfl, ht⟩

theorem cuts_stripParens : Cuts stripParens := by
  intro t ht
  rw [stripParens, ht]
  exact cuts_unwrap t ht

theorem cuts_dropNonNull : Cuts dropNonNull := by
  intro t ht
  rw [dropNonNull]
  split
  · have hprefix : t.dropLast <+: t := List.dropLast_prefix t
    have htrim : trimEnd t.dropLast = trim t.dropLast := by
      rw [trim, trimStart_of_isPrefix ht hprefix]
    rw [htrim]
    exact Cuts.ofTrim hprefix.isInfix
  · exact ⟨List.infix_rfl, ht⟩

theorem cuts_dropAngled : Cuts dropAngled := by
  intro t ht
  rw [dropAngled]
  split
  · split
    · rename_i close _
      exact Cuts.ofTrim (List.drop_suffix (close + 1) t).isInfix
    · exact ⟨List.infix_rfl, ht⟩
  · exact ⟨List.infix_rfl, ht⟩

theorem cuts_dropAssertion : Cuts dropAssertion := by
  intro t ht
  rw [dropAssertion]
  split
  · rename_i found _
    exact Cuts.ofTrim (List.take_prefix found.start t).isInfix
  · exact ⟨List.infix_rfl, ht⟩

theorem cuts_peel : Cuts peel :=
  (cuts_dropAssertion.comp cuts_dropAngled).comp (cuts_dropNonNull.comp cuts_stripParens)

/-- What a pass over all kinds of layers does not change has no parentheses around it. -/
theorem stripParens_of_peel {t : List Char} (ht : trim t = t) (h : peel t = t) :
    stripParens t = t := by
  have houter := cuts_dropAssertion.comp cuts_dropAngled
  have hinner := (houter.comp_eq_self (cuts_dropNonNull.comp cuts_stripParens) ht h).1
  exact (cuts_dropNonNull.comp_eq_self cuts_stripParens ht hinner).1

theorem cuts_peelAll : Cuts peelAll := by
  intro t ht
  induction t using peelAll.induct with
  | case1 t hlt ih =>
      obtain ⟨hpiece, htrim⟩ := cuts_peel t ht
      obtain ⟨hmore, htrim'⟩ := ih htrim
      rw [peelAll, if_pos hlt]
      exact ⟨hmore.trans hpiece, htrim'⟩
  | case2 t hlt =>
      rw [peelAll, if_neg hlt]
      exact cuts_peel t ht

end Layers

section Loops

variable {t : List Char}

/-- Two characters go with each pair of parentheses. -/
theorem rounds_unwrap (t : List Char) :
    ∃ n, n + n ≤ t.length ∧ Rounds unwrapOnce? n t (unwrap t) := by
  induction t using unwrap.induct with
  | case1 t h ih =>
      obtain ⟨n, hn, hrounds⟩ := ih
      rw [unwrap, dif_pos h]
      refine ⟨n + 1, ?_, .pass (if_pos h) hrounds⟩
      have hshorter := trim_length_le (t.drop 1).dropLast
      have hpair := congrArg List.length (eq_of_matching? h.2).1
      rw [List.length_cons, List.length_append, List.length_singleton] at hpair
      omega
  | case2 t h =>
      rw [unwrap, dif_neg h]
      exact ⟨0, Nat.zero_le _, .done (if_neg h)⟩

/-- Nothing is peeled off what is left when all is peeled, and each pass before took something. -/
theorem rounds_peelAll (ht : trim t = t) :
    peel (peelAll t) = peelAll t ∧ ∃ n ≤ t.length, Rounds peelOnce? n t (peelAll t) := by
  induction t using peelAll.induct with
  | case1 t hlt ih =>
      obtain ⟨hfixed, n, hn, hrounds⟩ := ih (cuts_peel t ht).2
      have hne : peel t ≠ t := by
        intro heq
        rw [heq] at hlt
        exact Nat.lt_irrefl _ hlt
      rw [peelAll, if_pos hlt]
      exact ⟨hfixed, n + 1, by omega, .pass (if_neg hne) hrounds⟩
  | case2 t hlt =>
      have heq : peel t = t := cuts_peel.eq_self_of_length_le ht (Nat.le_of_not_lt hlt)
      rw [peelAll, if_neg hlt, heq]
      exact ⟨heq, 0, Nat.zero_le _, .done (if_pos heq)⟩

/-- A loop that starts at its own end makes no pass. -/
theorem Rounds.eq_of_stops {pass? : List Char → Option (List Char)} {n : Nat} {e r : List Char}
    (h : Rounds pass? n e r) (hstops : pass? e = none) : r = e := by
  cases h with
  | done stops => rfl
  | pass step more =>
      rw [hstops] at step
      cases step

theorem Rounds.stops {pass? : List Char → Option (List Char)} {n : Nat} {e r : List Char}
    (h : Rounds pass? n e r) : pass? r = none := by
  induction h with
  | done stops => exact stops
  | pass step more ih => exact ih

/-- A loop whose passes cut pieces out of a trimmed text settles. -/
theorem strips_of_cuts {pass? : List Char → Option (List Char)} {f : List Char → List Char}
    (hf : Cuts f) (hloop : ∀ t, trim t = t → ∃ n ≤ t.length, Rounds pass? n t (f t)) :
    Strips pass? fun e => f (trim e) where
  ends e := by
    obtain ⟨n, hn, hrounds⟩ := hloop (trim e) (trim_trim e)
    exact ⟨n, Nat.le_trans hn (trim_length_le e), hrounds⟩
  piece e := (hf (trim e) (trim_trim e)).1.trans (trim_isInfix e)
  trimmed e := (hf (trim e) (trim_trim e)).2
  fixed e := by
    obtain ⟨n, -, hrounds⟩ := hloop (trim e) (trim_trim e)
    have htrim := (hf (trim e) (trim_trim e)).2
    obtain ⟨m, -, hagain⟩ := hloop (f (trim e)) htrim
    rw [htrim, hagain.eq_of_stops hrounds.stops]

end Loops

/-- Parentheses and assertions are stripped in finitely many passes from every text, down to a
trimmed piece of it that neither way of stripping changes. -/
theorem stripping_settles :
    Strips unwrapOnce? stripParens ∧ Strips peelOnce? stripAssertions ∧
      ∀ e, stripParens (stripAssertions e) = stripAssertions e := by
  refine ⟨strips_of_cuts cuts_unwrap fun t _ => ?_, strips_of_cuts cuts_peelAll fun t ht => ?_,
    fun e => ?_⟩
  · obtain ⟨n, hn, hrounds⟩ := rounds_unwrap t
    exact ⟨n, by omega, hrounds⟩
  · exact (rounds_peelAll ht).2
  · have htrim := trim_trim e
    exact stripParens_of_peel (cuts_peelAll (trim e) htrim).2 (rounds_peelAll htrim).1

end PluginContract.Script
