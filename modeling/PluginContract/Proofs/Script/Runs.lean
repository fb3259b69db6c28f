import PluginContract.Proofs.Script.Passing

/-!
# Runs of the scanner

The end of a literal is found by a loop over its characters, the closer of a bracket by a loop over
code. Each calls the other: a template passes over its interpolations by matching their braces, and
code passes over literals. A run is told step by step here, with no bound on its length. Every run
ends with what the functions on roles tell at once, each of these has a run, and a literal
is looked up nowhere but at its own opening quote.
-/

namespace PluginContract.Script

open Text Region

/-- What a run is there to find from an offset on. -/
inductive Task
  /-- The end of the literal that is opened at the offset. -/
  | literal
  /-- The end of a literal that is open before the offset. -/
  | inside (quote : Char)
  /-- The end of what starts at the offset in code. -/
  | span
  /-- The closer of the outermost of some open brackets. -/
  | brackets (pairing : Pairing) (awaited : List Char)
  /-- The delimiter that closes the one at the offset. -/
  | pair (opens closes : Char)

/-- A run for a task from an offset on, with what it finds and the offsets at which it looks up
literals. A literal that nothing closes ends with the text. No literal can be looked up at an offset
where no character stands, so a run that comes to that does not go on. -/
inductive Run (t : List Char) : Task → Nat → (found : Option Nat) → (lookups : List Nat) → Prop
  /-- The quote is read, and then the inside. -/
  | literal {quote : Char} {i : Nat} {found : Option Nat} {lookups : List Nat}
      (hc : t[i]? = some quote) (rest : Run t (.inside quote) (i + 1) found lookups) :
      Run t .literal i found (i :: lookups)
  /-- An escape may step past the text. -/
  | unclosed {quote : Char} {i : Nat} (hi : t.length ≤ i) :
      Run t (.inside quote) i (some t.length) []
  | escape {quote : Char} {i : Nat} {found : Option Nat} {lookups : List Nat}
      (hc : t[i]? = some '\\') (rest : Run t (.inside quote) (i + 2) found lookups) :
      Run t (.inside quote) i found lookups
  | quote {quote : Char} {i : Nat} (hc : t[i]? = some quote) (hescape : quote ≠ '\\') :
      Run t (.inside quote) i (some i) []
  /-- An interpolation is passed over up to the brace that matches its own. -/
  | interpolation {i close : Nat} {found : Option Nat} {lookups more : List Nat}
      (hc : t[i]? = some '$') (hbrace : t[i + 1]? = some '\x7b')
      (inner : Run t (.pair '\x7b' '\x7d') (i + 1) (some close) lookups)
      (rest : Run t (.inside backtick) (close + 1) found more) :
      Run t (.inside backtick) i found (lookups ++ more)
  | interpolationOpen {i : Nat} {lookups : List Nat}
      (hc : t[i]? = some '$') (hbrace : t[i + 1]? = some '\x7b')
      (inner : Run t (.pair '\x7b' '\x7d') (i + 1) none lookups) :
      Run t (.inside backtick) i (some t.length) lookups
  | character {quote c : Char} {i : Nat} {found : Option Nat} {lookups : List Nat}
      (hc : t[i]? = some c) (hescape : c ≠ '\\') (hquote : c ≠ quote)
      (hbrace : ¬ (quote = backtick ∧ c = '$' ∧ t[i + 1]? = some '\x7b'))
      (rest : Run t (.inside quote) (i + 1) found lookups) :
      Run t (.inside quote) i found lookups
  /-- A literal is passed over by looking up its end. -/
  | quoted {quote : Char} {i : Nat} {found : Option Nat} {lookups : List Nat}
      (hc : t[i]? = some quote) (hquote : isQuote quote = true)
      (inner : Run t .literal i found lookups) : Run t .span i found lookups
  | regex {i e : Nat} (hc : t[i]? = some '/') (hn : commentEnd? t i = none)
      (he : regexEnd? t i = some e) : Run t .span i (some e) []
  | single {c : Char} {i : Nat} (hc : t[i]? = some c) (hquote : isQuote c = false)
      (hn : commentEnd? t i = none) (hregex : c = '/' → regexEnd? t i = none) :
      Run t .span i (some i) []
  | ended {pairing : Pairing} {awaited : List Char} {i : Nat} (hi : t.length ≤ i) :
      Run t (.brackets pairing awaited) i none []
  | comment {pairing : Pairing} {awaited : List Char} {i e : Nat} {found : Option Nat}
      {lookups : List Nat} (he : commentEnd? t i = some e)
      (rest : Run t (.brackets pairing awaited) (e + 1) found lookups) :
      Run t (.brackets pairing awaited) i found lookups
  | closed {pairing : Pairing} {awaited : List Char} {c : Char} {i : Nat}
      (hc : t[i]? = some c) (hn : commentEnd? t i = none)
      (hstep : bracketStep? pairing awaited (t.take i).getLast? c = some []) :
      Run t (.brackets pairing awaited) i (some i) []
  /-- A character goes to the stack of open brackets before what it starts is passed over. -/
  | passed {pairing : Pairing} {awaited : List Char} {c : Char} {i e : Nat} {found : Option Nat}
      {lookups more : List Nat} (hc : t[i]? = some c) (hn : commentEnd? t i = none)
      (hstep : bracketStep? pairing awaited (t.take i).getLast? c ≠ some [])
      (inner : Run t .span i (some e) lookups)
      (rest : Run t (.brackets pairing
        ((bracketStep? pairing awaited (t.take i).getLast? c).getD awaited)) (e + 1) found more) :
      Run t (.brackets pairing awaited) i found (lookups ++ more)
  | elsewhere {opens closes : Char} {i : Nat} (hc : t[i]? ≠ some opens) :
      Run t (.pair opens closes) i none []
  | pair {opens closes : Char} {i : Nat} {found : Option Nat} {lookups : List Nat}
      (hc : t[i]? = some opens)
      (rest : Run t (.brackets (Pairing.brackets.also opens closes) []) i found lookups) :
      Run t (.pair opens closes) i found lookups

/-- The offset of the character that closes the outermost of some open brackets. -/
def closeFrom? (t : List Char) (pairing : Pairing) (awaited : List Char) (i : Nat) : Option Nat :=
  (distanceToClose? pairing awaited (t.take i).getLast? (scanAt t i)).map (i + ·)

/-- What there is to find, told from the roles of the characters. -/
def Task.outcome (t : List Char) (i : Nat) : Task → Option Nat
  | literal => literalEnd? t i
  | inside quote => some (literalStop t quote i)
  | span => spanEnd? t i
  | brackets pairing awaited => closeFrom? t pairing awaited i
  | pair opens closes => matching? t i opens closes

section Brackets

variable {t : List Char} {pairing : Pairing} {awaited next : List Char} {c : Char} {i e j : Nat}
  {before : Option Char}

theorem distanceToClose?_unseen {inside : List (Char × Role)}
    (hunseen : ∀ entry ∈ inside, entry.2.isSeen = false) (before : Option Char)
    (s : List (Char × Role)) :
    distanceToClose? pairing awaited before (inside ++ s) =
      (distanceToClose? pairing awaited ((inside.map Prod.fst).getLast?.or before) s).map
        (· + inside.length) := by
  induction inside generalizing before with
  | nil => simp
  | cons entry inside ih =>
      obtain ⟨hentry, hinside⟩ := List.forall_mem_cons.mp hunseen
      rw [List.cons_append, distanceToClose?, List.map_cons, Pattern.getLast?_cons_or]
      simp [hentry, ih hinside, Function.comp_def, Nat.add_assoc]

/-- The brackets stay open over what is passed over. -/
theorem distanceToClose?_of_passesTo {regions : List Region} (h : PassesTo t regions i j)
    (hij : i ≤ j) :
    (distanceToClose? pairing awaited (t.take i).getLast?
      (scanFrom (t.take i).reverse regions (t.drop i))).map (i + ·) =
        closeFrom? t pairing awaited j := by
  obtain ⟨inside, hunseen, hscan, hinside, hlength⟩ := h.exists_inside hij
  have htake : t.take j = t.take i ++ (t.drop i).take (j - i) := by
    rw [← List.take_add, Nat.add_sub_cancel' hij]
  rw [hscan, distanceToClose?_unseen hunseen, hinside, ← List.getLast?_append, ← htake, closeFrom?,
    Option.map_map]
  by_cases hj : j ≤ t.length
  · rw [hlength hj]
    congr 1
    funext n
    exact (by omega : i + (n + (j - i)) = j + n)
  · rw [scanAt_of_length_le (Nat.le_of_not_le hj)]
    rfl

theorem closeFrom?_of_length_le (hi : t.length ≤ i) : closeFrom? t pairing awaited i = none := by
  rw [closeFrom?, scanAt_of_length_le hi]
  rfl

theorem closeFrom?_comment (he : commentEnd? t i = some e) :
    closeFrom? t pairing awaited i = closeFrom? t pairing awaited (e + 1) := by
  obtain ⟨hlt, -, hpass⟩ := passesTo_comment he
  exact distanceToClose?_of_passesTo hpass (by omega)

theorem closeFrom?_closed (hseen : SeenTo t i c j)
    (hstep : bracketStep? pairing awaited (t.take i).getLast? c = some []) :
    closeFrom? t pairing awaited i = some i := by
  obtain ⟨regions, hrole, hscan, -⟩ := hseen
  rw [closeFrom?, hscan, distanceToClose?]
  simp [hrole, hstep]

theorem closeFrom?_passed (hc : t[i]? = some c) (hseen : SeenTo t i c j) (hij : i < j)
    (hstep : bracketStep? pairing awaited (t.take i).getLast? c ≠ some []) :
    closeFrom? t pairing awaited i = closeFrom? t pairing
      ((bracketStep? pairing awaited (t.take i).getLast? c).getD awaited) j := by
  obtain ⟨regions, hrole, hscan, hpass⟩ := hseen
  have hlast : (t.take (i + 1)).getLast? = some c := by
    rw [List.take_add_one, hc, Option.toList_some, List.getLast?_concat]
  rw [← distanceToClose?_of_passesTo hpass hij, hlast, closeFrom?, hscan, distanceToClose?]
  have hoffset (found : Option Nat) : (found.map (· + 1)).map (i + ·) = found.map (i + 1 + ·) := by
    rw [Option.map_map]
    congr 1
    funext n
    exact (by omega : i + (n + 1) = i + 1 + n)
  cases hnext : bracketStep? pairing awaited (t.take i).getLast? c with
  | none => simp only [hrole, if_true, Option.getD_none, hoffset]
  | some next =>
      cases next with
      | nil => exact absurd hnext hstep
      | cons close next => simp only [hrole, if_true, Option.getD_some, hoffset]

end Brackets

/-- Where what is found can lie: nowhere before the offset, and past the text only as its length. -/
def Task.Bounds (t : List Char) (i : Nat) : Task → (found : Option Nat) → Prop
  | literal, found =>
      ∃ r, found = some r ∧ i < r ∧ r ≤ t.length ∧ (r < t.length → t[r]? = t[i]?)
  | inside quote, found =>
      ∃ r, found = some r ∧ min i t.length ≤ r ∧ r ≤ t.length ∧ (r < t.length → t[r]? = some quote)
  | span, found => ∃ r, found = some r ∧ i ≤ r ∧ r ≤ t.length
  | brackets _ _, found => ∀ r ∈ found, i ≤ r ∧ r < t.length
  | pair _ _, found => ∀ r ∈ found, i ≤ r ∧ r < t.length

section Runs

variable {t : List Char} {task : Task} {i : Nat} {found : Option Nat} {lookups : List Nat}

theorem bounds_of_regexEnd? {e : Nat} (hi : i < t.length) (he : regexEnd? t i = some e) :
    i ≤ e ∧ e ≤ t.length := by
  rw [regexEnd?] at he
  split at he
  · obtain ⟨n, hn, rfl⟩ := Option.map_eq_some_iff.mp he
    have hle := regexLength?_le hn
    rw [List.length_drop] at hle
    omega
  · cases he

theorem Run.bounds (h : Run t task i found lookups) : task.Bounds t i found := by
  have lt {c : Char} {j : Nat} (hc : t[j]? = some c) : j < t.length :=
    (List.getElem?_eq_some_iff.mp hc).1
  induction h with
  | literal hc _ ih =>
      obtain ⟨r, hfound, hmin, hle, hquote⟩ := ih
      have hi := lt hc
      exact ⟨r, hfound, by omega, hle, fun hr => (hquote hr).trans hc.symm⟩
  | unclosed _ => exact ⟨_, rfl, Nat.min_le_right _ _, Nat.le_refl _, fun h => absurd h (by omega)⟩
  | escape hc _ ih =>
      obtain ⟨r, hfound, hmin, hle, hquote⟩ := ih
      exact ⟨r, hfound, by omega, hle, hquote⟩
  | quote hc _ => exact ⟨_, rfl, Nat.min_le_left _ _, Nat.le_of_lt (lt hc), fun _ => hc⟩
  | interpolation _ hbrace _ _ ihInner ih =>
      obtain ⟨hclose, -⟩ := ihInner _ rfl
      obtain ⟨r, hfound, hmin, hle, hquote⟩ := ih
      exact ⟨r, hfound, by omega, hle, hquote⟩
  | interpolationOpen _ _ _ _ =>
      exact ⟨_, rfl, Nat.min_le_right _ _, Nat.le_refl _, fun h => absurd h (by omega)⟩
  | character _ _ _ _ _ ih =>
      obtain ⟨r, hfound, hmin, hle, hquote⟩ := ih
      exact ⟨r, hfound, by omega, hle, hquote⟩
  | quoted _ _ _ ih =>
      obtain ⟨r, hfound, hlt, hle, -⟩ := ih
      exact ⟨r, hfound, Nat.le_of_lt hlt, hle⟩
  | regex hc _ he => exact ⟨_, rfl, bounds_of_regexEnd? (lt hc) he⟩
  | single hc _ _ _ => exact ⟨_, rfl, Nat.le_refl _, Nat.le_of_lt (lt hc)⟩
  | ended _ => nofun
  | comment he _ ih =>
      obtain ⟨hlt, -, -⟩ := passesTo_comment he
      intro r hr
      have hbounds := ih r hr
      omega
  | closed hc _ _ =>
      intro r hr
      obtain rfl := Option.some.inj hr
      exact ⟨Nat.le_refl _, lt hc⟩
  | passed _ _ _ _ _ ihInner ih =>
      obtain ⟨e, heq, hle, -⟩ := ihInner
      obtain rfl := Option.some.inj heq
      intro r hr
      have hbounds := ih r hr
      omega
  | elsewhere _ => nofun
  | pair _ _ ih => exact ih

/-- A run finds what the roles of the characters tell. -/
theorem Run.eq_outcome (h : Run t task i found lookups) : found = task.outcome t i := by
  induction h with
  | literal hc _ ih => exact ih.trans (literalEnd?_eq_literalStop hc).symm
  | unclosed hi => exact congrArg some (literalStop_of_length_le hi).symm
  | escape hc _ ih => exact ih.trans (congrArg some (literalStop_escape hc).symm)
  | quote hc hescape => exact congrArg some (literalStop_quote hc hescape).symm
  | @interpolation i close found _ _ hc hbrace _ _ ihInner ih =>
      have hmatching : matching? t (i + 1) '\x7b' '\x7d' = some close := ihInner.symm
      rw [ih, Task.outcome, Task.outcome, literalStop_interpolation hc hbrace, hmatching]
  | @interpolationOpen i _ hc hbrace _ ihInner =>
      have hmatching : matching? t (i + 1) '\x7b' '\x7d' = none := ihInner.symm
      rw [Task.outcome, literalStop_interpolation hc hbrace, hmatching]
  | character hc hescape hquote hbrace _ ih =>
      exact ih.trans (congrArg some (literalStop_succ hc hescape hquote hbrace).symm)
  | quoted hc hquote _ ih =>
      rw [ih, Task.outcome, Task.outcome, spanEnd?, hc]
      exact (if_pos hquote).symm
  | regex hc hn he =>
      rw [Task.outcome, spanEnd?, hc]
      simp [hn, he, isQuote, backtick]
  | single hc hquote hn hregex =>
      rw [Task.outcome, spanEnd?, hc]
      dsimp only
      rw [if_neg (by simp [hquote])]
      split
      · rename_i hslash
        rw [hn, hregex hslash]
      · rfl
  | ended hi => exact (closeFrom?_of_length_le hi).symm
  | comment he _ ih => exact ih.trans (closeFrom?_comment he).symm
  | closed hc hn hstep =>
      obtain ⟨e, he⟩ := exists_spanEnd? hc
      exact (closeFrom?_closed (seenTo_of_spanEnd? hc hn he) hstep).symm
  | passed hc hn hstep inner _ ihInner ih =>
      obtain ⟨e, heq, hle, -⟩ := inner.bounds
      obtain rfl := Option.some.inj heq
      exact ih.trans (closeFrom?_passed hc (seenTo_of_spanEnd? hc hn ihInner.symm)
        (Nat.lt_succ_of_le hle) hstep).symm
  | elsewhere hc => exact (if_neg hc).symm
  | pair hc _ ih => exact ih.trans (if_pos hc).symm

/-- Whether a quote stands at an offset. -/
def OnQuote (t : List Char) (i : Nat) : Prop := ∃ c, t[i]? = some c ∧ isQuote c = true

/-- Literals are looked up at their opening quotes only. -/
theorem Run.onQuote (h : Run t task i found lookups) :
    (task = .literal → OnQuote t i) → ∀ j ∈ lookups, OnQuote t j := by
  induction h with
  | literal _ _ ih => exact fun hquote => List.forall_mem_cons.mpr ⟨hquote rfl, ih nofun⟩
  | unclosed _ => exact fun _ => nofun
  | escape _ _ ih => exact fun _ => ih nofun
  | quote _ _ => exact fun _ => nofun
  | interpolation _ _ _ _ ihInner ih =>
      exact fun _ => List.forall_mem_append.mpr ⟨ihInner nofun, ih nofun⟩
  | interpolationOpen _ _ _ ihInner => exact fun _ => ihInner nofun
  | character _ _ _ _ _ ih => exact fun _ => ih nofun
  | quoted hc hquote _ ih => exact fun _ => ih fun _ => ⟨_, hc, hquote⟩
  | regex _ _ _ => exact fun _ => nofun
  | single _ _ _ _ => exact fun _ => nofun
  | ended _ => exact fun _ => nofun
  | comment _ _ ih => exact fun _ => ih nofun
  | closed _ _ _ => exact fun _ => nofun
  | passed _ _ _ _ _ ihInner ih =>
      exact fun _ => List.forall_mem_append.mpr ⟨ihInner nofun, ih nofun⟩
  | elsewhere _ => exact fun _ => nofun
  | pair _ _ ih => exact fun _ => ih nofun

/-- Whether a task has a run that comes to an end. -/
def Ends (t : List Char) (task : Task) (i : Nat) : Prop :=
  ∃ found lookups, Run t task i found lookups

/-- Whether the two loops come to an end from an offset on, whatever is open there. -/
structure LoopsEnd (t : List Char) (i : Nat) : Prop where
  inside : ∀ quote, Ends t (.inside quote) i
  brackets : ∀ pairing awaited, Ends t (.brackets pairing awaited) i

theorem LoopsEnd.pair (h : LoopsEnd t i) (opens closes : Char) : Ends t (.pair opens closes) i := by
  by_cases hc : t[i]? = some opens
  · obtain ⟨found, lookups, hrun⟩ := h.brackets (Pairing.brackets.also opens closes) []
    exact ⟨found, lookups, .pair hc hrun⟩
  · exact ⟨none, [], .elsewhere hc⟩

theorem ends_literal {c : Char} (hc : t[i]? = some c) (hnext : LoopsEnd t (i + 1)) :
    Ends t .literal i := by
  obtain ⟨found, lookups, hrun⟩ := hnext.inside c
  exact ⟨found, i :: lookups, .literal hc hrun⟩

theorem ends_span {c : Char} (hc : t[i]? = some c) (hn : commentEnd? t i = none)
    (hnext : LoopsEnd t (i + 1)) : Ends t .span i := by
  cases hquote : isQuote c with
  | true =>
      obtain ⟨found, lookups, hrun⟩ := ends_literal hc hnext
      exact ⟨found, lookups, .quoted hc hquote hrun⟩
  | false =>
      by_cases hregex : c = '/' ∧ (regexEnd? t i).isSome
      · obtain ⟨rfl, hsome⟩ := hregex
        obtain ⟨e, he⟩ := Option.isSome_iff_exists.mp hsome
        exact ⟨some e, [], .regex hc hn he⟩
      · refine ⟨some i, [], .single hc hquote hn fun hslash => ?_⟩
        simpa [hslash] using hregex

/-- In a literal the loop goes on from a later offset, past an interpolation from the one after its
closing brace. -/
theorem ends_inside {c : Char} (hc : t[i]? = some c) (h : ∀ j, i < j → LoopsEnd t j)
    (quote : Char) : Ends t (.inside quote) i := by
  by_cases hescape : c = '\\'
  · subst hescape
    obtain ⟨found, lookups, hrun⟩ := (h (i + 2) (by omega)).inside quote
    exact ⟨found, lookups, .escape hc hrun⟩
  by_cases hquote : c = quote
  · subst hquote
    exact ⟨some i, [], .quote hc hescape⟩
  by_cases hbrace : quote = backtick ∧ c = '$' ∧ t[i + 1]? = some '\x7b'
  · obtain ⟨rfl, rfl, hopen⟩ := hbrace
    obtain ⟨found, lookups, hinner⟩ := (h (i + 1) (Nat.lt_succ_self i)).pair '\x7b' '\x7d'
    cases found with
    | none => exact ⟨some t.length, lookups, .interpolationOpen hc hopen hinner⟩
    | some close =>
        obtain ⟨hclose, -⟩ := hinner.bounds close rfl
        obtain ⟨found, more, hrun⟩ := (h (close + 1) (by omega)).inside backtick
        exact ⟨found, lookups ++ more, .interpolation hc hopen hinner hrun⟩
  · obtain ⟨found, lookups, hrun⟩ := (h (i + 1) (Nat.lt_succ_self i)).inside quote
    exact ⟨found, lookups, .character hc hescape hquote hbrace hrun⟩

/-- In code the loop goes on after what starts at the offset. -/
theorem ends_brackets {c : Char} (hc : t[i]? = some c) (h : ∀ j, i < j → LoopsEnd t j)
    (pairing : Pairing) (awaited : List Char) : Ends t (.brackets pairing awaited) i := by
  cases hn : commentEnd? t i with
  | some e =>
      obtain ⟨hlt, -, -⟩ := passesTo_comment hn
      obtain ⟨found, lookups, hrun⟩ := (h (e + 1) (by omega)).brackets pairing awaited
      exact ⟨found, lookups, .comment hn hrun⟩
  | none =>
      by_cases hstep : bracketStep? pairing awaited (t.take i).getLast? c = some []
      · exact ⟨some i, [], .closed hc hn hstep⟩
      · obtain ⟨found, lookups, hinner⟩ := ends_span hc hn (h (i + 1) (Nat.lt_succ_self i))
        obtain ⟨e, rfl, hle, -⟩ := hinner.bounds
        obtain ⟨found, more, hrun⟩ := (h (e + 1) (Nat.lt_succ_of_le hle)).brackets pairing
          ((bracketStep? pairing awaited (t.take i).getLast? c).getD awaited)
        exact ⟨found, lookups ++ more, .passed hc hn hstep hinner hrun⟩

/-- Every loop comes to an end, since it goes on from a later offset only. -/
theorem loopsEnd (t : List Char) (i : Nat) : LoopsEnd t i := by
  induction hleft : t.length - i using Nat.strongRecOn generalizing i with
  | ind left ih =>
      cases hc : t[i]? with
      | none =>
          have hi : t.length ≤ i := List.getElem?_eq_none_iff.mp hc
          exact ⟨fun _ => ⟨_, _, .unclosed hi⟩, fun _ _ => ⟨_, _, .ended hi⟩⟩
      | some c =>
          have hi : i < t.length := (List.getElem?_eq_some_iff.mp hc).1
          have h (j : Nat) (hj : i < j) : LoopsEnd t j := ih (t.length - j) (by omega) j rfl
          exact ⟨ends_inside hc h, ends_brackets hc h⟩

/-- Whether a task comes to an end, and every run finds the same and looks literals up at quotes
only. -/
structure Finds (t : List Char) (task : Task) (i : Nat) (found : Option Nat) : Prop where
  ends : ∃ lookups, Run t task i found lookups
  only : ∀ found' lookups, Run t task i found' lookups →
    found' = found ∧ ∀ j ∈ lookups, OnQuote t j

theorem Ends.finds (h : Ends t task i) (hquote : task = .literal → OnQuote t i) :
    Finds t task i (task.outcome t i) := by
  obtain ⟨found, lookups, hrun⟩ := h
  obtain rfl := hrun.eq_outcome
  exact ⟨⟨lookups, hrun⟩, fun _ _ hother => ⟨hother.eq_outcome, hother.onQuote hquote⟩⟩

/-- A look-up at a quote finds a later offset, of the same quote or past the text. -/
theorem finds_literal (h : OnQuote t i) :
    ∃ r, literalEnd? t i = some r ∧ Finds t .literal i (some r) ∧ i < r ∧ r ≤ t.length ∧
      (r < t.length → t[r]? = t[i]?) := by
  obtain ⟨c, hc, -⟩ := id h
  have hends : Ends t .literal i := ends_literal hc (loopsEnd t (i + 1))
  have hfinds : Finds t .literal i (literalEnd? t i) := hends.finds fun _ => h
  obtain ⟨lookups, hrun⟩ := hfinds.ends
  obtain ⟨r, hr, hbounds⟩ := hrun.bounds
  exact ⟨r, hr, hr ▸ hfinds, hbounds⟩

-- the last escape steps past the text
example : literalEnd? "\"ab\\".toList 0 = some 4 := by decide

theorem finds_matching (t : List Char) (i : Nat) (opens closes : Char) :
    Finds t (.pair opens closes) i (matching? t i opens closes) :=
  ((loopsEnd t i).pair opens closes).finds nofun

end Runs

end PluginContract.Script
