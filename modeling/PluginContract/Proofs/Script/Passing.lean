import PluginContract.Proofs.Script.LiteralLoop
import PluginContract.Proofs.Script.Views

/-!
# Regions passed over as a whole

Once a scan has left code, nothing is seen before it is back in code. How many characters it
passes over on the way is what looking up the end of a literal, a comment or a regular expression
tells. So what is seen from an offset on is told by where the thing ends that starts there.
-/

namespace PluginContract.Script

open Text Region

theorem add_length_le_of_indexOf? {pattern u : List Char} {d : Nat}
    (h : indexOf? pattern u = some d) : d + pattern.length ≤ u.length := by
  induction u generalizing d with
  | nil =>
      rw [indexOf?] at h
      split at h
      · rename_i hempty
        obtain rfl := Option.some.inj h
        rw [List.isEmpty_iff.mp hempty]
        exact Nat.le_refl 0
      · cases h
  | cons c u ih =>
      rw [indexOf?] at h
      split at h
      · rename_i hstart
        obtain rfl := Option.some.inj h
        obtain ⟨rest, hrest⟩ := Option.isSome_iff_exists.mp hstart
        rw [after?_eq_some_iff.mp hrest, List.length_append]
        omega
      · obtain ⟨d, hd, rfl⟩ := Option.map_eq_some_iff.mp h
        have hle := ih hd
        rw [List.length_cons]
        omega

/-- Whether nothing is seen of so many characters, and the scan is in code after them. -/
def PassesOver (before : List Char) (regions : List Region) (u : List Char) (n : Nat) : Prop :=
  ∃ inside : List (Char × Role), (∀ entry ∈ inside, entry.2.isSeen = false) ∧
    scanFrom before regions u = inside ++ scanFrom ((u.take n).reverse ++ before) [] (u.drop n)

namespace PassesOver

variable {before u : List Char} {regions : List Region} {c : Char} {n : Nat}

theorem code (before u : List Char) : PassesOver before [] u 0 := ⟨[], nofun, rfl⟩

/-- The end of a text is passed over in any region. -/
theorem ended (before : List Char) (regions : List Region) (n : Nat) :
    PassesOver before regions [] n := ⟨[], nofun, by simp [scanFrom]⟩

theorem step {after : List Region} (hne : regions ≠ [])
    (hstep : Region.step before c u regions = after) (h : PassesOver (c :: before) after u n) :
    PassesOver before regions (c :: u) (n + 1) := by
  obtain ⟨inside, hunseen, hscan⟩ := h
  refine ⟨(c, Role.between regions after) :: inside, ?_, ?_⟩
  · refine List.forall_mem_cons.mpr ⟨?_, hunseen⟩
    exact Bool.eq_false_iff.mpr fun hseen => hne (eq_nil_of_isSeen hseen)
  · rw [scanFrom, hstep, hscan]
    simp

/-- The first character of a comment is not seen. -/
theorem comment {region : Region} (hcomment : region.isComment = true)
    (hstep : Region.step before c u [] = [region]) (h : PassesOver (c :: before) [region] u n) :
    PassesOver before [] (c :: u) (n + 1) := by
  obtain ⟨inside, hunseen, hscan⟩ := h
  refine ⟨(c, .comment) :: inside, List.forall_mem_cons.mpr ⟨rfl, hunseen⟩, ?_⟩
  have hrole : Role.between [] [region] = .comment := if_pos hcomment
  rw [scanFrom, hstep, hscan, hrole]
  simp

/-- Regions are passed over up to the character that leaves them all. -/
theorem out (hne : regions ≠ []) (before u : List Char) :
    PassesOver before regions u
      (match distanceOut? before regions u with
        | some d => d + 1
        | none => u.length) := by
  induction u generalizing before regions with
  | nil => exact .ended before regions _
  | cons c u ih =>
      cases hafter : Region.step before c u regions with
      | nil =>
          have hout : distanceOut? before regions (c :: u) = some 0 := by rw [distanceOut?, hafter]
          rw [hout]
          exact .step hne hafter (.code (c :: before) u)
      | cons region outer =>
          have hrest := ih (List.cons_ne_nil region outer) (c :: before)
          rw [distanceOut?_cons hafter (List.cons_ne_nil _ _)]
          cases hd : distanceOut? (c :: before) (region :: outer) u with
          | some d =>
              rw [hd] at hrest
              exact .step hne hafter hrest
          | none =>
              rw [hd] at hrest
              exact .step hne hafter hrest

theorem regex (n : Nat) (before u : List Char) : PassesOver before [.regex (n + 1)] u (n + 1) := by
  induction u generalizing before n with
  | nil => exact .ended before _ _
  | cons c u ih =>
      cases n with
      | zero => exact .step (List.cons_ne_nil _ _) rfl (.code _ _)
      | succ n => exact .step (List.cons_ne_nil _ _) rfl (ih n (c :: before))

/-- A comment to the end of its line goes on up to the line feed. -/
theorem line (before : List Char) (c : Char) (rest : List Char) :
    PassesOver before [.lineComment] (c :: rest) ((rest.takeWhile (· != '\n')).length + 1) := by
  induction rest generalizing before c with
  | nil => exact .step (List.cons_ne_nil _ _) rfl (.ended _ _ _)
  | cons d rest ih =>
      by_cases hd : d = '\n'
      · subst hd
        exact .step (List.cons_ne_nil _ _) rfl (.code _ _)
      · have hstep : Region.step before c (d :: rest) [.lineComment] = [.lineComment] := by
          simp [Region.step, hd]
        rw [List.takeWhile_cons, if_pos (by simpa using hd), List.length_cons]
        exact .step (List.cons_ne_nil _ _) hstep (ih (c :: before) d)

/-- The inside of a comment goes on up to the slash that closes it. -/
theorem block (before u : List Char) :
    PassesOver before [.blockComment] u
      (match indexOf? ['*', '/'] u with
        | some d => d + 2
        | none => u.length) := by
  induction u generalizing before with
  | nil => exact .ended before _ _
  | cons c u ih =>
      rw [indexOf?, isSome_after?_blockEnd]
      cases hclose : c == '*' && u.head? == some '/' with
      | true =>
          obtain ⟨d, u, rfl⟩ : ∃ d more, u = d :: more :=
            List.exists_cons_of_ne_nil (by rintro rfl; simp at hclose)
          have hstep : Region.step before c (d :: u) [.blockComment] = [.blockClosing] :=
            if_pos (by simpa using hclose)
          exact .step (List.cons_ne_nil _ _) hstep (.step (List.cons_ne_nil _ _) rfl (.code _ _))
      | false =>
          have hstep : Region.step before c u [.blockComment] = [.blockComment] :=
            if_neg (by simpa using hclose)
          have hrest := ih (c :: before)
          rw [if_neg Bool.false_ne_true]
          cases hd : indexOf? ['*', '/'] u with
          | some d =>
              rw [hd] at hrest
              exact .step (List.cons_ne_nil _ _) hstep hrest
          | none =>
              rw [hd] at hrest
              exact .step (List.cons_ne_nil _ _) hstep hrest

end PassesOver

section Offsets

variable {t : List Char} {c : Char} {i e : Nat}

/-- Whether nothing is seen between an offset and another, at which the scan is in code. -/
def PassesTo (t : List Char) (regions : List Region) (i j : Nat) : Prop :=
  ∃ inside : List (Char × Role), (∀ entry ∈ inside, entry.2.isSeen = false) ∧
    scanFrom (t.take i).reverse regions (t.drop i) = inside ++ scanAt t j

theorem PassesOver.passesTo {regions : List Region} {n : Nat}
    (h : PassesOver (t.take i).reverse regions (t.drop i) n) : PassesTo t regions i (i + n) := by
  obtain ⟨inside, hunseen, hscan⟩ := h
  refine ⟨inside, hunseen, ?_⟩
  rw [hscan, scanAt, List.drop_drop, ← List.reverse_append, ← List.take_add]

/-- What is passed over are the characters up to the second offset. -/
theorem PassesTo.exists_inside {regions : List Region} {j : Nat} (h : PassesTo t regions i j)
    (hij : i ≤ j) :
    ∃ inside : List (Char × Role), (∀ entry ∈ inside, entry.2.isSeen = false) ∧
      scanFrom (t.take i).reverse regions (t.drop i) = inside ++ scanAt t j ∧
      inside.map Prod.fst = (t.drop i).take (j - i) ∧ (j ≤ t.length → inside.length = j - i) := by
  obtain ⟨inside, hunseen, hscan⟩ := h
  have hchars := congrArg (List.map Prod.fst) hscan
  rw [scanFrom_chars, List.map_append, scanAt_chars] at hchars
  have hinside : inside.map Prod.fst = (t.drop i).take (j - i) := by
    have hsplit := List.take_append_drop (j - i) (t.drop i)
    rw [List.drop_drop, Nat.add_sub_cancel' hij] at hsplit
    exact List.append_cancel_right (hchars.symm.trans hsplit.symm)
  refine ⟨inside, hunseen, hscan, hinside, fun hj => ?_⟩
  have hlength := congrArg List.length hinside
  rw [List.length_map, List.length_take, List.length_drop] at hlength
  omega

theorem scanAt_of_length_le (h : t.length ≤ i) : scanAt t i = [] := by
  rw [scanAt, List.drop_eq_nil_of_le h]
  rfl

theorem passesTo_literal (t : List Char) (quote : Char) (i : Nat) :
    PassesTo t [.quoted quote] i (literalStop t quote i + 1) := by
  have hout := PassesOver.out (List.cons_ne_nil (.quoted quote) []) (t.take i).reverse (t.drop i)
  rw [literalStop]
  cases hd : distanceOut? (t.take i).reverse [.quoted quote] (t.drop i) with
  | some d =>
      rw [hd] at hout
      exact hout.passesTo
  | none =>
      rw [hd] at hout
      obtain ⟨inside, hunseen, hscan⟩ := hout.passesTo
      have hend : t.length ≤ i + (t.drop i).length := by
        rw [List.length_drop]
        omega
      refine ⟨inside, hunseen, ?_⟩
      rw [hscan, scanAt_of_length_le hend, scanAt_of_length_le (Nat.le_succ _)]

/-- Nothing is seen of a comment. -/
theorem passesTo_comment (he : commentEnd? t i = some e) :
    i < e ∧ e < t.length ∧ PassesTo t [] i (e + 1) := by
  have hi : i < t.length := lt_length_of_commentEnd? he
  have hdrop : (t.drop i).length = t.length - i := List.length_drop
  rw [commentEnd?] at he
  split at he
  · rename_i rest h
    obtain rfl := Option.some.inj he
    have hpass : PassesOver (t.take i).reverse [] (t.drop i)
        ((rest.takeWhile (· != '\n')).length + 1 + 1) := by
      rw [h]
      exact .comment rfl rfl (.line _ _ rest)
    have hle : (rest.takeWhile (· != '\n')).length ≤ rest.length :=
      (List.takeWhile_sublist _).length_le
    rw [h, List.length_cons, List.length_cons] at hdrop
    refine ⟨by omega, by omega, ?_⟩
    have hend : i + ((rest.takeWhile (· != '\n')).length + 1 + 1) =
        i + 1 + (rest.takeWhile (· != '\n')).length + 1 := by omega
    exact hend ▸ hpass.passesTo
  · rename_i rest h
    have hpass : PassesOver (t.take i).reverse [] (t.drop i)
        ((match indexOf? ['*', '/'] rest with
          | some d => d + 2
          | none => rest.length) + 1 + 1) := by
      rw [h]
      exact .comment rfl rfl (.step (List.cons_ne_nil _ _) rfl (.block _ rest))
    rw [h, List.length_cons, List.length_cons] at hdrop
    cases hindex : indexOf? ['*', '/'] rest with
    | some d =>
        have hle : d + 2 ≤ rest.length := add_length_le_of_indexOf? hindex
        rw [hindex] at he hpass
        obtain rfl := Option.some.inj he
        refine ⟨by omega, by omega, ?_⟩
        have hend : i + (d + 2 + 1 + 1) = i + 2 + d + 1 + 1 := by omega
        exact hend ▸ hpass.passesTo
    | none =>
        rw [hindex] at he hpass
        obtain rfl := Option.some.inj he
        refine ⟨by omega, by omega, ?_⟩
        have hend : i + (rest.length + 1 + 1) = t.length - 1 + 1 := by omega
        exact hend ▸ hpass.passesTo
  · cases he

theorem PassesTo.refl (t : List Char) (i : Nat) : PassesTo t [] i i := ⟨[], nofun, rfl⟩

theorem scanAt_cons (hc : t[i]? = some c) {regions : List Region}
    (hopened : (opened? (t.take i).reverse c (t.drop (i + 1))).toList = regions) :
    scanAt t i = (c, Role.between [] regions) ::
      scanFrom (t.take (i + 1)).reverse regions (t.drop (i + 1)) := by
  rw [scanAt, drop_eq_cons hc, scanFrom, step, hopened, reverse_take_succ hc]

/-- Whether a character is seen, and nothing else from there to an offset at which the scan is in
code. -/
def SeenTo (t : List Char) (i : Nat) (c : Char) (j : Nat) : Prop :=
  ∃ regions, (Role.between [] regions).isSeen = true ∧
    scanAt t i = (c, Role.between [] regions) ::
      scanFrom (t.take (i + 1)).reverse regions (t.drop (i + 1)) ∧
    PassesTo t regions (i + 1) j

theorem seenTo_single (hc : t[i]? = some c)
    (hopened : opened? (t.take i).reverse c (t.drop (i + 1)) = none) : SeenTo t i c (i + 1) :=
  ⟨[], rfl, scanAt_cons hc (by rw [hopened]; rfl), .refl t (i + 1)⟩

theorem seenTo_quote (hc : t[i]? = some c) (hquote : isQuote c = true) :
    SeenTo t i c (literalStop t c (i + 1) + 1) := by
  refine ⟨[.quoted c], rfl, scanAt_cons hc ?_, passesTo_literal t c (i + 1)⟩
  rw [opened?, if_pos hquote]
  rfl

theorem seenTo_regex (hc : t[i]? = some '/') (hn : commentEnd? t i = none)
    (he : regexEnd? t i = some e) : SeenTo t i '/' (e + 1) := by
  rw [regexEnd?] at he
  split at he
  · rename_i hoperand
    obtain ⟨n, hlength, rfl⟩ := Option.map_eq_some_iff.mp he
    obtain ⟨n, rfl⟩ := Nat.exists_eq_succ_of_ne_zero (Nat.ne_of_gt (regexLength?_pos hlength))
    have hpass : PassesTo t [.regex (n + 1)] (i + 1) (i + 1 + (n + 1)) :=
      (PassesOver.regex n _ _).passesTo
    rw [Nat.add_right_comm] at hpass
    refine ⟨[.regex (n + 1)], rfl, scanAt_cons hc ?_, hpass⟩
    rw [opened?_slash_of_length ((commentEnd?_eq_none_iff hc).mp hn) hlength, if_pos hoperand]
    rfl
  · cases he

theorem exists_spanEnd? (hc : t[i]? = some c) : ∃ e, spanEnd? t i = some e := by
  rw [spanEnd?, hc]
  dsimp only
  split
  · exact ⟨_, literalEnd?_eq_literalStop hc⟩
  · split
    · split <;> exact ⟨_, rfl⟩
    · exact ⟨_, rfl⟩

/-- What starts at an offset and is no comment is seen by its first character alone. -/
theorem seenTo_of_spanEnd? (hc : t[i]? = some c) (hn : commentEnd? t i = none)
    (he : spanEnd? t i = some e) : SeenTo t i c (e + 1) := by
  rw [spanEnd?, hc] at he
  dsimp only at he
  split at he
  · rename_i hquote
    rw [literalEnd?_eq_literalStop hc] at he
    obtain rfl := Option.some.inj he
    exact seenTo_quote hc hquote
  · rename_i hquote
    split at he
    · rename_i hslash
      subst hslash
      rw [hn] at he
      cases hregex : regexEnd? t i with
      | none =>
          rw [hregex] at he
          obtain rfl := Option.some.inj he
          exact seenTo_single hc (opened?_of_regexEnd?_eq_none hc hn hregex)
      | some e' =>
          rw [hregex] at he
          obtain rfl := Option.some.inj he
          exact seenTo_regex hc hn hregex
    · rename_i hslash
      obtain rfl := Option.some.inj he
      refine seenTo_single hc ?_
      rw [opened?, if_neg hquote, if_neg hslash]

end Offsets

end PluginContract.Script
