import PluginContract.Proofs.Script.BracketWords

/-!
# A literal read in a loop

A literal is read character by character up to its quote. A backslash takes the next character
along, and an interpolation of a template is passed over at once, up to the brace that matches
its opening one; the regions inside of it are those of a scan that starts at that brace.
-/

namespace PluginContract.Script

open Text Region

section Interpolations

variable {before u : List Char} {regions outer : List Region} {closers : List Char} {c : Char}

/-- A step in a region leaves what is around that region as it is. -/
theorem Region.step_append_outer (before : List Char) (c : Char) (rest : List Char)
    (region : Region) (inner outer : List Region) :
    step before c rest (region :: inner ++ outer) =
      step before c rest (region :: inner) ++ outer := by
  cases region with
  | quoted quote =>
      simp only [List.cons_append, step]
      split
      · rfl
      · split
        · rfl
        · split <;> rfl
  | escaped quote => rfl
  | interpolation closers =>
      simp only [List.cons_append, step]
      split
      · rfl
      · split <;> rfl
  | regex left =>
      simp only [List.cons_append, step]
      split <;> rfl
  | lineComment =>
      simp only [List.cons_append, step]
      split <;> rfl
  | blockOpening => rfl
  | blockComment =>
      simp only [List.cons_append, step]
      split <;> rfl
  | blockClosing => rfl

/-- What is left while regions around it stay, is left on the way out of these. -/
theorem distanceOut?_cons {after : List Region} (h : step before c u regions = after)
    (hne : after ≠ []) :
    distanceOut? before regions (c :: u) = (distanceOut? (c :: before) after u).map (· + 1) := by
  rw [distanceOut?, h]
  cases after with
  | nil => exact absurd rfl hne
  | cons region outer => rfl

/-- Closers of round, square and curly brackets. -/
def OfBrackets (closers : List Char) : Prop :=
  ∀ closes ∈ closers, ∃ opens, closingBracket? opens = some closes

theorem OfBrackets.closersAfter (h : OfBrackets closers) (c : Char) :
    OfBrackets (closersAfter c closers) := by
  rw [Region.closersAfter.eq_def]
  cases hc : closingBracket? c with
  | some close => exact List.forall_mem_cons.mpr ⟨⟨c, hc⟩, h⟩
  | none =>
      cases closers with
      | nil => exact h
      | cons close more =>
          dsimp only
          split
          · exact (List.forall_mem_cons.mp h).2
          · exact h

/-- The brackets that an interpolation still has to close go along as those of a match. -/
theorem bracketStep?_brackets (h : OfBrackets closers) (last : Option Char) (c : Char) :
    (bracketStep? .brackets closers last c).getD closers = closersAfter c closers := by
  rw [bracketStep?.eq_def, Region.closersAfter.eq_def, Pairing.brackets]
  cases closingBracket? c with
  | some close => rfl
  | none =>
      cases closers with
      | nil => rfl
      | cons close more =>
          dsimp only
          split
          · rename_i hc
            obtain ⟨opens, hopens⟩ := h close List.mem_cons_self
            have hangle : c ≠ '>' := by
              rintro rfl
              rw [← hc] at hopens
              rcases closingBracket?_cases hopens with ⟨-, h⟩ | ⟨-, h⟩ | ⟨-, h⟩ <;> cases h
            simp [hangle]
          · rfl

/-- What opens a literal is no bracket. -/
theorem bracketStep?_of_opened {rest : List Char} {region : Region}
    (h : opened? before c rest = some region) (hclosers : OfBrackets closers)
    (last : Option Char) : (bracketStep? .brackets closers last c).getD closers = closers := by
  have hbracket : Pairing.brackets.NoBracket c := by
    have hplain : isPlain c = false := by
      cases hplain : isPlain c with
      | false => rfl
      | true =>
          rw [opened?_of_isPlain hplain] at h
          cases h
    refine Pairing.among_brackets.noBracket fun pair hpair => ?_
    have hpairs : ∀ pair ∈ Pairing.bracketPairs, isPlain pair.1 = true ∧ isPlain pair.2 = true := by
      decide
    obtain ⟨hopens, hcloses⟩ := hpairs pair hpair
    constructor
    · rintro rfl
      rw [hopens] at hplain
      cases hplain
    · rintro rfl
      rw [hcloses] at hplain
      cases hplain
  rw [hbracket.bracketStep? (fun closes hcloses => hclosers closes (List.mem_of_head? hcloses))]
  rfl

/-- How far it is out of the literal around an interpolation: past the closer of the interpolation's
outermost bracket, and on from there. -/
def beyondClose? (last : Option Char) (closers before : List Char) (regions outer : List Region)
    (u : List Char) : Option Nat :=
  (distanceToClose? .brackets closers last (scanFrom before regions u)).bind fun n =>
    (distanceOut? ((u.take (n + 1)).reverse ++ before) outer (u.drop (n + 1))).map (· + (n + 1))

theorem beyondClose?_cons {last : Option Char} {next : List Char}
    (h : distanceToClose? .brackets closers last (scanFrom before regions (c :: u)) =
      (distanceToClose? .brackets next (some c)
        (scanFrom (c :: before) (step before c u regions) u)).map (· + 1)) :
    beyondClose? last closers before regions outer (c :: u) =
      (beyondClose? (some c) next (c :: before) (step before c u regions) outer u).map (· + 1) := by
  rw [beyondClose?, beyondClose?, h]
  cases distanceToClose? .brackets next (some c)
    (scanFrom (c :: before) (step before c u regions) u) with
  | none => rfl
  | some n =>
      simp only [Option.map_some, Option.bind_some, List.take_succ_cons, List.reverse_cons,
        List.append_assoc, List.singleton_append, List.drop_succ_cons, Option.map_map]
      rfl

/-- An interpolation is left at the closer that matches its outermost bracket, in a scan that
knows nothing of the template around it. -/
theorem distanceOut?_interpolation (hne : closers ≠ []) (hclosers : OfBrackets closers)
    (houter : outer ≠ []) (before : List Char) (regions : List Region) (last : Option Char)
    (u : List Char) :
    distanceOut? before (regions ++ interpolation closers :: outer) u =
      beyondClose? last closers before regions outer u := by
  induction u generalizing before regions closers last with
  | nil => rfl
  | cons c u ih =>
      -- the regions of the interpolation after the character, and the brackets it has to close then
      have hgo (after : List Region) {next : List Char} (hnext : next ≠ [])
          (hbrackets : OfBrackets next)
          (hstep : step before c u (regions ++ interpolation closers :: outer) =
            after ++ interpolation next :: outer)
          (hafter : step before c u regions = after)
          (hdistance : distanceToClose? .brackets closers last (scanFrom before regions (c :: u)) =
            (distanceToClose? .brackets next (some c)
              (scanFrom (c :: before) (step before c u regions) u)).map (· + 1)) :
          distanceOut? before (regions ++ interpolation closers :: outer) (c :: u) =
            beyondClose? last closers before regions outer (c :: u) := by
        rw [distanceOut?_cons hstep (by simp), beyondClose?_cons hdistance, hafter,
          ih hnext hbrackets]
      cases regions with
      | cons region regions =>
          refine hgo _ hne hclosers (Region.step_append_outer _ _ _ _ _ _) rfl ?_
          have hunseen : (Role.between (region :: regions)
              (step before c u (region :: regions))).isSeen = false :=
            Bool.eq_false_iff.mpr fun hseen => nomatch eq_nil_of_isSeen hseen
          rw [scanFrom, distanceToClose?]
          simp [hunseen]
      | nil =>
          cases hopened : opened? before c u with
          | some region =>
              refine hgo [region] hne hclosers ?_ ?_ ?_
              · exact step_interpolation_of_opened hopened closers outer
              · rw [step, hopened]
                rfl
              · rw [scanFrom]
                cases hseen : (Role.between [] (step before c u [])).isSeen with
                | false =>
                    rw [distanceToClose?]
                    simp [hseen]
                | true =>
                    rw [distanceToClose?_cons hseen hne,
                      bracketStep?_of_opened hopened hclosers, if_neg hne]
          | none =>
              have hafter : step before c u [] = [] := by
                rw [step, hopened]
                rfl
              have hdistance : distanceToClose? .brackets closers last
                  (scanFrom before [] (c :: u)) =
                    if closersAfter c closers = [] then some 0
                    else (distanceToClose? .brackets (closersAfter c closers) (some c)
                      (scanFrom (c :: before) (step before c u []) u)).map (· + 1) := by
                rw [scanFrom, hafter, distanceToClose?_cons rfl hne, bracketStep?_brackets hclosers]
              cases hclosed : closersAfter c closers with
              | nil =>
                  have hstep : step before c u (interpolation closers :: outer) = outer := by
                    simp only [step, hopened, hclosed]
                  rw [if_pos hclosed] at hdistance
                  rw [List.nil_append, distanceOut?_cons hstep houter, beyondClose?, hdistance]
                  rfl
              | cons close more =>
                  have hopen : closersAfter c closers ≠ [] := by
                    rw [hclosed]
                    exact List.cons_ne_nil _ _
                  rw [if_neg hopen] at hdistance
                  refine hgo [] hopen (hclosers.closersAfter c) ?_ hafter hdistance
                  simp only [List.nil_append, step, hopened, hclosed]

end Interpolations

/-- The offset of the quote that closes a literal which is open before an offset, or the length of
the text. -/
def literalStop (t : List Char) (quote : Char) (i : Nat) : Nat :=
  match distanceOut? (t.take i).reverse [.quoted quote] (t.drop i) with
  | some n => i + n
  | none => t.length

section Loop

variable {t : List Char} {quote c : Char} {i : Nat}

theorem literalEnd?_eq_literalStop (hc : t[i]? = some quote) :
    literalEnd? t i = some (literalStop t quote (i + 1)) := by
  rw [literalEnd?, drop_eq_cons hc, literalStop, reverse_take_succ hc]
  dsimp only
  cases distanceOut? (quote :: (t.take i).reverse) [.quoted quote] (t.drop (i + 1)) <;> rfl

theorem literalStop_of_length_le (h : t.length ≤ i) : literalStop t quote i = t.length := by
  rw [literalStop, List.drop_eq_nil_of_le h]
  rfl

/-- The way out of a literal by one of its characters that does not close it. -/
theorem distanceOut?_quoted {after : List Region} (hc : t[i]? = some c)
    (hstep : step (t.take i).reverse c (t.drop (i + 1)) [.quoted quote] = after)
    (hne : after ≠ []) :
    distanceOut? (t.take i).reverse [.quoted quote] (t.drop i) =
      (distanceOut? (t.take (i + 1)).reverse after (t.drop (i + 1))).map (· + 1) := by
  rw [drop_eq_cons hc, distanceOut?_cons hstep hne, reverse_take_succ hc]

theorem literalStop_succ (hc : t[i]? = some c) (hescape : c ≠ '\\') (hquote : c ≠ quote)
    (hbrace : ¬ (quote = backtick ∧ c = '$' ∧ t[i + 1]? = some '\x7b')) :
    literalStop t quote i = literalStop t quote (i + 1) := by
  have hstep : step (t.take i).reverse c (t.drop (i + 1)) [.quoted quote] = [.quoted quote] := by
    rw [step, if_neg hescape, if_neg hquote, if_neg]
    simpa [and_assoc] using hbrace
  rw [literalStop, literalStop, distanceOut?_quoted hc hstep (List.cons_ne_nil _ _)]
  cases distanceOut? (t.take (i + 1)).reverse [.quoted quote] (t.drop (i + 1)) with
  | none => rfl
  | some n => exact (Nat.add_assoc i n 1).symm.trans (Nat.add_right_comm i n 1)

theorem literalStop_quote (hc : t[i]? = some quote) (hescape : quote ≠ '\\') :
    literalStop t quote i = i := by
  have hstep : step (t.take i).reverse quote (t.drop (i + 1)) [.quoted quote] = [] := by
    rw [step, if_neg hescape, if_pos rfl]
  rw [literalStop, drop_eq_cons hc, distanceOut?, hstep]
  rfl

/-- A backslash takes the next character along, if there is one. -/
theorem literalStop_escape (hc : t[i]? = some '\\') :
    literalStop t quote i = literalStop t quote (i + 2) := by
  have hstep : step (t.take i).reverse '\\' (t.drop (i + 1)) [.quoted quote] =
      [.escaped quote] := by
    rw [step, if_pos rfl]
  rw [literalStop, distanceOut?_quoted hc hstep (List.cons_ne_nil _ _)]
  cases hd : t[i + 1]? with
  | none =>
      have hlength : t.length ≤ i + 1 := List.getElem?_eq_none_iff.mp hd
      rw [List.drop_eq_nil_of_le hlength, literalStop_of_length_le (by omega)]
      rfl
  | some d =>
      have hnext : step (t.take (i + 1)).reverse d (t.drop (i + 2)) [.escaped quote] =
          [.quoted quote] := rfl
      rw [drop_eq_cons hd, distanceOut?_cons hnext (List.cons_ne_nil _ _), ← reverse_take_succ hd,
        literalStop]
      cases distanceOut? (t.take (i + 2)).reverse [.quoted quote] (t.drop (i + 2)) with
      | none => rfl
      | some n =>
          simp only [Option.map_some]
          omega

/-- An interpolation is passed over up to the brace that matches its opening one. -/
theorem literalStop_interpolation (hc : t[i]? = some '$') (hbrace : t[i + 1]? = some '\x7b') :
    literalStop t backtick i =
      match matching? t (i + 1) '\x7b' '\x7d' with
      | some close => literalStop t backtick (close + 1)
      | none => t.length := by
  have hstep : step (t.take i).reverse '$' (t.drop (i + 1)) [.quoted backtick] =
      [.interpolation [], .quoted backtick] := by
    rw [step, if_neg (by decide), if_neg (by decide), List.head?_drop, hbrace]
    rfl
  have hopening : step (t.take (i + 1)).reverse '\x7b' (t.drop (i + 2))
      [.interpolation [], .quoted backtick] =
        [] ++ .interpolation ['\x7d'] :: [.quoted backtick] := rfl
  have hmatching : matching? t (i + 1) '\x7b' '\x7d' =
      (distanceToClose? .brackets ['\x7d'] (some '\x7b') (scanAt t (i + 2))).map
        (i + 2 + ·) := by
    have hpair : Pairing.brackets '\x7b' = some '\x7d' := rfl
    rw [matching?, if_pos hbrace, Pairing.also_curly, scanAt_of_isPlain hbrace rfl,
      distanceToClose?_open hpair, Option.map_map]
    congr 1
    funext n
    exact (Nat.add_assoc (i + 1) n 1).symm.trans (Nat.add_right_comm (i + 1) n 1)
  rw [literalStop, distanceOut?_quoted hc hstep (List.cons_ne_nil _ _), drop_eq_cons hbrace,
    distanceOut?_cons hopening (List.cons_ne_nil _ _), ← reverse_take_succ hbrace,
    distanceOut?_interpolation (List.cons_ne_nil _ _)
      (List.forall_mem_singleton.mpr ⟨'\x7b', rfl⟩) (List.cons_ne_nil _ _) _ _ (some '\x7b'),
    beyondClose?, hmatching, scanAt]
  cases distanceToClose? .brackets ['\x7d'] (some '\x7b')
    (scanFrom (t.take (i + 2)).reverse [] (t.drop (i + 2))) with
  | none => rfl
  | some n =>
      have hbefore : ((t.drop (i + 2)).take (n + 1)).reverse ++ (t.take (i + 2)).reverse =
          (t.take (i + 2 + n + 1)).reverse := by
        rw [← List.reverse_append, ← List.take_add, Nat.add_assoc (i + 2) n 1]
      simp only [Option.map_some, Option.bind_some, hbefore, List.drop_drop, literalStop]
      rw [Nat.add_assoc (i + 2) n 1]
      cases distanceOut? (t.take (i + 2 + (n + 1))).reverse [.quoted backtick]
        (t.drop (i + 2 + (n + 1))) with
      | none => rfl
      | some m =>
          simp only [Option.map_some]
          omega

end Loop

end PluginContract.Script
