import PluginContract.Proofs.Script.Slash
import PluginContract.Proofs.Script.Spans
import PluginContract.Script.Bracket

/-!
# Scanning a piece that is cut out between brackets

A step looks back for an operand, and never past an opening bracket; it looks ahead for a
regular expression and for one character, and no closing bracket is such a character. So the
text between two brackets that match is scanned alone just as it is scanned in its place.
-/

namespace PluginContract.Script

open Text Region

theorem closingBracket?_cases {opens closes : Char} (h : closingBracket? opens = some closes) :
    (opens = '(' ∧ closes = ')') ∨ (opens = '[' ∧ closes = ']') ∨ opens = '{' ∧ closes = '}' := by
  unfold closingBracket? at h
  split at h
  · exact Or.inl ⟨by assumption, (Option.some.inj h).symm⟩
  · split at h
    · exact Or.inr (Or.inl ⟨by assumption, (Option.some.inj h).symm⟩)
    · split at h
      · exact Or.inr (Or.inr ⟨by assumption, (Option.some.inj h).symm⟩)
      · cases h

section Surroundings

variable {opens closes : Char} {before outer u v : List Char} {regions : List Region}

/-- Looking back for an operand ends at an opening bracket as at the start of a text. -/
theorem expectsOperand_append_bracket (h : closingBracket? opens = some closes)
    (before outer : List Char) :
    expectsOperand (before ++ opens :: outer) = expectsOperand before := by
  obtain ⟨hoperator, hblank, hname⟩ :
      opens ∈ operatorChars ∧ isBlank opens = false ∧ isNameChar opens = false := by
    rcases closingBracket?_cases h with ⟨rfl, -⟩ | ⟨rfl, -⟩ | ⟨rfl, -⟩ <;> decide
  induction before with
  | nil => simp [expectsOperand, hoperator, hblank]
  | cons c before ih =>
      by_cases hc : isBlank c = true
      · simpa [expectsOperand, hc] using ih
      · simp [expectsOperand, hc, List.takeWhile_cons, takeWhile_append_of_stop hname]

/-- A character that a step looks ahead for. -/
def isAwaited (c : Char) : Bool := c == '/' || c == '*' || c == '{' || c == '\n'

/-- No step sees whether such a text follows or none. -/
def Unnoticed (v : List Char) : Prop := ∀ c ∈ v.head?, isAwaited c = false

theorem head?_append_eq_iff (hv : Unnoticed v) {c : Char} (hc : isAwaited c = true) :
    (u ++ v).head? = some c ↔ u.head? = some c := by
  cases u with
  | nil =>
      constructor
      · intro hhead
        rw [hv c hhead] at hc
        cases hc
      · intro hhead
        cases hhead
  | cons d u => rfl

/-- A step looks for just four characters ahead. -/
theorem step_append (hv : Unnoticed v) {before' : List Char} {c : Char}
    (hopened : inCode regions = true → opened? before c (u ++ v) = opened? before' c u) :
    step before c (u ++ v) regions = step before' c u regions := by
  cases regions with
  | nil => simp only [step, hopened rfl]
  | cons region outer =>
      cases region with
      | interpolation closers => simp only [step, hopened rfl]
      | quoted quote => simp only [step, head?_append_eq_iff hv (by decide : isAwaited '{' = true)]
      | lineComment =>
          have hhead := head?_append_eq_iff (u := u) hv (by decide : isAwaited '\n' = true)
          simp only [step]
          split
          · rename_i heq
            simp only [hhead.mp heq]
          · rename_i hne
            split
            · rename_i heq
              exact absurd (hhead.mpr heq) hne
            · rfl
      | blockComment => simp only [step, head?_append_eq_iff hv (by decide : isAwaited '/' = true)]
      | escaped | regex | blockOpening | blockClosing => rfl

theorem opensComment_append (hv : Unnoticed v) (c : Char) :
    opensComment c (u ++ v) = opensComment c u := by
  rw [Bool.eq_iff_iff]
  simp only [opensComment, Bool.and_eq_true, Bool.or_eq_true, beq_iff_eq,
    head?_append_eq_iff hv (by decide : isAwaited '/' = true),
    head?_append_eq_iff hv (by decide : isAwaited '*' = true)]

/-- A regular expression lasts for all its characters. -/
theorem regionsFrom_regex_ne_nil {n k : Nat} (hk : k < n) (before t : List Char)
    (outer : List Region) : regionsFrom before (regex n :: outer) t k ≠ [] := by
  induction k generalizing n before t with
  | zero =>
      rw [regionsFrom_zero]
      exact List.cons_ne_nil _ _
  | succ k ih =>
      cases t with
      | nil => exact List.cons_ne_nil _ _
      | cons c t =>
          rw [regionsFrom, step, if_neg (by omega)]
          exact ih (by omega) _ _

/-- What a slash opens is the same with and without the text that follows, if all that it opens is
closed before that. -/
theorem opened?_append (h : closingBracket? opens = some closes) (hv : Unnoticed v) {c : Char}
    (hregions : inCode regions = true)
    (hleft : regionsFrom (c :: (before ++ opens :: outer))
      (step (before ++ opens :: outer) c (u ++ v) regions) (u ++ v) u.length = []) :
    opened? (before ++ opens :: outer) c (u ++ v) = opened? before c u := by
  by_cases hc : c = '/'
  · subst hc
    cases hcomment : opensComment '/' u with
    | true =>
        simp only [opensComment, beq_self_eq_true, Bool.true_and, Bool.or_eq_true,
          beq_iff_eq] at hcomment
        rcases hcomment with hhead | hhead
        · simp [opened?, hhead, (head?_append_eq_iff hv (by decide)).mpr hhead]
        · simp [opened?, hhead, (head?_append_eq_iff hv (by decide)).mpr hhead]
    | false =>
        have hcomment' := hcomment
        rw [← opensComment_append hv] at hcomment'
        rw [opened?_slash hcomment', opened?_slash hcomment, expectsOperand_append_bracket h]
        split
        · rename_i hoperand
          congr 1
          cases hlength : regexLength? false (u ++ v) with
          | none =>
              cases halone : regexLength? false u with
              | none => rfl
              | some n =>
                  have htake : (u ++ v).take n = u.take n :=
                    List.take_append_of_le_length (regexLength?_le halone)
                  rw [regexLength?_of_take halone htake] at hlength
                  cases hlength
          | some n =>
              have hopened : opened? (before ++ opens :: outer) '/' (u ++ v) = some (regex n) := by
                rw [opened?_slash hcomment', expectsOperand_append_bracket h, if_pos hoperand,
                  hlength]
                rfl
              have hstep : step (before ++ opens :: outer) '/' (u ++ v) regions =
                  regex n :: regions := by
                cases regions with
                | nil => simp only [step, hopened, Option.toList_some]
                | cons region regions =>
                    cases region with
                    | interpolation closers => exact step_interpolation_of_opened hopened _ _
                    | _ => cases hregions
              have hn : n ≤ u.length := Nat.le_of_not_lt fun hlt =>
                regionsFrom_regex_ne_nil hlt _ _ regions (hstep ▸ hleft)
              exact (regexLength?_of_take hlength
                (List.take_append_of_le_length hn).symm).symm
        · rfl
  · exact opened?_of_ne_slash hc _ _ _ _

/-- A piece after an opening bracket that leaves all its regions is scanned alone just as it is
scanned in its place. -/
theorem scanFrom_append_of_left (before outer : List Char)
    (h : closingBracket? opens = some closes) (hv : Unnoticed v)
    (hleft : regionsFrom (before ++ opens :: outer) regions (u ++ v) u.length = []) :
    scanFrom (before ++ opens :: outer) regions (u ++ v) =
      scanFrom before regions u ++ scanFrom (u.reverse ++ (before ++ opens :: outer)) [] v := by
  induction u generalizing before regions with
  | nil =>
      rw [List.length_nil, regionsFrom_zero] at hleft
      rw [hleft]
      rfl
  | cons c u ih =>
      have hstep : step (before ++ opens :: outer) c (u ++ v) regions = step before c u regions :=
        step_append hv fun hregions => opened?_append h hv hregions hleft
      rw [List.cons_append, List.length_cons, regionsFrom, hstep] at hleft
      rw [List.cons_append, scanFrom, scanFrom, hstep]
      refine congrArg ((c, _) :: ·) ((ih (c :: before) hleft).trans ?_)
      rw [List.reverse_cons, List.append_assoc]
      rfl

end Surroundings

section Seen

variable {s s' : List (Char × Role)} {c : Char} {i k : Nat}

/-- The characters among these that a structural parser sees, with offsets from a number on. -/
def seenFrom (k : Nat) (s : List (Char × Role)) : List (Nat × Char) :=
  (s.zipIdx k).filterMap fun entry => if entry.1.2.isSeen then some (entry.2, entry.1.1) else none

theorem codeAt_eq (t : List Char) (start : Nat) : codeAt t start = seenFrom start (scanAt t start) :=
  rfl

theorem seenFrom_append (k : Nat) (s s' : List (Char × Role)) :
    seenFrom k (s ++ s') = seenFrom k s ++ seenFrom (k + s.length) s' := by
  rw [seenFrom, List.zipIdx_append, List.filterMap_append]
  rfl

theorem seenFrom_add (k n : Nat) (s : List (Char × Role)) :
    seenFrom (k + n) s = (seenFrom n s).map fun e => (k + e.1, e.2) := by
  rw [seenFrom, seenFrom, ← List.map_snd_add_zipIdx_eq_zipIdx, List.map_filterMap,
    List.filterMap_map]
  congr 1
  funext entry
  cases hrole : entry.1.2.isSeen <;> simp [hrole, Nat.add_comm]

theorem bounds_of_mem_seenFrom (h : (i, c) ∈ seenFrom k s) : k ≤ i ∧ i < k + s.length := by
  obtain ⟨⟨entry, j⟩, hmem, hseen⟩ := List.mem_filterMap.mp h
  split at hseen
  · obtain ⟨rfl, -⟩ := Prod.mk.inj (Option.some.inj hseen)
    have hbounds := List.mem_zipIdx hmem
    exact ⟨hbounds.1, hbounds.2.1⟩
  · cases hseen

theorem seenFrom_cons (k : Nat) (entry : Char × Role) (s : List (Char × Role)) :
    seenFrom k (entry :: s) =
      if entry.2.isSeen then (k, entry.1) :: seenFrom (k + 1) s else seenFrom (k + 1) s := by
  cases hrole : entry.2.isSeen <;> simp [seenFrom, hrole]

theorem mem_seenFrom_iff : (i, c) ∈ seenFrom k s ↔
    ∃ n role, i = k + n ∧ s[n]? = some (c, role) ∧ role.isSeen = true := by
  induction s generalizing k with
  | nil => simp [seenFrom]
  | cons entry s ih =>
      have hrest : (i, c) ∈ seenFrom (k + 1) s ↔ ∃ n role, i = k + (n + 1) ∧
          (entry :: s)[n + 1]? = some (c, role) ∧ role.isSeen = true := by
        rw [ih]
        simp only [List.getElem?_cons_succ, Nat.add_assoc, Nat.add_comm 1]
      constructor
      · intro h
        rw [seenFrom_cons] at h
        split at h
        · rename_i hseen
          rcases List.mem_cons.mp h with hfirst | hmore
          · obtain ⟨rfl, rfl⟩ := Prod.mk.inj hfirst
            exact ⟨0, entry.2, rfl, rfl, hseen⟩
          · obtain ⟨n, hn⟩ := hrest.mp hmore
            exact ⟨n + 1, hn⟩
        · obtain ⟨n, hn⟩ := hrest.mp h
          exact ⟨n + 1, hn⟩
      · rintro ⟨n, role, hi, hn, hseen⟩
        rw [seenFrom_cons]
        cases n with
        | zero =>
            obtain rfl := Option.some.inj hn
            rw [if_pos hseen, hi]
            exact List.mem_cons_self
        | succ n =>
            have hmore := hrest.mpr ⟨n, role, hi, hn, hseen⟩
            split
            · exact List.mem_cons_of_mem _ hmore
            · exact hmore

theorem pairwise_seenFrom (k : Nat) (s : List (Char × Role)) :
    (seenFrom k s).Pairwise fun e e' => e.1 < e'.1 := by
  induction s generalizing k with
  | nil => exact .nil
  | cons entry s ih =>
      rw [seenFrom_cons]
      split
      · exact .cons (fun e he => (bounds_of_mem_seenFrom he).1) (ih (k + 1))
      · exact ih (k + 1)

/-- The seen characters between two offsets, out of three pieces of which the second lies there. -/
theorem filter_seenFrom (before inside after : List (Char × Role)) {lower upper : Nat}
    (hlower : lower + 1 = k + before.length) (hupper : upper = lower + 1 + inside.length) :
    (seenFrom k (before ++ (inside ++ after))).filter (fun e => lower < e.1 && e.1 < upper) =
      seenFrom (lower + 1) inside := by
  have hbefore : (seenFrom k before).filter (fun e => lower < e.1 && e.1 < upper) = [] := by
    apply List.filter_eq_nil_iff.mpr
    intro ⟨i, c⟩ he
    have := bounds_of_mem_seenFrom he
    simp
    omega
  have hinside : (seenFrom (lower + 1) inside).filter (fun e => lower < e.1 && e.1 < upper) =
      seenFrom (lower + 1) inside := by
    apply List.filter_eq_self.mpr
    intro ⟨i, c⟩ he
    have := bounds_of_mem_seenFrom he
    simp
    omega
  have hafter : (seenFrom upper after).filter (fun e => lower < e.1 && e.1 < upper) = [] := by
    apply List.filter_eq_nil_iff.mpr
    intro ⟨i, c⟩ he
    have := bounds_of_mem_seenFrom he
    simp
    omega
  rw [seenFrom_append, seenFrom_append, ← hlower, ← hupper, List.filter_append,
    List.filter_append, hbefore, hinside, hafter, List.nil_append, List.append_nil]

end Seen

section Matching

variable {pairing : Pairing} {before : List Char} {regions : List Region} {t : List Char}
  {c opens closes : Char} {role : Role} {k n : Nat}

theorem getElem?_scanFrom_regionsFrom (before : List Char) (regions : List Region) (t : List Char)
    (k : Nat) :
    (scanFrom before regions t)[k]? = t[k]?.map fun c =>
      (c, Role.between (regionsFrom before regions t k) (regionsFrom before regions t (k + 1))) := by
  induction t generalizing before regions k with
  | nil => rfl
  | cons c t ih =>
      cases k with
      | zero => simp [scanFrom, regionsFrom]
      | succ k => simpa [scanFrom, regionsFrom] using ih (c :: before) (step before c t regions) k

theorem eq_nil_of_isSeen {regions after : List Region}
    (h : (Role.between regions after).isSeen = true) : regions = [] := by
  match regions with
  | [] => rfl
  | [region] =>
      cases hcomment : region.isComment <;> cases hafter : after.isEmpty <;>
        simp [Role.between, hcomment, hafter, Role.isSeen] at h
  | _ :: _ :: _ => cases h

theorem regionsAt_of_isSeen {j : Nat} (h : (roleAt t j).isSeen = true) : regionsAt t j = [] :=
  eq_nil_of_isSeen h

theorem regionsAt_of_code {j : Nat} (h : roleAt t j = .code) : regionsAt t j = [] :=
  regionsAt_of_isSeen (by rw [h]; rfl)

/-- A seen character at an offset, and what that says about the regions there. -/
theorem left_of_getElem?_scanFrom (h : (scanFrom before regions t)[k]? = some (c, role))
    (hseen : role.isSeen = true) : t[k]? = some c ∧ regionsFrom before regions t k = [] := by
  rw [getElem?_scanFrom_regionsFrom] at h
  obtain ⟨d, hd, he⟩ := Option.map_eq_some_iff.mp h
  obtain ⟨rfl, rfl⟩ := Prod.mk.inj he
  exact ⟨hd, eq_nil_of_isSeen hseen⟩

/-- A bracket leaves the outermost open one open, unless it closes it. -/
theorem bracketStep?_concat (pairing : Pairing) (inner : List Char) (closes : Char)
    (before : Option Char) (c : Char) :
    bracketStep? pairing (inner ++ [closes]) before c = none ∨
      (∃ inner', bracketStep? pairing (inner ++ [closes]) before c = some (inner' ++ [closes])) ∨
      c = closes ∧ bracketStep? pairing (inner ++ [closes]) before c = some [] := by
  rw [bracketStep?.eq_def]
  cases pairing c with
  | some close => exact Or.inr (Or.inl ⟨close :: inner, rfl⟩)
  | none =>
      cases inner with
      | nil =>
          dsimp only [List.nil_append]
          split
          · rename_i hclose
            split
            · exact Or.inr (Or.inl ⟨[], rfl⟩)
            · exact Or.inr (Or.inr ⟨hclose, rfl⟩)
          · exact Or.inl rfl
      | cons close inner =>
          dsimp only [List.cons_append]
          split
          · split
            · exact Or.inr (Or.inl ⟨close :: inner, rfl⟩)
            · exact Or.inr (Or.inl ⟨inner, rfl⟩)
          · exact Or.inl rfl

/-- What closes the outermost open bracket is the closer that it waits for. -/
theorem getElem?_of_distanceToClose? {inner : List Char} {before : Option Char}
    {s : List (Char × Role)}
    (h : distanceToClose? pairing (inner ++ [closes]) before s = some n) :
    ∃ role : Role, s[n]? = some (closes, role) ∧ role.isSeen = true := by
  induction s generalizing inner before n with
  | nil => cases h
  | cons entry s ih =>
      obtain ⟨c, role⟩ := entry
      have hnext {inner : List Char}
          (h : (distanceToClose? pairing (inner ++ [closes]) (some c) s).map (· + 1) = some n) :
          ∃ role' : Role, ((c, role) :: s)[n]? = some (closes, role') ∧ role'.isSeen = true := by
        obtain ⟨m, hm, rfl⟩ := Option.map_eq_some_iff.mp h
        exact ih hm
      rw [distanceToClose?] at h
      dsimp only at h
      split at h
      · rename_i hseen
        rcases bracketStep?_concat pairing inner closes before c with
          hstep | ⟨inner', hstep⟩ | ⟨rfl, hstep⟩
        · rw [hstep] at h
          exact hnext h
        · rw [hstep] at h
          cases inner' <;> exact hnext h
        · rw [hstep] at h
          obtain rfl := Option.some.inj h
          exact ⟨role, rfl, hseen⟩
      · exact hnext h

variable {o e : Nat}

/-- An opening bracket is code wherever a scan starts at it. -/
theorem step_bracket (h : closingBracket? opens = some closes) (before rest : List Char) :
    step before opens rest [] = [] := by
  have hopened : opened? before opens rest = none := by
    rcases closingBracket?_cases h with ⟨rfl, -⟩ | ⟨rfl, -⟩ | ⟨rfl, -⟩ <;> rfl
  rw [step, hopened]
  rfl

/-- The text from a bracket up to the one that matches it. -/
theorem exists_of_matching? (hb : closingBracket? opens = some closes)
    (h : matching? t o opens closes = some e) :
    ∃ rest, t.drop o = opens :: (slice t (o + 1) e ++ closes :: rest) ∧
      regionsFrom (opens :: (t.take o).reverse) [] (slice t (o + 1) e ++ closes :: rest)
        (slice t (o + 1) e).length = [] ∧
      e = o + 1 + (slice t (o + 1) e).length := by
  rw [matching?] at h
  split at h
  · rename_i ho
    obtain ⟨n, hn, rfl⟩ := Option.map_eq_some_iff.mp h
    rw [scanAt, drop_eq_cons ho, scanFrom, step_bracket hb, distanceToClose?] at hn
    have hopen : bracketStep? (Pairing.brackets.also opens closes) [] (t.take o).getLast? opens =
        some ([] ++ [closes]) := by
      simp [bracketStep?, Pairing.also]
    have hseen : (Role.between [] []).isSeen = true := rfl
    dsimp only at hn
    rw [if_pos hseen, hopen] at hn
    obtain ⟨m, hm, rfl⟩ := Option.map_eq_some_iff.mp hn
    obtain ⟨role, hrole, hseen'⟩ := getElem?_of_distanceToClose? hm
    obtain ⟨hcloses, hleft⟩ := left_of_getElem?_scanFrom hrole hseen'
    have hslice : slice t (o + 1) (o + (m + 1)) = (t.drop (o + 1)).take m := by
      rw [slice, show o + (m + 1) - (o + 1) = m by omega]
    have hlength : ((t.drop (o + 1)).take m).length = m := by
      have := (List.getElem?_eq_some_iff.mp hcloses).1
      rw [List.length_take]
      omega
    have hsplit : t.drop (o + 1) =
        (t.drop (o + 1)).take m ++ closes :: (t.drop (o + 1)).drop (m + 1) := by
      rw [← drop_eq_cons hcloses, List.take_append_drop]
    refine ⟨(t.drop (o + 1)).drop (m + 1), ?_, ?_, ?_⟩
    · rw [hslice, ← hsplit, drop_eq_cons ho]
    · rw [hslice, hlength, ← hsplit]
      exact hleft
    · rw [hslice, hlength]
      omega
  · cases h

/-- A closing bracket is no character that a step looks ahead for. -/
theorem unnoticed_closing (h : closingBracket? opens = some closes) (rest : List Char) :
    Unnoticed (closes :: rest) := by
  rintro c ⟨⟩
  rcases closingBracket?_cases h with ⟨-, rfl⟩ | ⟨-, rfl⟩ | ⟨-, rfl⟩ <;> rfl

/-- A scan that starts at a bracket scans the text up to the matching bracket as it is scanned
alone. -/
theorem exists_scanAt_eq (hb : closingBracket? opens = some closes)
    (h : matching? t o opens closes = some e) :
    ∃ after, scanAt t o = (opens, .code) :: (scan (slice t (o + 1) e) ++ after) := by
  obtain ⟨rest, hdrop, hleft, -⟩ := exists_of_matching? hb h
  have hinside := scanFrom_append_of_left [] (t.take o).reverse hb (unnoticed_closing hb rest) hleft
  rw [scanAt, hdrop, scanFrom, step_bracket hb]
  exact ⟨_, congrArg ((opens, _) :: ·) hinside⟩

/-- A scan of the whole text goes on from code as a scan that starts there. -/
theorem scan_eq_take_append {c : Char} (h : (o, c) ∈ codeAt t 0) :
    scan t = (scan t).take o ++ scanAt t o := by
  obtain ⟨hc, hseen⟩ := mem_codeAt_iff.mp h
  have hregions : regionsAt t o = [] := regionsAt_of_isSeen hseen
  have hdrop : (scan t).drop o = scanAt t o := by
    rw [drop_scan, hregions, scanAt]
  rw [← hdrop, List.take_append_drop]

end Matching

/-- The text between a bracket and its closer is scanned alone as it is in its place, if both stand
outside of all regions. -/
theorem scan_slice_of_brackets {t : List Char} {o e : Nat} {opens closes : Char}
    (hb : closingBracket? opens = some closes) (ho : t[o]? = some opens)
    (hopen : regionsAt t o = []) (he : t[e]? = some closes) (hclose : regionsAt t e = [])
    (hlt : o < e) : scan (slice t (o + 1) e) = ((scan t).drop (o + 1)).take (e - (o + 1)) := by
  have hnext : regionsAt t (o + 1) = [] := by
    rw [regionsAt_succ ho, hopen, step_bracket hb]
  have hbound : e < t.length := (List.getElem?_eq_some_iff.mp he).1
  have hlength : (slice t (o + 1) e).length = e - (o + 1) := by
    rw [length_slice]
    omega
  have hdrop : t.drop (o + 1) = slice t (o + 1) e ++ closes :: t.drop (e + 1) := by
    rw [← drop_eq_cons he, slice, show t.drop e = (t.drop (o + 1)).drop (e - (o + 1)) by
      rw [List.drop_drop, Nat.add_sub_cancel' hlt], List.take_append_drop]
  have hleft := hclose
  rw [regionsAt_eq hlt (Nat.le_of_lt hbound), hnext, hdrop, reverse_take_succ ho, ← hlength]
    at hleft
  have hinside := scanFrom_append_of_left [] (t.take o).reverse hb
    (unnoticed_closing hb (t.drop (e + 1))) hleft
  rw [List.nil_append] at hinside
  rw [drop_scan, hnext, hdrop, reverse_take_succ ho, hinside, ← hlength, scan,
    ← length_scanFrom [] [] (slice t (o + 1) e), List.take_left]

/-- The text between two brackets that match has the same roles alone and in its place, and so the
same code. If the first of them is code of the whole text, the whole text has that code there. -/
theorem scan_slice_of_matching? {t : List Char} {o e : Nat} {opens closes : Char}
    (hb : closingBracket? opens = some closes) (h : matching? t o opens closes = some e) :
    scan (slice t (o + 1) e) = ((scanAt t o).drop 1).take (e - (o + 1)) ∧
      (codeAt (slice t (o + 1) e) 0).map (fun entry => (o + 1 + entry.1, entry.2)) =
        (codeAt t o).filter (fun entry => o < entry.1 && entry.1 < e) ∧
      ((o, opens) ∈ codeAt t 0 →
        (codeAt t 0).filter (fun entry => o < entry.1 && entry.1 < e) =
          (codeAt t o).filter (fun entry => o < entry.1 && entry.1 < e)) := by
  obtain ⟨after, hscan⟩ := exists_scanAt_eq hb h
  obtain ⟨rest, hdrop, -, he⟩ := exists_of_matching? hb h
  generalize slice t (o + 1) e = u at hscan hdrop he ⊢
  have hlength : (scan u).length = u.length := length_scanFrom [] [] u
  have hcode : (codeAt t o).filter (fun entry => o < entry.1 && entry.1 < e) =
      seenFrom (o + 1) (scan u) := by
    rw [codeAt_eq, hscan]
    exact filter_seenFrom [(opens, .code)] (scan u) after rfl (by omega)
  refine ⟨?_, ?_, ?_⟩
  · rw [hscan, List.drop_one, List.tail_cons, show e - (o + 1) = (scan u).length by omega,
      List.take_left]
  · rw [hcode, codeAt_eq]
    exact (seenFrom_add (o + 1) 0 (scan u)).symm
  · intro hwhole
    have hfront : ((scan t).take o).length = o := by
      have := (List.getElem?_eq_some_iff.mp (mem_codeAt_iff.mp hwhole).1).1
      rw [List.length_take, scan, length_scanFrom]
      omega
    have hsplit : scan t = ((scan t).take o ++ [(opens, .code)]) ++ (scan u ++ after) := by
      rw [List.append_assoc, List.singleton_append, ← hscan]
      exact scan_eq_take_append hwhole
    have hwholeScan : scanAt t 0 = scan t := rfl
    rw [hcode, codeAt_eq, hwholeScan, hsplit]
    exact filter_seenFrom _ (scan u) after (by rw [List.length_append, hfront]; simp) (by omega)

/-- An argument list with brackets in a template's interpolation, a regular expression, a comment
and a literal. -/
theorem scan_slice_of_matching?_arguments :
    let t := "f(`$\x7ba(\")\")\x7d`, /[)/]/, /* ) */ [')'])/2".toList
    closingBracket? '(' = some ')' ∧ matching? t 1 '(' ')' = some 36 ∧
      scan (slice t 2 36) = ((scanAt t 1).drop 1).take 34 ∧
      (codeAt (slice t 2 36) 0).map (fun entry => (2 + entry.1, entry.2)) =
        (codeAt t 1).filter (fun entry => 1 < entry.1 && entry.1 < 36) ∧
      ((1, '(') ∈ codeAt t 0 →
        (codeAt t 0).filter (fun entry => 1 < entry.1 && entry.1 < 36) =
          (codeAt t 1).filter (fun entry => 1 < entry.1 && entry.1 < 36)) := by
  intro t
  have hbracket : closingBracket? '(' = some ')' := rfl
  have hmatching : matching? t 1 '(' ')' = some 36 := by decide +kernel
  exact ⟨hbracket, hmatching, scan_slice_of_matching? hbracket hmatching⟩

end PluginContract.Script
