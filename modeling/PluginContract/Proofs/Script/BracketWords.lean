import PluginContract.Proofs.Script.Balanced

/-!
# Matching a bracket as a word of brackets

The brackets of the code from an offset on make up a word. A bracket is matched where the stack of
open brackets is empty for the first time. If no closer before that is out of place, the word up to
there is properly nested; and the shortest word from the bracket on that is properly nested ends
at the match.
-/

namespace PluginContract.Script

open Text

/-- The kinds of brackets that count where one is matched: angle brackets count for themselves
only. -/
def bracketKinds (opens : Char) : List (Char × Char) :=
  if opens = '<' then ('<', '>') :: Pairing.bracketPairs else Pairing.bracketPairs

/-- Whether a character at an offset is a bracket. The one that ends an arrow is none. -/
def isBracketAt (kinds : List (Char × Char)) (t : List Char) (i : Nat) (c : Char) : Bool :=
  kinds.any (fun kind => kind.1 == c || kind.2 == c) &&
    !(c == '>' && (t.take i).getLast? == some '=')

/-- The brackets of the code from an offset on, with their offsets. -/
def bracketsAt (t : List Char) (start : Nat) (opens : Char) : List (Nat × Char) :=
  (codeAt t start).filter fun entry => isBracketAt (bracketKinds opens) t entry.1 entry.2

/-- A word in which every bracket is closed by a closer of its kind. -/
inductive BalancedWord (kinds : List (Char × Char)) : List Char → Prop
  | nil : BalancedWord kinds []
  | bracket {opens closes : Char} {inside rest : List Char} (kind : (opens, closes) ∈ kinds)
      (inner : BalancedWord kinds inside) (balanced : BalancedWord kinds rest) :
      BalancedWord kinds (opens :: (inside ++ closes :: rest))

/-- The closers of the open brackets after one more bracket, innermost first. A closer that the
innermost open bracket does not wait for changes nothing. -/
def openStep (kinds : List (Char × Char)) (awaited : List Char) (c : Char) : List Char :=
  match kinds.lookup c with
  | some closes => closes :: awaited
  | none => if awaited.head? = some c then awaited.tail else awaited

/-- The closers of the open brackets after a word. -/
def openAfter (kinds : List (Char × Char)) (awaited word : List Char) : List Char :=
  word.foldl (openStep kinds) awaited

/-- Whether each closer of a word is the one that the innermost open bracket waits for. -/
def InPlace (kinds : List (Char × Char)) (awaited word : List Char) : Prop :=
  ∀ before c after, word = before ++ c :: after → kinds.lookup c = none →
    (openAfter kinds awaited before).head? = some c

/-- Pairs of brackets in which no closer opens and every opening bracket has one closer. -/
def Kinds (kinds : List (Char × Char)) : Prop :=
  ∀ kind ∈ kinds, kinds.lookup kind.1 = some kind.2 ∧ kinds.lookup kind.2 = none

section Words

variable {kinds : List (Char × Char)} {awaited word u v : List Char} {opens closes c : Char}

theorem kinds_bracketKinds (opens : Char) : Kinds (bracketKinds opens) := by
  unfold bracketKinds Kinds
  split <;> decide

theorem Kinds.openStep_open (h : Kinds kinds) (hkind : (opens, closes) ∈ kinds)
    (awaited : List Char) : openStep kinds awaited opens = closes :: awaited := by
  rw [openStep, (h _ hkind).1]

theorem openStep_close (hc : kinds.lookup c = none) (awaited : List Char) :
    openStep kinds (c :: awaited) c = awaited := by
  rw [openStep, hc]
  exact if_pos rfl

@[simp] theorem openAfter_nil : openAfter kinds awaited [] = awaited := rfl

@[simp] theorem openAfter_cons : openAfter kinds awaited (c :: word) =
    openAfter kinds (openStep kinds awaited c) word := rfl

theorem openAfter_append : openAfter kinds awaited (u ++ v) =
    openAfter kinds (openAfter kinds awaited u) v := List.foldl_append

theorem inPlace_nil : InPlace kinds awaited [] := by
  intro before c after h
  cases before <;> cases h

theorem inPlace_cons : InPlace kinds awaited (c :: word) ↔
    (kinds.lookup c = none → awaited.head? = some c) ∧
      InPlace kinds (openStep kinds awaited c) word := by
  constructor
  · intro h
    refine ⟨h [] c word rfl, fun before d after hword => h (c :: before) d after ?_⟩
    rw [hword]
    rfl
  · rintro ⟨hfirst, hrest⟩ before d after hword
    cases before with
    | nil =>
        obtain ⟨rfl, -⟩ := List.cons.inj hword
        exact hfirst
    | cons b before =>
        obtain ⟨rfl, hmore⟩ := List.cons.inj hword
        exact hrest before d after hmore

theorem inPlace_append : InPlace kinds awaited (u ++ v) ↔
    InPlace kinds awaited u ∧ InPlace kinds (openAfter kinds awaited u) v := by
  induction u generalizing awaited with
  | nil => exact ⟨fun h => ⟨inPlace_nil, h⟩, And.right⟩
  | cons c u ih =>
      rw [List.cons_append, inPlace_cons, inPlace_cons, ih, openAfter_cons, and_assoc]

/-- A properly nested word leaves the open brackets as they are. -/
theorem BalancedWord.openAfter_eq (hkinds : Kinds kinds) (h : BalancedWord kinds word)
    (awaited : List Char) : openAfter kinds awaited word = awaited := by
  induction h generalizing awaited with
  | nil => rfl
  | bracket kind _ _ ihInner ih =>
      rw [openAfter_cons, hkinds.openStep_open kind, openAfter_append, ihInner, openAfter_cons,
        openStep_close (hkinds _ kind).2, ih]

theorem BalancedWord.inPlace (hkinds : Kinds kinds) (h : BalancedWord kinds word)
    (awaited : List Char) : InPlace kinds awaited word := by
  induction h generalizing awaited with
  | nil => exact inPlace_nil
  | @bracket opens closes inside rest kind inner balanced ihInner ih =>
      obtain ⟨hopens, hcloses⟩ := hkinds _ kind
      rw [inPlace_cons, hkinds.openStep_open kind, inPlace_append, inner.openAfter_eq hkinds,
        inPlace_cons, openStep_close hcloses]
      refine ⟨fun hnone => ?_, ihInner _, fun _ => rfl, ih _⟩
      rw [hopens] at hnone
      cases hnone

/-- A word that closes some open brackets, one after another, with properly nested words before,
between and after their closers. -/
def Unwinds (kinds : List (Char × Char)) : (awaited word : List Char) → Prop
  | [], word => BalancedWord kinds word
  | closes :: outer, word =>
      ∃ u v, word = u ++ closes :: v ∧ BalancedWord kinds u ∧ Unwinds kinds outer v

/-- A bracket and a properly nested word may come first. -/
theorem Unwinds.bracket (hkind : (opens, closes) ∈ kinds) (hu : BalancedWord kinds u)
    (hv : Unwinds kinds awaited v) : Unwinds kinds awaited (opens :: (u ++ closes :: v)) := by
  cases awaited with
  | nil => exact .bracket hkind hu hv
  | cons outermost awaited =>
      obtain ⟨first, rest, rfl, hfirst, hrest⟩ := hv
      exact ⟨opens :: (u ++ closes :: first), rest, by simp, .bracket hkind hu hfirst, hrest⟩

theorem mem_of_lookup_eq_some (h : kinds.lookup opens = some closes) : (opens, closes) ∈ kinds := by
  induction kinds with
  | nil => cases h
  | cons kind kinds ih =>
      rw [List.lookup_cons] at h
      split at h
      · rename_i heq
        obtain rfl := Option.some.inj h
        rw [eq_of_beq heq]
        exact List.mem_cons_self
      · exact List.mem_cons_of_mem _ (ih h)

/-- A word with all closers in place that closes all open brackets does so in order. -/
theorem unwinds_of_inPlace (hplace : InPlace kinds awaited word)
    (hopen : openAfter kinds awaited word = []) : Unwinds kinds awaited word := by
  induction word generalizing awaited with
  | nil =>
      obtain rfl : awaited = [] := hopen
      exact .nil
  | cons c word ih =>
      obtain ⟨hfirst, hrest⟩ := inPlace_cons.mp hplace
      rw [openAfter_cons] at hopen
      have hword := ih hrest hopen
      cases hlookup : kinds.lookup c with
      | some closes =>
          rw [openStep, hlookup] at hword
          obtain ⟨u, v, rfl, hu, hv⟩ := hword
          exact .bracket (mem_of_lookup_eq_some hlookup) hu hv
      | none =>
          obtain ⟨outer, rfl⟩ := List.head?_eq_some_iff.mp (hfirst hlookup)
          rw [openStep_close hlookup] at hword
          exact ⟨[], word, rfl, .nil, hword⟩

/-- A word is properly nested just if its closers are in place and it leaves no bracket open. -/
theorem balancedWord_iff (hkinds : Kinds kinds) :
    BalancedWord kinds word ↔ InPlace kinds [] word ∧ openAfter kinds [] word = [] :=
  ⟨fun h => ⟨h.inPlace hkinds [], h.openAfter_eq hkinds []⟩,
    fun h => unwinds_of_inPlace h.1 h.2⟩

end Words

/-- The offset of the bracket after which no bracket is open. -/
def closeIn (kinds : List (Char × Char)) : (awaited : List Char) → List (Nat × Char) → Option Nat
  | _, [] => none
  | awaited, (i, c) :: word =>
      if openStep kinds awaited c = [] then some i
      else closeIn kinds (openStep kinds awaited c) word

section Closing

variable {kinds : List (Char × Char)} {awaited : List Char} {word : List (Nat × Char)} {i : Nat}

theorem closeIn_eq_none_iff : closeIn kinds awaited word = none ↔
    ∀ shorter, shorter <+: word → shorter ≠ [] →
      openAfter kinds awaited (shorter.map Prod.snd) ≠ [] := by
  induction word generalizing awaited with
  | nil =>
      refine ⟨fun _ shorter hshorter hne => absurd (List.prefix_nil.mp hshorter) hne, fun _ => rfl⟩
  | cons entry word ih =>
      obtain ⟨i, c⟩ := entry
      rw [closeIn]
      split
      · rename_i hempty
        constructor
        · intro h
          cases h
        · intro h
          exact absurd hempty (h [(i, c)] (List.prefix_append [(i, c)] word) (List.cons_ne_nil _ _))
      · rename_i hopen
        rw [ih]
        constructor
        · intro h shorter hshorter hne
          obtain ⟨more, rfl, hmore⟩ := (List.prefix_cons_iff.mp hshorter).resolve_left hne
          rw [List.map_cons, openAfter_cons]
          by_cases hnil : more = []
          · rw [hnil]
            exact hopen
          · exact h more hmore hnil
        · intro h more hmore _
          exact h ((i, c) :: more) (List.cons_prefix_cons.mpr ⟨rfl, hmore⟩) (List.cons_ne_nil _ _)

theorem closeIn_eq_some_iff : closeIn kinds awaited word = some i ↔
    ∃ before c after, word = before ++ (i, c) :: after ∧
      openStep kinds (openAfter kinds awaited (before.map Prod.snd)) c = [] ∧
      closeIn kinds awaited before = none := by
  induction word generalizing awaited with
  | nil => simp [closeIn]
  | cons entry word ih =>
      obtain ⟨j, d⟩ := entry
      rw [closeIn]
      split
      · rename_i hempty
        constructor
        · intro h
          obtain rfl := Option.some.inj h
          exact ⟨[], d, word, rfl, hempty, rfl⟩
        · rintro ⟨before, c, after, hword, -, hnone⟩
          cases before with
          | nil =>
              obtain ⟨hfirst, -⟩ := List.cons.inj hword
              rw [(Prod.mk.inj hfirst).1]
          | cons entry before =>
              obtain ⟨rfl, -⟩ := List.cons.inj hword
              rw [closeIn, if_pos hempty] at hnone
              cases hnone
      · rename_i hopen
        rw [ih]
        constructor
        · rintro ⟨before, c, after, rfl, hclosed, hnone⟩
          exact ⟨(j, d) :: before, c, after, rfl, hclosed, by rw [closeIn, if_neg hopen, hnone]⟩
        · rintro ⟨before, c, after, hword, hclosed, hnone⟩
          cases before with
          | nil =>
              obtain ⟨hfirst, -⟩ := List.cons.inj hword
              obtain ⟨rfl, rfl⟩ := Prod.mk.inj hfirst
              exact absurd hclosed hopen
          | cons entry before =>
              obtain ⟨rfl, rfl⟩ := List.cons.inj hword
              rw [closeIn, if_neg hopen] at hnone
              exact ⟨before, c, after, rfl, hclosed, hnone⟩

end Closing

section Scanned

variable {pairing : Pairing} {kinds : List (Char × Char)} {t awaited : List Char} {k : Nat}
  {before : Option Char} {c opens closes : Char} {role : Role} {s : List (Char × Role)}

/-- What waits is a closer of some kind. -/
def AwaitsClosers (kinds : List (Char × Char)) (awaited : List Char) : Prop :=
  ∀ closes ∈ awaited, ∃ opens, (opens, closes) ∈ kinds

theorem AwaitsClosers.openStep (h : AwaitsClosers kinds awaited) (c : Char) :
    AwaitsClosers kinds (openStep kinds awaited c) := by
  rw [Script.openStep]
  split
  · rename_i closes hlookup
    exact List.forall_mem_cons.mpr ⟨⟨c, mem_of_lookup_eq_some hlookup⟩, h⟩
  · split
    · exact fun closes hmem => h closes (List.mem_of_mem_tail hmem)
    · exact h

/-- A bracket that counts changes the open brackets as a step of the word does. -/
theorem bracketStep?_of_isBracketAt (hpairing : ∀ c, pairing c = kinds.lookup c)
    (h : isBracketAt kinds t k c = true) (awaited : List Char) :
    (bracketStep? pairing awaited (t.take k).getLast? c).getD awaited =
      openStep kinds awaited c := by
  simp only [isBracketAt, Bool.and_eq_true, Bool.not_eq_true', Bool.and_eq_false_iff,
    beq_eq_false_iff_ne] at h
  have harrow : ¬ (c = '>' ∧ (t.take k).getLast? = some '=') := fun harrow =>
    h.2.elim (fun hne => hne harrow.1) (fun hne => hne harrow.2)
  rw [bracketStep?.eq_def, openStep, hpairing]
  cases kinds.lookup c with
  | some closes => rfl
  | none =>
      cases awaited with
      | nil => rfl
      | cons close outer =>
          by_cases hc : c = close
          · subst hc
            dsimp only
            rw [if_pos rfl, if_neg (by simpa using harrow), List.head?_cons, if_pos rfl]
            rfl
          · simp [hc, Ne.symm hc]

/-- Any other character leaves the open brackets as they are. -/
theorem bracketStep?_of_not_isBracketAt (hpairing : ∀ c, pairing c = kinds.lookup c)
    (hangle : kinds.lookup '>' = none) (h : isBracketAt kinds t k c = false)
    (hclosers : AwaitsClosers kinds awaited) :
    (bracketStep? pairing awaited (t.take k).getLast? c).getD awaited = awaited := by
  have harrow (hkind : ∃ kind ∈ kinds, kind.1 = c ∨ kind.2 = c) :
      c = '>' ∧ (t.take k).getLast? = some '=' := by
    simp only [isBracketAt, Bool.and_eq_false_iff, Bool.not_eq_false', Bool.and_eq_true,
      beq_iff_eq] at h
    refine h.resolve_left fun hnone => ?_
    obtain ⟨kind, hmem, hc⟩ := hkind
    have := List.any_eq_false.mp hnone kind hmem
    simp only [Bool.or_eq_true, beq_iff_eq] at this
    exact this hc
  rw [bracketStep?.eq_def, hpairing]
  cases hlookup : kinds.lookup c with
  | some closes =>
      obtain ⟨rfl, -⟩ := harrow ⟨_, mem_of_lookup_eq_some hlookup, Or.inl rfl⟩
      rw [hangle] at hlookup
      cases hlookup
  | none =>
      cases awaited with
      | nil => rfl
      | cons close outer =>
          dsimp only
          split
          · rename_i hc
            obtain ⟨opens, hkind⟩ := hclosers close List.mem_cons_self
            rw [if_pos (by simpa using harrow ⟨_, hkind, Or.inr hc.symm⟩)]
            rfl
          · rfl

theorem distanceToClose?_cons (hseen : role.isSeen = true) (hne : awaited ≠ []) :
    distanceToClose? pairing awaited before ((c, role) :: s) =
      if (bracketStep? pairing awaited before c).getD awaited = [] then some 0
      else (distanceToClose? pairing ((bracketStep? pairing awaited before c).getD awaited)
        (some c) s).map (· + 1) := by
  rw [distanceToClose?]
  cases bracketStep? pairing awaited before c with
  | none => simp [hseen, hne]
  | some next => cases next <;> simp [hseen]

/-- Along a scan the outermost bracket is closed where the word of its brackets closes it. -/
theorem distanceToClose?_eq_closeIn (hpairing : ∀ c, pairing c = kinds.lookup c)
    (hangle : kinds.lookup '>' = none) (hs : s.map Prod.fst = t.drop k) (hne : awaited ≠ [])
    (hclosers : AwaitsClosers kinds awaited) :
    (distanceToClose? pairing awaited (t.take k).getLast? s).map (k + ·) =
      closeIn kinds awaited
        ((seenFrom k s).filter fun entry => isBracketAt kinds t entry.1 entry.2) := by
  induction s generalizing k awaited with
  | nil => rfl
  | cons entry s ih =>
      obtain ⟨c, role⟩ := entry
      obtain ⟨hc, hrest⟩ := getElem?_of_drop hs.symm
      have hlast : (t.take (k + 1)).getLast? = some c := by
        rw [List.take_add_one, hc]
        simp
      -- what comes after the character, with the open brackets that it leaves
      have hmore {next : List Char} (hne : next ≠ []) (hclosers : AwaitsClosers kinds next) :
          ((distanceToClose? pairing next (some c) s).map (· + 1)).map (k + ·) =
            closeIn kinds next
              ((seenFrom (k + 1) s).filter fun entry => isBracketAt kinds t entry.1 entry.2) := by
        rw [← ih hrest.symm hne hclosers, hlast, Option.map_map]
        congr 1
        funext n
        exact (Nat.add_assoc k n 1).symm.trans (Nat.add_right_comm k n 1)
      rw [seenFrom_cons]
      cases hseen : role.isSeen with
      | false =>
          rw [distanceToClose?, if_neg (by simp [hseen]), if_neg (by simp)]
          exact hmore hne hclosers
      | true =>
          rw [distanceToClose?_cons hseen hne, if_pos rfl, List.filter_cons]
          cases hbracket : isBracketAt kinds t k c with
          | true =>
              rw [bracketStep?_of_isBracketAt hpairing hbracket, if_pos rfl, closeIn]
              split
              · rfl
              · rename_i hopen
                exact hmore hopen (hclosers.openStep c)
          | false =>
              rw [bracketStep?_of_not_isBracketAt hpairing hangle hbracket hclosers, if_neg hne,
                if_neg (by simp)]
              exact hmore hne hclosers

end Scanned

/-- How a match stands to the word of brackets from an offset on. -/
structure MatchesWord (t : List Char) (start : Nat) (opens closes : Char) : Prop where
  /-- The shortest properly nested word ends at the match. -/
  complete : ∀ word i, word <+: bracketsAt t start opens →
    BalancedWord (bracketKinds opens) (word.map Prod.snd) →
    (∀ shorter, shorter <+: word → shorter ≠ [] →
      BalancedWord (bracketKinds opens) (shorter.map Prod.snd) → shorter = word) →
    word.getLast?.map Prod.fst = some i → matching? t start opens closes = some i
  /-- The match is the closer that was asked for, in code after the bracket. -/
  sound : ∀ i, matching? t start opens closes = some i →
    start < i ∧ t[i]? = some closes ∧ (i, closes) ∈ codeAt t start
  /-- With every closer before the match in place, the word up to it is properly nested. -/
  nested : ∀ i, matching? t start opens closes = some i →
    InPlace (bracketKinds opens) []
      (((bracketsAt t start opens).filter fun entry => entry.1 < i).map Prod.snd) →
    BalancedWord (bracketKinds opens)
      (((bracketsAt t start opens).filter fun entry => entry.1 ≤ i).map Prod.snd)
  /-- There is no match just if the stack of open brackets is never empty again. -/
  unmatched : matching? t start opens closes = none ↔
    ∀ word, word <+: bracketsAt t start opens → word ≠ [] →
      openAfter (bracketKinds opens) [] (word.map Prod.snd) ≠ []

section Matching

variable {t : List Char} {start i : Nat} {opens closes : Char}

theorem scanAt_chars (t : List Char) (k : Nat) : (scanAt t k).map Prod.fst = t.drop k :=
  scanFrom_chars _ _ _

/-- A scan that starts at a character which opens nothing finds it in code. -/
theorem scanAt_of_isPlain {c : Char} (hc : t[start]? = some c) (hplain : isPlain c = true) :
    scanAt t start = (c, .code) :: scanAt t (start + 1) := by
  rw [scanAt, drop_eq_cons hc, scanFrom, Region.step, opened?_of_isPlain hplain, scanAt,
    reverse_take_succ hc]
  rfl

theorem lookup_angle (opens : Char) : (bracketKinds opens).lookup '>' = none := by
  unfold bracketKinds
  split <;> rfl

/-- Where one bracket is matched, the kinds that count are those of the requested pair and the
round, square and curly brackets. -/
theorem also_eq_lookup (h : (opens, closes) ∈ ('<', '>') :: Pairing.bracketPairs) (c : Char) :
    Pairing.brackets.also opens closes c = (bracketKinds opens).lookup c := by
  have hplain : Pairing.brackets c = Pairing.bracketPairs.lookup c := by
    by_cases hround : c = '('
    · subst hround
      rfl
    · by_cases hsquare : c = '['
      · subst hsquare
        rfl
      · by_cases hcurly : c = '\x7b'
        · subst hcurly
          rfl
        · simp [Pairing.brackets, closingBracket?, Pairing.bracketPairs, List.lookup_cons, hround,
            hsquare, hcurly, beq_eq_false_iff_ne.mpr]
  rcases List.mem_cons.mp h with hangle | hbracket
  · obtain ⟨rfl, rfl⟩ := Prod.mk.inj hangle
    rw [Pairing.also, hplain, bracketKinds, if_pos rfl, List.lookup_cons]
    by_cases hc : c = '<'
    · rw [if_pos hc, hc]
      rfl
    · rw [if_neg hc, beq_eq_false_iff_ne.mpr hc]
  · have hpair : Pairing.brackets opens = some closes ∧ opens ≠ '<' := by
      simp only [Pairing.bracketPairs, List.mem_cons, Prod.mk.injEq, List.not_mem_nil,
        or_false] at hbracket
      rcases hbracket with ⟨rfl, rfl⟩ | ⟨rfl, rfl⟩ | ⟨rfl, rfl⟩ <;> exact ⟨rfl, by decide⟩
    rw [Pairing.also_self hpair.1, hplain, bracketKinds, if_neg hpair.2]

theorem mem_bracketKinds (h : (opens, closes) ∈ ('<', '>') :: Pairing.bracketPairs) :
    (opens, closes) ∈ bracketKinds opens := by
  rcases List.mem_cons.mp h with hangle | hbracket
  · obtain ⟨rfl, rfl⟩ := Prod.mk.inj hangle
    exact List.mem_cons_self
  · rw [bracketKinds]
    split
    · exact List.mem_cons_of_mem _ hbracket
    · exact hbracket

/-- The brackets up to a match, out of three pieces. -/
theorem filter_bracketsAt {before after : List (Nat × Char)} {c : Char}
    (hword : bracketsAt t start opens = before ++ (i, c) :: after) :
    (bracketsAt t start opens).filter (fun entry => entry.1 < i) = before ∧
      (bracketsAt t start opens).filter (fun entry => entry.1 ≤ i) = before ++ [(i, c)] := by
  have hsorted : (bracketsAt t start opens).Pairwise fun e e' => e.1 < e'.1 :=
    (pairwise_seenFrom start (scanAt t start)).filter _
  rw [hword, List.pairwise_append, List.pairwise_cons] at hsorted
  obtain ⟨-, ⟨hafter, -⟩, hbefore⟩ := hsorted
  have hlt : ∀ e ∈ before, e.1 < i := fun e he => hbefore e he (i, c) List.mem_cons_self
  constructor
  · rw [hword, List.filter_append, List.filter_eq_self.mpr fun e he => decide_eq_true (hlt e he),
      List.filter_eq_nil_iff.mpr, List.append_nil]
    intro e he
    rcases List.mem_cons.mp he with rfl | he
    · simp
    · simpa using Nat.le_of_lt (hafter e he)
  · rw [hword, List.filter_append, List.filter_eq_self.mpr fun e he =>
      decide_eq_true (Nat.le_of_lt (hlt e he)), List.filter_cons_of_pos (by simp),
      List.filter_eq_nil_iff.mpr]
    intro e he
    simpa using hafter e he

variable (hkind : (opens, closes) ∈ ('<', '>') :: Pairing.bracketPairs)
  (hstart : t[start]? = some opens)
include hkind hstart

/-- A scan that starts at a bracket finds it in code. -/
theorem scanAt_bracket : scanAt t start = (opens, .code) :: scanAt t (start + 1) := by
  refine scanAt_of_isPlain hstart ?_
  simp only [Pairing.bracketPairs, List.mem_cons, Prod.mk.injEq, List.not_mem_nil,
    or_false] at hkind
  rcases hkind with ⟨rfl, -⟩ | ⟨rfl, -⟩ | ⟨rfl, -⟩ | ⟨rfl, -⟩ <;> rfl

/-- A match is where the word of brackets leaves no bracket open. -/
theorem matching?_eq_closeIn :
    matching? t start opens closes = closeIn (bracketKinds opens) [] (bracketsAt t start opens) ∧
      ∃ word, bracketsAt t start opens = (start, opens) :: word := by
  have hscan := scanAt_bracket hkind hstart
  have hpair : Pairing.brackets.also opens closes opens = some closes := if_pos rfl
  have hlast : (t.take (start + 1)).getLast? = some opens := by
    rw [List.take_add_one, hstart]
    simp
  have hmem := mem_bracketKinds hkind
  have hstep := (kinds_bracketKinds opens).openStep_open hmem []
  have hbracket : isBracketAt (bracketKinds opens) t start opens = true := by
    have hangle : opens ≠ '>' := by
      rintro rfl
      have := (kinds_bracketKinds '>' _ hmem).1
      rw [lookup_angle] at this
      cases this
    simp only [isBracketAt, Bool.and_eq_true, List.any_eq_true, Bool.or_eq_true, beq_iff_eq]
    exact ⟨⟨_, hmem, Or.inl rfl⟩, by simp [hangle]⟩
  have hword : bracketsAt t start opens = (start, opens) ::
      (seenFrom (start + 1) (scanAt t (start + 1))).filter
        fun entry => isBracketAt (bracketKinds opens) t entry.1 entry.2 := by
    rw [bracketsAt, codeAt_eq, hscan, seenFrom_cons]
    exact List.filter_cons_of_pos hbracket
  refine ⟨?_, _, hword⟩
  rw [matching?, if_pos hstart, hscan, distanceToClose?_open hpair, hword, closeIn, hstep,
    if_neg (List.cons_ne_nil _ _), ← distanceToClose?_eq_closeIn (also_eq_lookup hkind)
      (lookup_angle opens) (scanAt_chars t (start + 1)) (List.cons_ne_nil _ _)
      (List.forall_mem_singleton.mpr ⟨opens, hmem⟩),
    hlast, Option.map_map]
  congr 1
  funext n
  exact (Nat.add_assoc start n 1).symm.trans (Nat.add_right_comm start n 1)

/-- A match is the closer that was asked for, in code after the bracket. -/
theorem sound_of_matching? (h : matching? t start opens closes = some i) :
    start < i ∧ t[i]? = some closes ∧ (i, closes) ∈ codeAt t start := by
  have hscan := scanAt_bracket hkind hstart
  have hpair : Pairing.brackets.also opens closes opens = some closes := if_pos rfl
  rw [matching?, if_pos hstart, hscan, distanceToClose?_open hpair, Option.map_map] at h
  obtain ⟨n, hn, rfl⟩ := Option.map_eq_some_iff.mp h
  have hdistance : distanceToClose? (Pairing.brackets.also opens closes) ([] ++ [closes])
      (some opens) (scanAt t (start + 1)) = some n := hn
  obtain ⟨role, hrole, hseen⟩ := getElem?_of_distanceToClose? hdistance
  have hcloses : (t.drop (start + 1))[n]? = some closes := by
    rw [← scanAt_chars, List.getElem?_map, hrole]
    rfl
  rw [List.getElem?_drop] at hcloses
  refine ⟨?_, ?_, ?_⟩
  · exact Nat.lt_add_of_pos_right (Nat.succ_pos n)
  · rw [← hcloses]
    congr 1
    exact (Nat.add_assoc start n 1).symm.trans (Nat.add_right_comm start n 1)
  · rw [codeAt_eq, hscan]
    exact mem_seenFrom_iff.mpr ⟨n + 1, role, rfl, hrole, hseen⟩

/-- The shortest properly nested word from a bracket on ends at its match. -/
theorem matching?_of_shortest {word : List (Nat × Char)}
    (hword : word <+: bracketsAt t start opens)
    (hbalanced : BalancedWord (bracketKinds opens) (word.map Prod.snd))
    (hshortest : ∀ shorter, shorter <+: word → shorter ≠ [] →
      BalancedWord (bracketKinds opens) (shorter.map Prod.snd) → shorter = word)
    (hlast : word.getLast?.map Prod.fst = some i) : matching? t start opens closes = some i := by
  have hkinds := kinds_bracketKinds opens
  obtain ⟨after, hafter⟩ := hword
  obtain ⟨entry, hentry, rfl⟩ := Option.map_eq_some_iff.mp hlast
  obtain ⟨before, rfl⟩ := List.getLast?_eq_some_iff.mp hentry
  have hclosed := hbalanced.openAfter_eq hkinds []
  rw [List.map_append, openAfter_append] at hclosed
  rw [(matching?_eq_closeIn hkind hstart).1, closeIn_eq_some_iff]
  refine ⟨before, entry.2, after, by rw [← hafter, List.append_assoc]; rfl, hclosed, ?_⟩
  refine closeIn_eq_none_iff.mpr fun shorter hshorter hne hempty => ?_
  -- a shorter word that closes all its brackets would be properly nested
  have hplace := hbalanced.inPlace hkinds []
  obtain ⟨more, rfl⟩ := hshorter
  rw [List.map_append, List.map_append, List.append_assoc, inPlace_append] at hplace
  have heq := hshortest shorter ((List.prefix_append shorter more).trans
    (List.prefix_append _ [entry])) hne ((balancedWord_iff hkinds).mpr ⟨hplace.1, hempty⟩)
  have hlength := congrArg List.length heq
  simp only [List.length_append, List.length_singleton] at hlength
  omega

/-- With every closer before a match in place, the word up to it is properly nested. -/
theorem balancedWord_of_matching? (h : matching? t start opens closes = some i)
    (hplace : InPlace (bracketKinds opens) []
      (((bracketsAt t start opens).filter fun entry => entry.1 < i).map Prod.snd)) :
    BalancedWord (bracketKinds opens)
      (((bracketsAt t start opens).filter fun entry => entry.1 ≤ i).map Prod.snd) := by
  have hkinds := kinds_bracketKinds opens
  obtain ⟨hmatching, rest, hrest⟩ := matching?_eq_closeIn hkind hstart
  obtain ⟨before, c, after, hword, hclosed, hnone⟩ :=
    closeIn_eq_some_iff.mp (hmatching.symm.trans h)
  obtain ⟨hlt, hle⟩ := filter_bracketsAt hword
  rw [hlt] at hplace
  rw [hle, balancedWord_iff hkinds, List.map_append, inPlace_append, openAfter_append]
  refine ⟨⟨hplace, inPlace_cons.mpr ⟨fun hcloser => ?_, inPlace_nil⟩⟩, hclosed⟩
  -- some bracket is still open, so the closer that leaves none is the one it waits for
  have hopen : openAfter (bracketKinds opens) [] (before.map Prod.snd) ≠ [] := by
    cases before with
    | nil =>
        rw [hrest] at hword
        obtain ⟨hfirst, -⟩ := List.cons.inj hword
        rw [← (Prod.mk.inj hfirst).2, (hkinds _ (mem_bracketKinds hkind)).1] at hcloser
        cases hcloser
    | cons entry before =>
        exact closeIn_eq_none_iff.mp hnone _ (List.prefix_refl _) (List.cons_ne_nil _ _)
  refine Decidable.byContradiction fun hne => ?_
  rw [openStep, hcloser] at hclosed
  exact hopen (by simpa [hne] using hclosed)

end Matching

/-- Matching a bracket is structural in the word of brackets that starts with it. -/
theorem matchesWord {t : List Char} {start : Nat} {opens closes : Char}
    (hkind : (opens, closes) ∈ ('<', '>') :: Pairing.bracketPairs)
    (hstart : t[start]? = some opens) : MatchesWord t start opens closes where
  complete _ _ := matching?_of_shortest hkind hstart
  sound _ := sound_of_matching? hkind hstart
  nested _ := balancedWord_of_matching? hkind hstart
  unmatched := by
    rw [(matching?_eq_closeIn hkind hstart).1]
    exact closeIn_eq_none_iff

/-- A list of type parameters with an arrow, a closer in a literal, and a closer out of place. -/
theorem matchesWord_typeParameters :
    let t := "f<A, (x: B) => C[\">\"], \x7b]\x7d>(y)".toList
    ('<', '>') ∈ ('<', '>') :: Pairing.bracketPairs ∧ t[1]? = some '<' ∧
      matching? t 1 '<' '>' = some 26 ∧ MatchesWord t 1 '<' '>' :=
  ⟨List.mem_cons_self, rfl, by decide +kernel, matchesWord List.mem_cons_self rfl⟩

end PluginContract.Script
