import PluginContract.Proofs.Script.Terminated
import PluginContract.Proofs.Text.Search

/-!
# Balanced code between brackets and between commas

In balanced code every bracket is closed by its own closer, apart from what stands in literals.
Past such code the open brackets are those before it, and none of these is closed in between.
So an opening bracket is matched by the closer right after balanced code, and parts of
balanced code are what a list of them is split into.
-/

namespace PluginContract.Script

open Text Region

namespace Pairing

/-- A character that neither opens nor closes. -/
def NoBracket (pairing : Pairing) (c : Char) : Prop :=
  pairing c = none ∧ ∀ opens, pairing opens ≠ some c

/-- A pairing of plain characters, in which no closer opens, and an arrow does not. -/
structure Proper (pairing : Pairing) : Prop where
  plain : ∀ {opens closes}, pairing opens = some closes →
    isPlain opens = true ∧ isPlain closes = true ∧ pairing closes = none
  separators : ∀ c ∈ ['=', ',', ' '], pairing.NoBracket c
  angle : pairing '>' = none

/-- The brackets of a pairing are among some pairs of characters. -/
def Among (pairing : Pairing) (pairs : List (Char × Char)) : Prop :=
  ∀ {opens closes}, pairing opens = some closes → (opens, closes) ∈ pairs

theorem Among.noBracket {pairing : Pairing} {pairs : List (Char × Char)} (h : pairing.Among pairs)
    {c : Char} (hc : ∀ pair ∈ pairs, pair.1 ≠ c ∧ pair.2 ≠ c) : pairing.NoBracket c := by
  constructor
  · apply Option.eq_none_iff_forall_not_mem.mpr
    intro closes hcloses
    exact (hc _ (h hcloses)).1 rfl
  · intro opens hopens
    exact (hc _ (h hopens)).2 rfl

/-- What passes a check that no bracket passes is no bracket. -/
theorem Among.noBracket_of_check {pairing : Pairing} {pairs : List (Char × Char)}
    (h : pairing.Among pairs) {p : Char → Bool}
    (hpairs : ∀ pair ∈ pairs, p pair.1 = false ∧ p pair.2 = false) {c : Char} (hc : p c = true) :
    pairing.NoBracket c :=
  h.noBracket fun pair hpair =>
    ⟨(ne_of_check hc (hpairs pair hpair).1).symm, (ne_of_check hc (hpairs pair hpair).2).symm⟩

theorem Among.proper {pairing : Pairing} {pairs : List (Char × Char)} (h : pairing.Among pairs)
    (hplain : pairs.all (fun pair =>
      isPlain pair.1 && isPlain pair.2 && (pairing pair.2).isNone) = true)
    (hseparators : ['=', ',', ' '].all (fun c =>
      pairs.all fun pair => pair.1 != c && pair.2 != c) = true)
    (hangle : pairing '>' = none) : pairing.Proper where
  plain hpair := by
    have hpair := List.all_eq_true.mp hplain _ (h hpair)
    simp only [Bool.and_eq_true, Option.isNone_iff_eq_none] at hpair
    exact ⟨hpair.1.1, hpair.1.2, hpair.2⟩
  separators c hc := by
    have hother := List.all_eq_true.mp hseparators c hc
    simp only [List.all_eq_true, Bool.and_eq_true, bne_iff_ne] at hother
    exact h.noBracket hother
  angle := hangle

/-- The round, square and curly brackets in pairs. -/
def bracketPairs : List (Char × Char) := [('(', ')'), ('[', ']'), ('\x7b', '\x7d')]

theorem among_brackets : brackets.Among bracketPairs := by
  intro opens closes h
  rcases closingBracket?_cases h with ⟨rfl, rfl⟩ | ⟨rfl, rfl⟩ | ⟨rfl, rfl⟩ <;> simp [bracketPairs]

theorem among_angled : angled.Among (('<', '>') :: bracketPairs) := by
  intro opens closes h
  rw [angled, also] at h
  split at h
  · rename_i hopens
    obtain rfl := Option.some.inj h
    simp [hopens]
  · exact List.mem_cons_of_mem _ (among_brackets h)

theorem proper_brackets : brackets.Proper :=
  among_brackets.proper (by decide) (by decide) rfl

theorem proper_angled : angled.Proper :=
  among_angled.proper (by decide) (by decide) rfl

/-- A character that is no bracket leaves the depth as it is. -/
theorem NoBracket.depthChange_eq {c : Char} (h : brackets.NoBracket c) : depthChange c = 0 := by
  have hne (opens closes : Char) (hpair : brackets opens = some closes) :
      c ≠ opens ∧ c ≠ closes := by
    constructor
    · rintro rfl
      rw [h.1] at hpair
      cases hpair
    · rintro rfl
      exact h.2 opens hpair
  have hround := hne '(' ')' rfl
  have hsquare := hne '[' ']' rfl
  have hcurly := hne '\x7b' '\x7d' rfl
  rw [depthChange, if_neg, if_neg]
  · simp [hround, hsquare, hcurly]
  · simp [hround, hsquare, hcurly]

/-- A pair that is there anyway adds nothing. -/
theorem also_self {pairing : Pairing} {opens closes : Char} (h : pairing opens = some closes) :
    pairing.also opens closes = pairing := by
  funext c
  rw [also]
  split
  · rename_i hc
    rw [hc, h]
  · rfl

theorem also_round : brackets.also '(' ')' = brackets := also_self rfl

theorem also_curly : brackets.also '\x7b' '\x7d' = brackets := also_self rfl

end Pairing

/-- Balanced code: brackets closed by their own closers, terminated literals, and no slash apart from
those in literals. An arrow closes no angle bracket. Commas stand between brackets only, unless
they are allowed everywhere. -/
inductive Balanced (pairing : Pairing) : (commas : Bool) → List Char → Prop
  | nil {commas : Bool} : Balanced pairing commas []
  | plain {commas : Bool} {c : Char} {rest : List Char} (plain : isPlain c = true)
      (other : pairing.NoBracket c) (comma : c = ',' → commas = true)
      (balanced : Balanced pairing commas rest) : Balanced pairing commas (c :: rest)
  | arrow {commas : Bool} {rest : List Char} (balanced : Balanced pairing commas rest) :
      Balanced pairing commas ('=' :: '>' :: rest)
  | literal {commas : Bool} {lit rest : List Char} (terminated : Terminated lit)
      (balanced : Balanced pairing commas rest) : Balanced pairing commas (lit ++ rest)
  | bracket {commas : Bool} {opens closes : Char} {inside rest : List Char}
      (pair : pairing opens = some closes) (inner : Balanced pairing true inside)
      (arrow : closes = '>' → inside.getLast? ≠ some '=')
      (balanced : Balanced pairing commas rest) :
      Balanced pairing commas (opens :: (inside ++ closes :: rest))

/-- How the open brackets go along scanned characters while those of a base stay open, and no comma
stands outside of all of them. -/
inductive Nested (pairing : Pairing) (base : List Char) :
    (awaited : List Char) → (before : Option Char) → List (Char × Role) →
      (awaited' : List Char) → (before' : Option Char) → Prop
  | nil {awaited : List Char} {before : Option Char} :
      Nested pairing base awaited before [] awaited before
  | unseen {awaited awaited' : List Char} {before before' : Option Char} {c : Char} {role : Role}
      {s : List (Char × Role)} (seen : role.isSeen = false)
      (rest : Nested pairing base awaited (some c) s awaited' before') :
      Nested pairing base awaited before ((c, role) :: s) awaited' before'
  | bracket {awaited next awaited' : List Char} {before before' : Option Char} {c : Char}
      {role : Role} {s : List (Char × Role)} (seen : role.isSeen = true)
      (step : bracketStep? pairing awaited before c = some next) (kept : base <:+ next)
      (rest : Nested pairing base next (some c) s awaited' before') :
      Nested pairing base awaited before ((c, role) :: s) awaited' before'
  | other {awaited awaited' : List Char} {before before' : Option Char} {c : Char} {role : Role}
      {s : List (Char × Role)} (seen : role.isSeen = true)
      (step : bracketStep? pairing awaited before c = none) (comma : c = ',' → awaited ≠ [])
      (rest : Nested pairing base awaited (some c) s awaited' before') :
      Nested pairing base awaited before ((c, role) :: s) awaited' before'

namespace Nested

variable {pairing : Pairing} {base base' awaited awaited' awaited'' : List Char}
  {before before' before'' : Option Char} {s s' : List (Char × Role)}

theorem append (h : Nested pairing base awaited before s awaited' before')
    (h' : Nested pairing base awaited' before' s' awaited'' before'') :
    Nested pairing base awaited before (s ++ s') awaited'' before'' := by
  induction h with
  | nil => exact h'
  | unseen seen _ ih => exact .unseen seen (ih h')
  | bracket seen step kept _ ih => exact .bracket seen step kept (ih h')
  | other seen step comma _ ih => exact .other seen step comma (ih h')

/-- What keeps more brackets open keeps fewer open. -/
theorem weaken (h : Nested pairing base awaited before s awaited' before') (hbase : base' <:+ base) :
    Nested pairing base' awaited before s awaited' before' := by
  induction h with
  | nil => exact .nil
  | unseen seen _ ih => exact .unseen seen ih
  | bracket seen step kept _ ih => exact .bracket seen step (hbase.trans kept) ih
  | other seen step comma _ ih => exact .other seen step comma ih

theorem of_unseen (h : ∀ entry ∈ s, entry.2.isSeen = false) (before : Option Char) :
    Nested pairing base awaited before s awaited ((s.map Prod.fst).getLast?.or before) := by
  induction s generalizing before with
  | nil => exact .nil
  | cons entry s ih =>
      obtain ⟨hentry, hs⟩ := List.forall_mem_cons.mp h
      rw [List.map_cons, Pattern.getLast?_cons_or]
      exact .unseen hentry (ih hs (some entry.1))

/-- No outermost bracket is closed on the way. -/
theorem distanceToClose?_append (h : Nested pairing base awaited before s awaited' before')
    (hbase : base ≠ []) (rest : List (Char × Role)) :
    distanceToClose? pairing awaited before (s ++ rest) =
      (distanceToClose? pairing awaited' before' rest).map (· + s.length) := by
  induction h with
  | nil => simp
  | unseen seen _ ih =>
      rw [List.cons_append, distanceToClose?]
      simp [seen, ih, Function.comp_def, Nat.add_assoc]
  | @bracket awaited next awaited' before before' c role s seen step kept _ ih =>
      obtain ⟨close, next, rfl⟩ : ∃ close outer, next = close :: outer := by
        apply List.exists_cons_of_ne_nil
        rintro rfl
        exact hbase (List.suffix_nil.mp kept)
      rw [List.cons_append, distanceToClose?]
      simp [seen, step, ih, Function.comp_def, Nat.add_assoc]
  | other seen step _ _ ih =>
      rw [List.cons_append, distanceToClose?]
      simp [seen, step, ih, Function.comp_def, Nat.add_assoc]

/-- Nothing is split on the way. -/
theorem splitFrom_append (h : Nested pairing base awaited before s awaited' before')
    (part : List Char) (rest : List (Char × Role)) :
    splitFrom pairing [','] awaited before 0 part (s ++ rest) =
      splitFrom pairing [','] awaited' before' 0 ((s.map Prod.fst).reverse ++ part) rest := by
  induction h generalizing part with
  | nil => rfl
  | unseen seen _ ih =>
      rw [List.cons_append, splitFrom]
      simp [seen, ih]
  | bracket seen step _ _ ih =>
      rw [List.cons_append, splitFrom]
      simp [seen, step, ih]
  | @other awaited awaited' before before' c role s seen step comma _ ih =>
      have hcomma : (awaited.isEmpty && spells [','] ((c, role) :: (s ++ rest))) = false := by
        cases awaited with
        | cons close awaited => rfl
        | nil =>
            have hne : ',' ≠ c := by
              rintro rfl
              exact comma rfl rfl
            simp [spells, hne]
      rw [List.cons_append, splitFrom]
      simp [seen, step, hcomma, ih]

end Nested

section Balanced

variable {pairing : Pairing} {commas : Bool} {base u v : List Char} {before : Option Char}
  {c : Char}

theorem Pairing.Proper.noBracket_of_isQuote (hproper : pairing.Proper) (hc : isQuote c = true) :
    pairing.NoBracket c := by
  have hplain : isPlain c = false := by simp [isPlain, hc]
  constructor
  · apply Option.eq_none_iff_forall_not_mem.mpr
    intro closes hcloses
    rw [(hproper.plain hcloses).1] at hplain
    cases hplain
  · intro opens hopens
    rw [(hproper.plain hopens).2.1] at hplain
    cases hplain

/-- What is no bracket changes no open brackets. -/
theorem Pairing.NoBracket.bracketStep? (hc : pairing.NoBracket c)
    (hbase : ∀ closes ∈ base.head?, ∃ opens, pairing opens = some closes)
    (before : Option Char) : bracketStep? pairing base before c = none := by
  rw [Script.bracketStep?.eq_def, hc.1]
  cases base with
  | nil => rfl
  | cons close base =>
      obtain ⟨opens, hopens⟩ := hbase close rfl
      have hne : c ≠ close := by
        rintro rfl
        exact hc.2 opens hopens
      exact if_neg hne

theorem Balanced.selfContained (hproper : pairing.Proper) (h : Balanced pairing commas u) :
    SelfContained u := by
  induction h with
  | nil => exact selfContained_nil
  | plain plain _ _ _ ih => exact ih.cons plain
  | arrow _ ih => exact (selfContained_plain (show Plain ['=', '>'] from rfl)).append ih
  | literal terminated _ ih => exact (selfContained_terminated terminated).append ih
  | bracket pair _ _ _ ihInner ih =>
      obtain ⟨hopens, hcloses, -⟩ := hproper.plain pair
      exact (ihInner.append (ih.cons hcloses)).cons hopens

/-- No comment stands in balanced code. -/
theorem Balanced.stripComments_eq (hproper : pairing.Proper) (h : Balanced pairing commas u) :
    stripComments u = u := by
  induction h with
  | nil => rfl
  | plain plain _ _ balanced ih =>
      rw [(balanced.selfContained hproper).stripComments_cons plain, ih]
  | arrow balanced ih =>
      have hrest := balanced.selfContained hproper
      rw [(hrest.cons (by decide)).stripComments_cons (by decide),
        hrest.stripComments_cons (by decide), ih]
  | literal terminated balanced ih =>
      rw [(selfContained_terminated terminated).stripComments_append
        (balanced.selfContained hproper), stripComments_terminated terminated, ih]
  | bracket pair inner _ balanced ihInner ih =>
      obtain ⟨hopens, hcloses, -⟩ := hproper.plain pair
      have hinside := inner.selfContained hproper
      have hrest := balanced.selfContained hproper
      rw [(hinside.append (hrest.cons hcloses)).stripComments_cons hopens,
        hinside.stripComments_append (hrest.cons hcloses), hrest.stripComments_cons hcloses,
        ihInner, ih]

theorem Balanced.append (h : Balanced pairing commas u) (h' : Balanced pairing commas v) :
    Balanced pairing commas (u ++ v) := by
  induction h with
  | nil => exact h'
  | plain plain other comma _ ih => exact .plain plain other comma (ih h')
  | arrow _ ih => exact .arrow (ih h')
  | literal terminated _ ih =>
      rw [List.append_assoc]
      exact .literal terminated (ih h')
  | bracket pair inner arrow _ _ ih =>
      rw [List.cons_append, List.append_assoc]
      exact .bracket pair inner arrow (ih h')

/-- Plain code without brackets, and without commas where they are not allowed, is balanced. -/
theorem balanced_of_forall (h : ∀ c ∈ u, isPlain c = true ∧ pairing.NoBracket c ∧
    (c = ',' → commas = true)) : Balanced pairing commas u := by
  induction u with
  | nil => exact .nil
  | cons c u ih =>
      obtain ⟨⟨hplain, hother, hcomma⟩, hu⟩ := List.forall_mem_cons.mp h
      exact .plain hplain hother hcomma (ih hu)

/-- A check that a character may stand in plain code without brackets. -/
def isUnpaired (pairs : List (Char × Char)) (c : Char) : Bool :=
  isPlain c && pairs.all fun pair => pair.1 != c && pair.2 != c

theorem isUnpaired_of_check {pairs : List (Char × Char)} {p : Char → Bool}
    (hplain : isPlain c = true) (hc : p c = true)
    (hpairs : ∀ pair ∈ pairs, p pair.1 = false ∧ p pair.2 = false) : isUnpaired pairs c = true := by
  simp only [isUnpaired, Bool.and_eq_true, hplain, List.all_eq_true, bne_iff_ne, true_and]
  intro pair hpair
  exact ⟨(ne_of_check hc (hpairs pair hpair).1).symm, (ne_of_check hc (hpairs pair hpair).2).symm⟩

theorem isUnpaired_of_isNameChar {pairs : List (Char × Char)} (hc : isNameChar c = true)
    (hpairs : ∀ pair ∈ pairs, isNameChar pair.1 = false ∧ isNameChar pair.2 = false) :
    isUnpaired pairs c = true := isUnpaired_of_check (isPlain_of_isNameChar hc) hc hpairs

theorem isUnpaired_of_isBlank {c : Char} (hc : isBlank c = true) :
    isUnpaired Pairing.bracketPairs c = true :=
  isUnpaired_of_check (isPlain_of_isBlank hc) hc (by decide)

theorem Pairing.Among.balanced_of_all {pairs : List (Char × Char)} (h : pairing.Among pairs)
    (hu : u.all (fun c => isUnpaired pairs c && (commas || c != ',')) = true) :
    Balanced pairing commas u := by
  apply balanced_of_forall
  intro c hc
  have hchar := List.all_eq_true.mp hu c hc
  simp only [isUnpaired, Bool.and_eq_true, Bool.or_eq_true, List.all_eq_true, bne_iff_ne] at hchar
  obtain ⟨⟨hplain, hpairs⟩, hcomma⟩ := hchar
  exact ⟨hplain, h.noBracket hpairs, fun heq => hcomma.resolve_right fun hne => hne heq⟩

/-- Words and blanks are balanced. -/
theorem balanced_words (hu : ∀ c ∈ u, isNameChar c = true ∨ isBlank c = true) :
    Balanced .brackets false u := by
  refine Pairing.among_brackets.balanced_of_all (List.all_eq_true.mpr fun c hc => ?_)
  have hcomma : c ≠ ',' := by
    rintro rfl
    exact absurd (hu ',' hc) (by decide)
  have hunpaired : isUnpaired Pairing.bracketPairs c = true := by
    rcases hu c hc with hname | hblank
    · exact isUnpaired_of_isNameChar hname (by decide)
    · exact isUnpaired_of_isBlank hblank
  simp [hunpaired, hcomma]

/-- What is balanced without commas is balanced where they are allowed. -/
theorem Balanced.allow (h : Balanced pairing commas u) : Balanced pairing true u := by
  induction h with
  | nil => exact .nil
  | plain plain other _ _ ih => exact .plain plain other (fun _ => rfl) ih
  | arrow _ ih => exact .arrow ih
  | literal terminated _ ih => exact .literal terminated ih
  | bracket pair inner arrow _ _ ih => exact .bracket pair inner arrow ih

/-- The angle bracket of an arrow changes no open brackets. -/
theorem Pairing.Proper.bracketStep?_arrow (hproper : pairing.Proper) (base : List Char) :
    bracketStep? pairing base (some '=') '>' = some base ∨
      bracketStep? pairing base (some '=') '>' = none := by
  rw [Script.bracketStep?.eq_def, hproper.angle]
  cases base with
  | nil => exact Or.inr rfl
  | cons close base =>
      dsimp only
      split
      · exact Or.inl rfl
      · exact Or.inr rfl

theorem bracketStep?_open {opens closes : Char} (h : pairing opens = some closes)
    (base : List Char) (before : Option Char) :
    bracketStep? pairing base before opens = some (closes :: base) := by
  rw [bracketStep?.eq_def, h]

theorem forall_mem_head?_closers {opens closes : Char} (h : pairing opens = some closes)
    (base : List Char) : ∀ d ∈ (closes :: base).head?, ∃ opens, pairing opens = some d := by
  intro d hd
  obtain rfl := Option.some.inj hd
  exact ⟨opens, h⟩

/-- A closer closes the innermost bracket, unless it ends an arrow. -/
theorem bracketStep?_close {closes : Char} (h : pairing closes = none)
    (hbefore : closes = '>' → before ≠ some '=') (base : List Char) :
    bracketStep? pairing (closes :: base) before closes = some base := by
  rw [bracketStep?.eq_def, h]
  simpa using hbefore

/-- What stands before a closer ends in no equals sign, if the code in the brackets does not. -/
theorem Pairing.Proper.getLast?_or_ne (hproper : pairing.Proper) {opens closes : Char}
    {inside : List Char} (pair : pairing opens = some closes)
    (arrow : closes = '>' → inside.getLast? ≠ some '=') :
    closes = '>' → inside.getLast?.or (some opens) ≠ some '=' := by
  intro hangle
  cases hlast : inside.getLast? with
  | some c =>
      have hne := arrow hangle
      rw [hlast] at hne
      exact hne
  | none =>
      intro hopens
      obtain rfl := Option.some.inj hopens
      rw [(hproper.separators '=' (by simp)).1] at pair
      cases pair

theorem Terminated.nested (hproper : pairing.Proper) (h : Terminated u)
    (hbase : ∀ closes ∈ base.head?, ∃ opens, pairing opens = some closes)
    (before : Option Char) :
    Nested pairing base base before (scan u) base (u.getLast?.or before) := by
  obtain ⟨q, inside, rfl, hquote, hscan, -⟩ := h.exists_cons
  have hinside : Nested pairing base base (some q) (insideRoles inside) base
      ((insideRoles inside).map Prod.fst |>.getLast?.or (some q)) :=
    .of_unseen isSeen_insideRoles (some q)
  rw [map_fst_insideRoles] at hinside
  rw [hscan, Pattern.getLast?_cons_or]
  refine .other rfl ((hproper.noBracket_of_isQuote hquote).bracketStep? hbase before) ?_ hinside
  rintro rfl
  cases hquote

/-- Balanced code leaves the open brackets as they are. -/
theorem Balanced.nested (hproper : pairing.Proper) (h : Balanced pairing commas u)
    (hbase : ∀ closes ∈ base.head?, ∃ opens, pairing opens = some closes)
    (hcommas : commas = true → base ≠ []) (before : Option Char) :
    Nested pairing base base before (scan u) base (u.getLast?.or before) := by
  induction h generalizing base before with
  | nil => exact .nil
  | plain plain other comma balanced ih =>
      rw [(balanced.selfContained hproper).scan_cons plain, Pattern.getLast?_cons_or]
      exact .other rfl (other.bracketStep? hbase before) (fun hc => hcommas (comma hc))
        (ih hbase hcommas _)
  | @arrow commas rest balanced ih =>
      have hrest := balanced.selfContained hproper
      have harrow := hrest.cons (by decide : isPlain '>' = true)
      rw [harrow.scan_cons (by decide), hrest.scan_cons (by decide), Pattern.getLast?_cons_or,
        Pattern.getLast?_cons_or]
      refine .other rfl ((hproper.separators '=' (by simp)).bracketStep? hbase before) nofun ?_
      rcases hproper.bracketStep?_arrow base with hstep | hstep
      · exact .bracket rfl hstep (List.suffix_refl base) (ih hbase hcommas _)
      · exact .other rfl hstep nofun (ih hbase hcommas _)
  | literal terminated balanced ih =>
      rw [(selfContained_terminated terminated).scan_append (balanced.selfContained hproper),
        List.getLast?_append, Option.or_assoc]
      exact (terminated.nested hproper hbase before).append (ih hbase hcommas _)
  | @bracket commas opens closes inside rest pair inner arrow balanced ihInner ih =>
      obtain ⟨hopens, hcloses, hnone⟩ := hproper.plain pair
      have hrest := balanced.selfContained hproper
      have hclosing := hrest.cons hcloses
      have hinside := inner.selfContained hproper
      have hbefore := hproper.getLast?_or_ne pair arrow
      rw [(hinside.append hclosing).scan_cons hopens, hinside.scan_append hclosing,
        hrest.scan_cons hcloses, Pattern.getLast?_cons_or, List.getLast?_append, Option.or_assoc,
        Pattern.getLast?_cons_or]
      refine .bracket rfl (bracketStep?_open pair base before) (List.suffix_cons closes base) ?_
      have hinner : Nested pairing (closes :: base) (closes :: base) (some opens) (scan inside)
          (closes :: base) (inside.getLast?.or (some opens)) :=
        ihInner (forall_mem_head?_closers pair base) (fun _ => List.cons_ne_nil _ _) (some opens)
      exact (hinner.weaken (List.suffix_cons closes base)).append
        (.bracket rfl (bracketStep?_close hnone hbefore base) (List.suffix_refl base)
          (ih hbase hcommas _))

theorem distanceToClose?_open {opens closes : Char} (h : pairing opens = some closes)
    (before : Option Char) (rest : List (Char × Role)) :
    distanceToClose? pairing [] before ((opens, .code) :: rest) =
      (distanceToClose? pairing [closes] (some opens) rest).map (· + 1) := by
  rw [distanceToClose?]
  simp [Role.isSeen, bracketStep?_open h]

theorem distanceToClose?_close {closes : Char} (h : pairing closes = none)
    (hbefore : closes = '>' → before ≠ some '=') (rest : List (Char × Role)) :
    distanceToClose? pairing [closes] before ((closes, .code) :: rest) = some 0 := by
  rw [distanceToClose?]
  simp [Role.isSeen, bracketStep?_close h hbefore]

/-- An opening bracket is matched by the closer right after balanced code. -/
theorem matching?_of_balanced {opens closes : Char} {inside : List Char}
    (hproper : (Pairing.brackets.also opens closes).Proper)
    (h : Balanced (Pairing.brackets.also opens closes) true inside)
    (harrow : closes = '>' → inside.getLast? ≠ some '=') (u v : List Char) :
    matching? (u ++ opens :: (inside ++ closes :: v)) u.length opens closes =
      some (u.length + 1 + inside.length) := by
  have hpair : Pairing.brackets.also opens closes opens = some closes := if_pos rfl
  obtain ⟨hopens, hcloses, hnone⟩ := hproper.plain hpair
  have hinside := h.selfContained hproper
  have hscan : scanAt (u ++ opens :: (inside ++ closes :: v)) u.length =
      (opens, .code) :: (scan inside ++ (closes, .code) ::
        scanFrom (closes :: (opens :: inside).reverse ++ u.reverse) [] v) := by
    have hopening := hinside.cons hopens
    have hclosing := selfContained_singleton hcloses ((opens :: inside).reverse ++ u.reverse) v
    rw [selfContained_nil.scan_cons hcloses] at hclosing
    refine (hopening.scanAt_append u (closes :: v)).trans ?_
    rw [hinside.scan_cons hopens]
    exact congrArg (_ ++ ·) hclosing
  have hnested : Nested (Pairing.brackets.also opens closes) [closes] [closes] (some opens)
      (scan inside) [closes] (inside.getLast?.or (some opens)) :=
    h.nested hproper (forall_mem_head?_closers hpair []) (fun _ => List.cons_ne_nil _ _) _
  rw [matching?, if_pos (by simp), hscan, distanceToClose?_open hpair,
    hnested.distanceToClose?_append (List.cons_ne_nil _ _),
    distanceToClose?_close hnone (hproper.getLast?_or_ne hpair harrow)]
  simp only [length_scanFrom, scan, Option.map_some, Option.some.injEq]
  omega

theorem Balanced.intercalate {separator : List Char} (hseparator : Balanced pairing true separator)
    {parts : List (List Char)} (hparts : ∀ part ∈ parts, Balanced pairing commas part) :
    Balanced pairing true (separator.intercalate parts) := by
  induction parts with
  | nil => exact .nil
  | cons part parts ih =>
      obtain ⟨hpart, hrest⟩ := List.forall_mem_cons.mp hparts
      cases parts with
      | nil =>
          rw [List.intercalate_singleton]
          exact hpart.allow
      | cons next parts =>
          rw [List.intercalate_cons_cons, List.append_assoc]
          exact hpart.allow.append (hseparator.append (ih hrest))

theorem balanced_comma (hproper : pairing.Proper) : Balanced pairing true [','] :=
  .plain (by decide) (hproper.separators ',' (by simp)) (fun _ => rfl) .nil

theorem balanced_intercalate (hproper : pairing.Proper) {parts : List (List Char)}
    (hparts : ∀ part ∈ parts, Balanced pairing commas part) :
    Balanced pairing true ([',', ' '].intercalate parts) :=
  ((balanced_comma hproper).append
    (.plain (by decide) (hproper.separators ' ' (by simp)) nofun .nil)).intercalate hparts

/-- A comma outside all brackets ends a part. -/
theorem splitFrom_comma (hproper : pairing.Proper) (before : Option Char) (part : List Char)
    (rest : List (Char × Role)) :
    splitFrom pairing [','] [] before 0 part ((',', .code) :: rest) =
      trim part.reverse :: splitFrom pairing [','] [] (some ',') 0 [] rest := by
  have hcomma : bracketStep? pairing [] before ',' = none :=
    (hproper.separators ',' (by simp)).bracketStep? (by simp) before
  rw [splitFrom]
  simp [Role.isSeen, hcomma, spells]

/-- Balanced code without commas goes into the part that is collected. -/
theorem Balanced.splitFrom_append (hproper : pairing.Proper) (h : Balanced pairing false u)
    (before : Option Char) (lead : List Char) (rest : List (Char × Role)) :
    splitFrom pairing [','] [] before 0 lead.reverse (scan u ++ rest) =
      splitFrom pairing [','] [] (u.getLast?.or before) 0 (lead ++ u).reverse rest := by
  have hnested : Nested pairing [] [] before (scan u) [] (u.getLast?.or before) :=
    h.nested hproper (by simp) nofun before
  rw [hnested.splitFrom_append, scan, scanFrom_chars, List.reverse_append]

/-- Balanced parts between commas are what they are split into, without the blanks around each, and
without a blank part at the end. -/
theorem splitFrom_commas (hproper : pairing.Proper) {parts : List (List Char)} {last : List Char}
    (hparts : ∀ part ∈ parts, Balanced pairing false part) (hlast : Balanced pairing false last)
    (before : Option Char) :
    splitFrom pairing [','] [] before 0 [] (scan ([','].intercalate (parts ++ [last]))) =
      parts.map trim ++ if (trim last).isEmpty then [] else [trim last] := by
  induction parts generalizing before with
  | nil =>
      have hsplit := hlast.splitFrom_append hproper before [] []
      rw [List.append_nil] at hsplit
      rw [List.nil_append, List.intercalate_singleton]
      refine hsplit.trans ?_
      rw [splitFrom, List.reverse_reverse]
      rfl
  | cons part parts ih =>
      obtain ⟨hpart, hmore⟩ := List.forall_mem_cons.mp hparts
      have hself : SelfContained ([','].intercalate (parts ++ [last])) :=
        ((balanced_comma hproper).intercalate (List.forall_mem_append.mpr
          ⟨hmore, List.forall_mem_singleton.mpr hlast⟩)).selfContained hproper
      have hscan : scan ([','].intercalate (part :: (parts ++ [last]))) =
          scan part ++ (',', .code) :: scan ([','].intercalate (parts ++ [last])) := by
        rw [List.intercalate_cons_of_ne_nil (by simp), List.append_assoc]
        refine ((hpart.selfContained hproper).scan_append (hself.cons (by decide))).trans ?_
        rw [hself.scan_cons (by decide)]
      have hsplit := hpart.splitFrom_append hproper before []
        ((',', .code) :: scan ([','].intercalate (parts ++ [last])))
      rw [List.cons_append, hscan]
      refine hsplit.trans ?_
      rw [splitFrom_comma hproper, List.reverse_reverse, ih hmore]
      rfl

/-- Nothing around a list is blank, and balanced. -/
theorem blank_nil : [].all isBlank = true ∧ Balanced pairing false [] := ⟨rfl, .nil⟩

theorem blank_space (hproper : pairing.Proper) :
    [' '].all isBlank = true ∧ Balanced pairing false [' '] :=
  ⟨by decide, .plain (by decide) (hproper.separators ' ' (by simp)) nofun .nil⟩

theorem split_commas (hproper : pairing.Proper) {pieces : List (List Char)}
    (hpieces : ∀ piece ∈ pieces, Balanced pairing false piece ∧ trim piece ≠ []) :
    split pairing [','] ([','].intercalate pieces) = pieces.map trim := by
  rcases List.eq_nil_or_concat pieces with rfl | ⟨pieces, last, rfl⟩
  · rfl
  · rw [List.concat_eq_append] at hpieces ⊢
    obtain ⟨hpieces, hlast⟩ := List.forall_mem_append.mp hpieces
    obtain ⟨hlast, hne⟩ := List.forall_mem_singleton.mp hlast
    rw [split, splitFrom_commas hproper (fun piece hp => (hpieces piece hp).1) hlast,
      if_neg (by simpa using hne), List.map_append]
    rfl

/-- A comma after the last part of a list is dropped. -/
theorem split_commas_trailing (hproper : pairing.Proper) {pieces : List (List Char)}
    (hne : pieces ≠ []) (hpieces : ∀ piece ∈ pieces, Balanced pairing false piece)
    {tail : List Char} (htail : tail.all isBlank = true) (hbalanced : Balanced pairing false tail) :
    split pairing [','] ([','].intercalate pieces ++ ',' :: tail) = pieces.map trim := by
  have hshape : [','].intercalate pieces ++ ',' :: tail = [','].intercalate (pieces ++ [tail]) := by
    rw [intercalate_append hne (List.cons_ne_nil _ _), List.intercalate_singleton]
    rfl
  rw [hshape, split, splitFrom_commas hproper hpieces hbalanced, trim_of_blanks htail]
  exact List.append_nil _

/-- Parts with commas and single blanks between them, with blanks around it all or not, are pieces
between commas. -/
theorem exists_pieces (hproper : pairing.Proper) {parts : List (List Char)} (hne : parts ≠ [])
    (hparts : ∀ part ∈ parts, Balanced pairing false part ∧ Solid part) {lead tail : List Char}
    (hlead : lead.all isBlank = true ∧ Balanced pairing false lead)
    (htail : tail.all isBlank = true ∧ Balanced pairing false tail) :
    ∃ pieces, pieces ≠ [] ∧ (∀ piece ∈ pieces, Balanced pairing false piece) ∧
      pieces.map trim = parts ∧
      lead ++ ([',', ' '].intercalate parts ++ tail) = [','].intercalate pieces := by
  induction parts generalizing lead with
  | nil => exact absurd rfl hne
  | cons part parts ih =>
      obtain ⟨⟨hpart, hsolid⟩, hmore⟩ := List.forall_mem_cons.mp hparts
      cases parts with
      | nil =>
          refine ⟨[lead ++ (part ++ tail)], List.cons_ne_nil _ _, ?_, ?_, ?_⟩
          · exact List.forall_mem_singleton.mpr (hlead.2.append (hpart.append htail.2))
          · exact congrArg (· :: []) (trim_append hlead.1 htail.1 hsolid)
          · rw [List.intercalate_singleton, List.intercalate_singleton]
      | cons next parts =>
          obtain ⟨pieces, hpieces, hbalanced, htrim, heq⟩ :=
            ih (List.cons_ne_nil next parts) hmore (blank_space hproper)
          have hpiece : trim (lead ++ (part ++ [])) = part := trim_append hlead.1 rfl hsolid
          rw [List.append_nil] at hpiece
          refine ⟨(lead ++ part) :: pieces, List.cons_ne_nil _ _, ?_, ?_, ?_⟩
          · exact List.forall_mem_cons.mpr ⟨hlead.2.append hpart, hbalanced⟩
          · rw [List.map_cons, hpiece, htrim]
          · rw [List.intercalate_cons_cons, List.intercalate_cons_of_ne_nil hpieces, ← heq]
            simp

/-- A list of balanced parts is split into the parts, with blanks around it or not. -/
theorem split_balanced (hproper : pairing.Proper) {parts : List (List Char)}
    (hparts : ∀ part ∈ parts, Balanced pairing false part ∧ Solid part) {lead tail : List Char}
    (hlead : lead.all isBlank = true ∧ Balanced pairing false lead)
    (htail : tail.all isBlank = true ∧ Balanced pairing false tail) :
    split pairing [','] (lead ++ ([',', ' '].intercalate parts ++ tail)) = parts := by
  by_cases hne : parts = []
  · have hblank : (lead ++ tail).all isBlank = true := by
      rw [List.all_append, hlead.1, htail.1]
      rfl
    have hnone : ∀ part ∈ ([] : List (List Char)), Balanced pairing false part := nofun
    have hsplit := splitFrom_commas hproper hnone (hlead.2.append htail.2) none
    rw [List.nil_append, List.intercalate_singleton, trim_of_blanks hblank] at hsplit
    rw [hne]
    exact hsplit
  · obtain ⟨pieces, -, hbalanced, htrim, heq⟩ := exists_pieces hproper hne hparts hlead htail
    rw [heq, ← htrim]
    refine split_commas hproper fun piece hp => ⟨hbalanced piece hp, ?_⟩
    exact (hparts _ (htrim ▸ List.mem_map_of_mem hp)).2.ne_nil

theorem split_trailing (hproper : pairing.Proper) {parts : List (List Char)} (hne : parts ≠ [])
    (hparts : ∀ part ∈ parts, Balanced pairing false part ∧ Solid part) :
    split pairing [','] ([',', ' '].intercalate parts ++ [',']) = parts := by
  obtain ⟨pieces, hpieces, hbalanced, htrim, heq⟩ :=
    exists_pieces hproper hne hparts blank_nil blank_nil
  rw [List.nil_append, List.append_nil] at heq
  rw [heq, ← htrim]
  exact split_commas_trailing hproper hpieces hbalanced rfl .nil

end Balanced

end PluginContract.Script
