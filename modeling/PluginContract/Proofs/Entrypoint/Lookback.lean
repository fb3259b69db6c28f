import PluginContract.Proofs.Entrypoint.Callsites
import PluginContract.Proofs.Script.Plain

/-!
# Declarations and member calls before a name

What stands before a name, white space and comments apart, may be the keyword of a function
declaration or the dot of a member access. The search for calls looks back for the keyword in a
window of fixed length, and for the dot at one character. So just those declarations and member
calls are passed over that lie as near.
-/

namespace PluginContract.Entrypoint

open Text Script Source

/-- The keyword of a function declaration. -/
def declarationKeyword : List Char := "function".toList

/-- White space in code, or part of a comment. -/
def isFiller (entry : Char × Role) : Bool :=
  entry.2 == .comment || entry.2 == .code && isBlank entry.1

/-- The keyword of a function declaration, perhaps with a star, is the last significant text before
an offset of a script; it begins so many characters before that. -/
def DeclaredAt (t : List Char) (i back : Nat) : Prop :=
  ∃ front gap star gap', (scan t).take i =
      front ++ (asCode declarationKeyword ++ (gap ++ (star ++ gap'))) ∧
    (∀ e ∈ front.getLast?, isNameChar e.1 = false) ∧
    gap.all isFiller = true ∧ (star = [] ∨ star = asCode ['*']) ∧ gap'.all isFiller = true ∧
    back = declarationKeyword.length + (gap ++ (star ++ gap')).length

/-- The dot of a member access is the last significant text before an offset of a script, with so
many characters in between. Three dots are no member access. -/
def AccessedAt (t : List Char) (i between : Nat) : Prop :=
  ∃ front gap, (scan t).take i = front ++ (asCode ['.'] ++ gap) ∧
    ¬ asCode ['.', '.'] <:+ front ∧ gap.all isFiller = true ∧ between = gap.length

/-- What may stand between the keyword of a declaration and a name of a masked script. -/
def IsLead (lead : List Char) : Prop :=
  ∃ gap star gap', lead = gap ++ (star ++ gap') ∧ gap.all isBlank = true ∧
    (star = [] ∨ star = ['*']) ∧ gap'.all isBlank = true

section Backwards

variable {lead w r t : List Char} {i back between : Nat}

theorem isLead_of_all (h : lead.all isBlank = true) : IsLead lead :=
  ⟨lead, [], [], by simp, h, Or.inl rfl, rfl⟩

theorem IsLead.head (h : IsLead lead) : ∀ c ∈ lead.head?, isBlank c = true ∨ c = '*' := by
  obtain ⟨gap, star, gap', rfl, hgap, hstar, hgap'⟩ := h
  intro c hc
  have hmem : c ∈ gap ++ (star ++ gap') := List.mem_of_head? hc
  simp only [List.mem_append] at hmem
  rcases hmem with hmem | hmem | hmem
  · exact Or.inl (List.all_eq_true.mp hgap c hmem)
  · rcases hstar with rfl | rfl
    · cases hmem
    · exact Or.inr (List.mem_singleton.mp hmem)
  · exact Or.inl (List.all_eq_true.mp hgap' c hmem)

theorem trimStart_append_of_all (h : lead.all isBlank = true) (w : List Char) :
    trimStart (lead ++ w) = trimStart w :=
  List.dropWhile_append_of_pos (List.all_eq_true.mp h)

/-- Blanks and a star are taken away up to any other character. -/
theorem IsLead.beforeStar_append (h : IsLead lead)
    (hw : ∀ c ∈ w.head?, isBlank c = false ∧ c ≠ '*') : beforeStar (lead ++ w) = w := by
  obtain ⟨gap, star, gap', rfl, hgap, hstar, hgap'⟩ := h
  have htrim : trimStart w = w := trimStart_of_head? fun c hc => (hw c hc).1
  rw [List.append_assoc, beforeStar, trimStart_append_of_all hgap]
  rcases hstar with rfl | rfl
  · rw [List.nil_append, trimStart_append_of_all hgap', htrim]
    split
    · exact absurd rfl (hw '*' rfl).2
    · rfl
  · rw [trimStart_of_head? fun c hc => by obtain rfl := Option.some.inj hc; decide]
    exact (trimStart_append_of_all hgap' w).trans htrim

theorem trimStart_append_of_ne_nil (h : trimStart t ≠ []) (w : List Char) :
    trimStart (t ++ w) = trimStart t ++ w := by
  rw [trimStart, List.dropWhile_append, if_neg]
  · rfl
  · rwa [List.isEmpty_iff]

/-- What is left does not depend on the text further back, if anything is left. -/
theorem beforeStar_append_of_ne_nil (h : beforeStar t ≠ []) (w : List Char) :
    beforeStar (t ++ w) = beforeStar t ++ w := by
  have hne : trimStart t ≠ [] := by
    intro hnil
    rw [beforeStar, hnil] at h
    exact h rfl
  rw [beforeStar] at h
  rw [beforeStar, beforeStar, trimStart_append_of_ne_nil hne]
  generalize trimStart t = u at h hne
  split at h
  · exact trimStart_append_of_ne_nil h w
  · rename_i hstar
    obtain ⟨c, u, rfl⟩ := List.exists_cons_of_ne_nil hne
    rw [List.cons_append]
    split
    · rename_i heq
      obtain ⟨rfl, -⟩ := List.cons.inj heq
      exact absurd rfl (hstar u)
    · rfl

/-- What a masked script shows of characters. -/
def shownText (s : List (Char × Role)) : List Char := s.map fun entry => entry.2.shown entry.1

theorem take_mask (t : List Char) (i : Nat) : (mask t).take i = shownText ((scan t).take i) :=
  List.map_take.symm

theorem shownText_append (s s' : List (Char × Role)) :
    shownText (s ++ s') = shownText s ++ shownText s' := List.map_append

theorem shownText_asCode (u : List Char) : shownText (asCode u) = u := by
  rw [shownText, asCode, List.map_map]
  exact List.map_id u

theorem isBlank_shown_of_isFiller {entry : Char × Role} (h : isFiller entry = true) :
    isBlank (entry.2.shown entry.1) = true := by
  obtain ⟨c, role⟩ := entry
  simp only [isFiller, Bool.or_eq_true, Bool.and_eq_true, beq_iff_eq] at h
  rcases h with rfl | ⟨rfl, hc⟩
  · rcases blanked_eq c with hblanked | hblanked
    · rw [Role.shown_comment, hblanked]
      decide
    · rw [Role.shown_comment, hblanked]
      decide
  · exact hc

theorem all_isBlank_shownText {s : List (Char × Role)} (h : s.all isFiller = true) :
    (shownText s).all isBlank = true := by
  rw [shownText, List.all_map]
  apply List.all_eq_true.mpr
  intro entry hentry
  exact isBlank_shown_of_isFiller (List.all_eq_true.mp h entry hentry)

theorem isWord_shown {entry : Char × Role} (h : isNameChar entry.1 = false) :
    isWord (entry.2.shown entry.1) = false := by
  obtain ⟨c, role⟩ := entry
  rw [Role.shown]
  split
  · exact (Bool.or_eq_false_iff.mp h).1
  · rcases blanked_eq c with hblanked | hblanked <;>
    · rw [hblanked]
      decide

theorem reverse_declarationKeyword : declarationKeyword.reverse = "noitcnuf".toList := by decide

/-- A declaration, seen backwards from the name. -/
theorem DeclaredAt.exists_lead (h : DeclaredAt t i back) :
    ∃ lead r, ((mask t).take i).reverse = lead ++ (declarationKeyword.reverse ++ r) ∧
      IsLead lead ∧ back = lead.length + declarationKeyword.length ∧
      r.head?.any isWord = false := by
  obtain ⟨front, gap, star, gap', htake, hfront, hgap, hstar, hgap', rfl⟩ := h
  refine ⟨(shownText (gap ++ (star ++ gap'))).reverse, (shownText front).reverse, ?_, ?_, ?_, ?_⟩
  · rw [take_mask, htake, shownText_append, shownText_append, shownText_asCode,
      List.reverse_append, List.reverse_append, List.append_assoc]
  · refine ⟨(shownText gap').reverse, (shownText star).reverse, (shownText gap).reverse, ?_, ?_,
      ?_, ?_⟩
    · simp [shownText_append]
    · rw [List.all_reverse]
      exact all_isBlank_shownText hgap'
    · rcases hstar with rfl | rfl
      · exact Or.inl rfl
      · exact Or.inr rfl
    · rw [List.all_reverse]
      exact all_isBlank_shownText hgap
  · rw [List.length_reverse, shownText, List.length_map]
    exact Nat.add_comm _ _
  · rw [List.head?_reverse, shownText, List.getLast?_map]
    cases hlast : front.getLast? with
    | none => rfl
    | some entry =>
        rw [Option.map_some, Option.any_some]
        exact isWord_shown (hfront entry hlast)

/-- A member access, seen backwards from the name. -/
theorem AccessedAt.exists_blanks (h : AccessedAt t i between) :
    ∃ gap r, ((mask t).take i).reverse = gap ++ '.' :: r ∧ gap.all isBlank = true ∧
      between = gap.length := by
  obtain ⟨front, gap, htake, -, hgap, rfl⟩ := h
  refine ⟨(shownText gap).reverse, (shownText front).reverse, ?_, ?_, ?_⟩
  · rw [take_mask, htake, shownText_append, shownText_append, shownText_asCode]
    simp
  · rw [List.all_reverse]
    exact all_isBlank_shownText hgap
  · rw [List.length_reverse, shownText, List.length_map]

/-- The keyword is found right before blanks and a star, and read as a word. -/
theorem isDeclared_of_lead {masked : List Char} (hlead : IsLead lead)
    (hword : r.head?.any isWord = false)
    (h : ((masked.take i).reverse).take declarationWindow =
      lead ++ (declarationKeyword.reverse ++ r)) : isDeclared masked i = true := by
  have hkeyword : beforeStar (lead ++ (declarationKeyword.reverse ++ r)) =
      "noitcnuf".toList ++ r := by
    rw [reverse_declarationKeyword]
    exact hlead.beforeStar_append fun c hc => by obtain rfl := Option.some.inj hc; decide
  rw [isDeclared, h, hkeyword, after?_eq_some_iff.mpr rfl]
  simp [hword]

/-- A declaration is noticed if and only if its keyword lies in the window. -/
theorem DeclaredAt.isDeclared_iff (h : DeclaredAt t i back) :
    isDeclared (mask t) i = true ↔ back ≤ declarationWindow := by
  obtain ⟨lead, r, htext, hlead, rfl, hword⟩ := h.exists_lead
  constructor
  · intro hdeclared
    rw [isDeclared, htext] at hdeclared
    split at hdeclared
    · rename_i rest hafter
      rw [after?_eq_some_iff] at hafter
      -- what the window leaves of the text is what the whole text leaves, cut off at its end
      have hwhole : beforeStar (lead ++ (declarationKeyword.reverse ++ r)) =
          declarationKeyword.reverse ++ r :=
        hlead.beforeStar_append fun c hc => by
          rw [reverse_declarationKeyword] at hc
          obtain rfl := Option.some.inj hc
          decide
      rw [← List.take_append_drop declarationWindow (lead ++ (declarationKeyword.reverse ++ r)),
        beforeStar_append_of_ne_nil (by rw [hafter]; simp), hafter,
        ← reverse_declarationKeyword] at hwhole
      have hlength := congrArg List.length hwhole
      simp only [List.length_append, List.length_drop, List.length_reverse] at hlength
      omega
    · cases hdeclared
  · intro hle
    refine isDeclared_of_lead hlead (r := r.take
      (declarationWindow - (lead.length + declarationKeyword.length))) ?_ ?_
    · rw [List.head?_take]
      split
      · rfl
      · exact hword
    · rw [htext, ← List.append_assoc, List.take_append, List.take_of_length_le (by simpa using hle),
        List.append_assoc, List.length_append, List.length_reverse]

theorem separates_of_isBlank {c : Char} (h : isBlank c = true) : isNameChar c = false ∧ c ≠ '.' := by
  refine ⟨not_isNameChar_of_isBlank h, ?_⟩
  rintro rfl
  exact absurd h (by decide)

/-- Right before a name whose declaration is not noticed there is no name and no dot. -/
theorem DeclaredAt.detached (h : DeclaredAt t i back) (hback : declarationWindow < back) :
    Detached ((mask t).take i).getLast? := by
  obtain ⟨lead, r, htext, hlead, rfl, -⟩ := h.exists_lead
  intro c hc
  cases lead with
  | nil => exact absurd hback (by decide)
  | cons d lead =>
      rw [← List.head?_reverse, htext] at hc
      obtain rfl := Option.some.inj hc
      rcases hlead.head d rfl with hblank | rfl
      · exact separates_of_isBlank hblank
      · decide

theorem AccessedAt.not_detached (h : AccessedAt t i 0) :
    ¬ Detached ((mask t).take i).getLast? := by
  obtain ⟨gap, r, htext, -, hbetween⟩ := h.exists_blanks
  obtain rfl : gap = [] := List.eq_nil_of_length_eq_zero hbetween.symm
  intro hdetached
  rw [← List.head?_reverse, htext] at hdetached
  exact (hdetached '.' rfl).2 rfl

theorem AccessedAt.detached (h : AccessedAt t i between) (hbetween : between ≠ 0) :
    Detached ((mask t).take i).getLast? := by
  obtain ⟨gap, r, htext, hgap, rfl⟩ := h.exists_blanks
  intro c hc
  cases gap with
  | nil => exact absurd rfl hbetween
  | cons d gap =>
      rw [← List.head?_reverse, htext] at hc
      obtain rfl := Option.some.inj hc
      exact separates_of_isBlank (List.all_eq_true.mp hgap d List.mem_cons_self)

/-- Before a dot no declaration is looked for. -/
theorem AccessedAt.isDeclared_eq (h : AccessedAt t i between) : isDeclared (mask t) i = false := by
  obtain ⟨gap, r, htext, hgap, rfl⟩ := h.exists_blanks
  have hwindow : beforeStar ((gap ++ '.' :: r).take declarationWindow) =
      ('.' :: r).take (declarationWindow - gap.length) := by
    rw [List.take_append]
    refine (isLead_of_all ?_).beforeStar_append ?_
    · apply List.all_eq_true.mpr
      intro c hc
      exact List.all_eq_true.mp hgap c (List.mem_of_mem_take hc)
    · intro c hc
      rw [List.head?_take] at hc
      split at hc
      · cases hc
      · obtain rfl := Option.some.inj hc
        decide
  rw [isDeclared, htext, hwindow]
  cases declarationWindow - gap.length <;> rfl

end Backwards

/-- No call is a declaration or a member call if and only if, wherever the form of a call stands
after a keyword or a dot, the keyword lies in the window and the dot right before the name. -/
theorem callsites_undeclared_iff (m : Module) {function : String}
    (hname : IsFunctionName function.toList) :
    (∀ call ∈ callsites m function, (∀ back, ¬ DeclaredAt m.text call.offset back) ∧
        ∀ between, ¬ AccessedAt m.text call.offset between) ↔
      ∀ start angle angleEnd parenthesis parenthesisEnd,
        CallAt m.text function.toList start angle angleEnd parenthesis parenthesisEnd →
          (∀ back, DeclaredAt m.text start back → back ≤ declarationWindow) ∧
          ∀ between, AccessedAt m.text start between → between = 0 := by
  constructor
  · intro h start angle angleEnd parenthesis parenthesisEnd hat
    constructor
    · intro back hdeclared
      apply Nat.le_of_not_lt
      intro hback
      have hunnoticed : isDeclared (mask m.text) start = false := by
        apply Bool.eq_false_iff.mpr
        intro hnoticed
        exact absurd (hdeclared.isDeclared_iff.mp hnoticed) (Nat.not_le_of_lt hback)
      have hcall := (mem_callsites_iff hname).mpr ⟨start, angle, angleEnd, parenthesis,
        parenthesisEnd, hat, hdeclared.detached hback, hunnoticed, rfl⟩
      exact (h _ hcall).1 back hdeclared
    · intro between haccessed
      apply Decidable.of_not_not
      intro hbetween
      have hcall := (mem_callsites_iff hname).mpr ⟨start, angle, angleEnd, parenthesis,
        parenthesisEnd, hat, haccessed.detached hbetween, haccessed.isDeclared_eq, rfl⟩
      exact (h _ hcall).2 between haccessed
  · intro h call hcall
    obtain ⟨start, angle, angleEnd, parenthesis, parenthesisEnd, hat, hdetached, hunnoticed, rfl⟩ :=
      (mem_callsites_iff hname).mp hcall
    obtain ⟨hnear, hadjacent⟩ := h start angle angleEnd parenthesis parenthesisEnd hat
    constructor
    · intro back hdeclared
      cases hunnoticed.symm.trans (hdeclared.isDeclared_iff.mpr (hnear back hdeclared))
    · intro between haccessed
      obtain rfl := hadjacent between haccessed
      exact haccessed.not_detached hdetached

/-- A declaration with a comment between its keyword and its name that does not fit into a window,
and a member call with a space after its dot. -/
def farFromNames : Module :=
  .ofText (.ofString "/p/src/a.ts")
    ("function /* a comment of more than thirty-two characters */ createPlugin<A>(b)\n".toList ++
      "x. createPlugin<C>(d)".toList)

theorem callsites_undeclared_iff_farFromNames :
    IsFunctionName "createPlugin".toList ∧
      ((∀ call ∈ callsites farFromNames "createPlugin",
          (∀ back, ¬ DeclaredAt farFromNames.text call.offset back) ∧
            ∀ between, ¬ AccessedAt farFromNames.text call.offset between) ↔
        ∀ start angle angleEnd parenthesis parenthesisEnd,
          CallAt farFromNames.text "createPlugin".toList start angle angleEnd parenthesis
              parenthesisEnd →
            (∀ back, DeclaredAt farFromNames.text start back → back ≤ declarationWindow) ∧
            ∀ between, AccessedAt farFromNames.text start between → between = 0) := by
  exact ⟨isFunctionName_createPlugin,
    callsites_undeclared_iff farFromNames isFunctionName_createPlugin⟩

/-- Both count as calls. -/
theorem callsites_farFromNames :
    let t := farFromNames.text
    (callsites farFromNames "createPlugin").map Callsite.offset = [60, 82] ∧
      DeclaredAt t 60 60 ∧ AccessedAt t 82 1 ∧
      ¬ ∀ call ∈ callsites farFromNames "createPlugin",
        (∀ back, ¬ DeclaredAt t call.offset back) ∧
          ∀ between, ¬ AccessedAt t call.offset between := by
  intro t
  have hoffsets : (callsites farFromNames "createPlugin").map Callsite.offset = [60, 82] := by
    decide +kernel
  have hdeclared : DeclaredAt t 60 60 := by
    refine ⟨[], ((scan t).take 60).drop 8, [], [], ?_, ?_, ?_, Or.inl rfl, rfl, ?_⟩
    · decide +kernel
    · nofun
    · decide +kernel
    · decide +kernel
  have haccessed : AccessedAt t 82 1 := by
    refine ⟨(scan t).take 80, ((scan t).take 82).drop 81, ?_, ?_, ?_, ?_⟩
    · decide +kernel
    · decide +kernel
    · decide +kernel
    · decide +kernel
  refine ⟨hoffsets, hdeclared, haccessed, ?_⟩
  intro h
  obtain ⟨call, hcall, hoffset⟩ : ∃ call ∈ callsites farFromNames "createPlugin",
      call.offset = 60 := by
    apply List.mem_map.mp
    rw [hoffsets]
    exact List.mem_cons_self
  exact (h call hcall).1 60 (hoffset ▸ hdeclared)

end PluginContract.Entrypoint
