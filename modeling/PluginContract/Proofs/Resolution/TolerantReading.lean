import PluginContract.Proofs.Resolution.TrailingCommas
import PluginContract.Proofs.Script.Terminated

/-!
# Tolerant reading of documents

A document has no comments: what looks like one stands in a string, which is a literal of a script.
So tolerant reading takes nothing out of it but the trailing commas in its strings.
-/

namespace PluginContract.Script

/-- A piece without comments, wherever it stands in code. -/
structure CommentFree (t : List Char) : Prop where
  selfContained : SelfContained t
  kept : stripComments t = t

section CommentFree

variable {t u : List Char} {c : Char}

theorem CommentFree.append (ht : CommentFree t) (hu : CommentFree u) : CommentFree (t ++ u) where
  selfContained := ht.selfContained.append hu.selfContained
  kept := by rw [ht.selfContained.stripComments_append hu.selfContained, ht.kept, hu.kept]

theorem commentFree_plain (h : Plain t) : CommentFree t where
  selfContained := selfContained_plain h
  kept := stripComments_plain h

theorem commentFree_singleton (hc : isPlain c = true) : CommentFree [c] :=
  commentFree_plain (by simp [Plain, hc])

theorem CommentFree.cons (hc : isPlain c = true) (ht : CommentFree t) : CommentFree (c :: t) :=
  (commentFree_singleton hc).append ht

theorem commentFree_terminated (h : Terminated t) : CommentFree t where
  selfContained := selfContained_terminated h
  kept := stripComments_terminated h

end CommentFree

end PluginContract.Script

namespace PluginContract.Json

open Reader Resolution Script Text

section Comments

variable {part : Part} {t gap : List Char} {c : Char}

theorem commentFree_gap (h : IsGap gap) : CommentFree gap :=
  commentFree_plain (plain_of_blanks (List.all_eq_true.mpr fun c hc => isBlank_of_isGap (h c hc)))

theorem isPlain_of_isAtomChar (h : isAtomChar c = true) : isPlain c = true := by
  rw [isPlain, Bool.and_eq_true, Bool.not_eq_true', bne_iff_ne]
  constructor
  · apply Bool.eq_false_iff.mpr
    intro hquote
    simp only [isQuote, Bool.or_eq_true, beq_iff_eq] at hquote
    rcases hquote with (rfl | rfl) | rfl <;> revert h <;> decide
  · rintro rfl
    revert h
    decide

theorem Atom.commentFree (a : Atom) : CommentFree a.text :=
  commentFree_plain (List.all_eq_true.mpr fun c hc =>
    isPlain_of_isAtomChar (List.all_eq_true.mp a.chars c hc))

/-- A string is a literal of a script, so nothing in it is a comment. -/
theorem Spelling.commentFree (s : Spelling) : CommentFree s.token :=
  commentFree_terminated (terminated_quoted (Or.inl rfl) s.spells.quoted)

theorem Lays.commentFree (h : Lays part t) : CommentFree t := by
  induction h with
  | atom a => exact a.commentFree
  | str s => exact s.commentFree
  | noItems hgap => exact .cons rfl ((commentFree_gap hgap).append (commentFree_singleton rfl))
  | arr hgap h ih => exact .cons rfl ((commentFree_gap hgap).append ih)
  | noMembers hgap => exact .cons rfl ((commentFree_gap hgap).append (commentFree_singleton rfl))
  | obj hgap h ih => exact .cons rfl ((commentFree_gap hgap).append ih)
  | lastItem h hgap ih => exact ih.append ((commentFree_gap hgap).append (commentFree_singleton rfl))
  | moreItems h hgap hgap' rest ih ihrest =>
      have hnext := (commentFree_gap hgap').append ihrest
      exact ih.append ((commentFree_gap hgap).append (.cons rfl hnext))
  | @member key w t gap gap' hgap hgap' h ih =>
      have hvalue := (commentFree_gap hgap').append ih
      exact key.commentFree.append ((commentFree_gap hgap).append (.cons rfl hvalue))
  | lastMember h hgap ih => exact ih.append ((commentFree_gap hgap).append (commentFree_singleton rfl))
  | moreMembers h hgap hgap' rest ih ihrest =>
      have hnext := (commentFree_gap hgap').append ihrest
      exact ih.append ((commentFree_gap hgap).append (.cons rfl hnext))

/-- No comment stands in a document, whatever its strings hold. -/
theorem Written.LaidOut.stripComments_eq {w : Written} {text : List Char} (h : w.LaidOut text) :
    stripComments text = text := by
  obtain ⟨gap, t, gap', hgap, hgap', hlays, rfl⟩ := h
  have hfree := hlays.commentFree.append (commentFree_gap hgap')
  exact ((commentFree_gap hgap).append hfree).kept

end Comments

mutual

/-- A document with its strings as tolerant reading has them. -/
def Written.tolerated : Written → Written
  | .atom a => .atom a
  | .str s => .str s.tolerated
  | .arr items => .arr (toleratedItems items)
  | .obj members => .obj (toleratedMembers members)

/-- Items with their strings as tolerant reading has them. -/
def toleratedItems : List Written → List Written
  | [] => []
  | w :: items => w.tolerated :: toleratedItems items

/-- Members with their keys and strings as tolerant reading has them. -/
def toleratedMembers : List (Spelling × Written) → List (Spelling × Written)
  | [] => []
  | (key, w) :: members => (key.tolerated, w.tolerated) :: toleratedMembers members

end

/-- A part of a document with its strings as tolerant reading has them. -/
def Part.tolerated : Part → Part
  | .value w => .value w.tolerated
  | .items ws => .items (toleratedItems ws)
  | .member key w => .member key.tolerated w.tolerated
  | .members ws => .members (toleratedMembers ws)

theorem toleratedItems_eq (items : List Written) :
    toleratedItems items = items.map Written.tolerated := by
  induction items with
  | nil => rfl
  | cons w items ih => rw [toleratedItems, ih, List.map_cons]

theorem toleratedMembers_eq (members : List (Spelling × Written)) :
    toleratedMembers members =
      members.map fun member => (member.1.tolerated, member.2.tolerated) := by
  induction members with
  | nil => rfl
  | cons member members ih => rw [toleratedMembers, ih, List.map_cons]

/-- Whether dropping trailing commas makes one piece of another, whatever comes after it. -/
def DropsTo (t u : List Char) : Prop :=
  ∀ rest, dropTrailingCommas (t ++ rest) = u ++ dropTrailingCommas rest

section Commas

variable {part : Part} {t t' u u' gap : List Char} {c : Char}

theorem dropsTo_self (h : ',' ∉ t) : DropsTo t t := dropTrailingCommas_append_of_notMem h

theorem DropsTo.append (h : DropsTo t u) (h' : DropsTo t' u') : DropsTo (t ++ t') (u ++ u') := by
  intro rest
  rw [List.append_assoc, h, h', List.append_assoc]

theorem DropsTo.cons (hc : c ≠ ',') (h : DropsTo t u) : DropsTo (c :: t) (c :: u) := by
  intro rest
  rw [List.cons_append, dropTrailingCommas_cons_of_ne hc, h, List.cons_append]

theorem dropsTo_gap (h : IsGap gap) : DropsTo gap gap := by
  apply dropsTo_self
  intro hmem
  cases h ',' hmem

theorem dropsTo_close (h : IsGap gap) (hc : c ≠ ',') : DropsTo (gap ++ [c]) (gap ++ [c]) :=
  (dropsTo_gap h).append (dropsTo_self (by simpa using hc.symm))

theorem Atom.comma_notMem (a : Atom) : ',' ∉ a.text := by
  intro hmem
  have hcomma := List.all_eq_true.mp a.chars ',' hmem
  revert hcomma
  decide

theorem not_isClosing_of_isStart (h : isStart c = true) : isClosing c = false := by
  apply Bool.eq_false_iff.mpr
  intro hclosing
  simp only [isClosing, Bool.or_eq_true, beq_iff_eq] at hclosing
  rcases hclosing with rfl | rfl <;> revert h <;> decide

/-- A comma between the tokens of a document stays. -/
theorem Lays.dropsTo_comma (hlays : Lays part t) (hgap : IsGap gap) (h : DropsTo t u) :
    DropsTo (',' :: (gap ++ t)) (',' :: (gap ++ u)) := by
  intro rest
  have hcloses : closesNext (gap ++ (t ++ rest)) = false := by
    obtain ⟨c, t, rfl, hc⟩ := hlays.exists_cons
    have hblanks : gap.all isBlank = true :=
      List.all_eq_true.mpr fun c hc => isBlank_of_isGap (hgap c hc)
    rw [closesNext, trimStart_append hblanks ⟨c, rfl, not_isBlank_of_isStart hc⟩]
    exact not_isClosing_of_isStart hc
  rw [List.cons_append, List.append_assoc, dropTrailingCommas_cons, hcloses, Bool.and_false,
    if_neg Bool.false_ne_true, ← List.append_assoc, (dropsTo_gap hgap).append h]
  rfl

theorem Spelling.dropsTo_token (s : Spelling) : DropsTo s.token s.tolerated.token := by
  intro rest
  rw [token, List.cons_append, dropTrailingCommas_cons_of_ne (by decide), List.append_assoc,
    List.singleton_append, dropTrailingCommas_append_cons (by decide) (by decide) (by decide)]
  simp [token, tolerated]

/-- Without its trailing commas a part of a document is a part with other strings. -/
theorem Lays.exists_tolerated (h : Lays part t) : ∃ u, Lays part.tolerated u ∧ DropsTo t u := by
  induction h with
  | atom a => exact ⟨a.text, .atom a, dropsTo_self a.comma_notMem⟩
  | str s => exact ⟨s.tolerated.token, .str s.tolerated, s.dropsTo_token⟩
  | noItems hgap => exact ⟨_, .noItems hgap, .cons (by decide) (dropsTo_close hgap (by decide))⟩
  | arr hgap h ih =>
      obtain ⟨u, hu, hdrops⟩ := ih
      exact ⟨_, .arr hgap hu, .cons (by decide) ((dropsTo_gap hgap).append hdrops)⟩
  | noMembers hgap => exact ⟨_, .noMembers hgap, .cons (by decide) (dropsTo_close hgap (by decide))⟩
  | obj hgap h ih =>
      obtain ⟨u, hu, hdrops⟩ := ih
      exact ⟨_, .obj hgap hu, .cons (by decide) ((dropsTo_gap hgap).append hdrops)⟩
  | lastItem h hgap ih =>
      obtain ⟨u, hu, hdrops⟩ := ih
      exact ⟨_, .lastItem hu hgap, hdrops.append (dropsTo_close hgap (by decide))⟩
  | moreItems h hgap hgap' rest ih ihrest =>
      obtain ⟨u, hu, hdrops⟩ := ih
      obtain ⟨u', hu', hdrops'⟩ := ihrest
      have hcomma := rest.dropsTo_comma hgap' hdrops'
      exact ⟨_, .moreItems hu hgap hgap' hu', hdrops.append ((dropsTo_gap hgap).append hcomma)⟩
  | @member key w t gap gap' hgap hgap' h ih =>
      obtain ⟨u, hu, hdrops⟩ := ih
      have hcolon := (dropsTo_gap hgap').append hdrops
      exact ⟨_, .member hgap hgap' hu,
        key.dropsTo_token.append ((dropsTo_gap hgap).append (.cons (by decide) hcolon))⟩
  | lastMember h hgap ih =>
      obtain ⟨u, hu, hdrops⟩ := ih
      exact ⟨_, .lastMember hu hgap, hdrops.append (dropsTo_close hgap (by decide))⟩
  | moreMembers h hgap hgap' rest ih ihrest =>
      obtain ⟨u, hu, hdrops⟩ := ih
      obtain ⟨u', hu', hdrops'⟩ := ihrest
      have hcomma := rest.dropsTo_comma hgap' hdrops'
      exact ⟨_, .moreMembers hu hgap hgap' hu', hdrops.append ((dropsTo_gap hgap).append hcomma)⟩

theorem Written.LaidOut.tolerated {w : Written} {text : List Char} (h : w.LaidOut text) :
    w.tolerated.LaidOut (dropTrailingCommas text) := by
  obtain ⟨gap, t, gap', hgap, hgap', hlays, rfl⟩ := h
  obtain ⟨u, hu, hdrops⟩ := hlays.exists_tolerated
  refine ⟨gap, u, gap', hgap, hgap', hu, ?_⟩
  have hall := (dropsTo_gap hgap).append (hdrops.append (dropsTo_gap hgap')) []
  rwa [List.append_nil, dropTrailingCommas, List.append_nil] at hall

/-- Tolerant reading takes a document to its value, with trailing commas dropped from its strings. -/
theorem Written.LaidOut.readTolerant?_eq {w : Written} {text : List Char} (h : w.LaidOut text) :
    readTolerant? text = .ok w.tolerated.value := by
  rw [readTolerant?, h.stripComments_eq]
  exact h.tolerated.read?_eq

end Commas

end PluginContract.Json
