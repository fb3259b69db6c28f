import PluginContract.Proofs.Script.Spans

/-!
# Three views of one script

The code of a script, the script with all but its code blanked out, and the
script without its comments are read off the roles of its characters. Here they
are told from one loop that stops at an offset, passes over the literal, the
comment or the single character that starts there, and stops again right after
it.
-/

namespace PluginContract.Script

/-- The offset of the last character of what starts at an offset: a literal, a comment, or a single
character. -/
def spanEnd? (t : List Char) (i : Nat) : Option Nat :=
  match t[i]? with
  | none => none
  | some c =>
      if isQuote c then literalEnd? t i
      else if c = '/' then
        match commentEnd? t i, regexEnd? t i with
        | some e, _ => some e
        | none, some e => some e
        | none, none => some i
      else some i

/-- The offsets at which a loop stops that passes over literals and comments as a whole. -/
inductive Stop (t : List Char) : Nat → Prop
  | start : Stop t 0
  | next {i e : Nat} (h : Stop t i) (he : spanEnd? t i = some e) : Stop t (e + 1)

/-- A string, a template or a regular expression that is opened at an offset and ends at another,
or with the text. -/
def Opens (t : List Char) (i e : Nat) : Prop :=
  (∃ q, t[i]? = some q ∧ isQuote q = true ∧ literalEnd? t i = some e) ∨
    t[i]? = some '/' ∧ regexEnd? t i = some e

/-- What starts at an offset and ends at another, with the roles that it gives. -/
inductive Span (t : List Char) (i e : Nat) : Prop
  | comment (he : commentEnd? t i = some e) (roles : CommentSpan t i e)
  | literal (hn : commentEnd? t i = none) (ho : Opens t i e) (roles : LiteralSpan t i e)
  | code (hn : commentEnd? t i = none) (he : e = i) (role : roleAt t i = .code)
      (left : regionsAt t (i + 1) = [])

section

variable {t : List Char} {c : Char} {i e j : Nat}

theorem Span.le (h : Span t i e) : i ≤ e := by
  cases h with
  | comment _ roles => exact Nat.le_of_lt roles.lt
  | literal _ _ roles => exact Nat.le_of_lt roles.lt
  | code _ he => exact Nat.le_of_eq he.symm

theorem Span.left (h : Span t i e) (he : e + 1 < t.length) : regionsAt t (e + 1) = [] := by
  cases h with
  | comment _ roles => exact roles.left he
  | literal _ _ roles => exact roles.left (Nat.lt_of_succ_lt he)
  | code _ hei _ hleft => exact hei ▸ hleft

theorem commentEnd?_eq_none_of_ne (hc : t[i]? = some c) (h : c ≠ '/') :
    commentEnd? t i = none :=
  (commentEnd?_eq_none_iff hc).mpr (Region.opensComment_of_ne h _)

/-- A character that opens nothing leaves the scan outside of all regions. -/
theorem span_of_opened?_eq_none (hb : regionsAt t i = []) (hc : t[i]? = some c)
    (hn : commentEnd? t i = none)
    (ho : Region.opened? (t.take i).reverse c (t.drop (i + 1)) = none) : Span t i i := by
  have hleft : regionsAt t (i + 1) = [] := by
    rw [regionsAt_succ_of_nil hb hc, ho]
    rfl
  refine .code hn rfl ?_ hleft
  rw [roleAt, hb, hleft]
  rfl

theorem opened?_of_regexEnd?_eq_none (hc : t[i]? = some '/') (hn : commentEnd? t i = none)
    (hr : regexEnd? t i = none) :
    Region.opened? (t.take i).reverse '/' (t.drop (i + 1)) = none := by
  rw [Region.opened?_slash ((commentEnd?_eq_none_iff hc).mp hn)]
  rw [regexEnd?] at hr
  split at hr
  · rename_i hoperand
    rw [if_pos hoperand, Option.map_eq_none_iff.mp hr]
    rfl
  · rename_i hoperand
    exact if_neg hoperand

/-- Outside of all regions something starts at every offset, and it ends where the loop goes on
after it. -/
theorem exists_span_of_nil (hb : regionsAt t i = []) (hi : i < t.length) :
    ∃ e, spanEnd? t i = some e ∧ Span t i e := by
  have hc : t[i]? = some t[i] := List.getElem?_eq_getElem hi
  rw [spanEnd?, hc]
  dsimp only
  by_cases hq : isQuote t[i] = true
  · have hne : t[i] ≠ '/' := by
      intro h
      rw [h] at hq
      cases hq
    obtain ⟨e, he⟩ : ∃ e, literalEnd? t i = some e := by
      rw [literalEnd?_eq hb hc hq]
      cases distanceAt? t (i + 1) with
      | some d => exact ⟨_, rfl⟩
      | none => exact ⟨_, rfl⟩
    rw [if_pos hq]
    exact ⟨e, he, .literal (commentEnd?_eq_none_of_ne hc hne) (.inl ⟨_, hc, hq, he⟩)
      (literalSpan_of_quote hb hc hq he)⟩
  · rw [if_neg hq]
    by_cases hslash : t[i] = '/'
    · rw [hslash] at hc
      rw [if_pos hslash]
      cases hcomment : commentEnd? t i with
      | some e => exact ⟨e, rfl, .comment hcomment (commentSpan_of_commentEnd? hb hcomment)⟩
      | none =>
          cases hregex : regexEnd? t i with
          | some e =>
              exact ⟨e, rfl, .literal hcomment (.inr ⟨hc, hregex⟩)
                (literalSpan_of_regex hb hc hcomment hregex)⟩
          | none =>
              exact ⟨i, rfl, span_of_opened?_eq_none hb hc hcomment
                (opened?_of_regexEnd?_eq_none hc hcomment hregex)⟩
    · rw [if_neg hslash]
      have hopened : Region.opened? (t.take i).reverse t[i] (t.drop (i + 1)) = none := by
        rw [Region.opened?, if_neg hq, if_neg hslash]
      exact ⟨i, rfl, span_of_opened?_eq_none hb hc (commentEnd?_eq_none_of_ne hc hslash) hopened⟩

theorem lt_length_of_spanEnd? (he : spanEnd? t i = some e) : i < t.length := by
  cases hc : t[i]? with
  | none => simp [spanEnd?, hc] at he
  | some c => exact (List.getElem?_eq_some_iff.mp hc).1

theorem lt_length_of_commentEnd? (he : commentEnd? t i = some e) : i < t.length := by
  cases hc : t[i]? with
  | none =>
      rw [commentEnd?, List.drop_eq_nil_of_le (List.getElem?_eq_none_iff.mp hc)] at he
      cases he
  | some c => exact (List.getElem?_eq_some_iff.mp hc).1

/-- Where the loop stops the scan is outside of all regions. -/
theorem regionsAt_of_stop (h : Stop t j) (hj : j < t.length) : regionsAt t j = [] := by
  induction h with
  | start => exact regionsAt_zero t
  | @next i e _ he ih =>
      have hi : i < t.length := lt_length_of_spanEnd? he
      obtain ⟨e', he', hspan⟩ := exists_span_of_nil (ih hi) hi
      obtain rfl : e = e' := Option.some.inj (he.symm.trans he')
      exact hspan.left hj

theorem exists_span_of_stop (h : Stop t i) (hi : i < t.length) :
    ∃ e, spanEnd? t i = some e ∧ Span t i e :=
  exists_span_of_nil (regionsAt_of_stop h hi) hi

/-- The spans from one stop to the next cover the text. -/
theorem exists_stop (hj : j < t.length) :
    ∃ i e, Stop t i ∧ spanEnd? t i = some e ∧ i ≤ j ∧ j ≤ e ∧ Span t i e := by
  induction j with
  | zero =>
      obtain ⟨e, he, hspan⟩ := exists_span_of_stop .start hj
      exact ⟨0, e, .start, he, Nat.le_refl 0, Nat.zero_le e, hspan⟩
  | succ j ih =>
      obtain ⟨i, e, hstop, he, hij, hje, hspan⟩ := ih (Nat.lt_of_succ_lt hj)
      by_cases hlt : j + 1 ≤ e
      · exact ⟨i, e, hstop, he, by omega, hlt, hspan⟩
      · -- the span ends here, so the loop stops at the next character
        obtain rfl : e = j := by omega
        have hnext : Stop t (e + 1) := .next hstop he
        obtain ⟨e', he', hspan'⟩ := exists_span_of_stop hnext hj
        exact ⟨e + 1, e', hnext, he', Nat.le_refl _, hspan'.le, hspan'⟩

/-- Where a character of each role stands, told from the stops of the loop. -/
inductive Placed (t : List Char) (j : Nat) : Role → Prop
  | code (hs : Stop t j) (hn : commentEnd? t j = none) : Placed t j .code
  | opening {e : Nat} (hs : Stop t j) (hn : commentEnd? t j = none) (ho : Opens t j e) :
      Placed t j .opening
  | content {i e : Nat} (hs : Stop t i) (hn : commentEnd? t i = none) (ho : Opens t i e)
      (hi : i < j) (he : j < e) : Placed t j .content
  | closing {i : Nat} (hs : Stop t i) (hn : commentEnd? t i = none) (ho : Opens t i j)
      (hi : i < j) : Placed t j .closing
  | comment {i e : Nat} (hs : Stop t i) (hc : commentEnd? t i = some e) (hi : i ≤ j)
      (he : j ≤ e) : Placed t j .comment

theorem placed_roleAt (hj : j < t.length) : Placed t j (roleAt t j) := by
  obtain ⟨i, e, hstop, -, hij, hje, hspan⟩ := exists_stop hj
  cases hspan with
  | comment hc roles =>
      rw [roles.comment j hij hje]
      exact .comment hstop hc hij hje
  | literal hn ho roles =>
      by_cases hfirst : j = i
      · subst hfirst
        rw [roles.opening]
        exact .opening hstop hn ho
      · by_cases hlast : j = e
        · subst hlast
          rw [roles.closing hj]
          exact .closing hstop hn ho roles.lt
        · rw [roles.content j (by omega) (by omega)]
          exact .content hstop hn ho (by omega) (by omega)
  | code hn he role =>
      obtain rfl : j = i := by omega
      rw [role]
      exact .code hstop hn

/-- Whether the code of a script has a character at an offset. -/
def Yielded (t : List Char) (j : Nat) : Prop := ∃ c, (j, c) ∈ codeAt t 0

/-- Whether a literal that is opened in code is closed at an offset. -/
def Closes (t : List Char) (j : Nat) : Prop :=
  j < t.length ∧ ∃ i, Yielded t i ∧ Opens t i j

/-- Whether an offset lies inside a literal that is opened in code, or closes it. -/
def InLiteral (t : List Char) (j : Nat) : Prop :=
  ∃ i e, Yielded t i ∧ Opens t i e ∧ i < j ∧ j ≤ e

/-- Whether an offset is neither code nor in a literal that is opened in code. -/
def InComment (t : List Char) (j : Nat) : Prop :=
  j < t.length ∧ ¬ Yielded t j ∧ ¬ InLiteral t j

theorem yielded_iff : Yielded t j ↔ j < t.length ∧ (roleAt t j).isSeen = true := by
  constructor
  · rintro ⟨c, hc⟩
    obtain ⟨hcj, hseen⟩ := mem_codeAt_iff.mp hc
    exact ⟨(List.getElem?_eq_some_iff.mp hcj).1, hseen⟩
  · rintro ⟨hj, hseen⟩
    exact ⟨t[j], mem_codeAt_iff.mpr ⟨List.getElem?_eq_getElem hj, hseen⟩⟩

/-- The code is what the loop stops at, except for comments. -/
theorem yielded_iff_stop : Yielded t j ↔ j < t.length ∧ Stop t j ∧ commentEnd? t j = none := by
  rw [yielded_iff]
  constructor
  · rintro ⟨hj, hseen⟩
    have hplaced := placed_roleAt hj
    cases hrole : roleAt t j <;> rw [hrole] at hseen hplaced
    case code =>
      cases hplaced with
      | code hs hn => exact ⟨hj, hs, hn⟩
    case opening =>
      cases hplaced with
      | opening hs hn => exact ⟨hj, hs, hn⟩
    all_goals cases hseen
  · rintro ⟨hj, hstop, hn⟩
    refine ⟨hj, ?_⟩
    obtain ⟨e, -, hspan⟩ := exists_span_of_stop hstop hj
    cases hspan with
    | comment hc => rw [hn] at hc; cases hc
    | literal _ _ roles => rw [roles.opening]; rfl
    | code _ _ role => rw [role]; rfl

/-- What is opened in code gives the roles of a literal. -/
theorem literalSpan_of_opens (hi : Yielded t i) (ho : Opens t i e) : LiteralSpan t i e := by
  obtain ⟨hlt, hstop, hn⟩ := yielded_iff_stop.mp hi
  have hb := regionsAt_of_stop hstop hlt
  rcases ho with ⟨q, hc, hq, he⟩ | ⟨hc, he⟩
  · exact literalSpan_of_quote hb hc hq he
  · exact literalSpan_of_regex hb hc hn he

theorem closes_iff (hj : j < t.length) : Closes t j ↔ roleAt t j = .closing := by
  constructor
  · rintro ⟨-, i, hi, ho⟩
    exact (literalSpan_of_opens hi ho).closing hj
  · intro hrole
    have hplaced := placed_roleAt hj
    rw [hrole] at hplaced
    cases hplaced with
    | @closing i hs hn ho hi =>
        exact ⟨hj, i, yielded_iff_stop.mpr ⟨Nat.lt_trans hi hj, hs, hn⟩, ho⟩

theorem inLiteral_iff (hj : j < t.length) :
    InLiteral t j ↔ roleAt t j = .content ∨ roleAt t j = .closing := by
  constructor
  · rintro ⟨i, e, hi, ho, hij, hje⟩
    have roles := literalSpan_of_opens hi ho
    by_cases hlast : j = e
    · exact Or.inr (hlast ▸ roles.closing (hlast ▸ hj))
    · exact Or.inl (roles.content j hij (by omega))
  · intro hrole
    have hplaced := placed_roleAt hj
    rcases hrole with hrole | hrole
    · rw [hrole] at hplaced
      cases hplaced with
      | @content i e hs hn ho hi he =>
          exact ⟨i, e, yielded_iff_stop.mpr ⟨by omega, hs, hn⟩, ho, hi, Nat.le_of_lt he⟩
    · rw [hrole] at hplaced
      cases hplaced with
      | @closing i hs hn ho hi =>
          exact ⟨i, j, yielded_iff_stop.mpr ⟨by omega, hs, hn⟩, ho, hi, Nat.le_refl j⟩

theorem inComment_iff (hj : j < t.length) : InComment t j ↔ roleAt t j = .comment := by
  rw [InComment, yielded_iff, inLiteral_iff hj]
  cases roleAt t j <;> simp [hj, Role.isSeen]

/-- What is no code and in no literal lies in a comment that the loop stops at. -/
theorem inComment_iff_stop :
    InComment t j ↔
      ∃ i e, Stop t i ∧ commentEnd? t i = some e ∧ i ≤ j ∧ j ≤ e := by
  constructor
  · intro h
    have hplaced := placed_roleAt h.1
    rw [(inComment_iff h.1).mp h] at hplaced
    cases hplaced with
    | @comment i e hs hc hi he => exact ⟨i, e, hs, hc, hi, he⟩
  · rintro ⟨i, e, hs, hc, hi, he⟩
    have hlt : i < t.length := lt_length_of_commentEnd? hc
    have roles := commentSpan_of_commentEnd? (regionsAt_of_stop hs hlt) hc
    exact (inComment_iff (Nat.lt_of_le_of_lt he roles.lt_length)).mpr (roles.comment j hi he)

theorem isShown_iff (hj : j < t.length) :
    (roleAt t j).isShown = true ↔ Yielded t j ∨ Closes t j := by
  rw [yielded_iff, closes_iff hj]
  cases roleAt t j <;> simp [hj, Role.isSeen, Role.isShown]

end

/-- How the code of a script, its masked form and its form without comments agree. -/
structure ViewsAgree (t : List Char) : Prop where
  /-- The code has its characters at their own offsets: those at which the loop stops and no comment
  starts. -/
  code : ∀ j c, (j, c) ∈ codeAt t 0 ↔ Stop t j ∧ t[j]? = some c ∧ commentEnd? t j = none
  length_mask : (mask t).length = t.length
  /-- A masked script shows code, the ends of literals and line feeds. -/
  mask_shows : ∀ j c, t[j]? = some c → Yielded t j ∨ Closes t j ∨ c = '\n' →
    (mask t)[j]? = some c
  mask_hides : ∀ j c, t[j]? = some c → ¬ (Yielded t j ∨ Closes t j ∨ c = '\n') →
    (mask t)[j]? = some ' '
  length_stripComments : (stripComments t).length = t.length
  /-- A script without comments has all other characters. -/
  strip_keeps : ∀ j c, t[j]? = some c → ¬ InComment t j → (stripComments t)[j]? = some c
  strip_hides : ∀ j c, t[j]? = some c → InComment t j →
    (stripComments t)[j]? = some (if c = '\n' then '\n' else ' ')
  /-- What is no code and in no literal lies in a comment that the loop stops at. -/
  comment : ∀ j, InComment t j ↔
    ∃ i e, Stop t i ∧ commentEnd? t i = some e ∧ i ≤ j ∧ j ≤ e

/-- The three views agree on every text. -/
theorem viewsAgree (t : List Char) : ViewsAgree t := by
  have lt {j : Nat} {c : Char} (hc : t[j]? = some c) : j < t.length :=
    (List.getElem?_eq_some_iff.mp hc).1
  refine
    { code := ?_
      length_mask := length_mask t
      mask_shows := ?_
      mask_hides := ?_
      length_stripComments := length_stripComments t
      strip_keeps := ?_
      strip_hides := ?_
      comment := fun _ => inComment_iff_stop }
  · intro j c
    rw [mem_codeAt_iff]
    constructor
    · rintro ⟨hc, hseen⟩
      obtain ⟨-, hs, hn⟩ := yielded_iff_stop.mp (yielded_iff.mpr ⟨lt hc, hseen⟩)
      exact ⟨hs, hc, hn⟩
    · rintro ⟨hs, hc, hn⟩
      exact ⟨hc, (yielded_iff.mp (yielded_iff_stop.mpr ⟨lt hc, hs, hn⟩)).2⟩
  · intro j c hc h
    rw [getElem?_mask hc, Role.shown]
    split
    · rfl
    · rename_i hrole
      -- of what is hidden only a line feed stays as it is
      rw [isShown_iff (lt hc)] at hrole
      have hn : c = '\n' := by
        rcases h with h | h | h
        · exact absurd (Or.inl h) hrole
        · exact absurd (Or.inr h) hrole
        · exact h
      rw [blanked, if_pos hn, hn]
  · intro j c hc h
    obtain ⟨hy, hcl, hn⟩ := by simpa only [not_or] using h
    have hrole : ¬ (roleAt t j).isShown = true := by
      rw [isShown_iff (lt hc)]
      exact fun hshown => hshown.elim hy hcl
    rw [getElem?_mask hc, Role.shown, if_neg hrole, blanked, if_neg hn]
  · intro j c hc h
    rw [getElem?_stripComments hc,
      Role.uncommented_of_ne fun hrole => h ((inComment_iff (lt hc)).mpr hrole)]
  · intro j c hc h
    rw [getElem?_stripComments hc, (inComment_iff (lt hc)).mp h]
    rfl

end PluginContract.Script
