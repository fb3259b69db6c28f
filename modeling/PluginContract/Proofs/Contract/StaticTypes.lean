import PluginContract.Proofs.Contract.CommentedTypes
import PluginContract.Proofs.Resolution.AssertedReferences
import PluginContract.Proofs.Text.Spacing

/-!
# The grammar of command types

The type of the commands is `null` or the name of an alias. The body of the alias is accepted if
and only if it lays out a static type, with any blanks between its tokens. The schema is the value
of the static type, as the module refers to it that declares the alias, and the layout plays no
part in that.
-/

namespace PluginContract.Contract

open Text Files Script Source Resolution

/-- The type `Q.Static<typeof X.Y>`, where `Q` and `Y` may be missing, or the same with
`StaticDecode`. -/
structure StaticType where
  space? : Option (List Char)
  decodes : Bool
  value : List Char
  member? : Option (List Char)
  isName_space : ∀ q ∈ space?, isName q = true
  isName_value : isName value = true
  isName_member : ∀ y ∈ member?, isName y = true

namespace StaticType

/-- The word for a static type. -/
def word (decodes : Bool) : List Char :=
  if decodes then "StaticDecode".toList else "Static".toList

/-- The tokens of the schema value. -/
def named (value : List Char) : Option (List Char) → List (List Char)
  | none => [value]
  | some y => [value, ['.'], y]

/-- The tokens from the word for a static type on. -/
def static (s : StaticType) : List (List Char) :=
  word s.decodes :: ['<'] :: "typeof".toList :: (named s.value s.member? ++ [['>']])

/-- The tokens of a static type. -/
def tokens (s : StaticType) : List (List Char) :=
  match s.space? with
  | none => s.static
  | some q => q :: ['.'] :: s.static

/-- The schema value as an expression. -/
def reference (s : StaticType) : List Char := (named s.value s.member?).flatten

/-- Whether a text is a static type, with any blanks between its tokens. -/
def Lays (s : StaticType) (body : List Char) : Prop := Spaced s.tokens body

/-- Whether a text is the schema value, perhaps with blanks around its point. -/
def Values (s : StaticType) (text : List Char) : Prop :=
  match s.member? with
  | none => text = s.value
  | some y => ∃ gap gap' : List Char, gap.all isBlank = true ∧ gap'.all isBlank = true ∧
      text = s.value ++ (gap ++ '.' :: (gap' ++ y))

theorem isName_word (decodes : Bool) : isName (word decodes) = true := by
  cases decodes <;> decide

theorem token_point : Token ['.'] := token_singleton (by decide)

theorem token_of_mem_named (s : StaticType) : ∀ token ∈ named s.value s.member?, Token token := by
  have hvalue := token_of_isName s.isName_value
  cases hmember : s.member? with
  | none => exact List.forall_mem_singleton.mpr hvalue
  | some y =>
      have hy := token_of_isName (s.isName_member y hmember)
      exact List.forall_mem_cons.mpr ⟨hvalue, List.forall_mem_cons.mpr
        ⟨token_point, List.forall_mem_singleton.mpr hy⟩⟩

theorem token_of_mem_static (s : StaticType) : ∀ token ∈ s.static, Token token := by
  have hword := token_of_isName (isName_word s.decodes)
  have hangle : Token ['<'] := token_singleton (by decide)
  have htypeof : Token "typeof".toList := token_of_isName (by decide)
  have hclose : Token ['>'] := token_singleton (by decide)
  have hend : ∀ token ∈ named s.value s.member? ++ [['>']], Token token :=
    List.forall_mem_append.mpr ⟨s.token_of_mem_named, List.forall_mem_singleton.mpr hclose⟩
  exact List.forall_mem_cons.mpr ⟨hword, List.forall_mem_cons.mpr
    ⟨hangle, List.forall_mem_cons.mpr ⟨htypeof, hend⟩⟩⟩

theorem token_of_mem (s : StaticType) : ∀ token ∈ s.tokens, Token token := by
  rw [tokens]
  split
  · exact s.token_of_mem_static
  · rename_i q hspace
    exact List.forall_mem_cons.mpr ⟨token_of_isName (s.isName_space q hspace),
      List.forall_mem_cons.mpr ⟨token_point, s.token_of_mem_static⟩⟩

end StaticType

section Reading

variable {t rest value : List Char} {toks : List (List Char)}

theorem exists_space_of_afterNamespace? (h : afterNamespace? t = some rest) :
    ∃ q, isName q = true ∧ ∀ toks, Spaced toks rest → Spaced (q :: ['.'] :: toks) t := by
  rw [afterNamespace?] at h
  split at h
  · cases h
  · rename_i q after hname
    obtain ⟨more, hpoint, rfl⟩ := Option.map_eq_some_iff.mp h
    refine ⟨q, isName_of_name? hname, fun toks hrest => ?_⟩
    exact .of_name? hname (.of_trimStart (.of_mark (by decide) hpoint hrest.of_trimStart))

theorem spaced_of_angle {token : List Char}
    (h : ((after? token t).bind fun after => after? ['<'] (trimStart after)) = some rest)
    (hrest : Spaced toks rest) : Spaced (token :: ['<'] :: toks) t := by
  obtain ⟨after, hafter, hangle⟩ := Option.bind_eq_some_iff.mp h
  refine .of_after? hafter (fun _ => ?_) (.of_trimStart (.of_mark (by decide) hangle hrest))
  apply endsName_of_trimStart
  rw [after?_eq_some_iff.mp hangle]
  exact endsName_cons (by decide) rest

theorem exists_word_of_afterStatic? (h : afterStatic? t = some rest) :
    ∃ decodes, ∀ toks, Spaced toks rest → Spaced (StaticType.word decodes :: ['<'] :: toks) t := by
  rcases of_orElse_eq_some h with hangle | hangle
  · exact ⟨false, fun toks => spaced_of_angle hangle⟩
  · exact ⟨true, fun toks => spaced_of_angle hangle⟩

theorem endsName_of_blanks? (h : blanks? t = some rest) : EndsName t := by
  cases t with
  | nil => exact endsName_nil
  | cons c t =>
      rw [blanks?] at h
      split at h
      · rename_i hc
        exact endsName_cons (not_isNameChar_of_isBlank hc) t
      · cases h

theorem spaced_of_typeof (h : ((after? "typeof".toList (trimStart t)).bind blanks?) = some rest)
    (hrest : Spaced toks rest) : Spaced ("typeof".toList :: toks) t := by
  obtain ⟨after, hafter, hblanks⟩ := Option.bind_eq_some_iff.mp h
  obtain ⟨lead, heq, hlead⟩ := exists_of_blanks? hblanks
  refine .of_trimStart (.of_after? hafter (fun _ => endsName_of_blanks? hblanks) ?_)
  rw [heq]
  exact hrest.blanks_append hlead

/-- The value is read as its tokens, unless a point without a name follows. -/
theorem exists_named_of_dotted? (h : dotted? t = some (value, rest))
    (hrest : (trimStart rest).head? ≠ some '.') :
    ∃ x y?, isName x = true ∧ (∀ y ∈ y?, isName y = true) ∧
      ∀ toks, Spaced toks rest → Spaced (StaticType.named x y? ++ toks) t := by
  rw [dotted?] at h
  split at h
  · cases h
  · rename_i x after hname
    split at h
    · rename_i more hmore
      split at h
      · rename_i y last hmember
        obtain ⟨-, rfl⟩ := Prod.mk.inj (Option.some.inj h)
        refine ⟨x, some y, isName_of_name? hname, ?_, fun toks hlast => ?_⟩
        · rintro _ ⟨⟩
          exact isName_of_name? hmember
        · have hafter : after? ['.'] (trimStart after) = some more :=
            after?_eq_some_iff.mpr hmore
          refine .of_name? hname (.of_trimStart (.of_mark (by decide) hafter (.of_trimStart ?_)))
          exact .of_name? hmember hlast
      · obtain ⟨-, rfl⟩ := Prod.mk.inj (Option.some.inj h)
        rw [hmore] at hrest
        exact absurd rfl hrest
    · obtain ⟨-, rfl⟩ := Prod.mk.inj (Option.some.inj h)
      exact ⟨x, none, isName_of_name? hname, by simp, fun toks => .of_name? hname⟩

/-- What is accepted lays out a static type. -/
theorem exists_lays_of_schemaValue? {body : List Char} (h : schemaValue? body = some value) :
    ∃ s : StaticType, s.Lays body := by
  rw [schemaValue?] at h
  split at h
  · cases h
  · rename_i argument hargument
    split at h
    · cases h
    · rename_i read rest hread
      split at h
      · rename_i hclose
        obtain ⟨after, htypeof, hdotted⟩ := Option.bind_eq_some_iff.mp hread
        have hafter : after? ['>'] (trimStart rest) = some [] := by
          rw [hclose]
          rfl
        have hend : Spaced [['>']] rest := .of_trimStart (.of_mark (by decide) hafter (.nil rfl))
        obtain ⟨x, y?, hx, hy, hnamed⟩ := exists_named_of_dotted? hdotted (by rw [hclose]; decide)
        have hvalue := spaced_of_typeof htypeof (hnamed _ hend)
        rcases of_orElse_eq_some hargument with hspace | hstatic
        · obtain ⟨after, hspace, hstatic⟩ := Option.bind_eq_some_iff.mp hspace
          obtain ⟨q, hq, hlay⟩ := exists_space_of_afterNamespace? hspace
          obtain ⟨decodes, hword⟩ := exists_word_of_afterStatic? hstatic
          refine ⟨⟨some q, decodes, x, y?, by rintro _ ⟨⟩; exact hq, hx, hy⟩, ?_⟩
          exact (Spaced.respace_iff (StaticType.token_of_mem _)).mp (hlay _ (hword _ hvalue))
        · obtain ⟨decodes, hword⟩ := exists_word_of_afterStatic? hstatic
          refine ⟨⟨none, decodes, x, y?, by simp, hx, hy⟩, ?_⟩
          exact (Spaced.respace_iff (StaticType.token_of_mem _)).mp (hword _ hvalue)
      · cases h

end Reading

section Accepting

variable {t x : List Char} {toks : List (List Char)}

theorem afterNamespace?_of_tight {q : List Char} (hq : isName q = true)
    (htoks : ∀ token ∈ toks, Token token) (h : Tight (q :: ['.'] :: toks) t)
    (hstart : trimStart t = t) :
    ∃ rest, afterNamespace? t = some rest ∧ trimStart rest = rest ∧ Tight toks rest := by
  obtain ⟨after, ht, hends, hafter⟩ := h.uncons (token_of_isName hq)
  obtain ⟨more, hpoint, -, hmore⟩ := hafter.uncons StaticType.token_point
  refine ⟨trimStart more, ?_, trimStart_trimStart more, hmore.trimStart htoks⟩
  rw [← hstart, ht, afterNamespace?, name?_append_of_isName hq (hends hq)]
  dsimp only
  rw [hpoint, after?_eq_some_iff.mpr rfl, Option.map_some]

theorem afterNamespace?_of_angle {name : List Char} (hname : isName name = true)
    (h : Tight (name :: ['<'] :: toks) t) (hstart : trimStart t = t) :
    afterNamespace? t = none := by
  obtain ⟨after, ht, hends, hafter⟩ := h.uncons (token_of_isName hname)
  obtain ⟨more, hangle, -, -⟩ := hafter.uncons (token_singleton (by decide))
  rw [← hstart, ht, afterNamespace?, name?_append_of_isName hname (hends hname)]
  dsimp only
  rw [hangle]
  rfl

theorem afterStatic?_of_tight {decodes : Bool}
    (h : Tight (StaticType.word decodes :: ['<'] :: toks) t) (hstart : trimStart t = t) :
    ∃ rest, afterStatic? t = some rest ∧ Tight toks rest := by
  have hword := token_of_isName (StaticType.isName_word decodes)
  obtain ⟨after, ht, -, hafter⟩ := h.uncons hword
  obtain ⟨more, hangle, -, hmore⟩ := hafter.uncons (token_singleton (by decide))
  rw [hstart] at ht
  refine ⟨more, ?_, hmore⟩
  have hmatch : ((after? (StaticType.word decodes) t).bind fun after =>
      after? ['<'] (trimStart after)) = some more := by
    rw [ht, after?_eq_some_iff.mpr rfl, Option.bind_some, hangle]
    exact after?_eq_some_iff.mpr rfl
  cases decodes with
  | false =>
      rw [afterStatic?]
      exact (congrArg (Option.orElse · _) hmatch).trans rfl
  | true =>
      -- The shorter word does not end before an angle bracket.
      have hlonger : after? "Static".toList t = some ("Decode".toList ++ after) :=
        after?_eq_some_iff.mpr ht
      have hshort : ((after? "Static".toList t).bind fun after =>
          after? ['<'] (trimStart after)) = none := by
        rw [hlonger]
        rfl
      rw [afterStatic?]
      exact (congrArg (Option.orElse · _) hshort).trans hmatch

/-- A name after a word has a blank before it. -/
theorem blanks?_of_endsName (h : EndsName t) {more : List Char} (hx : isName x = true)
    (hstart : trimStart t = x ++ more) : blanks? t = some (trimStart t) := by
  obtain ⟨c, hc, hblank⟩ := (token_of_isName hx).head?_append more
  cases t with
  | nil =>
      rw [← hstart] at hc
      cases hc
  | cons d t =>
      cases hd : isBlank d with
      | true => rw [blanks?, if_pos hd, trimStart, trimStart, List.dropWhile_cons_of_pos hd]
      | false =>
          rw [trimStart, List.dropWhile_cons_of_neg (by simp [hd])] at hstart
          have hname : isNameChar d = true := by
            obtain ⟨e, u, rfl⟩ := List.exists_cons_of_ne_nil (ne_nil_of_isName hx)
            obtain ⟨rfl, -⟩ := List.cons.inj hstart
            exact isNameChar_of_isName hx d List.mem_cons_self
          rw [h d rfl] at hname
          cases hname

theorem typeof_of_tight (hx : isName x = true) (htoks : ∀ token ∈ x :: toks, Token token)
    (h : Tight ("typeof".toList :: x :: toks) t) :
    ∃ rest, ((after? "typeof".toList (trimStart t)).bind blanks?) = some rest ∧
      trimStart rest = rest ∧ Tight (x :: toks) rest := by
  obtain ⟨after, ht, hends, hafter⟩ := h.uncons (token_of_isName (by decide))
  obtain ⟨more, hstart, -, -⟩ := hafter.uncons (token_of_isName hx)
  refine ⟨trimStart after, ?_, trimStart_trimStart after, hafter.trimStart htoks⟩
  rw [ht, after?_eq_some_iff.mpr rfl, Option.bind_some]
  exact blanks?_of_endsName (hends (by decide)) hx hstart

/-- The value of a static type is read whole, and what closes the type is left. -/
theorem dotted?_of_tight (s : StaticType)
    (h : Tight (StaticType.named s.value s.member? ++ [['>']]) t) (hstart : trimStart t = t) :
    ∃ value rest, dotted? t = some (value, rest) ∧ trimStart rest = ['>'] ∧ s.Values value := by
  have hclose : Token ['>'] := token_singleton (by decide)
  have hvalue := s.isName_value
  cases hmember : s.member? with
  | none =>
      rw [hmember] at h
      obtain ⟨after, ht, hends, hafter⟩ := h.uncons (token_of_isName hvalue)
      obtain ⟨last, hlast, -, hend⟩ := hafter.uncons hclose
      rw [hend.eq_nil, List.append_nil] at hlast
      refine ⟨s.value, after, ?_, hlast, by rw [StaticType.Values, hmember]⟩
      rw [← hstart, ht, dotted?, name?_append_of_isName hvalue (hends hvalue)]
      dsimp only
      rw [hlast]
      rfl
  | some y =>
      have hy := s.isName_member y hmember
      rw [hmember] at h
      obtain ⟨after, ht, hends, hafter⟩ := h.uncons (token_of_isName hvalue)
      obtain ⟨more, hpoint, -, hmore⟩ := hafter.uncons StaticType.token_point
      obtain ⟨rest, hname, hends', hrest⟩ := hmore.uncons (token_of_isName hy)
      obtain ⟨last, hlast, -, hend⟩ := hrest.uncons hclose
      rw [hend.eq_nil, List.append_nil] at hlast
      obtain ⟨gap, hafter, hgap⟩ := exists_trimStart after
      obtain ⟨gap', hmore, hgap'⟩ := exists_trimStart more
      rw [hpoint] at hafter
      rw [hname] at hmore
      have hwhole : s.value ++ after = s.value ++ (gap ++ '.' :: (gap' ++ y)) ++ rest := by
        rw [hafter, hmore]
        simp
      have hread : name? (trimStart more) = some (y, rest) := by
        rw [hname]
        exact name?_append_of_isName hy (hends' hy)
      refine ⟨s.value ++ (gap ++ '.' :: (gap' ++ y)), rest, ?_, hlast, ?_⟩
      · rw [dotted?, ← hstart, ht, name?_append_of_isName hvalue (hends hvalue)]
        simp only [hpoint, List.singleton_append, hread]
        rw [hwhole, List.length_append, Nat.add_sub_cancel, List.take_left]
      · rw [StaticType.Values, hmember]
        exact ⟨gap, gap', hgap, hgap', rfl⟩

theorem schemaValue?_of_lays {s : StaticType} {body : List Char} (h : s.Lays body) :
    ∃ value, schemaValue? body = some value ∧ s.Values value := by
  have htight := tight_respace s.token_of_mem h
  have hstart := trimStart_respace body
  have hword := StaticType.isName_word s.decodes
  -- With a namespace and without, the word for a static type comes next.
  obtain ⟨rest, hargument, hrest⟩ : ∃ rest,
      ((afterNamespace? (respace body)).bind afterStatic?).orElse
          (fun _ => afterStatic? (respace body)) = some rest ∧
        Tight ("typeof".toList :: (StaticType.named s.value s.member? ++ [['>']])) rest := by
    rw [StaticType.tokens] at htight
    split at htight
    · obtain ⟨rest, hstatic, hrest⟩ := afterStatic?_of_tight htight hstart
      refine ⟨rest, ?_, hrest⟩
      rw [afterNamespace?_of_angle hword htight hstart]
      exact hstatic
    · rename_i q hspace
      obtain ⟨after, hnamespace, hafter, htight⟩ :=
        afterNamespace?_of_tight (s.isName_space q hspace) s.token_of_mem_static htight hstart
      obtain ⟨rest, hstatic, hrest⟩ := afterStatic?_of_tight htight hafter
      refine ⟨rest, ?_, hrest⟩
      rw [hnamespace, Option.bind_some, hstatic]
      rfl
  obtain ⟨more, hnamed⟩ : ∃ more, StaticType.named s.value s.member? ++ [['>']] =
      s.value :: more := by
    cases s.member? with
    | none => exact ⟨_, rfl⟩
    | some y => exact ⟨_, rfl⟩
  have htokens : ∀ token ∈ s.value :: more, Token token := by
    intro token hmem
    apply s.token_of_mem_static
    rw [← hnamed] at hmem
    exact List.mem_cons_of_mem _ (List.mem_cons_of_mem _ (List.mem_cons_of_mem _ hmem))
  rw [hnamed] at hrest
  obtain ⟨after, htypeof, hafter, hvalue⟩ := typeof_of_tight s.isName_value htokens hrest
  rw [← hnamed] at hvalue
  obtain ⟨value, last, hdotted, hlast, hvalues⟩ := dotted?_of_tight s hvalue hafter
  refine ⟨value, ?_, hvalues⟩
  rw [schemaValue?, hargument]
  dsimp only
  rw [htypeof, Option.bind_some, hdotted]
  exact if_pos hlast

/-- The body of an alias is accepted if and only if it lays out a static type. -/
theorem isSome_schemaValue?_iff {body : List Char} :
    (schemaValue? body).isSome ↔ ∃ s : StaticType, s.Lays body := by
  constructor
  · intro h
    obtain ⟨value, hvalue⟩ := Option.isSome_iff_exists.mp h
    exact exists_lays_of_schemaValue? hvalue
  · rintro ⟨s, hs⟩
    obtain ⟨value, hvalue, -⟩ := schemaValue?_of_lays hs
    rw [hvalue]
    rfl

example : ∃ s : StaticType, s.Lays "T .\n  StaticDecode <typeof\n schemas . commands >".toList :=
  isSome_schemaValue?_iff.mp (by decide +kernel)

end Accepting

namespace Alike

variable {α β : Type} {x y : Except Failure α} {a : α}

theorem map (h : Alike x y) (f : α → β) : Alike (x.map f) (y.map f) := by
  cases h with
  | ok a => exact .ok (f a)
  | contract kind => exact .contract kind
  | failure failure => exact .failure failure

theorem eq_ok (h : Alike (.ok a) y) : y = .ok a := by
  cases h with
  | ok a => rfl

end Alike

section Referring

variable {e value gap gap' x y : List Char}

/-- What has no layer of assertions stays as it is. -/
theorem stripAssertions_eq_self (hsolid : Solid e) (hopen : e.head? ≠ some '(')
    (hangle : e.head? ≠ some '<') (hmark : e.getLast? ≠ some '!')
    (hasserted : dropAssertion e = e) : stripAssertions e = e := by
  have hparens : stripParens e = e := by
    rw [stripParens, trim_of_solid hsolid, unwrap, dif_neg fun h => hopen h.1]
  have hpeel : peel e = e := by
    rw [peel, hparens, dropNonNull, if_neg hmark, dropAngled, if_neg hangle, hasserted]
  rw [stripAssertions, trim_of_solid hsolid, peelAll, hpeel, if_neg (Nat.lt_irrefl _)]

/-- Where no word between blanks asserts anything, no assertion is dropped. -/
theorem dropAssertion_eq_self (hplain : Plain e)
    (h : ∀ u b word d rest, isBlank b = true → isBlank d = true → word ∈ assertionWords →
      e ≠ u ++ ((b :: (word ++ [d])) ++ rest)) : dropAssertion e = e := by
  have hnone : assertionWord.findAll e = [] := by
    refine List.eq_nil_iff_forall_not_mem.mpr fun found hfound => ?_
    obtain ⟨u, v, rfl, -, -, -, hmatch⟩ := Pattern.exists_of_mem_findFrom hfound
    obtain ⟨b, word, d, rest, hb, hd, hword, rfl, -⟩ := exists_of_assertionWord hmatch
    exact h u b word d rest hb hd hword rfl
  rw [dropAssertion, mask_plain hplain, hnone]
  rfl

/-- A member of a namespace with blanks around its point. -/
def spacedMember (x gap gap' y : List Char) : List Char := x ++ (gap ++ '.' :: (gap' ++ y))

theorem solid_spacedMember (hx : isName x = true) (hy : isName y = true)
    (gap gap' : List Char) : Solid (spacedMember x gap gap' y) := by
  have hsolid := (solid_of_isName hx).append (solid_of_isName hy) (gap ++ '.' :: gap')
  rwa [List.append_assoc] at hsolid

section Member

variable (hx : isName x = true) (hy : isName y = true) (hgap : gap.all isBlank = true)
  (hgap' : gap'.all isBlank = true)
include hx hy hgap hgap'

theorem plain_spacedMember : Plain (spacedMember x gap gap' y) := by
  have hname {u : List Char} (hu : isName u = true) : ∀ c ∈ u, isTypeChar c = true := by
    intro c hc
    simp [isTypeChar, isNameChar_of_isName hu c hc]
  have hblank {u : List Char} (hu : u.all isBlank = true) : ∀ c ∈ u, isTypeChar c = true := by
    intro c hc
    simp [isTypeChar, List.all_eq_true.mp hu c hc]
  refine List.all_eq_true.mpr fun c hc => isPlain_of_isTypeChar ?_
  simp only [spacedMember, List.mem_append, List.mem_cons] at hc
  rcases hc with hc | hc | rfl | hc | hc
  · exact hname hx c hc
  · exact hblank hgap c hc
  · decide
  · exact hblank hgap' c hc
  · exact hname hy c hc

/-- In a member of a namespace no word stands between blanks. -/
theorem dropAssertion_spacedMember :
    dropAssertion (spacedMember x gap gap' y) = spacedMember x gap gap' y := by
  refine dropAssertion_eq_self (plain_spacedMember hx hy hgap hgap') ?_
  intro u b word d rest hb hd hword heq
  have hnotBlank {v : List Char} (hv : isName v = true) {c : Char} (hc : isBlank c = true) :
      c ∉ v := by
    intro hmem
    rw [not_isBlank_of_isNameChar (isNameChar_of_isName hv c hmem)] at hc
    cases hc
  have hnames : ∀ word ∈ assertionWords, isName word = true := by decide
  have hname := hnames word hword
  obtain ⟨c, word, rfl⟩ := List.exists_cons_of_ne_nil (ne_nil_of_isName hname)
  have hletter {v : List Char} (hv : v.all isBlank = true) : c ∉ v := by
    intro hmem
    exact hnotBlank hname (List.all_eq_true.mp hv c hmem) List.mem_cons_self
  have hpoint : '.' ∉ b :: ((c :: word) ++ [d]) := by
    intro hmem
    rcases List.mem_cons.mp hmem with rfl | hmem
    · exact absurd hb (by decide)
    rcases List.mem_append.mp hmem with hmem | hmem
    · exact absurd (isNameChar_of_isName hname '.' hmem) (by decide)
    · obtain rfl := List.mem_singleton.mp hmem
      exact absurd hd (by decide)
  rw [spacedMember, ← List.append_assoc] at heq
  rcases block_in_append_cons (List.cons_ne_nil _ _) hpoint heq with
    ⟨r, hbefore, -⟩ | ⟨v, -, hafter⟩
  · rcases List.append_eq_append_iff.mp hbefore with ⟨a, -, hg⟩ | ⟨a, hxa, hg⟩
    · exact hletter hgap (by rw [hg]; simp)
    · cases a with
      | nil => exact hletter hgap (by rw [← List.nil_append gap, ← hg]; simp)
      | cons a _ =>
          obtain ⟨rfl, -⟩ := List.cons.inj hg
          exact hnotBlank hx hb (by rw [hxa]; simp)
  · have hsplit : gap' ++ y = (v ++ (b :: c :: word)) ++ (d :: rest) := by
      rw [hafter]
      simp
    rcases List.append_eq_append_iff.mp hsplit with ⟨a, -, hya⟩ | ⟨a, hg, -⟩
    · exact hnotBlank hy hd (by rw [hya]; simp)
    · exact hletter hgap' (by rw [hg]; simp)

theorem stripAssertions_spacedMember :
    stripAssertions (spacedMember x gap gap' y) = spacedMember x gap gap' y := by
  have hhead := (solid_of_isName hx).head?_append (gap ++ '.' :: (gap' ++ y))
  have hlast := (solid_of_isName hy).getLast?_of_suffix
    (t := spacedMember x gap gap' y) ⟨x ++ (gap ++ '.' :: gap'), by simp [spacedMember]⟩
  have hother {c : Char} (hc : isNameChar c = false) {u : List Char} (hu : isName u = true) :
      c ∉ u := by
    intro hmem
    rw [isNameChar_of_isName hu c hmem] at hc
    cases hc
  refine stripAssertions_eq_self (solid_spacedMember hx hy gap gap') ?_ ?_ ?_
    (dropAssertion_spacedMember hx hy hgap hgap')
  · rw [spacedMember, hhead]
    exact fun h => hother (by decide) hx (List.mem_of_mem_head? h)
  · rw [spacedMember, hhead]
    exact fun h => hother (by decide) hx (List.mem_of_mem_head? h)
  · rw [hlast]
    exact fun h => hother (by decide) hy (List.mem_of_getLast? h)

theorem member?_spacedMember : member? (spacedMember x gap gap' y) = some (x, y) := by
  have hpoint : trimStart (gap ++ '.' :: (gap' ++ y)) = '.' :: (gap' ++ y) :=
    trimStart_append hgap ⟨'.', rfl, by decide⟩
  have hmember : trimStart (gap' ++ y) = y := trimStart_append hgap' (solid_of_isName hy).1
  have hends : EndsName (gap ++ '.' :: (gap' ++ y)) := by
    apply endsName_of_trimStart
    rw [hpoint]
    exact endsName_cons (by decide) _
  rw [member?, spacedMember, name?_append_of_isName hx hends]
  simp only [hpoint, hmember, if_pos hy]

end Member

variable {names : List Char × List Char} {project : Project} {tree : Tree} {m : Module}

/-- The module of a reference, and the name that it exports. -/
def place (reference : Reference) : Path × String := (reference.module, reference.exported)

/-- Expressions for the same member of the same namespace refer to the same place. -/
theorem alike_reference_of_member {u w : List Char}
    (hu : member? (stripAssertions u) = some names)
    (hw : member? (stripAssertions w) = some names) :
    Alike ((project.reference tree u m).map place) ((project.reference tree w m).map place) := by
  have hthrough (required : Except Failure Path) (exported source source' : String) :
      Alike ((required.map fun path => (⟨path, exported, source⟩ : Reference)).map place)
        ((required.map fun path => (⟨path, exported, source'⟩ : Reference)).map place) := by
    cases required with
    | error failure => exact .failure failure
    | ok path => exact .ok _
  rw [Project.reference, Project.reference]
  simp only [hu, hw]
  cases m.imports.namespaces.get? (String.ofList names.1) with
  | none => exact .contract rfl
  | some specifier => exact hthrough _ _ _ _

/-- The blanks around the point of a schema value play no part in what it refers to. -/
theorem alike_reference {s : StaticType} {value : List Char} (h : s.Values value)
    (project : Project) (tree : Tree) (m : Module) :
    Alike ((project.reference tree value m).map place)
      ((project.reference tree s.reference m).map place) := by
  rw [StaticType.Values] at h
  split at h
  · rename_i hmember
    have hreference : s.reference = s.value := by
      simp [StaticType.reference, StaticType.named, hmember]
    rw [h, hreference]
    exact .refl _
  · rename_i y hmember
    have hx := s.isName_value
    have hy := s.isName_member y hmember
    obtain ⟨gap, gap', hgap, hgap', rfl⟩ := h
    have hreference : s.reference = spacedMember s.value [] [] y := by
      simp [StaticType.reference, StaticType.named, hmember, spacedMember]
    have hmember? {g g' : List Char} (hg : g.all isBlank = true) (hg' : g'.all isBlank = true) :
        member? (stripAssertions (spacedMember s.value g g' y)) = some (s.value, y) := by
      rw [stripAssertions_spacedMember hx hy hg hg', member?_spacedMember hx hy hg hg']
    rw [hreference]
    exact alike_reference_of_member (hmember? hgap hgap') (hmember? rfl rfl)

end Referring

section Grammar

variable {project : Project} {tree : Tree} {e : List Char} {m : Module} {cache : Cache}
  {found : AliasDeclaration}

/-- The result of reading a command type. -/
def commandResult (project : Project) (tree : Tree) (e : List Char) (m : Module) (cache : Cache) :
    Except Failure (Option Reference) :=
  (outcome (resolveCommand project tree e m) cache).1

/-- Whether a type expression is the name of an alias that is declared so. -/
structure Declares (project : Project) (tree : Tree) (e : List Char) (m : Module) (cache : Cache)
    (found : AliasDeclaration) : Prop where
  notNull : stripParens e ≠ "null".toList
  isName : isName (stripParens e) = true
  lookup : (outcome (project.findAlias tree (String.ofList (stripParens e)) m []) cache).1 =
    .ok found

/-- Whether a result is a fault of the command type. -/
def IsCommandError {α : Type} (result : Except Failure α) : Prop :=
  ∃ error : ContractError, result = .error (.contract error) ∧ error.kind = .commandContract

/-- What command types are accepted, and what they refer to. -/
structure CommandGrammar (project : Project) (tree : Tree) (e : List Char) (m : Module)
    (cache : Cache) : Prop where
  /-- No commands are meant by `null` alone. -/
  null : commandResult project tree e m cache = .ok none ↔ stripParens e = "null".toList
  /-- What is accepted is the name of an alias for a static type, and it refers to the value of
  that type in the module of the alias. -/
  accepted : ∀ reference, commandResult project tree e m cache = .ok (some reference) →
    ∃ found, Declares project tree e m cache found ∧ ∃ s : StaticType, s.Lays found.body ∧
      (project.reference tree s.reference found.module).map place = .ok (place reference)
  /-- All layouts of a static type refer to what its value refers to, or fail alike. -/
  layouts : ∀ found, Declares project tree e m cache found →
    ∀ s : StaticType, s.Lays found.body →
      Alike ((commandResult project tree e m cache).map (Option.map place))
        (((project.reference tree s.reference found.module).map place).map some)
  /-- Aliases for anything else are rejected. -/
  otherBodies : ∀ found, Declares project tree e m cache found →
    (∀ s : StaticType, ¬ s.Lays found.body) → IsCommandError (commandResult project tree e m cache)
  /-- Types that are no names are rejected. -/
  otherTypes : isName (stripParens e) = false →
    IsCommandError (commandResult project tree e m cache)

theorem commandResult_of_declares (h : Declares project tree e m cache found) :
    ∃ after, commandResult project tree e m cache =
      (outcome (commandOf project tree found) after).1 := by
  obtain ⟨hnull, hname, hlookup⟩ := h
  rw [commandResult, resolveCommand_of_name hnull hname, outcome_bind]
  rcases hfound : outcome (project.findAlias tree (String.ofList (stripParens e)) m []) cache with
    ⟨result, after⟩
  rw [hfound] at hlookup
  obtain rfl : result = .ok found := hlookup
  exact ⟨after, rfl⟩

theorem outcome_commandOf_of_some {value : List Char} (h : schemaValue? found.body = some value)
    (cache : Cache) :
    (outcome (commandOf project tree found) cache).1 =
      (project.reference tree value found.module).map some := by
  rw [commandOf, h]
  dsimp only
  cases project.reference tree value found.module with
  | error failure => rfl
  | ok reference => rfl

theorem isCommandError_of_none (h : schemaValue? found.body = none) (cache : Cache) :
    IsCommandError (outcome (commandOf project tree found) cache).1 := by
  rw [outcome_commandOf_of_none found h]
  exact ⟨_, rfl, rfl⟩

/-- What is accepted is `null`, or the name of an alias for a static type. -/
theorem cases_of_commandResult {result : Option Reference}
    (h : commandResult project tree e m cache = .ok result) :
    (stripParens e = "null".toList ∧ result = none) ∨
      ∃ found value reference, Declares project tree e m cache found ∧
        schemaValue? found.body = some value ∧
        project.reference tree value found.module = .ok reference ∧ result = some reference := by
  by_cases hnull : stripParens e = "null".toList
  · rw [commandResult, resolveCommand, if_pos hnull, outcome_pure] at h
    exact Or.inl ⟨hnull, (Except.ok.inj h).symm⟩
  right
  cases hname : isName (stripParens e) with
  | false =>
      rw [commandResult, outcome_resolveCommand_of_not_name hname] at h
      cases h
  | true =>
      rcases hlookup : outcome (project.findAlias tree (String.ofList (stripParens e)) m []) cache
        with ⟨failure | found, after⟩
      · rw [commandResult, resolveCommand_of_name hnull hname, outcome_bind, hlookup] at h
        cases h
      have hdeclares : Declares project tree e m cache found := ⟨hnull, hname, by rw [hlookup]⟩
      obtain ⟨after, hresult⟩ := commandResult_of_declares hdeclares
      rw [hresult] at h
      cases hvalue : schemaValue? found.body with
      | none =>
          rw [outcome_commandOf_of_none found hvalue] at h
          cases h
      | some value =>
          rw [outcome_commandOf_of_some hvalue] at h
          cases hreference : project.reference tree value found.module with
          | error failure =>
              rw [hreference] at h
              cases h
          | ok reference =>
              rw [hreference] at h
              exact ⟨found, value, reference, hdeclares, hvalue, hreference,
                (Except.ok.inj h).symm⟩

/-- A layout of a static type refers to what its value refers to. -/
theorem alike_commandResult (h : Declares project tree e m cache found) {s : StaticType}
    (hlays : s.Lays found.body) :
    Alike ((commandResult project tree e m cache).map (Option.map place))
      (((project.reference tree s.reference found.module).map place).map some) := by
  have hswap (x : Except Failure Reference) :
      (x.map some).map (Option.map place) = (x.map place).map some := by
    cases x <;> rfl
  obtain ⟨after, hresult⟩ := commandResult_of_declares h
  obtain ⟨value, hvalue, hvalues⟩ := schemaValue?_of_lays hlays
  rw [hresult, outcome_commandOf_of_some hvalue, hswap]
  exact (alike_reference hvalues project tree found.module).map some

/-- Command types are accepted by their grammar, whatever the layout of the alias is. -/
theorem commandGrammar (project : Project) (tree : Tree) (e : List Char) (m : Module)
    (cache : Cache) : CommandGrammar project tree e m cache where
  null := by
    constructor
    · intro h
      rcases cases_of_commandResult h with ⟨hnull, -⟩ | ⟨_, _, _, -, -, -, hsome⟩
      · exact hnull
      · cases hsome
    · intro hnull
      rw [commandResult, resolveCommand, if_pos hnull]
      rfl
  accepted reference h := by
    rcases cases_of_commandResult h with
      ⟨-, hnone⟩ | ⟨found, value, _, hdeclares, hvalue, hreference, hsome⟩
    · cases hnone
    obtain rfl := Option.some.inj hsome
    obtain ⟨s, hlays⟩ := exists_lays_of_schemaValue? hvalue
    obtain ⟨_, hvalue', hvalues⟩ := schemaValue?_of_lays hlays
    obtain rfl := Option.some.inj (hvalue.symm.trans hvalue')
    have halike := alike_reference hvalues project tree found.module
    rw [hreference] at halike
    exact ⟨found, hdeclares, s, hlays, halike.eq_ok⟩
  layouts found hdeclares s hlays := alike_commandResult hdeclares hlays
  otherBodies found hdeclares hother := by
    obtain ⟨after, hresult⟩ := commandResult_of_declares hdeclares
    have hnone : schemaValue? found.body = none := by
      rw [← Option.not_isSome_iff_eq_none, isSome_schemaValue?_iff]
      exact not_exists.mpr hother
    rw [hresult]
    exact isCommandError_of_none hnone after
  otherTypes hname := by
    rw [commandResult, outcome_resolveCommand_of_not_name hname]
    exact ⟨_, rfl, rfl⟩

end Grammar

end PluginContract.Contract
