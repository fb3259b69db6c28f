import PluginContract.Proofs.Script.Offsets

/-!
# Literals and comments as spans of roles

What starts outside of all regions gives roles to all characters up to the offset
at which it is looked up to end. A quote or a regular expression gives the roles
of a literal, and a comment the role of a comment.
-/

namespace PluginContract.Script

open Text

/-- The roles of a literal that is opened at an offset and ends at another; one that nothing closes
ends with the text. -/
structure LiteralSpan (t : List Char) (i e : Nat) : Prop where
  lt : i < e
  le : e ≤ t.length
  inside : ∀ k, i < k → k ≤ e → regionsAt t k ≠ []
  left : e < t.length → regionsAt t (e + 1) = []
  opening : roleAt t i = .opening
  content : ∀ k, i < k → k < e → roleAt t k = .content
  closing : e < t.length → roleAt t e = .closing

/-- The roles of a comment from its first character to its last. -/
structure CommentSpan (t : List Char) (i e : Nat) : Prop where
  lt : i < e
  lt_length : e < t.length
  inside : ∀ k, i < k → k ≤ e → regionsAt t k ≠ []
  left : e + 1 < t.length → regionsAt t (e + 1) = []
  comment : ∀ k, i ≤ k → k ≤ e → roleAt t k = .comment

section

variable {t : List Char} {c q : Char} {i e j : Nat}

theorem regionsAt_succ_of_nil (hb : regionsAt t i = []) (hc : t[i]? = some c) :
    regionsAt t (i + 1) = (Region.opened? (t.take i).reverse c (t.drop (i + 1))).toList := by
  rw [regionsAt_succ hc, hb, Region.step]

theorem regionsAt_succ_of_quote (hb : regionsAt t i = []) (hc : t[i]? = some q)
    (hq : isQuote q = true) : regionsAt t (i + 1) = [.quoted q] := by
  rw [regionsAt_succ_of_nil hb hc, Region.opened?, if_pos hq]
  rfl

theorem literalEnd?_eq (hb : regionsAt t i = []) (hc : t[i]? = some q) (hq : isQuote q = true) :
    literalEnd? t i =
      match distanceAt? t (i + 1) with
      | some d => some (i + 1 + d)
      | none => some t.length := by
  have hout : distanceOut? (q :: (t.take i).reverse) [.quoted q] (t.drop (i + 1)) =
      distanceAt? t (i + 1) := by
    rw [distanceAt?, reverse_take_succ hc, regionsAt_succ_of_quote hb hc hq]
  cases hd : distanceAt? t (i + 1) with
  | some d => simp [literalEnd?, drop_eq_cons hc, hout, hd]
  | none => simp [literalEnd?, drop_eq_cons hc, hout, hd]

theorem literalEnd?_cases (hb : regionsAt t i = []) (hc : t[i]? = some q)
    (hq : isQuote q = true) (he : literalEnd? t i = some e) :
    (∃ d, distanceAt? t (i + 1) = some d ∧ e = i + 1 + d) ∨
      distanceAt? t (i + 1) = none ∧ e = t.length := by
  rw [literalEnd?_eq hb hc hq] at he
  split at he
  · rename_i d hd
    exact Or.inl ⟨d, hd, (Option.some.inj he).symm⟩
  · rename_i hd
    exact Or.inr ⟨hd, (Option.some.inj he).symm⟩

/-- A quoted literal is left at its end, or else at no later offset. -/
theorem literalEnd?_bounds (hb : regionsAt t i = []) (hc : t[i]? = some q)
    (hq : isQuote q = true) (he : literalEnd? t i = some e) :
    i < e ∧ e ≤ t.length ∧ (∀ k, i < k → k ≤ e → regionsAt t k ≠ []) ∧
      (e < t.length → regionsAt t (e + 1) = []) := by
  have hi : i < t.length := (List.getElem?_eq_some_iff.mp hc).1
  have hfirst : regionsAt t (i + 1) ≠ [] := by
    rw [regionsAt_succ_of_quote hb hc hq]
    exact List.cons_ne_nil _ _
  rcases literalEnd?_cases hb hc hq he with ⟨d, hd, rfl⟩ | ⟨hd, rfl⟩
  · obtain ⟨hlt, hout, hin⟩ := of_distanceAt?_eq_some hd
    refine ⟨by omega, by omega, fun k hk hke => ?_, fun _ => hout⟩
    by_cases h : k = i + 1
    · exact h ▸ hfirst
    · exact hin k (by omega) hke
  · refine ⟨hi, (Nat.le_refl _), fun k hk hke => ?_, fun h => absurd h (Nat.lt_irrefl _)⟩
    by_cases h : k = i + 1
    · exact h ▸ hfirst
    · exact of_distanceAt?_eq_none hd k (by omega) hke

/-- In a quoted literal that goes on every character is content. -/
theorem between_of_inLiteral {regions after : List Region}
    (h : Region.inLiteral regions = true) (ha : after ≠ []) :
    Role.between regions after = .content := by
  cases regions with
  | nil => cases h
  | cons region outer =>
      cases outer with
      | nil =>
          cases region with
          | quoted quote => simp [Role.between, Region.isComment, ha]
          | escaped quote => simp [Role.between, Region.isComment, ha]
          | _ => cases h
      | cons next outer => rfl

theorem inLiteral_regionsAt (hb : regionsAt t i = []) (hc : t[i]? = some q)
    (hq : isQuote q = true) (he : literalEnd? t i = some e) {k : Nat} (hk : i < k)
    (hke : k ≤ e) : Region.inLiteral (regionsAt t k) = true := by
  obtain ⟨-, hle, hin, -⟩ := literalEnd?_bounds hb hc hq he
  obtain ⟨d, rfl⟩ := Nat.exists_eq_add_of_lt hk
  induction d with
  | zero =>
      rw [Nat.add_zero, regionsAt_succ_of_quote hb hc hq]
      exact hq
  | succ d ih =>
      have hlt : i + d + 1 < t.length := by omega
      have hck : t[i + d + 1]? = some t[i + d + 1] := List.getElem?_eq_getElem hlt
      have hstep := regionsAt_succ hck
      rcases Region.inLiteral_step (ih (by omega) (by omega)) (t.take (i + d + 1)).reverse
        t[i + d + 1] (t.drop (i + d + 1 + 1)) with h | ⟨hregions, hquote⟩
      · exact hstep ▸ h
      · -- a literal that closes here would be left before its end
        rw [hregions, Region.step_quoted_close hquote] at hstep
        exact absurd hstep (hin _ (by omega) hke)

/-- A quoted literal gives the roles of a literal. -/
theorem literalSpan_of_quote (hb : regionsAt t i = []) (hc : t[i]? = some q)
    (hq : isQuote q = true) (he : literalEnd? t i = some e) : LiteralSpan t i e := by
  obtain ⟨hlt, hle, hin, hout⟩ := literalEnd?_bounds hb hc hq he
  refine ⟨hlt, hle, hin, hout, ?_, fun k hk hke => ?_, fun he' => ?_⟩
  · rw [roleAt, hb, regionsAt_succ_of_quote hb hc hq]
    rfl
  · exact between_of_inLiteral (inLiteral_regionsAt hb hc hq he hk (by omega))
      (hin (k + 1) (by omega) (by omega))
  · have hce : t[e]? = some t[e] := List.getElem?_eq_getElem he'
    have hliteral := inLiteral_regionsAt hb hc hq he hlt (Nat.le_refl _)
    rcases Region.inLiteral_step hliteral (t.take e).reverse t[e] (t.drop (e + 1))
      with h | ⟨hregions, -⟩
    · rw [← regionsAt_succ hce, hout he'] at h
      cases h
    · rw [roleAt, hregions, hout he']
      rfl

theorem regexLength?_le {inClass : Bool} {rest : List Char} {n : Nat}
    (h : regexLength? inClass rest = some n) : n ≤ rest.length := by
  fun_induction regexLength? inClass rest generalizing n with
  | case1 => simp at h
  | case2 => simp at h
  | case3 inClass d rest ih =>
      obtain ⟨m, hm, rfl⟩ := Option.map_eq_some_iff.mp h
      simpa using ih hm
  | case4 => simp at h
  | case5 =>
      obtain rfl := Option.some.inj h
      simp
  | case6 inClass c rest _ hn hs nextClass =>
      rename_i ih
      obtain ⟨m, hm, rfl⟩ := Option.map_eq_some_iff.mp h
      simpa using ih hm

theorem commentEnd?_eq_none_iff (hc : t[i]? = some c) :
    commentEnd? t i = none ↔ Region.opensComment c (t.drop (i + 1)) = false := by
  rw [commentEnd?, drop_eq_cons hc]
  cases t.drop (i + 1) with
  | nil => simp [Region.opensComment]
  | cons d rest =>
      by_cases hslash : c = '/'
      · subst hslash
        by_cases hline : d = '/'
        · subst hline
          simp [Region.opensComment]
        · by_cases hblock : d = '*'
          · subst hblock
            cases hend : indexOf? ['*', '/'] rest <;> simp [Region.opensComment, hend]
          · simp [Region.opensComment, hline, hblock]
      · simp [Region.opensComment, hslash]

/-- A regular expression has so many characters to come at each of its offsets. -/
theorem regionsAt_of_regex (hb : regionsAt t i = []) (hc : t[i]? = some '/')
    (hcomment : commentEnd? t i = none) (he : regexEnd? t i = some e) :
    i < e ∧ e < t.length ∧ (∀ k, i < k → k ≤ e → regionsAt t k = [.regex (e + 1 - k)]) ∧
      regionsAt t (e + 1) = [] := by
  rw [regexEnd?] at he
  split at he
  · rename_i hoperand
    obtain ⟨n, hn, rfl⟩ := Option.map_eq_some_iff.mp he
    have hpos : 0 < n := regexLength?_pos hn
    have hlt : i + n < t.length := by
      have hle := regexLength?_le hn
      have hi : i < t.length := (List.getElem?_eq_some_iff.mp hc).1
      rw [List.length_drop] at hle
      omega
    have hregions : ∀ k, i < k → k ≤ i + n → regionsAt t k = [.regex (i + n + 1 - k)] := by
      intro k hk hkn
      obtain ⟨d, rfl⟩ := Nat.exists_eq_add_of_lt hk
      induction d with
      | zero =>
          rw [Nat.add_zero, regionsAt_succ_of_nil hb hc, Region.opened?_slash_of_length
            ((commentEnd?_eq_none_iff hc).mp hcomment) hn, if_pos hoperand]
          have hleft : i + n + 1 - (i + 1) = n := by omega
          rw [hleft]
          rfl
      | succ d ih =>
          have hck : t[i + d + 1]? = some t[i + d + 1] := List.getElem?_eq_getElem (by omega)
          have hleft : ¬ i + n + 1 - (i + d + 1) ≤ 1 := by omega
          have hnext : i + n + 1 - (i + d + 1) - 1 = i + n + 1 - (i + (d + 1) + 1) := by omega
          rw [← Nat.add_assoc i d 1, regionsAt_succ hck, ih (by omega) (by omega), Region.step,
            if_neg hleft, hnext]
          rfl
    have hlast : t[i + n]? = some t[i + n] := List.getElem?_eq_getElem hlt
    refine ⟨by omega, hlt, hregions, ?_⟩
    rw [regionsAt_succ hlast, hregions (i + n) (by omega) (Nat.le_refl _), Region.step,
      if_pos (by omega)]
  · cases he

/-- A regular expression gives the roles of a literal. -/
theorem literalSpan_of_regex (hb : regionsAt t i = []) (hc : t[i]? = some '/')
    (hcomment : commentEnd? t i = none) (he : regexEnd? t i = some e) : LiteralSpan t i e := by
  obtain ⟨hlt, hle, hregions, hout⟩ := regionsAt_of_regex hb hc hcomment he
  refine ⟨hlt, Nat.le_of_lt hle, fun k hk hke => ?_, fun _ => hout, ?_, fun k hk hke => ?_,
    fun _ => ?_⟩
  · rw [hregions k hk hke]
    exact List.cons_ne_nil _ _
  · rw [roleAt, hb, hregions (i + 1) (by omega) (by omega)]
    rfl
  · rw [roleAt, hregions k hk (by omega), hregions (k + 1) (by omega) (by omega)]
    rfl
  · rw [roleAt, hregions e hlt (Nat.le_refl _), hout]
    rfl

/-- How the regions of a comment go on from an offset to the comment's last character. -/
structure CommentRest (t : List Char) (j e : Nat) : Prop where
  le : j ≤ e
  lt_length : e < t.length
  inside : ∀ k, j ≤ k → k ≤ e → ∃ region, regionsAt t k = [region] ∧ region.isComment = true
  left : e + 1 < t.length → regionsAt t (e + 1) = []

theorem CommentRest.cons {region : Region} (hregion : region.isComment = true)
    (hb : regionsAt t j = [region]) (h : CommentRest t (j + 1) e) : CommentRest t j e := by
  obtain ⟨hle, hlt, hin, hout⟩ := h
  refine ⟨by omega, hlt, fun k hk hke => ?_, hout⟩
  by_cases hkj : k = j
  · exact ⟨region, hkj ▸ hb, hregion⟩
  · exact hin k (by omega) hke

theorem CommentRest.last {region : Region} (hregion : region.isComment = true)
    (hb : regionsAt t j = [region]) (hj : j < t.length)
    (hout : j + 1 < t.length → regionsAt t (j + 1) = []) : CommentRest t j j := by
  refine ⟨Nat.le_refl j, hj, fun k hk hkj => ⟨region, ?_, hregion⟩, hout⟩
  rw [Nat.le_antisymm hkj hk, hb]

theorem getElem?_of_drop {d : Char} {rest : List Char} (h : t.drop j = d :: rest) :
    t[j]? = some d ∧ t.drop (j + 1) = rest := by
  constructor
  · have hhead := congrArg List.head? h
    rwa [List.head?_drop] at hhead
  · have htail := congrArg List.tail h
    rwa [List.tail_drop] at htail

/-- A comment to the end of its line goes on up to the line feed. -/
theorem commentRest_line {d : Char} {rest : List Char} (hb : regionsAt t j = [.lineComment])
    (h : t.drop j = d :: rest) :
    CommentRest t j (j + (rest.takeWhile (· != '\n')).length) := by
  induction rest generalizing j d with
  | nil =>
      obtain ⟨hd, hrest⟩ := getElem?_of_drop h
      have hlast : t.length ≤ j + 1 := List.drop_eq_nil_iff.mp hrest
      exact .last rfl hb (List.getElem?_eq_some_iff.mp hd).1 fun hlt => absurd hlt (by omega)
  | cons next rest ih =>
      obtain ⟨hd, hrest⟩ := getElem?_of_drop h
      have hstep := regionsAt_succ hd
      rw [hb, hrest] at hstep
      by_cases hn : next = '\n'
      · subst hn
        exact .last rfl hb (List.getElem?_eq_some_iff.mp hd).1 fun _ => hstep
      · have hnext : regionsAt t (j + 1) = [.lineComment] := by
          simpa [Region.step, hn] using hstep
        have htake : ((next :: rest).takeWhile (· != '\n')).length =
            1 + (rest.takeWhile (· != '\n')).length := by
          simp [hn, Nat.add_comm]
        rw [htake, ← Nat.add_assoc]
        exact .cons rfl hb (ih hnext hrest)

theorem isSome_after?_blockEnd (d : Char) (rest : List Char) :
    (after? ['*', '/'] (d :: rest)).isSome = (d == '*' && rest.head? == some '/') := by
  by_cases hd : d = '*'
  · subst hd
    cases rest with
    | nil => rfl
    | cons next rest =>
        by_cases hn : next = '/'
        · subst hn
          rfl
        · simp [after?, hn, Ne.symm hn]
  · simp [after?, hd, Ne.symm hd]

/-- The offset of the last character of a comment whose inside starts at an offset. -/
def blockEnd (t : List Char) (j : Nat) : Nat :=
  match indexOf? ['*', '/'] (t.drop j) with
  | some d => j + d + 1
  | none => t.length - 1

theorem blockEnd_of_closing {d : Char} {rest : List Char} (h : t.drop j = d :: rest)
    (hclose : (d == '*' && rest.head? == some '/') = true) : blockEnd t j = j + 1 := by
  rw [blockEnd, h, indexOf?, isSome_after?_blockEnd, if_pos hclose]

theorem blockEnd_succ {d : Char} {rest : List Char} (h : t.drop j = d :: rest)
    (hclose : (d == '*' && rest.head? == some '/') = false) :
    blockEnd t j = blockEnd t (j + 1) := by
  have hneg : ¬ (d == '*' && rest.head? == some '/') = true := by simp [hclose]
  rw [blockEnd, h, indexOf?, isSome_after?_blockEnd, if_neg hneg, blockEnd,
    (getElem?_of_drop h).2]
  cases indexOf? ['*', '/'] rest with
  | none => rfl
  | some distance =>
      have hoffset : j + (distance + 1) + 1 = j + 1 + distance + 1 := by omega
      exact hoffset

/-- The inside of a comment goes on up to the closing slash, or to the end of the text. -/
theorem commentRest_block {d : Char} {rest : List Char} (hb : regionsAt t j = [.blockComment])
    (h : t.drop j = d :: rest) : CommentRest t j (blockEnd t j) := by
  induction rest generalizing j d with
  | nil =>
      obtain ⟨hd, hrest⟩ := getElem?_of_drop h
      have hj : j < t.length := (List.getElem?_eq_some_iff.mp hd).1
      have hlast : t.length ≤ j + 1 := List.drop_eq_nil_iff.mp hrest
      have hend : blockEnd t j = j := by
        rw [blockEnd_succ h (by simp), blockEnd, hrest]
        exact (by omega : t.length - 1 = j)
      rw [hend]
      exact .last rfl hb hj fun hlt => absurd hlt (by omega)
  | cons next rest ih =>
      obtain ⟨hd, hrest⟩ := getElem?_of_drop h
      have hstep := regionsAt_succ hd
      rw [hb, hrest, Region.step] at hstep
      cases hclose : d == '*' && (next :: rest).head? == some '/' with
      | true =>
          have hclosing : regionsAt t (j + 1) = [.blockClosing] := by
            simpa using hstep.trans (if_pos (by simpa using hclose))
          obtain ⟨hnext, -⟩ := getElem?_of_drop hrest
          have hout : regionsAt t (j + 1 + 1) = [] := by
            rw [regionsAt_succ hnext, hclosing, Region.step]
          rw [blockEnd_of_closing h hclose]
          exact .cons rfl hb
            (.last rfl hclosing (List.getElem?_eq_some_iff.mp hnext).1 fun _ => hout)
      | false =>
          have hnext : regionsAt t (j + 1) = [.blockComment] :=
            hstep.trans (if_neg (by simpa using hclose))
          rw [blockEnd_succ h hclose]
          exact .cons rfl hb (ih hnext hrest)

theorem commentRest_of_commentEnd? (hb : regionsAt t i = []) (he : commentEnd? t i = some e) :
    CommentRest t (i + 1) e := by
  rw [commentEnd?] at he
  split at he
  · rename_i rest h
    obtain ⟨hc, hrest⟩ := getElem?_of_drop h
    obtain rfl := Option.some.inj he
    have hnext : regionsAt t (i + 1) = [.lineComment] := by
      rw [regionsAt_succ_of_nil hb hc, hrest]
      rfl
    exact commentRest_line hnext hrest
  · rename_i rest h
    obtain ⟨hc, hrest⟩ := getElem?_of_drop h
    obtain ⟨hstar, hinside⟩ := getElem?_of_drop hrest
    have hopening : regionsAt t (i + 1) = [.blockOpening] := by
      rw [regionsAt_succ_of_nil hb hc, hrest]
      rfl
    have hnext : regionsAt t (i + 1 + 1) = [.blockComment] := by
      rw [regionsAt_succ hstar, hopening, Region.step]
    have hlt : i + 1 < t.length := (List.getElem?_eq_some_iff.mp hstar).1
    have hend : e = blockEnd t (i + 1 + 1) := by
      rw [blockEnd, hinside]
      cases hindex : indexOf? ['*', '/'] rest with
      | some distance =>
          rw [hindex] at he
          exact (Option.some.inj he).symm
      | none =>
          rw [hindex] at he
          exact (Option.some.inj he).symm
    rw [hend]
    cases rest with
    | nil =>
        have hlast : t.length ≤ i + 1 + 1 := List.drop_eq_nil_iff.mp hinside
        have hsame : blockEnd t (i + 1 + 1) = i + 1 := by
          rw [blockEnd, hinside]
          exact (by omega : t.length - 1 = i + 1)
        rw [hsame]
        exact .last rfl hopening hlt fun h => absurd h (by omega)
    | cons d rest => exact .cons rfl hopening (commentRest_block hnext hinside)
  · cases he

/-- A comment gives the role of a comment to all its characters. -/
theorem commentSpan_of_commentEnd? (hb : regionsAt t i = []) (he : commentEnd? t i = some e) :
    CommentSpan t i e := by
  obtain ⟨hle, hlt, hin, hout⟩ := commentRest_of_commentEnd? hb he
  refine ⟨hle, hlt, fun k hk hke => ?_, hout, fun k hk hke => ?_⟩
  · obtain ⟨region, hregion, -⟩ := hin k hk hke
    rw [hregion]
    exact List.cons_ne_nil _ _
  · by_cases hki : k = i
    · obtain ⟨region, hregion, hcomment⟩ := hin (i + 1) (Nat.le_refl _) hle
      rw [hki, roleAt, hb, hregion]
      exact if_pos hcomment
    · obtain ⟨region, hregion, hcomment⟩ := hin k (by omega) hke
      rw [roleAt, hregion]
      exact Region.between_comment hcomment _

end

end PluginContract.Script
