import PluginContract.Text.Utf8

/-!
# Encoded text is decoded

Every character is the head of its own bytes, whatever follows them, so strict decoding
takes the bytes of a text back to the text.
-/

namespace PluginContract.Text.Utf8

theorem toNat_byte {n : Nat} (h : n < 256) : (byte n).toNat = n := by
  rw [byte, UInt8.toNat_ofNat']
  exact Nat.mod_eq_of_lt h

/-- The code of a character is below the end of the code space and no surrogate. -/
theorem toNat_bounds (c : Char) : c.toNat < 0xD800 ∨ 0xDFFF < c.toNat ∧ c.toNat < 0x110000 :=
  c.valid

theorem continues_byte {n : Nat} (hlow : 0x80 ≤ n) (hhigh : n < 0xC0) :
    continues (byte n) = true := by
  rw [continues, toNat_byte (by omega)]
  simp [hlow, hhigh]

theorem tail_byte {n : Nat} (h : n < 0x40) : tail (byte (0x80 + n)) = n := by
  have hb : (byte (0x80 + n)).toNat = 0x80 + n := toNat_byte (by omega)
  unfold tail
  omega

theorem isSecond_byte {f s : Nat} (hf : f < 256) (hlow : 0x80 ≤ s) (hhigh : s < 0xC0)
    (h : (f = 0xE0 → 0xA0 ≤ s) ∧ (f = 0xED → s < 0xA0) ∧ (f = 0xF0 → 0x90 ≤ s) ∧
      (f = 0xF4 → s < 0x90)) : isSecond (byte f) (byte s) = true := by
  obtain ⟨h₁, h₂, h₃, h₄⟩ := h
  have hs : s < 256 := Nat.lt_trans hhigh (by decide)
  simp only [isSecond, continues_byte hlow hhigh, toNat_byte hf, toNat_byte hs, Bool.true_and,
    Bool.and_eq_true, Bool.or_eq_true, bne_iff_ne, decide_eq_true_eq]
  refine ⟨⟨⟨?_, ?_⟩, ?_⟩, ?_⟩
  all_goals omega

/-- A character is the head of its own bytes. -/
theorem head_encodeChar (c : Char) :
    ∃ first more, encodeChar c = first :: more ∧
      ∀ rest, head first (more ++ rest) = .char c (more.length + 1) := by
  have hbounds := toNat_bounds c
  have hchar {n : Nat} (h : n = c.toNat) : Char.ofNat n = c := by
    rw [h, Char.ofNat_toNat]
  simp only [encodeChar]
  split
  · rename_i hascii
    refine ⟨_, [], rfl, fun rest => ?_⟩
    have hfirst : (byte c.toNat).toNat = c.toNat := toNat_byte (by omega)
    simp only [head, hfirst, if_pos hascii, hchar rfl, List.length_nil]
  split
  · rename_i hlow hhigh
    refine ⟨_, [_], rfl, fun rest => ?_⟩
    have hfirst := toNat_byte (n := 0xC0 + c.toNat / 0x40) (by omega)
    have hsecond := isSecond_byte (f := 0xC0 + c.toNat / 0x40) (s := 0x80 + c.toNat % 0x40)
      (by omega) (by omega) (by omega) (by omega)
    have htail := tail_byte (n := c.toNat % 0x40) (by omega)
    simp only [head, hfirst, List.cons_append, hsecond, htail, Bool.not_true, Bool.false_eq_true,
      if_false]
    rw [if_neg (by omega), if_neg (by omega), if_pos (by omega), if_pos (by omega),
      hchar (by omega)]
    rfl
  split
  · rename_i hlow hhigh
    refine ⟨_, [_, _], rfl, fun rest => ?_⟩
    have hfirst := toNat_byte (n := 0xE0 + c.toNat / 0x1000) (by omega)
    have hsecond := isSecond_byte (f := 0xE0 + c.toNat / 0x1000)
      (s := 0x80 + c.toNat / 0x40 % 0x40) (by omega) (by omega) (by omega) (by omega)
    have hthird := continues_byte (n := 0x80 + c.toNat % 0x40) (by omega) (by omega)
    have htail := tail_byte (n := c.toNat / 0x40 % 0x40) (by omega)
    have htail' := tail_byte (n := c.toNat % 0x40) (by omega)
    simp only [head, hfirst, List.cons_append, hsecond, hthird, htail, htail', Bool.not_true,
      Bool.false_eq_true, if_false]
    rw [if_neg (by omega), if_neg (by omega), if_pos (by omega), if_neg (by omega),
      if_pos (by omega), hchar (by omega)]
    rfl
  · refine ⟨_, [_, _, _], rfl, fun rest => ?_⟩
    have hfirst := toNat_byte (n := 0xF0 + c.toNat / 0x40000) (by omega)
    have hsecond := isSecond_byte (f := 0xF0 + c.toNat / 0x40000)
      (s := 0x80 + c.toNat / 0x1000 % 0x40) (by omega) (by omega) (by omega) (by omega)
    have hthird := continues_byte (n := 0x80 + c.toNat / 0x40 % 0x40) (by omega) (by omega)
    have hfourth := continues_byte (n := 0x80 + c.toNat % 0x40) (by omega) (by omega)
    have htail := tail_byte (n := c.toNat / 0x1000 % 0x40) (by omega)
    have htail' := tail_byte (n := c.toNat / 0x40 % 0x40) (by omega)
    have htail'' := tail_byte (n := c.toNat % 0x40) (by omega)
    simp only [head, hfirst, List.cons_append, hsecond, hthird, hfourth, htail, htail', htail'',
      Bool.not_true, Bool.false_eq_true, if_false]
    rw [if_neg (by omega), if_neg (by omega), if_pos (by omega), if_neg (by omega),
      if_neg (by omega), hchar (by omega)]
    rfl

/-- The bytes that a character takes are passed over. -/
theorem decodeFrom_skip (offset : Nat) (passed rest : Bytes) :
    decodeFrom offset passed.length (passed ++ rest) =
      decodeFrom (offset + passed.length) 0 rest := by
  induction passed generalizing offset with
  | nil => rfl
  | cons b passed ih =>
      rw [List.length_cons, List.cons_append, decodeFrom, ih]
      congr 1
      omega

theorem decodeFrom_encode (offset : Nat) (t : List Char) :
    decodeFrom offset 0 (encode t) = .ok t := by
  induction t generalizing offset with
  | nil => rfl
  | cons c t ih =>
      obtain ⟨first, more, hbytes, hhead⟩ := head_encodeChar c
      have hencode : encode (c :: t) = first :: (more ++ encode t) := by
        rw [encode, List.flatMap_cons, hbytes, List.cons_append]
        rfl
      rw [hencode, decodeFrom, hhead]
      dsimp only
      rw [Nat.add_sub_cancel, decodeFrom_skip, ih]
      rfl

/-- Strict decoding takes the bytes of a text back to the text. -/
theorem decode_encode (t : List Char) : decode (encode t) = .ok t := decodeFrom_encode 0 t

end PluginContract.Text.Utf8
