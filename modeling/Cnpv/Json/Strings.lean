import Cnpv.Json.Grammar
import Mathlib.Data.Nat.Bitwise

/-!
# The strings of the JSON parser

`scanString` gives the UTF-8 of every string of standard JSON (`scanString_spelled`): each character
can stand for itself, as an escape of one letter, or with the hexadecimal digits of its UTF-16.

A character behind the first plane has two `\u`, and `json.c` puts `0x10000` and the bits of these two
together with `|` where it has to add. So it reads the characters of the odd planes, and for one of an
even plane it reads the character `0x10000` before it (`unicode_pair_iff`).
-/

namespace Cnpv

open CLib

namespace Json

/-! ## UTF-8 -/

section Utf8

variable {u v : UInt32} {c : Char}

/-- A byte whose mark is above the bits of the character. -/
theorem byte_eq {mark x : UInt32} {m : Nat} (hmark : ∀ k < m, mark.toNat ||| k = mark.toNat + k)
    (hx : x.toNat < m) : byte mark x = UInt8.ofNat (x.toNat % m + mark.toNat) := by
  refine UInt8.toNat_inj.mp ?_
  rw [byte, UInt32.toNat_toUInt8, UInt32.toNat_or, hmark _ hx, UInt8.toNat_ofNat',
    Nat.mod_eq_of_lt hx, Nat.add_comm]

theorem toNat_shift6 (u : UInt32) : (u >>> 6).toNat = u.toNat / 64 :=
  Nat.shiftRight_eq_div_pow u.toNat 6

theorem toNat_shift12 (u : UInt32) : (u >>> 12).toNat = u.toNat / 4096 :=
  Nat.shiftRight_eq_div_pow u.toNat 12

theorem toNat_shift18 (u : UInt32) : (u >>> 18).toNat = u.toNat / 262144 :=
  Nat.shiftRight_eq_div_pow u.toNat 18

/-- The bytes after the first one. -/
theorem byte_tail (u : UInt32) : byte 0x80 (u &&& 0x3F) = UInt8.ofNat (u.toNat % 64 + 0x80) := by
  have hand : (u &&& 0x3F).toNat = u.toNat % 64 := Nat.and_two_pow_sub_one_eq_mod u.toNat 6
  have hlt : u.toNat % 64 < 64 := Nat.mod_lt _ (by decide)
  have hmark : ∀ k < 64, (0x80 : UInt32).toNat ||| k = (0x80 : UInt32).toNat + k := by decide
  rw [byte_eq hmark (hand ▸ hlt), hand, Nat.mod_mod]
  rfl

/-- **The bytes for a character** are its UTF-8. -/
theorem utf8_eq (c : Char) : utf8 c.val = String.utf8EncodeChar c := by
  have hvalid : c.val.toNat < 0x110000 := by
    rcases c.valid with h | h
    · exact h.trans (by decide)
    · exact h.2
  have htail6 := byte_tail (c.val >>> 6)
  have htail12 := byte_tail (c.val >>> 12)
  rw [toNat_shift6] at htail6
  rw [toNat_shift12] at htail12
  have hle1 : c.val ≤ 0x7F ↔ c.val.toNat ≤ 0x7F := UInt32.le_iff_toNat_le
  have hle2 : c.val ≤ 0x7FF ↔ c.val.toNat ≤ 0x7FF := UInt32.le_iff_toNat_le
  have hle3 : c.val ≤ 0xFFFF ↔ c.val.toNat ≤ 0xFFFF := UInt32.le_iff_toNat_le
  simp only [utf8, String.utf8EncodeChar, hle1, hle2, hle3]
  split_ifs with h1 h2 h3
  · refine congrArg (fun b => [b]) (UInt8.toNat_inj.mp ?_)
    rw [UInt32.toNat_toUInt8, UInt8.toNat_ofNat']
  · have hmark : ∀ k < 32, (0xC0 : UInt32).toNat ||| k = (0xC0 : UInt32).toNat + k := by decide
    rw [byte_eq hmark (by rw [toNat_shift6]; omega), toNat_shift6, byte_tail]
    rfl
  · have hmark : ∀ k < 16, (0xE0 : UInt32).toNat ||| k = (0xE0 : UInt32).toNat + k := by decide
    rw [byte_eq hmark (by rw [toNat_shift12]; omega), toNat_shift12, htail6, byte_tail]
    rfl
  · have hmark : ∀ k < 8, (0xF0 : UInt32).toNat ||| k = (0xF0 : UInt32).toNat + k := by decide
    rw [byte_eq hmark (by rw [toNat_shift18]; omega), toNat_shift18, htail12, htail6,
      byte_tail]
    rfl

end Utf8

/-! ## Hexadecimal digits -/

section Hex

variable {c c₁ c₂ c₃ c₄ : UInt8} {n m : Nat} {s s' r : List UInt8}

/-- A hexadecimal digit, in one of its two cases. -/
def IsHex (k : Nat) (c : UInt8) : Prop :=
  k < 16 ∧ (c = k.digitChar.toUInt8 ∨ c = k.digitChar.toUpper.toUInt8)

/-- The number with four hexadecimal digits. -/
inductive Hex : Nat → List UInt8 → Prop
  | mk {c₁ c₂ c₃ c₄ : UInt8} {k₁ k₂ k₃ k₄ : Nat} (h₁ : IsHex k₁ c₁) (h₂ : IsHex k₂ c₂)
    (h₃ : IsHex k₃ c₃) (h₄ : IsHex k₄ c₄) :
    Hex (k₁ * 4096 + k₂ * 256 + k₃ * 16 + k₄) [c₁, c₂, c₃, c₄]

theorem hexValue_eq {k : Nat} (h : IsHex k c) : hexValue c = UInt8.ofNat k := by
  obtain ⟨hlt, hc⟩ := h
  have hall : ∀ k < 16, hexValue k.digitChar.toUInt8 = UInt8.ofNat k ∧
      hexValue k.digitChar.toUpper.toUInt8 = UInt8.ofNat k := by decide
  rcases hc with rfl | rfl
  · exact (hall k hlt).1
  · exact (hall k hlt).2

theorem Hex.lt (h : Hex n s) : n < 2 ^ 16 := by
  cases h with
  | mk h₁ h₂ h₃ h₄ =>
    have := h₁.1
    have := h₂.1
    have := h₃.1
    have := h₄.1
    omega

theorem Hex.length (h : Hex n s) : s.length = 4 := by
  cases h
  rfl

/-- Two digits in a byte. -/
theorem hex2_eq {k₁ k₂ : Nat} (h₁ : k₁ < 16) (h₂ : k₂ < 16) :
    (UInt8.ofNat k₁ <<< 4) ||| UInt8.ofNat k₂ = UInt8.ofNat (k₁ * 16 + k₂) := by
  have hall : ∀ k₁ < 16, ∀ k₂ < 16,
      (UInt8.ofNat k₁ <<< 4) ||| UInt8.ofNat k₂ = UInt8.ofNat (k₁ * 16 + k₂) := by decide
  exact hall k₁ h₁ k₂ h₂

theorem hex4_eq (h : Hex n s) (r : List UInt8) : hex4 (s ++ r) = some (UInt32.ofNat n) := by
  cases h with
  | @mk c₁ c₂ c₃ c₄ k₁ k₂ k₃ k₄ h₁ h₂ h₃ h₄ =>
    have hne : ∀ {k : Nat}, k < 16 → UInt8.ofNat k ≠ 0xFF := by decide
    show (if _ then none else some _) = _
    rw [hexValue_eq h₁, hexValue_eq h₂, hexValue_eq h₃, hexValue_eq h₄,
      if_neg (by simp [hne h₁.1, hne h₂.1, hne h₃.1, hne h₄.1])]
    simp only [hex2_eq h₁.1 h₂.1, hex2_eq h₃.1 h₄.1]
    refine congrArg some (UInt32.toNat_inj.mp ?_)
    have h₁ := h₁.1
    have h₂ := h₂.1
    have h₃ := h₃.1
    have h₄ := h₄.1
    have hhigh : k₁ * 16 + k₂ < 256 := by omega
    have hlow : k₃ * 16 + k₄ < 2 ^ 8 := by omega
    have hor := Nat.shiftLeft_add_eq_or_of_lt hlow (k₁ * 16 + k₂)
    rw [UInt32.toNat_or, UInt32.toNat_shiftLeft, UInt8.toNat_toUInt32, UInt8.toNat_toUInt32,
      UInt8.toNat_ofNat', UInt8.toNat_ofNat', UInt32.toNat_ofNat', Nat.mod_eq_of_lt hhigh,
      Nat.mod_eq_of_lt hlow]
    show (k₁ * 16 + k₂) <<< 8 % 2 ^ 32 ||| (k₃ * 16 + k₄) = _
    rw [Nat.mod_eq_of_lt (by rw [Nat.shiftLeft_eq]; omega), ← hor, Nat.shiftLeft_eq]
    omega

end Hex

/-! ## `\u` -/

section Unicode

variable {c : Char} {n m : Nat} {s s' : List UInt8}

/-- The bits that tell a surrogate. -/
theorem and_F800 (h : n < 2 ^ 16) : n &&& 0xF800 = n / 2048 * 2048 := by
  have hshift : ∀ k, n &&& k <<< 11 = (n >>> 11 &&& k) <<< 11 := by
    intro k
    refine Nat.eq_of_testBit_eq fun i => ?_
    by_cases hi : 11 ≤ i
    · simp [Nat.testBit_shiftRight, hi]
    · simp [hi]
  rw [show 0xF800 = 31 <<< 11 from rfl, hshift, Nat.and_two_pow_sub_one_eq_mod _ 5,
    Nat.shiftRight_eq_div_pow, Nat.shiftLeft_eq]
  omega

theorem surrogate_iff (h : n < 2 ^ 16) :
    UInt32.ofNat n &&& 0xF800 = 0xD800 ↔ 0xD800 ≤ n ∧ n < 0xE000 := by
  have hn : (UInt32.ofNat n).toNat = n := by
    rw [UInt32.toNat_ofNat']
    omega
  rw [← UInt32.toNat_inj, UInt32.toNat_and, hn]
  show n &&& 0xF800 = 0xD800 ↔ _
  rw [and_F800 h]
  omega

/-- **A character of the first plane.** -/
theorem unicode_eq (h : Hex c.val.toNat s) (r : List UInt8) :
    unicode (s ++ r) = some (String.utf8EncodeChar c, 4) := by
  have hlt : c.val.toNat < 2 ^ 16 := h.lt
  have hno : ¬ (UInt32.ofNat c.val.toNat &&& 0xF800 = 0xD800) := by
    rw [surrogate_iff hlt]
    rcases c.valid with h | h
    · have : c.val.toNat < 0xD800 := h
      omega
    · have : 0xDFFF < c.val.toNat := h.1
      omega
  rw [unicode, hex4_eq h, Option.bind_some, if_neg hno, UInt32.ofNat_toNat, utf8_eq]

/-- The bit of `0x10000`, and twenty bits. -/
theorem or_10000 (h : m < 2 ^ 20) :
    0x10000 ||| m = if m / 0x10000 % 2 = 0 then m + 0x10000 else m := by
  have hall : ∀ q < 16, 1 ||| q = if q % 2 = 0 then q + 1 else q := by decide
  have hlow : m % 2 ^ 16 < 2 ^ 16 := Nat.mod_lt _ (by decide)
  have hm : m = (m / 2 ^ 16) <<< 16 ||| m % 2 ^ 16 := by
    rw [← Nat.shiftLeft_add_eq_or_of_lt hlow, Nat.shiftLeft_eq]
    omega
  have hor : 0x10000 ||| m = (1 ||| m / 2 ^ 16) <<< 16 ||| m % 2 ^ 16 := by
    conv_lhs => rw [hm]
    rw [Nat.shiftLeft_or_distrib, Nat.or_assoc]
    rfl
  rw [hor, ← Nat.shiftLeft_add_eq_or_of_lt hlow, Nat.shiftLeft_eq, hall _ (by omega)]
  split_ifs <;> omega

/-- The UTF-16 of a character behind the first plane. -/
structure Pair (c : Char) (s s' : List UInt8) : Prop where
  plane : 0x10000 ≤ c.val.toNat
  high : Hex (0xD800 + (c.val.toNat - 0x10000) / 0x400) s
  low : Hex (0xDC00 + (c.val.toNat - 0x10000) % 0x400) s'

theorem Pair.eq (h : Pair c s s') (r : List UInt8) :
    unicode (s ++ ('\\'.toUInt8 :: 'u'.toUInt8 :: s' ++ r)) =
      some (utf8 (UInt32.ofNat (0x10000 ||| (c.val.toNat - 0x10000))), 10) := by
  have hc : c.val.toNat < 0x110000 := by
    rcases c.valid with h | h
    · exact h.trans (by decide)
    · exact h.2
  have hhigh := h.high
  have hlow := h.low
  have hplane := h.plane
  generalize hm : c.val.toNat - 0x10000 = m at *
  have hyes : UInt32.ofNat (0xD800 + m / 0x400) &&& 0xF800 = 0xD800 := by
    rw [surrogate_iff (by omega)]
    omega
  have hdrop : (s ++ ('\\'.toUInt8 :: 'u'.toUInt8 :: s' ++ r)).drop 4 =
      '\\'.toUInt8 :: 'u'.toUInt8 :: s' ++ r := by
    rw [← hhigh.length, List.drop_left]
  have hdrop' : (s ++ ('\\'.toUInt8 :: 'u'.toUInt8 :: s' ++ r)).drop 6 = s' ++ r := by
    rw [← List.drop_drop (i := 2) (j := 4), hdrop]
    rfl
  rw [unicode, hex4_eq hhigh, Option.bind_some, if_pos hyes, hdrop, hdrop', hex4_eq hlow]
  refine congrArg (fun u => some (utf8 u, 10)) (UInt32.toNat_inj.mp ?_)
  have hand : ∀ x < 2 ^ 16, (UInt32.ofNat x &&& 0x3FF).toNat = x % 0x400 := by
    intro x hx
    rw [UInt32.toNat_and, UInt32.toNat_ofNat', Nat.mod_eq_of_lt (by omega)]
    exact Nat.and_two_pow_sub_one_eq_mod x 10
  have hbits : (m / 0x400) <<< 10 ||| m % 0x400 = m := by
    rw [← Nat.shiftLeft_add_eq_or_of_lt (show m % 0x400 < 2 ^ 10 from Nat.mod_lt _ (by decide)),
      Nat.shiftLeft_eq]
    omega
  have hor : 0x10000 ||| m < 2 ^ 32 := by
    rw [or_10000 (by omega)]
    split_ifs <;> omega
  rw [UInt32.toNat_or, UInt32.toNat_or, UInt32.toNat_shiftLeft, hand _ (by omega), hand _ (by omega),
    UInt32.toNat_ofNat', Nat.mod_eq_of_lt hor,
    show (0xD800 + m / 0x400) % 0x400 = m / 0x400 by omega,
    show (0xDC00 + m % 0x400) % 0x400 = m % 0x400 by omega]
  show (0x10000 ||| (m / 0x400) <<< 10 % 2 ^ 32) ||| m % 0x400 = _
  rw [Nat.mod_eq_of_lt (by rw [Nat.shiftLeft_eq]; omega), Nat.or_assoc, hbits]

theorem Pair.lt (h : Pair c s s') : 0x10000 ≤ c.val.toNat ∧ c.val.toNat < 0x110000 :=
  ⟨h.plane, c.valid.elim (fun h => h.trans (by decide)) And.right⟩

/-- On an odd plane the sixteenth bit is set before and after. -/
theorem Pair.odd (h : Pair c s s') (hodd : c.val.toNat / 0x10000 % 2 = 1) (r : List UInt8) :
    unicode (s ++ ('\\'.toUInt8 :: 'u'.toUInt8 :: s' ++ r)) =
      some (String.utf8EncodeChar c, 10) := by
  have hc := h.lt
  rw [h.eq, or_10000 (by omega), if_pos (by omega),
    show c.val.toNat - 0x10000 + 0x10000 = c.val.toNat by omega, UInt32.ofNat_toNat, utf8_eq]

/-- **A character behind the first plane** is read as it is if its plane is odd. -/
theorem unicode_pair_iff (h : Pair c s s') (r : List UInt8) :
    unicode (s ++ ('\\'.toUInt8 :: 'u'.toUInt8 :: s' ++ r)) = some (String.utf8EncodeChar c, 10) ↔
      c.val.toNat / 0x10000 % 2 = 1 := by
  refine ⟨fun heq => ?_, fun hodd => h.odd hodd r⟩
  have hc := h.lt
  rw [h.eq, or_10000 (by omega), Option.some.injEq, Prod.mk.injEq, and_iff_left rfl] at heq
  by_contra hodd
  -- The character `0x10000` before has the same bytes.
  rw [if_neg (by omega)] at heq
  have hm : (UInt32.ofNat (c.val.toNat - 0x10000)).toNat = c.val.toNat - 0x10000 := by
    rw [UInt32.toNat_ofNat']
    omega
  have hvalid : (UInt32.ofNat (c.val.toNat - 0x10000)).isValidChar := by
    refine .inr ⟨?_, ?_⟩
    · rw [hm]
      omega
    · rw [hm]
      omega
  have hbytes : String.utf8EncodeChar ⟨_, hvalid⟩ = String.utf8EncodeChar c :=
    (utf8_eq ⟨_, hvalid⟩).symm.trans heq
  have hdecode := ByteArray.utf8DecodeChar?_utf8EncodeChar_append (b := .empty) (c := c)
  rw [← hbytes, ByteArray.utf8DecodeChar?_utf8EncodeChar_append] at hdecode
  have hval := congrArg (fun c : Char => c.val.toNat) (Option.some.inj hdecode)
  have hval : (UInt32.ofNat (c.val.toNat - 0x10000)).toNat = c.val.toNat := hval
  omega

/-- `U+20000` is not read as it is. -/
theorem unicode_pair_iff_fails : unicode (text ['d', '8', '4', '0', '\\', 'u', 'd', 'c', '0', '0']) ≠
    some (String.utf8EncodeChar (Char.ofNat 0x20000), 10) := by
  have hpair : Pair (Char.ofNat 0x20000) (text ['d', '8', '4', '0']) (text ['d', 'c', '0', '0']) :=
    ⟨by decide,
      @Hex.mk _ _ _ _ 13 8 4 0 ⟨by decide, .inl rfl⟩ ⟨by decide, .inl rfl⟩ ⟨by decide, .inl rfl⟩
        ⟨by decide, .inl rfl⟩,
      @Hex.mk _ _ _ _ 13 12 0 0 ⟨by decide, .inl rfl⟩ ⟨by decide, .inl rfl⟩ ⟨by decide, .inl rfl⟩
        ⟨by decide, .inl rfl⟩⟩
  exact fun h => absurd ((unicode_pair_iff hpair []).mp h) (by decide)

end Unicode

/-! ## Strings -/

section Strings

variable {c : Char} {w s r : List UInt8} {len : Nat}

/-- What the escapes of one letter stand for. -/
def letters : List (UInt8 × UInt8) :=
  [('b'.toUInt8, 8), ('f'.toUInt8, 12), ('n'.toUInt8, 10), ('r'.toUInt8, 13), ('t'.toUInt8, 9),
    ('\"'.toUInt8, '\"'.toUInt8), ('\\'.toUInt8, '\\'.toUInt8), ('/'.toUInt8, '/'.toUInt8)]

/-- The ways to write a character, but for those of `unicode_pair_iff` that the parser has wrong. -/
inductive Spelling : Char → List UInt8 → Prop
  | plain {c : Char} (hnul : c.val ≠ 0) (hquote : c ≠ '\"') (hslash : c ≠ '\\') :
    Spelling c (String.utf8EncodeChar c)
  | letter {c : Char} {e : UInt8 × UInt8} (he : e ∈ letters) (hc : c.val = e.2.toUInt32) :
    Spelling c ['\\'.toUInt8, e.1]
  | unicode {c : Char} {s : List UInt8} (h : Hex c.val.toNat s) :
    Spelling c ('\\'.toUInt8 :: 'u'.toUInt8 :: s)
  | pair {c : Char} {s s' : List UInt8} (h : Pair c s s') (hodd : c.val.toNat / 0x10000 % 2 = 1) :
    Spelling c ('\\'.toUInt8 :: 'u'.toUInt8 :: s ++ '\\'.toUInt8 :: 'u'.toUInt8 :: s')

/-- The ways to write a string. -/
inductive Spelled : List Char → List UInt8 → Prop
  | nil : Spelled [] []
  | cons {c : Char} {cs : List Char} {w s : List UInt8} (hc : Spelling c w) (hcs : Spelled cs s) :
    Spelled (c :: cs) (w ++ s)

theorem Spelled.plain {cs : List Char} (h : ∀ c ∈ cs, c.val ≠ 0 ∧ c ≠ '\"' ∧ c ≠ '\\') :
    Spelled cs (cs.flatMap String.utf8EncodeChar) := by
  induction cs with
  | nil => exact .nil
  | cons c cs ih =>
    obtain ⟨hnul, hquote, hslash⟩ := h c (by simp)
    exact .cons (.plain hnul hquote hslash) (ih fun c hc => h c (by simp [hc]))

/-- The characters of an escape sequence are not looked at again. -/
theorem scanString_skip (w : List UInt8) (escaped : Bool) (len : Nat) (s : List UInt8) :
    scanString w.length escaped len (w ++ s) = scanString 0 escaped len s := by
  induction w with
  | nil => rfl
  | cons b w ih =>
    rw [List.cons_append, scanString, if_pos (by simp)]
    exact ih

/-- A byte that stands for itself. -/
theorem scanString_plain {b : UInt8} (hnul : b ≠ 0) (hquote : b ≠ '\"'.toUInt8)
    (hslash : b ≠ '\\'.toUInt8) (hlen : len ≤ UINT_LIMIT) (s : List UInt8) :
    scanString 0 false len (b :: s) = (scanString 0 false (len + 1) s).map fun r => (b :: r.1, r.2) := by
  rw [scanString, if_neg (by simp), if_neg (by simp [hnul]; omega), if_neg (by simp), if_neg hslash,
    if_neg hquote]

/-- Bytes that stand for themselves. -/
theorem scanString_plains {bytes : List UInt8}
    (h : ∀ b ∈ bytes, b ≠ 0 ∧ b ≠ '\"'.toUInt8 ∧ b ≠ '\\'.toUInt8)
    (hlen : len + bytes.length ≤ UINT_LIMIT) (s : List UInt8) :
    scanString 0 false len (bytes ++ s) =
      (scanString 0 false (len + bytes.length) s).map fun r => (bytes ++ r.1, r.2) := by
  induction bytes generalizing len with
  | nil => simp
  | cons b bytes ih =>
    obtain ⟨hnul, hquote, hslash⟩ := h b (by simp)
    rw [List.length_cons] at hlen
    rw [List.cons_append, scanString_plain hnul hquote hslash (by omega),
      ih (fun b hb => h b (by simp [hb])) (by omega), Option.map_map, List.length_cons,
      Nat.add_right_comm, Nat.add_assoc]
    rfl

/-- An escape sequence. -/
theorem scanString_escape {b : UInt8} {bytes : List UInt8} (hb : b ≠ 0)
    (h : escape b (w ++ s) = some (bytes, w.length)) (hlen : len ≤ UINT_LIMIT) :
    scanString 0 false len ('\\'.toUInt8 :: b :: w ++ s) =
      (scanString 0 false (len + bytes.length) s).map fun r => (bytes ++ r.1, r.2) := by
  have hle : ¬ (b = 0 ∨ UINT_LIMIT < len) := by simp [hb, hlen]
  rw [List.cons_append, List.cons_append, scanString, if_neg (by simp),
    if_neg (by simp [hlen]; decide), if_neg (by simp), if_pos rfl, scanString, if_neg (by simp),
    if_neg hle, if_pos rfl, h, Option.bind_some, scanString_skip]

/-- The bytes of a character behind ASCII have their highest bit. -/
theorem mem_utf8EncodeChar {b : UInt8} (h : b ∈ String.utf8EncodeChar c) :
    (c.val.toNat < 0x80 ∧ b.toNat = c.val.toNat) ∨ 0x80 ≤ b.toNat := by
  have hmark : ∀ x m : Nat, x + m < 256 → 0x80 ≤ m → b = UInt8.ofNat (x + m) → 0x80 ≤ b.toNat := by
    rintro x m hlt hm rfl
    rw [UInt8.toNat_ofNat']
    omega
  simp only [String.utf8EncodeChar] at h
  split_ifs at h with h1 h2 h3
  · obtain rfl := List.mem_singleton.mp h
    refine .inl ⟨by omega, ?_⟩
    rw [UInt8.toNat_ofNat']
    omega
  all_goals
    refine .inr ?_
    simp only [List.mem_cons, List.not_mem_nil, or_false] at h
  · rcases h with h | h <;> exact hmark _ _ (by omega) (by omega) h
  · rcases h with h | h | h <;> exact hmark _ _ (by omega) (by omega) h
  · rcases h with h | h | h | h <;> exact hmark _ _ (by omega) (by omega) h

/-- A byte of ASCII stands for its character only. -/
theorem eq_of_mem_utf8 {d : Char} (hd : d.val.toNat < 0x80) (h : d.toUInt8 ∈ String.utf8EncodeChar c) :
    c = d := by
  have hd' : d.toUInt8.toNat = d.val.toNat := by
    show d.val.toUInt8.toNat = _
    rw [UInt32.toNat_toUInt8]
    omega
  refine Char.ext (UInt32.toNat_inj.mp ?_)
  rcases mem_utf8EncodeChar h with ⟨-, h⟩ | h
  · exact h.symm.trans hd'
  · omega

theorem plain_bytes (hnul : c.val ≠ 0) (hquote : c ≠ '\"') (hslash : c ≠ '\\') :
    ∀ b ∈ String.utf8EncodeChar c, b ≠ 0 ∧ b ≠ '\"'.toUInt8 ∧ b ≠ '\\'.toUInt8 := by
  intro b hb
  have hne : ∀ d : Char, d.val.toNat < 0x80 → c ≠ d → b ≠ d.toUInt8 := by
    rintro d hd hcd rfl
    exact hcd (eq_of_mem_utf8 hd hb)
  exact ⟨hne '\x00' (by decide) fun h => hnul (h ▸ rfl), hne '\"' (by decide) hquote,
    hne '\\' (by decide) hslash⟩

theorem escape_letter {e : UInt8 × UInt8} (he : e ∈ letters) (s : List UInt8) :
    e.1 ≠ 0 ∧ e.2.toNat < 0x80 ∧ escape e.1 s = some ([e.2], 0) := by
  simp only [letters, List.mem_cons, List.not_mem_nil, or_false] at he
  rcases he with rfl | rfl | rfl | rfl | rfl | rfl | rfl | rfl <;>
    exact ⟨by decide, by decide, rfl⟩

/-- **A character**, in any way to write it. -/
theorem scanString_spelling (h : Spelling c w)
    (hlen : len + (String.utf8EncodeChar c).length ≤ UINT_LIMIT) (s : List UInt8) :
    scanString 0 false len (w ++ s) =
      (scanString 0 false (len + (String.utf8EncodeChar c).length) s).map fun r =>
        (String.utf8EncodeChar c ++ r.1, r.2) := by
  have hle : len ≤ UINT_LIMIT := by omega
  cases h with
  | plain hnul hquote hslash => exact scanString_plains (plain_bytes hnul hquote hslash) hlen s
  | @letter e he hc =>
    obtain ⟨hne, hlt, hescape⟩ := escape_letter he s
    have hbytes : String.utf8EncodeChar c = [e.2] := by
      have hval : c.val.toNat = e.2.toNat := by rw [hc, UInt8.toNat_toUInt32]
      simp only [String.utf8EncodeChar, hval]
      rw [if_pos (by omega), UInt8.ofNat_toNat]
    rw [hbytes]
    exact scanString_escape (w := []) hne hescape hle
  | @unicode w h =>
    refine scanString_escape (by decide) ?_ hle
    show Json.unicode (w ++ s) = _
    rw [unicode_eq h, h.length]
  | @pair w w' h hodd =>
    have hlength : (w ++ '\\'.toUInt8 :: 'u'.toUInt8 :: w').length = 10 := by
      rw [List.length_append, h.high.length, List.length_cons, List.length_cons, h.low.length]
    refine scanString_escape (w := w ++ '\\'.toUInt8 :: 'u'.toUInt8 :: w') (by decide) ?_ hle
    show Json.unicode _ = _
    rw [List.append_assoc, hlength]
    exact h.odd hodd s

/-- **Every string of standard JSON** is read as its UTF-8. -/
theorem scanString_spelled {cs : List Char} (h : Spelled cs w)
    (hlen : len + (cs.flatMap String.utf8EncodeChar).length ≤ UINT_LIMIT) (r : List UInt8) :
    scanString 0 false len (w ++ '\"'.toUInt8 :: r) =
      some (cs.flatMap String.utf8EncodeChar, r) := by
  induction h generalizing len with
  | nil =>
    rw [List.nil_append, scanString, if_neg (by simp), if_neg (by simp at hlen ⊢; exact ⟨by decide, hlen⟩),
      if_neg (by simp), if_neg (by decide), if_pos rfl]
    rfl
  | @cons c cs w s hc hcs ih =>
    rw [List.flatMap_cons, List.length_append] at hlen
    rw [List.append_assoc, scanString_spelling hc (by omega), ih (by omega)]
    rfl

end Strings

end Json

end Cnpv
