import Mathlib.Algebra.Field.Rat
import StatsdBridge.Go.Utf8

/-! What `utf8.ValidString` accepts, and what `for i, c := range s` yields on it, against the
    UTF-8 encoding that Lean's own `String.toUTF8` writes.

    Lean's `Char` is a Unicode scalar value: a code point below `0x110000` outside the
    surrogates `0xD800`–`0xDFFF`. `String.utf8EncodeChar` writes its one to four bytes with
    shifts and masks; read as numbers (`utf8EncodeChar_eq`), they are a lead byte that carries
    the top bits of the code point and continuation bytes `0x80 + 6 bits`. Go's decoder checks
    each lead byte against the rows of `acceptRanges` (`first_rows`), which bound the byte after
    it so that no overlong form, surrogate or code point past `0x10FFFF` gets through.

    The two meet in both directions: decoding the encoding of a character gives back its code
    point and width (`decodeRune_utf8EncodeChar`), and a step that does not fail has read the
    encoding of a character (`exists_utf8EncodeChar`). Over a whole string, `ValidString` holds
    exactly of the UTF-8 forms of Lean strings (`validString_iff_toUTF8`), and the range over
    one yields its characters (`rangeString_toUTF8`). -/

namespace StatsdBridge.Go.Utf8

/-! ### Lean's encoder in numbers -/

theorem toNat_toUInt8 (n : Nat) : n.toUInt8.toNat = n % 256 := BitVec.toNat_ofNat ..

theorem toNat_shiftRight (v : UInt32) {k : Nat} (hk : k < 32) :
    (v >>> (OfNat.ofNat k : UInt32)).toNat = v.toNat / 2 ^ k := by
  show (v.toBitVec >>> (UInt32.mod (OfNat.ofNat k) 32).toBitVec).toNat = _
  rw [BitVec.ushiftRight_eq', BitVec.toNat_ushiftRight, Nat.shiftRight_eq_div_pow]
  congr
  show k % 2 ^ 32 % (32 % 2 ^ 32) = k
  simp only [Nat.reducePow, Nat.reduceMod]
  omega

/-- A byte of the encoding: the low `j` bits of `x`, kept by the mask `m`, under the tag bits
    `t`. -/
theorem toNat_tag {x j : Nat} {m t : UInt8} (hj : j ≤ 8) (hm : m.toNat = 2 ^ j - 1)
    (ht : ∀ y < 2 ^ j, y ||| t.toNat = t.toNat + y) :
    (x.toUInt8 &&& m ||| t).toNat = t.toNat + x % 2 ^ j := by
  rw [show (x.toUInt8 &&& m ||| t).toNat = (x.toUInt8 &&& m).toNat ||| t.toNat from
    BitVec.toNat_or .., UInt8.and_toNat, toNat_toUInt8, hm, Nat.and_pow_two_sub_one_eq_mod,
    Nat.mod_mod_of_dvd _ (Nat.pow_dvd_pow 2 hj), ht _ (Nat.mod_lt _ (Nat.two_pow_pos j))]

/-- A character's code point is a Unicode scalar value. -/
theorem toNat_valid (c : Char) : c.toNat < 0xD800 ∨ 0xDFFF < c.toNat ∧ c.toNat < 0x110000 :=
  c.valid

/-- Every Unicode scalar value is the code point of a character. -/
theorem exists_toNat_eq {v : Nat} (h : v < 0xD800 ∨ 0xDFFF < v ∧ v < 0x110000) :
    ∃ c : Char, c.toNat = v :=
  ⟨Char.ofNatAux v h, rfl⟩

theorem utf8Size_eq (c : Char) : c.utf8Size =
    if c.toNat ≤ 0x7F then 1 else if c.toNat ≤ 0x7FF then 2
    else if c.toNat ≤ 0xFFFF then 3 else 4 :=
  rfl

/-- `String.utf8EncodeChar` with its shifts and masks as `/` and `%`. -/
theorem utf8EncodeChar_eq (c : Char) : String.utf8EncodeChar c =
    if c.toNat ≤ 0x7F then [c.toNat.toUInt8]
    else if c.toNat ≤ 0x7FF then [(0xC0 + c.toNat / 64).toUInt8, (0x80 + c.toNat % 64).toUInt8]
    else if c.toNat ≤ 0xFFFF then
      [(0xE0 + c.toNat / 4096).toUInt8, (0x80 + c.toNat / 64 % 64).toUInt8,
        (0x80 + c.toNat % 64).toUInt8]
    else [(0xF0 + c.toNat / 262144).toUInt8, (0x80 + c.toNat / 4096 % 64).toUInt8,
      (0x80 + c.toNat / 64 % 64).toUInt8, (0x80 + c.toNat % 64).toUInt8] := by
  have hv : c.toNat < 0x110000 := by have := toNat_valid c; omega
  have h0 : c.val.toNat = c.toNat := rfl
  have h6 : (c.val >>> 6).toNat = c.toNat / 64 := toNat_shiftRight c.val (by decide)
  have h12 : (c.val >>> 12).toNat = c.toNat / 4096 := toNat_shiftRight c.val (by decide)
  have h18 : (c.val >>> 18).toNat = c.toNat / 262144 := toNat_shiftRight c.val (by decide)
  -- the four tags, each over the bits it keeps
  have t80 (x : Nat) := toNat_tag (x := x) (m := 0x3f) (t := 0x80) (j := 6)
    (by decide) rfl (by decide)
  have tC0 (x : Nat) := toNat_tag (x := x) (m := 0x1f) (t := 0xc0) (j := 5)
    (by decide) rfl (by decide)
  have tE0 (x : Nat) := toNat_tag (x := x) (m := 0x0f) (t := 0xe0) (j := 4)
    (by decide) rfl (by decide)
  have tF0 (x : Nat) := toNat_tag (x := x) (m := 0x07) (t := 0xf0) (j := 3)
    (by decide) rfl (by decide)
  have e1 : (c.val ≤ 0x7f) ↔ c.toNat ≤ 0x7F := Iff.rfl
  have e2 : (c.val ≤ 0x7ff) ↔ c.toNat ≤ 0x7FF := Iff.rfl
  have e3 : (c.val ≤ 0xffff) ↔ c.toNat ≤ 0xFFFF := Iff.rfl
  simp only [String.utf8EncodeChar, e1, e2, e3]
  split_ifs <;> simp only [List.cons.injEq, byte_eq, and_true, UInt32.toUInt8, t80, tC0, tE0, tF0,
    toNat_toUInt8, h0, h6, h12, h18, byte_lit, Nat.reduceMod, Nat.reducePow] <;> first | rfl | omega

/-! ### The rows of the decoder's table -/

/-- What a row of `first` says about its lead byte: its width, and the range of the byte after
    it. -/
theorem first_rows {b lo hi : UInt8} {sz : Nat} (h : first b = some (sz, lo, hi)) :
    (0xC2 ≤ b.toNat ∧ b.toNat ≤ 0xDF ∧ sz = 2 ∧ lo.toNat = 0x80 ∧ hi.toNat = 0xBF) ∨
    (b.toNat = 0xE0 ∧ sz = 3 ∧ lo.toNat = 0xA0 ∧ hi.toNat = 0xBF) ∨
    (b.toNat = 0xED ∧ sz = 3 ∧ lo.toNat = 0x80 ∧ hi.toNat = 0x9F) ∨
    (0xE1 ≤ b.toNat ∧ b.toNat ≤ 0xEF ∧ b.toNat ≠ 0xED ∧ sz = 3 ∧ lo.toNat = 0x80 ∧
      hi.toNat = 0xBF) ∨
    (b.toNat = 0xF0 ∧ sz = 4 ∧ lo.toNat = 0x90 ∧ hi.toNat = 0xBF) ∨
    (0xF1 ≤ b.toNat ∧ b.toNat ≤ 0xF3 ∧ sz = 4 ∧ lo.toNat = 0x80 ∧ hi.toNat = 0xBF) ∨
    (b.toNat = 0xF4 ∧ sz = 4 ∧ lo.toNat = 0x80 ∧ hi.toNat = 0x8F) := by
  unfold first at h
  by_cases h1 : b.toNat < 0xC2
  · rw [if_pos (show b < 0xC2 from h1)] at h; cases h
  rw [if_neg (show ¬ b < 0xC2 from h1)] at h
  by_cases h2 : b.toNat ≤ 0xDF
  · rw [if_pos (show b ≤ 0xDF from h2)] at h; cases h
    exact .inl ⟨by omega, h2, rfl, rfl, rfl⟩
  rw [if_neg (show ¬ b ≤ 0xDF from h2)] at h
  by_cases h3 : b.toNat = 0xE0
  · rw [if_pos (show b = 0xE0 from byte_eq.mpr h3)] at h; cases h
    exact .inr (.inl ⟨h3, rfl, rfl, rfl⟩)
  rw [if_neg (show b ≠ 0xE0 from mt byte_eq.mp h3)] at h
  by_cases h4 : b.toNat = 0xED
  · rw [if_pos (show b = 0xED from byte_eq.mpr h4)] at h; cases h
    exact .inr (.inr (.inl ⟨h4, rfl, rfl, rfl⟩))
  rw [if_neg (show b ≠ 0xED from mt byte_eq.mp h4)] at h
  by_cases h5 : b.toNat ≤ 0xEF
  · rw [if_pos (show b ≤ 0xEF from h5)] at h; cases h
    exact .inr (.inr (.inr (.inl ⟨by omega, h5, h4, rfl, rfl, rfl⟩)))
  rw [if_neg (show ¬ b ≤ 0xEF from h5)] at h
  by_cases h6 : b.toNat = 0xF0
  · rw [if_pos (show b = 0xF0 from byte_eq.mpr h6)] at h; cases h
    exact .inr (.inr (.inr (.inr (.inl ⟨h6, rfl, rfl, rfl⟩))))
  rw [if_neg (show b ≠ 0xF0 from mt byte_eq.mp h6)] at h
  by_cases h7 : b.toNat ≤ 0xF3
  · rw [if_pos (show b ≤ 0xF3 from h7)] at h; cases h
    exact .inr (.inr (.inr (.inr (.inr (.inl ⟨by omega, h7, rfl, rfl, rfl⟩)))))
  rw [if_neg (show ¬ b ≤ 0xF3 from h7)] at h
  by_cases h8 : b.toNat = 0xF4
  · rw [if_pos (show b = 0xF4 from byte_eq.mpr h8)] at h; cases h
    exact .inr (.inr (.inr (.inr (.inr (.inr ⟨h8, rfl, rfl, rfl⟩)))))
  rw [if_neg (show b ≠ 0xF4 from mt byte_eq.mp h8)] at h
  cases h

/-- Every byte from `0xC2` to `0xF4` has a row. -/
theorem exists_first_eq_some {b : UInt8} (h1 : 0xC2 ≤ b.toNat) (h2 : b.toNat ≤ 0xF4) :
    ∃ sz lo hi, first b = some (sz, lo, hi) := by
  unfold first
  rw [if_neg (show ¬ b < 0xC2 from Nat.not_lt.mpr h1)]
  by_cases h3 : b ≤ 0xDF; · exact ⟨_, _, _, if_pos h3⟩
  rw [if_neg h3]
  by_cases h4 : b = 0xE0; · exact ⟨_, _, _, if_pos h4⟩
  rw [if_neg h4]
  by_cases h5 : b = 0xED; · exact ⟨_, _, _, if_pos h5⟩
  rw [if_neg h5]
  by_cases h6 : b ≤ 0xEF; · exact ⟨_, _, _, if_pos h6⟩
  rw [if_neg h6]
  by_cases h7 : b = 0xF0; · exact ⟨_, _, _, if_pos h7⟩
  rw [if_neg h7]
  by_cases h8 : b.toNat ≤ 0xF3; · exact ⟨_, _, _, if_pos (show b ≤ 0xF3 from h8)⟩
  rw [if_neg (show ¬ b ≤ 0xF3 from h8)]
  exact ⟨_, _, _, if_pos (show b = 0xF4 from byte_eq.mpr (by omega : b.toNat = 0xF4))⟩

theorem cont_iff {b : UInt8} : cont b = true ↔ 0x80 ≤ b.toNat ∧ b.toNat ≤ 0xBF := by
  simp only [cont, byte_le, byte_lit, Nat.reduceMod, Bool.and_eq_true, decide_eq_true_eq]

/-! ### Decoding an encoding -/

theorem decodeMulti_two {b0 b1 lo hi : UInt8} (t : Bytes) (hf : first b0 = some (2, lo, hi))
    (h1 : lo.toNat ≤ b1.toNat ∧ b1.toNat ≤ hi.toNat) :
    decodeMulti b0 (b1 :: t) = (b0.toNat % 32 * 64 + b1.toNat % 64, 2) := by
  simp only [decodeMulti, hf, if_neg (show ¬ (b1 < lo ∨ hi < b1) by simp only [byte_lt]; omega)]
  rfl

theorem decodeMulti_three {b0 b1 b2 lo hi : UInt8} (t : Bytes) (hf : first b0 = some (3, lo, hi))
    (h1 : lo.toNat ≤ b1.toNat ∧ b1.toNat ≤ hi.toNat) (h2 : cont b2) :
    decodeMulti b0 (b1 :: b2 :: t) =
      (b0.toNat % 16 * 4096 + b1.toNat % 64 * 64 + b2.toNat % 64, 3) := by
  simp only [decodeMulti, hf, h2,
    if_neg (show ¬ (b1 < lo ∨ hi < b1) by simp only [byte_lt]; omega)]
  rfl

theorem decodeMulti_four {b0 b1 b2 b3 lo hi : UInt8} (t : Bytes) (hf : first b0 = some (4, lo, hi))
    (h1 : lo.toNat ≤ b1.toNat ∧ b1.toNat ≤ hi.toNat) (h2 : cont b2) (h3 : cont b3) :
    decodeMulti b0 (b1 :: b2 :: b3 :: t) =
      (b0.toNat % 8 * 262144 + b1.toNat % 64 * 4096 + b2.toNat % 64 * 64 + b3.toNat % 64, 4) := by
  simp only [decodeMulti, hf, h2, h3,
    if_neg (show ¬ (b1 < lo ∨ hi < b1) by simp only [byte_lt]; omega)]
  rfl

/-- A code point below `0x10000` in its six-bit groups. -/
theorem digits_three (v : Nat) : v / 4096 * 4096 + v / 64 % 64 * 64 + v % 64 = v := by
  have h1 := Nat.div_add_mod v 64
  have h2 := Nat.div_add_mod (v / 64) 64
  rw [Nat.div_div_eq_div_mul] at h2
  omega

/-- A code point in its six-bit groups. -/
theorem digits_four (v : Nat) :
    v / 262144 * 262144 + v / 4096 % 64 * 4096 + v / 64 % 64 * 64 + v % 64 = v := by
  have h1 := Nat.div_add_mod v 64
  have h2 := Nat.div_add_mod (v / 64) 64
  have h3 := Nat.div_add_mod (v / 4096) 64
  rw [Nat.div_div_eq_div_mul] at h2 h3
  omega

/-- The six-bit groups of a code point written with them. -/
theorem div_digits_three (d0 : Nat) {d1 d2 : Nat} (hd : d1 < 64 ∧ d2 < 64) :
    (d0 * 4096 + d1 * 64 + d2) / 4096 = d0 ∧ (d0 * 4096 + d1 * 64 + d2) / 64 % 64 = d1 ∧
      (d0 * 4096 + d1 * 64 + d2) % 64 = d2 := by
  omega

theorem div_digits_four (d0 : Nat) {d1 d2 d3 : Nat} (hd : d1 < 64 ∧ d2 < 64 ∧ d3 < 64) :
    (d0 * 262144 + d1 * 4096 + d2 * 64 + d3) / 262144 = d0 ∧
      (d0 * 262144 + d1 * 4096 + d2 * 64 + d3) / 4096 % 64 = d1 ∧
      (d0 * 262144 + d1 * 4096 + d2 * 64 + d3) / 64 % 64 = d2 ∧
      (d0 * 262144 + d1 * 4096 + d2 * 64 + d3) % 64 = d3 := by
  omega

/-- The bits under a tag: `t + d` with `d < k` and `t` a multiple of `k` keeps `d` below `k`. -/
theorem mod_tag {n t d k : Nat} (e : n = t + d) (ht : t % k = 0) (hd : d < k) : n % k = d := by
  rw [e, Nat.add_mod, ht, Nat.zero_add, Nat.mod_mod, Nat.mod_eq_of_lt hd]

/-- The decoder on the two bytes that encode `v = d0 * 64 + d1`, from `0x80` to `0x7FF`. -/
theorem decodeRune_two {v d0 d1 : Nat} {b0 b1 : UInt8} (t : Bytes) (hd : d1 < 64)
    (e0 : b0.toNat = 0xC0 + d0) (e1 : b1.toNat = 0x80 + d1) (hv : v = d0 * 64 + d1)
    (hr : 0x7F < v ∧ v ≤ 0x7FF) :
    decodeRune (b0 :: b1 :: t) = (v, 2) := by
  obtain ⟨sz, lo, hi, hf⟩ := exists_first_eq_some (b := b0) (by omega) (by omega)
  obtain ⟨rfl, hb1⟩ : sz = 2 ∧ lo.toNat ≤ b1.toNat ∧ b1.toNat ≤ hi.toNat := by
    have := first_rows hf; omega
  rw [decodeRune_multi _ (by rw [byte_lt, e0]; simp only [byte_lit]; omega),
    decodeMulti_two t hf hb1, mod_tag e0 rfl (by omega), mod_tag e1 rfl hd, hv]

/-- The decoder on the three bytes that encode `v = d0 * 4096 + d1 * 64 + d2`, from `0x800` to
    `0xFFFF` and no surrogate. -/
theorem decodeRune_three {v d0 d1 d2 : Nat} {b0 b1 b2 : UInt8} (t : Bytes)
    (hd : d1 < 64 ∧ d2 < 64) (e0 : b0.toNat = 0xE0 + d0) (e1 : b1.toNat = 0x80 + d1)
    (e2 : b2.toNat = 0x80 + d2) (hv : v = d0 * 4096 + d1 * 64 + d2)
    (hr : 0x7FF < v ∧ v ≤ 0xFFFF ∧ (v < 0xD800 ∨ 0xDFFF < v)) :
    decodeRune (b0 :: b1 :: b2 :: t) = (v, 3) := by
  obtain ⟨sz, lo, hi, hf⟩ := exists_first_eq_some (b := b0) (by omega) (by omega)
  obtain ⟨rfl, hb1⟩ : sz = 3 ∧ lo.toNat ≤ b1.toNat ∧ b1.toNat ≤ hi.toNat := by
    have := first_rows hf; omega
  rw [decodeRune_multi _ (by rw [byte_lt, e0]; simp only [byte_lit]; omega),
    decodeMulti_three t hf hb1 (cont_iff.mpr (by omega)), mod_tag e0 rfl (by omega),
    mod_tag e1 rfl hd.1, mod_tag e2 rfl hd.2, hv]

/-- The decoder on the four bytes that encode `v = d0 * 262144 + d1 * 4096 + d2 * 64 + d3`, from
    `0x10000` to `0x10FFFF`. -/
theorem decodeRune_four {v d0 d1 d2 d3 : Nat} {b0 b1 b2 b3 : UInt8} (t : Bytes)
    (hd : d1 < 64 ∧ d2 < 64 ∧ d3 < 64) (e0 : b0.toNat = 0xF0 + d0) (e1 : b1.toNat = 0x80 + d1)
    (e2 : b2.toNat = 0x80 + d2) (e3 : b3.toNat = 0x80 + d3)
    (hv : v = d0 * 262144 + d1 * 4096 + d2 * 64 + d3) (hr : 0xFFFF < v ∧ v < 0x110000) :
    decodeRune (b0 :: b1 :: b2 :: b3 :: t) = (v, 4) := by
  obtain ⟨sz, lo, hi, hf⟩ := exists_first_eq_some (b := b0) (by omega) (by omega)
  obtain ⟨rfl, hb1⟩ : sz = 4 ∧ lo.toNat ≤ b1.toNat ∧ b1.toNat ≤ hi.toNat := by
    have := first_rows hf; omega
  rw [decodeRune_multi _ (by rw [byte_lt, e0]; simp only [byte_lit]; omega),
    decodeMulti_four t hf hb1 (cont_iff.mpr (by omega)) (cont_iff.mpr (by omega)),
    mod_tag e0 rfl (by omega), mod_tag e1 rfl hd.1, mod_tag e2 rfl hd.2.1, mod_tag e3 rfl hd.2.2,
    hv]

/-- Decoding the encoding of a character gives back its code point and width, whatever follows. -/
theorem decodeRune_utf8EncodeChar (c : Char) (t : Bytes) :
    decodeRune (String.utf8EncodeChar c ++ t) = (c.toNat, c.utf8Size) := by
  have hv := toNat_valid c
  have e (n : Nat) (h : n < 256) : n.toUInt8.toNat = n := by rw [toNat_toUInt8, Nat.mod_eq_of_lt h]
  have m (n : Nat) : n % 64 < 64 := Nat.mod_lt _ (by decide)
  rw [utf8EncodeChar_eq, utf8Size_eq]
  by_cases h1 : c.toNat ≤ 0x7F
  · have hb : c.toNat.toUInt8 < 0x80 := by
      rw [byte_lt, e _ (by omega)]; simp only [byte_lit]; omega
    rw [if_pos h1, if_pos h1, List.singleton_append, decodeRune_ascii _ hb, e _ (by omega)]
  rw [if_neg h1, if_neg h1]
  by_cases h2 : c.toNat ≤ 0x7FF
  · rw [if_pos h2, if_pos h2]
    exact decodeRune_two t (m _) (e _ (by omega)) (e _ (by omega)) (Nat.div_add_mod' _ _).symm
      ⟨by omega, h2⟩
  rw [if_neg h2, if_neg h2]
  by_cases h3 : c.toNat ≤ 0xFFFF
  · rw [if_pos h3, if_pos h3]
    exact decodeRune_three t ⟨m _, m _⟩ (e _ (by omega)) (e _ (by omega)) (e _ (by omega))
      (digits_three _).symm ⟨by omega, h3, by omega⟩
  rw [if_neg h3, if_neg h3]
  exact decodeRune_four t ⟨m _, m _, m _⟩ (e _ (by omega)) (e _ (by omega)) (e _ (by omega))
    (e _ (by omega)) (digits_four _).symm ⟨by omega, by omega⟩

/-! ### Reading an encoding -/

/-- The encoding of a code point from `0x80` to `0x7FF`, by its six-bit groups. -/
theorem utf8EncodeChar_two {c : Char} {d0 d1 : Nat} (hd : d1 < 64) (hc : c.toNat = d0 * 64 + d1)
    (h : 0x7F < c.toNat ∧ c.toNat ≤ 0x7FF) :
    String.utf8EncodeChar c = [(0xC0 + d0).toUInt8, (0x80 + d1).toUInt8] := by
  rw [utf8EncodeChar_eq, if_neg (by omega), if_pos h.2, hc, show (d0 * 64 + d1) / 64 = d0 by omega,
    show (d0 * 64 + d1) % 64 = d1 by omega]

/-- The encoding of a code point from `0x800` to `0xFFFF`, by its six-bit groups. -/
theorem utf8EncodeChar_three {c : Char} {d0 d1 d2 : Nat} (hd : d1 < 64 ∧ d2 < 64)
    (hc : c.toNat = d0 * 4096 + d1 * 64 + d2) (h : 0x7FF < c.toNat ∧ c.toNat ≤ 0xFFFF) :
    String.utf8EncodeChar c = [(0xE0 + d0).toUInt8, (0x80 + d1).toUInt8, (0x80 + d2).toUInt8] := by
  obtain ⟨q0, q1, q2⟩ := div_digits_three d0 hd
  rw [utf8EncodeChar_eq, if_neg (by omega), if_neg (by omega), if_pos h.2, hc, q0, q1, q2]

/-- The encoding of a code point from `0x10000` on, by its six-bit groups. -/
theorem utf8EncodeChar_four {c : Char} {d0 d1 d2 d3 : Nat} (hd : d1 < 64 ∧ d2 < 64 ∧ d3 < 64)
    (hc : c.toNat = d0 * 262144 + d1 * 4096 + d2 * 64 + d3) (h : 0xFFFF < c.toNat) :
    String.utf8EncodeChar c =
      [(0xF0 + d0).toUInt8, (0x80 + d1).toUInt8, (0x80 + d2).toUInt8, (0x80 + d3).toUInt8] := by
  obtain ⟨q0, q1, q2, q3⟩ := div_digits_four d0 hd
  rw [utf8EncodeChar_eq, if_neg (by omega), if_neg (by omega), if_neg (Nat.not_le.mpr h), hc,
    q0, q1, q2, q3]

/-- A byte is its own value as a number. -/
theorem toUInt8_toNat {b : UInt8} {n : Nat} (h : b.toNat = n) : n.toUInt8 = b :=
  byte_eq.mpr (by rw [toNat_toUInt8, ← h, Nat.mod_eq_of_lt (byte_toNat_lt b)])

/-- The two bytes the decoder reads under a two-byte row encode a character. -/
theorem exists_encoding_two {b0 b1 lo hi : UInt8} (hf : first b0 = some (2, lo, hi))
    (h1 : lo.toNat ≤ b1.toNat ∧ b1.toNat ≤ hi.toNat) :
    ∃ c : Char, [b0, b1] = String.utf8EncodeChar c := by
  have hb : 0xC2 ≤ b0.toNat ∧ b0.toNat ≤ 0xDF ∧ 0x80 ≤ b1.toNat ∧ b1.toNat ≤ 0xBF := by
    have := first_rows hf; omega
  obtain ⟨c, hc⟩ := exists_toNat_eq (v := (b0.toNat - 0xC0) * 64 + (b1.toNat - 0x80)) (by omega)
  refine ⟨c, ?_⟩
  rw [utf8EncodeChar_two (by omega) hc (by omega),
    toUInt8_toNat (b := b0) (by omega), toUInt8_toNat (b := b1) (by omega)]

/-- The three bytes the decoder reads under a three-byte row encode a character: the row of `0xE0`
    rules out overlong forms, and that of `0xED` the surrogates. -/
theorem exists_encoding_three {b0 b1 b2 lo hi : UInt8} (hf : first b0 = some (3, lo, hi))
    (h1 : lo.toNat ≤ b1.toNat ∧ b1.toNat ≤ hi.toNat) (h2 : cont b2) :
    ∃ c : Char, [b0, b1, b2] = String.utf8EncodeChar c := by
  have h2 := cont_iff.mp h2
  have hb : 0xE0 ≤ b0.toNat ∧ b0.toNat ≤ 0xEF ∧ (b0.toNat = 0xE0 → 0xA0 ≤ b1.toNat) ∧
      (b0.toNat = 0xED → b1.toNat ≤ 0x9F) ∧ 0x80 ≤ b1.toNat ∧ b1.toNat ≤ 0xBF := by
    have := first_rows hf; omega
  obtain ⟨c, hc⟩ := exists_toNat_eq
    (v := (b0.toNat - 0xE0) * 4096 + (b1.toNat - 0x80) * 64 + (b2.toNat - 0x80)) (by omega)
  refine ⟨c, ?_⟩
  rw [utf8EncodeChar_three ⟨by omega, by omega⟩ hc (by omega),
    toUInt8_toNat (b := b0) (by omega), toUInt8_toNat (b := b1) (by omega),
    toUInt8_toNat (b := b2) (by omega)]

/-- The four bytes the decoder reads under a four-byte row encode a character: the row of `0xF0`
    rules out overlong forms, and that of `0xF4` code points past `0x10FFFF`. -/
theorem exists_encoding_four {b0 b1 b2 b3 lo hi : UInt8} (hf : first b0 = some (4, lo, hi))
    (h1 : lo.toNat ≤ b1.toNat ∧ b1.toNat ≤ hi.toNat) (h2 : cont b2) (h3 : cont b3) :
    ∃ c : Char, [b0, b1, b2, b3] = String.utf8EncodeChar c := by
  have h2 := cont_iff.mp h2
  have h3 := cont_iff.mp h3
  have hb : 0xF0 ≤ b0.toNat ∧ b0.toNat ≤ 0xF4 ∧ (b0.toNat = 0xF0 → 0x90 ≤ b1.toNat) ∧
      (b0.toNat = 0xF4 → b1.toNat ≤ 0x8F) ∧ 0x80 ≤ b1.toNat ∧ b1.toNat ≤ 0xBF := by
    have := first_rows hf; omega
  obtain ⟨c, hc⟩ := exists_toNat_eq (v := (b0.toNat - 0xF0) * 262144 + (b1.toNat - 0x80) * 4096 +
    (b2.toNat - 0x80) * 64 + (b3.toNat - 0x80)) (.inr ⟨by omega, by omega⟩)
  refine ⟨c, ?_⟩
  rw [utf8EncodeChar_four ⟨by omega, by omega, by omega⟩ hc (by omega),
    toUInt8_toNat (b := b0) (by omega), toUInt8_toNat (b := b1) (by omega),
    toUInt8_toNat (b := b2) (by omega), toUInt8_toNat (b := b3) (by omega)]

/-- A multi-byte step that does not fail has read the encoding of a character. -/
theorem exists_utf8EncodeChar_of_decodeMulti {b0 : UInt8} {s : Bytes}
    (h : decodeMulti b0 s ≠ (runeError, 1)) :
    ∃ c : Char, b0 :: s.take ((decodeMulti b0 s).2 - 1) = String.utf8EncodeChar c := by
  rcases hf : first b0 with _ | ⟨sz, lo, hi⟩
  · simp only [decodeMulti, hf] at h; exact absurd rfl h
  rcases s with _ | ⟨b1, s⟩
  · simp only [decodeMulti, hf] at h; exact absurd rfl h
  by_cases h1 : b1 < lo ∨ hi < b1
  · simp only [decodeMulti, hf, if_pos h1] at h; exact absurd rfl h
  have h1' : lo.toNat ≤ b1.toNat ∧ b1.toNat ≤ hi.toNat := by
    simp only [byte_lt, not_or, not_lt] at h1; exact ⟨h1.1, h1.2⟩
  rcases (show sz = 2 ∨ sz = 3 ∨ sz = 4 by have := first_rows hf; omega) with rfl | rfl | rfl
  · rw [decodeMulti_two s hf h1']
    exact exists_encoding_two hf h1'
  · rcases s with _ | ⟨b2, s⟩
    · simp only [decodeMulti, hf, if_neg h1] at h; exact absurd rfl h
    by_cases h2 : cont b2 = true
    · rw [decodeMulti_three s hf h1' h2]
      exact exists_encoding_three hf h1' h2
    · simp only [decodeMulti, hf, if_neg h1, h2] at h; exact absurd rfl h
  · rcases s with _ | ⟨b2, _ | ⟨b3, s⟩⟩
    · simp only [decodeMulti, hf, if_neg h1] at h; exact absurd rfl h
    · by_cases h2 : cont b2 = true <;> simp only [decodeMulti, hf, if_neg h1, h2] at h <;>
        exact absurd rfl h
    by_cases h2 : cont b2 = true
    swap
    · simp only [decodeMulti, hf, if_neg h1, h2] at h; exact absurd rfl h
    by_cases h3 : cont b3 = true
    · rw [decodeMulti_four s hf h1' h2 h3]
      exact exists_encoding_four hf h1' h2 h3
    · simp only [decodeMulti, hf, if_neg h1, h2, h3] at h; exact absurd rfl h

/-- A step that does not fail has read the encoding of a character. -/
theorem exists_utf8EncodeChar {b : UInt8} {s : Bytes} (h : decodeRune (b :: s) ≠ (runeError, 1)) :
    ∃ c : Char, (b :: s).take (decodeRune (b :: s)).2 = String.utf8EncodeChar c := by
  by_cases hb : b < 0x80
  · have hb' : b.toNat ≤ 0x7F := by simp only [byte_lt, byte_lit] at hb; omega
    obtain ⟨c, hc⟩ := exists_toNat_eq (v := b.toNat) (by omega)
    refine ⟨c, ?_⟩
    rw [decodeRune_ascii s hb, utf8EncodeChar_eq, hc, if_pos hb', toUInt8_toNat rfl]
    rfl
  · rw [decodeRune_multi s hb] at h ⊢
    obtain ⟨c, hc⟩ := exists_utf8EncodeChar_of_decodeMulti h
    obtain ⟨w, hw⟩ : ∃ w, (decodeMulti b s).2 = w + 1 :=
      ⟨_, (Nat.sub_add_cancel (decodeMulti_spec b s).2.1).symm⟩
    refine ⟨c, ?_⟩
    rw [hw, List.take_succ_cons, ← hc, hw, Nat.add_sub_cancel]

/-! ### Whole strings -/

/-- One step of `ValidString`: the head step does not fail, and the rest after it is valid. -/
theorem validString_cons (b : UInt8) (s : Bytes) : validString (b :: s) =
    (!((decodeRune (b :: s)).1 == runeError && (decodeRune (b :: s)).2 == 1) &&
      validString ((b :: s).drop (decodeRune (b :: s)).2)) := by
  simp only [validString, rangeString_cons, List.all_cons, List.all_map, Function.comp_def, shift]

theorem utf8EncodeChar_ne_nil (c : Char) : String.utf8EncodeChar c ≠ [] :=
  List.ne_nil_of_length_pos (by rw [String.length_utf8EncodeChar]; exact c.utf8Size_pos)

/-- The concatenated encodings of characters are valid. -/
theorem validString_flatMap (cs : List Char) :
    validString (cs.flatMap String.utf8EncodeChar) = true := by
  induction cs with
  | nil => rfl
  | cons c cs ih =>
    obtain ⟨b, s, hbs⟩ := List.exists_cons_of_ne_nil (utf8EncodeChar_ne_nil c)
    have hc : c.toNat = runeError → c.utf8Size ≠ 1 := by
      rw [utf8Size_eq]; split_ifs <;> simp only [runeError] <;> omega
    rw [List.flatMap_cons, hbs, List.cons_append, validString_cons, ← List.cons_append, ← hbs,
      decodeRune_utf8EncodeChar, List.drop_left' (String.length_utf8EncodeChar c), ih]
    simpa [imp_iff_not_or] using hc

/-- A valid string is the concatenated encodings of characters. -/
theorem exists_of_validString (s : Bytes) (h : validString s = true) :
    ∃ cs : List Char, s = cs.flatMap String.utf8EncodeChar := by
  induction' hn : s.length using Nat.strong_induction_on with n ih generalizing s
  cases s with
  | nil => exact ⟨[], rfl⟩
  | cons b s =>
    rw [validString_cons, Bool.and_eq_true] at h
    obtain ⟨c, hc⟩ := exists_utf8EncodeChar (b := b) (s := s) (by
      intro he; rw [he] at h; simp at h)
    have hw := decodeRune_width b s
    obtain ⟨cs, hcs⟩ := ih _ (by simp at hn ⊢; omega) _ h.2 rfl
    exact ⟨c :: cs, by rw [List.flatMap_cons, ← hc, ← hcs, List.take_append_drop]⟩

/-- The range over concatenated encodings yields each character's code point and width. -/
theorem rangeString_flatMap (cs : List Char) :
    (rangeString (cs.flatMap String.utf8EncodeChar)).map Prod.snd =
      cs.map fun c => (c.toNat, c.utf8Size) := by
  induction cs with
  | nil => rfl
  | cons c cs ih =>
    obtain ⟨b, s, hbs⟩ := List.exists_cons_of_ne_nil (utf8EncodeChar_ne_nil c)
    rw [List.flatMap_cons, hbs, List.cons_append, rangeString_cons, ← List.cons_append, ← hbs,
      decodeRune_utf8EncodeChar, List.drop_left' (String.length_utf8EncodeChar c)]
    simp only [List.map_cons, List.map_map, Function.comp_def, shift, ih]

/-- An ASCII character is encoded as its one byte. -/
theorem utf8EncodeChar_of_lt {c : Char} (h : c.toNat < 0x80) :
    String.utf8EncodeChar c = [c.toNat.toUInt8] := by
  rw [utf8EncodeChar_eq, if_pos (by omega)]

/-- `Char.ofNat` keeps a code point that is valid. -/
theorem toNat_char_ofNat {n : Nat} (h : n < 0xD800 ∨ 0xDFFF < n ∧ n < 0x110000) :
    (Char.ofNat n).toNat = n := by
  rw [Char.ofNat, dif_pos h]
  rfl

/-- A string of ASCII bytes is the encoding of its bytes read as characters. -/
theorem flatMap_ofNat {s : Bytes} (h : ∀ x ∈ s, x.toNat < 0x80) :
    (s.map fun x => Char.ofNat x.toNat).flatMap String.utf8EncodeChar = s := by
  induction s with
  | nil => rfl
  | cons x s ih =>
    have hx : (Char.ofNat x.toNat).toNat = x.toNat :=
      toNat_char_ofNat (.inl (by have := h x (.head _); omega))
    rw [List.map_cons, List.flatMap_cons, utf8EncodeChar_of_lt (by rw [hx]; exact h x (.head _)),
      hx, toUInt8_toNat rfl, ih fun y hy => h y (.tail _ hy)]
    rfl

/-- `utf8.ValidString` holds exactly of the UTF-8 forms of Lean strings. -/
theorem validString_iff_toUTF8 (s : Bytes) :
    validString s = true ↔ ∃ str : String, str.toUTF8.data.toList = s :=
  ⟨fun h => let ⟨cs, hcs⟩ := exists_of_validString s h; ⟨⟨cs⟩, hcs.symm⟩,
    fun ⟨str, hs⟩ => hs ▸ validString_flatMap str.data⟩

/-- `for i, c := range s` over the UTF-8 form of a string yields its characters' code points,
    each with its width, in order. -/
theorem rangeString_toUTF8 (str : String) :
    (rangeString str.toUTF8.data.toList).map Prod.snd =
      str.data.map fun c => (c.toNat, c.utf8Size) :=
  rangeString_flatMap str.data

end StatsdBridge.Go.Utf8
