import Mathlib.Data.Nat.Dist

/-! The magnitudes a `float64` holds, and where rounding puts a quotient among them.

    A finite `float64` is a whole number of least subnormals `2^-1074`, so a value is a sign and
    a magnitude in that unit. A magnitude is one a `float64` holds when it has at most 53
    significant bits (`Fits`, the subnormals included) and is below `2^2098`, the value `2^1024`.
    `Fits` is decided through `⌊log₂ m⌋` (`fits_iff`), so a magnitude written as a literal is
    checked by `decide`.

    Rounding `n / d` to 53 significant bits keeps the bits from `2^ulpShift n d` up: `ulpShift`
    reads the binade of `n / d` off `log2 n` and `log2 d` (`ulpShift_spec`), and `roundDiv`
    rounds the quotient by that power to a whole number, at most `2^53` (`roundDiv_ulpShift_le`).
    So the rounded magnitude fits (`fits_roundDiv`); `Go.Binary64` builds its values from it, and
    `Go.Rounding` shows it nearest (`Nearest`). -/

namespace StatsdBridge.Go.Binary64

/-- The magnitude of `1.0`. -/
def unit : Nat := 1 <<< 1074

/-- A magnitude with at most 53 significant bits. -/
def Fits (m : Nat) : Prop := ∃ j k, j < 2 ^ 53 ∧ m = j * 2 ^ k

/-- `m` fits and is nearest `n / d` among the magnitudes that fit, by the distance of the cross
    products. -/
structure Nearest (n d m : Nat) : Prop where
  fits : Fits m
  nearest : ∀ m', Fits m' → Nat.dist (m * d) n ≤ Nat.dist (m' * d) n

/-! ### `⌊log₂ n⌋` -/

/-- `⌊log₂ n⌋` for `0 < n < 2^(2^k)`, halving the width `k` times. -/
def log2Bits : Nat → Nat → Nat
  | 0, _ => 0
  | k + 1, n => if n >>> 2 ^ k = 0 then log2Bits k n else 2 ^ k + log2Bits k (n >>> 2 ^ k)

/-- The first `j` of `k, k + 1, …, k + f` with `n < 2^(2^j)`. -/
def width (n : Nat) : Nat → Nat → Nat
  | 0, k => k
  | f + 1, k => if n >>> 2 ^ k = 0 then k else width n f (k + 1)

/-- `⌊log₂ n⌋` for `0 < n` (`Nat.log2` does not reduce in the kernel): `n < 2^(2^n)`, so a width
    is found by the `n`-th doubling. -/
def log2 (n : Nat) : Nat := log2Bits (width n n 0) n

theorem log2Bits_zero : ∀ k, log2Bits k 0 = 0
  | 0 => rfl
  | k + 1 => by rw [log2Bits, if_pos (Nat.zero_shiftRight _), log2Bits_zero k]

theorem log2_zero : log2 0 = 0 := log2Bits_zero _

/-- `log2Bits k n` is `⌊log₂ n⌋` below `2^2^k`. -/
theorem log2Bits_spec : ∀ (k : Nat) {n : Nat}, 0 < n → n < 2 ^ 2 ^ k →
    2 ^ log2Bits k n ≤ n ∧ n < 2 ^ (log2Bits k n + 1)
  | 0, n, h0, h => by
    rw [log2Bits]
    omega
  | k + 1, n, h0, h => by
    have hP : 0 < 2 ^ 2 ^ k := Nat.two_pow_pos _
    rw [log2Bits, Nat.shiftRight_eq_div_pow]
    by_cases hs : n / 2 ^ 2 ^ k = 0
    · rw [if_pos hs]
      exact log2Bits_spec k h0 ((Nat.div_eq_zero_iff hP).mp hs)
    · rw [if_neg hs]
      have hlt : n / 2 ^ 2 ^ k < 2 ^ 2 ^ k := by
        rw [Nat.div_lt_iff_lt_mul hP, ← Nat.pow_add, ← Nat.two_mul, ← Nat.pow_succ']
        exact h
      obtain ⟨h1, h2⟩ := log2Bits_spec k (Nat.pos_of_ne_zero hs) hlt
      rw [Nat.pow_add, Nat.add_assoc, Nat.pow_add]
      constructor
      · calc 2 ^ 2 ^ k * 2 ^ log2Bits k (n / 2 ^ 2 ^ k)
            ≤ 2 ^ 2 ^ k * (n / 2 ^ 2 ^ k) := Nat.mul_le_mul_left _ h1
          _ ≤ n := Nat.mul_div_le n _
      · calc n < 2 ^ 2 ^ k * (n / 2 ^ 2 ^ k + 1) := Nat.lt_mul_div_succ n hP
          _ ≤ 2 ^ 2 ^ k * 2 ^ (log2Bits k (n / 2 ^ 2 ^ k) + 1) := Nat.mul_le_mul_left _ h2

/-- The search finds a width once one of `k + f` is there to find. -/
theorem width_spec {n : Nat} : ∀ f k, n < 2 ^ 2 ^ (k + f) → n < 2 ^ 2 ^ width n f k
  | 0, _, h => h
  | f + 1, k, h => by
    rw [width, Nat.shiftRight_eq_div_pow]
    split_ifs with hs
    · exact (Nat.div_eq_zero_iff (Nat.two_pow_pos _)).mp hs
    · exact width_spec f (k + 1) (by rwa [Nat.add_right_comm])

/-- `log2 n` is `⌊log₂ n⌋`. -/
theorem log2_spec {n : Nat} (h : 0 < n) : 2 ^ log2 n ≤ n ∧ n < 2 ^ (log2 n + 1) := by
  refine log2Bits_spec _ h (width_spec n 0 ?_)
  calc n < 2 ^ n := Nat.lt_two_pow n
    _ ≤ 2 ^ 2 ^ (0 + n) := Nat.pow_le_pow_right Nat.two_pos (by simpa using (Nat.lt_two_pow n).le)

/-! ### Deciding `Fits` -/

/-- A magnitude fits when its bits below the 53 leading ones are zero. -/
theorem fits_iff (m : Nat) : m % (1 <<< (log2 m - 52)) = 0 ↔ Fits m := by
  rw [Nat.one_shiftLeft]
  rcases Nat.eq_zero_or_pos m with rfl | h0
  · exact ⟨fun _ => ⟨0, 0, by decide, rfl⟩, fun _ => rfl⟩
  obtain ⟨hl1, hl2⟩ := log2_spec h0
  constructor
  · intro h
    refine ⟨m / 2 ^ (log2 m - 52), log2 m - 52, ?_,
      (Nat.div_mul_cancel (Nat.dvd_of_mod_eq_zero h)).symm⟩
    rw [Nat.div_lt_iff_lt_mul (Nat.two_pow_pos _), ← Nat.pow_add]
    exact Nat.lt_of_lt_of_le hl2 (Nat.pow_le_pow_right Nat.two_pos (by omega))
  · rintro ⟨j, i, hj, rfl⟩
    have hlt : 2 ^ log2 (j * 2 ^ i) < 2 ^ (53 + i) := by
      rw [Nat.pow_add]
      exact Nat.lt_of_le_of_lt hl1 (Nat.mul_lt_mul_of_pos_right hj (Nat.two_pow_pos _))
    have hle := (Nat.pow_lt_pow_iff_right (by decide)).mp hlt
    exact Nat.mod_eq_zero_of_dvd
      (Nat.dvd_trans (Nat.pow_dvd_pow 2 (by omega)) (Nat.dvd_mul_left _ _))

instance : DecidablePred Fits := fun m => decidable_of_iff _ (fits_iff m)

theorem fits_mul_pow {u : Nat} (k : Nat) (hu : u ≤ 2 ^ 53) : Fits (u * 2 ^ k) := by
  rcases Nat.lt_or_ge u (2 ^ 53) with h | h
  · exact ⟨u, k, h, rfl⟩
  · -- `2^53` units of `2^k` are `2^52` units of `2^(k + 1)`
    refine ⟨2 ^ 52, k + 1, by decide, ?_⟩
    rw [Nat.le_antisymm hu h, Nat.pow_succ 2 k, ← Nat.mul_assoc, Nat.mul_right_comm, ← Nat.pow_succ]

/-! ### Rounding to 53 significant bits -/

/-- The weight of the last of 53 significant bits of `n / d`: zero through the subnormals and
    the first binade, `⌊log₂ (n / d)⌋ - 52` above. -/
def ulpShift (n d : Nat) : Nat :=
  let a := log2 n
  let b := log2 d
  if a < b + 53 then 0
  else if n < d <<< (a - b) then a - b - 53 else a - b - 52

/-- `q / r` rounded to a whole number, ties to even. -/
def roundDiv (q r : Nat) : Nat :=
  if r < 2 * (q % r) ∨ (2 * (q % r) = r ∧ q / r % 2 = 1) then q / r + 1 else q / r

/-- The shift of rounding `n / d`: `n / d` is below `2^53` units of `2^k`, and, unless `k` is
    zero, at least `2^52` of them. -/
theorem ulpShift_spec {n d : Nat} (hd : 0 < d) :
    n < d * 2 ^ ulpShift n d * 2 ^ 53 ∧
      (ulpShift n d = 0 ∨ d * 2 ^ ulpShift n d * 2 ^ 52 ≤ n) := by
  obtain ⟨hb1, hb2⟩ := log2_spec hd
  rcases Nat.eq_zero_or_pos n with rfl | h0
  · have hk : ulpShift 0 d = 0 := by rw [ulpShift, log2_zero, if_pos (by omega)]
    rw [hk]
    exact ⟨Nat.mul_pos (Nat.mul_pos hd (Nat.two_pow_pos _)) (Nat.two_pow_pos _), .inl rfl⟩
  obtain ⟨ha1, ha2⟩ := log2_spec h0
  dsimp only [ulpShift]
  generalize log2 n = a at *
  generalize log2 d = b at *
  split_ifs with h1 h2
  · -- the subnormals and the first binade: no shift
    refine ⟨?_, .inl rfl⟩
    calc n < 2 ^ (a + 1) := ha2
      _ ≤ 2 ^ (b + 53) := Nat.pow_le_pow_right Nat.two_pos (by omega)
      _ = 2 ^ b * 2 ^ 0 * 2 ^ 53 := by rw [Nat.pow_zero, Nat.mul_one, Nat.pow_add]
      _ ≤ d * 2 ^ 0 * 2 ^ 53 := Nat.mul_le_mul_right _ (Nat.mul_le_mul_right _ hb1)
  · -- `n / d` below `2^(a - b)`
    obtain ⟨k, rfl⟩ := Nat.exists_eq_add_of_le (not_lt.mp h1)
    rw [show b + 53 + k - b - 53 = k by omega]
    rw [Nat.shiftLeft_eq, show b + 53 + k - b = k + 53 by omega, Nat.pow_add, ← Nat.mul_assoc]
      at h2
    refine ⟨h2, .inr (Nat.le_of_lt ?_)⟩
    calc d * 2 ^ k * 2 ^ 52 < 2 ^ (b + 1) * 2 ^ k * 2 ^ 52 :=
          Nat.mul_lt_mul_of_pos_right (Nat.mul_lt_mul_of_pos_right hb2 (Nat.two_pow_pos _))
            (Nat.two_pow_pos _)
      _ = 2 ^ (b + 53 + k) := by
          rw [← Nat.pow_add, ← Nat.pow_add, show b + 1 + k + 52 = b + 53 + k by omega]
      _ ≤ n := ha1
  · -- `n / d` from `2^(a - b)` on
    obtain ⟨k, rfl⟩ := Nat.exists_eq_add_of_le (not_lt.mp h1)
    rw [show b + 53 + k - b - 52 = k + 1 by omega]
    rw [Nat.shiftLeft_eq, show b + 53 + k - b = k + 53 by omega, not_lt] at h2
    constructor
    · calc n < 2 ^ (b + 53 + k + 1) := ha2
        _ = 2 ^ b * 2 ^ (k + 1) * 2 ^ 53 := by
          rw [← Nat.pow_add, ← Nat.pow_add, show b + (k + 1) + 53 = b + 53 + k + 1 by omega]
        _ ≤ d * 2 ^ (k + 1) * 2 ^ 53 := Nat.mul_le_mul_right _ (Nat.mul_le_mul_right _ hb1)
    · exact .inr (by rw [Nat.mul_assoc, ← Nat.pow_add]; exact h2)

theorem roundDiv_le (q r : Nat) : roundDiv q r ≤ q / r + 1 := by
  unfold roundDiv
  split_ifs <;> omega

/-- Rounded at its shift, `n / d` is at most `2^53` units; with `d = 0` it is at most one. -/
theorem roundDiv_ulpShift_le (n d : Nat) : roundDiv n (d <<< ulpShift n d) ≤ 2 ^ 53 := by
  have hle := roundDiv_le n (d <<< ulpShift n d)
  rw [Nat.shiftLeft_eq] at hle ⊢
  rcases Nat.eq_zero_or_pos d with rfl | hd
  · rw [Nat.zero_mul] at hle ⊢
    rw [Nat.div_zero] at hle
    exact Nat.le_trans hle (by decide)
  · have hD : 0 < d * 2 ^ ulpShift n d := Nat.mul_pos hd (Nat.two_pow_pos _)
    have := (Nat.div_lt_iff_lt_mul hD).mpr
      (by rw [Nat.mul_comm (2 ^ 53)]; exact (ulpShift_spec hd).1)
    omega

/-- The magnitude `n / d` rounds to fits. -/
theorem fits_roundDiv (n d : Nat) :
    Fits (roundDiv n (d <<< ulpShift n d) <<< ulpShift n d) := by
  rw [Nat.shiftLeft_eq _ (ulpShift n d)]
  exact fits_mul_pow _ (roundDiv_ulpShift_le n d)

end StatsdBridge.Go.Binary64
