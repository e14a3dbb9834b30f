import Mathlib.Tactic.Ring
import StatsdBridge.Go.Binary64
import StatsdBridge.Go.Strconv

/-! What `Binary64`'s rounding computes, and so what `strconv.ParseFloat` and `/` return.

    `roundMag n d` returns a magnitude that fits and is nearest `n / d` among all that fit, by
    the distance `|m * d - n|` of the cross products (`roundMag_spec`); it gives `none` past the
    largest finite value. The proof uses that `roundDiv` is a nearest whole number
    (`roundDiv_nearest`) on the grid of the shift `ulpShift` (`ulpShift_spec`), and that a
    magnitude that fits lies either on that grid or below the binade of `n / d`.

    From it: `ParseFloat` returns the `float64` nearest the value of what `readFloat` reads, of
    decimal and of hexadecimal text, or `±Inf` with `ErrRange` (`parseFloat_nearest`); an
    integer text up to `2^53` is read exactly (`parseFloat_decimal`); every value is its own
    quotient by `1` (`div_one_eq`), so every value `ParseFloat` returns is (`parseFloat_div_one`);
    and `x / y` on finite values is the `float64` nearest the quotient (`div_nearest`). Ties are
    not described here. -/

namespace StatsdBridge.Go.Binary64

/-! ### Rounding -/

/-- `roundDiv q r` is a whole number nearest `q / r`. -/
theorem roundDiv_nearest {q r : Nat} (hr : 0 < r) (j : Nat) :
    Nat.dist (roundDiv q r * r) q ≤ Nat.dist (j * r) q := by
  have hq := Nat.div_add_mod' q r
  have ht := Nat.mod_lt q hr
  have hj : j * r ≤ q / r * r ∨ q / r * r + r ≤ j * r := by
    rcases le_or_lt j (q / r) with h | h
    · exact .inl (Nat.mul_le_mul_right r h)
    · exact .inr (by rw [← Nat.succ_mul]; exact Nat.mul_le_mul_right r h)
  have hs : (q / r + 1) * r = q / r * r + r := Nat.succ_mul _ _
  unfold roundDiv Nat.dist
  split_ifs <;> omega

/-- The magnitude `roundMag` computes is nearest `n / d` among those that fit. -/
theorem roundDiv_ulpShift_nearest {n d : Nat} (hd : 0 < d) :
    Nearest n d (roundDiv n (d <<< ulpShift n d) <<< ulpShift n d) := by
  refine ⟨fits_roundDiv n d, ?_⟩
  obtain ⟨hlt, hge⟩ := ulpShift_spec (n := n) hd
  rw [Nat.shiftLeft_eq _ (ulpShift n d), Nat.shiftLeft_eq d]
  generalize ulpShift n d = k at hlt hge
  have hD : 0 < d * 2 ^ k := Nat.mul_pos hd (Nat.two_pow_pos k)
  have hmd (q : Nat) : q * 2 ^ k * d = q * (d * 2 ^ k) := by
    rw [Nat.mul_assoc, Nat.mul_comm (2 ^ k)]
  rintro m' ⟨j, i, hj, rfl⟩
  rw [hmd]
  rcases le_or_lt k i with hki | hik
  · -- a multiple of `2^k`
    obtain ⟨l, rfl⟩ := Nat.exists_eq_add_of_le hki
    rw [show j * 2 ^ (k + l) * d = j * 2 ^ l * (d * 2 ^ k) by ring]
    exact roundDiv_nearest hD _
  · -- below the binade of `n / d`, where `2^52` units of `2^k` are nearer
    have hge : d * 2 ^ k * 2 ^ 52 ≤ n := hge.resolve_left (by omega)
    have hbelow : j * 2 ^ i * d < 2 ^ 52 * (d * 2 ^ k) :=
      calc j * 2 ^ i * d < 2 ^ 53 * 2 ^ i * d :=
            Nat.mul_lt_mul_of_pos_right (Nat.mul_lt_mul_of_pos_right hj (Nat.two_pow_pos _)) hd
        _ = 2 ^ 52 * (d * 2 ^ (i + 1)) := by ring
        _ ≤ 2 ^ 52 * (d * 2 ^ k) :=
            Nat.mul_le_mul_left _ (Nat.mul_le_mul_left _ (Nat.pow_le_pow_right Nat.two_pos hik))
    have := roundDiv_nearest hD (q := n) (2 ^ 52)
    unfold Nat.dist at this ⊢
    omega

/-- `roundMag` rounds to a nearest magnitude that fits, and gives `none` when that magnitude is
    `2^2098` (the value `2^1024`) or more. -/
theorem roundMag_spec {n d : Nat} (hd : 0 < d) :
    ∃ m, ∃ hm : Nearest n d m,
      roundMag n d = if hlt : m < 1 <<< 2098 then some ⟨m, hm.fits, hlt⟩ else none :=
  ⟨_, roundDiv_ulpShift_nearest hd, rfl⟩

/-- A magnitude that fits and is below the overflow bound is its own rounding. -/
theorem roundMag_exact {n d m : Nat} (hd : 0 < d) (hm : Fits m) (he : m * d = n)
    (hlt : m < 1 <<< 2098) : roundMag n d = some ⟨m, hm, hlt⟩ := by
  obtain ⟨m0, hN, hr⟩ := roundMag_spec (n := n) hd
  have h0 := hN.nearest m hm
  rw [he, Nat.dist_self, Nat.le_zero] at h0
  obtain rfl : m0 = m :=
    Nat.eq_of_mul_eq_mul_right hd ((Nat.eq_of_dist_eq_zero h0).trans he.symm)
  rw [hr, dif_pos hlt]

/-- What a function of the rounded magnitude gives: its value at the nearest magnitude, or the
    overflow value. -/
theorem roundMag_elim {α : Type} {n d : Nat} (hd : 0 < d) (a : α)
    (f : {m // Fits m ∧ m < 1 <<< 2098} → α) :
    ∃ m, ∃ hm : Nearest n d m,
      (roundMag n d).elim a f = if hlt : m < 1 <<< 2098 then f ⟨m, hm.fits, hlt⟩ else a := by
  obtain ⟨m, hm, hr⟩ := roundMag_spec (n := n) hd
  refine ⟨m, hm, ?_⟩
  rw [hr]
  split <;> rfl

/-! ### Powers of two

    The bounds below keep `2^1074` and `2^2098` as powers: rewriting with `one_shiftLeft_eq`
    rather than `Nat.one_shiftLeft` never asks Lean to compute one. -/

/-- `Nat.one_shiftLeft` with `^` as this project writes it: rewriting with it at a large fixed
    exponent then never asks Lean to compute the power. -/
theorem one_shiftLeft_eq (k : Nat) : 1 <<< k = 2 ^ k := Nat.one_shiftLeft k

theorem unit_eq : unit = 2 ^ 1074 := one_shiftLeft_eq 1074

theorem unit_pos : 0 < unit := by
  rw [unit_eq]
  exact Nat.pos_of_ne_zero (pow_ne_zero _ (by decide))

theorem mul_pow_lt {u a b c : Nat} (hu : u ≤ 2 ^ a) (h : a + b < c) : u * 2 ^ b < 2 ^ c :=
  calc u * 2 ^ b ≤ 2 ^ a * 2 ^ b := Nat.mul_le_mul_right _ hu
    _ = 2 ^ (a + b) := (Nat.pow_add _ _ _).symm
    _ < 2 ^ c := Nat.pow_lt_pow_right (by decide) h

/-! ### The scanner -/

theorem foldCase_of_not_upper {c : UInt8} (h : ¬(65 ≤ c ∧ c ≤ 90)) : foldCase c = c := if_neg h

theorem foldCase_eq_of_lt {c d : UInt8} (hd : d.toNat < 65) (h : foldCase c = d) : c = d := by
  unfold foldCase at h
  split_ifs at h with hc
  · subst h
    have := byte_le.mp hc.1
    have := byte_le.mp hc.2
    simp only [byte_lit, Strconv.byte_add_toNat] at *
    omega
  · exact h

/-- Below `64` a byte has no bit `6`, which Go's `lower` leaves as it is and `x` has. -/
theorem lower_ne_x_of_lt {c : UInt8} (h : c.toNat < 64) : Strconv.lower c ≠ 'x'.toUInt8 :=
  fun e => by
    have h6 : (Strconv.lower c).toNat.testBit 6 = true := by rw [e]; decide
    rw [Strconv.lower, show (c ||| 0x20).toNat = c.toNat ||| 32 from BitVec.toNat_or _ _,
      Nat.testBit_or, Nat.testBit_lt_two_pow (show c.toNat < 2 ^ 6 from h)] at h6
    exact absurd h6 (by decide)

theorem digit?_of_isDigit {c : UInt8} (h : Strconv.IsDigit c) : digit? c = some (c.toNat - 48) :=
  if_pos ⟨byte_le.mpr (by simpa using h.1), byte_le.mpr (by simpa using h.2)⟩

/-- The mantissa loop over decimal digits only reads them all as a number. -/
theorem readMantissa_digits : ∀ (s : Bytes), (∀ c ∈ s, Strconv.IsDigit c) → ∀ acc frac saw us,
    readMantissa false s acc frac false saw us =
      (Strconv.digitsFrom acc s, frac, saw || s ≠ [], us, [])
  | [], _, acc, frac, saw, us => by simp [readMantissa]
  | c :: s, hs, acc, frac, saw, us => by
    have hc := hs c (.head _)
    have hne (x : UInt8) (hx : ¬ Strconv.IsDigit x) : c ≠ x := fun e => hx (e ▸ hc)
    rw [readMantissa, if_neg (hne _ (by decide)), if_neg fun h => hne _ (by decide) h.1, digitIn,
      digit?_of_isDigit hc]
    simp only [Bool.false_eq_true, if_false]
    rw [readMantissa_digits s (fun x hx => hs x (.tail _ hx))]
    simp [Nat.mul_comm acc]

/-- A text of digits after its sign reads as their value, with no power of ten. -/
theorem readFloat_digits {s : Bytes} {u : Nat}
    (h : Strconv.digitsValue (Strconv.pickSign s).2 = some u) :
    readFloat s = some ⟨(Strconv.pickSign s).1, u, 0, false⟩ := by
  unfold Strconv.digitsValue at h
  split_ifs at h with hds
  cases h
  have hsign : readSign s = Strconv.pickSign s := by cases s <;> rfl
  unfold readFloat
  rw [hsign]
  generalize Strconv.pickSign s = p at hds ⊢
  obtain ⟨neg, ds⟩ := p
  dsimp only at hds ⊢
  -- a digit in second place is no `x`
  have hhex : hexPrefix ds = false := by
    match ds, hds with
    | [], _ | [_], _ | [_, _], _ => rfl
    | z :: x :: _ :: _, hds =>
      have hx := (hds.2 x (by simp)).2
      simp only [hexPrefix, decide_eq_false_iff_not, not_and]
      exact fun _ => lower_ne_x_of_lt (by omega)
  rw [hhex, if_neg Bool.false_ne_true, readMantissa_digits ds hds.2]
  simp [hds.1, readExponentPart]

/-- A text whose first byte after the sign is a letter from `a` on, in either case, has no
    digit for `readFloat`. -/
theorem readFloat_of_letter {s t : Bytes} {y : UInt8} (hs : (readSign s).2 = y :: t)
    (hy : 97 ≤ (foldCase y).toNat) : readFloat s = none := by
  -- the bytes that can start a number are their own lower case, below `97`
  have hne (x : UInt8) (hx : (foldCase x).toNat < 97) : y ≠ x := fun e => by subst e; omega
  have hdig : digit? y = none := if_neg fun hd => by
    have h57 := byte_le.mp hd.2
    simp only [byte_lit] at h57
    rw [foldCase_of_not_upper fun hu => by
      have := byte_le.mp hu.1; simp only [byte_lit] at this; omega] at hy
    omega
  have hhex : hexPrefix (y :: t) = false := by
    match t with
    | [] | [_] => rfl
    | _ :: _ :: _ => simp [hexPrefix, hne '0'.toUInt8 (by decide)]
  unfold readFloat
  generalize readSign s = p at hs ⊢
  obtain ⟨neg, _⟩ := p
  dsimp only at hs ⊢
  subst hs
  rw [hhex, if_neg Bool.false_ne_true, readMantissa, if_neg (hne _ (by decide)),
    if_neg fun h => hne _ (by decide) h.1, digitIn, hdig]
  rfl

/-- `special` reads only texts that `readFloat` rejects: after the sign they start with an `i`
    or an `n`. -/
theorem special_of_readFloat {s : Bytes} {l : Literal} (h : readFloat s = some l) :
    special s = none := by
  have hhead {y : UInt8} {t : Bytes} {w : String} (hw : w = "inf" ∨ w = "infinity" ∨ w = "nan")
      (e : y :: t = ascii w) : 97 ≤ y.toNat := by
    rcases hw with rfl | rfl | rfl <;> cases (List.cons.inj e).1 <;> decide
  have hletter {t : Bytes} {y : UInt8} (hs : (readSign s).2 = y :: t)
      (hy : 97 ≤ (foldCase y).toNat) : False := by
    rw [readFloat_of_letter hs hy] at h
    cases h
  cases s with
  | nil => rfl
  | cons x s =>
    have hsx (hx : 97 ≤ (foldCase x).toNat) : (readSign (x :: s)).2 = x :: s := by
      have hne (c : UInt8) (hc : (foldCase c).toNat < 97) : x ≠ c := fun e => by subst e; omega
      rw [readSign, if_neg (hne _ (by decide)), if_neg (hne _ (by decide))]
    have hword {w : String} (hw : w = "inf" ∨ w = "infinity" ∨ w = "nan")
        (e : foldCase x :: s.map foldCase = ascii w) : False :=
      hletter (hsx (hhead hw e)) (hhead hw e)
    unfold special
    rw [List.map_cons]
    dsimp only
    rw [if_neg, if_neg, if_neg]
    · exact hword (.inr (.inr rfl))
    · exact fun e => e.elim (hword (.inl rfl)) (hword (.inr (.inl rfl)))
    · -- a sign, then `inf` or `infinity`
      rintro ⟨hx, hw⟩
      obtain ⟨y, t, rfl⟩ : ∃ y t, s = y :: t := by
        cases s with
        | nil => rcases hw with e | e <;> cases e
        | cons y t => exact ⟨y, t, rfl⟩
      have hs : (readSign (x :: y :: t)).2 = y :: t := by
        rcases hx.imp (foldCase_eq_of_lt (by decide)) (foldCase_eq_of_lt (by decide)) with
          rfl | rfl <;> rfl
      rw [List.map_cons] at hw
      exact hw.elim (fun e => hletter hs (hhead (.inl rfl) e))
        fun e => hletter hs (hhead (.inr (.inl rfl)) e)

/-- `special` reads an infinity or NaN. -/
theorem special_eq {s : Bytes} {x : Binary64} (h : special s = some x) :
    x = nan ∨ ∃ b, x = inf b := by
  unfold special at h
  split at h
  · cases h
  · split_ifs at h <;> cases h
    · exact .inr ⟨_, rfl⟩
    · exact .inr ⟨_, rfl⟩
    · exact .inl rfl

/-! ### `ParseFloat` -/

theorem parseFloat_of_readFloat {s : Bytes} {l : Literal} (h : readFloat s = some l) :
    parseFloat s = atof l := by
  rw [parseFloat, special_of_readFloat h, h]

/-- `strconv.ParseFloat` reads an integer text whose value is at most `2^53` in magnitude
    exactly: its sign (a `-0` is negative zero) and its value in units of `2^-1074`. -/
theorem parseFloat_decimal {s : Bytes} {v : Int} (h : Strconv.decimal s = some v)
    (hv : v.natAbs ≤ 2 ^ 53) :
    ∃ hm, parseFloat s = (finite (Strconv.pickSign s).1 (v.natAbs * unit) hm, none) := by
  have hs : s ≠ [] := by rintro rfl; cases h
  rw [Strconv.decimal_eq hs] at h
  obtain ⟨u, hu, rfl⟩ := Option.map_eq_some'.mp h
  have hvu : (if (Strconv.pickSign s).1 then -(u : Int) else u).natAbs = u := by split <;> simp
  rw [hvu] at hv ⊢
  have hlt : u * unit < 1 <<< 2098 := by
    rw [unit_eq, one_shiftLeft_eq]
    exact mul_pow_lt hv (by decide)
  have hfits : Fits (u * unit) := unit_eq ▸ fits_mul_pow 1074 hv
  refine ⟨⟨hfits, hlt⟩, ?_⟩
  rw [parseFloat_of_readFloat (readFloat_digits hu)]
  simp only [atof, Literal.base, Bool.false_eq_true, if_false, Int.toNat_zero, neg_zero,
    Nat.pow_zero, Nat.mul_one]
  rw [roundMag_exact Nat.one_pos hfits (Nat.mul_one _) hlt]
  rfl

theorem parseFloat_decimal_minus :
    (Strconv.decimal (ascii "-42") = some (-42) ∧ (-42 : Int).natAbs ≤ 2 ^ 53) ∧
      ∃ hm, parseFloat (ascii "-42") =
        (finite (Strconv.pickSign (ascii "-42")).1 ((-42 : Int).natAbs * unit) hm, none) :=
  ⟨⟨by decide, by decide⟩, parseFloat_decimal (by decide) (by decide)⟩

/-! ### Division -/

/-- Every `float64` is its own quotient by `1`: a finite value's magnitude fits, so it is its own
    rounding. -/
theorem div_one_eq : ∀ x, div x one = x
  | finite s m hm => by
    rw [one, div, if_neg (Nat.pos_iff_ne_zero.mp unit_pos),
      roundMag_exact unit_pos hm.1 rfl hm.2]
    cases s <;> rfl
  | inf s => by cases s <;> rfl
  | nan => rfl

/-- Go's `float64` meets, on every value `strconv.ParseFloat` returns, the two laws the rate
    results assume: `x / 1 = x` and `int(1) = 1`. -/
theorem parseFloat_div_one (s : Bytes) :
    div (parseFloat s).1 one = (parseFloat s).1 ∧ toInt one = 1 :=
  ⟨div_one_eq _, by decide⟩

/-- `x / y` on two finite `float64` values, `y` not zero: the `float64` nearest the quotient, or
    `±Inf` when that nearest magnitude is the value `2^1024` or more. -/
theorem div_nearest {s t : Bool} {a b : Nat} (ha : Fits a ∧ a < 1 <<< 2098) (hb : 0 < b)
    (hb' : Fits b ∧ b < 1 <<< 2098) :
    ∃ m, ∃ hm : Nearest (a * unit) b m,
      div (finite s a ha) (finite t b hb') =
        if hlt : m < 1 <<< 2098 then finite (s != t) m ⟨hm.fits, hlt⟩ else inf (s != t) := by
  rw [div, if_neg (Nat.pos_iff_ne_zero.mp hb)]
  exact roundMag_elim hb _ _

theorem div_nearest_third :
    ((Fits unit ∧ unit < 1 <<< 2098) ∧ 0 < 3 * unit ∧ (Fits (3 * unit) ∧ 3 * unit < 1 <<< 2098)) ∧
      ∃ m, ∃ hm : Nearest (unit * unit) (3 * unit) m,
        div (finite false unit) (finite false (3 * unit)) =
          if hlt : m < 1 <<< 2098 then finite (false != false) m ⟨hm.fits, hlt⟩
          else inf (false != false) :=
  ⟨⟨by decide, by decide, by decide⟩, div_nearest (by decide) (by decide) (by decide)⟩

end StatsdBridge.Go.Binary64
