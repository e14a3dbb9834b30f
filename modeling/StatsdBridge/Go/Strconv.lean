import Mathlib.Algebra.Field.Rat
import StatsdBridge.Go.Float

/-! Package `strconv`'s integer parsing as `strconv.Atoi` uses it (Go 1.13). That is `Atoi`
    with its fast path for short texts, and otherwise `ParseInt(s, 10, 0)` with `ParseUint`
    behind it.

    An `int` has `intSize` bits, `32` or `64` by the platform. `ParseUint` computes in
    `uint64`, so its products and sums are taken `% 2^64`. It catches an overflow with a cutoff
    before the product and a wrap test after the sum. The fast path computes in `int` and has
    no such check: its texts are too short to overflow.

    What an integer text means is `decimal`: an optional sign, then one or more digits.
    `ParseUint`'s loop computes exactly "the digits' value, if it is at most `maxVal`"
    (`parseUintLoop_eq_some_iff`). `ParseInt` accepts exactly the decimal texts whose value
    fits in `bitSize` bits (`parseInt_eq_some_iff`). The fast path of `Atoi` returns on every
    input what the slow path returns (`atoi_eq_parseInt`), so `Atoi` accepts exactly the
    decimal texts whose value fits an `int`, and each of its errors names `Atoi` and the
    text (`atoi_eq_decimal`). -/

namespace StatsdBridge.Go.Strconv

/-- `*strconv.NumError`: the function that failed (`Func`), its input (`Num`) and why (`Err`,
    `ErrSyntax` or `ErrRange`). -/
structure NumError where
  func : Bytes
  num : Bytes
  err : Go.NumError
  deriving DecidableEq, Repr

def fnParseUint : Bytes := ascii "ParseUint"

def fnParseInt : Bytes := ascii "ParseInt"

def fnAtoi : Bytes := ascii "Atoi"

/-- `syntaxError(fn, str)`. -/
def syntaxError (fn str : Bytes) : NumError := ⟨fn, str, .errSyntax⟩

/-- `rangeError(fn, str)`. -/
def rangeError (fn str : Bytes) : NumError := ⟨fn, str, .errRange⟩

/-- `maxUint64`, `1<<64 - 1`. -/
def maxUint64 : Nat := 2 ^ 64 - 1

/-! ### Digits -/

/-- A byte `0`–`9`. -/
def IsDigit (c : UInt8) : Prop := 48 ≤ c.toNat ∧ c.toNat ≤ 57

instance (c : UInt8) : Decidable (IsDigit c) :=
  inferInstanceAs (Decidable (48 ≤ c.toNat ∧ c.toNat ≤ 57))

/-- `lower(c)`, which is `c | ('x' - 'X')`. -/
def lower (c : UInt8) : UInt8 := c ||| 0x20

/-- The digit `ParseUint` reads from a byte. Digits give `0`–`9` and letters give `10` on; other
    bytes give none. -/
def digit (c : UInt8) : Option UInt8 :=
  if 48 ≤ c ∧ c ≤ 57 then some (c - 48)
  else if 97 ≤ lower c ∧ lower c ≤ 122 then some (lower c - 97 + 10)
  else none

theorem byte_sub_toNat (a b : UInt8) : (a - b).toNat = (256 - b.toNat + a.toNat) % 256 :=
  BitVec.toNat_sub _ _

theorem byte_add_toNat (a b : UInt8) : (a + b).toNat = (a.toNat + b.toNat) % 256 :=
  BitVec.toNat_add _ _

theorem sub_toNat_of_isDigit {c : UInt8} (h : IsDigit c) : (c - 48).toNat = c.toNat - 48 := by
  simp only [byte_sub_toNat, byte_lit, Nat.reduceMod]
  have := h.1
  have := byte_toNat_lt c
  omega

theorem digit_of_isDigit {c : UInt8} (h : IsDigit c) : digit c = some (c - 48) :=
  if_pos ⟨byte_le.mpr (by simpa using h.1), byte_le.mpr (by simpa using h.2)⟩

/-- `ParseUint` in base `10` reads a digit below `10` from the digits only. -/
theorem isDigit_of_digit {c d : UInt8} (h : digit c = some d) (hd : d.toNat < 10) : IsDigit c := by
  unfold digit at h
  by_cases h₁ : 48 ≤ c ∧ c ≤ 57
  · exact ⟨by simpa using byte_le.mp h₁.1, by simpa using byte_le.mp h₁.2⟩
  · rw [if_neg h₁] at h
    by_cases h₂ : 97 ≤ lower c ∧ lower c ≤ 122
    · rw [if_pos h₂, Option.some.injEq] at h
      have h₃ := byte_le.mp h₂.1
      have h₄ := byte_le.mp h₂.2
      simp only [← h, byte_add_toNat, byte_sub_toNat, byte_lit, Nat.reduceMod] at hd h₃ h₄
      omega
    · rw [if_neg h₂] at h
      nomatch h

/-- The value of decimal digits read after the value `n`. -/
def digitsFrom (n : Nat) (s : Bytes) : Nat := s.foldl (fun n c => 10 * n + (c.toNat - 48)) n

@[simp] theorem digitsFrom_nil (n : Nat) : digitsFrom n [] = n := rfl

@[simp] theorem digitsFrom_cons (n : Nat) (c : UInt8) (s : Bytes) :
    digitsFrom n (c :: s) = digitsFrom (10 * n + (c.toNat - 48)) s := rfl

theorem le_digitsFrom : ∀ (s : Bytes) (n : Nat), n ≤ digitsFrom n s
  | [], _ => Nat.le_refl _
  | c :: s, n => by
    have : n ≤ 10 * n + (c.toNat - 48) := by omega
    exact this.trans (le_digitsFrom s _)

/-- Digits read after `n` stay below `n + 1` shifted by their number. -/
theorem digitsFrom_lt : ∀ (s : Bytes), (∀ c ∈ s, IsDigit c) → ∀ n,
    digitsFrom n s < (n + 1) * 10 ^ s.length
  | [], _, n => by simp
  | c :: s, hs, n => by
    have hc := (hs c (List.mem_cons_self _ _)).2
    calc digitsFrom n (c :: s)
        < (10 * n + (c.toNat - 48) + 1) * 10 ^ s.length :=
          digitsFrom_lt s (fun x hx => hs x (List.mem_cons_of_mem _ hx)) _
      _ ≤ (n + 1) * 10 * 10 ^ s.length := Nat.mul_le_mul_right _ (by omega)
      _ = (n + 1) * 10 ^ (c :: s).length := by
        rw [List.length_cons, Nat.pow_succ, Nat.mul_assoc, Nat.mul_comm 10]

/-! ### `ParseUint` -/

/-- The loop of `ParseUint(s, 10, bitSize)` over the bytes of `s`, from the value `n`. A byte
    that is not a digit below the base `10` is a syntax error. A value over `maxVal` is a range
    error, returned with `maxVal`. The overflow of `n * 10` is caught before the product by the
    cutoff `maxUint64/10 + 1`, and that of the sum by the test `n1 < n`. -/
def parseUintLoop (s0 : Bytes) (maxVal : Nat) : Bytes → Nat → Nat × Option NumError
  | [], n => (n, none)
  | c :: s, n =>
    match digit c with
    | none => (0, some (syntaxError fnParseUint s0))
    | some d =>
      if 10 ≤ d then (0, some (syntaxError fnParseUint s0))
      else if maxUint64 / 10 + 1 ≤ n then (maxVal, some (rangeError fnParseUint s0))
      else
        let n := n * 10 % 2 ^ 64
        let n1 := (n + d.toNat) % 2 ^ 64
        if n1 < n ∨ maxVal < n1 then (maxVal, some (rangeError fnParseUint s0))
        else parseUintLoop s0 maxVal s n1

/-- `ParseUint(s, 10, bitSize)`. The empty text is a syntax error, and `bitSize` `0` means
    `intSize`. -/
def parseUint (intSize : Nat) (s : Bytes) (bitSize : Nat) : Nat × Option NumError :=
  if s = [] then (0, some (syntaxError fnParseUint s))
  else
    let bitSize := if bitSize = 0 then intSize else bitSize
    parseUintLoop s (2 ^ bitSize - 1) s 0

theorem parseUintLoop_not_digit {c : UInt8} (hc : ¬ IsDigit c) (s0 : Bytes) (maxVal : Nat)
    (s : Bytes) (n : Nat) :
    parseUintLoop s0 maxVal (c :: s) n = (0, some (syntaxError fnParseUint s0)) := by
  rw [parseUintLoop]
  split
  · rfl
  · rename_i d hd
    have : ¬ d.toNat < 10 := fun h => hc (isDigit_of_digit hd h)
    rw [if_pos (byte_le.mpr (by simp only [byte_lit, Nat.reduceMod]; omega))]

/-- One digit: the machine's overflow tests fail exactly when the value passes `maxVal`. -/
theorem parseUintLoop_digit {c : UInt8} (hc : IsDigit c) {n maxVal : Nat}
    (hmax : maxVal ≤ maxUint64) (s0 s : Bytes) :
    parseUintLoop s0 maxVal (c :: s) n =
      if maxVal < 10 * n + (c.toNat - 48) then (maxVal, some (rangeError fnParseUint s0))
      else parseUintLoop s0 maxVal s (10 * n + (c.toNat - 48)) := by
  have hd := sub_toNat_of_isDigit hc
  have h10 : ¬ (10 : UInt8) ≤ c - 48 := fun h => by
    have := byte_le.mp h
    simp only [byte_lit, Nat.reduceMod, hd] at this
    have := hc.2
    omega
  rw [parseUintLoop, digit_of_isDigit hc]
  dsimp only
  rw [if_neg h10, hd]
  simp only [maxUint64, Nat.reducePow, Nat.reduceSub, Nat.reduceDiv, Nat.reduceAdd] at hmax ⊢
  have := hc.2
  by_cases hcut : 1844674407370955162 ≤ n
  · rw [if_pos hcut, if_pos (by omega)]
  · rw [if_neg hcut]
    by_cases hover : maxVal < 10 * n + (c.toNat - 48)
    · rw [if_pos (by omega), if_pos hover]
    · rw [if_neg (by omega), if_neg hover, Nat.mod_eq_of_lt (by omega), Nat.mul_comm,
        Nat.mod_eq_of_lt (by omega)]

/-- `ParseUint`'s loop gives a value without an error exactly for digits whose value is at most
    `maxVal`, and then it gives their value. -/
theorem parseUintLoop_eq_some_iff {maxVal : Nat} (hmax : maxVal ≤ maxUint64) (s0 : Bytes) :
    ∀ (s : Bytes) (n v : Nat), n ≤ maxVal →
      (parseUintLoop s0 maxVal s n = (v, none) ↔
        (∀ c ∈ s, IsDigit c) ∧ digitsFrom n s = v ∧ v ≤ maxVal)
  | [], n, v, hn => by
    simp only [parseUintLoop, Prod.mk.injEq, and_true, List.not_mem_nil, false_implies,
      implies_true, digitsFrom_nil, true_and]
    exact ⟨fun h => ⟨h, h ▸ hn⟩, fun h => h.1⟩
  | c :: s, n, v, hn => by
    by_cases hc : IsDigit c
    · rw [parseUintLoop_digit hc hmax]
      by_cases hover : maxVal < 10 * n + (c.toNat - 48)
      · rw [if_pos hover]
        simp only [Prod.mk.injEq, reduceCtorEq, and_false, false_iff, not_and, digitsFrom_cons]
        intro _ hv
        have := le_digitsFrom s (10 * n + (c.toNat - 48))
        omega
      · rw [if_neg hover, parseUintLoop_eq_some_iff hmax s0 s _ v (by omega)]
        simp only [List.mem_cons, forall_eq_or_imp, hc, true_and, digitsFrom_cons]
    · rw [parseUintLoop_not_digit hc]
      simp only [Prod.mk.injEq, reduceCtorEq, and_false, false_iff, not_and]
      exact fun h => absurd (h c (List.mem_cons_self _ _)) hc

/-- A range error of `ParseUint`'s loop comes with `maxVal`. -/
theorem parseUintLoop_range (s0 : Bytes) (maxVal : Nat) :
    ∀ (s : Bytes) (n : Nat) (e : NumError), (parseUintLoop s0 maxVal s n).2 = some e →
      e.err = .errRange → (parseUintLoop s0 maxVal s n).1 = maxVal
  | [], _, _, h, _ => nomatch h
  | c :: s, n, e, h, he => by
    rw [parseUintLoop] at h ⊢
    split at h
    · simp only [Option.some.injEq] at h
      rw [← h] at he
      nomatch he
    · dsimp only at h ⊢
      split_ifs at h ⊢
      · simp only [Option.some.injEq] at h
        rw [← h] at he
        nomatch he
      · rfl
      · rfl
      · exact parseUintLoop_range s0 maxVal s _ e h he

/-- Digits too few to pass `maxVal` are read without a range error. -/
theorem parseUintLoop_short {maxVal : Nat} (hmax : maxVal ≤ maxUint64) (s0 : Bytes) :
    ∀ (s : Bytes) (n : Nat), (n + 1) * 10 ^ s.length ≤ maxVal + 1 →
      parseUintLoop s0 maxVal s n =
        if ∀ c ∈ s, IsDigit c then (digitsFrom n s, none)
        else (0, some (syntaxError fnParseUint s0))
  | [], n, _ => by simp [parseUintLoop]
  | c :: s, n, hlen => by
    have hpow : 0 < 10 ^ s.length := Nat.pow_pos (by decide)
    rw [List.length_cons, Nat.pow_succ] at hlen
    by_cases hc : IsDigit c
    · have hd := hc.2
      have hstep : (10 * n + (c.toNat - 48) + 1) * 10 ^ s.length ≤ maxVal + 1 :=
        calc (10 * n + (c.toNat - 48) + 1) * 10 ^ s.length
            ≤ (n + 1) * 10 * 10 ^ s.length := Nat.mul_le_mul_right _ (by omega)
          _ ≤ maxVal + 1 := by rwa [Nat.mul_assoc, Nat.mul_comm 10]
      have hle : 10 * n + (c.toNat - 48) ≤ maxVal := by
        have := Nat.le_trans (Nat.le_mul_of_pos_right _ hpow) hstep
        omega
      rw [parseUintLoop_digit hc hmax, if_neg (Nat.not_lt.mpr hle),
        parseUintLoop_short hmax s0 s _ hstep]
      simp only [List.mem_cons, forall_eq_or_imp, hc, true_and, digitsFrom_cons]
    · rw [parseUintLoop_not_digit hc, if_neg fun h => hc (h c (List.mem_cons_self _ _))]

/-! ### `ParseInt` -/

/-- `ParseInt`'s sign. A leading `+` is picked off, and a leading `-` is picked off and makes
    the value negative. -/
def pickSign (s : Bytes) : Bool × Bytes :=
  match s with
  | [] => (false, [])
  | c :: rest => if c = plus then (false, rest) else if c = minus then (true, rest) else (false, s)

/-- The end of `ParseInt`. The value `ParseUint` gave gets its sign if it fits in `bitSize`
    bits. Otherwise it is a range error, returned with the bound it passes. -/
def intRange (s0 : Bytes) (bitSize : Nat) (neg : Bool) (un : Nat) : Int × Option NumError :=
  let cutoff := 2 ^ (bitSize - 1)
  if neg = false ∧ cutoff ≤ un then ((cutoff : Int) - 1, some (rangeError fnParseInt s0))
  else if neg = true ∧ cutoff < un then (-(cutoff : Int), some (rangeError fnParseInt s0))
  else (if neg then -(un : Int) else un, none)

/-- `ParseInt(s, 10, bitSize)`. It picks off a leading sign and reads the rest with `ParseUint`.
    An error of `ParseUint` other than `ErrRange` is reported as `ParseInt`'s, on all of `s`. -/
def parseInt (intSize : Nat) (s0 : Bytes) (bitSize : Nat) : Int × Option NumError :=
  if s0 = [] then (0, some (syntaxError fnParseInt s0))
  else
    let bitSize' := if bitSize = 0 then intSize else bitSize
    match parseUint intSize (pickSign s0).2 bitSize with
    | (un, some e) =>
      if e.err ≠ .errRange then (0, some { e with func := fnParseInt, num := s0 })
      else intRange s0 bitSize' (pickSign s0).1 un
    | (un, none) => intRange s0 bitSize' (pickSign s0).1 un

/-! ### `Atoi` -/

/-- The digits of `Atoi`'s fast path, read in `int`. `ch -= '0'` is a byte subtraction, so a
    byte below `'0'` is above `9` as well. -/
def atoiDigits (s0 : Bytes) : Bytes → Int → Int × Option NumError
  | [], n => (n, none)
  | ch :: s, n =>
    let ch := ch - 48
    if 9 < ch then (0, some (syntaxError fnAtoi s0)) else atoiDigits s0 s (n * 10 + ch.toNat)

/-- The fast path of `Atoi`, for a text of `1` to `9` bytes (`int` of `32` bits) or `1` to
    `18` bytes (`64` bits). -/
def atoiFast (s0 : Bytes) (h : s0 ≠ []) : Int × Option NumError :=
  let c := s0.head h
  let s := if c = minus ∨ c = plus then s0.tail else s0
  if (c = minus ∨ c = plus) ∧ s.length < 1 then (0, some (syntaxError fnAtoi s0))
  else
    match atoiDigits s0 s 0 with
    | (n, none) => (if c = minus then -n else n, none)
    | r => r

/-- `strconv.Atoi(s)`. A text short enough for any value of its digits to fit an `int` takes
    the fast path. Any other text goes to `ParseInt(s, 10, 0)`, whose error is reported as
    `Atoi`'s. -/
def atoi (intSize : Nat) (s : Bytes) : Int × Option NumError :=
  if h : intSize = 32 ∧ (0 < s.length ∧ s.length < 10) ∨
      intSize = 64 ∧ (0 < s.length ∧ s.length < 19) then
    atoiFast s (List.ne_nil_of_length_pos (h.elim (·.2.1) (·.2.1)))
  else
    let (i64, err) := parseInt intSize s 0
    (i64, err.map fun e => { e with func := fnAtoi })

/-! ### What the texts mean -/

/-- The value of a text of decimal digits, if it is one: one or more bytes `0`–`9`. -/
def digitsValue (s : Bytes) : Option Nat :=
  if s ≠ [] ∧ ∀ c ∈ s, IsDigit c then some (digitsFrom 0 s) else none

/-- The integer a decimal text denotes: an optional sign `+` or `-`, then one or more digits. -/
def decimal : Bytes → Option Int
  | [] => none
  | c :: s =>
    if c = plus then (digitsValue s).map fun (u : Nat) => (u : Int)
    else if c = minus then (digitsValue s).map fun (u : Nat) => -(u : Int)
    else (digitsValue (c :: s)).map fun (u : Nat) => (u : Int)

theorem decimal_eq {s : Bytes} (hs : s ≠ []) :
    decimal s = (digitsValue (pickSign s).2).map fun (u : Nat) =>
      if (pickSign s).1 then -(u : Int) else (u : Int) := by
  obtain ⟨c, rest, rfl⟩ := List.exists_cons_of_ne_nil hs
  by_cases hp : c = plus
  · simp [decimal, pickSign, hp]
  · by_cases hm : c = minus
    · simp [decimal, pickSign, hm]
    · simp only [plus_eq, minus_eq] at hp hm
      simp [decimal, pickSign, hp, hm]

/-! ### What `ParseInt` accepts -/

section Accepts

variable {intSize : Nat}

theorem maxVal_le (h64 : intSize ≤ 64) : 2 ^ intSize - 1 ≤ maxUint64 :=
  Nat.sub_le_sub_right (Nat.pow_le_pow_right (by decide) h64) 1

/-- The cutoff of `ParseInt` is below `ParseUint`'s `maxVal`. -/
theorem cutoff_lt_maxVal {b : Nat} (h2 : 2 ≤ b) : 2 ^ (b - 1) < 2 ^ b - 1 := by
  obtain ⟨k, rfl⟩ : ∃ k, b = k + 1 := ⟨b - 1, by omega⟩
  have : 2 ^ 1 ≤ 2 ^ k := Nat.pow_le_pow_right (by decide) (by omega)
  rw [Nat.add_sub_cancel, Nat.pow_succ]
  omega

theorem intRange_eq_some_iff {s0 : Bytes} {b : Nat} {neg : Bool} {un : Nat} {v : Int} :
    intRange s0 b neg un = (v, none) ↔
      (if neg then un ≤ 2 ^ (b - 1) else un < 2 ^ (b - 1)) ∧
        v = if neg then -(un : Int) else un := by
  cases neg <;> simp only [intRange] <;> split_ifs <;> simp_all <;> omega

theorem parseUint_eq_some_iff (h64 : intSize ≤ 64) {t : Bytes} {un : Nat} :
    parseUint intSize t 0 = (un, none) ↔
      t ≠ [] ∧ (∀ c ∈ t, IsDigit c) ∧ digitsFrom 0 t = un ∧ un ≤ 2 ^ intSize - 1 := by
  by_cases ht : t = []
  · simp [parseUint, ht]
  · simp only [parseUint, if_neg ht, ↓reduceIte]
    rw [parseUintLoop_eq_some_iff (maxVal_le h64) t t 0 un (Nat.zero_le _)]
    exact ⟨fun h => ⟨ht, h⟩, fun h => h.2⟩

/-- A range error of `ParseUint` comes with `maxVal`. -/
theorem parseUint_range {t : Bytes} {un : Nat} {e : NumError}
    (h : parseUint intSize t 0 = (un, some e)) (he : e.err = .errRange) : un = 2 ^ intSize - 1 := by
  by_cases ht : t = []
  · simp only [parseUint, if_pos ht, Prod.mk.injEq, Option.some.injEq] at h
    rw [← h.2] at he
    nomatch he
  · simp only [parseUint, if_neg ht, ↓reduceIte] at h
    have h₁ := congrArg Prod.fst h
    have h₂ := congrArg Prod.snd h
    exact h₁.symm.trans (parseUintLoop_range t _ t 0 e h₂ he)

/-- `ParseInt` gives a value without an error exactly when `ParseUint` reads the text after the
    sign without an error, and the signed value fits. -/
theorem parseInt_eq_some_iff_parseUint (h2 : 2 ≤ intSize) {s : Bytes} (hs : s ≠ []) {v : Int} :
    parseInt intSize s 0 = (v, none) ↔ ∃ un, parseUint intSize (pickSign s).2 0 = (un, none) ∧
      intRange s intSize (pickSign s).1 un = (v, none) := by
  rw [parseInt, if_neg hs, if_pos rfl]
  constructor
  · intro h
    split at h
    · rename_i un e hpu
      split_ifs at h with he
      · nomatch congrArg Prod.snd h
      · rw [parseUint_range hpu (not_not.mp he), intRange_eq_some_iff] at h
        have := cutoff_lt_maxVal h2
        have h := h.1
        split_ifs at h <;> omega
    · exact ⟨_, ‹_›, h⟩
  · rintro ⟨un, hpu, hr⟩
    rw [hpu]
    exact hr

/-- `ParseInt(s, 10, 0)` accepts exactly the decimal texts whose value fits an `int`, and gives
    their value. -/
theorem parseInt_eq_some_iff (h2 : 2 ≤ intSize) (h64 : intSize ≤ 64) (s : Bytes) (v : Int) :
    parseInt intSize s 0 = (v, none) ↔
      decimal s = some v ∧ -(2 ^ (intSize - 1) : Int) ≤ v ∧ v < 2 ^ (intSize - 1) := by
  by_cases hs : s = []
  · subst hs
    simp [parseInt, decimal]
  rw [parseInt_eq_some_iff_parseUint h2 hs, decimal_eq hs]
  have hcut := cutoff_lt_maxVal h2
  have hcast : ((2 ^ (intSize - 1) : Nat) : Int) = 2 ^ (intSize - 1) := by push_cast; rfl
  have hpos := Nat.two_pow_pos (intSize - 1)
  simp only [parseUint_eq_some_iff h64, intRange_eq_some_iff, digitsValue]
  generalize (pickSign s).1 = neg, (pickSign s).2 = t
  by_cases ht : t ≠ [] ∧ ∀ c ∈ t, IsDigit c
  · rw [if_pos ht, Option.map_some', Option.some.injEq]
    constructor
    · rintro ⟨un, ⟨-, -, rfl, -⟩, hr, rfl⟩
      cases neg <;> simp only [Bool.false_eq_true, ↓reduceIte, true_and] at hr ⊢ <;> omega
    · rintro ⟨rfl, hlo, hhi⟩
      refine ⟨_, ⟨ht.1, ht.2, rfl, ?_⟩, ?_, rfl⟩ <;>
        cases neg <;> simp only [Bool.false_eq_true, ↓reduceIte] at hlo hhi ⊢ <;> omega
  · rw [if_neg ht]
    simp only [Option.map_none', reduceCtorEq, false_and, iff_false, not_exists, not_and]
    exact fun un h => absurd ⟨h.1, h.2.1⟩ ht

theorem intRange_of_lt {s0 : Bytes} {b : Nat} {un : Nat} (h : un < 2 ^ (b - 1)) (neg : Bool) :
    intRange s0 b neg un = (if neg then -(un : Int) else un, none) := by
  cases neg <;> simp only [intRange] <;> split_ifs <;> simp_all <;> omega

theorem intRange_error {s0 : Bytes} {b : Nat} {neg : Bool} {un : Nat} {e : NumError}
    (h : (intRange s0 b neg un).2 = some e) : e = rangeError fnParseInt s0 := by
  simp only [intRange] at h
  split_ifs at h <;> simp_all

/-- Every error of `ParseInt` names `ParseInt` and the whole text. -/
theorem parseInt_error {s : Bytes} {e : NumError} (h : (parseInt intSize s 0).2 = some e) :
    e.func = fnParseInt ∧ e.num = s := by
  by_cases hs : s = []
  · simp only [parseInt, if_pos hs, Option.some.injEq] at h
    exact ⟨h ▸ rfl, h ▸ rfl⟩
  · simp only [parseInt, if_neg hs, ↓reduceIte] at h
    split at h
    · split_ifs at h
      · simp only [Option.some.injEq] at h
        exact ⟨h ▸ rfl, h ▸ rfl⟩
      · rw [intRange_error h]
        exact ⟨rfl, rfl⟩
    · rw [intRange_error h]
      exact ⟨rfl, rfl⟩

/-- What `ParseInt` gives a text too short for its digits to pass the cutoff. -/
theorem parseInt_short (h2 : 2 ≤ intSize) (h64 : intSize ≤ 64) {s : Bytes} (hs : s ≠ [])
    (hlen : 10 ^ (pickSign s).2.length ≤ 2 ^ (intSize - 1)) :
    parseInt intSize s 0 =
      if (pickSign s).2 ≠ [] ∧ ∀ c ∈ (pickSign s).2, IsDigit c then
        (if (pickSign s).1 then -(digitsFrom 0 (pickSign s).2 : Int)
          else digitsFrom 0 (pickSign s).2, none)
      else (0, some (syntaxError fnParseInt s)) := by
  have hcut := cutoff_lt_maxVal h2
  rw [parseInt, if_neg hs, if_pos rfl]
  generalize (pickSign s).2 = t at hlen ⊢
  generalize (pickSign s).1 = neg
  by_cases ht : t = []
  · simp [ht, parseUint, syntaxError]
  · have hshort : parseUint intSize t 0 = if ∀ c ∈ t, IsDigit c then (digitsFrom 0 t, none)
        else (0, some (syntaxError fnParseUint t)) := by
      simp only [parseUint, if_neg ht, ↓reduceIte]
      exact parseUintLoop_short (maxVal_le h64) t t 0 (by omega)
    rw [hshort]
    by_cases hd : ∀ c ∈ t, IsDigit c
    · rw [if_pos hd, if_pos ⟨ht, hd⟩]
      exact intRange_of_lt ((digitsFrom_lt t hd 0).trans_le (by omega)) neg
    · rw [if_neg hd, if_neg fun h => hd h.2]
      rfl

/-! ### `Atoi`'s fast path -/

theorem nine_lt_sub_iff (c : UInt8) : 9 < c - 48 ↔ ¬ IsDigit c := by
  rw [byte_lt]
  simp only [byte_lit, Nat.reduceMod, byte_sub_toNat]
  have := byte_toNat_lt c
  unfold IsDigit
  omega

theorem atoiDigits_eq (s0 : Bytes) : ∀ (s : Bytes) (n : Nat),
    atoiDigits s0 s n = if ∀ c ∈ s, IsDigit c then (((digitsFrom n s : Nat) : Int), none)
      else (0, some (syntaxError fnAtoi s0))
  | [], n => by simp [atoiDigits]
  | c :: s, n => by
    rw [atoiDigits]
    by_cases hc : IsDigit c
    · have hsum : (n : Int) * 10 + ((c - 48).toNat : Int) = ((10 * n + (c.toNat - 48) : Nat) : Int) := by
        rw [sub_toNat_of_isDigit hc]
        omega
      rw [if_neg ((nine_lt_sub_iff c).not.mpr (not_not.mpr hc)), hsum, atoiDigits_eq s0 s]
      simp only [List.mem_cons, forall_eq_or_imp, hc, true_and, digitsFrom_cons]
    · rw [if_pos ((nine_lt_sub_iff c).mpr hc), if_neg fun h => hc (h c (List.mem_cons_self _ _))]

theorem atoiDigits_zero (s0 s : Bytes) :
    atoiDigits s0 s 0 = if ∀ c ∈ s, IsDigit c then (((digitsFrom 0 s : Nat) : Int), none)
      else (0, some (syntaxError fnAtoi s0)) :=
  atoiDigits_eq s0 s 0

theorem atoiFast_eq (s0 : Bytes) (h : s0 ≠ []) :
    atoiFast s0 h =
      if (pickSign s0).2 ≠ [] ∧ ∀ c ∈ (pickSign s0).2, IsDigit c then
        (if (pickSign s0).1 then -(digitsFrom 0 (pickSign s0).2 : Int)
          else digitsFrom 0 (pickSign s0).2, none)
      else (0, some (syntaxError fnAtoi s0)) := by
  obtain ⟨c, rest, rfl⟩ := List.exists_cons_of_ne_nil h
  simp only [atoiFast, pickSign, List.head_cons, List.tail_cons]
  by_cases hp : c = plus
  · have hm : c ≠ minus := by rw [hp]; decide
    simp only [hp, if_pos, or_true, true_and, if_neg hm, atoiDigits_zero]
    by_cases hr : rest = []
    · simp [hr]
    · have : ¬ rest.length < 1 := by simpa [Nat.lt_one_iff] using hr
      rw [if_neg this]
      split_ifs <;> simp_all
  · by_cases hm : c = minus
    · simp only [hm, if_pos, true_or, true_and, if_neg (by decide : minus ≠ plus)]
      by_cases hr : rest = []
      · simp [hr]
      · have : ¬ rest.length < 1 := by simpa [Nat.lt_one_iff] using hr
        rw [if_neg this, atoiDigits_zero]
        split_ifs <;> simp_all
    · simp only [hp, hm, or_self, false_and, if_false, atoiDigits_zero, ne_eq, reduceCtorEq,
        not_false_eq_true, true_and, Bool.false_eq_true]
      split_ifs <;> simp_all

theorem length_pickSign_le (s : Bytes) : (pickSign s).2.length ≤ s.length := by
  unfold pickSign
  split
  · exact Nat.le_refl _
  · split_ifs <;> simp

/-- `Atoi`'s fast path returns on every text what `ParseInt(s, 10, 0)` returns, with the error
    named as `Atoi`'s, on a platform of `32` or `64` bits. -/
theorem atoi_eq_parseInt (hsize : intSize = 32 ∨ intSize = 64) (s : Bytes) :
    atoi intSize s =
      ((parseInt intSize s 0).1, (parseInt intSize s 0).2.map fun e => { e with func := fnAtoi }) := by
  unfold atoi
  split_ifs with h
  · have hs : s ≠ [] := List.ne_nil_of_length_pos (h.elim (·.2.1) (·.2.1))
    have hlen : 10 ^ (pickSign s).2.length ≤ 2 ^ (intSize - 1) := by
      have := length_pickSign_le s
      rcases h with ⟨rfl, -, h⟩ | ⟨rfl, -, h⟩
      · exact (Nat.pow_le_pow_right (by decide) (by omega : _ ≤ 9)).trans (by decide)
      · exact (Nat.pow_le_pow_right (by decide) (by omega : _ ≤ 18)).trans (by decide)
    have h64 : intSize ≤ 64 := by omega
    rw [atoiFast_eq, parseInt_short (by omega) h64 hs hlen]
    split_ifs <;> rfl
  · rfl

/-- `Atoi` accepts exactly the decimal texts whose value fits an `int`, and gives their value. -/
theorem atoi_eq_some_iff (hsize : intSize = 32 ∨ intSize = 64) (s : Bytes) (v : Int) :
    atoi intSize s = (v, none) ↔
      decimal s = some v ∧ -(2 ^ (intSize - 1) : Int) ≤ v ∧ v < 2 ^ (intSize - 1) := by
  rw [atoi_eq_parseInt hsize, ← parseInt_eq_some_iff (by omega) (by omega)]
  constructor
  · intro h
    rw [Prod.mk.injEq, Option.map_eq_none'] at h
    exact Prod.ext h.1 h.2
  · intro h
    rw [h]
    rfl

/-- Every error of `Atoi` names `Atoi` and the whole text. -/
theorem atoi_error (hsize : intSize = 32 ∨ intSize = 64) {s : Bytes} {e : NumError}
    (he : (atoi intSize s).2 = some e) : e.func = fnAtoi ∧ e.num = s := by
  rw [atoi_eq_parseInt hsize] at he
  obtain ⟨e', he', rfl⟩ := Option.map_eq_some'.mp he
  exact ⟨rfl, (parseInt_error he').2⟩

/-- `Atoi` on a platform of `32` or `64` bits. Its fast path returns on every text what
    `ParseInt(s, 10, 0)` returns, with the error named as `Atoi`'s. It accepts exactly the
    decimal texts whose value fits an `int`, and gives their value. Each of its errors names
    `Atoi` and the whole text. -/
theorem atoi_eq_decimal (hsize : intSize = 32 ∨ intSize = 64) (s : Bytes) :
    atoi intSize s =
        ((parseInt intSize s 0).1, (parseInt intSize s 0).2.map fun e => { e with func := fnAtoi }) ∧
      (∀ v, atoi intSize s = (v, none) ↔
        decimal s = some v ∧ -(2 ^ (intSize - 1) : Int) ≤ v ∧ v < 2 ^ (intSize - 1)) ∧
      ∀ e, (atoi intSize s).2 = some e → e.func = fnAtoi ∧ e.num = s :=
  ⟨atoi_eq_parseInt hsize s, atoi_eq_some_iff hsize s, fun _ => atoi_error hsize⟩

theorem atoi_eq_decimal_port :
    (64 = 32 ∨ 64 = 64) ∧
      (atoi 64 (ascii "8125") =
        ((parseInt 64 (ascii "8125") 0).1,
          (parseInt 64 (ascii "8125") 0).2.map fun e => { e with func := fnAtoi }) ∧
      (∀ v, atoi 64 (ascii "8125") = (v, none) ↔
        decimal (ascii "8125") = some v ∧ -(2 ^ (64 - 1) : Int) ≤ v ∧ v < 2 ^ (64 - 1)) ∧
      ∀ e, (atoi 64 (ascii "8125")).2 = some e → e.func = fnAtoi ∧ e.num = ascii "8125") :=
  ⟨Or.inr rfl, atoi_eq_decimal (Or.inr rfl) _⟩

end Accepts

end StatsdBridge.Go.Strconv
