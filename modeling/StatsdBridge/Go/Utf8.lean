import StatsdBridge.Go.Strings

/-! Package `unicode/utf8` as the code meets it. `for i, c := range s` over a string decodes
    one rune at a time by the rules of `DecodeRuneInString`, and `ValidString` holds when no
    step of that decoding meets an invalid encoding.

    The parser only compares the runes it ranges over with ASCII characters. An ASCII byte never
    sits inside a multi-byte encoding, and the decoder turns no other byte into an ASCII rune, so
    an ASCII rune of the range is a byte of the string at the rune's offset
    (`rangeString_ascii`), and a string split before an ASCII byte decodes piece by piece
    (`rangeString_append`). -/

namespace StatsdBridge.Go.Utf8

/-- `utf8.RuneError`, U+FFFD. Runes are their code points, as natural numbers. -/
def runeError : Nat := 0xFFFD

/-- `utf8.first` and `utf8.acceptRanges` for a byte `b ≥ 0x80`: the width of the encoding `b`
    starts and the bounds of the encoding's second byte; `none` for a byte that starts none. -/
def first (b : UInt8) : Option (Nat × UInt8 × UInt8) :=
  if b < 0xC2 then none
  else if b ≤ 0xDF then some (2, 0x80, 0xBF)
  else if b = 0xE0 then some (3, 0xA0, 0xBF)
  else if b = 0xED then some (3, 0x80, 0x9F)
  else if b ≤ 0xEF then some (3, 0x80, 0xBF)
  else if b = 0xF0 then some (4, 0x90, 0xBF)
  else if b ≤ 0xF3 then some (4, 0x80, 0xBF)
  else if b = 0xF4 then some (4, 0x80, 0x8F)
  else none

/-- A continuation byte, `locb ≤ b ≤ hicb`. -/
def cont (b : UInt8) : Bool := 0x80 ≤ b && b ≤ 0xBF

/-- The multi-byte branch of `utf8.DecodeRuneInString`, for a first byte `b0 ≥ 0x80` followed
    by `s`. An invalid or cut-off encoding decodes as `RuneError` of width 1. The Go code's masks
    and shifts are written as `%` and `*`. -/
def decodeMulti (b0 : UInt8) (s : Bytes) : Nat × Nat :=
  match first b0, s with
  | some (sz, lo, hi), b1 :: s =>
    if b1 < lo ∨ hi < b1 then (runeError, 1)
    else if sz ≤ 2 then (b0.toNat % 32 * 64 + b1.toNat % 64, 2)
    else match s with
      | b2 :: s =>
        if !cont b2 then (runeError, 1)
        else if sz ≤ 3 then (b0.toNat % 16 * 4096 + b1.toNat % 64 * 64 + b2.toNat % 64, 3)
        else match s with
          | b3 :: _ =>
            if !cont b3 then (runeError, 1)
            else (b0.toNat % 8 * 262144 + b1.toNat % 64 * 4096 + b2.toNat % 64 * 64
              + b3.toNat % 64, 4)
          | [] => (runeError, 1)
      | [] => (runeError, 1)
  | _, _ => (runeError, 1)

/-- `utf8.DecodeRuneInString`: the rune at the head of `s` and its width. -/
def decodeRune : Bytes → Nat × Nat
  | [] => (runeError, 0)
  | b0 :: s => if b0 < 0x80 then (b0.toNat, 1) else decodeMulti b0 s

/-- The iterations of `for i, c := range s` from byte offset `i`: each rune's offset, value and
    width. `fuel` bounds their number. -/
def rangeFrom : Nat → Nat → Bytes → List (Nat × Nat × Nat)
  | 0, _, _ => []
  | _ + 1, _, [] => []
  | fuel + 1, i, b :: s =>
    let d := decodeRune (b :: s)
    (i, d.1, d.2) :: rangeFrom fuel (i + d.2) ((b :: s).drop d.2)

/-- `for i, c := range s`, with each rune's width. -/
def rangeString (s : Bytes) : List (Nat × Nat × Nat) := rangeFrom s.length 0 s

/-- `utf8.ValidString`: `s` consists entirely of valid UTF-8-encoded runes, that is, no step of
    the decoding yields `RuneError` of width 1. -/
def validString (s : Bytes) : Bool :=
  (rangeString s).all fun e => !(e.2.1 == runeError && e.2.2 == 1)

/-- Moves an iteration of the range `k` bytes further. -/
def shift (k : Nat) (e : Nat × Nat × Nat) : Nat × Nat × Nat := (e.1 + k, e.2)

/-! ### The decoder -/

theorem first_spec {b lo hi : UInt8} {sz : Nat} (h : first b = some (sz, lo, hi)) :
    0x80 ≤ lo.toNat ∧ hi.toNat ≤ 0xBF ∧
      (sz = 2 ∧ 2 ≤ b.toNat % 32 ∨
        sz = 3 ∧ (1 ≤ b.toNat % 16 ∨ 0xA0 ≤ lo.toNat) ∨
        sz = 4 ∧ (1 ≤ b.toNat % 8 ∨ 0x90 ≤ lo.toNat)) := by
  have hb := byte_toNat_lt b
  unfold first at h
  -- the table row by row; each row's bounds on `b.toNat` give its disjunct
  by_cases h1 : b.toNat < 0xC2
  · rw [if_pos (show b < 0xC2 from h1)] at h; cases h
  rw [if_neg (show ¬ b < 0xC2 from h1)] at h
  by_cases h2 : b.toNat ≤ 0xDF
  · rw [if_pos (show b ≤ 0xDF from h2)] at h; cases h
    exact ⟨by decide, by decide, .inl ⟨rfl, by omega⟩⟩
  rw [if_neg (show ¬ b ≤ 0xDF from h2)] at h
  by_cases h3 : b.toNat = 0xE0
  · rw [if_pos (show b = 0xE0 from byte_eq.mpr h3)] at h; cases h
    exact ⟨by decide, by decide, .inr (.inl ⟨rfl, .inr (by decide)⟩)⟩
  rw [if_neg (show b ≠ 0xE0 from mt byte_eq.mp h3)] at h
  by_cases h4 : b.toNat = 0xED
  · rw [if_pos (show b = 0xED from byte_eq.mpr h4)] at h; cases h
    exact ⟨by decide, by decide, .inr (.inl ⟨rfl, .inl (by omega)⟩)⟩
  rw [if_neg (show b ≠ 0xED from mt byte_eq.mp h4)] at h
  by_cases h5 : b.toNat ≤ 0xEF
  · rw [if_pos (show b ≤ 0xEF from h5)] at h; cases h
    exact ⟨by decide, by decide, .inr (.inl ⟨rfl, .inl (by omega)⟩)⟩
  rw [if_neg (show ¬ b ≤ 0xEF from h5)] at h
  by_cases h6 : b.toNat = 0xF0
  · rw [if_pos (show b = 0xF0 from byte_eq.mpr h6)] at h; cases h
    exact ⟨by decide, by decide, .inr (.inr ⟨rfl, .inr (by decide)⟩)⟩
  rw [if_neg (show b ≠ 0xF0 from mt byte_eq.mp h6)] at h
  by_cases h7 : b.toNat ≤ 0xF3
  · rw [if_pos (show b ≤ 0xF3 from h7)] at h; cases h
    exact ⟨by decide, by decide, .inr (.inr ⟨rfl, .inl (by omega)⟩)⟩
  rw [if_neg (show ¬ b ≤ 0xF3 from h7)] at h
  by_cases h8 : b.toNat = 0xF4
  · rw [if_pos (show b = 0xF4 from byte_eq.mpr h8)] at h; cases h
    exact ⟨by decide, by decide, .inr (.inr ⟨rfl, .inl (by omega)⟩)⟩
  rw [if_neg (show b ≠ 0xF4 from mt byte_eq.mp h8)] at h
  cases h

/-- What a multi-byte step yields: a rune `≥ 0x80`, a width from one to what is there, and only
    bytes `≥ 0x80` read after the first. -/
theorem decodeMulti_spec (b0 : UInt8) (s : Bytes) :
    0x80 ≤ (decodeMulti b0 s).1 ∧ 1 ≤ (decodeMulti b0 s).2 ∧ (decodeMulti b0 s).2 ≤ s.length + 1 ∧
      ∀ c ∈ s.take ((decodeMulti b0 s).2 - 1), 0x80 ≤ c.toNat := by
  -- an invalid or cut-off encoding: `RuneError` of width 1
  have herr : ∀ t : Bytes, 0x80 ≤ runeError ∧ 1 ≤ 1 ∧ 1 ≤ t.length + 1 ∧
      ∀ c ∈ t.take (1 - 1), 0x80 ≤ c.toNat := fun t => ⟨by decide, le_rfl, by omega, by simp⟩
  rcases hf : first b0 with _ | ⟨sz, lo, hi⟩
  · simp only [decodeMulti, hf]; exact herr s
  obtain ⟨hlo, hhi, hsz⟩ := first_spec hf
  rcases s with _ | ⟨b1, s⟩
  · simp only [decodeMulti, hf]; exact herr []
  simp only [decodeMulti, hf]
  by_cases h1 : b1 < lo ∨ hi < b1
  · rw [if_pos h1]; exact herr _
  rw [if_neg h1]
  simp only [byte_lt, not_or, not_lt] at h1
  by_cases h2 : sz ≤ 2
  · rw [if_pos h2]
    exact ⟨by omega, by omega, by simp, by simp; omega⟩
  rw [if_neg h2]
  rcases s with _ | ⟨b2, s⟩
  · exact herr _
  dsimp only
  by_cases h3 : (!cont b2) = true
  · rw [if_pos h3]; exact herr _
  rw [if_neg h3]
  simp only [cont, Bool.not_eq_true', Bool.not_eq_false, Bool.and_eq_true, decide_eq_true_eq,
    byte_le, byte_lit] at h3
  by_cases h4 : sz ≤ 3
  · rw [if_pos h4]
    exact ⟨by omega, by omega, by simp, by simp; omega⟩
  rw [if_neg h4]
  rcases s with _ | ⟨b3, s⟩
  · exact herr _
  dsimp only
  by_cases h5 : (!cont b3) = true
  · rw [if_pos h5]; exact herr _
  rw [if_neg h5]
  simp only [cont, Bool.not_eq_true', Bool.not_eq_false, Bool.and_eq_true, decide_eq_true_eq,
    byte_le, byte_lit] at h5
  exact ⟨by omega, by omega, by simp, by simp; omega⟩

/-- Bytes after a cut-off encoding and an ASCII byte do not change a multi-byte step. -/
theorem decodeMulti_append (b0 : UInt8) {c : UInt8} (s t : Bytes) (hc : c < 0x80) :
    decodeMulti b0 (s ++ c :: t) = decodeMulti b0 s := by
  rcases hf : first b0 with _ | ⟨sz, lo, hi⟩
  · simp only [decodeMulti, hf]
  -- the ASCII byte fails every check a byte after the first meets
  have hlo := (first_spec hf).1
  have hlt : c < lo := show c.toNat < lo.toNat by simp only [byte_lt, byte_lit] at hc; omega
  have hcont : (!cont c) = true := by
    simp only [cont, byte_le, byte_lit, Bool.not_eq_true', Bool.and_eq_false_imp,
      decide_eq_true_eq, decide_eq_false_iff_not]
    simp only [byte_lt, byte_lit] at hc
    omega
  rcases s with _ | ⟨b1, _ | ⟨b2, _ | ⟨b3, s⟩⟩⟩
  · simp only [decodeMulti, hf, List.nil_append, if_pos (Or.inl hlt)]
  all_goals simp only [decodeMulti, hf, List.cons_append, List.nil_append, hcont, ite_true]

theorem decodeRune_ascii {b : UInt8} (s : Bytes) (h : b < 0x80) :
    decodeRune (b :: s) = (b.toNat, 1) := if_pos h

theorem decodeRune_multi {b : UInt8} (s : Bytes) (h : ¬ b < 0x80) :
    decodeRune (b :: s) = decodeMulti b s := if_neg h

/-- A decoded rune below `0x80` comes from an ASCII head byte. -/
theorem lt_of_decodeRune_lt {b : UInt8} {s : Bytes} (h : (decodeRune (b :: s)).1 < 0x80) :
    b < 0x80 := by
  by_contra hb
  rw [decodeRune_multi s hb] at h
  exact absurd h (not_lt.mpr (decodeMulti_spec b s).1)

/-- The bytes a decoding step reads: at least one, at most what is there. -/
theorem decodeRune_width (b : UInt8) (s : Bytes) :
    1 ≤ (decodeRune (b :: s)).2 ∧ (decodeRune (b :: s)).2 ≤ s.length + 1 := by
  by_cases hb : b < 0x80
  · simp [decodeRune_ascii s hb]
  · rw [decodeRune_multi s hb]
    exact ⟨(decodeMulti_spec b s).2.1, (decodeMulti_spec b s).2.2.1⟩

/-- Bytes after a cut-off encoding and an ASCII byte do not change the step. -/
theorem decodeRune_append {b c : UInt8} {s t : Bytes} (hc : c < 0x80) :
    decodeRune (b :: s ++ c :: t) = decodeRune (b :: s) := by
  by_cases hb : b < 0x80
  · simp [decodeRune_ascii _ hb]
  · rw [List.cons_append, decodeRune_multi _ hb, decodeRune_multi _ hb, decodeMulti_append _ _ _ hc]

/-! ### The range loop -/

@[simp] theorem shift_zero : shift 0 = id := rfl

@[simp] theorem rangeString_nil : rangeString [] = [] := rfl

theorem rangeFrom_shift (fuel i k : Nat) (s : Bytes) :
    rangeFrom fuel (i + k) s = (rangeFrom fuel i s).map (shift k) := by
  induction fuel generalizing i s with
  | zero => rfl
  | succ fuel ih =>
    cases s with
    | nil => rfl
    | cons b s =>
      simp only [rangeFrom, List.map_cons, shift, Nat.add_right_comm i k, ih]

theorem rangeFrom_fuel {f₁ f₂ : Nat} (i : Nat) (s : Bytes) (h₁ : s.length ≤ f₁)
    (h₂ : s.length ≤ f₂) : rangeFrom f₁ i s = rangeFrom f₂ i s := by
  induction f₁ generalizing f₂ i s with
  | zero => cases s <;> cases f₂ <;> simp_all [rangeFrom]
  | succ f ih =>
    cases s with
    | nil => cases f₂ <;> rfl
    | cons b s =>
      obtain ⟨f₂, rfl⟩ : ∃ g, f₂ = g + 1 := ⟨f₂ - 1, by simp at h₂; omega⟩
      have hw := decodeRune_width b s
      simp only [rangeFrom]
      congr 1
      apply ih <;> simp at * <;> omega

/-- One step of the range: the rune at the head, then the range of the rest, moved along. -/
theorem rangeString_cons (b : UInt8) (s : Bytes) :
    rangeString (b :: s) = (0, decodeRune (b :: s)) ::
      (rangeString ((b :: s).drop (decodeRune (b :: s)).2)).map
        (shift (decodeRune (b :: s)).2) := by
  have hw := decodeRune_width b s
  rw [rangeString, List.length_cons, rangeFrom, rangeString, ← rangeFrom_shift, Nat.zero_add]
  congr 1
  exact rangeFrom_fuel _ _ (by simp; omega) le_rfl

theorem rangeString_ascii_cons {c : UInt8} (t : Bytes) (hc : c < 0x80) :
    rangeString (c :: t) = (0, c.toNat, 1) :: (rangeString t).map (shift 1) := by
  rw [rangeString_cons, decodeRune_ascii _ hc]
  rfl

/-- A string split before an ASCII byte decodes piece by piece. -/
theorem rangeString_append {c : UInt8} (a t : Bytes) (hc : c < 0x80) :
    rangeString (a ++ c :: t) = rangeString a ++ (rangeString (c :: t)).map (shift a.length) := by
  induction' hn : a.length using Nat.strong_induction_on with n ih generalizing a
  cases a with
  | nil =>
    subst hn
    simp
  | cons b a =>
    have hw := decodeRune_width b a
    have hd := decodeRune_append (b := b) (s := a) (t := t) hc
    have hlt : ((b :: a).drop (decodeRune (b :: a)).2).length < n := by simp at hn ⊢; omega
    rw [List.cons_append, rangeString_cons, ← List.cons_append, hd, rangeString_cons,
      List.drop_append_of_le_length (by simp; omega), ih _ hlt _ rfl]
    simp only [List.map_append, List.map_map, List.cons_append, List.cons.injEq, true_and]
    congr 2
    funext e
    simp only [List.length_cons] at hn
    simp [shift, Nat.add_assoc, ← hn]
    omega

/-- An ASCII rune of the range is the byte at its offset. -/
theorem rangeString_ascii {s : Bytes} {i : Nat} {r w : Nat} (h : (i, r, w) ∈ rangeString s)
    (hr : r < 0x80) : ∃ b, s[i]? = some b ∧ b.toNat = r ∧ w = 1 := by
  induction' hn : s.length using Nat.strong_induction_on with n ih generalizing s i
  cases s with
  | nil => simp [rangeString, rangeFrom] at h
  | cons b s =>
    have hw := decodeRune_width b s
    rw [rangeString_cons] at h
    rcases List.mem_cons.mp h with h | h
    · obtain ⟨rfl, hd⟩ := Prod.mk.inj h
      have hb : b < 0x80 := lt_of_decodeRune_lt (by rw [← hd]; exact hr)
      rw [decodeRune_ascii _ hb] at hd
      cases hd
      exact ⟨b, by simp, rfl, rfl⟩
    · obtain ⟨⟨j, r', w'⟩, hm, he⟩ := List.mem_map.mp h
      simp only [shift, Prod.mk.injEq] at he
      obtain ⟨rfl, rfl, rfl⟩ := he
      obtain ⟨c, hc, rfl, rfl⟩ := ih _ (by simp at hn ⊢; omega) hm rfl
      refine ⟨c, ?_, rfl, rfl⟩
      rw [List.getElem?_drop] at hc
      rwa [Nat.add_comm] at hc

/-- An ASCII byte missing from the string is missing from its range. -/
theorem rangeString_ne_of_not_mem {c : UInt8} {s : Bytes} (hc : c < 0x80) (h : c ∉ s) :
    ∀ e ∈ rangeString s, e.2.1 ≠ c.toNat := by
  rintro ⟨i, r, w⟩ he (rfl : r = c.toNat)
  obtain ⟨b, hb, hbc, -⟩ := rangeString_ascii he (by simpa [byte_lt] using hc)
  exact h (byte_eq.mpr hbc ▸ List.getElem?_mem hb)

/-- No rune of the range meets `p` when no byte does and `p` holds of ASCII runes only. -/
theorem rangeString_find?_none {p : Nat → Bool} {s : Bytes} (hp : ∀ r, p r → r < 0x80)
    (hs : ∀ b ∈ s, p b.toNat = false) : (rangeString s).find? (fun e => p e.2.1) = none := by
  rw [List.find?_eq_none]
  rintro ⟨i, r, w⟩ hm hpr
  obtain ⟨b, hb, rfl, -⟩ := rangeString_ascii hm (hp r hpr)
  simp [hs b (List.getElem?_mem hb)] at hpr

/-- The first rune of the range that meets `p` is the first byte that does. -/
theorem rangeString_find?_append_cons {p : Nat → Bool} {a t : Bytes} {c : UInt8}
    (hp : ∀ r, p r → r < 0x80) (ha : ∀ b ∈ a, p b.toNat = false) (hc : p c.toNat) :
    (rangeString (a ++ c :: t)).find? (fun e => p e.2.1) = some (a.length, c.toNat, 1) := by
  have hc' : c < 0x80 := hp _ hc
  rw [rangeString_append a t hc', List.find?_append, rangeString_find?_none hp ha,
    rangeString_ascii_cons t hc']
  simp [shift, hc]

/-! ### Valid UTF-8 -/

@[simp] theorem validString_nil : validString [] = true := rfl

theorem validString_ascii_cons {c : UInt8} (t : Bytes) (hc : c < 0x80) :
    validString (c :: t) = validString t := by
  have : c.toNat ≠ runeError := by
    simp only [byte_lt, byte_lit, runeError] at *
    omega
  simp [validString, rangeString_ascii_cons t hc, this, shift, Function.comp_def]

theorem validString_append {c : UInt8} (a t : Bytes) (hc : c < 0x80) :
    validString (a ++ c :: t) = (validString a && validString (c :: t)) := by
  simp [validString, rangeString_append a t hc, shift, Function.comp_def]

/-- A list joined by an ASCII separator is valid UTF-8 when each of its pieces is. -/
theorem validString_intercalate {c : UInt8} (hc : c < 0x80) :
    ∀ l : List Bytes, validString ([c].intercalate l) = l.all validString
  | [] => rfl
  | [a] => by simp [List.intercalate]
  | a :: b :: l => by
    rw [Strings.intercalate_cons_cons, validString_append _ _ hc, validString_ascii_cons _ hc,
      validString_intercalate hc (b :: l)]
    simp [Bool.and_assoc]

end StatsdBridge.Go.Utf8
