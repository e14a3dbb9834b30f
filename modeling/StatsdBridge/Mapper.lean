import StatsdBridge.Go.Utf8Encoding

/-! Package `mapper` is not among the repository's files. The line parser calls one function of
    it, `EscapeMetricName`, on every tag key before it becomes a label name. The spec says what
    it does; `escapeMetricName_isLabelName` checks that its result is a Prometheus label name.
    On the UTF-8 form of a string the escape works character by character
    (`escapeMetricName_toUTF8`), and it is idempotent, with the label names as its fixed points
    (`escapeMetricName_idempotent`). -/

namespace StatsdBridge.Mapper

open Go Go.Utf8

/-- An ASCII digit. -/
def isDigit (r : Nat) : Bool := 48 ≤ r && r ≤ 57

/-- A rune of `[a-zA-Z0-9_]`. -/
def isLabelChar (r : Nat) : Bool := isDigit r || (65 ≤ r && r ≤ 90) || (97 ≤ r && r ≤ 122) || r == 95

/-- Modelled from the spec: `mapper.EscapeMetricName`, which is not in the repository's files.
    "any character not in `[A-Za-z_][A-Za-z0-9_]*` is replaced with `_`, and a leading digit is
    prefixed with `_`": a name that starts with a digit gets a `_` in front, then each rune
    outside `[a-zA-Z0-9_]` becomes one `_`. -/
def escapeMetricName (s : Bytes) : Bytes :=
  let s := if s.head?.map (fun b => isDigit b.toNat) = some true then underscore :: s else s
  (rangeString s).flatMap fun e =>
    if isLabelChar e.2.1 then (s.drop e.1).take e.2.2 else [underscore]

/-- A Prometheus label name, `[a-zA-Z_][a-zA-Z0-9_]*`. -/
def IsLabelName (s : Bytes) : Prop :=
  ∃ b t, s = b :: t ∧ isDigit b.toNat = false ∧ ∀ c ∈ s, isLabelChar c.toNat = true

theorem isLabelChar_lt {r : Nat} (h : isLabelChar r = true) : r < 0x80 := by
  simp only [isLabelChar, isDigit, Bool.or_eq_true, Bool.and_eq_true, decide_eq_true_eq,
    beq_iff_eq] at h
  omega

/-- Each rune of the range becomes one label character: the rune's own byte, or `_`. -/
theorem escape_piece {s : Bytes} {e : Nat × Nat × Nat} (he : e ∈ rangeString s) :
    ∃ c, (if isLabelChar e.2.1 then (s.drop e.1).take e.2.2 else [underscore]) = [c] ∧
      isLabelChar c.toNat = true ∧ (c = underscore ∨ c.toNat = e.2.1) := by
  obtain ⟨i, r, w⟩ := e
  by_cases hr : isLabelChar r
  · obtain ⟨b, hb, rfl, rfl⟩ := rangeString_ascii he (isLabelChar_lt hr)
    obtain ⟨hi, rfl⟩ := List.getElem?_eq_some_iff.mp hb
    refine ⟨s[i], ?_, hr, .inr rfl⟩
    rw [if_pos hr, List.drop_eq_getElem_cons hi]
    rfl
  · exact ⟨underscore, by simp [hr], rfl, .inl rfl⟩

/-- A non-empty tag key escapes to a label name. -/
theorem escapeMetricName_isLabelName {s : Bytes} (h : s ≠ []) :
    IsLabelName (escapeMetricName s) := by
  -- after the `_` prefix the text starts with a byte that is not a digit
  obtain ⟨b, t, hs, hb⟩ : ∃ b t, (if s.head?.map (fun b => isDigit b.toNat) = some true
      then underscore :: s else s) = b :: t ∧ isDigit b.toNat = false := by
    obtain ⟨x, s, rfl⟩ := List.exists_cons_of_ne_nil h
    by_cases hx : isDigit x.toNat
    · exact ⟨_, _, if_pos (by simp [hx]), rfl⟩
    · exact ⟨_, _, if_neg (by simp [hx]), by simpa using hx⟩
  obtain ⟨c, hc, hcl, hcr⟩ := escape_piece (s := b :: t) (List.mem_cons_self _ _)
  rw [escapeMetricName, hs, rangeString_cons, List.flatMap_cons, hc]
  refine ⟨c, _, rfl, ?_, ?_⟩
  · -- the first character: `_`, or an ASCII first byte that is no digit
    rcases hcr with rfl | hcr
    · rfl
    · have hlt : (decodeRune (b :: t)).1 < 0x80 := hcr ▸ isLabelChar_lt hcl
      rw [hcr, decodeRune_ascii t (lt_of_decodeRune_lt hlt)]
      exact hb
  · -- every character comes from a piece
    intro x hx
    rcases List.mem_cons.mp hx with rfl | hx
    · exact hcl
    obtain ⟨e, he, hx⟩ := List.mem_flatMap.mp hx
    obtain ⟨c', hc', hcl', -⟩ := escape_piece (s := b :: t)
      (by rw [rangeString_cons]; exact List.mem_cons_of_mem _ he)
    rw [hc', List.mem_singleton] at hx
    exact hx ▸ hcl'

/-! ### On the UTF-8 form of a string -/

/-- The escape of concatenated encodings, piece by piece: each character becomes its byte or `_`. -/
theorem flatMap_pieces (cs : List Char) :
    (rangeString (cs.flatMap String.utf8EncodeChar)).flatMap (fun e =>
      if isLabelChar e.2.1 then ((cs.flatMap String.utf8EncodeChar).drop e.1).take e.2.2
      else [underscore]) =
      cs.map fun c => if isLabelChar c.toNat then c.toNat.toUInt8 else underscore := by
  induction cs with
  | nil => rfl
  | cons c cs ih =>
    obtain ⟨b, s, hbs⟩ := List.exists_cons_of_ne_nil (utf8EncodeChar_ne_nil c)
    have hw := String.length_utf8EncodeChar c
    rw [List.flatMap_cons, hbs, List.cons_append, rangeString_cons, ← List.cons_append, ← hbs,
      decodeRune_utf8EncodeChar, List.drop_left' hw, List.flatMap_cons, List.flatMap_map]
    have hd (i : Nat) : (String.utf8EncodeChar c ++ cs.flatMap String.utf8EncodeChar).drop
        (i + c.utf8Size) = (cs.flatMap String.utf8EncodeChar).drop i := by
      rw [Nat.add_comm, ← hw, List.drop_append]
    simp only [shift, hd, ih, List.map_cons, List.drop_zero, List.take_left' hw]
    by_cases hc : isLabelChar c.toNat
    · rw [if_pos hc, if_pos hc, utf8EncodeChar_of_lt (isLabelChar_lt hc)]
      rfl
    · rw [if_neg hc, if_neg hc]
      rfl

/-- The lead byte of a character's encoding is a digit exactly when the character is. -/
theorem isDigit_head_utf8EncodeChar (c : Char) :
    (String.utf8EncodeChar c).head?.map (fun b => isDigit b.toNat) = some (isDigit c.toNat) := by
  have hv : c.toNat < 0x110000 := by have := toNat_valid c; omega
  have e (n : Nat) (h : n < 256) : n.toUInt8.toNat = n := by rw [toNat_toUInt8, Nat.mod_eq_of_lt h]
  have nd (n : Nat) (h : 57 < n) : isDigit n = false := by
    simp only [isDigit, Bool.and_eq_false_imp, decide_eq_true_eq, decide_eq_false_iff_not]; omega
  rw [utf8EncodeChar_eq]
  split_ifs <;> simp only [List.head?_cons, Option.map_some', Option.some.injEq]
  · rw [e _ (by omega)]
  all_goals rw [e _ (by omega), nd _ (by omega), nd _ (by omega)]

/-- `EscapeMetricName` on the encodings of characters: a leading digit gets a `_` in front, and
    each character becomes one label character, itself or `_`. -/
theorem escapeMetricName_flatMap (cs : List Char) :
    escapeMetricName (cs.flatMap String.utf8EncodeChar) =
      (if cs.head?.map (fun c => isDigit c.toNat) = some true then [underscore] else []) ++
        cs.map fun c => if isLabelChar c.toNat then c.toNat.toUInt8 else underscore := by
  cases cs with
  | nil => rfl
  | cons c cs =>
    obtain ⟨b, s, hbs⟩ := List.exists_cons_of_ne_nil (utf8EncodeChar_ne_nil c)
    have hh := isDigit_head_utf8EncodeChar c
    rw [hbs, List.head?_cons, Option.map_some', Option.some.injEq] at hh
    simp only [escapeMetricName, List.flatMap_cons, hbs, List.cons_append, List.head?_cons,
      Option.map_some', Option.some.injEq, hh]
    rw [← List.cons_append, ← hbs, ← List.flatMap_cons]
    by_cases hd : isDigit c.toNat
    · -- the `_` in front is the encoding of the character `_`
      have hu : underscore :: (c :: cs).flatMap String.utf8EncodeChar =
          ('_' :: c :: cs).flatMap String.utf8EncodeChar := by
        rw [List.flatMap_cons '_', utf8EncodeChar_of_lt (c := '_') (by decide)]
        rfl
      rw [if_pos hd, if_pos hd, hu, flatMap_pieces]
      rfl
    · rw [if_neg hd, if_neg hd, flatMap_pieces]
      rfl

/-- `EscapeMetricName` on the UTF-8 form of a string: a leading digit gets a `_` in front, and
    each character becomes its own byte when it is in `[a-zA-Z0-9_]`, else one `_`. -/
theorem escapeMetricName_toUTF8 (str : String) :
    escapeMetricName str.toUTF8.data.toList =
      (if str.data.head?.map (fun c => isDigit c.toNat) = some true then [underscore] else []) ++
        str.data.map fun c => if isLabelChar c.toNat then c.toNat.toUInt8 else underscore :=
  escapeMetricName_flatMap str.data

/-- A label name escapes to itself. -/
theorem escapeMetricName_of_isLabelName {s : Bytes} (h : IsLabelName s) :
    escapeMetricName s = s := by
  obtain ⟨b, t, rfl, hb, hall⟩ := h
  have hascii : ∀ x ∈ b :: t, x.toNat < 0x80 := fun x hx => isLabelChar_lt (hall x hx)
  have hx : ∀ x ∈ b :: t, (Char.ofNat x.toNat).toNat = x.toNat := fun x hx =>
    toNat_char_ofNat (.inl (by have := hascii x hx; omega))
  conv_lhs => rw [← flatMap_ofNat hascii]
  rw [escapeMetricName_flatMap, List.map_map, if_neg, List.nil_append]
  · conv_rhs => rw [← List.map_id (b :: t)]
    refine List.map_congr_left fun x hxm => ?_
    simp only [Function.comp_apply, hx x hxm, hall x hxm, ite_true, toUInt8_toNat rfl, id]
  · rw [List.map_cons, List.head?_cons, Option.map_some', hx b (.head _), hb]
    decide

/-- `EscapeMetricName` is idempotent, and it leaves a key unchanged exactly when the key is empty
    or already a label name. -/
theorem escapeMetricName_idempotent (s : Bytes) :
    escapeMetricName (escapeMetricName s) = escapeMetricName s ∧
      (escapeMetricName s = s ↔ s = [] ∨ IsLabelName s) := by
  have fixed : ∀ t, t = [] ∨ IsLabelName t → escapeMetricName t = t := by
    rintro t (rfl | ht)
    · rfl
    · exact escapeMetricName_of_isLabelName ht
  by_cases hs : s = []
  · subst hs; exact ⟨rfl, iff_of_true rfl (.inl rfl)⟩
  · exact ⟨fixed _ (.inr (escapeMetricName_isLabelName hs)),
      fun h => .inr (h ▸ escapeMetricName_isLabelName hs), fixed s⟩

end StatsdBridge.Mapper
