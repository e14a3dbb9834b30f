import Mathlib.Data.List.Basic
import Mathlib.Data.List.Infix

/-! Go's `string` and `[]byte` as lists of bytes, with the index and slice expressions and the
    functions of package `strings` that the listeners and the line parser use.

    Go checks every index and slice expression when it runs and panics when one is out of
    range. `index` and `slice` return `none` there, so a model function returns `none` exactly
    where the code would panic. `strings.Split` with a one-byte separator is `List.splitOn`;
    `strings.SplitN` and `strings.Index` follow `genSplit` and `Index`. -/

namespace StatsdBridge.Go

/-- A Go `string` or `[]byte`: its bytes. -/
abbrev Bytes := List UInt8

/-! ### Bytes as numbers -/

@[simp] theorem byte_lit (n : Nat) : (no_index (OfNat.ofNat n : UInt8)).toNat = n % 256 := rfl

theorem byte_lt {a b : UInt8} : a < b ↔ a.toNat < b.toNat := Iff.rfl

theorem byte_le {a b : UInt8} : a ≤ b ↔ a.toNat ≤ b.toNat := Iff.rfl

theorem byte_eq {a b : UInt8} : a = b ↔ a.toNat = b.toNat := ⟨fun h => h ▸ rfl, UInt8.toNat.inj⟩

theorem byte_toNat_lt (b : UInt8) : b.toNat < 256 := b.toBitVec.isLt

@[simp] theorem toNat_beq_toNat (a b : UInt8) : (a.toNat == b.toNat) = (a == b) := by
  by_cases h : a = b <;> simp [h, byte_eq.not.mp]

/-- The ASCII bytes of the StatsD syntax and of its framing. -/
def colon : UInt8 := ':'.toUInt8
def pipe : UInt8 := '|'.toUInt8
def hash : UInt8 := '#'.toUInt8
def comma : UInt8 := ','.toUInt8
def equals : UInt8 := '='.toUInt8
def atSign : UInt8 := '@'.toUInt8
def plus : UInt8 := '+'.toUInt8
def minus : UInt8 := '-'.toUInt8
def newline : UInt8 := '\n'.toUInt8
def cr : UInt8 := '\r'.toUInt8
def underscore : UInt8 := '_'.toUInt8

@[simp] theorem colon_eq : colon = 58 := rfl
@[simp] theorem pipe_eq : pipe = 124 := rfl
@[simp] theorem hash_eq : hash = 35 := rfl
@[simp] theorem comma_eq : comma = 44 := rfl
@[simp] theorem equals_eq : equals = 61 := rfl
@[simp] theorem atSign_eq : atSign = 64 := rfl
@[simp] theorem plus_eq : plus = 43 := rfl
@[simp] theorem minus_eq : minus = 45 := rfl
@[simp] theorem newline_eq : newline = 10 := rfl
@[simp] theorem cr_eq : cr = 13 := rfl
@[simp] theorem underscore_eq : underscore = 95 := rfl

/-- The bytes of an ASCII Go string literal such as `"ms"`. -/
def ascii (s : String) : Bytes := s.toList.map Char.toUInt8

/-! ### Index and slice expressions -/

section Expr

variable {α : Type}

/-- `s[i]`; `none` is the panic "index out of range". -/
def index (s : List α) (i : Nat) : Option α := s[i]?

/-- `s[lo:hi]`; `none` is the panic "slice bounds out of range". -/
def slice (s : List α) (lo hi : Nat) : Option (List α) :=
  if lo ≤ hi ∧ hi ≤ s.length then some ((s.take hi).drop lo) else none

/-- `s[lo:]` -/
def sliceFrom (s : List α) (lo : Nat) : Option (List α) := slice s lo s.length

theorem index_eq {s : List α} {i : Nat} (h : i < s.length) : index s i = some s[i] :=
  List.getElem?_eq_getElem h

theorem slice_eq {s : List α} {lo hi : Nat} (h : lo ≤ hi) (h' : hi ≤ s.length) :
    slice s lo hi = some ((s.take hi).drop lo) := if_pos ⟨h, h'⟩

theorem slice_zero {s : List α} {hi : Nat} (h : hi ≤ s.length) : slice s 0 hi = some (s.take hi) :=
  slice_eq (Nat.zero_le _) h

theorem sliceFrom_eq {s : List α} {lo : Nat} (h : lo ≤ s.length) : sliceFrom s lo = some (s.drop lo) := by
  rw [sliceFrom, slice_eq h le_rfl, List.take_length]

end Expr

/-! ### Package `strings` -/

namespace Strings

/-- `strings.Index(s, substr)`: the offset of the first occurrence of `substr` in `s`, or `-1`. -/
def index (s substr : Bytes) : Int :=
  match s with
  | [] => if substr = [] then 0 else -1
  | b :: t =>
    if substr.isPrefixOf (b :: t) then 0
    else
      let i := index t substr
      if i < 0 then -1 else i + 1

/-- `strings.Contains(s, substr)` is `Index(s, substr) >= 0`. -/
def contains (s substr : Bytes) : Bool := 0 ≤ index s substr

/-- `strings.HasSuffix(s, suffix)`: `len(s) >= len(suffix) && s[len(s)-len(suffix):] == suffix`. -/
def hasSuffix (s suffix : Bytes) : Bool :=
  decide (suffix.length ≤ s.length) && s.drop (s.length - suffix.length) == suffix

theorem hasSuffix_iff (s suffix : Bytes) : hasSuffix s suffix = true ↔ suffix <:+ s := by
  simp only [hasSuffix, Bool.and_eq_true, decide_eq_true_eq, beq_iff_eq, List.suffix_iff_eq_drop]
  exact ⟨fun h => h.2.symm, fun h => ⟨(List.suffix_iff_eq_drop.mpr h).length_le, h.symm⟩⟩

/-- `strings.Split(s, sep)` for a one-byte `sep`. -/
def split (s : Bytes) (sep : UInt8) : List Bytes := s.splitOn sep

/-- `strings.SplitN(s, sep, n)` for a one-byte `sep` (`genSplit`): at most `n` pieces, the last
    one holding the rest of `s`; no pieces for `n = 0`. -/
def splitN (s : Bytes) (sep : UInt8) : Nat → List Bytes
  | 0 => []
  | 1 => [s]
  | n + 2 =>
    let m := index s [sep]
    if m < 0 then [s] else s.take m.toNat :: splitN (s.drop (m.toNat + 1)) sep (n + 1)

theorem index_cons_of_not_isPrefixOf {b : UInt8} {t substr : Bytes}
    (h : ¬ substr.isPrefixOf (b :: t)) :
    index (b :: t) substr = if index t substr < 0 then -1 else index t substr + 1 := by
  rw [index, if_neg h]

theorem index_nonneg_iff (s substr : Bytes) : 0 ≤ index s substr ↔ substr <:+: s := by
  induction s with
  | nil => cases substr <;> simp [index]
  | cons b t ih =>
    by_cases h : substr.isPrefixOf (b :: t)
    · rw [index, if_pos h]
      exact iff_of_true (Int.le_refl 0) (List.isPrefixOf_iff_prefix.mp h).isInfix
    · rw [index_cons_of_not_isPrefixOf h, List.infix_cons_iff, ← ih]
      have : ¬ substr <+: b :: t := fun h' => h (List.isPrefixOf_iff_prefix.mpr h')
      split <;> simp only [this, false_or] <;> omega

theorem contains_iff (s substr : Bytes) : contains s substr = true ↔ substr <:+: s := by
  simp [contains, index_nonneg_iff]

theorem singleton_infix_iff {s : Bytes} {c : UInt8} : [c] <:+: s ↔ c ∈ s := by
  refine ⟨fun h => List.singleton_sublist.mp h.sublist, fun h => ?_⟩
  obtain ⟨as, bs, rfl⟩ := List.append_of_mem h
  exact ⟨as, bs, by simp⟩

theorem not_prefix_cons {b c : UInt8} {t : Bytes} (h : b ≠ c) : ¬ [c].isPrefixOf (b :: t) := by
  simpa [List.isPrefixOf] using Ne.symm h

/-- `strings.Index(s, "+") == 0` tests the first byte. -/
theorem index_single_eq_zero (s : Bytes) (c : UInt8) : index s [c] = 0 ↔ s.head? = some c := by
  cases s with
  | nil => simp [index]
  | cons b t =>
    by_cases h : b = c
    · simp [index, h, List.isPrefixOf]
    · rw [index_cons_of_not_isPrefixOf (not_prefix_cons h)]
      simp only [List.head?_cons, Option.some.injEq, h, iff_false]
      split <;> omega

theorem index_single_of_not_mem {s : Bytes} {c : UInt8} (h : c ∉ s) : index s [c] < 0 := by
  have := (index_nonneg_iff s [c]).not.mpr (by rwa [singleton_infix_iff])
  omega

theorem index_single_append_cons {a b : Bytes} {c : UInt8} (h : c ∉ a) :
    index (a ++ c :: b) [c] = a.length := by
  induction a with
  | nil => simp [index, List.isPrefixOf]
  | cons x a ih =>
    have hx : x ≠ c := fun e => h (e ▸ List.mem_cons_self _ _)
    rw [List.cons_append, index_cons_of_not_isPrefixOf (not_prefix_cons hx),
      ih fun m => h (List.mem_cons_of_mem _ m), if_neg (by omega)]
    simp

/-- `SplitN(s, sep, 2)` when `sep` occurs: the text before its first occurrence and the rest. -/
theorem splitN_two_append_cons {a b : Bytes} {c : UInt8} (h : c ∉ a) :
    splitN (a ++ c :: b) c 2 = [a, b] := by
  have : ¬ (a.length : Int) < 0 := by omega
  simp [splitN, index_single_append_cons (b := b) h, this]

/-- `SplitN(s, sep, 2)` when `sep` does not occur: `s` alone. -/
theorem splitN_two_of_not_mem {s : Bytes} {c : UInt8} (h : c ∉ s) : splitN s c 2 = [s] := by
  simp [splitN, index_single_of_not_mem h]

theorem split_of_not_mem {s : Bytes} {c : UInt8} (h : c ∉ s) : split s c = [s] :=
  List.splitOnP_eq_single _ _ fun x hx e => h (by rwa [beq_iff_eq.mp e] at hx)

theorem split_intercalate {c : UInt8} {l : List Bytes} (h : ∀ s ∈ l, c ∉ s) (hl : l ≠ []) :
    split ([c].intercalate l) c = l :=
  List.splitOn_intercalate l c h hl

theorem split_ne_nil (s : Bytes) (c : UInt8) : split s c ≠ [] := List.splitOnP_ne_nil _ _

/-- Splitting at an occurrence of the separator splits the pieces on either side. -/
theorem split_append_cons (xs ys : Bytes) (c : UInt8) :
    split (xs ++ c :: ys) c = split xs c ++ split ys c := by
  induction xs with
  | nil => simp [split, List.splitOn, List.splitOnP_cons]
  | cons x xs ih =>
    simp only [split, List.splitOn] at ih ⊢
    rw [List.cons_append, List.splitOnP_cons, List.splitOnP_cons, ih]
    split
    · simp
    · obtain ⟨p, ps, hp⟩ := List.exists_cons_of_ne_nil (List.splitOnP_ne_nil (· == c) xs)
      simp [hp]

theorem exists_last_occurrence {s : Bytes} {c : UInt8} (h : c ∈ s) :
    ∃ pre post, s = pre ++ c :: post ∧ c ∉ post := by
  induction s with
  | nil => cases h
  | cons x s ih =>
    by_cases hs : c ∈ s
    · obtain ⟨pre, post, rfl, hpost⟩ := ih hs
      exact ⟨x :: pre, post, rfl, hpost⟩
    · obtain rfl : x = c := by simpa [hs, eq_comm] using h
      exact ⟨[], s, rfl, hs⟩

/-- The pieces of a split: all but the last, then the last. -/
theorem split_eq_dropLast_append (s : Bytes) (c : UInt8) :
    split s c = (split s c).dropLast ++ [(split s c).getLastD []] := by
  rw [List.getLastD_eq_getLast?, List.getLast?_eq_getLast _ (split_ne_nil s c)]
  exact (List.dropLast_append_getLast _).symm

/-- The last piece of a split is a suffix of the string. -/
theorem split_getLastD_suffix (s : Bytes) (c : UInt8) : ∃ t, s = t ++ (split s c).getLastD [] := by
  by_cases h : c ∈ s
  · obtain ⟨pre, post, rfl, hpost⟩ := exists_last_occurrence h
    refine ⟨pre ++ [c], ?_⟩
    rw [split_append_cons, split_of_not_mem hpost]
    simp
  · exact ⟨[], by simp [split_of_not_mem h]⟩

theorem intercalate_cons_cons (c : UInt8) (a b : Bytes) (l : List Bytes) :
    [c].intercalate (a :: b :: l) = a ++ c :: [c].intercalate (b :: l) := by
  simp [List.intercalate, List.intersperse]

/-- Splitting pieces joined by the separator splits each piece. -/
theorem split_intercalate_flatMap (c : UInt8) :
    ∀ l : List Bytes, l ≠ [] → split ([c].intercalate l) c = l.flatMap (split · c)
  | [a], _ => by simp [List.intercalate]
  | a :: b :: l, _ => by
    rw [intercalate_cons_cons, split_append_cons,
      split_intercalate_flatMap c (b :: l) (List.cons_ne_nil _ _)]
    simp only [List.flatMap_cons]

theorem prefix_intercalate (c : UInt8) (a : Bytes) (l : List Bytes) :
    a <+: [c].intercalate (a :: l) := by
  cases l with
  | nil => simp [List.intercalate]
  | cons b l => rw [intercalate_cons_cons]; exact List.prefix_append _ _

/-- Each piece after the first follows a separator. -/
theorem infix_intercalate_of_mem_tail (c : UInt8) :
    ∀ (l : List Bytes), ∀ p ∈ l.tail, c :: p <:+: [c].intercalate l
  | [] | [_] => by simp
  | a :: b :: l => by
    intro p hp
    rw [intercalate_cons_cons]
    rcases List.mem_cons.mp hp with rfl | hp
    · obtain ⟨t, ht⟩ := prefix_intercalate c p l
      exact ⟨a, t, by rw [← ht]; simp⟩
    · exact (infix_intercalate_of_mem_tail c (b :: l) p hp).trans ⟨a ++ [c], [], by simp⟩

/-- Each piece of a split after the first follows a separator. -/
theorem infix_of_mem_split_tail (s : Bytes) (c : UInt8) : ∀ p ∈ (split s c).tail, c :: p <:+: s := by
  have := infix_intercalate_of_mem_tail c (split s c)
  rwa [split, List.intercalate_splitOn] at this

/-- Each piece but the last comes before a separator. -/
theorem infix_intercalate_of_mem_dropLast (c : UInt8) :
    ∀ (l : List Bytes), ∀ p ∈ l.dropLast, p ++ [c] <:+: [c].intercalate l
  | [] | [_] => by simp
  | a :: b :: l => by
    intro p hp
    rw [List.dropLast_cons₂] at hp
    rw [intercalate_cons_cons]
    rcases List.mem_cons.mp hp with rfl | hp
    · exact ⟨[], [c].intercalate (b :: l), by simp⟩
    · exact (infix_intercalate_of_mem_dropLast c (b :: l) p hp).trans ⟨a ++ [c], [], by simp⟩

/-- Each piece of a split but the last comes before a separator. -/
theorem infix_of_mem_split_dropLast (s : Bytes) (c : UInt8) :
    ∀ p ∈ (split s c).dropLast, p ++ [c] <:+: s := by
  have := infix_intercalate_of_mem_dropLast c (split s c)
  rwa [split, List.intercalate_splitOn] at this

theorem infix_intercalate_of_mem (c : UInt8) :
    ∀ {l : List Bytes} {s : Bytes}, s ∈ l → s <:+: [c].intercalate l
  | [_], _, h => by simp [List.mem_singleton.mp h, List.intercalate]
  | a :: b :: l, s, h => by
    rw [intercalate_cons_cons]
    rcases List.mem_cons.mp h with rfl | h
    · exact (List.prefix_append _ _).isInfix
    · exact (infix_intercalate_of_mem c h).trans ⟨a ++ [c], [], by simp⟩

/-- A piece of a split is a piece of the string. -/
theorem infix_of_mem_split {s t : Bytes} {c : UInt8} (h : s ∈ split t c) : s <:+: t := by
  have := infix_intercalate_of_mem c h
  rwa [split, List.intercalate_splitOn] at this

/-! ### Two-byte patterns such as `|#` -/

theorem pair_infix_cons {p q x : UInt8} {l : Bytes} :
    [p, q] <:+: x :: l ↔ (x = p ∧ l.head? = some q) ∨ [p, q] <:+: l := by
  rw [List.infix_cons_iff]
  refine or_congr_left ?_
  cases l with
  | nil => simp
  | cons y l =>
    simp only [List.cons_prefix_cons, List.nil_prefix, and_true, List.head?_cons,
      Option.some.injEq]
    exact ⟨fun ⟨h₁, h₂⟩ => ⟨h₁.symm, h₂.symm⟩, fun ⟨h₁, h₂⟩ => ⟨h₁.symm, h₂.symm⟩⟩

/-- A pair without `c` occurs across a `c` only on one side of it. -/
theorem pair_infix_append_cons {p q c : UInt8} (hp : c ≠ p) (hq : c ≠ q) (a b : Bytes) :
    [p, q] <:+: a ++ c :: b ↔ [p, q] <:+: a ∨ [p, q] <:+: b := by
  induction a with
  | nil => simp [pair_infix_cons, hp]
  | cons x a ih =>
    rw [List.cons_append, pair_infix_cons, ih, pair_infix_cons]
    cases a <;> simp [hq, or_assoc]

/-- A pair `p q` occurs after the first `p` of a string only where that `p` is followed by `q`
    or later. -/
theorem pair_infix_append_sep {p q : UInt8} {a : Bytes} (ha : p ∉ a) (b : Bytes) :
    [p, q] <:+: a ++ p :: b ↔ b.head? = some q ∨ [p, q] <:+: b := by
  induction a with
  | nil => simp [pair_infix_cons]
  | cons x a ih =>
    have hx : x ≠ p := fun h => ha (h ▸ List.mem_cons_self _ _)
    rw [List.cons_append, pair_infix_cons, ih fun h => ha (List.mem_cons_of_mem _ h)]
    simp [hx]

/-- A pair without the separator occurs in a joined list only inside a piece. -/
theorem pair_infix_intercalate {p q c : UInt8} (hp : c ≠ p) (hq : c ≠ q) :
    ∀ l : List Bytes, [p, q] <:+: [c].intercalate l ↔ ∃ s ∈ l, [p, q] <:+: s
  | [] => by simp [List.intercalate]
  | [a] => by simp [List.intercalate]
  | a :: b :: l => by
    rw [intercalate_cons_cons, pair_infix_append_cons hp hq, pair_infix_intercalate hp hq]
    simp

/-- A byte other than the separator occurs in a joined list only inside a piece. -/
theorem mem_intercalate_of_ne {x c : UInt8} (hx : x ≠ c) :
    ∀ l : List Bytes, x ∈ [c].intercalate l ↔ ∃ s ∈ l, x ∈ s
  | [] => by simp [List.intercalate]
  | [a] => by simp [List.intercalate]
  | a :: b :: l => by
    rw [intercalate_cons_cons, List.mem_append, List.mem_cons, mem_intercalate_of_ne hx (b :: l)]
    simp [hx]

/-- The separator `p` followed by `q` occurs in a joined list, whose pieces lack `p`, only where
    a piece after the first starts with `q`. -/
theorem pair_infix_intercalate_sep {p q : UInt8} (hpq : p ≠ q) :
    ∀ (a : Bytes) (l : List Bytes), (∀ s ∈ a :: l, p ∉ s) →
      ([p, q] <:+: [p].intercalate (a :: l) ↔ ∃ s ∈ l, s.head? = some q)
  | a, [], h => by
    simpa [List.intercalate] using fun hi : [p, q] <:+: a =>
      h a (List.mem_cons_self _ _) (hi.subset (List.mem_cons_self _ _))
  | a, b :: l, h => by
    rw [intercalate_cons_cons, pair_infix_append_sep (h a (List.mem_cons_self _ _)),
      pair_infix_intercalate_sep hpq b l fun s hs => h s (List.mem_cons_of_mem _ hs)]
    have hhead : ([p].intercalate (b :: l)).head? = some q ↔ b.head? = some q := by
      rcases b with _ | ⟨x, b⟩
      · cases l <;> simp [List.intercalate, hpq]
      · obtain ⟨t, ht⟩ := prefix_intercalate p (x :: b) l
        rw [← ht]
        rfl
    rw [hhead]
    simp

theorem span_append_cons {q : UInt8 → Bool} {a t : Bytes} {c : UInt8} (ha : ∀ b ∈ a, q b = true)
    (hc : q c = false) : (a ++ c :: t).span q = (a, c :: t) := by
  rw [List.span_eq_take_drop, List.takeWhile_append_of_pos ha, List.dropWhile_append_of_pos ha]
  simp [List.takeWhile_cons, List.dropWhile_cons, hc]

/-- A string is its first piece that fails `q`, then the rest, which starts with a byte that
    meets it. -/
theorem span_cases (q : UInt8 → Bool) (s : Bytes) :
    ((∀ b ∈ s, q b = true) ∧ s.span q = (s, [])) ∨
      ∃ a c t, s = a ++ c :: t ∧ (∀ b ∈ a, q b = true) ∧ q c = false ∧ s.span q = (a, c :: t) := by
  induction s with
  | nil => simp
  | cons x s ih =>
    by_cases hx : q x
    · rcases ih with ⟨hs, hsp⟩ | ⟨a, c, t, rfl, ha, hc, hsp⟩
      · left
        simp_all [List.span_eq_take_drop, List.takeWhile_cons, List.dropWhile_cons]
      · right
        refine ⟨x :: a, c, t, rfl, by simp_all, hc, ?_⟩
        simp_all [List.span_eq_take_drop, List.takeWhile_cons, List.dropWhile_cons]
    · right
      exact ⟨[], x, s, rfl, by simp, by simpa using hx, by
        simp [List.span_eq_take_drop, List.takeWhile_cons, List.dropWhile_cons, hx]⟩

/-- The pieces of a split hold no separator. -/
theorem not_mem_of_mem_split {c : UInt8} (s : Bytes) : ∀ p ∈ split s c, c ∉ p := by
  obtain ⟨n, hn⟩ : ∃ n, s.length = n := ⟨_, rfl⟩
  induction n using Nat.strong_induction_on generalizing s with
  | _ n ih =>
  rcases span_cases (· ≠ c) s with ⟨hall, -⟩ | ⟨a, d, t, rfl, ha, hd, -⟩
  · have hs : c ∉ s := fun h => by simpa using hall _ h
    rw [split_of_not_mem hs]
    simpa using hs
  · have hdc : d = c := by simpa using hd
    have ha' : c ∉ a := fun h => by simpa using ha _ h
    rw [hdc, split_append_cons, split_of_not_mem ha']
    rintro p (_ | ⟨_, hp⟩)
    · exact ha'
    · exact ih t.length (by simp at hn; omega) t rfl p hp
end Strings

end StatsdBridge.Go
