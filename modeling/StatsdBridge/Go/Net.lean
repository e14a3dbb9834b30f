import StatsdBridge.Go.Strings

/-! `net.SplitHostPort` (Go 1.13), which splits a listening address into its host and its
    port.

    The port is what follows the last `:`. A host in brackets, `[host]:port`, may hold colons,
    as an IPv6 address does. A host without brackets may not, and in neither form may a `[` or
    a `]` stand where it does not delimit the host. `splitHostPort_join` and
    `splitHostPort_bracketed` prove that both forms give back their host and port. Every
    address it accepts is one of the two forms (`splitHostPort_plain`,
    `splitHostPort_brackets`), so it accepts exactly these (`splitHostPort_eq_ok_iff`). -/

namespace StatsdBridge.Go.Net

/-- `*net.AddrError`: why the address is wrong (`Err`), and the address (`Addr`). -/
structure AddrError where
  err : Bytes
  addr : Bytes
  deriving DecidableEq, Repr

def missingPort : Bytes := ascii "missing port in address"

def tooManyColons : Bytes := ascii "too many colons in address"

def missingRBracket : Bytes := ascii "missing \x27]\x27 in address"

def unexpectedLBracket : Bytes := ascii "unexpected \x27[\x27 in address"

def unexpectedRBracket : Bytes := ascii "unexpected \x27]\x27 in address"

def lbracket : UInt8 := '['.toUInt8

def rbracket : UInt8 := ']'.toUInt8

@[simp] theorem lbracket_eq : lbracket = 91 := rfl

@[simp] theorem rbracket_eq : rbracket = 93 := rfl

/-- `last(s, b)`: the index of the last `b` in `s`, or `-1`. The loop runs `i` down from
    `len(s) - 1`. -/
def last (s : Bytes) (b : UInt8) : Int := go s.length
where
  /-- The loop, with `i + 1` bytes still to look at. -/
  go : Nat → Int
    | 0 => -1
    | i + 1 => if s[i]? = some b then i else go i

/-- `byteIndex(s, c)`, which is `strings.IndexByte`: the index of the first `c` in `s`, or
    `-1`. -/
def byteIndex (s : Bytes) (c : UInt8) : Int := Strings.index s [c]

/-- The host of an address that starts with `[`, and the offsets `j` and `k` before which no
    `[` or `]` can stand. The first `]` must be just before the last `:`, which is at `i`. -/
def splitBracketed (hostport : Bytes) (i : Nat) : Except AddrError (Bytes × Nat × Nat) :=
  let end_ := byteIndex hostport rbracket
  if end_ < 0 then .error ⟨missingRBracket, hostport⟩
  else if end_.toNat + 1 = hostport.length then .error ⟨missingPort, hostport⟩
  else if end_.toNat + 1 = i then .ok ((hostport.take end_.toNat).drop 1, 1, end_.toNat + 1)
  else if hostport[end_.toNat + 1]? = some colon then .error ⟨tooManyColons, hostport⟩
  else .error ⟨missingPort, hostport⟩

/-- `net.SplitHostPort(hostport)`. -/
def splitHostPort (hostport : Bytes) : Except AddrError (Bytes × Bytes) :=
  let i := last hostport colon
  if i < 0 then .error ⟨missingPort, hostport⟩
  else
    let hostJK : Except AddrError (Bytes × Nat × Nat) :=
      if hostport.head? = some lbracket then splitBracketed hostport i.toNat
      else
        let host := hostport.take i.toNat
        if 0 ≤ byteIndex host colon then .error ⟨tooManyColons, hostport⟩ else .ok (host, 0, 0)
    match hostJK with
    | .error e => .error e
    | .ok (host, j, k) =>
      if 0 ≤ byteIndex (hostport.drop j) lbracket then .error ⟨unexpectedLBracket, hostport⟩
      else if 0 ≤ byteIndex (hostport.drop k) rbracket then .error ⟨unexpectedRBracket, hostport⟩
      else .ok (host, hostport.drop (i.toNat + 1))

/-! ### `last` and `byteIndex` -/

theorem byteIndex_nonneg_iff (s : Bytes) (c : UInt8) : 0 ≤ byteIndex s c ↔ c ∈ s := by
  rw [byteIndex, Strings.index_nonneg_iff, Strings.singleton_infix_iff]

/-- The loop of `last` passes over the bytes that are not `b`. -/
theorem last_go_skip {s : Bytes} {b : UInt8} (m : Nat) :
    ∀ k, (∀ j, m ≤ j → j < m + k → s[j]? ≠ some b) → last.go s b (m + k) = last.go s b m
  | 0, _ => rfl
  | k + 1, h => by
    rw [← Nat.add_assoc, last.go, if_neg (h _ (by omega) (by omega)),
      last_go_skip m k fun j h₁ h₂ => h j h₁ (by omega)]

theorem last_of_not_mem {s : Bytes} {b : UInt8} (h : b ∉ s) : last s b = -1 := by
  have := last_go_skip (s := s) (b := b) 0 s.length fun j _ hj hs =>
    h (List.mem_iff_getElem?.mpr ⟨_, hs⟩)
  rwa [Nat.zero_add] at this

/-- The last `b` of `a ++ b :: t`, when `t` has none, is at the length of `a`. -/
theorem last_append_cons {a t : Bytes} {b : UInt8} (h : b ∉ t) :
    last (a ++ b :: t) b = a.length := by
  have hskip := last_go_skip (s := a ++ b :: t) (b := b) (a.length + 1) t.length
    fun j h₁ h₂ hs => h (by
      rw [List.getElem?_append_right (by omega), List.getElem?_cons] at hs
      rw [if_neg (by omega)] at hs
      exact List.mem_iff_getElem?.mpr ⟨_, hs⟩)
  rw [last, List.length_append, List.length_cons, Nat.add_comm t.length, ← Nat.add_assoc, hskip,
    last.go, if_pos (by rw [List.getElem?_append_right (Nat.le_refl _), Nat.sub_self,
      List.getElem?_cons_zero])]

theorem byteIndex_of_not_mem {s : Bytes} {c : UInt8} (h : c ∉ s) : ¬ 0 ≤ byteIndex s c :=
  (byteIndex_nonneg_iff s c).not.mpr h

theorem not_mem_append_cons {c x : UInt8} {a b : Bytes} (hx : c ≠ x) (ha : c ∉ a) (hb : c ∉ b) :
    c ∉ a ++ x :: b := by
  simp only [List.mem_append, List.mem_cons, not_or]
  exact ⟨ha, hx, hb⟩

/-! ### The two forms of an address -/

/-- Bytes of a host or a port that delimit neither. -/
def Plain (s : Bytes) : Prop := colon ∉ s ∧ lbracket ∉ s ∧ rbracket ∉ s

/-- `host:port`, with a host and a port without `:`, `[` or `]`, splits into the two. -/
theorem splitHostPort_join {h p : Bytes} (hh : Plain h) (hp : Plain p) :
    splitHostPort (h ++ colon :: p) = .ok (h, p) := by
  have hhead : (h ++ colon :: p).head? ≠ some lbracket := by
    cases h with
    | nil => rw [List.nil_append, List.head?_cons]; decide
    | cons x h =>
      rw [List.cons_append, List.head?_cons]
      exact fun hx => hh.2.1 (Option.some.inj hx ▸ List.mem_cons_self _ _)
  have hl : lbracket ∉ h ++ colon :: p := not_mem_append_cons (by decide) hh.2.1 hp.2.1
  have hr : rbracket ∉ h ++ colon :: p := not_mem_append_cons (by decide) hh.2.2 hp.2.2
  simp only [splitHostPort, last_append_cons hp.1, Int.toNat_ofNat, List.take_left',
    if_neg hhead, if_neg (byteIndex_of_not_mem hh.1), List.drop_zero, if_neg (byteIndex_of_not_mem hl),
    if_neg (byteIndex_of_not_mem hr)]
  rw [if_neg (by omega)]
  simp

/-- `[host]:port`, with a host without `[` or `]`, which may hold colons, and a port without
    `:`, `[` or `]`, splits into the two. -/
theorem splitHostPort_bracketed {h p : Bytes} (hh : lbracket ∉ h ∧ rbracket ∉ h) (hp : Plain p) :
    splitHostPort (lbracket :: (h ++ rbracket :: colon :: p)) = .ok (h, p) := by
  have hi : last (lbracket :: (h ++ rbracket :: colon :: p)) colon = ((h.length + 2 : Nat) : Int) := by
    have := last_append_cons (a := lbracket :: h ++ [rbracket]) hp.1
    simpa using this
  have hend : byteIndex (lbracket :: (h ++ rbracket :: colon :: p)) rbracket =
      ((h.length + 1 : Nat) : Int) := by
    have := Strings.index_single_append_cons (a := lbracket :: h) (b := colon :: p)
      (List.not_mem_cons_of_ne_of_not_mem (by decide) hh.2)
    simpa [byteIndex] using this
  have hl : lbracket ∉ h ++ rbracket :: colon :: p :=
    not_mem_append_cons (by decide) hh.1 (List.not_mem_cons_of_ne_of_not_mem (by decide) hp.2.1)
  have hr : rbracket ∉ colon :: p := List.not_mem_cons_of_ne_of_not_mem (by decide) hp.2.2
  unfold splitHostPort
  rw [hi, if_neg (by omega)]
  dsimp only
  rw [List.head?_cons, if_pos rfl, splitBracketed]
  rw [hend, if_neg (by omega), Int.toNat_ofNat, Int.toNat_ofNat,
    if_neg (by simp only [List.length_cons, List.length_append]; omega), if_pos rfl]
  dsimp only
  rw [List.drop_one, List.tail_cons, if_neg (byteIndex_of_not_mem hl)]
  have hk : (lbracket :: (h ++ rbracket :: colon :: p)).drop (h.length + 1 + 1) = colon :: p := by
    simp
  rw [hk, if_neg (byteIndex_of_not_mem hr)]
  simp

@[simp] theorem drop_append_cons (a t : Bytes) (c : UInt8) :
    (a ++ c :: t).drop (a.length + 1) = t := by
  rw [List.append_cons, List.drop_left' (by simp)]

theorem exists_first_occurrence {s : Bytes} {c : UInt8} (h : c ∈ s) :
    ∃ b u, s = b ++ c :: u ∧ c ∉ b := by
  induction s with
  | nil => cases h
  | cons x s ih =>
    by_cases hx : x = c
    · exact ⟨[], s, by rw [hx]; rfl, List.not_mem_nil _⟩
    · obtain ⟨b, u, rfl, hb⟩ := ih ((List.mem_cons.mp h).resolve_left (Ne.symm hx))
      exact ⟨x :: b, u, rfl, List.not_mem_cons_of_ne_of_not_mem (Ne.symm hx) hb⟩

/-- An address without brackets that `SplitHostPort` accepts is `host:port`. -/
theorem splitHostPort_plain {a t h p : Bytes} (ht : colon ∉ t)
    (hb : ¬ (a ++ colon :: t).head? = some lbracket)
    (hs : splitHostPort (a ++ colon :: t) = .ok (h, p)) :
    a ++ colon :: t = h ++ colon :: p ∧ Plain h ∧ Plain p := by
  unfold splitHostPort at hs
  rw [last_append_cons ht, if_neg (by omega), Int.toNat_ofNat] at hs
  dsimp only at hs
  rw [if_neg hb, List.take_left] at hs
  by_cases ha : colon ∈ a
  · rw [if_pos ((byteIndex_nonneg_iff _ _).mpr ha)] at hs
    nomatch hs
  rw [if_neg (byteIndex_of_not_mem ha)] at hs
  dsimp only at hs
  rw [List.drop_zero] at hs
  by_cases hl : lbracket ∈ a ++ colon :: t
  · rw [if_pos ((byteIndex_nonneg_iff _ _).mpr hl)] at hs
    nomatch hs
  by_cases hr : rbracket ∈ a ++ colon :: t
  · rw [if_neg (byteIndex_of_not_mem hl), if_pos ((byteIndex_nonneg_iff _ _).mpr hr)] at hs
    nomatch hs
  rw [if_neg (byteIndex_of_not_mem hl), if_neg (byteIndex_of_not_mem hr), Except.ok.injEq,
    Prod.mk.injEq, drop_append_cons] at hs
  obtain ⟨rfl, rfl⟩ := hs
  simp only [List.mem_append, List.mem_cons, not_or] at hl hr
  exact ⟨by simp, ⟨ha, hl.1, hr.1⟩, ⟨ht, hl.2.2, hr.2.2⟩⟩

/-- An address in brackets that `SplitHostPort` accepts is `[host]:port`. -/
theorem splitHostPort_brackets {a t h p : Bytes} (ht : colon ∉ t)
    (hb : (a ++ colon :: t).head? = some lbracket)
    (hs : splitHostPort (a ++ colon :: t) = .ok (h, p)) :
    a ++ colon :: t = lbracket :: (h ++ rbracket :: colon :: p) ∧ lbracket ∉ h ∧ rbracket ∉ h ∧
      Plain p := by
  unfold splitHostPort at hs
  rw [last_append_cons ht, if_neg (by omega), Int.toNat_ofNat] at hs
  dsimp only at hs
  rw [if_pos hb, splitBracketed] at hs
  by_cases hr : rbracket ∈ a ++ colon :: t
  swap
  · rw [if_pos (by have := byteIndex_of_not_mem hr; omega)] at hs
    nomatch hs
  obtain ⟨b, u, hbu, hbn⟩ := exists_first_occurrence hr
  have hend : byteIndex (a ++ colon :: t) rbracket = ((b.length : Nat) : Int) := by
    rw [hbu, byteIndex, Strings.index_single_append_cons hbn]
  rw [hend, if_neg (by omega), Int.toNat_ofNat] at hs
  by_cases hlen : b.length + 1 = (a ++ colon :: t).length
  · rw [if_pos hlen] at hs
    nomatch hs
  rw [if_neg hlen] at hs
  by_cases hba : b.length + 1 = a.length
  swap
  · rw [if_neg hba] at hs
    split_ifs at hs
  rw [if_pos hba] at hs
  -- the first `]` is just before the last `:`
  obtain ⟨rfl, rfl⟩ := List.append_inj (hbu.trans (List.append_cons _ _ _)) (by simp [← hba])
  obtain ⟨h', rfl⟩ : ∃ h', b = lbracket :: h' := by
    cases b with
    | nil => nomatch hb
    | cons x h' => exact ⟨h', by simpa using hb⟩
  have hdrop : (h' ++ rbracket :: colon :: t).drop (h'.length + 1 + 1) = t := by
    simpa using drop_append_cons (h' ++ [rbracket]) t colon
  simp only [List.cons_append, List.append_assoc, List.singleton_append, List.length_cons,
    List.drop_succ_cons, List.drop_zero, List.take_succ_cons, List.take_left, List.length_append,
    List.drop_one, List.tail_cons, List.nil_append, List.length_nil, Nat.zero_add,
    drop_append_cons, hdrop] at hs
  by_cases hl : lbracket ∈ h' ++ rbracket :: colon :: t
  · rw [if_pos ((byteIndex_nonneg_iff _ _).mpr hl)] at hs
    nomatch hs
  by_cases hr' : rbracket ∈ colon :: t
  · rw [if_neg (byteIndex_of_not_mem hl), if_pos ((byteIndex_nonneg_iff _ _).mpr hr')] at hs
    nomatch hs
  rw [if_neg (byteIndex_of_not_mem hl), if_neg (byteIndex_of_not_mem hr'), Except.ok.injEq,
    Prod.mk.injEq] at hs
  obtain ⟨rfl, hp⟩ := hs
  simp only [List.mem_append, List.mem_cons, not_or] at hl hr' hbn
  refine ⟨by simp [← hp], hl.1, hbn.2, ?_, ?_, ?_⟩ <;> rw [← hp] <;> simp_all

/-- `SplitHostPort` accepts exactly the addresses `host:port` with a host and a port without
    `:`, `[` or `]`, and `[host]:port` with a host without `[` or `]` and such a port. It gives
    back their host and port. -/
theorem splitHostPort_eq_ok_iff (s h p : Bytes) :
    splitHostPort s = .ok (h, p) ↔
      (s = h ++ colon :: p ∧ Plain h ∧ Plain p) ∨
        (s = lbracket :: (h ++ rbracket :: colon :: p) ∧ lbracket ∉ h ∧ rbracket ∉ h ∧ Plain p) := by
  constructor
  · intro hs
    by_cases hc : colon ∈ s
    · obtain ⟨a, t, rfl, ht⟩ := Strings.exists_last_occurrence hc
      by_cases hb : (a ++ colon :: t).head? = some lbracket
      · exact .inr (splitHostPort_brackets ht hb hs)
      · exact .inl (splitHostPort_plain ht hb hs)
    · -- no `:`: the port is missing
      unfold splitHostPort at hs
      rw [last_of_not_mem hc, if_pos (by decide)] at hs
      nomatch hs
  · rintro (⟨rfl, hh, hp⟩ | ⟨rfl, hh₁, hh₂, hp⟩)
    · exact splitHostPort_join hh hp
    · exact splitHostPort_bracketed ⟨hh₁, hh₂⟩ hp

end StatsdBridge.Go.Net
