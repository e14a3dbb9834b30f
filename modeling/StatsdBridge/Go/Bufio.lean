import StatsdBridge.Go.Strings

/-! Go's `bufio.Reader` as `HandleConn` uses it: `bufio.NewReader` with the default size of
    4096 bytes, `fill`, `ReadSlice('\n')` and `ReadLine`, over a TCP connection.

    A reader keeps its unread bytes `b.buf[b.r:b.w]` as `buf`. `fill` slides them to the front of
    the buffer before it reads, so a read may add `defaultBufSize - buf.length` bytes whatever `r`
    was. `ReadSlice` searches the unread bytes from the offset `s` past which it has already
    looked; those bytes hold no `\n`, so searching from the start finds the same one. The
    connection is the list of what its successive `Read` calls return, then `io.EOF`; a `Read`
    into a smaller space returns the first part and leaves the rest for the next one.

    A reader is described by its `stream`, the bytes it will still deliver: `ReadSlice` returns a
    prefix of the stream and leaves the rest (`readSlice_stream`), so the loop of `HandleConn`
    ends. On a connection whose reads are not empty, a line shorter than the buffer comes back
    whole (`readLine_line`, `readLine_last`). -/

namespace StatsdBridge.Go.Bufio

/-- `defaultBufSize` -/
def defaultBufSize : Nat := 4096

/-- `maxConsecutiveEmptyReads` -/
def maxConsecutiveEmptyReads : Nat := 100

/-- The errors of `ReadSlice`: `io.EOF` from the connection, `io.ErrNoProgress` from `fill`, and
    `ErrBufferFull`. -/
inductive ReadError where
  | eof
  | noProgress
  | bufferFull
  deriving DecidableEq, Repr

/-- `Read` on a TCP connection into a space of `n` bytes: the first `n` bytes of what the next
    read returns, and `io.EOF` once the peer has closed. Errors of the network read itself (a
    reset connection, a deadline) are not modelled. -/
def connRead (conn : List Bytes) (n : Nat) : Bytes × Option ReadError × List Bytes :=
  match conn with
  | [] => ([], some .eof, [])
  | c :: cs => (c.take n, none, if c.length ≤ n then cs else c.drop n :: cs)

/-- A `*bufio.Reader`: the unread bytes, the error a read left (`b.err`), and the connection. -/
structure Reader where
  buf : Bytes
  err : Option ReadError
  conn : List Bytes

namespace Reader

/-- The bytes the reader will still deliver. -/
def stream (b : Reader) : Bytes := b.buf ++ b.conn.flatten

/-- What bounds the loop of `ReadSlice`: each `fill` adds a byte or leaves an error. -/
def pending (b : Reader) : Nat :=
  2 * (defaultBufSize - b.buf.length) + if b.err = none then 1 else 0

/-- A reader on a connection whose reads are not empty, with no error pending and no more
    unread bytes than the buffer holds. -/
structure Good (b : Reader) : Prop where
  err : b.err = none
  conn : ∀ c ∈ b.conn, c ≠ []
  buf : b.buf.length ≤ defaultBufSize

end Reader

/-- The read loop of `fill`, with `i` reads left. -/
def fillLoop : Nat → Reader → Reader
  | 0, b => { b with err := some .noProgress }
  | i + 1, b =>
    match connRead b.conn (defaultBufSize - b.buf.length) with
    | (d, some e, conn) => ⟨b.buf ++ d, some e, conn⟩
    | (d, none, conn) =>
      if d = [] then fillLoop i { b with conn := conn } else ⟨b.buf ++ d, b.err, conn⟩

/-- `fill`: read new data, trying at most `maxConsecutiveEmptyReads` times. -/
def fill (b : Reader) : Reader := fillLoop maxConsecutiveEmptyReads b

/-! ### `fill` -/

theorem connRead_length (conn : List Bytes) (n : Nat) : (connRead conn n).1.length ≤ n := by
  cases conn <;> simp [connRead, Nat.min_le_left]

theorem connRead_stream (conn : List Bytes) (n : Nat) :
    (connRead conn n).1 ++ (connRead conn n).2.2.flatten = conn.flatten := by
  cases conn with
  | nil => rfl
  | cons c cs =>
    simp only [connRead]
    split_ifs with h
    · rw [List.take_of_length_le h, List.flatten_cons]
    · rw [List.flatten_cons, List.flatten_cons, ← List.append_assoc, List.take_append_drop]

theorem fillLoop_stream : ∀ (i : Nat) (b : Reader), (fillLoop i b).stream = b.stream
  | 0, _ => rfl
  | i + 1, b => by
    have h := connRead_stream b.conn (defaultBufSize - b.buf.length)
    unfold fillLoop
    split
    · rename_i d e conn hc
      rw [hc] at h
      simp only [Reader.stream, List.append_assoc, h]
    · rename_i d conn hc
      rw [hc] at h
      split_ifs with hd
      · rw [fillLoop_stream i]
        simp only [Reader.stream, ← h, hd, List.nil_append]
      · simp only [Reader.stream, List.append_assoc, h]

theorem fill_stream (b : Reader) : (fill b).stream = b.stream := fillLoop_stream _ b

/-- Each `fill` on a reader with room and no error adds a byte or leaves an error. -/
theorem fillLoop_pending : ∀ (i : Nat) (b : Reader), b.err = none →
    b.buf.length < defaultBufSize → (fillLoop i b).pending < b.pending
  | 0, b, he, _ => by simp [fillLoop, Reader.pending, he]
  | i + 1, b, he, hlt => by
    have hd := connRead_length b.conn (defaultBufSize - b.buf.length)
    unfold fillLoop
    split
    · rename_i d e conn hc
      rw [hc] at hd
      simp only [Reader.pending, List.length_append, he, reduceCtorEq, if_false, if_true]
      omega
    · rename_i d conn hc
      rw [hc] at hd
      split_ifs with h0
      · exact fillLoop_pending i _ he hlt
      · have : 0 < d.length := List.length_pos.mpr h0
        simp only [Reader.pending, List.length_append, he, if_true]
        omega

/-- `fill` on a reader with room reads the next part of a connection that is not empty. -/
theorem fill_cons {b : Reader} (hg : b.Good) {c : Bytes} {cs : List Bytes}
    (hc : b.conn = c :: cs) (hlt : b.buf.length < defaultBufSize) :
    fill b = ⟨b.buf ++ c.take (defaultBufSize - b.buf.length), none,
      if c.length ≤ defaultBufSize - b.buf.length then cs
      else c.drop (defaultBufSize - b.buf.length) :: cs⟩ := by
  have hne : c.take (defaultBufSize - b.buf.length) ≠ [] := by
    simp [hg.conn c (hc ▸ List.mem_cons_self _ _),
      show defaultBufSize - b.buf.length ≠ 0 by omega]
  show fillLoop (99 + 1) b = _
  rw [fillLoop.eq_2, hc]
  simp only [connRead, if_neg hne, hg.err]

/-- `fill` at the end of the connection leaves `io.EOF`. -/
theorem fill_nil {b : Reader} (hc : b.conn = []) : fill b = { b with err := some .eof } := by
  show fillLoop (99 + 1) b = _
  rw [fillLoop.eq_2, hc]
  simp only [connRead, List.append_nil]

theorem fill_cons_good {b : Reader} (hg : b.Good) {c : Bytes} {cs : List Bytes}
    (hc : b.conn = c :: cs) (hlt : b.buf.length < defaultBufSize) :
    (fill b).Good ∧ b.buf.length < (fill b).buf.length := by
  have hc₀ := hg.conn c (hc ▸ List.mem_cons_self _ _)
  rw [fill_cons hg hc hlt]
  refine ⟨⟨rfl, fun c' hc' => ?_, ?_⟩, ?_⟩
  · split_ifs at hc' with h
    · exact hg.conn c' (hc ▸ List.mem_cons_of_mem _ hc')
    · rcases List.mem_cons.mp hc' with rfl | hc'
      · simpa using h
      · exact hg.conn c' (hc ▸ List.mem_cons_of_mem _ hc')
  · simp only [List.length_append, List.length_take]
    omega
  · have : 0 < c.length := List.length_pos.mpr hc₀
    simp only [List.length_append, List.length_take]
    omega

/-! ### `ReadSlice` -/

/-- `ReadSlice('\n')`: the unread bytes up to and with the first `\n`; without one, all of
    them with the pending error, or with `ErrBufferFull` when they fill the buffer; otherwise
    `fill` and search again. -/
def readSlice (b : Reader) : Bytes × Option ReadError × Reader :=
  match b.buf.span (· ≠ newline) with
  | (line, _ :: rest) => (line ++ [newline], none, { b with buf := rest })
  | (_, []) =>
    match _he : b.err with
    | some e => (b.buf, some e, { b with buf := [], err := none })
    | none =>
      if _hfull : defaultBufSize ≤ b.buf.length then (b.buf, some .bufferFull, { b with buf := [] })
      else readSlice (fill b)
termination_by b.pending
decreasing_by exact fillLoop_pending _ b _he (by omega)

section Equations

variable {b : Reader}

theorem readSlice_found {a t : Bytes} (hb : b.buf = a ++ newline :: t) (ha : newline ∉ a) :
    readSlice b = (a ++ [newline], none, { b with buf := t }) := by
  rw [readSlice, hb, Strings.span_append_cons (fun c hc => by simpa using ne_of_mem_of_not_mem hc ha)
    (by simp)]

theorem span_of_not_mem (h : newline ∉ b.buf) : b.buf.span (· ≠ newline) = (b.buf, []) := by
  rw [List.span_eq_take_drop, List.takeWhile_eq_self_iff.mpr, List.dropWhile_eq_nil_iff.mpr] <;>
    exact fun c hc => by simpa using ne_of_mem_of_not_mem hc h

variable (h : newline ∉ b.buf)
include h

theorem readSlice_err {e : ReadError} (he : b.err = some e) :
    readSlice b = (b.buf, some e, { b with buf := [], err := none }) := by
  rw [readSlice, span_of_not_mem h]
  split
  · simp_all
  · split <;> simp_all

theorem readSlice_full (he : b.err = none) (hfull : defaultBufSize ≤ b.buf.length) :
    readSlice b = (b.buf, some .bufferFull, { b with buf := [] }) := by
  rw [readSlice, span_of_not_mem h]
  split
  · simp_all
  · split
    · simp_all
    · rw [dif_pos hfull]

theorem readSlice_fill (he : b.err = none) (hlt : b.buf.length < defaultBufSize) :
    readSlice b = readSlice (fill b) := by
  rw [readSlice, span_of_not_mem h]
  split
  · simp_all
  · split
    · simp_all
    · rw [dif_neg (by omega)]

end Equations

/-- `ReadSlice` returns a prefix of the stream and leaves the rest. -/
theorem readSlice_stream (b : Reader) :
    b.stream = (readSlice b).1 ++ (readSlice b).2.2.stream := by
  obtain ⟨p, hp⟩ : ∃ p, b.pending = p := ⟨_, rfl⟩
  induction p using Nat.strong_induction_on generalizing b with
  | _ p ih =>
  rcases Strings.span_cases (· ≠ newline) b.buf with ⟨hall, -⟩ | ⟨a, c, t, hb, ha, hc, -⟩
  · have h : newline ∉ b.buf := fun h => by simpa using hall _ h
    cases he : b.err with
    | some e => simp [readSlice_err h he, Reader.stream]
    | none =>
      by_cases hfull : defaultBufSize ≤ b.buf.length
      · simp [readSlice_full h he hfull, Reader.stream]
      · rw [readSlice_fill h he (by omega), ← ih _ (hp ▸ fillLoop_pending _ b he (by omega)) _ rfl,
          fill_stream]
  · obtain rfl : c = newline := by simpa using hc
    rw [readSlice_found hb fun h => by simpa using ha _ h]
    simp [Reader.stream, hb]

/-- `ReadSlice` without an error returns a line. -/
theorem readSlice_ne_nil (b : Reader) (h : (readSlice b).2.1 = none) : (readSlice b).1 ≠ [] := by
  obtain ⟨p, hp⟩ : ∃ p, b.pending = p := ⟨_, rfl⟩
  induction p using Nat.strong_induction_on generalizing b with
  | _ p ih =>
  rcases Strings.span_cases (· ≠ newline) b.buf with ⟨hall, -⟩ | ⟨a, c, t, hb, ha, hc, -⟩
  · have hn : newline ∉ b.buf := fun h => by simpa using hall _ h
    cases he : b.err with
    | some e => simp [readSlice_err hn he] at h
    | none =>
      by_cases hfull : defaultBufSize ≤ b.buf.length
      · simp [readSlice_full hn he hfull] at h
      · rw [readSlice_fill hn he (by omega)] at h ⊢
        exact ih _ (hp ▸ fillLoop_pending _ b he (by omega)) _ h rfl
  · obtain rfl : c = newline := by simpa using hc
    simp [readSlice_found hb fun h => by simpa using ha _ h]

/-! ### `ReadLine` -/

/-- The end of `ReadLine`: a final `\n` is dropped, and a `\r` before it. -/
def dropNewline (line : Bytes) : Bytes :=
  if line.getLast? = some newline then
    if line.dropLast.getLast? = some cr then line.dropLast.dropLast else line.dropLast
  else line

/-- `ReadLine`: a line without its end, whether it is only the start of a line longer than the
    buffer (`isPrefix`), and the error. -/
def readLine (b : Reader) : Bytes × Bool × Option ReadError × Reader :=
  match readSlice b with
  | (line, some .bufferFull, b) =>
    -- a `\r` that ends a full buffer is put back, for the `\n` that may follow it
    if line.getLast? = some cr then (line.dropLast, true, none, { b with buf := cr :: b.buf })
    else (line, true, none, b)
  | ([], err, b) => ([], false, err, b)
  | (line, _, b) => (dropNewline line, false, none, b)

/-- A line `ReadLine` returns with its `\n`: without a final `\r`. -/
def trimCR (l : Bytes) : Bytes := if l.getLast? = some cr then l.dropLast else l

theorem dropNewline_line (l : Bytes) : dropNewline (l ++ [newline]) = trimCR l := by
  simp only [dropNewline, trimCR, List.getLast?_concat, List.dropLast_concat, if_true]

theorem dropNewline_of_not_mem {l : Bytes} (h : newline ∉ l) : dropNewline l = l :=
  if_neg fun hl => h (List.mem_of_getLast?_eq_some hl)

/-- A line that `ReadLine` returns without an error leaves a shorter stream. -/
theorem readLine_stream_lt {b b' : Reader} {line : Bytes} (h : readLine b = (line, false, none, b')) :
    b'.stream.length < b.stream.length := by
  have hs := readSlice_stream b
  have hne := readSlice_ne_nil b
  unfold readLine at h
  split at h
  · split_ifs at h <;> cases h
  · -- no line: then there is an error
    rename_i err b'' _ heq
    simp only [Prod.mk.injEq] at h
    rw [heq] at hne
    exact absurd rfl (hne h.2.2.1)
  · rename_i l e b'' _ hl heq
    simp only [Prod.mk.injEq] at h
    rw [heq] at hs
    dsimp only at hs
    rw [hs, ← h.2.2.2, List.length_append]
    have := List.length_pos.mpr hl
    omega

/-! ### Lines shorter than the buffer -/

/-- A prefix of `l ++ c :: r` without `c` is a prefix of `l`. -/
theorem prefix_of_not_mem {a l r : Bytes} {c : UInt8} (h : a <+: l ++ c :: r) (ha : c ∉ a) :
    a <+: l := by
  rcases List.prefix_or_prefix_of_prefix h (by simp : l ++ [c] <+: l ++ c :: r) with h' | h'
  · rcases List.prefix_concat_iff.mp h' with rfl | h'
    · simp at ha
    · exact h'
  · exact absurd (h'.subset (by simp)) ha

/-- A line ends at its first `c`. -/
theorem eq_of_append_cons {a l x y : Bytes} {c : UInt8} (ha : c ∉ a) (hl : c ∉ l)
    (h : a ++ c :: x = l ++ c :: y) : a = l ∧ x = y := by
  have h₁ := prefix_of_not_mem (h ▸ List.prefix_append a (c :: x)) ha
  have h₂ := prefix_of_not_mem (h.symm ▸ List.prefix_append l (c :: y)) hl
  obtain rfl := h₁.eq_of_length (le_antisymm h₁.length_le h₂.length_le)
  exact ⟨rfl, (List.cons.inj (List.append_cancel_left h)).2⟩

/-- The unread bytes of a good reader whose stream has no `\n` before `l` ends: `fill` can still
    add to them, and does while the connection has data. -/
theorem good_fill_step {b : Reader} (hg : b.Good) {l : Bytes} (hpre : b.buf <+: l)
    (hlen : l.length < defaultBufSize) {c : Bytes} {cs : List Bytes} (hc : b.conn = c :: cs) :
    (fill b).Good ∧ defaultBufSize - (fill b).buf.length < defaultBufSize - b.buf.length ∧
      (fill b).stream = b.stream := by
  have hlt : b.buf.length < defaultBufSize := hpre.length_le.trans_lt hlen
  obtain ⟨hg', hgrow⟩ := fill_cons_good hg hc hlt
  exact ⟨hg', by omega, fill_stream b⟩

/-- `ReadSlice` on a good reader whose stream starts with a line shorter than the buffer returns
    that line with its `\n`. -/
theorem readSlice_line {l rest : Bytes} (hl : newline ∉ l) (hlen : l.length < defaultBufSize)
    (b : Reader) (hg : b.Good) (hs : b.stream = l ++ newline :: rest) :
    ∃ b', readSlice b = (l ++ [newline], none, b') ∧ b'.Good ∧ b'.stream = rest := by
  obtain ⟨k, hk⟩ : ∃ k, defaultBufSize - b.buf.length = k := ⟨_, rfl⟩
  induction k using Nat.strong_induction_on generalizing b with
  | _ k ih =>
  rcases Strings.span_cases (· ≠ newline) b.buf with ⟨hall, -⟩ | ⟨a, c, t, hb, ha, hc, -⟩
  · -- no `\n` in the unread bytes: they are a prefix of the line, and `fill` reads more
    have hn : newline ∉ b.buf := fun h => by simpa using hall _ h
    have hpre := prefix_of_not_mem (by rw [← hs]; exact List.prefix_append _ _) hn
    obtain ⟨c, cs, hc⟩ : ∃ c cs, b.conn = c :: cs := by
      cases hcn : b.conn with
      | nil =>
        have : newline ∈ b.stream := by simp [hs]
        simp [Reader.stream, hcn] at this
        exact absurd this hn
      | cons c cs => exact ⟨c, cs, rfl⟩
    obtain ⟨hg', hk', hs'⟩ := good_fill_step hg hpre hlen hc
    rw [readSlice_fill hn hg.err (hpre.length_le.trans_lt hlen)]
    exact ih _ (hk ▸ hk') _ hg' (hs' ▸ hs) rfl
  · -- the first `\n` of the unread bytes ends the line
    obtain rfl : c = newline := by simpa using hc
    have ha' : newline ∉ a := fun h => by simpa using ha _ h
    rw [Reader.stream, hb, List.append_assoc, List.cons_append] at hs
    obtain ⟨rfl, hrest⟩ := eq_of_append_cons ha' hl hs
    refine ⟨{ b with buf := t }, readSlice_found hb ha', ⟨hg.err, hg.conn, ?_⟩, hrest⟩
    show t.length ≤ defaultBufSize
    have := hg.buf
    rw [hb, List.length_append, List.length_cons] at this
    omega

/-- `ReadSlice` on a good reader whose stream is a last line, shorter than the buffer and
    without `\n`, returns that line with `io.EOF`. -/
theorem readSlice_last {l : Bytes} (hl : newline ∉ l) (hlen : l.length < defaultBufSize)
    (b : Reader) (hg : b.Good) (hs : b.stream = l) :
    ∃ b', readSlice b = (l, some .eof, b') ∧ b'.Good ∧ b'.stream = [] := by
  obtain ⟨k, hk⟩ : ∃ k, defaultBufSize - b.buf.length = k := ⟨_, rfl⟩
  induction k using Nat.strong_induction_on generalizing b with
  | _ k ih =>
  have hpre : b.buf <+: l := by rw [← hs]; exact List.prefix_append _ _
  have hn : newline ∉ b.buf := fun h => hl (hpre.subset h)
  have hlt : b.buf.length < defaultBufSize := hpre.length_le.trans_lt hlen
  rw [readSlice_fill hn hg.err hlt]
  cases hc : b.conn with
  | nil =>
    -- the connection is at its end: `fill` leaves `io.EOF`, which comes back with the line
    have hbl : b.buf = l := by simpa [Reader.stream, hc] using hs
    rw [fill_nil hc, readSlice_err (b := { b with err := some .eof }) hn rfl]
    exact ⟨_, by rw [hbl], ⟨rfl, by simp [hc], by simp⟩, by simp [Reader.stream, hc]⟩
  | cons c cs =>
    obtain ⟨hg', hk', hs'⟩ := good_fill_step hg hpre hlen hc
    exact ih _ (hk ▸ hk') _ hg' (hs' ▸ hs) rfl

/-- `ReadLine` returns a line shorter than the buffer whole, without its `\n` and a `\r`
    before it. -/
theorem readLine_line {l rest : Bytes} (hl : newline ∉ l) (hlen : l.length < defaultBufSize)
    (b : Reader) (hg : b.Good) (hs : b.stream = l ++ newline :: rest) :
    ∃ b', readLine b = (trimCR l, false, none, b') ∧ b'.Good ∧ b'.stream = rest := by
  obtain ⟨b', h, hg', hs'⟩ := readSlice_line hl hlen b hg hs
  refine ⟨b', ?_, hg', hs'⟩
  unfold readLine
  split <;> rename_i heq <;> rw [h] at heq <;> simp only [Prod.mk.injEq] at heq
  · simp at heq
  · simp at heq
  · obtain ⟨rfl, -, rfl⟩ := heq
    rw [dropNewline_line]

/-- `ReadLine` returns a last line without `\n` as it is. -/
theorem readLine_last {l : Bytes} (hl : newline ∉ l) (hne : l ≠ [])
    (hlen : l.length < defaultBufSize) (b : Reader) (hg : b.Good) (hs : b.stream = l) :
    ∃ b', readLine b = (l, false, none, b') ∧ b'.Good ∧ b'.stream = [] := by
  obtain ⟨b', h, hg', hs'⟩ := readSlice_last hl hlen b hg hs
  refine ⟨b', ?_, hg', hs'⟩
  unfold readLine
  split <;> rename_i heq <;> rw [h] at heq <;> simp only [Prod.mk.injEq] at heq
  · simp at heq
  · exact absurd heq.1 hne
  · obtain ⟨rfl, -, rfl⟩ := heq
    rw [dropNewline_of_not_mem hl]

/-- At the end of the stream `ReadLine` returns `io.EOF`. -/
theorem readLine_eof (b : Reader) (hg : b.Good) (hs : b.stream = []) :
    ∃ b', readLine b = ([], false, some .eof, b') := by
  obtain ⟨b', h, -⟩ := readSlice_last (List.not_mem_nil _) (by decide) b hg hs
  exact ⟨b', by rw [readLine, h]⟩

/-! ### Lines as long as the buffer -/

/-- `ReadSlice` on a good reader whose stream starts with a buffer's worth of bytes without
    `\n` returns them with `ErrBufferFull`, and leaves the rest of the stream. -/
theorem readSlice_long {l rest : Bytes} (hl : newline ∉ l) (hlen : l.length = defaultBufSize)
    (b : Reader) (hg : b.Good) (hs : b.stream = l ++ rest) :
    ∃ b', readSlice b = (l, some .bufferFull, b') ∧ b'.Good ∧ b'.stream = rest := by
  obtain ⟨k, hk⟩ : ∃ k, defaultBufSize - b.buf.length = k := ⟨_, rfl⟩
  induction k using Nat.strong_induction_on generalizing b with
  | _ k ih =>
  -- the unread bytes are a prefix of the long line, so they hold no `\n`
  have hpre : b.buf <+: l := List.prefix_of_prefix_length_le
    (by rw [← hs]; exact List.prefix_append _ _) (List.prefix_append _ _) (hlen ▸ hg.buf)
  have hn : newline ∉ b.buf := fun h => hl (hpre.subset h)
  by_cases hfull : defaultBufSize ≤ b.buf.length
  · -- a full buffer: the whole line comes back with `ErrBufferFull`
    obtain rfl : b.buf = l := hpre.eq_of_length (by have := hg.buf; omega)
    rw [readSlice_full hn hg.err hfull]
    refine ⟨_, rfl, ⟨hg.err, hg.conn, by simp⟩, ?_⟩
    simpa [Reader.stream] using hs
  · -- room in the buffer: the connection has more of the line, and `fill` reads it
    have hlt : b.buf.length < defaultBufSize := by omega
    obtain ⟨c, cs, hc⟩ : ∃ c cs, b.conn = c :: cs := by
      cases hcn : b.conn with
      | nil =>
        have := congrArg List.length hs
        simp only [Reader.stream, hcn, List.flatten_nil, List.append_nil, List.length_append] at this
        omega
      | cons c cs => exact ⟨c, cs, rfl⟩
    obtain ⟨hg', hgrow⟩ := fill_cons_good hg hc hlt
    rw [readSlice_fill hn hg.err hlt]
    exact ih _ (by omega) _ hg' (fill_stream b ▸ hs) rfl

/-- `ReadLine` on a stream that starts with a buffer's worth of bytes without `\n` reports only
    the start of a line (`isPrefix`), with no error. -/
theorem readLine_long {l rest : Bytes} (hl : newline ∉ l) (hlen : l.length = defaultBufSize)
    (b : Reader) (hg : b.Good) (hs : b.stream = l ++ rest) :
    ∃ line b', readLine b = (line, true, none, b') := by
  obtain ⟨b', h, -⟩ := readSlice_long hl hlen b hg hs
  unfold readLine
  split <;> rename_i heq <;> rw [h] at heq <;> simp only [Prod.mk.injEq] at heq
  · split_ifs <;> exact ⟨_, _, rfl⟩
  -- the other arms are for results without `ErrBufferFull`
  all_goals simp_all

end StatsdBridge.Go.Bufio
