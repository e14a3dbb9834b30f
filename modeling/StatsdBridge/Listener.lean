import StatsdBridge.Go.Binary64
import StatsdBridge.Go.Bufio
import StatsdBridge.Line.Spec

/-! The listeners (package `listener`): how the bytes a socket receives become the lines
    `LineToEvents` reads and the event lists passed to `EventHandler.Queue`.

    The UDP and Unixgram listeners split each packet on `\n` (`handleDatagram`); the TCP listener
    reads each connection through a `bufio.Reader` with `ReadLine` until it fails
    (`handleConnLoop`). A listener's result is what it passed to `Queue`, in order, with the
    counters it incremented.

    `handleDatagram_eq` proves that a packet is read without a panic, each line as `readLine`
    reads it. `handleConnLoop_lines` proves what a connection whose lines are shorter than the
    buffer gives: the lines `ReadLine` returns, which lose a `\r` before their `\n`, so a
    connection and a packet of the same bytes give the same events when there is no `\r\n`
    (`handleConn_events_eq`), and not otherwise (`crlf_events_differ`). A line of a full buffer
    ends the connection (`handleConn_lineTooLong`), and on every connection the loop returns,
    with each line it counted queued once (`listeners_count_queued`). -/

namespace StatsdBridge.Listener

open Go Go.Bufio Line

variable {F : Type} (fl : GoFloat F)

/-- What a listener has done: the event lists it passed to `EventHandler.Queue`, in order, the
    lines it counted in `lines_received`, and the counters `LineToEvents` incremented. -/
structure Handled (F : Type) where
  queued : List (List (Event F))
  linesReceived : Nat
  counters : Counters

/-- Nothing handled yet. -/
def Handled.init : Handled F := ⟨[], 0, .zero⟩

/-- One line: `linesReceived.Inc()` and `EventHandler.Queue(LineToEvents(line, ...))`. -/
def queueLine (h : Handled F) (line : Bytes) : Option (Handled F) := do
  let (events, c) ← lineToEvents fl line
  pure ⟨h.queued ++ [events], h.linesReceived + 1, h.counters.add c⟩

/-! ### UDP and Unixgram -/

/-- The body of `HandlePacket` of the UDP and Unixgram listeners: the packet split on `\n` and
    each line queued. -/
def handleDatagram (packet : Bytes) : Option (Handled F) :=
  (Strings.split packet newline).foldlM (queueLine fl) .init

/-- `(*StatsDUDPListener).HandlePacket`, which also counts `udp_packets`. -/
def StatsDUDPListener.handlePacket (packet : Bytes) : Option (Handled F) :=
  handleDatagram fl packet

/-- `(*StatsDUnixgramListener).HandlePacket`, which also counts `unixgram_packets`. -/
def StatsDUnixgramListener.handlePacket (packet : Bytes) : Option (Handled F) :=
  handleDatagram fl packet

/-- One line queued, read with `readLine`. -/
def queueRead (h : Handled F) (line : Bytes) : Handled F :=
  ⟨h.queued ++ [(readLine fl line).1], h.linesReceived + 1, h.counters.add (readLine fl line).2⟩

theorem queueLine_eq (h : Handled F) (line : Bytes) :
    queueLine fl h line = some (queueRead fl h line) := by
  simp only [queueLine, lineToEvents_eq, Option.bind_eq_bind, Option.some_bind]
  rfl

theorem foldl_queueRead_queued (lines : List Bytes) (h : Handled F) :
    (lines.foldl (queueRead fl) h).queued = h.queued ++ lines.map fun l => (readLine fl l).1 := by
  induction lines generalizing h with
  | nil => simp
  | cons l lines ih => simp [ih, queueRead]

/-- What a listener does for one input, then for another. -/
def Handled.append (h h' : Handled F) : Handled F :=
  ⟨h.queued ++ h'.queued, h.linesReceived + h'.linesReceived, h.counters.add h'.counters⟩

theorem Handled.append_assoc (h₁ h₂ h₃ : Handled F) :
    (h₁.append h₂).append h₃ = h₁.append (h₂.append h₃) := by
  simp only [Handled.append, List.append_assoc, Nat.add_assoc, Counters.add_assoc]

theorem Handled.append_init (h : Handled F) : h.append .init = h := by
  simp only [Handled.append, Handled.init, List.append_nil, Nat.add_zero, Counters.add_zero]

theorem queueRead_eq_append (h : Handled F) (line : Bytes) :
    queueRead fl h line = h.append (queueRead fl .init line) := by
  simp only [queueRead, Handled.append, Handled.init, List.nil_append, Nat.zero_add,
    Counters.zero_add]

/-- Reading lines from what a listener has done adds what reading them from nothing does. -/
theorem foldl_queueRead_append (lines : List Bytes) (h : Handled F) :
    lines.foldl (queueRead fl) h = h.append (lines.foldl (queueRead fl) .init) := by
  induction lines generalizing h with
  | nil => exact (Handled.append_init h).symm
  | cons l lines ih =>
    rw [List.foldl_cons, List.foldl_cons, ih, ih (queueRead fl .init l), queueRead_eq_append fl h,
      Handled.append_assoc]

theorem handleDatagram_foldl (packet : Bytes) :
    handleDatagram fl packet = some ((Strings.split packet newline).foldl (queueRead fl) .init) :=
  foldlM_eq_some (fun h line _ => queueLine_eq fl h line) Handled.init

/-- Lines are independent: the packet `a\nb` is handled as the packet `a` and then the packet
    `b`, with the same `Queue` calls in the same order and the counters of both. -/
theorem handlePacket_append (a b : Bytes) :
    StatsDUDPListener.handlePacket fl (a ++ newline :: b) =
      (StatsDUDPListener.handlePacket fl a).bind fun ha =>
        (StatsDUDPListener.handlePacket fl b).map ha.append := by
  simp only [StatsDUDPListener.handlePacket, handleDatagram_foldl, Strings.split_append_cons,
    List.foldl_append, Option.some_bind, Option.map_some']
  rw [foldl_queueRead_append]

/-- `HandlePacket` never panics: every index and slice expression it and `LineToEvents` evaluate
    is in range, and each line of the packet is queued as `readLine` reads it. -/
theorem handleDatagram_eq (packet : Bytes) :
    StatsDUDPListener.handlePacket fl packet =
        some ((Strings.split packet newline).foldl (queueRead fl) .init) ∧
      StatsDUnixgramListener.handlePacket fl packet =
        some ((Strings.split packet newline).foldl (queueRead fl) .init) :=
  ⟨handleDatagram_foldl fl packet, handleDatagram_foldl fl packet⟩

/-! ### TCP -/

/-- How `HandleConn` stops: at `io.EOF`; at another read error, counted in `tcp_errors`; or at
    a line longer than the buffer, counted in `tcp_line_too_long`. -/
inductive ConnEnd where
  | eof
  | readError (e : ReadError)
  | lineTooLong
  deriving DecidableEq, Repr

/-- The loop of `HandleConn`: read a line, stop at an error or a line too long, queue it. -/
def handleConnLoop (b : Reader) (h : Handled F) : Option (Handled F × ConnEnd) :=
  match _hr : readLine b with
  | (_, _, some e, _) => some (h, if e = .eof then .eof else .readError e)
  | (_, true, none, _) => some (h, .lineTooLong)
  | (line, false, none, b') => do
    let h ← queueLine fl h line
    handleConnLoop b' h
termination_by b.stream.length
decreasing_by exact readLine_stream_lt _hr

/-- `(*StatsDTCPListener).HandleConn` on a connection: `bufio.NewReader(c)`, then the loop. -/
def StatsDTCPListener.handleConn (conn : List Bytes) : Option (Handled F × ConnEnd) :=
  handleConnLoop fl ⟨[], none, conn⟩ .init

theorem handleConnLoop_eof {b : Reader} (hg : b.Good) (hs : b.stream = []) (h : Handled F) :
    handleConnLoop fl b h = some (h, .eof) := by
  obtain ⟨b', hr⟩ := readLine_eof b hg hs
  rw [handleConnLoop]
  split <;> rename_i heq <;> rw [hr] at heq <;> simp only [Prod.mk.injEq] at heq
  · obtain ⟨-, -, he, -⟩ := heq
    cases he
    rfl
  · simp at heq
  · simp at heq

theorem handleConnLoop_line {b b' : Reader} {line : Bytes} (hr : readLine b = (line, false, none, b'))
    (h : Handled F) : handleConnLoop fl b h = handleConnLoop fl b' (queueRead fl h line) := by
  rw [handleConnLoop]
  split <;> rename_i heq <;> rw [hr] at heq <;> simp only [Prod.mk.injEq] at heq
  · simp at heq
  · simp at heq
  · obtain ⟨rfl, -, -, rfl⟩ := heq
    rw [queueLine_eq]
    rfl

/-- The lines `ReadLine` returns from the pieces of a stream split at `\n`: every piece but the
    last loses a final `\r`, and an empty last piece is no line. -/
def tcpLines : List Bytes → List Bytes
  | [] => []
  | [l] => if l = [] then [] else [l]
  | l :: ls => trimCR l :: tcpLines ls

/-- A connection whose reads are not empty and whose lines are shorter than the buffer queues
    the lines `ReadLine` returns, and ends at `io.EOF`. -/
theorem handleConnLoop_lines :
    ∀ (ls : List Bytes) (b : Reader) (h : Handled F), ls ≠ [] →
      (∀ l ∈ ls, newline ∉ l ∧ l.length < defaultBufSize) → b.Good →
      b.stream = [newline].intercalate ls →
      handleConnLoop fl b h = some ((tcpLines ls).foldl (queueRead fl) h, .eof)
  | [], _, _, hne, _, _, _ => absurd rfl hne
  | [l], b, h, _, hl, hg, hs => by
    have hs : b.stream = l := by simpa [List.intercalate] using hs
    by_cases hnil : l = []
    · rw [handleConnLoop_eof fl hg (hs.trans hnil), tcpLines, if_pos hnil]
      rfl
    · obtain ⟨b', hr, hg', hs'⟩ := readLine_last (hl l (List.mem_singleton_self l)).1 hnil
        (hl l (List.mem_singleton_self l)).2 b hg hs
      rw [handleConnLoop_line fl hr, handleConnLoop_eof fl hg' hs', tcpLines, if_neg hnil]
      rfl
  | l :: l' :: ls, b, h, _, hl, hg, hs => by
    rw [Strings.intercalate_cons_cons] at hs
    obtain ⟨b', hr, hg', hs'⟩ := readLine_line (hl l (List.mem_cons_self _ _)).1
      (hl l (List.mem_cons_self _ _)).2 b hg hs
    rw [handleConnLoop_line fl hr, handleConnLoop_lines (l' :: ls) b' _ (List.cons_ne_nil _ _)
      (fun x hx => hl x (List.mem_cons_of_mem _ hx)) hg' hs']
    rfl

/-- A connection that delivers the bytes of a packet in reads that are not empty, whose lines
    are shorter than the buffer: `HandleConn` queues the lines `ReadLine` returns. -/
theorem handleConn_eq (packet : Bytes) (conn : List Bytes) (hconn : conn.flatten = packet)
    (hreads : ∀ c ∈ conn, c ≠ []) (hlines : ∀ l ∈ Strings.split packet newline,
      l.length < defaultBufSize) :
    StatsDTCPListener.handleConn fl conn =
      some ((tcpLines (Strings.split packet newline)).foldl (queueRead fl) .init, .eof) :=
  handleConnLoop_lines fl _ _ _ (Strings.split_ne_nil _ _)
    (fun l hl => ⟨Strings.not_mem_of_mem_split packet l hl, hlines l hl⟩)
    ⟨rfl, hreads, by simp⟩
    (by rw [Reader.stream, List.nil_append, hconn, Strings.split, List.intercalate_splitOn])

/-! ### A line longer than the buffer -/

theorem handleConnLoop_long {b : Reader} (hg : b.Good) {l rest : Bytes} (hl : newline ∉ l)
    (hlen : l.length = defaultBufSize) (hs : b.stream = l ++ rest) (h : Handled F) :
    handleConnLoop fl b h = some (h, .lineTooLong) := by
  obtain ⟨line, b', hr⟩ := readLine_long hl hlen b hg hs
  rw [handleConnLoop]
  split <;> rename_i heq <;> rw [hr] at heq <;> simp only [Prod.mk.injEq] at heq
  -- only the arm for `isPrefix` without an error is taken
  all_goals first | rfl | simp at heq

/-- Lines shorter than the buffer, each with its `\n`, then a buffer's worth of bytes without
    `\n`: the loop queues the lines as `ReadLine` returns them and stops at the long one. -/
theorem handleConnLoop_lineTooLong {long rest : Bytes} (hl : newline ∉ long)
    (hlen : long.length = defaultBufSize) :
    ∀ (ls : List Bytes) (b : Reader) (h : Handled F),
      (∀ l ∈ ls, newline ∉ l ∧ l.length < defaultBufSize) → b.Good →
      b.stream = (ls.map (· ++ [newline])).flatten ++ long ++ rest →
      handleConnLoop fl b h = some ((ls.map trimCR).foldl (queueRead fl) h, .lineTooLong)
  | [], b, h, _, hg, hs => handleConnLoop_long fl hg hl hlen (by simpa using hs) h
  | l :: ls, b, h, hls, hg, hs => by
    have hs₁ : b.stream = l ++ newline :: ((ls.map (· ++ [newline])).flatten ++ long ++ rest) := by
      simp [hs]
    obtain ⟨b', hr, hg', hs'⟩ := readLine_line (hls l (List.mem_cons_self _ _)).1
      (hls l (List.mem_cons_self _ _)).2 b hg hs₁
    rw [handleConnLoop_line fl hr, handleConnLoop_lineTooLong hl hlen ls b' _
      (fun x hx => hls x (List.mem_cons_of_mem _ hx)) hg' hs']
    rfl

/-- A connection whose bytes are lines shorter than the buffer and then a line of at least
    `defaultBufSize` bytes: `HandleConn` queues the short lines, counts `tcp_line_too_long`
    and closes the connection without reading further. -/
theorem handleConn_lineTooLong (ls : List Bytes) (long rest : Bytes) (conn : List Bytes)
    (hconn : conn.flatten = (ls.map (· ++ [newline])).flatten ++ long ++ rest)
    (hreads : ∀ c ∈ conn, c ≠ []) (hls : ∀ l ∈ ls, newline ∉ l ∧ l.length < defaultBufSize)
    (hl : newline ∉ long) (hlen : long.length = defaultBufSize) :
    StatsDTCPListener.handleConn fl conn =
      some ((ls.map trimCR).foldl (queueRead fl) .init, .lineTooLong) :=
  handleConnLoop_lineTooLong fl hl hlen ls _ _ hls ⟨rfl, hreads, by simp⟩
    (by rw [Reader.stream, List.nil_append, hconn])

/-- The line `foo:1|c`, then `4096` bytes `a`, in one read. -/
theorem handleConn_lineTooLong_fourKiB :
    [ascii "foo:1|c" ++ [newline] ++ List.replicate 4096 97].flatten =
        ([ascii "foo:1|c"].map (· ++ [newline])).flatten ++ List.replicate 4096 97 ++ [] ∧
      (∀ c ∈ [ascii "foo:1|c" ++ [newline] ++ List.replicate 4096 97], c ≠ []) ∧
      (∀ l ∈ [ascii "foo:1|c"], newline ∉ l ∧ l.length < defaultBufSize) ∧
      newline ∉ List.replicate 4096 (97 : UInt8) ∧
      (List.replicate 4096 (97 : UInt8)).length = defaultBufSize ∧
      StatsDTCPListener.handleConn binary64 [ascii "foo:1|c" ++ [newline] ++ List.replicate 4096 97] =
        some (([ascii "foo:1|c"].map trimCR).foldl (queueRead binary64) .init, .lineTooLong) :=
  have hconn : [ascii "foo:1|c" ++ [newline] ++ List.replicate 4096 97].flatten =
      ([ascii "foo:1|c"].map (· ++ [newline])).flatten ++ List.replicate 4096 97 ++ [] := by
    simp only [List.map_cons, List.map_nil, List.flatten_cons, List.flatten_nil, List.append_nil]
  have hreads : ∀ c ∈ [ascii "foo:1|c" ++ [newline] ++ List.replicate 4096 97], c ≠ [] :=
    fun c hc => List.mem_singleton.mp hc ▸ List.append_ne_nil_of_left_ne_nil (by decide) _
  have hl : newline ∉ List.replicate 4096 (97 : UInt8) :=
    fun h => absurd (List.mem_replicate.mp h).2 (by decide)
  have hlen : (List.replicate 4096 (97 : UInt8)).length = defaultBufSize := List.length_replicate _ _
  ⟨hconn, hreads, by decide, hl, hlen,
    handleConn_lineTooLong binary64 [ascii "foo:1|c"] (List.replicate 4096 97) []
      [ascii "foo:1|c" ++ [newline] ++ List.replicate 4096 97] hconn hreads (by decide) hl hlen⟩

/-! ### Lines counted and queued -/

/-- Every line counted in `lines_received` is queued once. -/
def Handled.Counted (h : Handled F) : Prop := h.linesReceived = h.queued.length

theorem queueRead_counted {h : Handled F} (hc : h.Counted) (line : Bytes) :
    (queueRead fl h line).Counted := by
  simp only [Handled.Counted, queueRead, List.length_append, List.length_singleton] at hc ⊢
  omega

/-- The loop of `HandleConn` returns on every connection, and keeps each counted line queued. -/
theorem handleConnLoop_counted (b : Reader) (h : Handled F) (hc : h.Counted) :
    ∃ r, handleConnLoop fl b h = some r ∧ r.1.Counted := by
  induction b, h using handleConnLoop.induct fl with
  -- a read error or a line too long: the loop stops with what it has
  | case1 b h _ _ _ _ hr => rw [handleConnLoop]; split <;> simp_all
  | case2 b h _ _ hr => rw [handleConnLoop]; split <;> simp_all
  | case3 b h line b' hr ih =>
    -- a line: queued, then the loop goes on
    rw [handleConnLoop_line fl hr]
    exact ih _ (queueRead_counted fl hc line)

/-- On every connection `HandleConn` returns, without a panic, having queued each line it
    counted in `lines_received` once; on every packet `HandlePacket` queues and counts each of its
    lines once. -/
theorem listeners_count_queued (conn : List Bytes) (packet : Bytes) :
    (∃ r, StatsDTCPListener.handleConn fl conn = some r ∧
      r.1.linesReceived = r.1.queued.length) ∧
    ∃ h, StatsDUDPListener.handlePacket fl packet = some h ∧
      h.linesReceived = (Strings.split packet newline).length ∧
      h.queued.length = (Strings.split packet newline).length := by
  refine ⟨handleConnLoop_counted fl _ _ rfl, _, handleDatagram_foldl fl packet, ?_⟩
  suffices ∀ (lines : List Bytes) (h : Handled F), (lines.foldl (queueRead fl) h).linesReceived =
      h.linesReceived + lines.length from by
    rw [this, foldl_queueRead_queued, List.length_append, List.length_map]
    exact ⟨Nat.zero_add _, Nat.zero_add _⟩
  intro lines
  induction lines with
  | nil => exact fun _ => rfl
  | cons l lines ih =>
    intro h
    rw [List.foldl_cons, ih, List.length_cons]
    simp only [queueRead]
    omega

/-! ### A connection and a packet of the same bytes -/

/-- A line before a `\n` of a text without `\r\n` keeps its end. -/
theorem trimCR_of_not_crlf {l s : Bytes} (h : l ++ [newline] <:+: s)
    (hs : ¬ [cr, newline] <:+: s) : trimCR l = l :=
  if_neg fun hl => hs ((by
    rw [← List.dropLast_append_getLast? cr hl, List.append_assoc]
    exact ⟨l.dropLast, [], by simp⟩ : [cr, newline] <:+: l ++ [newline]).trans h)

/-- Where no line before a `\n` ends with `\r`, the lines `ReadLine` returns give the events of
    all the pieces: an empty last piece gives none. -/
theorem tcpLines_events :
    ∀ ls : List Bytes, (∀ l ∈ ls.dropLast, trimCR l = l) →
      ((tcpLines ls).map fun l => (readLine fl l).1).flatten =
        (ls.map fun l => (readLine fl l).1).flatten
  | [], _ => rfl
  | [l], _ => by
    by_cases hl : l = []
    · simp only [tcpLines, if_pos hl, hl]
      rfl
    · simp only [tcpLines, if_neg hl]
  | l :: l' :: ls, h => by
    rw [List.dropLast_cons₂] at h
    rw [tcpLines, List.map_cons, List.flatten_cons, h l (List.mem_cons_self _ _),
      tcpLines_events (l' :: ls) fun x hx => h x (List.mem_cons_of_mem _ hx)]
    · rfl
    · exact List.cons_ne_nil _ _

/-- A TCP connection that delivers the bytes of a packet, in reads that are not empty, queues the
    events the UDP listener queues for the packet, when each line is shorter than the buffer and
    the packet has no `\r\n`. -/
theorem handleConn_events_eq (packet : Bytes) (conn : List Bytes) (hconn : conn.flatten = packet)
    (hreads : ∀ c ∈ conn, c ≠ [])
    (hlines : ∀ l ∈ Strings.split packet newline, l.length < defaultBufSize)
    (hcrlf : ¬ [cr, newline] <:+: packet) :
    (StatsDTCPListener.handleConn fl conn).map (fun r => r.1.queued.flatten) =
      (StatsDUDPListener.handlePacket fl packet).map fun h => h.queued.flatten := by
  rw [handleConn_eq fl packet conn hconn hreads hlines, StatsDUDPListener.handlePacket,
    handleDatagram_foldl]
  simp only [Option.map_some', foldl_queueRead_queued]
  exact congrArg some (tcpLines_events fl _ fun l hl =>
    trimCR_of_not_crlf (Strings.infix_of_mem_split_dropLast packet newline l hl) hcrlf)

/-- The packet `foo:1|c` then `bar:2|g`, delivered in two reads that cut `bar`. -/
theorem handleConn_events_eq_twoReads :
    [ascii "foo:1|c\nba", ascii "r:2|g"].flatten = ascii "foo:1|c\nbar:2|g" ∧
      (∀ c ∈ [ascii "foo:1|c\nba", ascii "r:2|g"], c ≠ []) ∧
      (∀ l ∈ Strings.split (ascii "foo:1|c\nbar:2|g") newline, l.length < defaultBufSize) ∧
      ¬ [cr, newline] <:+: ascii "foo:1|c\nbar:2|g" ∧
      (StatsDTCPListener.handleConn binary64 [ascii "foo:1|c\nba", ascii "r:2|g"]).map
          (fun r => r.1.queued.flatten) =
        (StatsDUDPListener.handlePacket binary64 (ascii "foo:1|c\nbar:2|g")).map
          fun h => h.queued.flatten :=
  ⟨by decide, by decide, by decide, by decide,
    handleConn_events_eq binary64 _ _ (by decide) (by decide) (by decide) (by decide)⟩

/-- The packet `foo:1|c\r\n`: the UDP listener reads the stat type `c\r` and queues no event;
    the TCP listener's `ReadLine` drops the `\r` and it queues a counter. -/
theorem crlf_events_differ :
    (StatsDUDPListener.handlePacket binary64 (ascii "foo:1|c\r\n")).map
        (fun h => h.queued.flatten) = some [] ∧
      (StatsDTCPListener.handleConn binary64 [ascii "foo:1|c\r\n"]).map
          (fun r => r.1.queued.flatten) =
        some [.counter (ascii "foo") Binary64.one ∅] := by
  refine ⟨rfl, ?_⟩
  rw [handleConn_eq binary64 _ _ rfl (by decide) (by decide)]
  rfl

end StatsdBridge.Listener
