import StatsdBridge.Listener

/-! Modelled from the spec: package `event`'s `EventQueue` (§4.3), whose code is not among the
    repository's files. The listeners pass each line's events to `Queue`; the queue appends them
    to its buffer and sends every full batch of `N` events on its channel `C`, and each tick of
    the flush interval sends what is left with `FlushUnsafe`. `Queue` and the tick take the
    queue's lock, so the queue sees one sequence of these operations, in whatever order the
    listeners' tasks and the ticker reach the lock.

    That the buffer holds fewer than `N` events at rest is a field of `EventQueue`, so no
    operation can break it. Over any sequence of operations the events sent, then those still
    buffered, are the events queued, in order (`run_contents`), so a last tick has sent them all
    (`run_tick_sent`); `Queue` sends only batches of exactly `N` (`queueAll_batches`,
    `newEventQueue_batches`) and no batch is empty (`run_batchesBounded`); each listener's events
    reach the channel in the order it queued them, however the tasks interleave
    (`run_sublist`); and the events of a packet reach the channel as its lines give them
    (`handlePacket_delivered`). -/

namespace StatsdBridge

/-- Modelled from the spec: an `EventQueue` with flush threshold `N`: the buffer `q`, which
    holds fewer than `N` events at rest, and the batches sent on `C`, in order. -/
structure EventQueue (E : Type) (N : Nat) where
  q : List E
  sent : List (List E)
  q_lt : q.length < N

namespace EventQueue

variable {E : Type} {N : Nat}

/-- Modelled from the spec: `NewEventQueue(out, N, I, flushedCounter)`, nothing sent yet. -/
def newEventQueue (hN : 0 < N) : EventQueue E N := ⟨[], [], hN⟩

/-- Modelled from the spec: `Len()`, the number of events buffered. -/
def len (eq : EventQueue E N) : Nat := eq.q.length

@[simp] theorem newEventQueue_sent (hN : 0 < N) : (newEventQueue hN : EventQueue E N).sent = [] :=
  rfl

@[simp] theorem newEventQueue_len (hN : 0 < N) : (newEventQueue hN : EventQueue E N).len = 0 :=
  rfl

/-- The events sent, then those still buffered. -/
def contents (eq : EventQueue E N) : List E := eq.sent.flatten ++ eq.q

theorem threshold_pos (eq : EventQueue E N) : 0 < N :=
  Nat.lt_of_le_of_lt (Nat.zero_le _) eq.q_lt

/-- The batches `Queue` cuts from its buffer: the leading `N` events while there are `N`. -/
def cutBatches (N : Nat) (hN : 0 < N) (l : List E) : List (List E) × List E :=
  if _h : N ≤ l.length then
    ((l.take N) :: (cutBatches N hN (l.drop N)).1, (cutBatches N hN (l.drop N)).2)
  else ([], l)
termination_by l.length
decreasing_by simp only [List.length_drop]; omega

/-- `cutBatches` cuts the buffer into batches of `N`, as many as `N` goes into its length, and a
    rest of what is left over. -/
theorem cutBatches_spec (hN : 0 < N) (l : List E) :
    (cutBatches N hN l).1.flatten ++ (cutBatches N hN l).2 = l ∧
      (∀ b ∈ (cutBatches N hN l).1, b.length = N) ∧
      (cutBatches N hN l).1.length = l.length / N ∧
      (cutBatches N hN l).2.length = l.length % N := by
  obtain ⟨n, hn⟩ : ∃ n, l.length = n := ⟨_, rfl⟩
  induction n using Nat.strong_induction_on generalizing l with
  | _ n ih =>
  rw [cutBatches]
  split_ifs with h
  · obtain ⟨h₁, h₂, h₃, h₄⟩ := ih (l.drop N).length (by simp; omega) (l.drop N) rfl
    refine ⟨by rw [List.flatten_cons, List.append_assoc, h₁, List.take_append_drop], ?_, ?_, ?_⟩
    · rintro b (_ | ⟨_, hb⟩)
      · simpa using h
      · exact h₂ b hb
    · rw [List.length_cons, h₃, List.length_drop, Nat.div_eq_sub_div hN h]
    · rw [h₄, List.length_drop, Nat.mod_eq_sub_mod h]
  · exact ⟨rfl, nofun, (Nat.div_eq_of_lt (Nat.lt_of_not_le h)).symm,
      (Nat.mod_eq_of_lt (Nat.lt_of_not_le h)).symm⟩

/-- Modelled from the spec: `Queue(events)`: append the events, then while the buffer holds `N`
    or more, send its leading `N` as one batch; the rest stays buffered. -/
def queue (eq : EventQueue E N) (events : List E) : EventQueue E N :=
  ⟨(cutBatches N eq.threshold_pos (eq.q ++ events)).2,
    eq.sent ++ (cutBatches N eq.threshold_pos (eq.q ++ events)).1,
    (cutBatches_spec eq.threshold_pos _).2.2.2 ▸ Nat.mod_lt _ eq.threshold_pos⟩

/-- Modelled from the spec: `FlushUnsafe()`: send the buffer as one batch, unless it is empty. -/
def flushUnsafe (eq : EventQueue E N) : EventQueue E N :=
  if eq.q.isEmpty then eq else ⟨[], eq.sent ++ [eq.q], eq.threshold_pos⟩

theorem queue_contents (eq : EventQueue E N) (events : List E) :
    (eq.queue events).contents = eq.contents ++ events := by
  simp only [contents, queue, List.flatten_append, List.append_assoc,
    (cutBatches_spec eq.threshold_pos (eq.q ++ events)).1]

theorem flushUnsafe_contents (eq : EventQueue E N) : eq.flushUnsafe.contents = eq.contents := by
  unfold flushUnsafe
  split_ifs
  · rfl
  · simp [contents]

/-- A tick leaves nothing buffered: it sends the buffer, if it holds any event, as one batch. -/
theorem flushUnsafe_spec (eq : EventQueue E N) :
    eq.flushUnsafe.len = 0 ∧
      eq.flushUnsafe.sent = eq.sent ++ if eq.q.isEmpty then [] else [eq.q] := by
  unfold flushUnsafe
  split_ifs with h
  · exact ⟨List.isEmpty_iff_length_eq_zero.mp h, (List.append_nil _).symm⟩
  · exact ⟨rfl, rfl⟩

/-- `Queue` sends only batches of `N`, as many as `N` goes into what it then holds. -/
theorem queue_batches (eq : EventQueue E N) (events : List E) :
    ∃ bs, (eq.queue events).sent = eq.sent ++ bs ∧ (∀ b ∈ bs, b.length = N) ∧
      bs.length = (eq.len + events.length) / N ∧
      (eq.queue events).len = (eq.len + events.length) % N := by
  obtain ⟨-, h₂, h₃, h₄⟩ := cutBatches_spec eq.threshold_pos (eq.q ++ events)
  rw [List.length_append] at h₃ h₄
  exact ⟨_, rfl, h₂, h₃, h₄⟩

/-! ### Runs -/

/-- What reaches the queue's lock: a listener's `Queue(events)`, or a tick of the flush interval,
    which calls `FlushUnsafe`. -/
inductive Op (E : Type) where
  | queue (events : List E)
  | tick

/-- The events an operation brings. -/
def Op.events : Op E → List E
  | .queue events => events
  | .tick => []

/-- One operation under the lock. -/
def step (eq : EventQueue E N) : Op E → EventQueue E N
  | .queue events => eq.queue events
  | .tick => eq.flushUnsafe

/-- The operations in the order they took the lock. -/
def run (eq : EventQueue E N) (ops : List (Op E)) : EventQueue E N := ops.foldl step eq

@[simp] theorem step_queue (eq : EventQueue E N) (events : List E) :
    eq.step (.queue events) = eq.queue events := rfl

@[simp] theorem step_tick (eq : EventQueue E N) : eq.step .tick = eq.flushUnsafe := rfl

@[simp] theorem run_nil (eq : EventQueue E N) : eq.run [] = eq := rfl

@[simp] theorem run_cons (eq : EventQueue E N) (op : Op E) (ops : List (Op E)) :
    eq.run (op :: ops) = (eq.step op).run ops := rfl

theorem step_contents (eq : EventQueue E N) (op : Op E) :
    (eq.step op).contents = eq.contents ++ op.events := by
  cases op
  · exact queue_contents eq _
  · rw [step, flushUnsafe_contents, Op.events, List.append_nil]

/-- No event is lost, duplicated or reordered: what a run has sent and still holds is what it
    held before, then the events of its operations in the order they took the lock. -/
theorem run_contents (ops : List (Op E)) (eq : EventQueue E N) :
    (eq.run ops).contents = eq.contents ++ ops.flatMap Op.events := by
  induction ops generalizing eq with
  | nil => simp
  | cons op ops ih => rw [run_cons, ih, step_contents, List.flatMap_cons, List.append_assoc]

/-- What the supervisor's last `FlushUnsafe` gives: once a tick has run, every event queued
    before it has been sent, in order. -/
theorem run_tick_sent (ops : List (Op E)) (eq : EventQueue E N) :
    (eq.run (ops ++ [.tick])).sent.flatten = eq.contents ++ ops.flatMap Op.events := by
  have hq : (eq.run (ops ++ [.tick])).q = [] := by
    rw [← List.length_eq_zero, run, List.foldl_append, ← run]
    exact (flushUnsafe_spec _).1
  calc (eq.run (ops ++ [.tick])).sent.flatten
      = (eq.run (ops ++ [.tick])).contents := by rw [contents, hq, List.append_nil]
    _ = eq.contents ++ ops.flatMap Op.events := by
      rw [run_contents, List.flatMap_append, List.flatMap_singleton, Op.events, List.append_nil]

/-- Every batch sent on `C` holds between one and `N` events. -/
def BatchesBounded (eq : EventQueue E N) : Prop := ∀ b ∈ eq.sent, b ≠ [] ∧ b.length ≤ N

theorem step_batchesBounded {eq : EventQueue E N} (h : eq.BatchesBounded) (op : Op E) :
    (eq.step op).BatchesBounded := by
  intro b hb
  cases op with
  | queue events =>
    obtain ⟨bs, hs, hN, -⟩ := queue_batches eq events
    rw [step_queue, hs, List.mem_append] at hb
    rcases hb with hb | hb
    · exact h b hb
    · exact ⟨List.ne_nil_of_length_pos (hN b hb ▸ eq.threshold_pos), (hN b hb).le⟩
  | tick =>
    rw [step_tick, (flushUnsafe_spec eq).2, List.mem_append] at hb
    rcases hb with hb | hb
    · exact h b hb
    · split_ifs at hb with he
      · nomatch hb
      · rw [List.mem_singleton.mp hb]
        exact ⟨fun hq => he (List.isEmpty_iff.mpr hq), eq.q_lt.le⟩

/-- No batch sent by a new queue is empty or larger than `N`, whatever the operations. -/
theorem run_batchesBounded (hN : 0 < N) (ops : List (Op E)) :
    ((newEventQueue hN).run ops).BatchesBounded := by
  suffices ∀ eq : EventQueue E N, eq.BatchesBounded → (eq.run ops).BatchesBounded from
    this _ nofun
  induction ops with
  | nil => exact fun _ h => h
  | cons op ops ih => exact fun eq h => ih _ (step_batchesBounded h op)

theorem run_batchesBounded_one :
    0 < 1 ∧ ((newEventQueue (E := Unit) (N := 1) (by decide)).run [.tick]).BatchesBounded :=
  ⟨by decide, run_batchesBounded (by decide) [.tick]⟩

theorem flatMap_events_sublist {mine ops : List (Op E)} (h : mine.Sublist ops) :
    (mine.flatMap Op.events).Sublist (ops.flatMap Op.events) := by
  induction h with
  | slnil => exact .slnil
  | cons op _ ih => exact ih.trans (List.sublist_append_right _ _)
  | cons₂ op _ ih => exact ih.append_left _

/-- However listeners and ticks interleave, the events of the operations one listener made reach
    the queue in the order it made them. -/
theorem run_sublist {ops mine : List (Op E)} (h : mine.Sublist ops) (eq : EventQueue E N) :
    (mine.flatMap Op.events).Sublist (eq.run ops).contents := by
  rw [run_contents]
  exact (flatMap_events_sublist h).trans (List.sublist_append_right _ _)

/-- Queue calls alone, from any queue: batches of exactly `N`, as many as `N` goes into what was
    buffered and queued, and the remainder buffered. -/
theorem queueAll_batches (calls : List (List E)) (eq : EventQueue E N) :
    ∃ bs, (eq.run (calls.map Op.queue)).sent = eq.sent ++ bs ∧ (∀ b ∈ bs, b.length = N) ∧
      bs.length = (eq.len + calls.flatten.length) / N ∧
      (eq.run (calls.map Op.queue)).len = (eq.len + calls.flatten.length) % N := by
  induction calls generalizing eq with
  | nil => exact ⟨[], by simp, nofun, by simp [len, Nat.div_eq_of_lt eq.q_lt], by
      simp [len, Nat.mod_eq_of_lt eq.q_lt]⟩
  | cons events calls ih =>
    obtain ⟨bs₁, hs₁, hb₁, hn₁, hl₁⟩ := queue_batches eq events
    obtain ⟨bs₂, hs₂, hb₂, hn₂, hl₂⟩ := ih (eq.queue events)
    refine ⟨bs₁ ++ bs₂, ?_, ?_, ?_, ?_⟩
    · rw [List.map_cons, run_cons, step_queue, hs₂, hs₁, List.append_assoc]
    · exact fun b hb => (List.mem_append.mp hb).elim (hb₁ b) (hb₂ b)
    · -- the batches of the first call, then those of the rest
      rw [List.length_append, hn₁, hn₂, hl₁, List.flatten_cons, List.length_append,
        ← Nat.add_assoc]
      have key := Nat.div_add_mod (eq.len + events.length) N
      calc (eq.len + events.length) / N + ((eq.len + events.length) % N + calls.flatten.length) / N
          = (N * ((eq.len + events.length) / N) + ((eq.len + events.length) % N +
              calls.flatten.length)) / N := by
            rw [Nat.mul_add_div eq.threshold_pos]
        _ = (eq.len + events.length + calls.flatten.length) / N := by
            rw [← Nat.add_assoc, key]
    · rw [List.map_cons, run_cons, step_queue, hl₂, hl₁, List.flatten_cons,
        List.length_append, ← Nat.add_assoc, Nat.mod_add_mod]

/-- The spec's batches: `k * N + m` events, `m < N`, queued in one or more calls on a new queue,
    are sent as `k` batches of `N`, and `m` stay buffered. -/
theorem newEventQueue_batches (hN : 0 < N) (calls : List (List E)) {k m : Nat} (hm : m < N)
    (hkm : calls.flatten.length = k * N + m) :
    ((newEventQueue hN).run (calls.map Op.queue)).sent.length = k ∧
      (∀ b ∈ ((newEventQueue hN).run (calls.map Op.queue)).sent, b.length = N) ∧
      ((newEventQueue hN).run (calls.map Op.queue)).len = m := by
  obtain ⟨bs, hs, hb, hn, hl⟩ := queueAll_batches calls (newEventQueue (E := E) hN)
  rw [newEventQueue_sent, List.nil_append] at hs
  rw [newEventQueue_len, Nat.zero_add, hkm, Nat.add_comm] at hn hl
  refine ⟨?_, hs ▸ hb, ?_⟩
  · rw [hs, hn, Nat.add_mul_div_right _ _ hN, Nat.div_eq_of_lt hm, Nat.zero_add]
  · rw [hl, Nat.add_mul_mod_self_right, Nat.mod_eq_of_lt hm]

/-- The queue of the spec's test: `N = 5` and `13` events. -/
theorem newEventQueue_batches_thirteen :
    (0 < 5 ∧ 3 < 5 ∧ [List.replicate 13 ()].flatten.length = 2 * 5 + 3) ∧
      ((newEventQueue (E := Unit) (N := 5) (by decide)).run [Op.queue (List.replicate 13 ())]).sent.length = 2 ∧
      (∀ b ∈ ((newEventQueue (E := Unit) (N := 5) (by decide)).run
        [Op.queue (List.replicate 13 ())]).sent, b.length = 5) ∧
      ((newEventQueue (E := Unit) (N := 5) (by decide)).run [Op.queue (List.replicate 13 ())]).len = 3 :=
  ⟨⟨by decide, by decide, by decide⟩, newEventQueue_batches (by decide) [List.replicate 13 ()]
    (by decide) (by decide)⟩

/-! ### From the listeners to the queue -/

/-- The `Queue` calls among a run's operations. -/
def calls (ops : List (Op E)) : List (List E) :=
  ops.filterMap fun | .queue events => some events | .tick => none

theorem flatMap_events (ops : List (Op E)) : ops.flatMap Op.events = (calls ops).flatten := by
  induction ops with
  | nil => rfl
  | cons op ops ih => cases op <;> simp [calls, Op.events, ih]

open Listener Line Go in
/-- The events of a packet reach the exporter as its lines give them: a queue that receives the
    UDP listener's `Queue` calls for the packet, with ticks anywhere between them, has sent and
    holds, after what it had, the events `readLine` gives each line of the packet, in order. -/
theorem handlePacket_delivered {F : Type} (fl : GoFloat F) (packet : Bytes) {h : Handled F}
    (hp : StatsDUDPListener.handlePacket fl packet = some h) (eq : EventQueue (Event F) N)
    (ops : List (Op (Event F))) (hops : calls ops = h.queued) :
    (eq.run ops).contents =
      eq.contents ++ (Strings.split packet newline).flatMap fun l => (readLine fl l).1 := by
  rw [StatsDUDPListener.handlePacket, handleDatagram_foldl, Option.some.injEq] at hp
  rw [run_contents, flatMap_events, hops, ← hp, foldl_queueRead_queued]
  rfl

open Listener Line Go in
theorem handlePacket_delivered_tick :
    StatsDUDPListener.handlePacket binary64 (ascii "foo:1|c") =
        some ((Strings.split (ascii "foo:1|c") newline).foldl (queueRead binary64) .init) ∧
      calls [.tick, .queue (readLine binary64 (ascii "foo:1|c")).1] =
        ((Strings.split (ascii "foo:1|c") newline).foldl (queueRead binary64) .init).queued ∧
      ((newEventQueue (N := 2) (by decide)).run
          [.tick, .queue (readLine binary64 (ascii "foo:1|c")).1]).contents =
        (newEventQueue (N := 2) (by decide)).contents ++
          (Strings.split (ascii "foo:1|c") newline).flatMap fun l => (readLine binary64 l).1 :=
  ⟨handleDatagram_foldl binary64 _, rfl,
    handlePacket_delivered binary64 _ (handleDatagram_foldl binary64 _) _ _ rfl⟩

end EventQueue

end StatsdBridge
