import Mathlib.Data.List.AList
import StatsdBridge.Go.Float

/-! The events the line parser builds (package `event`), the label map they carry and the
    telemetry counters the parser increments.

    Go's `event.Event` is an interface; the parser only builds `*CounterEvent`, `*GaugeEvent`
    and `*TimerEvent`, the three constructors here. A label map is a Go `map[string]string`,
    here an `AList`: its keys are distinct by construction and `insert` overwrites. The
    counters a call increments are returned as the increments it made. -/

namespace StatsdBridge

open Go

/-- A `map[string]string` of labels. -/
abbrev Labels := AList (fun _ : Bytes => Bytes)

/-- The `reason` label values of `sample_errors_total`. -/
inductive Reason where
  | malformedLine
  | malformedComponent
  | malformedValue
  | invalidSampleFactor
  | mixedTaggingStyles
  | illegalEvent
  deriving DecidableEq, Repr

/-- The increments a call makes: `sampleErrors` lists the reason of each increment of
    `sample_errors_total`, in order. -/
structure Counters where
  sampleErrors : List Reason
  samplesReceived : Nat
  tagErrors : Nat
  tagsReceived : Nat
  deriving DecidableEq, Repr

namespace Counters

/-- No increments yet. -/
def zero : Counters := ⟨[], 0, 0, 0⟩

/-- `sampleErrors.WithLabelValues(r).Inc()` -/
def sampleError (c : Counters) (r : Reason) : Counters :=
  { c with sampleErrors := c.sampleErrors ++ [r] }

/-- `samplesReceived.Inc()` -/
def sample (c : Counters) : Counters := { c with samplesReceived := c.samplesReceived + 1 }

/-- `tagErrors.Inc()` -/
def tagError (c : Counters) : Counters := { c with tagErrors := c.tagErrors + 1 }

/-- `tagsReceived.Inc()` -/
def tags (c : Counters) : Counters := { c with tagsReceived := c.tagsReceived + 1 }

/-- The increments of one call, then another. -/
def add (c d : Counters) : Counters :=
  ⟨c.sampleErrors ++ d.sampleErrors, c.samplesReceived + d.samplesReceived,
    c.tagErrors + d.tagErrors, c.tagsReceived + d.tagsReceived⟩

theorem add_assoc (c d e : Counters) : (c.add d).add e = c.add (d.add e) := by
  simp only [add, List.append_assoc, Nat.add_assoc]

theorem zero_add (c : Counters) : zero.add c = c := by
  cases c
  simp only [add, zero, List.nil_append, Nat.zero_add]

theorem add_zero (c : Counters) : c.add zero = c := by
  cases c
  simp only [add, zero, List.append_nil, Nat.add_zero]

@[simp] theorem sampleError_sampleErrors (c : Counters) (r : Reason) :
    (c.sampleError r).sampleErrors = c.sampleErrors ++ [r] := rfl
@[simp] theorem sample_sampleErrors (c : Counters) : c.sample.sampleErrors = c.sampleErrors := rfl
@[simp] theorem tagError_sampleErrors (c : Counters) : c.tagError.sampleErrors = c.sampleErrors := rfl
@[simp] theorem tags_sampleErrors (c : Counters) : c.tags.sampleErrors = c.sampleErrors := rfl

end Counters

/-- `event.Event` as the parser builds it. -/
inductive Event (F : Type) where
  /-- `*CounterEvent{CMetricName, CValue, CLabels}` -/
  | counter (metricName : Bytes) (value : F) (labels : Labels)
  /-- `*GaugeEvent{GMetricName, GValue, GRelative, GLabels}` -/
  | gauge (metricName : Bytes) (value : F) (relative : Bool) (labels : Labels)
  /-- `*TimerEvent{TMetricName, TValue, TLabels}` -/
  | timer (metricName : Bytes) (value : F) (labels : Labels)
  deriving DecidableEq

namespace Event

variable {F : Type}

/-- `MetricName()` -/
def metricName : Event F → Bytes
  | counter n .. | gauge n .. | timer n .. => n

/-- `Labels()` -/
def labels : Event F → Labels
  | counter _ _ l | gauge _ _ _ l | timer _ _ l => l

/-- The event with its label map replaced. -/
def withLabels (l : Labels) : Event F → Event F
  | counter n v _ => counter n v l
  | gauge n v r _ => gauge n v r l
  | timer n v _ => timer n v l

@[simp] theorem metricName_withLabels (l : Labels) (e : Event F) :
    (e.withLabels l).metricName = e.metricName := by cases e <;> rfl

@[simp] theorem labels_withLabels (l : Labels) (e : Event F) : (e.withLabels l).labels = l := by
  cases e <;> rfl

/-- A timer event. -/
def isTimer : Event F → Bool
  | timer .. => true
  | _ => false

/-- Two events that can differ only where a sampling rate acts: in a counter's value. -/
def sameUpToRate : Event F → Event F → Prop
  | counter n _ l, counter n' _ l' => n = n' ∧ l = l'
  | e, e' => e = e'

instance [DecidableEq F] (e e' : Event F) : Decidable (e.sameUpToRate e') := by
  unfold sameUpToRate
  split <;> infer_instance

theorem sameUpToRate_refl (e : Event F) : e.sameUpToRate e := by
  cases e <;> simp [sameUpToRate]

theorem sameUpToRate_withLabels (l : Labels) {e e' : Event F} (h : e.sameUpToRate e') :
    (e.withLabels l).sameUpToRate (e'.withLabels l) := by
  cases e <;> cases e' <;> simp_all [sameUpToRate, withLabels]

@[simp] theorem isTimer_withLabels (l : Labels) (e : Event F) :
    (e.withLabels l).isTimer = e.isTimer := by cases e <;> rfl

end Event

/-- The errors of `buildEvent`: "no support for StatsD sets" and "bad stat type %s". -/
inductive BuildError where
  | noSets
  | badStatType (statType : Bytes)
  deriving DecidableEq

/-- The timer stat types `ms`, `h` and `d`. -/
def isTimerType (statType : Bytes) : Prop :=
  statType = ascii "ms" ∨ statType = ascii "h" ∨ statType = ascii "d"

instance (statType : Bytes) : Decidable (isTimerType statType) :=
  inferInstanceAs (Decidable (_ ∨ _))

/-- `buildEvent` -/
def buildEvent {F : Type} (statType metric : Bytes) (value : F) (relative : Bool)
    (labels : Labels) : Except BuildError (Event F) :=
  if statType = ascii "c" then .ok (.counter metric value labels)
  else if statType = ascii "g" then .ok (.gauge metric value relative labels)
  else if isTimerType statType then .ok (.timer metric value labels)
  else if statType = ascii "s" then .error .noSets
  else .error (.badStatType statType)

theorem buildEvent_metricName {F : Type} {statType metric : Bytes} {value : F} {relative : Bool}
    {labels : Labels} {e : Event F} (h : buildEvent statType metric value relative labels = .ok e) :
    e.metricName = metric := by
  unfold buildEvent at h
  split_ifs at h <;> cases h <;> rfl

theorem buildEvent_timer {F : Type} {statType : Bytes} (h : isTimerType statType) (metric : Bytes)
    (value : F) (relative : Bool) (labels : Labels) :
    buildEvent statType metric value relative labels = .ok (.timer metric value labels) := by
  have hc : statType ≠ ascii "c" := by rintro rfl; exact absurd h (by decide)
  have hg : statType ≠ ascii "g" := by rintro rfl; exact absurd h (by decide)
  rw [buildEvent, if_neg hc, if_neg hg, if_pos h]

end StatsdBridge
