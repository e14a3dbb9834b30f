import StatsdBridge.Line.Tags

/-! `LineToEvents` (package `line`): one StatsD line to the events it means.

    The line is cut at its first `:` into a name part and the samples. The name part gives the
    metric name and its Librato or InfluxDB tags. A sample text that contains `|#` is one
    DogStatsD sample; otherwise the text is split on `:` into several samples. Each sample is
    split on `|` into a value, a stat type and up to two modifiers (`@` rate, `#` tags), and
    becomes `multiplyEvents` events.

    The code's loops are written as folds of one iteration each: `modifierStep` for the
    modifiers of a sample, `sampleStep` for the samples of a line. Every event of a line holds
    the line's one `labels` map, so the events returned show that map as the loop left it. -/

namespace StatsdBridge.Line

open Go Go.Utf8

/-- The state of the sample loop: the events so far, the line's `labels` map, the counters. -/
structure LineState (F : Type) where
  events : List (Event F)
  labels : Labels
  counters : Counters

namespace LineState

variable {F : Type}

/-- `samplesReceived.Inc()` -/
def count (st : LineState F) : LineState F := { st with counters := st.counters.sample }

/-- `sampleErrors.WithLabelValues(r).Inc()` -/
def sampleError (st : LineState F) (r : Reason) : LineState F :=
  { st with counters := st.counters.sampleError r }

/-- `tagsReceived.Inc()` -/
def tags (st : LineState F) : LineState F := { st with counters := st.counters.tags }

@[simp] theorem count_events (st : LineState F) : st.count.events = st.events := rfl
@[simp] theorem count_labels (st : LineState F) : st.count.labels = st.labels := rfl
@[simp] theorem sampleError_events (st : LineState F) (r : Reason) :
    (st.sampleError r).events = st.events := rfl
@[simp] theorem sampleError_labels (st : LineState F) (r : Reason) :
    (st.sampleError r).labels = st.labels := rfl
@[simp] theorem tags_events (st : LineState F) : st.tags.events = st.events := rfl
@[simp] theorem tags_labels (st : LineState F) : st.tags.labels = st.labels := rfl
@[simp] theorem count_counters (st : LineState F) : st.count.counters = st.counters.sample := rfl
@[simp] theorem sampleError_counters (st : LineState F) (r : Reason) :
    (st.sampleError r).counters = st.counters.sampleError r := rfl
@[simp] theorem tags_counters (st : LineState F) : st.tags.counters = st.counters.tags := rfl

end LineState

/-- The variables of one sample's modifier loop. -/
structure SampleState (F : Type) where
  value : F
  samplingFactor : F
  multiplyEvents : Int
  line : LineState F

variable {F : Type} (fl : GoFloat F)

/-- The `@` case of the modifier switch, once `samplingFactor` is parsed from `rate`: a parse
    error counts `invalid_sample_factor`, a zero rate counts as one, and the rate divides a
    counter's value or sets a timer's `multiplyEvents` to `int(1 / samplingFactor)`. -/
def applyRate (statType rate : Bytes) (s : SampleState F) : SampleState F :=
  let (sf, err) := fl.parseFloat rate
  let line := if err.isSome then s.line.sampleError .invalidSampleFactor else s.line
  let sf := if fl.beq sf fl.zero then fl.one else sf
  let s := { s with samplingFactor := sf, line := line }
  if statType = ascii "g" then s
  else if statType = ascii "c" then { s with value := fl.div s.value sf }
  else if isTimerType statType then { s with multiplyEvents := fl.toInt (fl.div fl.one sf) }
  else s

/-- One iteration of the modifier loop: `@` sets the rate, `#` adds DogStatsD tags, anything
    else counts `invalid_sample_factor` (the debug log reads `components[2]`). -/
def modifierStep (statType : Bytes) (components : List Bytes) (s : SampleState F)
    (component : Bytes) : Option (SampleState F) := do
  let c ← index component 0
  if c = atSign then
    pure (applyRate fl statType (← sliceFrom component 1) s)
  else if c = hash then do
    let (labels, counters) ←
      parseDogStatsDTags (← sliceFrom component 1) (s.line.labels, s.line.counters)
    pure { s with line := { s.line with labels := labels, counters := counters } }
  else do
    let _ ← index components 2
    pure { s with line := s.line.sampleError .invalidSampleFactor }

/-- One iteration of the replication loop: append the event, or count `illegal_event`. -/
def emitStep (metric statType : Bytes) (value : F) (relative : Bool) (st : LineState F) :
    LineState F :=
  match buildEvent statType metric value relative st.labels with
  | .ok e => { st with events := st.events ++ [e] }
  | .error _ => st.sampleError .illegalEvent

/-- The end of a sample: `tagsReceived` when the line has labels, then the replication loop,
    which builds the event `multiplyEvents` times. -/
def emitEvents (metric statType : Bytes) (relative : Bool) (s : SampleState F) : LineState F :=
  let st := if 0 < s.line.labels.entries.length then s.line.tags else s.line
  (List.range s.multiplyEvents.toNat).foldl (fun st _ => emitStep metric statType s.value relative st) st

/-- One iteration of the sample loop: a sample needs two to four `|`-components, a value that
    parses, and non-empty modifiers; `continue` leaves the line state with the error counted. -/
def sampleStep (metric : Bytes) (st : LineState F) (sample : Bytes) : Option (LineState F) :=
  let st := st.count
  let components := Strings.split sample pipe
  if components.length < 2 ∨ 4 < components.length then
    some (st.sampleError .malformedComponent)
  else do
    let valueStr ← index components 0
    let statType ← index components 1
    let relative := Strings.index valueStr [plus] == 0 || Strings.index valueStr [minus] == 0
    match fl.parseFloat valueStr with
    | (_, some _) => some (st.sampleError .malformedValue)
    | (value, none) =>
      let s : SampleState F := ⟨value, fl.one, 1, st⟩
      if 3 ≤ components.length then do
        let mods ← sliceFrom components 2
        if mods.any (·.isEmpty) then some (st.sampleError .malformedComponent)
        else do
          let s ← mods.foldlM (modifierStep fl statType components) s
          some (emitEvents metric statType relative s)
      else some (emitEvents metric statType relative s)

/-- The sample loop and the return of `LineToEvents`. -/
def sampleLoop (metric : Bytes) (labels : Labels) (c : Counters) (samples : List Bytes) :
    Option (List (Event F) × Counters) := do
  let st ← samples.foldlM (sampleStep fl metric) ⟨[], labels, c⟩
  pure (st.events.map (·.withLabels st.labels), st.counters)

/-- `LineToEvents`: the events of a line and the counters it increments; `none` where the code
    would panic. -/
def lineToEvents (line : Bytes) : Option (List (Event F) × Counters) :=
  if line = [] then some ([], .zero) else
  let elements := Strings.splitN line colon 2
  if elements.length < 2 then some ([], Counters.zero.sampleError .malformedLine) else do
  let e0 ← index elements 0
  if e0.length = 0 ∨ validString line = false then
    some ([], Counters.zero.sampleError .malformedLine)
  else do
    let e1 ← index elements 1
    let (metric, labels, c) ← parseNameAndTags e0 (∅, .zero)
    if Strings.contains e1 (ascii "|#") then
      if 0 < labels.entries.length then some ([], c.sampleError .mixedTaggingStyles)
      else sampleLoop fl metric labels c (← sliceFrom elements 1)
    else sampleLoop fl metric labels c (Strings.split e1 colon)

end StatsdBridge.Line
