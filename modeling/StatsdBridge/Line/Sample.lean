import StatsdBridge.Line.Spec
import StatsdBridge.Go.Binary64

/-! What one sample does to a line. The modifier loop is described field by field: `rateValue`
    divides a counter's value by an `@` rate, `rateCopies` sets a timer's number of copies to
    `int(1 / r)`, `tagLabels` adds a `#` modifier's DogStatsD tags, and no modifier touches the
    events or removes a counted error. The replication loop appends `copies`.

    From these, `readSample_events` and `readSample_labels` say that what a sample adds to a line
    depends on nothing but the labels it finds there, and `sampleStep_drop` says when a sample
    can leave no trace: only a timer whose last rate asks for no copy. -/

namespace StatsdBridge.Line

open Go Go.Utf8

variable {F : Type} (fl : GoFloat F)

/-! ### The replication loop -/

/-- The events the replication loop appends: the event `buildEvent` gives, `n` times. -/
def copies (metric statType : Bytes) (relative : Bool) (value : F) (n : Nat) (labels : Labels) :
    List (Event F) :=
  match buildEvent statType metric value relative labels with
  | .ok e => List.replicate n e
  | .error _ => []

/-- The errors the replication loop counts: `illegal_event`, `n` times, when there is no event. -/
def copyErrors (metric statType : Bytes) (relative : Bool) (value : F) (n : Nat)
    (labels : Labels) : List Reason :=
  match buildEvent statType metric value relative labels with
  | .ok _ => []
  | .error _ => List.replicate n .illegalEvent

section Emit

variable (metric statType : Bytes) (value : F) (relative : Bool)

theorem foldl_emitStep {α : Type} (l : List α) (st : LineState F) :
    l.foldl (fun st _ => emitStep metric statType value relative st) st =
      { st with
        events := st.events ++ copies metric statType relative value l.length st.labels,
        counters := { st.counters with sampleErrors :=
          st.counters.sampleErrors ++ copyErrors metric statType relative value l.length st.labels } }
      := by
  induction l generalizing st with
  | nil => simp only [copies, copyErrors]; split <;> simp
  | cons x l ih =>
    rw [List.foldl_cons, ih]
    cases h : buildEvent statType metric value relative st.labels <;>
      simp [emitStep, copies, copyErrors, h, LineState.sampleError, Counters.sampleError,
        List.replicate_succ]

theorem emitEvents_events (s : SampleState F) :
    (emitEvents metric statType relative s).events =
      s.line.events ++ copies metric statType relative s.value s.multiplyEvents.toNat s.line.labels := by
  rw [emitEvents, foldl_emitStep, List.length_range]
  split_ifs <;> rfl

theorem emitEvents_labels (s : SampleState F) :
    (emitEvents metric statType relative s).labels = s.line.labels := by
  rw [emitEvents, foldl_emitStep]
  split_ifs <;> rfl

theorem emitEvents_samplesReceived (s : SampleState F) :
    (emitEvents metric statType relative s).counters.samplesReceived =
      s.line.counters.samplesReceived := by
  rw [emitEvents, foldl_emitStep]
  split_ifs <;> rfl

theorem emitEvents_sampleErrors (s : SampleState F) :
    (emitEvents metric statType relative s).counters.sampleErrors =
      s.line.counters.sampleErrors ++
        copyErrors metric statType relative s.value s.multiplyEvents.toNat s.line.labels := by
  rw [emitEvents, foldl_emitStep, List.length_range]
  split_ifs <;> rfl

end Emit

/-! ### The modifier loop, field by field -/

/-- The rate an `@` modifier sets: the value `ParseFloat` gives its text, zero read as one. -/
def samplingRate (rate : Bytes) : F :=
  if fl.beq (fl.parseFloat rate).1 fl.zero then fl.one else (fl.parseFloat rate).1

/-- What a modifier does to the value: an `@` rate divides a counter's value. -/
def rateValue (statType : Bytes) (value : F) : Bytes → F
  | c :: rest =>
    if c = atSign ∧ statType = ascii "c" then fl.div value (samplingRate fl rest) else value
  | [] => value

/-- What a modifier does to the number of copies: an `@` rate `r` sets a timer's to
    `int(1 / r)`. -/
def rateCopies (statType : Bytes) (n : Int) : Bytes → Int
  | c :: rest =>
    if c = atSign ∧ isTimerType statType then fl.toInt (fl.div fl.one (samplingRate fl rest))
    else n
  | [] => n

/-- What a modifier does to the labels: a `#` modifier adds its DogStatsD tags. -/
def tagLabels (labels : Labels) : Bytes → Labels
  | c :: rest => if c = hash then (tagReference colon dropHash rest (labels, .zero)).1 else labels
  | [] => labels

/-- The `@` case in closed form. -/
theorem applyRate_eq (statType rate : Bytes) (s : SampleState F) :
    applyRate fl statType rate s =
      { value := if statType = ascii "c" then fl.div s.value (samplingRate fl rate) else s.value,
        samplingFactor := samplingRate fl rate,
        multiplyEvents := if isTimerType statType then
          fl.toInt (fl.div fl.one (samplingRate fl rate)) else s.multiplyEvents,
        line := if (fl.parseFloat rate).2.isSome then s.line.sampleError .invalidSampleFactor
          else s.line } := by
  unfold applyRate samplingRate
  generalize fl.parseFloat rate = p
  obtain ⟨sf, err⟩ := p
  by_cases hg : statType = ascii "g"
  · subst hg
    simp [show ascii "g" ≠ ascii "c" by decide, show ¬ isTimerType (ascii "g") by decide]
  by_cases hc : statType = ascii "c"
  · subst hc
    simp [show ascii "c" ≠ ascii "g" by decide, show ¬ isTimerType (ascii "c") by decide]
  · simp only [hg, hc, if_false]
    split_ifs <;> rfl

section Modifier

variable (statType : Bytes)

theorem readModifier_events (s : SampleState F) (m : Bytes) :
    (readModifier fl statType s m).line.events = s.line.events := by
  rcases m with _ | ⟨c, rest⟩
  · rfl
  by_cases ha : c = atSign
  · simp only [readModifier, ha, if_true, applyRate_eq]
    split_ifs <;> rfl
  · simp only [readModifier, if_neg ha]
    split_ifs <;> rfl

theorem readModifier_value (s : SampleState F) (m : Bytes) :
    (readModifier fl statType s m).value = rateValue fl statType s.value m := by
  rcases m with _ | ⟨c, rest⟩
  · rfl
  by_cases ha : c = atSign
  · simp [readModifier, rateValue, ha, applyRate_eq]
  · simp only [readModifier, rateValue, if_neg ha, if_neg (fun h : _ ∧ _ => ha h.1)]
    split_ifs <;> rfl

theorem readModifier_multiplyEvents (s : SampleState F) (m : Bytes) :
    (readModifier fl statType s m).multiplyEvents = rateCopies fl statType s.multiplyEvents m := by
  rcases m with _ | ⟨c, rest⟩
  · rfl
  by_cases ha : c = atSign
  · simp [readModifier, rateCopies, ha, applyRate_eq]
  · simp only [readModifier, rateCopies, if_neg ha, if_neg (fun h : _ ∧ _ => ha h.1)]
    split_ifs <;> rfl

theorem readModifier_labels (s : SampleState F) (m : Bytes) :
    (readModifier fl statType s m).line.labels = tagLabels s.line.labels m := by
  rcases m with _ | ⟨c, rest⟩
  · rfl
  by_cases ha : c = atSign
  · subst ha
    simp only [readModifier, tagLabels, if_true, applyRate_eq, if_neg (by decide : atSign ≠ hash)]
    split_ifs <;> rfl
  by_cases hh : c = hash
  · simp only [readModifier, tagLabels, if_neg ha, if_pos hh]
    exact tagReference_fst _ _ _ rfl
  · simp only [readModifier, tagLabels, if_neg ha, if_neg hh]
    rfl

/-- A modifier never takes back a counted error. -/
theorem readModifier_sampleErrors (s : SampleState F) (m : Bytes) :
    ∃ r, (readModifier fl statType s m).line.counters.sampleErrors =
      s.line.counters.sampleErrors ++ r := by
  rcases m with _ | ⟨c, rest⟩
  · exact ⟨[], by simp [readModifier]⟩
  by_cases ha : c = atSign
  · simp only [readModifier, ha, if_true, applyRate_eq]
    split_ifs
    · exact ⟨_, rfl⟩
    · exact ⟨[], by simp⟩
  by_cases hh : c = hash
  · obtain ⟨k, hk⟩ := tagReference_snd colon dropHash rest (s.line.labels, s.line.counters)
    refine ⟨[], ?_⟩
    simp only [readModifier, if_neg ha, if_pos hh]
    rw [hk, List.append_nil]
  · exact ⟨_, by simp only [readModifier, if_neg ha, if_neg hh]; rfl⟩

/-- A modifier does not count a sample. -/
theorem readModifier_samplesReceived (s : SampleState F) (m : Bytes) :
    (readModifier fl statType s m).line.counters.samplesReceived =
      s.line.counters.samplesReceived := by
  rcases m with _ | ⟨c, rest⟩
  · rfl
  by_cases ha : c = atSign
  · simp only [readModifier, ha, if_true, applyRate_eq]
    split_ifs <;> rfl
  by_cases hh : c = hash
  · obtain ⟨k, hk⟩ := tagReference_snd colon dropHash rest (s.line.labels, s.line.counters)
    simp only [readModifier, if_neg ha, if_pos hh]
    rw [hk]
  · simp only [readModifier, if_neg ha, if_neg hh]
    rfl

variable (mods : List Bytes) (s : SampleState F)

theorem foldl_readModifier_events :
    (mods.foldl (readModifier fl statType) s).line.events = s.line.events :=
  (List.foldl_hom (fun s => s.line.events) _ (fun e _ => e) mods s
    fun s m => (readModifier_events fl statType s m).symm).symm.trans (List.foldl_fixed' (fun _ => rfl) _)

theorem foldl_readModifier_value :
    (mods.foldl (readModifier fl statType) s).value = mods.foldl (rateValue fl statType) s.value :=
  (List.foldl_hom (·.value) _ _ mods s fun s m => (readModifier_value fl statType s m).symm).symm

theorem foldl_readModifier_multiplyEvents :
    (mods.foldl (readModifier fl statType) s).multiplyEvents =
      mods.foldl (rateCopies fl statType) s.multiplyEvents :=
  (List.foldl_hom (·.multiplyEvents) _ _ mods s
    fun s m => (readModifier_multiplyEvents fl statType s m).symm).symm

theorem foldl_readModifier_labels :
    (mods.foldl (readModifier fl statType) s).line.labels = mods.foldl tagLabels s.line.labels :=
  (List.foldl_hom (·.line.labels) _ _ mods s
    fun s m => (readModifier_labels fl statType s m).symm).symm

theorem foldl_readModifier_samplesReceived :
    (mods.foldl (readModifier fl statType) s).line.counters.samplesReceived =
      s.line.counters.samplesReceived :=
  (List.foldl_hom (·.line.counters.samplesReceived) _ (fun k _ => k) mods s
    fun s m => (readModifier_samplesReceived fl statType s m).symm).symm.trans
    (List.foldl_fixed' (fun _ => rfl) _)

theorem foldl_readModifier_sampleErrors :
    ∃ r, (mods.foldl (readModifier fl statType) s).line.counters.sampleErrors =
      s.line.counters.sampleErrors ++ r := by
  induction mods generalizing s with
  | nil => exact ⟨[], by simp⟩
  | cons m mods ih =>
    obtain ⟨r₁, h₁⟩ := readModifier_sampleErrors fl statType s m
    obtain ⟨r₂, h₂⟩ := ih (readModifier fl statType s m)
    exact ⟨r₁ ++ r₂, by rw [List.foldl_cons, h₂, h₁, List.append_assoc]⟩

end Modifier

/-! ### Rates -/

/-- The text of an `@` modifier. -/
def rateText : Bytes → Option Bytes
  | c :: rest => if c = atSign then some rest else none
  | [] => none

/-- The text of a sample's last `@` modifier. -/
def lastRate (mods : List Bytes) : Option Bytes := (mods.filterMap rateText).getLast?

theorem rateCopies_of_not_timer {statType : Bytes} (h : ¬ isTimerType statType) (n : Int)
    (m : Bytes) : rateCopies fl statType n m = n := by
  cases m <;> simp [rateCopies, h]

/-- A timer is copied as often as its last `@` rate asks. -/
theorem foldl_rateCopies_timer {statType : Bytes} (h : isTimerType statType) (mods : List Bytes)
    (n : Int) : mods.foldl (rateCopies fl statType) n =
      ((lastRate mods).map fun r => fl.toInt (fl.div fl.one (samplingRate fl r))).getD n := by
  induction mods generalizing n with
  | nil => rfl
  | cons m mods ih =>
    rw [List.foldl_cons, ih]
    simp only [lastRate, List.filterMap_cons]
    cases m with
    | nil => rfl
    | cons c rest =>
      by_cases hc : c = atSign
      · simp only [rateCopies, rateText, hc, h, and_self, if_true, List.getLast?_cons]
        cases (mods.filterMap rateText).getLast? <;> rfl
      · have h₁ : rateCopies fl statType n (c :: rest) = n :=
          if_neg fun h : _ ∧ _ => hc h.1
        have h₂ : rateText (c :: rest) = none := if_neg hc
        rw [h₁]
        simp only [lastRate, List.filterMap_cons, h₂]

/-! ### One sample -/

section Sample

variable (metric : Bytes)

/-- A sample that reaches the replication loop. -/
theorem readSample_of_split {st : LineState F} {sample v t : Bytes} {mods : List Bytes}
    {value : F} (hs : Strings.split sample pipe = v :: t :: mods) (hlen : mods.length ≤ 2)
    (hv : fl.parseFloat v = (value, none)) (hm : [] ∉ mods) :
    readSample fl metric st sample =
      emitEvents metric t (isRelative v) (mods.foldl (readModifier fl t) ⟨value, fl.one, 1, st.count⟩) := by
  simp only [readSample, hs, if_neg (show ¬ 2 < mods.length by omega), hv, if_neg hm]

/-- Every other sample counts one error and adds nothing. -/
theorem readSample_of_not_split (st : LineState F) (sample : Bytes)
    (h : ¬ ∃ v t mods value, Strings.split sample pipe = v :: t :: mods ∧ mods.length ≤ 2 ∧
      fl.parseFloat v = (value, none) ∧ [] ∉ mods) :
    ∃ r, readSample fl metric st sample = st.count.sampleError r := by
  unfold readSample
  split
  · rename_i v t mods hs
    by_cases hlen : 2 < mods.length
    · exact ⟨_, if_pos hlen⟩
    rw [if_neg hlen]
    split
    · exact ⟨_, rfl⟩
    · rename_i value hv
      by_cases hm : [] ∈ mods
      · exact ⟨_, if_pos hm⟩
      · exact absurd ⟨v, t, mods, value, hs, by omega, hv, hm⟩ h
  · exact ⟨_, rfl⟩

/-- What a sample adds to the events does not depend on the events or counters before it. -/
theorem readSample_events (st : LineState F) (c : Counters) (sample : Bytes) :
    (readSample fl metric st sample).events =
      st.events ++ (readSample fl metric ⟨[], st.labels, c⟩ sample).events := by
  by_cases h : ∃ v t mods value, Strings.split sample pipe = v :: t :: mods ∧ mods.length ≤ 2 ∧
      fl.parseFloat v = (value, none) ∧ [] ∉ mods
  · obtain ⟨v, t, mods, value, hs, hlen, hv, hm⟩ := h
    simp only [readSample_of_split fl metric hs hlen hv hm, emitEvents_events,
      foldl_readModifier_events, foldl_readModifier_value, foldl_readModifier_multiplyEvents,
      foldl_readModifier_labels]
    rfl
  · obtain ⟨r, hr⟩ := readSample_of_not_split fl metric st _ h
    obtain ⟨r', hr'⟩ := readSample_of_not_split fl metric ⟨[], st.labels, c⟩ _ h
    simp [hr, hr']

/-- What a sample leaves in the labels does not depend on the events or counters before it. -/
theorem readSample_labels (st : LineState F) (c : Counters) (sample : Bytes) :
    (readSample fl metric st sample).labels =
      (readSample fl metric ⟨[], st.labels, c⟩ sample).labels := by
  by_cases h : ∃ v t mods value, Strings.split sample pipe = v :: t :: mods ∧ mods.length ≤ 2 ∧
      fl.parseFloat v = (value, none) ∧ [] ∉ mods
  · obtain ⟨v, t, mods, value, hs, hlen, hv, hm⟩ := h
    simp only [readSample_of_split fl metric hs hlen hv hm, emitEvents_labels,
      foldl_readModifier_labels]
    rfl
  · obtain ⟨r, hr⟩ := readSample_of_not_split fl metric st _ h
    obtain ⟨r', hr'⟩ := readSample_of_not_split fl metric ⟨[], st.labels, c⟩ _ h
    simp [hr, hr']

/-- Every sample is counted once in `samples_received`, whatever becomes of it. -/
theorem readSample_samplesReceived (st : LineState F) (sample : Bytes) :
    (readSample fl metric st sample).counters.samplesReceived = st.counters.samplesReceived + 1 := by
  by_cases h : ∃ v t mods value, Strings.split sample pipe = v :: t :: mods ∧ mods.length ≤ 2 ∧
      fl.parseFloat v = (value, none) ∧ [] ∉ mods
  · obtain ⟨v, t, mods, value, hs, hlen, hv, hm⟩ := h
    rw [readSample_of_split fl metric hs hlen hv hm, emitEvents_samplesReceived,
      foldl_readModifier_samplesReceived]
    rfl
  · obtain ⟨r, hr⟩ := readSample_of_not_split fl metric st _ h
    rw [hr]
    rfl

end Sample

/-- A sample the loop counts adds an event or counts an error, except a timer whose last `@`
    rate `r` makes `int(1 / r)` at most zero: that sample is dropped without a trace. -/
theorem sampleStep_drop (metric : Bytes) (st : LineState F) (sample : Bytes) :
    ∃ st', sampleStep fl metric st sample = some st' ∧
      (st'.events = st.events →
        st.counters.sampleErrors.length < st'.counters.sampleErrors.length ∨
        ∃ v t mods r, Strings.split sample pipe = v :: t :: mods ∧ isTimerType t ∧
          lastRate mods = some r ∧ fl.toInt (fl.div fl.one (samplingRate fl r)) ≤ 0) := by
  refine ⟨_, sampleStep_eq fl metric st sample, fun hev => ?_⟩
  by_cases h : ∃ v t mods value, Strings.split sample pipe = v :: t :: mods ∧ mods.length ≤ 2 ∧
      fl.parseFloat v = (value, none) ∧ [] ∉ mods
  · obtain ⟨v, t, mods, value, hs, hlen, hv, hm⟩ := h
    rw [readSample_of_split fl metric hs hlen hv hm] at hev ⊢
    rw [emitEvents_events, foldl_readModifier_events] at hev
    rw [emitEvents_sampleErrors]
    obtain ⟨r, hr⟩ := foldl_readModifier_sampleErrors fl t mods ⟨value, fl.one, 1, st.count⟩
    simp only [LineState.count_events, List.append_right_eq_self] at hev
    revert hev
    simp only [copies, copyErrors, hr, foldl_readModifier_multiplyEvents]
    split
    · -- an event was built: only a timer can be copied no times
      rename_i e he
      intro hn
      rw [List.replicate_eq_nil_iff] at hn
      by_cases ht : isTimerType t
      · rw [foldl_rateCopies_timer fl ht] at hn
        cases hl : lastRate mods with
        | none => simp [hl] at hn
        | some r => exact .inr ⟨v, t, mods, r, hs, ht, hl, by simp [hl] at hn; omega⟩
      · rw [List.foldl_fixed' (rateCopies_of_not_timer fl ht 1)] at hn
        simp at hn
    · -- no event: `illegal_event` is counted once for a sample that is not a timer
      rename_i err he
      intro _
      have ht : ¬ isTimerType t := fun ht => by simp [buildEvent_timer ht] at he
      rw [List.foldl_fixed' (rateCopies_of_not_timer fl ht 1)]
      left
      simp only [LineState.count_counters, Counters.sample_sampleErrors, List.length_append,
        Int.toNat_one, List.replicate_one, List.length_singleton]
      omega
  · obtain ⟨r, hr⟩ := readSample_of_not_split fl metric st _ h
    left
    simp [hr]

/-- A timer sampled at rate `2` is counted and dropped: `int(1 / 2)` is zero. -/
theorem timer_rate_two_dropped :
    lineToEvents binary64 (ascii "foo:1|ms|@2") = some ([], ⟨[], 1, 0, 0⟩) := by
  decide

end StatsdBridge.Line
