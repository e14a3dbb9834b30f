import StatsdBridge.Line.Parse

/-! A StatsD line read by splitting. `readLine` cuts the line at its first `:`, `readSample`
    reads one sample from its `|`-components and `readModifier` one modifier from its first
    byte; the replication loop `emitEvents` is already total and is shared with the code.

    `lineToEvents_eq` proves that `LineToEvents` computes `readLine` on every line: none of its
    index or slice expressions is out of range, and its loops compute these folds. Every later
    result about lines is stated on `lineToEvents` and proved on `readLine`. -/

namespace StatsdBridge.Line

open Go Go.Utf8

variable {F : Type} (fl : GoFloat F)

/-- A value with a leading `+` or `-` is a relative gauge change. -/
def isRelative (valueStr : Bytes) : Bool :=
  valueStr.head? = some plus ∨ valueStr.head? = some minus

/-- One modifier read from its first byte. -/
def readModifier (statType : Bytes) (s : SampleState F) : Bytes → SampleState F
  | c :: rest =>
    if c = atSign then applyRate fl statType rest s
    else if c = hash then
      let st := tagReference colon dropHash rest (s.line.labels, s.line.counters)
      { s with line := { s.line with labels := st.1, counters := st.2 } }
    else { s with line := s.line.sampleError .invalidSampleFactor }
  | [] => s

/-- One sample read from its `|`-components: a value, a stat type and at most two modifiers,
    none of them empty. -/
def readSample (metric : Bytes) (st : LineState F) (sample : Bytes) : LineState F :=
  let st := st.count
  match Strings.split sample pipe with
  | valueStr :: statType :: mods =>
    if 2 < mods.length then st.sampleError .malformedComponent else
    match fl.parseFloat valueStr with
    | (_, some _) => st.sampleError .malformedValue
    | (value, none) =>
      if [] ∈ mods then st.sampleError .malformedComponent
      else emitEvents metric statType (isRelative valueStr)
        (mods.foldl (readModifier fl statType) ⟨value, fl.one, 1, st⟩)
  | _ => st.sampleError .malformedComponent

/-- The samples of a line read in order; the events show the labels as the last sample left
    them. -/
def readSamples (metric : Bytes) (labels : Labels) (c : Counters) (samples : List Bytes) :
    List (Event F) × Counters :=
  let st := samples.foldl (readSample fl metric) ⟨[], labels, c⟩
  (st.events.map (·.withLabels st.labels), st.counters)

/-- A line read by splitting: the name part before the first `:`, then one DogStatsD sample
    when the rest holds `|#`, and the `:`-separated samples otherwise. -/
def readLine (line : Bytes) : List (Event F) × Counters :=
  if line = [] then ([], .zero) else
  match line.span (· ≠ colon) with
  | (n, _ :: rest) =>
    if n = [] ∨ validString line = false then ([], Counters.zero.sampleError .malformedLine) else
    let nt := nameAndTags n (∅, .zero)
    if ascii "|#" <:+: rest then
      if 0 < nt.2.1.entries.length then ([], nt.2.2.sampleError .mixedTaggingStyles)
      else readSamples fl nt.1 nt.2.1 nt.2.2 [rest]
    else readSamples fl nt.1 nt.2.1 nt.2.2 (Strings.split rest colon)
  | (_, []) => ([], Counters.zero.sampleError .malformedLine)

/-! ### The code computes the reading -/

theorem foldlM_eq_some {α β : Type} {f : β → α → Option β} {g : β → α → β} {l : List α}
    (h : ∀ b, ∀ x ∈ l, f b x = some (g b x)) (b : β) : l.foldlM f b = some (l.foldl g b) := by
  induction l generalizing b with
  | nil => rfl
  | cons x l ih =>
    rw [List.foldlM_cons, h b x (List.mem_cons_self _ _), Option.bind_eq_bind, Option.some_bind,
      ih fun b y hy => h b y (List.mem_cons_of_mem _ hy)]
    rfl

theorem isRelative_eq (valueStr : Bytes) :
    (Strings.index valueStr [plus] == 0 || Strings.index valueStr [minus] == 0) =
      isRelative valueStr := by
  simp only [isRelative, ← Strings.index_single_eq_zero, Bool.decide_or]
  rfl

theorem modifierStep_eq {statType : Bytes} {components : List Bytes} (h : 2 < components.length)
    (s : SampleState F) {component : Bytes} (hc : component ≠ []) :
    modifierStep fl statType components s component =
      some (readModifier fl statType s component) := by
  obtain ⟨c, rest, rfl⟩ := List.exists_cons_of_ne_nil hc
  have hrest : sliceFrom (c :: rest) 1 = some rest := sliceFrom_eq (by simp)
  simp only [modifierStep, readModifier, index, List.getElem?_cons_zero, hrest,
    Option.bind_eq_bind, Option.some_bind, parseDogStatsDTags_eq, List.getElem?_eq_getElem h]
  split_ifs <;> rfl

theorem any_isEmpty (l : List Bytes) : (l.any fun c => c.isEmpty) = decide ([] ∈ l) := by
  rw [Bool.eq_iff_iff]
  simp [List.isEmpty_iff]

theorem sampleStep_eq (metric : Bytes) (st : LineState F) (sample : Bytes) :
    sampleStep fl metric st sample = some (readSample fl metric st sample) := by
  unfold sampleStep readSample
  generalize Strings.split sample pipe = cs
  match cs with
  | [] | [_] => rfl
  | v :: t :: mods =>
    simp only [List.length_cons, index, List.getElem?_cons_zero, List.getElem?_cons_succ,
      Option.bind_eq_bind, Option.some_bind, isRelative_eq]
    by_cases hlen : 2 < mods.length
    · rw [if_pos (by omega), if_pos hlen]
    rw [if_neg (by omega), if_neg hlen]
    generalize fl.parseFloat v = r
    rcases r with ⟨value, _ | _⟩
    · cases mods with
      | nil => simp
      | cons m ms =>
        dsimp only
        rw [if_pos (by simp), sliceFrom_eq (by simp), Option.some_bind, any_isEmpty]
        simp only [List.drop_succ_cons, List.drop_zero, decide_eq_true_eq]
        split_ifs with he
        · rfl
        · rw [foldlM_eq_some fun s c hc => modifierStep_eq fl (by simp) s
            (fun e => he (e ▸ hc))]
          rfl
    · rfl

theorem sampleLoop_eq (metric : Bytes) (labels : Labels) (c : Counters) (samples : List Bytes) :
    sampleLoop fl metric labels c samples = some (readSamples fl metric labels c samples) := by
  rw [sampleLoop, foldlM_eq_some fun st s _ => sampleStep_eq fl metric st s]
  rfl

/-- `LineToEvents` never panics, and it reads every line as `readLine` does. -/
theorem lineToEvents_eq (line : Bytes) : lineToEvents fl line = some (readLine fl line) := by
  unfold lineToEvents readLine
  split_ifs with hnil
  · rfl
  rcases Strings.span_cases (fun b => decide (b ≠ colon)) line with
    ⟨hall, hsp⟩ | ⟨n, c, rest, rfl, hn, hc, hsp⟩
  · have : colon ∉ line := fun h => by simpa using hall _ h
    rw [hsp, Strings.splitN_two_of_not_mem this]
    rfl
  · obtain rfl : c = colon := by simpa using hc
    have hn' : colon ∉ n := fun h => by simpa using hn _ h
    rw [hsp, Strings.splitN_two_append_cons hn']
    simp only [List.length_cons, index, List.getElem?_cons_zero, List.getElem?_cons_succ,
      Option.bind_eq_bind, Option.some_bind, List.length_eq_zero, parseNameAndTags_eq]
    rw [if_neg (by omega)]
    by_cases hbad : n = [] ∨ validString (n ++ colon :: rest) = false
    · rw [if_pos hbad, if_pos hbad]
    rw [if_neg hbad, if_neg hbad]
    have hcont := Strings.contains_iff rest (ascii "|#")
    by_cases hinf : ascii "|#" <:+: rest
    · rw [if_pos (hcont.mpr hinf), if_pos hinf]
      split_ifs
      · rfl
      · rw [sliceFrom_eq (by simp), Option.some_bind]
        exact sampleLoop_eq fl _ _ _ _
    · rw [if_neg (mt hcont.mp hinf), if_neg hinf]
      exact sampleLoop_eq fl _ _ _ _

end StatsdBridge.Line
