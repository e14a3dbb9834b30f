import StatsdBridge.Line.Sample

/-! The events of a whole line. `readLine_cut` reads a line at its first `:`, and
    `foldl_readSample_plain` reads a sample loop none of whose samples holds `|#`: the labels
    stay, and each sample adds the events it adds on its own.

    From these: every event is named by the line's text before its first `:`, `#` or `,`
    (`metricName_of_lineToEvents`); the labels of a line's events come from one tag dialect
    (`labels_one_dialect`); a line of several samples means its one-sample lines
    (`multiSample_eq_singles`); each sample read is counted once in `samples_received`
    (`samplesReceived_of_lineToEvents`); every label is a Prometheus label name
    (`labelNames_of_lineToEvents`); and every label value is valid UTF-8
    (`labelValues_of_lineToEvents`). -/

namespace StatsdBridge.Line

open Go Go.Utf8

variable {F : Type} (fl : GoFloat F)

theorem ascii_pipe_hash : ascii "|#" = [pipe, hash] := rfl

/-! ### Cutting a line at its first `:` -/

section Cut

variable {n : Bytes} (hn : colon ∉ n) (rest : Bytes)
include hn

theorem span_colon : (n ++ colon :: rest).span (· ≠ colon) = (n, colon :: rest) :=
  Strings.span_append_cons (fun b hb => by simpa using ne_of_mem_of_not_mem hb hn) (by simp)

theorem readLine_cut :
    readLine fl (n ++ colon :: rest) =
      if n = [] ∨ validString (n ++ colon :: rest) = false then
        ([], Counters.zero.sampleError .malformedLine)
      else if ascii "|#" <:+: rest then
        if 0 < (nameAndTags n (∅, .zero)).2.1.entries.length then
          ([], (nameAndTags n (∅, .zero)).2.2.sampleError .mixedTaggingStyles)
        else readSamples fl (nameAndTags n (∅, .zero)).1 (nameAndTags n (∅, .zero)).2.1
          (nameAndTags n (∅, .zero)).2.2 [rest]
      else readSamples fl (nameAndTags n (∅, .zero)).1 (nameAndTags n (∅, .zero)).2.1
        (nameAndTags n (∅, .zero)).2.2 (Strings.split rest colon) := by
  rw [readLine, if_neg (by simp), span_colon hn]

end Cut

/-- A line is cut at its first `:`, or has none. -/
theorem colon_cases (line : Bytes) :
    colon ∉ line ∨ ∃ n rest, line = n ++ colon :: rest ∧ colon ∉ n := by
  rcases Strings.span_cases (fun b => decide (b ≠ colon)) line with
    ⟨hall, -⟩ | ⟨n, c, rest, rfl, hn, hc, -⟩
  · exact .inl fun h => by simpa using hall _ h
  · obtain rfl : c = colon := by simpa using hc
    exact .inr ⟨n, rest, rfl, fun h => by simpa using hn _ h⟩

/-- A line without `:` has no event. -/
theorem readLine_of_not_mem {line : Bytes} (h : colon ∉ line) : (readLine fl line).1 = [] := by
  rcases Strings.span_cases (fun b => decide (b ≠ colon)) line with
    ⟨-, hsp⟩ | ⟨a, c, t, rfl, -, hc, -⟩
  · unfold readLine
    split_ifs
    · rfl
    · rw [hsp]
  · obtain rfl : c = colon := by simpa using hc
    exact absurd (List.mem_append_right a (List.mem_cons_self _ _)) h

/-! ### The sample loop -/

section Loop

variable (metric : Bytes)

theorem foldl_tagLabels_plain {mods : List Bytes} (h : ∀ m ∈ mods, m.head? ≠ some hash)
    (labels : Labels) : mods.foldl tagLabels labels = labels := by
  induction mods generalizing labels with
  | nil => rfl
  | cons m mods ih =>
    rw [List.foldl_cons, ih fun m' hm' => h m' (List.mem_cons_of_mem _ hm')]
    rcases m with _ | ⟨c, rest⟩
    · rfl
    · exact if_neg fun hc => h _ (List.mem_cons_self _ _) (by simp [hc])

/-- A sample without `|#` has no `#` modifier, so it leaves the labels alone. -/
theorem readSample_labels_plain (st : LineState F) {sample : Bytes}
    (h : ¬ ascii "|#" <:+: sample) : (readSample fl metric st sample).labels = st.labels := by
  by_cases hs : ∃ v t mods value, Strings.split sample pipe = v :: t :: mods ∧ mods.length ≤ 2 ∧
      fl.parseFloat v = (value, none) ∧ [] ∉ mods
  · obtain ⟨v, t, mods, value, hs, hlen, hv, hm⟩ := hs
    rw [readSample_of_split fl metric hs hlen hv hm, emitEvents_labels, foldl_readModifier_labels]
    refine foldl_tagLabels_plain (fun m hm' hh => h ?_) _
    obtain ⟨r, rfl⟩ : ∃ r, m = hash :: r := by
      rcases m with _ | ⟨c, r⟩ <;> simp_all
    have := Strings.infix_of_mem_split_tail sample pipe (hash :: r)
      (by rw [hs]; exact List.mem_cons_of_mem t hm')
    exact ascii_pipe_hash ▸ (List.prefix_append [pipe, hash] r).isInfix.trans this
  · obtain ⟨r, hr⟩ := readSample_of_not_split fl metric st _ hs
    rw [hr]
    rfl

/-- A loop over samples without `|#`: the labels stay, and each sample adds the events it adds
    on its own. -/
theorem foldl_readSample_plain (c : Counters) :
    ∀ (samples : List Bytes) (st : LineState F), (∀ s ∈ samples, ¬ ascii "|#" <:+: s) →
      (samples.foldl (readSample fl metric) st).labels = st.labels ∧
        (samples.foldl (readSample fl metric) st).events =
          st.events ++ samples.flatMap fun s => (readSample fl metric ⟨[], st.labels, c⟩ s).events
  | [], _, _ => by simp
  | s :: samples, st, h => by
    have hl := readSample_labels_plain fl metric st (h s (List.mem_cons_self _ _))
    obtain ⟨ih₁, ih₂⟩ := foldl_readSample_plain c samples (readSample fl metric st s)
      fun s' hs' => h s' (List.mem_cons_of_mem _ hs')
    refine ⟨ih₁.trans hl, ?_⟩
    rw [List.foldl_cons, ih₂, hl, readSample_events fl metric st c, List.flatMap_cons,
      List.append_assoc]

/-- Every event the loop adds is named `metric`. -/
theorem foldl_readSample_metricName :
    ∀ (samples : List Bytes) (st : LineState F), ∀ e ∈ (samples.foldl (readSample fl metric) st).events,
      e ∈ st.events ∨ e.metricName = metric
  | [], _, _, he => .inl he
  | s :: samples, st, e, he => by
    rcases foldl_readSample_metricName samples _ e he with he | he
    · by_cases hs : ∃ v t mods value, Strings.split s pipe = v :: t :: mods ∧
          mods.length ≤ 2 ∧ fl.parseFloat v = (value, none) ∧ [] ∉ mods
      · obtain ⟨v, t, mods, value, hs, hlen, hv, hm⟩ := hs
        rw [readSample_of_split fl metric hs hlen hv hm, emitEvents_events,
          foldl_readModifier_events, List.mem_append] at he
        refine he.imp id fun he => ?_
        simp only [copies] at he
        split at he
        · rename_i e' he'
          rw [List.eq_of_mem_replicate he]
          exact buildEvent_metricName he'
        · cases he
      · obtain ⟨r, hr⟩ := readSample_of_not_split fl metric st _ hs
        rw [hr] at he
        exact .inl he
    · exact .inr he

/-- A sample that adds an event went through all its modifiers. -/
theorem readSample_labels_of_events (st : LineState F) (sample : Bytes)
    (h : (readSample fl metric st sample).events ≠ st.events) :
    (readSample fl metric st sample).labels =
      ((Strings.split sample pipe).drop 2).foldl tagLabels st.labels := by
  by_cases hs : ∃ v t mods value, Strings.split sample pipe = v :: t :: mods ∧ mods.length ≤ 2 ∧
      fl.parseFloat v = (value, none) ∧ [] ∉ mods
  · obtain ⟨v, t, mods, value, hs, hlen, hv, hm⟩ := hs
    rw [readSample_of_split fl metric hs hlen hv hm, emitEvents_labels, foldl_readModifier_labels,
      hs]
    rfl
  · obtain ⟨r, hr⟩ := readSample_of_not_split fl metric st _ hs
    exact absurd (by rw [hr]; rfl) h

end Loop

/-! ### Metric names -/

theorem takeWhile_append_cons {p : UInt8 → Bool} {c : UInt8} (hc : p c = false) (a t : Bytes) :
    (a ++ c :: t).takeWhile p = a.takeWhile p := by
  induction a with
  | nil => simp [List.takeWhile_cons, hc]
  | cons x a ih => simp only [List.cons_append, List.takeWhile_cons, ih]

theorem takeWhile_congr_mem {p q : UInt8 → Bool} :
    ∀ {l : Bytes}, (∀ b ∈ l, p b = q b) → l.takeWhile p = l.takeWhile q
  | [], _ => rfl
  | x :: l, h => by
    simp only [List.takeWhile_cons, h x (List.mem_cons_self _ _),
      takeWhile_congr_mem fun b hb => h b (List.mem_cons_of_mem _ hb)]

/-- Text up to the first of some ASCII bytes is valid UTF-8 when the whole is. -/
theorem validString_takeWhile {q : UInt8 → Bool} (hq : ∀ b, q b = false → b < 0x80) {n : Bytes}
    (h : validString n = true) : validString (n.takeWhile q) = true := by
  rcases Strings.span_cases q n with ⟨hall, -⟩ | ⟨a, c, t, rfl, ha, hc, -⟩
  · rwa [List.takeWhile_eq_self_iff.mpr hall]
  · rw [takeWhile_append_cons hc, List.takeWhile_eq_self_iff.mpr ha]
    rw [validString_append _ _ (hq c hc), Bool.and_eq_true] at h
    exact h.1

/-- The events of a line with a `:` are named by its name part up to `#` or `,`. -/
theorem readLine_metricName {n : Bytes} (hn : colon ∉ n) (rest : Bytes) :
    ∀ e ∈ (readLine fl (n ++ colon :: rest)).1,
      e.metricName = (nameAndTags n (∅, .zero)).1 ∧ n ≠ [] ∧
        validString (n ++ colon :: rest) = true := by
  intro e he
  rw [readLine_cut fl hn] at he
  split_ifs at he with hbad
  all_goals first
    | exact absurd he (List.not_mem_nil e)
    | simp only [readSamples, List.mem_map] at he
  all_goals
    obtain ⟨e', he', rfl⟩ := he
    refine ⟨?_, fun h => hbad (.inl h), by simpa using fun h => hbad (.inr h)⟩
    rcases foldl_readSample_metricName fl _ _ _ e' he' with h | h
    · cases h
    · rw [Event.metricName_withLabels, h]

/-- Every event of a line is named by the line's text up to its first `:`, `#` or `,`: valid
    UTF-8 without those bytes, and empty only when the line starts with `#` or `,`. -/
theorem metricName_of_lineToEvents (line : Bytes) :
    ∃ E c, lineToEvents fl line = some (E, c) ∧ ∀ e ∈ E,
      e.metricName = line.takeWhile (fun b => !(b == colon || b == Go.hash || b == comma)) ∧
      validString e.metricName = true ∧ colon ∉ e.metricName ∧ Go.hash ∉ e.metricName ∧
      comma ∉ e.metricName ∧
      (e.metricName = [] → line.head? = some Go.hash ∨ line.head? = some comma) := by
  refine ⟨(readLine fl line).1, (readLine fl line).2, lineToEvents_eq fl line, fun e he => ?_⟩
  rcases colon_cases line with h | ⟨n, rest, rfl, hn⟩
  · rw [readLine_of_not_mem fl h] at he
    cases he
  obtain ⟨hname, hne, hvalid⟩ := readLine_metricName fl hn rest e he
  rw [nameAndTags_fst] at hname
  -- on the name part, stopping at `:`, `#` or `,` is stopping at `#` or `,`
  have hline : (n ++ colon :: rest).takeWhile (fun b => !(b == colon || b == Go.hash || b == comma)) =
      n.takeWhile fun b => !(b == Go.hash || b == comma) := by
    rw [takeWhile_append_cons (by simp)]
    exact takeWhile_congr_mem fun b hb => by
      simp only [beq_false_of_ne (ne_of_mem_of_not_mem hb hn), Bool.false_or]
  rw [hline, ← hname]
  refine ⟨rfl, ?_, fun h => hn (List.takeWhile_prefix _ |>.subset (hname ▸ h)),
    fun h => absurd (List.mem_takeWhile_imp (hname ▸ h)) (by decide),
    fun h => absurd (List.mem_takeWhile_imp (hname ▸ h)) (by decide), fun h => ?_⟩
  · rw [validString_append _ _ (by decide : colon < 0x80), Bool.and_eq_true] at hvalid
    rw [hname]
    refine validString_takeWhile (fun b hb => ?_) hvalid.1
    simp only [Bool.not_eq_false', Bool.or_eq_true, beq_iff_eq] at hb
    rcases hb with rfl | rfl <;> decide
  · obtain ⟨x, n', rfl⟩ := List.exists_cons_of_ne_nil hne
    rw [hname, List.takeWhile_cons] at h
    split at h
    · cases h
    · rename_i hx
      simpa [or_iff_not_imp_left] using hx

/-- The line `,:1|c` gives a counter whose name is empty. -/
theorem empty_metric_name_event :
    lineToEvents binary64 (ascii ",:1|c") =
      some ([.counter [] Binary64.one ∅], ⟨[], 1, 0, 0⟩) :=
  rfl

/-! ### Tag dialects -/

/-- The labels of a line's events come from one tag dialect: the name part's tags when the text
    after the first `:` has no `|#`, and otherwise the `#` modifiers of that one DogStatsD sample,
    the name part then having no tag. -/
theorem labels_one_dialect {n : Bytes} (hn : colon ∉ n) (rest : Bytes) :
    ∃ E c, lineToEvents fl (n ++ colon :: rest) = some (E, c) ∧ ∀ e ∈ E,
      (¬ ascii "|#" <:+: rest → e.labels = (nameAndTags n (∅, .zero)).2.1) ∧
      (ascii "|#" <:+: rest → (nameAndTags n (∅, .zero)).2.1 = ∅ ∧
        e.labels = ((Strings.split rest pipe).drop 2).foldl tagLabels ∅) := by
  refine ⟨(readLine fl _).1, (readLine fl _).2, lineToEvents_eq fl _, fun e he => ?_⟩
  rw [readLine_cut fl hn] at he
  split_ifs at he with hbad hdog hmixed
  · cases he
  · cases he
  · -- one DogStatsD sample, and no tag in the name part
    have hempty : (nameAndTags n (∅, .zero)).2.1 = ∅ :=
      AList.ext (List.eq_nil_of_length_eq_zero (by omega))
    simp only [readSamples, List.foldl_cons, List.foldl_nil, List.mem_map] at he
    obtain ⟨e', he', rfl⟩ := he
    refine ⟨fun h => absurd hdog h, fun _ => ⟨hempty, ?_⟩⟩
    rw [Event.labels_withLabels, readSample_labels_of_events fl _ _ _
      fun h => by rw [h] at he'; cases he']
    exact congrArg (fun L => List.foldl tagLabels L _) hempty
  · -- samples without `|#` leave the name part's labels alone
    simp only [readSamples, List.mem_map] at he
    obtain ⟨e', -, rfl⟩ := he
    refine ⟨fun _ => ?_, fun h => absurd h hdog⟩
    rw [Event.labels_withLabels]
    exact (foldl_readSample_plain fl _ .zero _ _ fun s hs h =>
      hdog ((h.trans (Strings.infix_of_mem_split hs)))).1

/-- The DogStatsD line `foo:1|c|#a:b`. -/
theorem labels_one_dialect_dogStatsD :
    colon ∉ ascii "foo" ∧
      ∃ E c, lineToEvents binary64 (ascii "foo" ++ colon :: ascii "1|c|#a:b") = some (E, c) ∧
        ∀ e ∈ E,
          (¬ ascii "|#" <:+: ascii "1|c|#a:b" →
            e.labels = (nameAndTags (ascii "foo") (∅, .zero)).2.1) ∧
          (ascii "|#" <:+: ascii "1|c|#a:b" → (nameAndTags (ascii "foo") (∅, .zero)).2.1 = ∅ ∧
            e.labels = ((Strings.split (ascii "1|c|#a:b") pipe).drop 2).foldl tagLabels ∅) :=
  ⟨by decide, labels_one_dialect binary64 (by decide) _⟩

/-! ### Several samples on one line -/

theorem mapM_some {α β : Type} (f : α → β) :
    ∀ l : List α, l.mapM (fun a => some (f a)) = some (l.map f)
  | [] => rfl
  | a :: l => by rw [List.mapM_cons, mapM_some f l]; rfl

/-- A line `n:s₁:…:sₖ` of samples without `:` or `|#` gives the events of the lines `n:sᵢ`, in
    order: the samples share the name's labels and nothing else. -/
theorem multiSample_eq_singles {n : Bytes} (hn : colon ∉ n) {ss : List Bytes} (hss : ss ≠ [])
    (hs : ∀ s ∈ ss, colon ∉ s ∧ ¬ ascii "|#" <:+: s)
    (hv : validString (n ++ colon :: [colon].intercalate ss) = true) :
    (lineToEvents fl (n ++ colon :: [colon].intercalate ss)).map Prod.fst =
      (ss.mapM fun s => (lineToEvents fl (n ++ colon :: s)).map Prod.fst).map List.flatten := by
  simp only [lineToEvents_eq, Option.map_some', mapM_some, Option.some.injEq]
  by_cases hbad : n = []
  · -- every one of these lines is malformed
    subst hbad
    have hmal : ∀ s, (readLine fl ([] ++ colon :: s)).1 = [] := fun s => by
      rw [readLine_cut fl hn, if_pos (.inl rfl)]
    simp only [hmal, List.map_const', List.flatten_replicate_nil]
  have hpipe : ∀ s ∈ ss, ¬ [pipe, hash] <:+: s := fun s h => ascii_pipe_hash ▸ (hs s h).2
  have hdog : ¬ ascii "|#" <:+: [colon].intercalate ss := by
    rw [ascii_pipe_hash, Strings.pair_infix_intercalate (by decide) (by decide)]
    exact fun ⟨s, h, hi⟩ => hpipe s h hi
  -- each line `n:sᵢ` is valid, its one sample read with the name's labels
  have hasc : colon < 0x80 := by decide
  have hparts := hv
  rw [validString_append _ _ hasc, validString_ascii_cons _ hasc, validString_intercalate hasc,
    Bool.and_eq_true, List.all_eq_true] at hparts
  have hsingle : ∀ s ∈ ss, (readLine fl (n ++ colon :: s)).1 =
      ((readSample fl (nameAndTags n (∅, .zero)).1
        ⟨[], (nameAndTags n (∅, .zero)).2.1, (nameAndTags n (∅, .zero)).2.2⟩ s).events).map
          (·.withLabels (nameAndTags n (∅, .zero)).2.1) := by
    intro s h
    rw [readLine_cut fl hn, if_neg (by
      rw [validString_append _ _ hasc, validString_ascii_cons _ hasc, hparts.1, hparts.2 s h]
      simp [hbad]), if_neg (hs s h).2, Strings.split_of_not_mem (hs s h).1]
    simp only [readSamples, List.foldl_cons, List.foldl_nil,
      readSample_labels_plain fl _ _ (hs s h).2]
  rw [List.map_congr_left hsingle, readLine_cut fl hn, if_neg (by rw [hv]; simp [hbad]),
    if_neg hdog, Strings.split, List.splitOn_intercalate ss colon (fun s h => (hs s h).1) hss]
  obtain ⟨hl, he⟩ := foldl_readSample_plain fl (nameAndTags n (∅, .zero)).1
    (nameAndTags n (∅, .zero)).2.2 ss
    ⟨[], (nameAndTags n (∅, .zero)).2.1, (nameAndTags n (∅, .zero)).2.2⟩ fun s h => (hs s h).2
  simp only [readSamples]
  rw [hl, he, List.nil_append, List.map_flatMap]
  rfl

/-- The line `foo:1|c:2|g` and the lines `foo:1|c` and `foo:2|g`. -/
theorem multiSample_eq_singles_two :
    colon ∉ ascii "foo" ∧ [ascii "1|c", ascii "2|g"] ≠ [] ∧
      (∀ s ∈ [ascii "1|c", ascii "2|g"], colon ∉ s ∧ ¬ ascii "|#" <:+: s) ∧
      validString (ascii "foo" ++ colon :: [colon].intercalate [ascii "1|c", ascii "2|g"]) = true ∧
      (lineToEvents binary64
          (ascii "foo" ++ colon :: [colon].intercalate [ascii "1|c", ascii "2|g"])).map Prod.fst =
        ([ascii "1|c", ascii "2|g"].mapM fun s =>
          (lineToEvents binary64 (ascii "foo" ++ colon :: s)).map Prod.fst).map List.flatten :=
  ⟨by decide, by decide, by decide, by decide,
    multiSample_eq_singles binary64 (by decide) (by decide) (by decide) (by decide)⟩

/-! ### Samples counted -/

theorem foldl_readSample_samplesReceived (metric : Bytes) :
    ∀ (samples : List Bytes) (st : LineState F),
      (samples.foldl (readSample fl metric) st).counters.samplesReceived =
        st.counters.samplesReceived + samples.length
  | [], _ => rfl
  | s :: samples, st => by
    rw [List.foldl_cons, foldl_readSample_samplesReceived metric samples,
      readSample_samplesReceived, List.length_cons]
    omega

/-- `LineToEvents` counts in `samples_received` each sample of a line it reads, the
    `:`-separated samples or the one DogStatsD sample, and none of a line it rejects as
    malformed or as mixing tagging styles. -/
theorem samplesReceived_of_lineToEvents {n : Bytes} (hn : colon ∉ n) (rest : Bytes) :
    (lineToEvents fl (n ++ colon :: rest)).map (·.2.samplesReceived) =
      some (if n = [] ∨ validString (n ++ colon :: rest) = false then 0
        else if ascii "|#" <:+: rest then
          if (nameAndTags n (∅, .zero)).2.1.entries = [] then 1 else 0
        else (Strings.split rest colon).length) := by
  -- the name part counts no sample
  obtain ⟨k, hk⟩ := nameAndTags_snd n (∅, .zero)
  rw [lineToEvents_eq, Option.map_some', readLine_cut fl hn]
  split_ifs with hbad hdog hmixed hnil hnil
  · rfl
  · simp [hnil] at hmixed
  · -- mixed tagging styles: the line is dropped before its samples
    rw [Counters.sampleError, hk]
    rfl
  · simp only [readSamples, foldl_readSample_samplesReceived, hk]
    rfl
  · exact absurd (List.length_pos.mpr hnil) hmixed
  · simp only [readSamples, foldl_readSample_samplesReceived, hk]
    exact congrArg some (Nat.zero_add _)

/-- The line `foo:1|c:2|g` counts its two samples. -/
theorem samplesReceived_of_lineToEvents_two :
    colon ∉ ascii "foo" ∧
      (lineToEvents binary64 (ascii "foo" ++ colon :: ascii "1|c:2|g")).map (·.2.samplesReceived) =
        some (if ascii "foo" = [] ∨ validString (ascii "foo" ++ colon :: ascii "1|c:2|g") = false then 0
          else if ascii "|#" <:+: ascii "1|c:2|g" then
            if (nameAndTags (ascii "foo") (∅, .zero)).2.1.entries = [] then 1 else 0
          else (Strings.split (ascii "1|c:2|g") colon).length) :=
  ⟨by decide, samplesReceived_of_lineToEvents binary64 (by decide) _⟩

/-! ### Labels of a line's events -/

/-- An event of a line `n:rest` carries the labels its samples leave from the name part's: the
    samples are the text after the `:` or its `:`-separated pieces, and the line is valid. -/
theorem labels_of_mem_readLine {n : Bytes} (hn : colon ∉ n) (rest : Bytes) {e : Event F}
    (he : e ∈ (readLine fl (n ++ colon :: rest)).1) :
    validString (n ++ colon :: rest) = true ∧
      ∃ samples, (samples = [rest] ∨ samples = Strings.split rest colon) ∧
        e.labels = (samples.foldl (readSample fl (nameAndTags n (∅, .zero)).1)
          ⟨[], (nameAndTags n (∅, .zero)).2.1, (nameAndTags n (∅, .zero)).2.2⟩).labels := by
  rw [readLine_cut fl hn] at he
  split_ifs at he with hbad
  all_goals first
    | exact absurd he (List.not_mem_nil e)
    | simp only [readSamples, List.mem_map] at he
  all_goals
    obtain ⟨e', -, rfl⟩ := he
    refine ⟨by simpa using fun h => hbad (.inr h), _, ?_, Event.labels_withLabels _ _⟩
  exacts [.inl rfl, .inr rfl]

/-! ### Label names -/

theorem foldl_tagLabels_labelNames :
    ∀ (mods : List Bytes) {labels : Labels}, LabelNames labels →
      LabelNames (mods.foldl tagLabels labels)
  | [], _, h => h
  | [] :: mods, _, h => foldl_tagLabels_labelNames mods h
  | (c :: rest) :: mods, labels, h => by
    refine foldl_tagLabels_labelNames mods ?_
    show LabelNames (if c = Go.hash then _ else labels)
    split_ifs
    · exact tagReference_labelNames _ _ _ h
    · exact h

/-- A sample leaves label names in the labels when it finds them there. -/
theorem foldl_readSample_labelNames (metric : Bytes) :
    ∀ (samples : List Bytes) {st : LineState F}, LabelNames st.labels →
      LabelNames (samples.foldl (readSample fl metric) st).labels
  | [], _, h => h
  | s :: samples, st, h => by
    refine foldl_readSample_labelNames metric samples ?_
    by_cases hs : ∃ v t mods value, Strings.split s pipe = v :: t :: mods ∧ mods.length ≤ 2 ∧
        fl.parseFloat v = (value, none) ∧ [] ∉ mods
    · obtain ⟨v, t, mods, value, hs, hlen, hv, hm⟩ := hs
      rw [readSample_of_split fl metric hs hlen hv hm, emitEvents_labels, foldl_readModifier_labels]
      exact foldl_tagLabels_labelNames mods h
    · obtain ⟨r, hr⟩ := readSample_of_not_split fl metric st _ hs
      rw [hr]
      exact h

/-- Every label of every event `LineToEvents` returns is named by a Prometheus label name: tag
    keys reach the labels only through `EscapeMetricName`, and only when they are not empty. -/
theorem labelNames_of_lineToEvents (line : Bytes) :
    ∃ E c, lineToEvents fl line = some (E, c) ∧ ∀ e ∈ E, LabelNames e.labels := by
  refine ⟨(readLine fl line).1, (readLine fl line).2, lineToEvents_eq fl line, fun e he => ?_⟩
  rcases colon_cases line with h | ⟨n, rest, rfl, hn⟩
  · rw [readLine_of_not_mem fl h] at he
    cases he
  obtain ⟨-, _, -, hl⟩ := labels_of_mem_readLine fl hn rest he
  rw [hl]
  exact foldl_readSample_labelNames fl _ _ (nameAndTags_labelNames n)

/-! ### Label values -/

theorem foldl_tagLabels_labelValues :
    ∀ (mods : List Bytes), (∀ m ∈ mods, validString m = true) → ∀ {labels : Labels},
      LabelValues labels → LabelValues (mods.foldl tagLabels labels)
  | [], _, _, h => h
  | [] :: mods, hm, _, h => foldl_tagLabels_labelValues mods (fun m hm' => hm m (.tail _ hm')) h
  | (c :: rest) :: mods, hm, labels, h => by
    refine foldl_tagLabels_labelValues mods (fun m hm' => hm m (.tail _ hm')) ?_
    show LabelValues (if c = Go.hash then _ else labels)
    split_ifs with hc
    · subst hc
      have hrest := hm _ (.head _)
      rw [validString_ascii_cons _ (by decide)] at hrest
      exact tagReference_labelValues (by decide) (fun _ => validString_dropHash) hrest h
    · exact h

/-- A valid sample leaves valid values in the labels when it finds them there. -/
theorem foldl_readSample_labelValues (metric : Bytes) :
    ∀ (samples : List Bytes), (∀ s ∈ samples, validString s = true) → ∀ {st : LineState F},
      LabelValues st.labels → LabelValues (samples.foldl (readSample fl metric) st).labels
  | [], _, _, h => h
  | s :: samples, hs, st, h => by
    refine foldl_readSample_labelValues metric samples (fun x hx => hs x (.tail _ hx)) ?_
    by_cases hsplit : ∃ v t mods value, Strings.split s pipe = v :: t :: mods ∧
        mods.length ≤ 2 ∧ fl.parseFloat v = (value, none) ∧ [] ∉ mods
    · obtain ⟨v, t, mods, value, hsp, hlen, hv, hm⟩ := hsplit
      rw [readSample_of_split fl metric hsp hlen hv hm, emitEvents_labels, foldl_readModifier_labels]
      refine foldl_tagLabels_labelValues mods (fun m hm' => ?_) h
      have hmem : m ∈ Strings.split s pipe := by rw [hsp]; exact .tail _ (.tail _ hm')
      exact validString_of_mem_split (c := pipe) (by decide) (hs s (.head _)) hmem
    · obtain ⟨r, hr⟩ := readSample_of_not_split fl metric st _ hsplit
      rw [hr]
      exact h

/-- Every label value of every event `LineToEvents` returns is valid UTF-8: the line is checked
    before it is read, and a value is a piece of it cut at ASCII bytes. -/
theorem labelValues_of_lineToEvents (line : Bytes) :
    ∃ E c, lineToEvents fl line = some (E, c) ∧ ∀ e ∈ E, LabelValues e.labels := by
  refine ⟨(readLine fl line).1, (readLine fl line).2, lineToEvents_eq fl line, fun e he => ?_⟩
  rcases colon_cases line with h | ⟨n, rest, rfl, hn⟩
  · rw [readLine_of_not_mem fl h] at he
    cases he
  obtain ⟨hv, samples, hs, hl⟩ := labels_of_mem_readLine fl hn rest he
  -- the name part and the text after the `:` are valid, and so are the samples
  obtain ⟨hvn, hvr⟩ := validString_of_append_cons (c := colon) (by decide) hv
  rw [hl]
  refine foldl_readSample_labelValues fl _ _ ?_ (nameAndTags_labelValues hvn)
  rcases hs with rfl | rfl
  · simpa using hvr
  · exact fun s hs => validString_of_mem_split (by decide) hvr hs

end StatsdBridge.Line
