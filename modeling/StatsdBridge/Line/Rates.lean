import StatsdBridge.Line.Events

/-! The `@` modifier. A line of one sample `n:v|t|m₁|m₂` reads in closed form
    (`readLine_oneSample`): nothing when the line or the sample is malformed, and otherwise
    `copies` of the event `buildEvent` gives, with the labels its modifiers leave. An `@`
    modifier enters that form only through `rateValue`, which divides a counter's value, and
    `rateCopies`, which sets how many copies of a timer there are. On a line of one sample and
    one rate these are the spec's rate rules (`oneRate_events`).

    So inserting an `@` modifier changes no metric name, kind, label, relative flag, gauge or
    timer value, and no number of copies but a timer's (`insertRate_sameUpToRate`). A rate that
    is not a number acts as `1`, except after another rate on a timer
    (`unparsedRate_events`); a rate out of range is not read as `1` (`timer_range_rate_dropped`). -/

namespace StatsdBridge.Line

open Go Go.Utf8

variable {F : Type} (fl : GoFloat F)

/-! ### Lines of one sample -/

section OneSample

variable {n v t : Bytes} {mods : List Bytes} (hn : colon ∉ n)
  (hcomp : ∀ m ∈ v :: t :: mods, pipe ∉ m) (hlen : mods.length ≤ 2)
  (hsingle : ascii "|#" <:+: [pipe].intercalate (v :: t :: mods) ∨
    colon ∉ [pipe].intercalate (v :: t :: mods))
include hn hsingle

/-- A line of one sample, valid and with a name: its events are those of that sample, read
    with the name part's labels. -/
theorem readLine_single (hne : n ≠ [])
    (hvalid : validString (n ++ colon :: [pipe].intercalate (v :: t :: mods)) = true)
    (hmixed : ascii "|#" <:+: [pipe].intercalate (v :: t :: mods) →
      (nameAndTags n (∅, .zero)).2.1.entries = []) :
    readLine fl (n ++ colon :: [pipe].intercalate (v :: t :: mods)) =
      readSamples fl (nameAndTags n (∅, .zero)).1 (nameAndTags n (∅, .zero)).2.1
        (nameAndTags n (∅, .zero)).2.2 [[pipe].intercalate (v :: t :: mods)] := by
  rw [readLine_cut fl hn, if_neg (by rw [hvalid]; simp [hne])]
  by_cases hdog : ascii "|#" <:+: [pipe].intercalate (v :: t :: mods)
  · rw [if_pos hdog, if_neg (by simp [hmixed hdog])]
  · rw [if_neg hdog, Strings.split_of_not_mem (hsingle.resolve_left hdog)]

include hcomp

/-- A line of one sample that is not read has no event. -/
theorem readLine_oneSample_nil
    (hbad : n = [] ∨ (ascii "|#" <:+: [pipe].intercalate (v :: t :: mods) ∧
      (nameAndTags n (∅, .zero)).2.1.entries ≠ []) ∨ (fl.parseFloat v).2.isSome ∨ [] ∈ mods) :
    (readLine fl (n ++ colon :: [pipe].intercalate (v :: t :: mods))).1 = [] := by
  by_cases hmal : n = [] ∨ validString (n ++ colon :: [pipe].intercalate (v :: t :: mods)) = false
  · rw [readLine_cut fl hn, if_pos hmal]
  simp only [not_or, Bool.not_eq_false] at hmal
  by_cases hmixed : ascii "|#" <:+: [pipe].intercalate (v :: t :: mods) ∧
      (nameAndTags n (∅, .zero)).2.1.entries ≠ []
  · rw [readLine_cut fl hn, if_neg (by rw [hmal.2]; simp [hmal.1]), if_pos hmixed.1,
      if_pos (List.length_pos.mpr hmixed.2)]
  rw [readLine_single fl hn hsingle hmal.1 hmal.2 fun h => not_not.mp (not_and.mp hmixed h)]
  have hs := readSample_of_not_split fl (nameAndTags n (∅, .zero)).1
    ⟨[], (nameAndTags n (∅, .zero)).2.1, (nameAndTags n (∅, .zero)).2.2⟩
    ([pipe].intercalate (v :: t :: mods)) fun ⟨v', t', mods', value, hs, _, hv, hm⟩ => by
      rw [Strings.split_intercalate hcomp (List.cons_ne_nil _ _)] at hs
      obtain ⟨rfl, rfl, rfl⟩ : v = v' ∧ t = t' ∧ mods = mods' := by simpa using hs
      rcases hbad with h | h | h | h
      · exact hmal.1 h
      · exact hmixed h
      · simp [hv] at h
      · exact hm h
  obtain ⟨r, hr⟩ := hs
  simp only [readSamples, List.foldl_cons, List.foldl_nil, hr]
  rfl

include hlen

/-- A line of one sample that is read: `copies` of the event its modifiers build, with the
    labels they leave. -/
theorem readLine_oneSample {value : F} (hne : n ≠ [])
    (hvalid : validString (n ++ colon :: [pipe].intercalate (v :: t :: mods)) = true)
    (hmixed : ascii "|#" <:+: [pipe].intercalate (v :: t :: mods) →
      (nameAndTags n (∅, .zero)).2.1.entries = [])
    (hv : fl.parseFloat v = (value, none)) (hm : [] ∉ mods) :
    (readLine fl (n ++ colon :: [pipe].intercalate (v :: t :: mods))).1 =
      (copies (nameAndTags n (∅, .zero)).1 t (isRelative v) (mods.foldl (rateValue fl t) value)
        (mods.foldl (rateCopies fl t) 1).toNat
        (mods.foldl tagLabels (nameAndTags n (∅, .zero)).2.1)).map
          (·.withLabels (mods.foldl tagLabels (nameAndTags n (∅, .zero)).2.1)) := by
  rw [readLine_single fl hn hsingle hne hvalid hmixed]
  simp only [readSamples, List.foldl_cons, List.foldl_nil,
    readSample_of_split fl _ (Strings.split_intercalate hcomp (List.cons_ne_nil _ _)) hlen hv hm,
    emitEvents_events, emitEvents_labels, foldl_readModifier_events, foldl_readModifier_value,
    foldl_readModifier_multiplyEvents, foldl_readModifier_labels]
  rfl

end OneSample

/-! ### Copies of one event -/

/-- Two runs of the replication loop whose values can differ only for a counter, and whose
    numbers of copies only for a timer, give copies of events the same up to rate. -/
theorem copies_sameUpToRate (metric t : Bytes) (relative : Bool) {x₁ x₂ : F} {k₁ k₂ : Nat}
    (L : Labels) (hx : t ≠ ascii "c" → x₁ = x₂) (hk : ¬ isTimerType t → k₁ = k₂) :
    ∃ e₁ e₂ a b, (copies metric t relative x₁ k₁ L).map (·.withLabels L) = List.replicate a e₁ ∧
      (copies metric t relative x₂ k₂ L).map (·.withLabels L) = List.replicate b e₂ ∧
      e₁.sameUpToRate e₂ ∧ (a = b ∨ e₁.isTimer) := by
  by_cases hc : t = ascii "c"
  · -- counters: the value may change, the number of copies does not
    subst hc
    refine ⟨.counter metric x₁ L, .counter metric x₂ L, k₁, k₂, ?_, ?_, ⟨rfl, rfl⟩,
      .inl (hk (by decide))⟩ <;> simp [copies, buildEvent, Event.withLabels]
  obtain rfl := hx hc
  by_cases ht : isTimerType t
  · -- timers: the number of copies may change, the event does not
    refine ⟨.timer metric x₁ L, .timer metric x₁ L, k₁, k₂, ?_, ?_, Event.sameUpToRate_refl _,
      .inr rfl⟩ <;> simp [copies, buildEvent_timer ht, Event.withLabels]
  obtain rfl := hk ht
  cases h : buildEvent t metric x₁ relative L with
  | ok e => exact ⟨e.withLabels L, e.withLabels L, k₁, k₁, by simp [copies, h],
      by simp [copies, h], Event.sameUpToRate_refl _, .inl rfl⟩
  | error _ => exact ⟨.counter metric x₁ L, .counter metric x₁ L, 0, 0, by simp [copies, h],
      by simp [copies, h], Event.sameUpToRate_refl _, .inl rfl⟩

/-! ### Inserting an `@` modifier -/

theorem exists_mem_middle {α : Type} {P : α → Prop} {x : α} (l₁ l₂ : List α) :
    (∃ s ∈ l₁ ++ x :: l₂, P s) ↔ P x ∨ ∃ s ∈ l₁ ++ l₂, P s := by
  simp only [List.perm_middle.mem_iff, List.mem_cons, or_and_right, exists_or, exists_eq_left]

theorem tagLabels_rate (L : Labels) (r : Bytes) : tagLabels L (atSign :: r) = L := by
  rw [tagLabels, if_neg (by decide)]

theorem rateValue_of_ne {t : Bytes} (h : t ≠ ascii "c") (x : F) (m : Bytes) :
    rateValue fl t x m = x := by
  cases m <;> simp [rateValue, h]

/-! ### The rate rules -/

section RateRules

variable {n v t r : Bytes}

theorem comps_not_pipe (hcomp : ∀ m ∈ [v, t, r], pipe ∉ m ∧ colon ∉ m) :
    ∀ m ∈ [v, t, atSign :: r], pipe ∉ m := by
  simp only [List.mem_cons, List.mem_singleton, List.not_mem_nil, or_false]
  rintro m (rfl | rfl | rfl)
  · exact (hcomp _ (by simp)).1
  · exact (hcomp _ (by simp)).1
  · exact List.not_mem_cons_of_ne_of_not_mem (by decide) (hcomp _ (by simp)).1

theorem colon_not_mem_sample (hcomp : ∀ m ∈ [v, t, r], pipe ∉ m ∧ colon ∉ m) :
    colon ∉ [pipe].intercalate [v, t, atSign :: r] := by
  rw [Strings.mem_intercalate_of_ne (by decide)]
  rintro ⟨m, hm, hc⟩
  simp only [List.mem_cons, List.mem_singleton, List.not_mem_nil, or_false] at hm
  rcases hm with rfl | rfl | rfl
  · exact (hcomp _ (by simp)).2 hc
  · exact (hcomp _ (by simp)).2 hc
  · exact List.not_mem_cons_of_ne_of_not_mem (by decide) (hcomp _ (by simp)).2 hc

/-- The spec's rate rules, on a line `n:v|t|@r`: a counter's value is divided by the rate, a
    gauge is left as it is, and a timer is emitted `int(1 / r)` times, the rate being the number
    `ParseFloat` reads from `r`, with zero read as one. -/
theorem oneRate_events (hn : colon ∉ n) (hne : n ≠ [])
    (hcomp : ∀ m ∈ [v, t, r], pipe ∉ m ∧ colon ∉ m)
    (hdog : ¬ ascii "|#" <:+: [pipe].intercalate [v, t, atSign :: r]) {value : F}
    (hvalid : validString (n ++ colon :: [pipe].intercalate [v, t, atSign :: r]) = true)
    (hv : fl.parseFloat v = (value, none)) :
    (lineToEvents fl (n ++ colon :: [pipe].intercalate [v, t, atSign :: r])).map Prod.fst =
      some (if t = ascii "c" then
          [.counter (nameAndTags n (∅, .zero)).1 (fl.div value (samplingRate fl r))
            (nameAndTags n (∅, .zero)).2.1]
        else if t = ascii "g" then
          [.gauge (nameAndTags n (∅, .zero)).1 value (isRelative v) (nameAndTags n (∅, .zero)).2.1]
        else if isTimerType t then
          List.replicate (fl.toInt (fl.div fl.one (samplingRate fl r))).toNat
            (.timer (nameAndTags n (∅, .zero)).1 value (nameAndTags n (∅, .zero)).2.1)
        else []) := by
  rw [lineToEvents_eq, Option.map_some', readLine_oneSample fl hn (comps_not_pipe hcomp)
    (by simp) (.inr (colon_not_mem_sample hcomp)) hne hvalid (fun h => absurd h hdog) hv (by simp)]
  simp only [List.foldl_cons, List.foldl_nil, tagLabels_rate, rateValue, rateCopies, true_and]
  unfold copies buildEvent
  by_cases hc : t = ascii "c"
  · subst hc; simp [Event.withLabels, show ¬ isTimerType (ascii "c") by decide]
  by_cases hg : t = ascii "g"
  · subst hg; simp [hc, Event.withLabels, show ¬ isTimerType (ascii "g") by decide]
  by_cases ht : isTimerType t
  · simp [hc, hg, ht, Event.withLabels]
  · split_ifs <;> simp

theorem oneRate_events_counter :
    colon ∉ ascii "foo" ∧ ascii "foo" ≠ [] ∧
      (∀ m ∈ [ascii "10", ascii "c", ascii "0.5"], pipe ∉ m ∧ colon ∉ m) ∧
      ¬ ascii "|#" <:+: [pipe].intercalate [ascii "10", ascii "c", atSign :: ascii "0.5"] ∧
      validString (ascii "foo" ++ colon ::
        [pipe].intercalate [ascii "10", ascii "c", atSign :: ascii "0.5"]) = true ∧
      binary64.parseFloat (ascii "10") = (.finite false (10 * Binary64.unit), none) ∧
      (lineToEvents binary64 (ascii "foo" ++ colon ::
          [pipe].intercalate [ascii "10", ascii "c", atSign :: ascii "0.5"])).map Prod.fst =
        some (if ascii "c" = ascii "c" then
            [.counter (nameAndTags (ascii "foo") (∅, .zero)).1
              (binary64.div (.finite false (10 * Binary64.unit))
                (samplingRate binary64 (ascii "0.5")))
              (nameAndTags (ascii "foo") (∅, .zero)).2.1]
          else if ascii "c" = ascii "g" then
            [.gauge (nameAndTags (ascii "foo") (∅, .zero)).1
              (.finite false (10 * Binary64.unit)) (isRelative (ascii "10"))
              (nameAndTags (ascii "foo") (∅, .zero)).2.1]
          else if isTimerType (ascii "c") then
            List.replicate (binary64.toInt (binary64.div binary64.one
              (samplingRate binary64 (ascii "0.5")))).toNat
              (.timer (nameAndTags (ascii "foo") (∅, .zero)).1 (.finite false (10 * Binary64.unit))
                (nameAndTags (ascii "foo") (∅, .zero)).2.1)
          else []) :=
  ⟨by decide, by decide, by decide, by decide, by decide, by decide,
    oneRate_events binary64 (by decide) (by decide) (by decide) (by decide) (by decide) (by decide)⟩

end RateRules

section Insert

variable {n v t r : Bytes} {pre post : List Bytes} (hn : colon ∉ n)
  (hcomp : ∀ m ∈ v :: t :: (pre ++ post), pipe ∉ m) (hr : pipe ∉ r ∧ colon ∉ r)
  (hlen : (pre ++ post).length ≤ 1)
  (hsingle : ascii "|#" <:+: [pipe].intercalate (v :: t :: (pre ++ post)) ∨
    colon ∉ [pipe].intercalate (v :: t :: (pre ++ post)))
  (hv₁ : validString (n ++ colon :: [pipe].intercalate (v :: t :: (pre ++ post))) = true)
  (hv₂ : validString
    (n ++ colon :: [pipe].intercalate (v :: t :: (pre ++ (atSign :: r) :: post))) = true)

theorem foldl_tagLabels_insert (L : Labels) :
    (pre ++ (atSign :: r) :: post).foldl tagLabels L = (pre ++ post).foldl tagLabels L := by
  rw [List.foldl_append, List.foldl_cons, tagLabels_rate, ← List.foldl_append]

theorem exists_mem_insert {P : Bytes → Prop} :
    (∃ s ∈ v :: t :: (pre ++ (atSign :: r) :: post), P s) ↔
      P (atSign :: r) ∨ ∃ s ∈ v :: t :: (pre ++ post), P s :=
  exists_mem_middle (v :: t :: pre) post

include hcomp hr in
/-- The inserted component has no `|`, so neither has any component of the new sample. -/
theorem insert_not_pipe : ∀ m ∈ v :: t :: (pre ++ (atSign :: r) :: post), pipe ∉ m :=
  fun m hm hp => by
    rcases exists_mem_insert.mp ⟨m, hm, hp⟩ with h | ⟨m', hm', hp'⟩
    · rcases List.mem_cons.mp h with h | h
      · exact absurd h (by decide)
      · exact hr.1 h
    · exact hcomp m' hm' hp'

include hcomp hr in
/-- The inserted component does not start with `#`, so it adds no `|#`. -/
theorem insert_dog_iff :
    ascii "|#" <:+: [pipe].intercalate (v :: t :: (pre ++ (atSign :: r) :: post)) ↔
      ascii "|#" <:+: [pipe].intercalate (v :: t :: (pre ++ post)) := by
  rw [ascii_pipe_hash, Strings.pair_infix_intercalate_sep (by decide) v _ (insert_not_pipe hcomp hr),
    Strings.pair_infix_intercalate_sep (by decide) v _ hcomp,
    show (∃ s ∈ t :: (pre ++ (atSign :: r) :: post), (s.head? = some Go.hash)) ↔ _ from
      exists_mem_middle (t :: pre) post]
  exact or_iff_right fun h => absurd (Option.some.inj h) (by decide)

include hr in
/-- The inserted component has no `:`, so it adds no second sample. -/
theorem insert_colon_iff :
    colon ∈ [pipe].intercalate (v :: t :: (pre ++ (atSign :: r) :: post)) ↔
      colon ∈ [pipe].intercalate (v :: t :: (pre ++ post)) := by
  rw [Strings.mem_intercalate_of_ne (by decide), Strings.mem_intercalate_of_ne (by decide),
    exists_mem_insert]
  refine or_iff_right fun h => ?_
  rcases List.mem_cons.mp h with h | h
  · exact absurd h (by decide)
  · exact hr.2 h

theorem insert_nil_iff : [] ∈ pre ++ (atSign :: r) :: post ↔ [] ∈ pre ++ post :=
  List.perm_middle.mem_iff.trans
    (List.mem_cons.trans (or_iff_right fun h => List.cons_ne_nil _ _ h.symm))

include hn hcomp hr hlen hsingle hv₁ hv₂

/-- Inserting an `@` modifier into a line of one sample: both lines have no event, or both are
    read, each with its own modifiers and the same labels. -/
theorem readLine_insertRate :
    ((readLine fl (n ++ colon :: [pipe].intercalate (v :: t :: (pre ++ post)))).1 = [] ∧
      (readLine fl
        (n ++ colon :: [pipe].intercalate (v :: t :: (pre ++ (atSign :: r) :: post)))).1 = []) ∨
    ∃ value : F, fl.parseFloat v = (value, none) ∧
      (readLine fl (n ++ colon :: [pipe].intercalate (v :: t :: (pre ++ post)))).1 =
        (copies (nameAndTags n (∅, .zero)).1 t (isRelative v)
          ((pre ++ post).foldl (rateValue fl t) value) ((pre ++ post).foldl (rateCopies fl t) 1).toNat
          ((pre ++ post).foldl tagLabels (nameAndTags n (∅, .zero)).2.1)).map
            (·.withLabels ((pre ++ post).foldl tagLabels (nameAndTags n (∅, .zero)).2.1)) ∧
      (readLine fl
        (n ++ colon :: [pipe].intercalate (v :: t :: (pre ++ (atSign :: r) :: post)))).1 =
        (copies (nameAndTags n (∅, .zero)).1 t (isRelative v)
          ((pre ++ (atSign :: r) :: post).foldl (rateValue fl t) value)
          ((pre ++ (atSign :: r) :: post).foldl (rateCopies fl t) 1).toNat
          ((pre ++ post).foldl tagLabels (nameAndTags n (∅, .zero)).2.1)).map
            (·.withLabels ((pre ++ post).foldl tagLabels (nameAndTags n (∅, .zero)).2.1)) := by
  have hcomp₂ := insert_not_pipe hcomp hr
  have hdog := insert_dog_iff hcomp hr
  have hnil : [] ∈ pre ++ (atSign :: r) :: post ↔ [] ∈ pre ++ post := insert_nil_iff
  have hsingle₂ := hsingle.imp hdog.mpr (mt (insert_colon_iff hr).mp)
  have hlen₂ : (pre ++ (atSign :: r) :: post).length ≤ 2 := by simp at hlen ⊢; omega
  -- both lines are read, or neither
  by_cases hbad : n = [] ∨ (ascii "|#" <:+: [pipe].intercalate (v :: t :: (pre ++ post)) ∧
      (nameAndTags n (∅, .zero)).2.1.entries ≠ []) ∨ (fl.parseFloat v).2.isSome ∨ [] ∈ pre ++ post
  · exact .inl ⟨readLine_oneSample_nil fl hn hcomp hsingle hbad,
      readLine_oneSample_nil fl hn hcomp₂ hsingle₂
        (hbad.imp id (Or.imp (And.imp_left hdog.mpr) (Or.imp id hnil.mpr)))⟩
  have hne : n ≠ [] := fun h => hbad (.inl h)
  have hmixed (h : ascii "|#" <:+: [pipe].intercalate (v :: t :: (pre ++ post))) :
      (nameAndTags n (∅, .zero)).2.1.entries = [] :=
    not_not.mp fun h' => hbad (.inr (.inl ⟨h, h'⟩))
  have hm : [] ∉ pre ++ post := fun h => hbad (.inr (.inr (.inr h)))
  obtain ⟨value, hv⟩ : ∃ value, fl.parseFloat v = (value, none) := by
    rcases h : fl.parseFloat v with ⟨value, _ | _⟩
    · exact ⟨value, rfl⟩
    · exact absurd (.inr (.inr (.inl (by simp [h])))) hbad
  refine .inr ⟨value, hv, readLine_oneSample fl hn hcomp (by omega) hsingle hne hv₁ hmixed hv hm, ?_⟩
  rw [readLine_oneSample fl hn hcomp₂ hlen₂ hsingle₂ hne hv₂ (fun h => hmixed (hdog.mp h)) hv
    (mt hnil.mp hm), foldl_tagLabels_insert]

/-- Inserting an `@` modifier into a line of one sample changes its events only in a counter's
    value and in how many copies of a timer there are: names, kinds, labels, relative flags,
    gauges and timer values stay, and so does every number of copies but a timer's. -/
theorem insertRate_sameUpToRate :
    ∃ e₁ e₂ a b c₁ c₂,
      lineToEvents fl (n ++ colon :: [pipe].intercalate (v :: t :: (pre ++ post))) =
        some (List.replicate a e₁, c₁) ∧
      lineToEvents fl
          (n ++ colon :: [pipe].intercalate (v :: t :: (pre ++ (atSign :: r) :: post))) =
        some (List.replicate b e₂, c₂) ∧
      e₁.sameUpToRate e₂ ∧ (a = b ∨ e₁.isTimer) := by
  obtain ⟨e₁, e₂, a, b, h₁, h₂, he, hab⟩ : ∃ e₁ e₂ a b,
      (readLine fl (n ++ colon :: [pipe].intercalate (v :: t :: (pre ++ post)))).1 =
        List.replicate a e₁ ∧
      (readLine fl
          (n ++ colon :: [pipe].intercalate (v :: t :: (pre ++ (atSign :: r) :: post)))).1 =
        List.replicate b e₂ ∧
      e₁.sameUpToRate e₂ ∧ (a = b ∨ e₁.isTimer) := by
    rcases readLine_insertRate fl hn hcomp hr hlen hsingle hv₁ hv₂ with ⟨h₁, h₂⟩ | ⟨value, -, h₁, h₂⟩
    · exact ⟨.counter [] fl.zero ∅, .counter [] fl.zero ∅, 0, 0, h₁, h₂,
        Event.sameUpToRate_refl _, .inl rfl⟩
    · -- the rate divides only a counter's value and sets only a timer's copies
      rw [h₁, h₂]
      refine copies_sameUpToRate _ _ _ _ (fun hc => ?_) fun ht => ?_
      · rw [List.foldl_fixed' (rateValue_of_ne fl hc _), List.foldl_fixed' (rateValue_of_ne fl hc _)]
      · rw [List.foldl_fixed' (rateCopies_of_not_timer fl ht 1),
          List.foldl_fixed' (rateCopies_of_not_timer fl ht 1)]
  exact ⟨e₁, e₂, a, b, _, _, by rw [lineToEvents_eq, ← h₁], by rw [lineToEvents_eq, ← h₂], he, hab⟩

end Insert

/-- A timer `foo:1|ms` sampled at `0.5`. -/
theorem insertRate_sameUpToRate_timer :
    colon ∉ ascii "foo" ∧ (∀ m ∈ [ascii "1", ascii "ms"], pipe ∉ m) ∧
      (pipe ∉ ascii "0.5" ∧ colon ∉ ascii "0.5") ∧
      ([] ++ [] : List Bytes).length ≤ 1 ∧
      (ascii "|#" <:+: [pipe].intercalate [ascii "1", ascii "ms"] ∨
        colon ∉ [pipe].intercalate [ascii "1", ascii "ms"]) ∧
      validString (ascii "foo" ++ colon :: [pipe].intercalate [ascii "1", ascii "ms"]) = true ∧
      validString (ascii "foo" ++ colon ::
        [pipe].intercalate [ascii "1", ascii "ms", atSign :: ascii "0.5"]) = true ∧
      ∃ e₁ e₂ a b c₁ c₂,
        lineToEvents binary64
            (ascii "foo" ++ colon :: [pipe].intercalate [ascii "1", ascii "ms"]) =
          some (List.replicate a e₁, c₁) ∧
        lineToEvents binary64 (ascii "foo" ++ colon ::
            [pipe].intercalate [ascii "1", ascii "ms", atSign :: ascii "0.5"]) =
          some (List.replicate b e₂, c₂) ∧
        e₁.sameUpToRate e₂ ∧ (a = b ∨ e₁.isTimer) :=
  ⟨by decide, by decide, by decide, by decide, by decide, by decide, by decide,
    @insertRate_sameUpToRate _ binary64 _ _ _ _ [] [] (by decide) (by decide) (by decide)
      (by decide) (by decide) (by decide) (by decide)⟩

/-! ### A rate that is not a number -/

theorem samplingRate_errSyntax {r : Bytes} (h : (fl.parseFloat r).2 = some .errSyntax) :
    samplingRate fl r = fl.one := by
  have h0 : (fl.parseFloat r).1 = fl.zero := fl.parseFloat_errSyntax r _ (Prod.ext rfl h)
  rw [samplingRate, h0, if_pos fl.beq_zero]

section UnitRate

variable {t r : Bytes} (hrate : samplingRate fl r = fl.one)
include hrate

/-- A unit rate leaves a counter's value as it is where the value it divides is its own quotient
    by `1`. -/
theorem foldl_rateValue_insert (pre post : List Bytes) (x : F)
    (hdiv : fl.div (pre.foldl (rateValue fl t) x) fl.one = pre.foldl (rateValue fl t) x) :
    (pre ++ (atSign :: r) :: post).foldl (rateValue fl t) x =
      (pre ++ post).foldl (rateValue fl t) x := by
  have hunit : rateValue fl t (pre.foldl (rateValue fl t) x) (atSign :: r) =
      pre.foldl (rateValue fl t) x := by
    rw [rateValue]
    split_ifs <;> simp only [hrate, hdiv]
  rw [List.foldl_append, List.foldl_cons, hunit, ← List.foldl_append]

/-- A unit rate gives a timer `int(1 / 1)` copies, one where that is `1`, as a timer without rate
    has, so inserting it changes nothing unless an earlier rate had set another number. -/
theorem foldl_rateCopies_insert (hone : fl.toInt (fl.div fl.one fl.one) = 1)
    (pre post : List Bytes) (hfirst : isTimerType t → lastRate pre = none) :
    (pre ++ (atSign :: r) :: post).foldl (rateCopies fl t) 1 =
      (pre ++ post).foldl (rateCopies fl t) 1 := by
  rw [List.foldl_append, List.foldl_cons, List.foldl_append]
  by_cases ht : isTimerType t
  · rw [foldl_rateCopies_timer fl ht pre, hfirst ht, rateCopies, if_pos ⟨rfl, ht⟩, hrate, hone]
    rfl
  · rw [rateCopies_of_not_timer fl ht]

end UnitRate

/-- An `@` modifier whose text is not a number, inserted into a line of one sample, leaves its
    events as they were where the value it divides is its own quotient by `1` and
    `int(1 / 1) = 1`: it acts as the rate `1`. On a timer with an earlier `@` rate it does not:
    it sets the number of copies back to one. -/
theorem unparsedRate_events {n v t r : Bytes} {pre post : List Bytes} (hn : colon ∉ n)
    (hcomp : ∀ m ∈ v :: t :: (pre ++ post), pipe ∉ m) (hr : pipe ∉ r ∧ colon ∉ r)
    (hlen : (pre ++ post).length ≤ 1)
    (hsingle : ascii "|#" <:+: [pipe].intercalate (v :: t :: (pre ++ post)) ∨
      colon ∉ [pipe].intercalate (v :: t :: (pre ++ post)))
    (hv₁ : validString (n ++ colon :: [pipe].intercalate (v :: t :: (pre ++ post))) = true)
    (hv₂ : validString
      (n ++ colon :: [pipe].intercalate (v :: t :: (pre ++ (atSign :: r) :: post))) = true)
    (hsyn : (fl.parseFloat r).2 = some .errSyntax)
    (hdiv : fl.div (pre.foldl (rateValue fl t) (fl.parseFloat v).1) fl.one =
      pre.foldl (rateValue fl t) (fl.parseFloat v).1)
    (hone : fl.toInt (fl.div fl.one fl.one) = 1) (hfirst : isTimerType t → lastRate pre = none) :
    (lineToEvents fl (n ++ colon ::
        [pipe].intercalate (v :: t :: (pre ++ (atSign :: r) :: post)))).map Prod.fst =
      (lineToEvents fl (n ++ colon :: [pipe].intercalate (v :: t :: (pre ++ post)))).map
        Prod.fst := by
  have hrate := samplingRate_errSyntax fl hsyn
  simp only [lineToEvents_eq, Option.map_some']
  rcases readLine_insertRate fl hn hcomp hr hlen hsingle hv₁ hv₂ with
    ⟨h₁, h₂⟩ | ⟨value, hv, h₁, h₂⟩
  · rw [h₁, h₂]
  · rw [hv] at hdiv
    rw [h₁, h₂, foldl_rateValue_insert fl hrate _ _ _ hdiv,
      foldl_rateCopies_insert fl hrate hone _ _ hfirst]

/-- The counter `foo:1|c|@bar`. -/
theorem unparsedRate_events_counter :
    colon ∉ ascii "foo" ∧ (∀ m ∈ [ascii "1", ascii "c"], pipe ∉ m) ∧
      (pipe ∉ ascii "bar" ∧ colon ∉ ascii "bar") ∧ ([] ++ [] : List Bytes).length ≤ 1 ∧
      (ascii "|#" <:+: [pipe].intercalate [ascii "1", ascii "c"] ∨
        colon ∉ [pipe].intercalate [ascii "1", ascii "c"]) ∧
      validString (ascii "foo" ++ colon :: [pipe].intercalate [ascii "1", ascii "c"]) = true ∧
      validString (ascii "foo" ++ colon ::
        [pipe].intercalate [ascii "1", ascii "c", atSign :: ascii "bar"]) = true ∧
      (binary64.parseFloat (ascii "bar")).2 = some .errSyntax ∧
      binary64.div (([] : List Bytes).foldl (rateValue binary64 (ascii "c"))
          (binary64.parseFloat (ascii "1")).1) binary64.one =
        ([] : List Bytes).foldl (rateValue binary64 (ascii "c"))
          (binary64.parseFloat (ascii "1")).1 ∧
      binary64.toInt (binary64.div binary64.one binary64.one) = 1 ∧
      (isTimerType (ascii "c") → lastRate [] = none) ∧
      (lineToEvents binary64 (ascii "foo" ++ colon ::
          [pipe].intercalate [ascii "1", ascii "c", atSign :: ascii "bar"])).map Prod.fst =
        (lineToEvents binary64
          (ascii "foo" ++ colon :: [pipe].intercalate [ascii "1", ascii "c"])).map Prod.fst :=
  ⟨by decide, by decide, by decide, by decide, by decide, by decide, by decide, by decide,
    by decide, by decide, fun _ => rfl,
    @unparsedRate_events _ binary64 _ _ _ _ [] [] (by decide) (by decide) (by decide)
      (by decide) (by decide) (by decide) (by decide) (by decide) (by decide) (by decide)
      fun _ => rfl⟩

set_option exponentiation.threshold 500 in
/-- `1e400` is out of range: `ParseFloat` gives `+Inf` with `ErrRange`, and `int(1 / +Inf)` is
    zero, so the timer `foo:1|ms|@1e400` has no event where `foo:1|ms` has one. -/
theorem timer_range_rate_dropped :
    lineToEvents binary64 (ascii "foo:1|ms|@1e400") =
        some ([], ⟨[.invalidSampleFactor], 1, 0, 0⟩) ∧
      lineToEvents binary64 (ascii "foo:1|ms") =
        some ([.timer (ascii "foo") Binary64.one ∅], ⟨[], 1, 0, 0⟩) :=
  ⟨by decide, rfl⟩

end StatsdBridge.Line
