import StatsdBridge.Event
import StatsdBridge.Mapper

/-! Tag parsing in package `line`. `parseTag` cuts one tag at the first separator rune;
    `parseNameTags` (Librato and InfluxDB tags, separator `=`) and `ParseDogStatsDTags` (DogStatsD
    tags, separator `:`, one leading `#` dropped) walk a comma-separated list with an index loop;
    `parseNameAndTags` cuts the metric name at the first `#` or `,`.

    `tagReference` reads a tag list by splitting it on `,`. `parseTagList_eq` proves that the
    index loop computes it: no slice of the loop is out of range, and the loop reads exactly the
    pieces `strings.Split` gives, the last one only when it is not empty. Tags written as a
    client writes them (`renderTags`) read back as the labels they name (`tagLists_render`). -/

namespace StatsdBridge.Line

open Go Go.Utf8 Mapper

/-- The label map and the counters the tag parsers update. -/
abbrev TagState := Labels × Counters

/-- `parseTag` (its `component` argument only feeds the debug log). -/
def parseTag (tag : Bytes) (separator : UInt8) (st : TagState) : Option TagState :=
  if tag.length = 0 then some (st.1, st.2.tagError) else
  match (rangeString tag).find? (fun e => e.2.1 == separator.toNat) with
  | some (i, _, _) => do
    let k ← slice tag 0 i
    let v ← sliceFrom tag (i + 1)
    if k.length = 0 ∨ v.length = 0 then some (st.1, st.2.tagError)
    else some (st.1.insert (escapeMetricName k) v, st.2)
  | none => some (st.1, st.2.tagError)

/-- One iteration of the loop of `parseNameTags` and `ParseDogStatsDTags`: a `,` at offset `e.1`
    ends the tag that starts at `acc.1`. -/
def tagStep (separator : UInt8) (prep : Bytes → Option Bytes) (component : Bytes)
    (acc : Nat × TagState) (e : Nat × Nat × Nat) : Option (Nat × TagState) :=
  if e.2.1 = comma.toNat then do
    let tag ← slice component acc.1 e.1
    let st ← parseTag (← prep tag) separator acc.2
    pure (e.1 + 1, st)
  else pure acc

/-- The body shared by `parseNameTags` and `ParseDogStatsDTags`: every `,` ends a tag, `prep`
    prepares it and `parseTag` reads it at `separator`; a last tag runs to the end. -/
def parseTagList (separator : UInt8) (prep : Bytes → Option Bytes) (component : Bytes)
    (st : TagState) : Option TagState := do
  let (last, st) ← (rangeString component).foldlM (tagStep separator prep component) (0, st)
  if last < component.length then parseTag (← prep (← sliceFrom component last)) separator st
  else pure st

/-- `parseNameTags` -/
def parseNameTags (component : Bytes) (st : TagState) : Option TagState :=
  parseTagList equals some component st

/-- `trimLeftHash` -/
def trimLeftHash (s : Bytes) : Option Bytes :=
  if s ≠ [] then do
    if (← index s 0) = hash then sliceFrom s 1 else pure s
  else pure s

/-- `ParseDogStatsDTags` -/
def parseDogStatsDTags (component : Bytes) (st : TagState) : Option TagState :=
  parseTagList colon trimLeftHash component st

/-- `parseNameAndTags`: the metric name, and the label map with the name's tags. -/
def parseNameAndTags (name : Bytes) (st : TagState) : Option (Bytes × TagState) :=
  match (rangeString name).find? (fun e => e.2.1 == hash.toNat || e.2.1 == comma.toNat) with
  | some (i, _, _) => do
    let st ← parseNameTags (← sliceFrom name (i + 1)) st
    pure (← slice name 0 i, st)
  | none => pure (name, st)

/-! ### The split-based reading -/

/-- One tag read by splitting at the first `separator`: no separator, or an empty key or value,
    is a tag error. -/
def readTag (separator : UInt8) (p : Bytes) (st : TagState) : TagState :=
  match p.span (· ≠ separator) with
  | (k, _ :: v) =>
    if k = [] ∨ v = [] then (st.1, st.2.tagError) else (st.1.insert (escapeMetricName k) v, st.2)
  | (_, []) => (st.1, st.2.tagError)

/-- A tag list split on `,` as `strings.Split` does, without a last piece that is empty. -/
def tagPieces (s : Bytes) : List Bytes :=
  let ps := Strings.split s comma
  if ps.getLast? = some [] then ps.dropLast else ps

/-- The split-based reading of a tag list: its pieces, each prepared by `prep`, read in order. -/
def tagReference (separator : UInt8) (prep : Bytes → Bytes) (s : Bytes) (st : TagState) :
    TagState :=
  (tagPieces s).foldl (fun st p => readTag separator (prep p) st) st

/-- One leading `#` removed. -/
def dropHash (p : Bytes) : Bytes := if p.head? = some hash then p.tail else p

/-- The split-based reading of a metric name: the text before the first `#` or `,`, and the
    labels of the Librato or InfluxDB tags after it. -/
def nameAndTags (name : Bytes) (st : TagState) : Bytes × TagState :=
  match name.span (fun b => !(b == hash || b == comma)) with
  | (n, _ :: tags) => (n, tagReference equals id tags st)
  | (n, []) => (n, st)

theorem readTag_fst (separator : UInt8) (p : Bytes) {st st' : TagState} (h : st.1 = st'.1) :
    (readTag separator p st).1 = (readTag separator p st').1 := by
  unfold readTag
  split <;> (try split_ifs) <;> simp only [h]

/-- The labels a tag list leaves do not depend on the counters it starts from. -/
theorem tagReference_fst (separator : UInt8) (prep : Bytes → Bytes) (s : Bytes)
    {st st' : TagState} (h : st.1 = st'.1) :
    (tagReference separator prep s st).1 = (tagReference separator prep s st').1 := by
  unfold tagReference
  induction tagPieces s generalizing st st' with
  | nil => exact h
  | cons p ps ih => exact ih (readTag_fst separator (prep p) h)

/-- A tag list counts nothing but tag errors. -/
theorem tagReference_snd (separator : UInt8) (prep : Bytes → Bytes) (s : Bytes) (st : TagState) :
    ∃ k, (tagReference separator prep s st).2 = { st.2 with tagErrors := st.2.tagErrors + k } := by
  unfold tagReference
  induction tagPieces s generalizing st with
  | nil => exact ⟨0, rfl⟩
  | cons p ps ih =>
    obtain ⟨k, hk⟩ := ih (readTag separator (prep p) st)
    rw [List.foldl_cons, hk]
    unfold readTag
    split <;> (try split_ifs) <;> first
      | exact ⟨k + 1, by simp [Counters.tagError]; omega⟩
      | exact ⟨k, rfl⟩

/-- The name part counts nothing but tag errors. -/
theorem nameAndTags_snd (name : Bytes) (st : TagState) :
    ∃ k, (nameAndTags name st).2.2 = { st.2 with tagErrors := st.2.tagErrors + k } := by
  unfold nameAndTags
  split
  · exact tagReference_snd _ _ _ st
  · exact ⟨0, rfl⟩

theorem nameAndTags_fst (name : Bytes) (st : TagState) :
    (nameAndTags name st).1 = name.takeWhile fun b => !(b == hash || b == comma) := by
  unfold nameAndTags
  split <;> rename_i heq <;> rw [List.span_eq_take_drop, Prod.mk.injEq] at heq <;> exact heq.1.symm

/-! ### One tag -/

theorem parseTag_eq {separator : UInt8} (hsep : separator < 0x80) (tag : Bytes) (st : TagState) :
    parseTag tag separator st = some (readTag separator tag st) := by
  have hp : ∀ r, (r == separator.toNat) = true → r < 0x80 := by
    intro r hr
    simpa [(beq_iff_eq.mp hr)] using hsep
  rcases Strings.span_cases (· ≠ separator) tag with ⟨hall, hsp⟩ | ⟨k, c, v, rfl, hk, hc, hsp⟩
  · rw [readTag, hsp, parseTag]
    split
    · rfl
    · rw [rangeString_find?_none hp (fun b hb => by simpa [← byte_eq] using (hall b hb))]
  · obtain rfl : c = separator := by simpa using hc
    have hfind := rangeString_find?_append_cons (t := v) hp
      (fun b hb => by simpa [← byte_eq] using hk b hb) (beq_self_eq_true _)
    rw [readTag, hsp, parseTag, if_neg (by simp), hfind]
    simp only [slice_zero (by simp : k.length ≤ (k ++ c :: v).length),
      sliceFrom_eq (by simp : k.length + 1 ≤ (k ++ c :: v).length)]
    rw [List.append_cons, List.drop_left' (by simp), List.append_assoc, List.take_left' rfl]
    simp only [List.length_eq_zero]
    split_ifs <;> simp_all

theorem trimLeftHash_eq (s : Bytes) : trimLeftHash s = some (dropHash s) := by
  cases s with
  | nil => rfl
  | cons b s =>
    by_cases hb : b = hash <;> simp_all [trimLeftHash, dropHash, index, sliceFrom_eq]

/-! ### The tag list loop -/

section Loop

variable {separator : UInt8} {prep : Bytes → Option Bytes} {prep' : Bytes → Bytes}

/-- The loop passes over runes that are no `,`. -/
theorem foldlM_tagStep_of_ne (component : Bytes) {l : List (Nat × Nat × Nat)}
    (hl : ∀ e ∈ l, e.2.1 ≠ comma.toNat) (acc : Nat × TagState) :
    l.foldlM (tagStep separator prep component) acc = some acc := by
  induction l with
  | nil => rfl
  | cons e l ih =>
    rw [List.foldlM_cons, tagStep, if_neg (hl e (List.mem_cons_self _ _))]
    exact ih fun e he => hl e (List.mem_cons_of_mem _ he)

/-- After the runes of `s`, the loop stands after the last `,` of `s` and has read every piece
    of `s` but the last, whatever follows `s` in the component. -/
theorem foldlM_tagStep (hsep : separator < 0x80) (hprep : ∀ p, prep p = some (prep' p))
    (s x : Bytes) (st : TagState) :
    (rangeString s).foldlM (tagStep separator prep (s ++ x)) (0, st) =
      some (s.length - ((Strings.split s comma).getLastD []).length,
        (Strings.split s comma).dropLast.foldl (fun st p => readTag separator (prep' p) st) st) := by
  induction' hn : s.length using Nat.strong_induction_on with n ih generalizing s x
  by_cases hc : comma ∈ s
  · obtain ⟨pre, post, rfl, hpost⟩ := Strings.exists_last_occurrence hc
    obtain ⟨t, ht⟩ := Strings.split_getLastD_suffix pre comma
    have hcomma : comma < 0x80 := by decide
    -- the runes of `pre`, then the `,`, then those of `post`
    rw [rangeString_append pre post hcomma, rangeString_ascii_cons post hcomma, List.foldlM_append,
      List.append_assoc, ih pre.length (by simp at hn ⊢; omega) pre _ rfl]
    simp only [List.map_cons, List.map_map, Option.bind_eq_bind, Option.some_bind, List.foldlM_cons,
      tagStep, shift, Nat.zero_add, if_pos rfl]
    have hslice : slice (pre ++ (comma :: post ++ x))
        (pre.length - ((Strings.split pre comma).getLastD []).length) pre.length =
        some ((Strings.split pre comma).getLastD []) := by
      rw [slice_eq (by omega) (by simp), List.take_left' rfl]
      generalize (Strings.split pre comma).getLastD [] = lp at ht ⊢
      subst ht
      simp
    simp only [hslice, Option.some_bind, hprep, parseTag_eq hsep, if_true, Option.pure_def]
    rw [foldlM_tagStep_of_ne _ ?_]
    · rw [Strings.split_append_cons, Strings.split_of_not_mem hpost]
      simp only [List.dropLast_concat, List.getLastD_concat, List.length_append, List.length_cons]
      simp only [List.length_append, List.length_cons] at hn
      refine congrArg some (Prod.ext (by dsimp only; omega) ?_)
      conv_rhs => rw [← List.dropLast_append_getLast (Strings.split_ne_nil pre comma)]
      rw [List.foldl_append, List.getLastD_eq_getLast?,
        List.getLast?_eq_getLast _ (Strings.split_ne_nil pre comma)]
      rfl
    · intro e he
      obtain ⟨e', he', rfl⟩ := List.mem_map.mp he
      exact rangeString_ne_of_not_mem hcomma hpost e' he'
  · rw [foldlM_tagStep_of_ne _ (rangeString_ne_of_not_mem (by decide) hc), Strings.split_of_not_mem hc]
    simp
    omega

/-- The index loop of `parseNameTags` and `ParseDogStatsDTags` reads a tag list as
    `tagReference` does, and none of its slices is out of range. -/
theorem parseTagList_eq (hsep : separator < 0x80) (hprep : ∀ p, prep p = some (prep' p))
    (s : Bytes) (st : TagState) :
    parseTagList separator prep s st = some (tagReference separator prep' s st) := by
  have hloop := foldlM_tagStep hsep hprep s [] st
  rw [List.append_nil] at hloop
  obtain ⟨t, ht⟩ := Strings.split_getLastD_suffix s comma
  have hpieces := Strings.split_eq_dropLast_append s comma
  simp only [parseTagList, hloop, Option.bind_eq_bind, Option.some_bind, tagReference, tagPieces]
  generalize (Strings.split s comma).getLastD [] = lp at ht hpieces
  rw [hpieces, List.getLast?_concat]
  subst ht
  by_cases hlp : lp = []
  · subst hlp
    simp
  · have hlt : (t ++ lp).length - lp.length < (t ++ lp).length := by
      simpa using List.length_pos.mpr hlp
    rw [if_pos hlt, sliceFrom_eq hlt.le]
    simp [hprep, parseTag_eq hsep, hlp, List.foldl_append]

end Loop

theorem parseNameTags_eq (s : Bytes) (st : TagState) :
    parseNameTags s st = some (tagReference equals id s st) :=
  parseTagList_eq (by decide) (fun _ => rfl) s st

theorem parseDogStatsDTags_eq (s : Bytes) (st : TagState) :
    parseDogStatsDTags s st = some (tagReference colon dropHash s st) :=
  parseTagList_eq (by decide) trimLeftHash_eq s st

/-- `parseNameTags` and `ParseDogStatsDTags` read a tag list as `tagReference` does, with `=`
    and with `:` and one leading `#` dropped from each piece. -/
theorem tagLists_eq_reference (s : Bytes) (st : TagState) :
    parseNameTags s st = some (tagReference equals id s st) ∧
      parseDogStatsDTags s st = some (tagReference colon dropHash s st) :=
  ⟨parseNameTags_eq s st, parseDogStatsDTags_eq s st⟩

/-- `parseNameAndTags` cuts the name at its first `#` or `,` and reads the tags after it. -/
theorem parseNameAndTags_eq (name : Bytes) (st : TagState) :
    parseNameAndTags name st = some (nameAndTags name st) := by
  have hp : ∀ r, (r == hash.toNat || r == comma.toNat) = true → r < 0x80 := by
    intro r hr
    simp only [Bool.or_eq_true, beq_iff_eq, hash_eq, comma_eq, byte_lit] at hr
    omega
  rcases Strings.span_cases (fun b => !(b == hash || b == comma)) name with
    ⟨hall, hsp⟩ | ⟨a, c, t, rfl, ha, hc, hsp⟩
  · rw [parseNameAndTags, rangeString_find?_none hp (fun b hb => by
        rw [toNat_beq_toNat, toNat_beq_toNat]; simpa using hall b hb), nameAndTags, hsp]
    rfl
  · rw [parseNameAndTags, rangeString_find?_append_cons (t := t) hp (fun b hb => by
        rw [toNat_beq_toNat, toNat_beq_toNat]; simpa using ha b hb)
      (by rw [toNat_beq_toNat, toNat_beq_toNat]; simpa [or_iff_not_imp_left] using hc),
      nameAndTags, hsp]
    simp only [sliceFrom_eq (by simp : a.length + 1 ≤ (a ++ c :: t).length),
      slice_zero (by simp : a.length ≤ (a ++ c :: t).length), Option.bind_eq_bind, Option.some_bind]
    rw [List.append_cons, List.drop_left' (by simp), List.append_assoc, List.take_left' rfl,
      parseNameTags_eq t st]
    rfl

/-! ### Label names -/

/-- Every key of a label map is a Prometheus label name. -/
def LabelNames (labels : Labels) : Prop := ∀ k ∈ labels, IsLabelName k

theorem labelNames_empty : LabelNames ∅ := fun k hk => absurd hk (AList.not_mem_empty k)

/-- A tag enters the labels under its escaped key, which is not empty. -/
theorem readTag_labelNames (separator : UInt8) (p : Bytes) {st : TagState}
    (h : LabelNames st.1) : LabelNames (readTag separator p st).1 := by
  unfold readTag
  split
  · split_ifs with hkv
    · exact h
    · intro k hk
      rcases (AList.mem_insert _).mp hk with rfl | hk
      · exact escapeMetricName_isLabelName fun hk => hkv (.inl hk)
      · exact h k hk
  · exact h

theorem tagReference_labelNames (separator : UInt8) (prep : Bytes → Bytes) (s : Bytes)
    {st : TagState} (h : LabelNames st.1) : LabelNames (tagReference separator prep s st).1 := by
  unfold tagReference
  induction tagPieces s generalizing st with
  | nil => exact h
  | cons p ps ih => exact ih (readTag_labelNames separator (prep p) h)

theorem nameAndTags_labelNames (name : Bytes) : LabelNames (nameAndTags name (∅, .zero)).2.1 := by
  unfold nameAndTags
  split
  · exact tagReference_labelNames _ _ _ labelNames_empty
  · exact labelNames_empty

/-! ### Label values -/

/-- Every label value is valid UTF-8. -/
def LabelValues (labels : Labels) : Prop := ∀ p ∈ labels.entries, validString p.2 = true

theorem labelValues_empty : LabelValues ∅ := nofun

/-- Valid UTF-8 cut at an ASCII byte leaves valid UTF-8 on either side. -/
theorem validString_of_append_cons {a t : Bytes} {c : UInt8} (hc : c < 0x80)
    (h : validString (a ++ c :: t) = true) : validString a = true ∧ validString t = true := by
  rwa [validString_append _ _ hc, validString_ascii_cons _ hc, Bool.and_eq_true] at h

/-- The pieces of valid UTF-8 split at an ASCII byte are valid UTF-8. -/
theorem validString_of_mem_split {s p : Bytes} {c : UInt8} (hc : c < 0x80)
    (hs : validString s = true) (hp : p ∈ Strings.split s c) : validString p = true := by
  have hjoin : [c].intercalate (Strings.split s c) = s := List.intercalate_splitOn s c
  rw [← hjoin, validString_intercalate hc] at hs
  exact List.all_eq_true.mp hs p hp

/-- A tag cut at an ASCII separator enters the labels with the text after it as its value. -/
theorem readTag_labelValues {separator : UInt8} (hsep : separator < 0x80) {p : Bytes}
    (hp : validString p = true) {st : TagState} (h : LabelValues st.1) :
    LabelValues (readTag separator p st).1 := by
  rcases Strings.span_cases (fun b => decide (b ≠ separator)) p with
    ⟨-, hsp⟩ | ⟨k, c, v, rfl, -, hc, hsp⟩
  · rw [readTag, hsp]
    exact h
  obtain rfl : c = separator := by simpa using hc
  rw [readTag, hsp]
  dsimp only
  split_ifs
  · exact h
  · intro q hq
    rw [AList.insert_entries] at hq
    rcases List.mem_cons.mp hq with rfl | hq
    · exact (validString_of_append_cons hsep hp).2
    · exact h q ((List.kerase_sublist _ _).subset hq)

theorem tagReference_labelValues {separator : UInt8} (hsep : separator < 0x80)
    {prep : Bytes → Bytes} (hprep : ∀ p, validString p = true → validString (prep p) = true)
    {s : Bytes} (hs : validString s = true) {st : TagState} (h : LabelValues st.1) :
    LabelValues (tagReference separator prep s st).1 := by
  have hpieces : ∀ p ∈ tagPieces s, validString p = true := fun p hp =>
    validString_of_mem_split (c := comma) (by decide) hs (by
      unfold tagPieces at hp
      dsimp only at hp
      split_ifs at hp
      exacts [List.dropLast_subset _ hp, hp])
  unfold tagReference
  generalize tagPieces s = ps at hpieces
  induction ps generalizing st with
  | nil => exact h
  | cons p ps ih =>
    exact ih (readTag_labelValues hsep (hprep p (hpieces p (.head _))) h)
      fun q hq => hpieces q (.tail _ hq)

theorem validString_dropHash {p : Bytes} (h : validString p = true) :
    validString (dropHash p) = true := by
  unfold dropHash
  split_ifs with hp
  · obtain ⟨t, rfl⟩ : ∃ t, p = hash :: t := by
      cases p with
      | nil => cases hp
      | cons c t => exact ⟨t, by rw [Option.some.inj hp]⟩
    rwa [validString_ascii_cons _ (by decide)] at h
  · exact h

/-- The tags of a valid name part have valid values. -/
theorem nameAndTags_labelValues {name : Bytes} (hn : validString name = true) :
    LabelValues (nameAndTags name (∅, .zero)).2.1 := by
  rcases Strings.span_cases (fun b => !(b == hash || b == comma)) name with
    ⟨-, hsp⟩ | ⟨k, c, tags, rfl, -, hc, hsp⟩
  · rw [nameAndTags, hsp]
    exact labelValues_empty
  have hc' : c < 0x80 := by
    simp only [Bool.not_eq_false', Bool.or_eq_true, beq_iff_eq] at hc
    rcases hc with rfl | rfl <;> decide
  rw [nameAndTags, hsp]
  exact tagReference_labelValues (by decide) (fun _ h => h)
    (validString_of_append_cons hc' hn).2 labelValues_empty

/-! ### Tags as a client writes them -/

/-- Tags as a client writes them, `k₁<sep>v₁,k₂<sep>v₂,…`. It is not in the sources: it is the
    form of tag list the parsers read, used to say what they recover. -/
def renderTags (separator : UInt8) (ps : List (Bytes × Bytes)) : Bytes :=
  [comma].intercalate (ps.map fun p => p.1 ++ separator :: p.2)

/-- A byte that is no label character is in no label name. -/
theorem not_mem_of_isLabelName {k : Bytes} (h : IsLabelName k) {c : UInt8}
    (hc : isLabelChar c.toNat = false) : c ∉ k := fun hm => by
  obtain ⟨_, _, _, _, hall⟩ := h
  rw [hall c hm] at hc
  cases hc

/-- One tag `k<sep>v` with a label-name key and a value enters the labels under `k`. -/
theorem readTag_render {separator : UInt8} (hsep : isLabelChar separator.toNat = false)
    {k v : Bytes} (hk : IsLabelName k) (hv : v ≠ []) (st : TagState) :
    readTag separator (k ++ separator :: v) st = (st.1.insert k v, st.2) := by
  have hk0 : k ≠ [] := by
    obtain ⟨b, t, rfl, -⟩ := hk
    exact List.cons_ne_nil _ _
  rw [readTag, Strings.span_append_cons (q := fun x => decide (x ≠ separator))
      (fun b hb => decide_eq_true fun (e : b = separator) =>
        not_mem_of_isLabelName hk hsep (e ▸ hb))
      (by simp)]
  dsimp only
  rw [if_neg (by simp [hk0, hv]), escapeMetricName_of_isLabelName hk]

/-- A label name does not start with `#`. -/
theorem dropHash_render {k : Bytes} (hk : IsLabelName k) (t : Bytes) :
    dropHash (k ++ t) = k ++ t := by
  obtain ⟨b, u, rfl, -, hall⟩ := hk
  rw [dropHash, if_neg]
  rw [List.cons_append, List.head?_cons, Option.some.injEq]
  rintro rfl
  exact absurd (hall hash (.head _)) (by decide)

/-- Written tags split back into the tags. -/
theorem tagPieces_render {separator : UInt8} (hsc : separator ≠ comma) (ps : List (Bytes × Bytes))
    (hk : ∀ p ∈ ps, IsLabelName p.1) (hv : ∀ p ∈ ps, comma ∉ p.2) :
    tagPieces (renderTags separator ps) = ps.map fun p => p.1 ++ separator :: p.2 := by
  cases ps with
  | nil => rfl
  | cons p ps =>
    have hnc : ∀ s ∈ (p :: ps).map fun p => p.1 ++ separator :: p.2, comma ∉ s := by
      simp only [List.mem_map]
      rintro _ ⟨q, hq, rfl⟩ hc
      rcases List.mem_append.mp hc with hc | hc
      · exact not_mem_of_isLabelName (hk q hq) (by decide) hc
      · rcases List.mem_cons.mp hc with hc | hc
        · exact hsc hc.symm
        · exact hv q hq hc
    rw [tagPieces, renderTags, Strings.split_intercalate hnc (by simp), if_neg]
    intro h
    obtain ⟨q, -, hq⟩ := List.mem_map.mp (List.mem_of_getLast?_eq_some h)
    simp at hq

/-- Written tags read back as the labels they name, in order, with no tag error. -/
theorem tagReference_render {separator : UInt8} (hsep : isLabelChar separator.toNat = false)
    (hsc : separator ≠ comma) {prep : Bytes → Bytes}
    (hprep : ∀ k t, IsLabelName k → prep (k ++ t) = k ++ t) (ps : List (Bytes × Bytes))
    (hk : ∀ p ∈ ps, IsLabelName p.1) (hv : ∀ p ∈ ps, p.2 ≠ [] ∧ comma ∉ p.2) (st : TagState) :
    tagReference separator prep (renderTags separator ps) st =
      (ps.foldl (fun l p => l.insert p.1 p.2) st.1, st.2) := by
  rw [tagReference, tagPieces_render hsc ps hk fun p hp => (hv p hp).2, List.foldl_map]
  induction ps generalizing st with
  | nil => rfl
  | cons p ps ih =>
    rw [List.foldl_cons, List.foldl_cons, hprep _ _ (hk p (.head _)),
      readTag_render hsep (hk p (.head _)) (hv p (.head _)).1]
    exact ih (fun q hq => hk q (.tail _ hq)) (fun q hq => hv q (.tail _ hq)) _

/-- Tags written `k₁=v₁,k₂=v₂,…` (Librato and InfluxDB) or `k₁:v₁,k₂:v₂,…` (DogStatsD), whose keys
    are label names and whose values are not empty and hold no `,`, read back as those labels in
    order, a later key replacing an earlier one, with no tag error. -/
theorem tagLists_render (ps : List (Bytes × Bytes)) (hk : ∀ p ∈ ps, IsLabelName p.1)
    (hv : ∀ p ∈ ps, p.2 ≠ [] ∧ comma ∉ p.2) (st : TagState) :
    parseNameTags (renderTags equals ps) st =
        some (ps.foldl (fun l p => l.insert p.1 p.2) st.1, st.2) ∧
      parseDogStatsDTags (renderTags colon ps) st =
        some (ps.foldl (fun l p => l.insert p.1 p.2) st.1, st.2) := by
  rw [parseNameTags_eq, parseDogStatsDTags_eq,
    tagReference_render (by decide) (by decide) (fun _ _ _ => rfl) ps hk hv,
    tagReference_render (by decide) (by decide) (fun k t hk => dropHash_render hk t) ps hk hv]
  exact ⟨rfl, rfl⟩

theorem tagLists_render_env :
    ((∀ p ∈ [(ascii "env", ascii "prod")], IsLabelName p.1) ∧
      ∀ p ∈ [(ascii "env", ascii "prod")], p.2 ≠ [] ∧ comma ∉ p.2) ∧
    parseNameTags (renderTags equals [(ascii "env", ascii "prod")]) ((∅ : Labels), Counters.zero) =
        some ([(ascii "env", ascii "prod")].foldl (fun l p => l.insert p.1 p.2) ∅, Counters.zero) ∧
      parseDogStatsDTags (renderTags colon [(ascii "env", ascii "prod")])
          ((∅ : Labels), Counters.zero) =
        some ([(ascii "env", ascii "prod")].foldl (fun l p => l.insert p.1 p.2) ∅, Counters.zero) :=
  have hk : ∀ p ∈ [(ascii "env", ascii "prod")], IsLabelName p.1 := by
    simp only [List.mem_singleton]
    rintro _ rfl
    exact ⟨_, _, rfl, by decide, by decide⟩
  have hv : ∀ p ∈ [(ascii "env", ascii "prod")], p.2 ≠ [] ∧ comma ∉ p.2 := by decide
  ⟨⟨hk, hv⟩, tagLists_render _ hk hv _⟩

end StatsdBridge.Line
