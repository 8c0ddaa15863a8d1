import ArenaVariations.Proofs.Yaml.Token.Scalar
import ArenaVariations.Proofs.Yaml.Tree

/-!
# Reading values on one line

A value that is written on one line is read as tokens that spell it, inside of flow collections
and on a line of a block. The parts of a collection are read one after another, up to the bracket
or brace that closes it; `Encloses` covers both sorts of collections.
-/

namespace ArenaVariations.Yaml

namespace Value

theorem toList_flow_sequence (items : List Value) : (sequence items).flow.toList =
    '[' :: ([',', ' '].intercalate (items.map fun v => v.flow.toList) ++ [']']) := by
  rw [flow_sequence, Flow.list]
  simp [Function.comp_def]

theorem toList_flow_mapping (entries : List (Value × Value)) : (mapping entries).flow.toList =
    '\x7b' :: ([',', ' '].intercalate (entries.map fun e =>
      e.1.scalarLine.toList ++ ':' :: ' ' :: e.2.flow.toList) ++ ['\x7d']) := by
  rw [flow_mapping, Flow.map]
  simp [Function.comp_def]

theorem toList_flow_tagged (tag : String) (v : Value) :
    (tagged tag v).flow.toList = '!' :: tag.toList ++ ' ' :: v.flow.toList := by
  simp [flow_tagged]

end Value

namespace TokenState

variable {s : TokenState} {depth : Nat} {rest : List Char}

/-- Characters that enclose a flow collection, and their tokens. -/
structure Encloses (opening closing : Char) (first last : Token) : Prop where
  solid : IsSolid opening
  solidEnd : IsSolid closing
  indicator : isFlowIndicator closing = true
  opens {s : TokenState} {rest : List Char} (found : s.place.rest = opening :: rest) :
    s.next opening = s.openFlow first
  closes {s : TokenState} {rest : List Char} (found : s.place.rest = closing :: rest) :
    s.next closing = s.closeFlow last

theorem encloses_brackets : Encloses '[' ']' .flowSequence .flowSequenceEnd :=
  ⟨⟨rfl, rfl, by decide, by decide⟩, ⟨rfl, rfl, by decide, by decide⟩, rfl, next_bracket,
    next_bracketEnd⟩

theorem encloses_braces : Encloses '\x7b' '\x7d' .flowMapping .flowMappingEnd :=
  ⟨⟨rfl, rfl, by decide, by decide⟩, ⟨rfl, rfl, by decide, by decide⟩, rfl, next_brace,
    next_braceEnd⟩

/-- A part of a collection is read as some tokens and those of a value. -/
def ReadsPart (text : List Char) (before : List Token) (v : Value) : Prop :=
  ∀ {s : TokenState} {depth : Nat} {rest : List Char}, s.Idle → s.outerKeys.length = depth + 1 →
    s.keyAllowed = true → s.place.rest = text ++ rest → Stops true rest →
    ∃ tokens, Spelled .brackets v tokens ∧ s.Scans (depth + 1) rest (before ++ tokens)

section Parts

variable {α : Type} {text : α → List Char} {before : α → List Token} {value : α → Value}
  {parts : List α} {opening closing : Char} {first last : Token}

/-- The parts after the first, each behind a comma. -/
theorem Idle.flowRest (idle : s.Idle) (inside : s.outerKeys.length = depth + 1)
    (encloses : Encloses opening closing first last)
    (each : ∀ a ∈ parts, ReadsPart (text a) (before a) (value a))
    (found : s.place.rest = (parts.flatMap fun a => [',', ' '] ++ text a) ++ closing :: rest) :
    ∃ spelled : List (α × List Token), spelled.map Prod.fst = parts ∧
      (∀ p ∈ spelled, Spelled .brackets (value p.1) p.2) ∧
      s.Scans depth rest
        ((spelled.flatMap fun p => [Token.flowEntry] ++ (before p.1 ++ p.2)) ++ [last]) := by
  induction parts generalizing s with
  | nil =>
    exact ⟨[], rfl, nofun, idle.closeFlow inside found encloses.solidEnd (encloses.closes found)⟩
  | cons a parts ih =>
    obtain ⟨part, others⟩ := List.forall_mem_cons.mp each
    rw [List.flatMap_cons, List.append_assoc, List.append_assoc] at found
    obtain ⟨t, toComma, comma, allowed⟩ := (idle.ready inside).comma found
    obtain ⟨u, toSpace, space, kept, -⟩ := comma.idle.space comma.rest_eq
    rw [comma.depth_eq, inside] at space
    have stops : Stops true ((parts.flatMap fun a => [',', ' '] ++ text a) ++ closing :: rest) := by
      cases parts with
      | nil => exact .indicator rfl encloses.indicator _
      | cons => exact .indicator rfl rfl _
    obtain ⟨tokens, spells, v, toValue, passed⟩ :=
      part space.idle space.depth_eq (kept.trans allowed) space.rest_eq stops
    obtain ⟨spelled, rfl, spell, scans⟩ := ih passed.idle passed.depth_eq others passed.rest_eq
    obtain ⟨w, toEnd, finished⟩ := scans
    refine ⟨(a, tokens) :: spelled, rfl, List.forall_mem_cons.mpr ⟨spells, spell⟩, w,
      ((toComma.trans toSpace).trans toValue).trans toEnd, ?_⟩
    simpa using ((comma.trans space).trans passed).trans finished

/-- A flow collection is read part by part. -/
theorem Ready.flowParts (ready : s.Ready) (before : α → List Token) (value : α → Value)
    (encloses : Encloses opening closing first last)
    (each : ∀ a ∈ parts, ReadsPart (text a) (before a) (value a))
    (found : s.place.rest =
      opening :: ([',', ' '].intercalate (parts.map text) ++ closing :: rest)) :
    ∃ spelled : List (α × List Token), spelled.map Prod.fst = parts ∧
      (∀ p ∈ spelled, Spelled .brackets (value p.1) p.2) ∧
      s.Scans s.outerKeys.length rest (first ::
        [Token.flowEntry].intercalate (spelled.map fun p => before p.1 ++ p.2) ++ [last]) := by
  obtain ⟨t, toOpen, opened, allowed⟩ := ready.openFlow found encloses.solid (encloses.opens found)
  have inside := opened.depth_eq
  cases parts with
  | nil =>
    obtain ⟨u, toEnd, closed⟩ := opened.idle.closeFlow inside opened.rest_eq encloses.solidEnd
      (encloses.closes opened.rest_eq)
    exact ⟨[], rfl, nofun, u, toOpen.trans toEnd, opened.trans closed⟩
  | cons a parts =>
    obtain ⟨part, others⟩ := List.forall_mem_cons.mp each
    have start := opened.rest_eq
    rw [List.map_cons, intercalate_cons, List.flatMap_map, List.append_assoc] at start
    have stops : Stops true ((parts.flatMap fun a => [',', ' '] ++ text a) ++ closing :: rest) := by
      cases parts with
      | nil => exact .indicator rfl encloses.indicator _
      | cons => exact .indicator rfl rfl _
    obtain ⟨tokens, spells, u, toValue, passed⟩ := part opened.idle inside allowed start stops
    obtain ⟨spelled, rfl, spell, v, toEnd, finished⟩ :=
      passed.idle.flowRest passed.depth_eq encloses others passed.rest_eq
    refine ⟨(a, tokens) :: spelled, rfl, List.forall_mem_cons.mpr ⟨spells, spell⟩, v,
      (toOpen.trans toValue).trans toEnd, ?_⟩
    rw [List.map_cons, intercalate_cons, List.flatMap_map]
    simpa using (opened.trans passed).trans finished

end Parts

/-- A value inside of a flow collection is read up to what follows it. -/
def ReadsFlow (v : Value) : Prop :=
  ∀ {s : TokenState} {depth : Nat} {rest : List Char}, s.Idle → s.outerKeys.length = depth + 1 →
    s.place.rest = v.flow.toList ++ rest → Stops true rest →
    ∃ tokens, Spelled .brackets v tokens ∧ s.Scans (depth + 1) rest tokens

theorem inFlow_of_length (inside : s.outerKeys.length = depth + 1) : s.inFlow = true := by
  cases outer : s.outerKeys with
  | nil => simp [outer] at inside
  | cons => simp [inFlow, outer]

/-- An entry of a mapping is read as its key and its value. -/
theorem readsPart_entry {key v : Value} (legible : key.LegibleAt ⟨true, true⟩) (h : ReadsFlow v) :
    ReadsPart (key.scalarLine.toList ++ ':' :: ' ' :: v.flow.toList)
      [.key, .scalar (key.scalarText true), .value] v := by
  intro s depth rest idle inside allowed found stops
  have flow := inFlow_of_length inside
  have form : ScalarForm s.inFlow key.scalarLine.toList (key.scalarText true) := by
    rw [flow]
    exact legible.form
  have start : s.place.rest = key.scalarLine.toList ++ ':' :: (' ' :: v.flow.toList ++ rest) := by
    rw [found]
    simp
  obtain ⟨t, toKey, after, -⟩ := idle.mappingKey (idle.ready inside |>.column · |>.le) allowed
    form (legible.isKeyText rfl) start (by simp [atBlank, isBlank])
  have same : s.roll s.place.mark.column s.count .blockMapping = s := by
    rw [roll, flow]
    rfl
  rw [same, inside] at after
  obtain ⟨u, toSpace, space, -⟩ := after.idle.space after.rest_eq
  rw [after.depth_eq] at space
  obtain ⟨tokens, spells, v, toValue, passed⟩ := h space.idle space.depth_eq space.rest_eq stops
  exact ⟨tokens, spells, v, (toKey.trans toSpace).trans toValue, (after.trans space).trans passed⟩

theorem Ready.flowSequence (ready : s.Ready) {mode : Mode} {items : List Value}
    (inline : mode.items items = .brackets) (each : ∀ v ∈ items, ReadsFlow v)
    (found : s.place.rest = (Value.sequence items).flow.toList ++ rest) :
    ∃ tokens, Spelled mode (.sequence items) tokens ∧ s.Scans s.outerKeys.length rest tokens := by
  have start : s.place.rest =
      '[' :: ([',', ' '].intercalate (items.map fun v => v.flow.toList) ++ ']' :: rest) := by
    rw [found, Value.toList_flow_sequence]
    simp
  obtain ⟨spelled, rfl, spell, scans⟩ := ready.flowParts (fun _ => []) id encloses_brackets
    (fun v mem => fun idle inside _ => each v mem idle inside) start
  exact ⟨_, .flowSequence inline spell, scans⟩

theorem Ready.flowMapping (ready : s.Ready) {mode : Mode} {entries : List (Value × Value)}
    (inline : mode.entries entries = .brackets)
    (keys : ∀ e ∈ entries, e.1.LegibleAt (mode.entries entries).key)
    (each : ∀ e ∈ entries, ReadsFlow e.2)
    (found : s.place.rest = (Value.mapping entries).flow.toList ++ rest) :
    ∃ tokens, Spelled mode (.mapping entries) tokens ∧ s.Scans s.outerKeys.length rest tokens := by
  have start : s.place.rest = '\x7b' :: ([',', ' '].intercalate (entries.map fun e =>
      e.1.scalarLine.toList ++ ':' :: ' ' :: e.2.flow.toList) ++ '\x7d' :: rest) := by
    rw [found, Value.toList_flow_mapping]
    simp
  have inner : ∀ e ∈ entries, e.1.LegibleAt Mode.brackets.key := inline ▸ keys
  obtain ⟨spelled, rfl, spell, scans⟩ := ready.flowParts _ _ encloses_braces
    (fun e mem => readsPart_entry (inner e mem) (each e mem)) start
  have spells := @Spelled.flowMapping mode (spelled.map fun p => (p.1.1, p.1.2, p.2))
    (by simpa [Function.comp_def] using inline) (List.forall_mem_map.mpr spell)
  simp only [List.map_map, Function.comp_def] at spells
  exact ⟨_, spells, scans⟩

/-- A tag is read together with the blank between it and its value. -/
theorem Ready.tagSpace (ready : s.Ready) {tag : String} (name : Value.IsTagName tag)
    (found : s.place.rest = '!' :: tag.toList ++ ' ' :: rest) :
    ∃ t, s.Reaches t ∧ s.After s.outerKeys.length rest [.tag ⟨['!'], tag.toList.map some⟩] t ∧
      t.Ready := by
  obtain ⟨t, reaches, after, further⟩ := ready.tag name found (by simp [atBlank, isBlank])
  obtain ⟨u, passes, space, -, next⟩ := after.idle.space after.rest_eq
  rw [after.depth_eq] at space
  have behind := after.trans space
  exact ⟨u, reaches.trans passes, behind,
    behind.ready ready List.length_eq_zero_iff.mp (by omega)⟩

/-- A legible value is read back where it stands in a flow collection. -/
theorem readsFlow {mode : Mode} {v : Value} (legible : v.LegibleIn mode)
    (inside : mode = .brackets) : ReadsFlow v := by
  induction legible with
  | @scalar mode v legible =>
    subst inside
    intro s depth rest idle deep found stops
    have flow := inFlow_of_length deep
    rw [Value.flow_of_isScalar legible.isScalar] at found
    have form : ScalarForm s.inFlow v.scalarLine.toList (v.scalarText true) := by
      rw [flow]
      exact legible.form
    have scans := (idle.ready deep).scalar form found (flow ▸ stops)
    exact ⟨_, .scalar legible.isScalar, deep ▸ scans⟩
  | @sequence mode items _ ih =>
    have inline : mode.items items = .brackets := Mode.items_eq_brackets (inside ▸ nofun)
    intro s depth rest idle deep found _
    rw [← deep]
    exact (idle.ready deep).flowSequence (inside ▸ inline) (fun v mem => ih v mem inline) found
  | @mapping mode entries keys _ _ ih =>
    have inline : mode.entries entries = .brackets := Mode.entries_eq_brackets (inside ▸ nofun)
    intro s depth rest idle deep found _
    rw [← deep]
    exact (idle.ready deep).flowMapping (inside ▸ inline) (inside ▸ keys)
      (fun e mem => ih e mem inline) found
  | @tagged mode tag name v untagged _ ih =>
    subst inside
    intro s depth rest idle deep found stops
    have start : s.place.rest = '!' :: tag.toList ++ ' ' :: (v.flow.toList ++ rest) := by
      rw [found, Value.toList_flow_tagged]
      simp
    obtain ⟨t, toTag, after, -⟩ := (idle.ready deep).tagSpace name start
    rw [deep] at after
    obtain ⟨tokens, spells, u, toValue, passed⟩ :=
      ih (Mode.below_brackets tag) after.idle after.depth_eq after.rest_eq stops
    exact ⟨_, .tagged tag untagged (Mode.below_brackets tag ▸ spells), u, toTag.trans toValue,
      after.trans passed⟩

/-- A state with more tokens. -/
def emits (s : TokenState) (tokens : List Token) : TokenState :=
  { s with tokens := tokens.reverse ++ s.tokens, count := s.count + tokens.length }

theorem emits_emits (s : TokenState) (first second : List Token) :
    (s.emits first).emits second = s.emits (first ++ second) := by
  simp [emits, Nat.add_assoc]

/-- Behind a line, nothing is left of the state on the line but its tokens and blocks. -/
theorem After.emits_freshLine {t : TokenState} {before : List Token}
    (h : s.After depth rest before t) (after : List Token) (line column : Nat) (tail : List Char) :
    (t.emits after).freshLine line column tail =
      (s.emits (before ++ after)).freshLine line column tail := by
  rw [← emits_emits]
  simp only [freshLine, emits, h.indent_eq, h.outerIndents_eq, h.tokens_eq, h.count_eq]

/-- A line ends behind some tokens. -/
theorem Scans.lineEnd {tokens : List Token} (scans : s.Scans s.outerKeys.length rest tokens)
    (outside : s.outerKeys = []) {column : Int} {tail : List Char}
    (ended : LineEnd column rest tail) :
    ∃ line, s.Reaches ((s.emits tokens).freshLine line 0 tail) := by
  obtain ⟨t, reaches, after⟩ := scans
  rw [← after.rest_eq] at ended
  obtain ⟨line, ends⟩ := after.idle.lineEnd (by simpa [outside] using after.depth_eq) ended
  have same := after.emits_freshLine [] line 0 tail
  rw [List.append_nil] at same
  exact ⟨line, reaches.trans (same ▸ ends)⟩

/-- A legible value is read back where it stands on the rest of a line. -/
theorem Ready.valueEnd {mode : Mode} {v : Value} (ready : s.Ready) (outside : s.outerKeys = [])
    (legible : v.LegibleIn mode) (unclosed : mode ≠ .brackets) (onLine : mode.OnLine v)
    {tail : List Char} (found : s.place.rest = v.flow.toList ++ rest)
    (ended : LineEnd s.indent rest tail) :
    ∃ line tokens, Spelled mode v tokens ∧ s.Reaches ((s.emits tokens).freshLine line 0 tail) := by
  induction legible generalizing s with
  | @scalar mode v legible =>
    rw [Mode.value_of_ne_brackets unclosed] at legible
    rw [Value.flow_of_isScalar legible.isScalar] at found
    obtain ⟨line, reaches⟩ := ready.scalarEnd outside legible.form found ended
    exact ⟨line, _, .scalar legible.isScalar, reaches⟩
  | @sequence mode items each =>
    obtain ⟨tokens, spells, scans⟩ := ready.flowSequence onLine.items_eq
      (fun v mem => readsFlow (each v mem) onLine.items_eq) found
    obtain ⟨line, reaches⟩ := scans.lineEnd outside ended
    exact ⟨line, tokens, spells, reaches⟩
  | @mapping mode entries keys _ values =>
    obtain ⟨tokens, spells, scans⟩ := ready.flowMapping onLine.entries_eq keys
      (fun e mem => readsFlow (values e mem) onLine.entries_eq) found
    obtain ⟨line, reaches⟩ := scans.lineEnd outside ended
    exact ⟨line, tokens, spells, reaches⟩
  | @tagged mode tag name v untagged _ ih =>
    have start : s.place.rest = '!' :: tag.toList ++ ' ' :: (v.flow.toList ++ rest) := by
      rw [found, Value.toList_flow_tagged]
      simp
    obtain ⟨t, toTag, after, ready⟩ := ready.tagSpace name start
    obtain ⟨line, tokens, spells, reaches⟩ := ih ready (by simpa [outside] using after.depth_eq)
      (Mode.below_ne_brackets unclosed tag) onLine.below after.rest_eq (after.indent_eq ▸ ended)
    rw [after.emits_freshLine] at reaches
    exact ⟨line, _, .tagged tag untagged spells, toTag.trans reaches⟩

end TokenState

end ArenaVariations.Yaml
