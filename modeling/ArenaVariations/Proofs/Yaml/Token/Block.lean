import ArenaVariations.Proofs.Yaml.Token.Flow

/-!
# Reading blocks

A value that is laid out in lines is read as tokens that spell it. `Layout.renderAfter` is the text
of a layout behind a line's beginning: behind a dash, behind the indentation below a key or a tag,
or at the start of a document. The items and entries of a block are read one after another, and the
block ends before a line that is indented less.
-/

namespace ArenaVariations

namespace Layout

/-- Whether a layout consists of lines below its key or dash, without a tag. -/
def isBlock : Layout → Bool
  | items none _ | entries none _ => true
  | _ => false

/-- Write a layout whose first line has begun; its lines are indented to a column. -/
def renderAfter (indent : Nat) : Layout → List Char
  | line text => text.toList ++ ['\n']
  | l@(items (some tag) _) | l@(entries (some tag) _) =>
    '!' :: tag.toList ++ '\n' :: renderBody indent l
  | l@(items none _) | l@(entries none _) => (renderBody indent l).drop indent

theorem renderItems_eq (indent : Nat) (ls : List Layout) :
    renderItems indent ls =
      ls.flatMap fun l => margin indent ++ ('-' :: ' ' :: renderAfter (indent + 2) l) := by
  induction ls with
  | nil => rfl
  | cons l ls ih =>
    rw [List.flatMap_cons, ← ih]
    cases l with
    | line text => simp [renderItems, renderAfter]
    | items tag | entries tag => cases tag <;> simp [renderItems, renderAfter]

theorem renderEntries_eq (indent : Nat) (fields : List (String × Layout)) :
    renderEntries indent fields = fields.flatMap (renderEntry indent) := by
  induction fields with
  | nil => rfl
  | cons e es ih => rw [renderEntries, ih, List.flatMap_cons]

theorem render_eq (l : Layout) : l.render = String.ofList (l.renderAfter 0) := by
  cases l with
  | line text => rfl
  | items tag | entries tag => cases tag <;> rfl

/-- What stands between the colon of a key and its value. -/
def gap (indent : Nat) (l : Layout) : List Char :=
  if l.isBlock then '\n' :: margin indent else [' ']

/-- The lines of a block are indented, and the first one starts with a token. -/
structure Starts (indent : Nat) (l : Layout) : Prop where
  body : renderBody indent l = margin indent ++ l.renderAfter indent
  solid : ∃ c more, l.renderAfter indent = c :: more ∧ Yaml.IsSolid c

/-- What stands behind the indentation of a block's first line. -/
theorem renderAfter_of_body {indent : Nat} {l : Layout} (block : l.isBlock = true)
    {rest : List Char} (body : renderBody indent l = margin indent ++ rest) :
    l.renderAfter indent = rest := by
  have dropped : l.renderAfter indent = (renderBody indent l).drop indent := by
    cases l with
    | line => cases block
    | items tag | entries tag =>
      cases tag with
      | none => rfl
      | some => cases block
  rw [dropped, body]
  simp [margin]

theorem starts_of_eq {indent : Nat} {l : Layout} (block : l.isBlock = true) {c : Char}
    (solid : Yaml.IsSolid c) (body : ∃ more, renderBody indent l = margin indent ++ c :: more) :
    l.Starts indent := by
  obtain ⟨more, body⟩ := body
  have after : l.renderAfter indent = c :: more := renderAfter_of_body block body
  exact ⟨by rw [body, after], c, more, after, solid⟩

theorem renderEntry_eq (indent : Nat) (key : String) {l : Layout}
    (starts : l.isBlock = true → l.Starts (indent + 2)) :
    renderEntry indent (key, l) = margin indent ++
      (key.toList ++ ':' :: (l.gap (indent + 2) ++ l.renderAfter (indent + 2))) := by
  cases l with
  | line text => simp [renderEntry, renderAfter, gap, isBlock]
  | items tag | entries tag =>
    cases tag with
    | some tag => simp [renderEntry, renderAfter, gap, isBlock]
    | none => simp [renderEntry, gap, isBlock, (starts rfl).body]

theorem renderAfter_under (tag : String) {l : Layout} (block : l.isBlock = true) (indent : Nat) :
    (l.under tag).renderAfter indent = '!' :: tag.toList ++ '\n' :: renderBody indent l := by
  cases l with
  | line => cases block
  | items | entries => rfl

/-- An entry starts with its key. -/
theorem renderEntry_head (indent : Nat) (key : String) (l : Layout) :
    ∃ rest, renderEntry indent (key, l) = margin indent ++ key.toList ++ ':' :: rest := by
  cases l with
  | line text => exact ⟨_, by rw [renderEntry]⟩
  | items tag | entries tag =>
    cases tag with
    | none => exact ⟨_, by rw [renderEntry]⟩
    | some => exact ⟨_, by rw [renderEntry]⟩

end Layout

namespace Yaml

theorem isSolid_dash : IsSolid '-' :=
  ⟨rfl, rfl, by decide, by decide⟩

namespace Value

theorem layout_of_untagged {v : Value} (untagged : v.isTagged = false) :
    (∃ text, v.layout = .line text) ∨ v.layout.isBlock = true := by
  cases v with
  | sequence vs =>
    rw [layout_sequence_eq]
    split
    · exact .inl ⟨_, rfl⟩
    · exact .inr rfl
  | mapping entries =>
    rw [layout_mapping_eq]
    split
    · exact .inl ⟨_, rfl⟩
    · exact .inr rfl
  | tagged => cases untagged
  | null | bool | int | float | text => exact .inl ⟨_, rfl⟩

/-- The text of an item behind the indentation. -/
def itemText (indent : Nat) (v : Value) : List Char :=
  '-' :: ' ' :: v.layout.renderAfter (indent + 2)

/-- The text of an entry behind the indentation. -/
def entryText (indent : Nat) (e : Value × Value) : List Char :=
  e.1.keyLine.toList ++ ':' :: (e.2.layout.gap (indent + 2) ++ e.2.layout.renderAfter (indent + 2))

theorem renderItems_layout (indent : Nat) (vs : List Value) :
    Layout.renderItems indent (vs.map layout) =
      vs.flatMap fun v => Layout.margin indent ++ v.itemText indent := by
  rw [Layout.renderItems_eq, List.flatMap_map]
  rfl

/-- A legible value that is laid out as a block has lines. -/
theorem LegibleIn.starts {v : Value} (legible : v.LegibleIn .lines)
    (block : v.layout.isBlock = true)
    (indent : Nat) : v.layout.Starts indent := by
  cases legible with
  | scalar legible =>
    rw [layout_of_isScalar legible.isScalar] at block
    cases block
  | @sequence _ items each =>
    cases leaves : items.all isLeaf with
    | true =>
      rw [layout_sequence_of_all leaves] at block
      cases block
    | false =>
      rw [layout_sequence leaves]
      cases items with
      | nil => cases leaves
      | cons v vs =>
        refine Layout.starts_of_eq rfl isSolid_dash ?_
        rw [Layout.renderBody, renderItems_layout, List.flatMap_cons, List.append_assoc]
        exact ⟨_, rfl⟩
  | @mapping _ entries keys _ values =>
    cases entries with
    | nil => cases block
    | cons e es =>
      obtain ⟨key, value⟩ := e
      have filled : (key, value) :: es ≠ [] := List.cons_ne_nil _ _
      have legible : key.LegibleAt Mode.lines.key :=
        Mode.entries_lines filled ▸ keys _ List.mem_cons_self
      obtain ⟨c, more, first, solid⟩ := legible.form.head
      change key.keyLine.toList = c :: more at first
      rw [layout_mapping filled]
      obtain ⟨rest, head⟩ := Layout.renderEntry_head indent key.keyLine value.layout
      refine Layout.starts_of_eq rfl solid ?_
      rw [Layout.renderBody, List.map_cons, Layout.renderEntries, head, first, List.append_assoc,
        List.append_assoc]
      exact ⟨_, rfl⟩
  | @tagged _ tag _ v =>
    rw [layout_tagged_eq] at block
    split at block
    · cases block
    · cases inner : v.layout <;> rw [inner] at block <;> cases block

theorem renderEntries_layout (indent : Nat) {entries : List (Value × Value)}
    (values : ∀ e ∈ entries, e.2.LegibleIn .lines) :
    Layout.renderEntries indent (entries.map fun e => (e.1.keyLine, e.2.layout)) =
      entries.flatMap fun e => Layout.margin indent ++ entryText indent e := by
  rw [Layout.renderEntries_eq, List.flatMap_map]
  refine List.flatMap_congr fun e mem => ?_
  rw [Layout.renderEntry_eq _ _ fun block => (values e mem).starts block _]
  rfl

end Value

namespace TokenState

variable {s : TokenState} {column : Nat} {rest tail : List Char}

theorem roll_of_le (le : (column : Int) ≤ s.indent) (position : Nat) (t : Token) :
    s.roll column position t = s := by
  rw [roll, if_pos (.inr le)]

theorem roll_of_lt (outside : s.outerKeys = []) (lt : s.indent < column) (t : Token) :
    s.roll column s.count t =
      { s with indent := column, outerIndents := s.indent :: s.outerIndents }.emits [t] := by
  rw [roll, if_neg (by simp [inFlow, outside, lt])]
  simp [insert, emits]

theorem roll_indent (outside : s.outerKeys = []) (le : s.indent ≤ column) (t : Token) :
    (s.roll column s.count t).indent = column := by
  obtain lt | eq := le.lt_or_eq
  · rw [roll_of_lt outside lt]
    rfl
  · rw [roll_of_le eq.ge, eq]

/-- On a line of a block, where a key or a dash may stand. -/
structure AtStart (s : TokenState) (column : Nat) (rest : List Char) : Prop extends Idle s where
  outside : s.outerKeys = []
  allowed : s.keyAllowed = true
  column_eq : s.place.mark.column = column
  rest_eq : s.place.rest = rest

theorem atStart_freshLine (s : TokenState) (line column : Nat) (rest : List Char) :
    (s.freshLine line column rest).AtStart column rest :=
  ⟨⟨nofun, nofun⟩, rfl, rfl, rfl, rfl⟩

theorem AtStart.ready (start : s.AtStart column rest) (indent : s.indent < column) : s.Ready :=
  ⟨start.toIdle, fun _ => by rw [start.column_eq]; exact indent⟩

/-- A dash opens an item. -/
theorem AtStart.dash (start : s.AtStart column ('-' :: ' ' :: rest)) (indent : s.indent ≤ column) :
    ∃ t, s.Reaches t ∧ (s.roll column s.count .blockSequence).After 0 rest [.blockEntry] t ∧
      t.keyAllowed = true ∧ t.place.mark.column = column + 2 := by
  have found := start.rest_eq
  have here := start.toIdle.approached
  have outside : s.approached.outerKeys = [] := by simp [TokenState.approached, start.outside]
  have approached : s.approach = some s.approached :=
    approach_eq found isSolid_dash (fun k mem _ => (start.key k mem).1)
      (fun key mem k inside => (start.outer key mem k inside).1)
      fun _ => start.column_eq.symm ▸ indent
  let opened := s.approached.roll column s.count .blockSequence
  have keyless : ∀ k ∈ opened.key, k.required = false := by
    have same : opened.key = s.approached.key := roll_key ..
    exact fun k mem => (here.key k (same ▸ mem)).1
  let read : TokenState := { opened with key := none, keyAllowed := true }.take 1 .blockEntry
  have scanned : s.approached.next '-' = some read := by
    have allowed : s.approached.keyAllowed = true := start.allowed
    have inFlow : s.approached.inFlow = false := by simp [TokenState.inFlow, outside]
    have place : s.approached.place.mark.column = column := start.column_eq
    rw [next_dash (s := s.approached) found, blockEntry, allowed, inFlow, place]
    simp only [Bool.not_true, Bool.and_false, Bool.false_eq_true, if_false, Option.bind_eq_bind]
    rw [show s.approached.count = s.count from rfl, dropKey_eq keyless]
    rfl
  have place : read.place = s.place.drop 1 := by
    simp [read, TokenState.take, emit, opened, roll_place, TokenState.approached]
  have shorter : read.place.rest = ' ' :: rest := by rw [place]; simp [Place.drop, found]
  have mark : read.place.mark.column = column + 1 := by
    rw [place]
    simp [Place.drop, found, Mark.advance, start.column_eq]
  have reads : s.Reaches read :=
    .token approached found scanned (fun _ => rfl) (by rw [shorter, found]; simp)
  have none : read.outerKeys = [] := (roll_outerKeys ..).trans outside
  have idle : read.Idle :=
    ⟨fun k mem => absurd mem (Option.not_mem_none k), by rw [none]; exact List.forall_mem_nil _⟩
  obtain ⟨t, passes, space, kept, next⟩ := idle.space shorter
  obtain ⟨tokens, count, indents, outers⟩ :=
    roll_behind [] column .blockSequence (inFlow_approached s) rfl rfl rfl rfl
  have after : (s.roll column s.count .blockSequence).After 0 (' ' :: rest) [.blockEntry] read :=
    ⟨shorter, congrArg (Token.blockEntry :: ·) tokens, congrArg (· + 1) count, indents, outers,
      by rw [none]; rfl, idle⟩
  rw [none] at space
  exact ⟨t, reads.trans passes, after.trans space, kept, by rw [next, mark]⟩

/-- A part of a block is read as some tokens and those of a value, up to the next line. -/
structure ReadsLines (opening : Token) (column : Nat) (text : List Char) (before : List Token)
    (v : Value) : Prop where
  solid : ∃ c more, text = c :: more ∧ IsSolid c
  reads {s : TokenState} {rest : List Char} (start : s.AtStart column (text ++ rest))
    (indent : s.indent ≤ column) (follows : Follows column rest) :
    ∃ line tokens, Spelled .lines v tokens ∧ s.Reaches
      (((s.roll column s.count opening).emits (before ++ tokens)).freshLine line 0 rest)

section Parts

variable {α : Type} {text : α → List Char} {before : α → List Token} {value : α → Value}
  {parts : List α} {opening : Token} {below : Int}

theorem follows_parts
    (each : ∀ a ∈ parts, ReadsLines opening column (text a) (before a) (value a))
    (follows : Follows below tail) (deeper : below < column) :
    Follows column ((parts.flatMap fun a => Layout.margin column ++ text a) ++ tail) := by
  cases parts with
  | nil => exact follows.mono deeper.le
  | cons a parts =>
    obtain ⟨c, more, starts, solid⟩ := (each a List.mem_cons_self).solid
    rw [List.flatMap_cons, starts, List.append_assoc, List.append_assoc]
    exact .line le_rfl solid _

/-- The parts after the first, each on lines of its own, and the end of the block. -/
theorem blockRest {outer : Int} {outers : List Int}
    (each : ∀ a ∈ parts, ReadsLines opening column (text a) (before a) (value a))
    (indent : s.indent = column) (outerIndents : s.outerIndents = outer :: outers)
    (follows : Follows below tail) (deeper : below < column) (line : Nat) :
    ∃ (last : Nat) (spelled : List (α × List Token)), spelled.map Prod.fst = parts ∧
      (∀ p ∈ spelled, Spelled .lines (value p.1) p.2) ∧
      (s.freshLine line 0 ((parts.flatMap fun a => Layout.margin column ++ text a) ++ tail)).Reaches
        (({ s with indent := outer, outerIndents := outers }.emits
          ((spelled.flatMap fun p : α × List Token => before p.1 ++ p.2)
            ++ [Token.blockEnd])).freshLine last 0 tail) := by
  induction parts generalizing s line with
  | nil =>
    exact ⟨line, [], rfl, nofun,
      closeBlock follows (by omega) (by omega) outerIndents⟩
  | cons a parts ih =>
    obtain ⟨part, others⟩ := List.forall_mem_cons.mp each
    rw [List.flatMap_cons, List.append_assoc, List.append_assoc]
    obtain ⟨next, tokens, spells, reads⟩ := part.reads
      (atStart_freshLine s line column _) (le_of_eq indent) (follows_parts others follows deeper)
    rw [roll_of_le (s := s.freshLine ..) (le_of_eq indent.symm)] at reads
    obtain ⟨last, spelled, rfl, spell, goes⟩ :=
      ih (s := s.emits (before a ++ tokens)) others indent outerIndents next
    have more := emits_emits { s with indent := outer, outerIndents := outers }
      (before a ++ tokens)
      ((spelled.flatMap fun p : α × List Token => before p.1 ++ p.2) ++ [.blockEnd])
    refine ⟨last, (a, tokens) :: spelled, rfl, List.forall_mem_cons.mpr ⟨spells, spell⟩,
      (enterLine s line column _).trans (reads.trans ?_)⟩
    rw [List.flatMap_cons, List.append_assoc, ← more]
    exact goes

/-- A block is read part by part. -/
theorem AtStart.blockParts (before : α → List Token) (value : α → Value)
    (start : s.AtStart column
      ((parts.flatMap fun a => Layout.margin column ++ text a).drop column ++ tail))
    (filled : parts ≠ []) (indent : s.indent < column)
    (each : ∀ a ∈ parts, ReadsLines opening column (text a) (before a) (value a))
    (follows : Follows s.indent tail) :
    ∃ (last : Nat) (spelled : List (α × List Token)), spelled.map Prod.fst = parts ∧
      (∀ p ∈ spelled, Spelled .lines (value p.1) p.2) ∧
      s.Reaches ((s.emits (opening :: (spelled.flatMap fun p => before p.1 ++ p.2)
        ++ [.blockEnd])).freshLine last 0 tail) := by
  obtain ⟨a, parts, rfl⟩ := List.exists_cons_of_ne_nil filled
  obtain ⟨part, others⟩ := List.forall_mem_cons.mp each
  have text : (((a :: parts).flatMap fun a => Layout.margin column ++ text a).drop column ++ tail) =
      text a ++ ((parts.flatMap fun a => Layout.margin column ++ text a) ++ tail) := by
    simp [Layout.margin]
  rw [text] at start
  obtain ⟨next, tokens, spells, reads⟩ :=
    part.reads start indent.le (follows_parts others follows indent)
  rw [roll_of_lt start.outside indent, emits_emits] at reads
  obtain ⟨last, spelled, rfl, spell, goes⟩ :=
    blockRest (s := { s with
      indent := column, outerIndents := s.indent :: s.outerIndents }.emits
        (opening :: (before a ++ tokens))) others rfl rfl follows indent next
  refine ⟨last, (a, tokens) :: spelled, rfl, List.forall_mem_cons.mpr ⟨spells, spell⟩,
    reads.trans ?_⟩
  have more : s.emits (opening :: (((a, tokens) :: spelled).flatMap fun p => before p.1 ++ p.2)
      ++ [.blockEnd]) = (s.emits (opening :: (before a ++ tokens))).emits
        ((spelled.flatMap fun p => before p.1 ++ p.2) ++ [Token.blockEnd]) := by
    simp [emits_emits]
  rw [more]
  exact goes

end Parts

/-- A value is read where its first line has begun. A block stands at its own column. -/
def ReadsBelow (v : Value) : Prop :=
  ∀ (column : Nat) {s : TokenState} {tail : List Char}, s.Ready → s.outerKeys = [] →
    s.indent < column →
    (v.layout.isBlock = true → s.place.mark.column = column ∧ s.keyAllowed = true) →
    s.place.rest = v.layout.renderAfter column ++ tail → Follows s.indent tail →
    ∃ line tokens, Spelled .lines v tokens ∧ s.Reaches ((s.emits tokens).freshLine line 0 tail)

/-- A block is read on the lines below its key or tag. -/
theorem ReadsBelow.nextLine {v : Value} (h : ReadsBelow v) (starts : v.layout.Starts column)
    (idle : s.Idle) (outside : s.outerKeys = [])
    (indent : s.indent < column)
    (found : s.place.rest =
      '\n' :: (Layout.margin column ++ (v.layout.renderAfter column ++ tail)))
    (follows : Follows s.indent tail) :
    ∃ line tokens, Spelled .lines v tokens ∧
      s.Reaches ((s.emits tokens).freshLine line 0 tail) := by
  obtain ⟨c, more, first, solid⟩ := starts.solid
  have ended : LineEnd column s.place.rest
      (Layout.margin column ++ (v.layout.renderAfter column ++ tail)) := by
    rw [found, first]
    exact .line (.line le_rfl solid _)
  obtain ⟨line, ends⟩ := idle.lineEnd outside ended
  have start := atStart_freshLine s line column (v.layout.renderAfter column ++ tail)
  obtain ⟨last, tokens, spells, reads⟩ :=
    h column (start.ready indent) rfl indent (fun _ => ⟨rfl, rfl⟩) rfl follows
  exact ⟨last, tokens, spells, (ends.trans (enterLine s line column _)).trans reads⟩

/-- An item is read as a dash and its value. -/
theorem ReadsBelow.item {v : Value} (h : ReadsBelow v) (column : Nat) :
    ReadsLines .blockSequence column (v.itemText column) [.blockEntry] v := by
  refine ⟨⟨_, _, rfl, isSolid_dash⟩, fun {s rest} start indent follows => ?_⟩
  obtain ⟨t, reaches, after, allowed, place⟩ := start.dash indent
  have indents : t.indent = column := after.indent_eq.trans (roll_indent start.outside indent _)
  obtain ⟨line, tokens, spells, reads⟩ := h (column + 2) ⟨after.idle, fun _ => by omega⟩
    (List.length_eq_zero_iff.mp after.depth_eq) (by omega) (fun _ => ⟨place, allowed⟩)
    after.rest_eq (indents ▸ follows)
  rw [after.emits_freshLine] at reads
  exact ⟨line, tokens, spells, reaches.trans reads⟩

/-- An entry is read as its key and its value. -/
theorem ReadsBelow.entry {e : Value × Value} (h : ReadsBelow e.2)
    (key : e.1.LegibleAt Mode.lines.key) (legible : e.2.LegibleIn .lines) (column : Nat) :
    ReadsLines .blockMapping column (Value.entryText column e)
      [.key, .scalar (e.1.scalarText false), .value] e.2 := by
  have form : ScalarForm false e.1.keyLine.toList (e.1.scalarText false) := key.form
  obtain ⟨c, more, first, solid⟩ := form.head
  refine ⟨⟨c, _, by rw [Value.entryText, first]; rfl, solid⟩,
    fun {s rest} start indent follows => ?_⟩
  let below := e.2.layout.renderAfter (column + 2) ++ rest
  have found : s.place.rest =
      e.1.keyLine.toList ++ ':' :: (e.2.layout.gap (column + 2) ++ below) := by
    rw [start.rest_eq, Value.entryText]
    simp [below]
  have blank : atBlank (e.2.layout.gap (column + 2) ++ below) = true := by
    rw [Layout.gap]
    split <;> simp [atBlank, isBlank, isBreak]
  have place := start.column_eq
  have here : ScalarForm s.inFlow e.1.keyLine.toList (e.1.scalarText false) := by
    rw [inFlow_eq_false.mpr start.outside]
    exact form
  obtain ⟨t, reaches, after, further⟩ := start.mappingKey (fun _ => place.symm ▸ indent)
    start.allowed here (key.isKeyText rfl) found blank
  rw [place, start.outside] at after
  have indents : t.indent = column := after.indent_eq.trans (roll_indent start.outside indent _)
  have outside := List.length_eq_zero_iff.mp after.depth_eq
  cases block : e.2.layout.isBlock with
  | true =>
    have next : t.place.rest = '\n' :: (Layout.margin (column + 2) ++ below) := by
      rw [after.rest_eq, Layout.gap, if_pos block, List.cons_append]
    obtain ⟨line, tokens, spells, reads⟩ := h.nextLine (legible.starts block _) after.idle outside
      (by omega) next (indents ▸ follows)
    rw [after.emits_freshLine] at reads
    exact ⟨line, tokens, spells, reaches.trans reads⟩
  | false =>
    have next : t.place.rest = ' ' :: below := by
      rw [after.rest_eq, Layout.gap, block]
      rfl
    obtain ⟨u, passes, space, -, beyond⟩ := after.idle.space next
    have passed := after.trans space
    have inner : u.indent = column := space.indent_eq.trans indents
    obtain ⟨line, tokens, spells, reads⟩ := h (column + 2)
      ⟨passed.idle, fun _ => by omega⟩
      (List.length_eq_zero_iff.mp (space.depth_eq.trans after.depth_eq)) (by omega)
      (fun h => by rw [block] at h; cases h) space.rest_eq (inner ▸ follows)
    rw [passed.emits_freshLine] at reads
    exact ⟨line, tokens, spells, (reaches.trans passes).trans reads⟩

theorem readsBelow_of_line {v : Value} (legible : v.LegibleIn .lines) {text : String}
    (line : v.layout = .line text) : ReadsBelow v := by
  intro column s tail ready outside _ _ found follows
  rw [line, Value.eq_flow_of_layout line, Layout.renderAfter, List.append_assoc] at found
  exact ready.valueEnd outside legible nofun (fun _ => ⟨text, line⟩) found (.line follows)

theorem readsBelow_sequence {items : List Value} (deep : items.all Value.isLeaf = false)
    (each : ∀ v ∈ items, ReadsBelow v) : ReadsBelow (.sequence items) := by
  intro column s tail ready outside indent block found follows
  rw [Value.layout_sequence deep] at block found
  obtain ⟨place, allowed⟩ := block rfl
  have filled : items ≠ [] := by
    rintro rfl
    cases deep
  rw [Layout.renderAfter, Layout.renderBody, Value.renderItems_layout] at found
  have start : s.AtStart column _ := ⟨ready.toIdle, outside, allowed, place, found⟩
  obtain ⟨last, spelled, rfl, spell, reads⟩ := start.blockParts (fun _ => [.blockEntry]) id filled
    indent (fun v mem => (each v mem).item column) follows
  exact ⟨last, _, .blockSequence deep spell, reads⟩

theorem readsBelow_mapping {entries : List (Value × Value)} (filled : entries ≠ [])
    (keys : ∀ e ∈ entries, e.1.LegibleAt Mode.lines.key)
    (values : ∀ e ∈ entries, e.2.LegibleIn .lines)
    (each : ∀ e ∈ entries, ReadsBelow e.2) : ReadsBelow (.mapping entries) := by
  intro column s tail ready outside indent block found follows
  rw [Value.layout_mapping filled] at block found
  obtain ⟨place, allowed⟩ := block rfl
  rw [Layout.renderAfter, Layout.renderBody, Value.renderEntries_layout _ values] at found
  have start : s.AtStart column _ := ⟨ready.toIdle, outside, allowed, place, found⟩
  obtain ⟨last, spelled, rfl, spell, reads⟩ := start.blockParts _ _ filled indent
    (fun e mem => (each e mem).entry (keys e mem) (values e mem) column) follows
  have spells := @Spelled.blockMapping (spelled.map fun p => (p.1.1, p.1.2, p.2))
    (by simpa using filled) (List.forall_mem_map.mpr spell)
  simp only [List.map_map, List.flatMap_map, Function.comp_def] at spells
  exact ⟨last, _, spells, reads⟩

theorem readsBelow_tagged {tag : String} (name : Value.IsTagName tag) {v : Value}
    (untagged : v.isTagged = false) (block : v.layout.isBlock = true)
    (below : Mode.lines.below tag = .lines) (legible : v.LegibleIn .lines)
    (under : (Value.tagged tag v).layout = v.layout.under tag) (h : ReadsBelow v) :
    ReadsBelow (.tagged tag v) := by
  intro column s tail ready outside indent _ found follows
  have starts := legible.starts block column
  have start : s.place.rest = '!' :: tag.toList
      ++ '\n' :: (Layout.margin column ++ (v.layout.renderAfter column ++ tail)) := by
    rw [found, under, Layout.renderAfter_under tag block, starts.body]
    simp
  obtain ⟨t, reaches, after, -⟩ := ready.tag name start (by simp [atBlank, isBreak])
  rw [outside] at after
  obtain ⟨line, tokens, spells, reads⟩ := h.nextLine starts after.idle
    (List.length_eq_zero_iff.mp after.depth_eq) (after.indent_eq ▸ indent) after.rest_eq
    (after.indent_eq ▸ follows)
  rw [after.emits_freshLine] at reads
  exact ⟨line, _, .tagged tag untagged (below.symm ▸ spells), reaches.trans reads⟩

/-- A legible value that is laid out is read back. -/
theorem readsBelow {mode : Mode} {v : Value} (legible : v.LegibleIn mode) (lines : mode = .lines) :
    ReadsBelow v := by
  induction legible with
  | scalar legible =>
    exact readsBelow_of_line (lines ▸ .scalar legible) (Value.layout_of_isScalar legible.isScalar)
  | @sequence mode items each ih =>
    subst lines
    cases leaves : items.all Value.isLeaf with
    | true => exact readsBelow_of_line (.sequence each) (Value.layout_sequence_of_all leaves)
    | false => exact readsBelow_sequence leaves fun v mem => ih v mem (Mode.items_lines leaves)
  | @mapping mode entries keys distinct values ih =>
    subst lines
    cases entries with
    | nil => exact readsBelow_of_line (.mapping keys distinct values) rfl
    | cons e entries =>
      have filled : e :: entries ≠ [] := List.cons_ne_nil _ _
      have below := Mode.entries_lines filled
      exact readsBelow_mapping filled (below ▸ keys) (below ▸ values) fun e mem => ih e mem below
  | @tagged mode tag name v untagged inner ih =>
    subst lines
    have legible := Value.LegibleIn.tagged name untagged inner
    cases inline : Value.isInlineTag tag with
    | true => exact readsBelow_of_line legible (Value.layout_tagged_of_isInlineTag inline v)
    | false =>
      have under := Value.layout_tagged inline v
      have below := Mode.below_lines inline
      obtain ⟨text, line⟩ | block := Value.layout_of_untagged untagged
      · exact readsBelow_of_line legible (by rw [under, line]; rfl)
      · exact readsBelow_tagged name untagged block below (below ▸ inner) under (ih below)

end TokenState

end Yaml
end ArenaVariations
