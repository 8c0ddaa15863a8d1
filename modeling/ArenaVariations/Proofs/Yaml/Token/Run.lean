import ArenaVariations.Proofs.Layout.Value
import ArenaVariations.Yaml.Token.Stream

/-!
# Runs over a text

`TokenState.Reaches` relates two states between tokens if a run from the first goes on as a run
from the second. States reach each other by reading a token, by passing blanks, and by what a new
line changes: possible keys are forgotten, and blocks that are indented more than the line end.

On a line, no possible key is required to be one: `TokenState.Ready` describes the states before a
value on a line, and `TokenState.After` a state that is further on. A quoted text may hold line
breaks, so that what is further on need not be on the same line.
-/

namespace ArenaVariations.Yaml

namespace TokenState

/-- A run from a state goes on as a run from another one, after a step for each token between. -/
def Reaches (s t : TokenState) : Prop :=
  ∃ n, n + t.place.rest.length ≤ s.place.rest.length ∧ ∀ fuel, run (n + fuel) s = run fuel t

namespace Reaches

variable {s t u : TokenState}

theorem trans (first : s.Reaches t) (second : t.Reaches u) : s.Reaches u := by
  obtain ⟨m, before, ran⟩ := first
  obtain ⟨n, after, goes⟩ := second
  refine ⟨m + n, by omega, fun fuel => ?_⟩
  rw [Nat.add_assoc, ran, goes]

/-- States from which every run is the same. -/
theorem of_run_eq (same : ∀ fuel, run fuel s = run fuel t)
    (length : t.place.rest.length ≤ s.place.rest.length) : s.Reaches t :=
  ⟨0, by omega, fun fuel => by rw [Nat.zero_add, same]⟩

end Reaches

/-- A run depends on what is found behind the next gap. -/
theorem run_eq_of_approach_eq {s t : TokenState} (same : s.approach = t.approach) (fuel : Nat) :
    run fuel s = run fuel t := by
  cases fuel with
  | zero => rfl
  | succ fuel => rw [run, run, same]

theorem Reaches.of_approach_eq {s t : TokenState} (same : s.approach = t.approach)
    (length : t.place.rest.length ≤ s.place.rest.length) : s.Reaches t :=
  .of_run_eq (run_eq_of_approach_eq same) length

/-- A token is read. What follows it matters up to the next gap. -/
theorem Reaches.token {s found read t : TokenState} {c : Char} {rest : List Char}
    (approached : s.approach = some found) (next : found.place.rest = c :: rest)
    (scanned : found.next c = some read) (same : ∀ fuel, run fuel read = run fuel t)
    (length : t.place.rest.length < s.place.rest.length) : s.Reaches t := by
  refine ⟨1, by omega, fun fuel => ?_⟩
  rw [Nat.add_comm, run, approached]
  simp only [Option.bind_eq_bind, Option.bind_some, next, scanned]
  exact same fuel

end TokenState

namespace TokenState

theorem skipGap_of_isSolid {c : Char} (solid : IsSolid c) (flow keyAllowed : Bool) (m : Mark)
    (rest : List Char) :
    skipGap flow false keyAllowed m (c :: rest) = (keyAllowed, ⟨c :: rest, m⟩) := by
  have blank := solid.notBlank
  simp only [isBlank, decide_eq_false_iff_not, not_or] at blank
  simp [skipGap, solid.notBreak, blank, solid.notComment, solid.notMark]

theorem skipGap_space (flow keyAllowed : Bool) (m : Mark) (rest : List Char) :
    skipGap flow false keyAllowed m (' ' :: rest) =
      skipGap flow false keyAllowed (m.advance ' ') rest := by
  have : isBreak ' ' = false := rfl
  rw [skipGap, this]
  simp

theorem skipGap_newline (keyAllowed : Bool) (m : Mark) (rest : List Char) :
    skipGap false false keyAllowed m ('\n' :: rest) = skipGap false false true m.nextLine rest := by
  have : isBreak '\n' = true := rfl
  rw [skipGap, this]
  simp

/-- A possible key is on another line, or too long. -/
def Stale (m : Mark) (k : PossibleKey) : Prop :=
  k.mark.line < m.line ∨ k.mark.bytes + 1024 < m.bytes

instance (m : Mark) (k : PossibleKey) : Decidable (Stale m k) :=
  inferInstanceAs (Decidable (_ ∨ _))

/-- A possible key, unless it is stale. -/
def fresh (m : Mark) (key : Option PossibleKey) : Option PossibleKey :=
  key.filter fun k => !decide (Stale m k)

theorem refresh_eq {m : Mark} {key : Option PossibleKey}
    (optional : ∀ k ∈ key, Stale m k → k.required = false) :
    refresh m key = some (fresh m key) := by
  cases key with
  | none => rfl
  | some k =>
    have refreshed : refresh m (some k) =
        if Stale m k then if k.required then none else some none else some (some k) := rfl
    by_cases stale : Stale m k
    · rw [refreshed, if_pos stale, optional k rfl stale, fresh, Option.filter, decide_eq_true stale]
      rfl
    · rw [refreshed, if_neg stale, fresh, Option.filter, decide_eq_false stale]
      rfl

theorem mapM_refresh_eq {m : Mark} {keys : List (Option PossibleKey)}
    (optional : ∀ key ∈ keys, ∀ k ∈ key, Stale m k → k.required = false) :
    keys.mapM (refresh m) = some (keys.map (fresh m)) := by
  induction keys with
  | nil => rfl
  | cons key keys ih =>
    obtain ⟨first, rest⟩ := List.forall_mem_cons.mp optional
    simp [List.mapM_cons, refresh_eq first, ih rest]

theorem mem_of_mem_fresh {m : Mark} {key : Option PossibleKey} {k : PossibleKey}
    (h : k ∈ fresh m key) : k ∈ key :=
  (Option.filter_eq_some_iff.mp h).1

/-- The state before a token that closes no block. -/
def approached (s : TokenState) : TokenState :=
  { s with
    key := fresh s.place.mark s.key, outerKeys := s.outerKeys.map (fresh s.place.mark) }

/-- No possible key is required, and none is on a later line. -/
structure Idle (s : TokenState) : Prop where
  key : ∀ k ∈ s.key, k.required = false ∧ k.mark.line ≤ s.place.mark.line
  outer : ∀ key ∈ s.outerKeys, ∀ k ∈ key, k.required = false ∧ k.mark.line ≤ s.place.mark.line

theorem Idle.approached {s : TokenState} (idle : s.Idle) : s.approached.Idle := by
  refine ⟨fun k mem => idle.key k (mem_of_mem_fresh mem), fun key mem k inside => ?_⟩
  obtain ⟨key, among, rfl⟩ := List.mem_map.mp mem
  exact idle.outer key among k (mem_of_mem_fresh inside)

theorem inFlow_approached (s : TokenState) : s.approached.inFlow = s.inFlow := by
  simp [inFlow, TokenState.approached]

/-- A token stands here that closes no block. -/
theorem approach_eq {s : TokenState} {c : Char} {rest : List Char}
    (found : s.place.rest = c :: rest)
    (solid : IsSolid c) (optional : ∀ k ∈ s.key, Stale s.place.mark k → k.required = false)
    (outer : ∀ key ∈ s.outerKeys, ∀ k ∈ key, k.required = false)
    (column : s.outerKeys = [] → s.indent ≤ s.place.mark.column) :
    s.approach = some s.approached := by
  have skipped : skipGap s.inFlow false s.keyAllowed s.place.mark s.place.rest =
      (s.keyAllowed, s.place) := by
    rw [found, skipGap_of_isSolid solid, ← found]
  have kept : ∀ s : TokenState, (s.outerKeys = [] → s.indent ≤ s.place.mark.column) →
      s.unroll s.place.mark.column = s := by
    intro s column
    rw [unroll]
    split
    · rfl
    case isFalse outside =>
      have := column (by simpa [inFlow] using outside)
      cases s.outerIndents with
      | nil => rfl
      | cons o os => rw [closeBlocks, if_neg (by omega)]
  simp only [approach, skipped, dropStaleKeys, Option.bind_eq_bind, Option.bind_some,
    refresh_eq optional, mapM_refresh_eq fun key mem k inside _ => outer key mem k inside,
    Option.pure_def]
  rw [kept _ (by simpa using column)]
  rfl

/-- Before a value on a line, outside of flow collections it stands further to the right than the
block around it. -/
structure Ready (s : TokenState) : Prop extends Idle s where
  column : s.outerKeys = [] → s.indent < s.place.mark.column

theorem Ready.approach_eq {s : TokenState} (ready : s.Ready) {c : Char} {rest : List Char}
    (found : s.place.rest = c :: rest) (solid : IsSolid c) : s.approach = some s.approached :=
  TokenState.approach_eq found solid (fun k mem _ => (ready.key k mem).1)
    (fun key mem k inside => (ready.outer key mem k inside).1) fun outside =>
      (ready.column outside).le

theorem Ready.approached {s : TokenState} (ready : s.Ready) : s.approached.Ready :=
  ⟨ready.toIdle.approached, fun outside => ready.column (by
    simpa [TokenState.approached] using outside)⟩

/-- A state further on, after some tokens and inside of so many collections. -/
structure After (s : TokenState) (depth : Nat) (rest : List Char) (tokens : List Token)
    (t : TokenState) : Prop where
  rest_eq : t.place.rest = rest
  tokens_eq : t.tokens = tokens.reverse ++ s.tokens
  count_eq : t.count = s.count + tokens.length
  indent_eq : t.indent = s.indent
  outerIndents_eq : t.outerIndents = s.outerIndents
  depth_eq : t.outerKeys.length = depth
  idle : t.Idle

theorem After.trans {s t u : TokenState} {depth deeper : Nat} {middle rest : List Char}
    {before after : List Token} (first : s.After depth middle before t)
    (second : t.After deeper rest after u) : s.After deeper rest (before ++ after) u where
  rest_eq := second.rest_eq
  tokens_eq := by rw [second.tokens_eq, first.tokens_eq, List.reverse_append, List.append_assoc]
  count_eq := by rw [second.count_eq, first.count_eq, List.length_append, Nat.add_assoc]
  indent_eq := second.indent_eq.trans first.indent_eq
  outerIndents_eq := second.outerIndents_eq.trans first.outerIndents_eq
  depth_eq := second.depth_eq
  idle := second.idle

/-- A value may stand further on the line as well. -/
theorem After.ready {s t : TokenState} {depth : Nat} {rest : List Char} {tokens : List Token}
    (h : s.After depth rest tokens t) (ready : s.Ready) (outside : depth = 0 → s.outerKeys = [])
    (further : s.place.mark.column < t.place.mark.column) : t.Ready := by
  refine ⟨h.idle, fun none => ?_⟩
  have := ready.column (outside (by rw [← h.depth_eq, none]; rfl))
  rw [h.indent_eq]
  omega

/-- A text on the rest of a line is read as some tokens. -/
def Scans (s : TokenState) (depth : Nat) (rest : List Char) (tokens : List Token) : Prop :=
  ∃ t, s.Reaches t ∧ s.After depth rest tokens t

/-- The states that a key may follow. -/
def ScansToKey (s : TokenState) (depth : Nat) (rest : List Char) (tokens : List Token) : Prop :=
  ∃ t, s.Reaches t ∧ s.After depth rest tokens t ∧ t.keyAllowed = true

/-- A space is passed. -/
theorem Idle.space {s : TokenState} (idle : s.Idle) {rest : List Char}
    (found : s.place.rest = ' ' :: rest) : ∃ t, s.Reaches t ∧
      s.After s.outerKeys.length rest [] t ∧ t.keyAllowed = s.keyAllowed ∧
      t.place.mark.column = s.place.mark.column + 1 := by
  refine ⟨{ s with place := s.place.drop 1 }, .of_approach_eq ?_ (by simp [Place.drop]), ?_, rfl,
    by simp [Place.drop, found, Mark.advance]⟩
  · simp [approach, found, skipGap_space, Place.drop, inFlow]
  · have line : (s.place.drop 1).mark.line = s.place.mark.line := by
      simp [Place.drop, found, Mark.advance]
    exact ⟨by simp [Place.drop, found], rfl, rfl, rfl, rfl, rfl,
      by simpa only [line] using idle.key, by simpa only [line] using idle.outer⟩

section

variable {s : TokenState} {rest : List Char}

theorem next_bracket (found : s.place.rest = '[' :: rest) :
    s.next '[' = s.openFlow .flowSequence := by
  simp [next, found, atDocumentMarker_cons]

theorem next_brace (found : s.place.rest = '\x7b' :: rest) :
    s.next '\x7b' = s.openFlow .flowMapping := by
  simp [next, found, atDocumentMarker_cons]

theorem next_bracketEnd (found : s.place.rest = ']' :: rest) :
    s.next ']' = s.closeFlow .flowSequenceEnd := by
  simp [next, found, atDocumentMarker_cons]

theorem next_braceEnd (found : s.place.rest = '\x7d' :: rest) :
    s.next '\x7d' = s.closeFlow .flowMappingEnd := by
  simp [next, found, atDocumentMarker_cons]

theorem next_comma (found : s.place.rest = ',' :: rest) :
    s.next ',' = s.dropKey.map fun s => { s with keyAllowed := true }.take 1 .flowEntry := by
  simp [next, found, atDocumentMarker_cons]

theorem next_colon (found : s.place.rest = ':' :: rest) (blank : atBlank rest = true) :
    s.next ':' = s.value := by
  simp [next, found, atDocumentMarker_cons, blank]

theorem next_dash (found : s.place.rest = '-' :: ' ' :: rest) : s.next '-' = s.blockEntry := by
  have blank : atBlank (' ' :: rest) = true := by simp [atBlank, isBlank]
  have marker : atDocumentMarker ('-' :: ' ' :: rest) = false := by
    cases rest <;> simp [atDocumentMarker]
  simp [next, found, marker, blank]

end

/-- The possible key after a node that starts here. -/
def saved (s : TokenState) : Option PossibleKey :=
  if s.keyAllowed then
    some ⟨!s.inFlow && s.indent = s.place.mark.column, s.count, s.place.mark⟩
  else s.key

theorem dropKey_eq {s : TokenState} (optional : ∀ k ∈ s.key, k.required = false) :
    s.dropKey = some { s with key := none } := by
  rw [dropKey, if_neg]
  cases found : s.key with
  | none => simp
  | some k => simp [optional k found]

theorem saveKey_eq {s : TokenState} (optional : ∀ k ∈ s.key, k.required = false) :
    s.saveKey = some { s with key := s.saved } := by
  rw [saveKey, saved]
  split
  · rw [dropKey_eq optional]
    rfl
  · rfl

theorem Ready.saved {s : TokenState} (ready : s.Ready) :
    ∀ k ∈ s.saved, k.required = false ∧ k.mark.line ≤ s.place.mark.line := by
  intro k mem
  rw [TokenState.saved] at mem
  split at mem
  · obtain rfl := Option.some.inj mem
    refine ⟨?_, Nat.le_refl _⟩
    cases outer : s.outerKeys with
    | nil =>
      have := ready.column outer
      simp
      omega
    | cons => simp [inFlow, outer]
  · exact ready.key k mem

theorem After.of_approached {s t : TokenState} {depth : Nat} {rest : List Char}
    {tokens : List Token} (h : s.approached.After depth rest tokens t) :
    s.After depth rest tokens t :=
  ⟨h.rest_eq, h.tokens_eq, h.count_eq, h.indent_eq, h.outerIndents_eq, h.depth_eq, h.idle⟩

variable {s : TokenState} {c : Char} {rest : List Char} {t : Token}

/-- One character is read as a token. What becomes of the possible keys is left open. -/
theorem Ready.take (ready : s.Ready) (found : s.place.rest = c :: rest) (solid : IsSolid c)
    {key : Option PossibleKey} {outerKeys : List (Option PossibleKey)} {keyAllowed : Bool}
    (scanned : s.approached.next c =
      some ({ s.approached with key, outerKeys, keyAllowed }.take 1 t))
    (optional : ∀ k ∈ key, k.required = false ∧ k.mark.line ≤ s.place.mark.line)
    (outer : ∀ key ∈ outerKeys, ∀ k ∈ key,
      k.required = false ∧ k.mark.line ≤ s.place.mark.line) :
    ∃ u, s.Reaches u ∧ s.After outerKeys.length rest [t] u ∧ u.keyAllowed = keyAllowed := by
  have line : (s.place.drop 1).mark.line = s.place.mark.line := by
    simp [Place.drop, found, Mark.advance]
  refine ⟨_, .token (ready.approach_eq found solid) found scanned (fun _ => rfl)
    (by simp [TokenState.take, emit, Place.drop, TokenState.approached, found]),
    .of_approached ?_, rfl⟩
  exact {
    rest_eq := by simp [TokenState.take, emit, Place.drop, TokenState.approached, found]
    tokens_eq := rfl
    count_eq := rfl
    indent_eq := rfl
    outerIndents_eq := rfl
    depth_eq := rfl
    idle := ⟨fun k mem => (optional k mem).imp_right (·.trans line.ge),
      fun key mem k inside => (outer key mem k inside).imp_right (·.trans line.ge)⟩ }

theorem Ready.openFlow (ready : s.Ready) (found : s.place.rest = c :: rest) (solid : IsSolid c)
    (opens : s.approached.next c = s.approached.openFlow t) :
    s.ScansToKey (s.outerKeys.length + 1) rest [t] := by
  have here := ready.approached
  rw [TokenState.openFlow, saveKey_eq fun k mem => (here.key k mem).1] at opens
  have taken := ready.take found solid opens nofun
    (List.forall_mem_cons.mpr ⟨here.saved, here.outer⟩)
  simpa [ScansToKey, TokenState.approached] using taken

/-- Inside of a flow collection a value may stand anywhere. -/
theorem Idle.ready (idle : s.Idle) {depth : Nat} (inside : s.outerKeys.length = depth + 1) :
    s.Ready :=
  ⟨idle, fun none => by simp [none] at inside⟩

theorem Idle.closeFlow (idle : s.Idle) {depth : Nat} (inside : s.outerKeys.length = depth + 1)
    (found : s.place.rest = c :: rest) (solid : IsSolid c)
    (closes : s.approached.next c = s.approached.closeFlow t) : s.Scans depth rest [t] := by
  have ready := idle.ready inside
  have here := ready.approached
  obtain ⟨key, keys, outer⟩ := List.exists_cons_of_ne_nil (l := s.approached.outerKeys)
    (by rintro none; simp [TokenState.approached] at none; simp [none] at inside)
  rw [TokenState.closeFlow, dropKey_eq fun k mem => (here.key k mem).1] at closes
  simp only [Option.bind_eq_bind, Option.bind_some, outer] at closes
  obtain ⟨first, others⟩ := List.forall_mem_cons.mp (outer ▸ here.outer)
  obtain ⟨u, reaches, after, -⟩ := ready.take found solid closes first others
  have length : keys.length = depth := by
    have := congrArg List.length outer
    simp [TokenState.approached] at this
    omega
  exact ⟨u, reaches, length ▸ after⟩

theorem Ready.comma (ready : s.Ready) (found : s.place.rest = ',' :: rest) :
    s.ScansToKey s.outerKeys.length rest [.flowEntry] := by
  have here := ready.approached
  have scanned := next_comma (s := s.approached) found
  rw [dropKey_eq fun k mem => (here.key k mem).1] at scanned
  have taken := ready.take found ⟨rfl, rfl, by decide, by decide⟩ scanned nofun here.outer
  simpa [ScansToKey, TokenState.approached] using taken

/-- What follows a line: nothing, or a line that is indented to a column at most. -/
inductive Follows (column : Int) : List Char → Prop where
  | done : Follows column []
  | line {indent : Nat} (within : (indent : Int) ≤ column) {c : Char} (solid : IsSolid c)
      (rest : List Char) : Follows column (Layout.margin indent ++ c :: rest)

theorem Follows.mono {column wider : Int} {tail : List Char} (h : Follows column tail)
    (le : column ≤ wider) : Follows wider tail := by
  cases h with
  | done => exact .done
  | line within solid rest => exact .line (within.trans le) solid rest

/-- The end of a line and what follows it. The last line may lack its break. -/
inductive LineEnd (column : Int) : List Char → List Char → Prop where
  | done : LineEnd column [] []
  | line {tail : List Char} (follows : Follows column tail) : LineEnd column ('\n' :: tail) tail

/-- The state on a line before its first token, behind some of its indentation. -/
def freshLine (s : TokenState) (line column : Nat) (rest : List Char) : TokenState :=
  { s with
    place := ⟨rest, ⟨line, column, column⟩⟩, key := none, outerKeys := [], keyAllowed := true }

/-- Spaces in front of a token are passed. -/
theorem skipGap_margin (flow keyAllowed : Bool) (indent : Nat) (m : Mark) (cs : List Char) :
    skipGap flow false keyAllowed m (Layout.margin indent ++ cs) =
      skipGap flow false keyAllowed ⟨m.line, m.column + indent, m.bytes + indent⟩ cs := by
  induction indent generalizing m with
  | zero => rfl
  | succ indent ih =>
    have : ' '.utf8Size = 1 := rfl
    rw [Layout.margin, List.replicate_succ, List.cons_append, skipGap_space, ← Layout.margin, ih,
      Mark.advance, this]
    simp only [Nat.add_assoc, Nat.add_comm 1]

/-- The gap before the next line ends at its first character. -/
theorem Follows.skipGap_eq {column : Int} {tail : List Char} (h : Follows column tail)
    (line : Nat) : ∃ p : Place, p.mark.line = line ∧
      skipGap false false true ⟨line, 0, 0⟩ tail = (true, p) ∧
      skipGap false false true p.mark p.rest = (true, p) ∧
      p.rest.length ≤ tail.length ∧ (p.rest = [] → p.mark.column = 0) ∧
      (p.rest ≠ [] → (p.mark.column : Int) ≤ column) := by
  cases h with
  | done => exact ⟨⟨[], ⟨line, 0, 0⟩⟩, rfl, rfl, rfl, Nat.le_refl _, fun _ => rfl, nofun⟩
  | @line indent within c solid rest =>
    refine ⟨⟨c :: rest, ⟨line, indent, indent⟩⟩, rfl, ?_, skipGap_of_isSolid solid _ _ _ _, ?_,
      nofun, fun _ => within⟩
    · rw [skipGap_margin, skipGap_of_isSolid solid, Nat.zero_add]
    · simp

/-- The indentation of a line is passed. -/
theorem enterLine (s : TokenState) (line indent : Nat) (rest : List Char) :
    (s.freshLine line 0 (Layout.margin indent ++ rest)).Reaches (s.freshLine line indent rest) := by
  refine .of_approach_eq ?_ (by simp [freshLine])
  simp [approach, freshLine, inFlow, skipGap_margin]

/-- What comes after the gap before a line decides how the run goes on. -/
theorem approach_eq_freshLine {s : TokenState} {line : Nat} {tail : List Char} {p : Place}
    (gap : skipGap false false s.keyAllowed s.place.mark s.place.rest = (true, p))
    (fresh : skipGap false false true ⟨line, 0, 0⟩ tail = (true, p)) (outside : s.outerKeys = [])
    (stale : ∀ k ∈ s.key, k.required = false ∧ k.mark.line < p.mark.line) :
    s.approach = (s.freshLine line 0 tail).approach := by
  have dropped : refresh p.mark s.key = some none := by
    rw [refresh_eq fun k mem _ => (stale k mem).1]
    congr 1
    rw [TokenState.fresh, Option.filter_eq_none_iff]
    intro k mem
    simp [Stale, (stale k mem).2]
  simp only [approach, freshLine, inFlow, outside, List.isEmpty_nil, Bool.not_true, gap, fresh,
    dropStaleKeys, dropped, Option.bind_eq_bind, Option.bind_some]
  rfl

theorem closeBlocks_tokens {s t : TokenState} (tokens : s.tokens = t.tokens)
    (indent : s.indent = t.indent) (column : Int) (indents : List Int) :
    (s.closeBlocks column indents).tokens = (t.closeBlocks column indents).tokens := by
  induction indents generalizing s t with
  | nil => exact tokens
  | cons outer indents ih =>
    rw [closeBlocks, closeBlocks, indent]
    split
    · exact ih (by simp [emit, tokens]) rfl
    · exact tokens

/-- Closing some blocks and then all is closing all. -/
theorem closeBlocks_closeBlocks (s : TokenState) {column : Int} (le : -1 ≤ column)
    (indents : List Int) (outer : s.outerIndents = indents) :
    ((s.closeBlocks column indents).closeBlocks (-1)
      (s.closeBlocks column indents).outerIndents).tokens =
        (s.closeBlocks (-1) indents).tokens := by
  induction indents generalizing s with
  | nil => simp [closeBlocks, outer]
  | cons o os ih =>
    rw [closeBlocks]
    split
    case isTrue deeper =>
      rw [ih _ rfl, closeBlocks, if_pos (by omega)]
    case isFalse => rw [outer]

theorem closeBlocks_keeps (s : TokenState) (column : Int) (indents : List Int) :
    (s.closeBlocks column indents).place = s.place ∧ (s.closeBlocks column indents).key = s.key ∧
      (s.closeBlocks column indents).outerKeys = s.outerKeys := by
  induction indents generalizing s with
  | nil => exact ⟨rfl, rfl, rfl⟩
  | cons outer indents ih =>
    rw [closeBlocks]
    split
    · exact ih _
    · exact ⟨rfl, rfl, rfl⟩

/-- At the end of the text all blocks are closed. -/
theorem run_end {s : TokenState} (done : s.place.rest = []) (outside : s.outerKeys = [])
    (optional : ∀ k ∈ s.key, k.required = false) (fuel : Nat) :
    run (fuel + 1) s = some (s.closeBlocks (-1) s.outerIndents).tokens.reverse := by
  obtain ⟨m, place⟩ : ∃ m, s.place = ⟨[], m⟩ := ⟨s.place.mark, by rw [← done]⟩
  have refreshed := refresh_eq (m := m) fun k mem _ => optional k mem
  have unrolled : ∀ (s : TokenState), s.outerKeys = [] → ∀ column,
      s.unroll column = s.closeBlocks column s.outerIndents := by
    intro s outside column
    simp [unroll, inFlow, outside]
  -- the state at the end, before the blocks are closed
  let last : TokenState := { s with key := fresh m s.key }
  have approached : s.approach = some (last.closeBlocks m.column s.outerIndents) := by
    simp only [approach, place, skipGap, dropStaleKeys, refreshed, outside, List.mapM_nil,
      Option.pure_def, Option.bind_eq_bind, Option.bind_some]
    rw [unrolled _ rfl]
    simp [last, place, outside]
  obtain ⟨samePlace, sameKey, sameOuter⟩ := closeBlocks_keeps last m.column s.outerIndents
  have atEnd : (last.closeBlocks m.column s.outerIndents).place.rest = [] := by
    rw [samePlace]
    exact done
  have keyless : ∀ k ∈ ((last.closeBlocks m.column s.outerIndents).unroll (-1)).key,
      k.required = false := by
    rw [unrolled _ (sameOuter.trans outside), (closeBlocks_keeps _ _ _).2.1, sameKey]
    exact fun k mem => optional k (mem_of_mem_fresh mem)
  rw [run, approached]
  simp only [Option.bind_eq_bind, Option.bind_some, atEnd, dropKey_eq keyless, Option.map_some]
  have tokens : (last.closeBlocks (-1) s.outerIndents).tokens =
      (s.closeBlocks (-1) s.outerIndents).tokens := closeBlocks_tokens (by rfl) (by rfl) _ _
  rw [unrolled _ (sameOuter.trans outside), closeBlocks_closeBlocks last (by omega) _ rfl, tokens]

/-- A line ends. -/
theorem Idle.lineEnd {s : TokenState} (idle : s.Idle) (outside : s.outerKeys = []) {column : Int}
    {tail : List Char} (ended : LineEnd column s.place.rest tail) :
    ∃ line, s.Reaches (s.freshLine line 0 tail) := by
  generalize found : s.place.rest = rest at ended
  cases ended with
  | done =>
    refine ⟨s.place.mark.line, .of_run_eq (fun fuel => ?_) (by simp [freshLine])⟩
    cases fuel with
    | zero => rfl
    | succ fuel =>
      have fresh : ∀ k ∈ (s.freshLine s.place.mark.line 0 []).key, k.required = false := by
        simp [freshLine]
      rw [run_end found outside (fun k mem => (idle.key k mem).1), run_end rfl rfl fresh]
      have tokens : (s.closeBlocks (-1) s.outerIndents).tokens =
          ((s.freshLine s.place.mark.line 0 []).closeBlocks (-1) s.outerIndents).tokens :=
        closeBlocks_tokens (by rfl) (by rfl) _ _
      rw [tokens]
      rfl
  | line follows =>
    obtain ⟨p, line, gap, -, -⟩ := follows.skipGap_eq (s.place.mark.line + 1)
    refine ⟨s.place.mark.line + 1, .of_approach_eq (approach_eq_freshLine ?_ gap outside
      fun k mem => ⟨(idle.key k mem).1, ?_⟩) (by simp [freshLine, found])⟩
    · rw [found, skipGap_newline]
      exact gap
    · have := (idle.key k mem).2
      omega

/-- The innermost block ends before a line that is indented less. -/
theorem closeBlock {s : TokenState} {line : Nat} {tail : List Char} {column outer : Int}
    {outers : List Int} (follows : Follows column tail) (deeper : column < s.indent)
    (positive : 0 ≤ s.indent) (outerIndents : s.outerIndents = outer :: outers) :
    (s.freshLine line 0 tail).Reaches
      (({ s with indent := outer, outerIndents := outers }.emit .blockEnd).freshLine
        line 0 tail) := by
  refine .of_run_eq (fun fuel => ?_) (Nat.le_refl _)
  cases fuel with
  | zero => rfl
  | succ fuel =>
    cases follows with
    | done =>
      rw [run_end rfl rfl (by simp [freshLine]), run_end rfl rfl (by simp [freshLine])]
      simp only [freshLine, outerIndents]
      rw [closeBlocks, if_pos (by dsimp only; omega)]
      rfl
    | line within solid rest =>
      refine run_eq_of_approach_eq ?_ _
      simp only [approach, freshLine, inFlow, emit, skipGap_margin, skipGap_of_isSolid solid,
        dropStaleKeys, refresh, unroll, outerIndents, List.isEmpty_nil, Bool.not_true]
      simp only [List.mapM_nil, Option.pure_def, Option.bind_eq_bind, Option.bind_some]
      rw [closeBlocks, if_pos (by dsimp only; omega)]
      rfl

end TokenState

end ArenaVariations.Yaml
