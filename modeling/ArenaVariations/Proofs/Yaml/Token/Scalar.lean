import ArenaVariations.Proofs.Yaml.Token.Run
import Mathlib.Data.List.TakeWhile

/-!
# Reading written scalars

A scalar that is written plainly or in single quotes is read as its text, up to what follows it on
its line or to the next line. A scalar before a colon is a key, and opens a block mapping if it
stands further to the right than the block around it. A tag is read as its name.
-/

namespace ArenaVariations.Yaml

section

variable {flow : Bool} {indent : Int} {m : Mark}

/-- A plain scalar ends on its line. -/
theorem scanPlain_stops {rest : List Char} (stops : Stops flow rest) (f : Folding) :
    scanPlain flow indent .word f m rest = some (f, ⟨rest, m⟩) := by
  cases stops with
  | done => rfl
  | @colon rest blank =>
    have follows : (rest.head?.any fun d => d = '?' || isFlowIndicator d) = false := by
      cases rest with
      | nil => rfl
      | cons d rest =>
        rw [List.head?_cons, Option.any_some, Bool.eq_false_iff]
        intro special
        rw [Bool.or_eq_true, decide_eq_true_eq] at special
        obtain rfl | indicator := special
        · cases blank
        · obtain rfl | rfl | rfl | rfl | rfl := eq_of_isFlowIndicator indicator <;> cases blank
    have blankColon : isBlank ':' = false := rfl
    have breakColon : isBreak ':' = false := rfl
    rw [scanPlain, blankColon, breakColon]
    simp [follows, blank]
  | @indicator c inFlow indicator rest =>
    subst inFlow
    have plain : isBlank c = false ∧ isBreak c = false ∧ c ≠ ':' := by
      obtain rfl | rfl | rfl | rfl | rfl := eq_of_isFlowIndicator indicator <;> decide
    rw [scanPlain, plain.1, plain.2.1]
    simp [plain.2.2, indicator]

/-- After a line break, a plain scalar ends at a line that is not indented more than the block. -/
theorem scanPlain_margin {f : Folding} (broken : f.broken = true) {c : Char} (solid : IsSolid c)
    {n : Nat} {rest : List Char} (m : Mark) (within : ((m.column + n : Nat) : Int) < indent) :
    scanPlain false indent .gap f m (Layout.margin n ++ c :: rest) =
      some (f, ⟨c :: rest, ⟨m.line, m.column + n, m.bytes + n⟩⟩) := by
  induction n generalizing m with
  | zero =>
    rw [Layout.margin, List.replicate_zero, List.nil_append, scanPlain, solid.notBlank,
      solid.notBreak]
    simp [show (m.column : Int) < indent from within]
  | succ n ih =>
    have blank : isBlank ' ' = true := rfl
    have kept : f.addBlank ' ' = f := by rw [Folding.addBlank, if_pos broken]
    have next := ih (m.advance ' ') (by simp only [Mark.advance]; omega)
    have width : ' '.utf8Size = 1 := rfl
    simp only [Mark.advance, width] at next
    rw [Layout.margin, List.replicate_succ, List.cons_append, scanPlain, blank, kept,
      ← Layout.margin]
    simp only [reduceIte, Char.reduceEq, and_false, Mark.advance, width, next]
    simp only [Nat.add_assoc, Nat.add_comm 1]

/-- A plain scalar at the end of a line goes on to the next one, and ends there. -/
theorem scanPlain_newline {text tail : List Char} {column : Int}
    (follows : TokenState.Follows column tail) (within : column < indent) : ∃ p : Place,
      p.mark.line = m.line + 1 ∧
      TokenState.skipGap false false true m.nextLine tail = (true, p) ∧
      TokenState.skipGap false false true p.mark p.rest = (true, p) ∧
      p.rest.length ≤ tail.length ∧
      scanPlain false indent .word (.ofText text) m ('\n' :: tail) =
        some ((Folding.ofText text).addBreak '\n', p) := by
  have blank : isBlank '\n' = false := rfl
  have ends : isBreak '\n' = true := rfl
  have start : scanPlain false indent .word (.ofText text) m ('\n' :: tail) =
      scanPlain false indent .gap ((Folding.ofText text).addBreak '\n') m.nextLine tail := by
    rw [scanPlain, blank, ends]
    simp
  rw [start]
  cases follows with
  | done => exact ⟨⟨[], m.nextLine⟩, rfl, rfl, rfl, Nat.le_refl _, rfl⟩
  | @line n deep c solid rest =>
    refine ⟨⟨c :: rest, ⟨m.line + 1, n, n⟩⟩, rfl, ?_, TokenState.skipGap_of_isSolid solid _ _ _ _,
      by simp, ?_⟩
    · rw [TokenState.skipGap_margin, TokenState.skipGap_of_isSolid solid, Mark.nextLine]
      simp
    · rw [scanPlain_margin rfl solid _ (by simp only [Mark.nextLine]; omega), Mark.nextLine]
      simp

end

namespace TokenState

variable {s : TokenState} {cs rest tail : List Char} {text : ScalarText}

/-- What is read as a plain scalar starts like one. -/
theorem startsPlain_eq {flow : Bool} (plain : IsPlain flow cs) (rest : List Char) :
    startsPlain flow (cs ++ rest) = true := by
  obtain ⟨first, more, rfl, start⟩ := plain.start
  have ends := fun special => plain.atBlank_eq special rest
  rw [List.cons_append, startsPlain]
  split
  case isTrue is =>
    obtain ⟨second, head, solid⟩ := start.beforeSolid (.inl is)
    obtain ⟨others, rfl⟩ := List.head?_eq_some_iff.mp head
    simp [(isGap_eq_false solid).1]
  case isFalse =>
    split
    case isTrue is =>
      have outside : flow = false := by
        by_contra inFlow
        have := start.inFlow (by simpa using inFlow)
        exact is.elim this.1 this.2
      rw [outside, ends (.inr is)]
      rfl
    case isFalse =>
      have indicator := start.notIndicator
      simp only [isIndicator, List.contains_cons, List.contains_nil, Bool.or_eq_false_iff,
        beq_eq_false_iff_ne, ne_eq] at indicator
      rw [start.solid.notBlank, start.solid.notBreak]
      simp [isFlowIndicator, indicator]

/-- A plain scalar starts here. -/
theorem next_plain (plain : IsPlain s.inFlow cs) (found : s.place.rest = cs ++ rest)
    (follows : ∀ c ∈ rest.head?, c ≠ '-' ∧ c ≠ '.') :
    ∃ first more, cs = first :: more ∧ IsSolid first ∧ s.next first = s.node fun s =>
      (scanPlain s.inFlow (s.indent + 1) .wordStart .empty s.place.mark s.place.rest).map
        fun (f, p) => (.scalar ⟨f.result, true⟩, f.broken, p) := by
  have marker := plain.atDocumentMarker_eq follows
  have starts := startsPlain_eq plain rest
  obtain ⟨first, more, rfl, start⟩ := plain.start
  refine ⟨first, more, rfl, start.solid, ?_⟩
  have ends := fun special => plain.atBlank_eq special rest
  have ne : ∀ {d}, isIndicator d = true → first ≠ d := by
    rintro d indicator rfl
    rw [start.notIndicator] at indicator
    cases indicator
  have entry : ¬ (first = '-' ∧ atBlank (more ++ rest) = true) := fun ⟨is, gap⟩ => by
    rw [ends (.inl is)] at gap
    cases gap
  have key : ¬ (first = '?' ∧ (s.inFlow = true ∨ atBlank (more ++ rest) = true)) := by
    rintro ⟨is, inFlow | gap⟩
    · exact (start.inFlow inFlow).1 is
    · rw [ends (.inr (.inl is))] at gap
      cases gap
  have value : ¬ (first = ':' ∧ (s.inFlow = true ∨ atBlank (more ++ rest) = true)) := by
    rintro ⟨is, inFlow | gap⟩
    · exact (start.inFlow inFlow).2 is
    · rw [ends (.inr (.inr is))] at gap
      cases gap
  rw [List.cons_append] at found marker starts
  rw [next]
  simp only [found, marker, List.drop_one, List.tail_cons, entry, key, value, starts,
    ne (d := '%') rfl, ne (d := '[') rfl, ne (d := '\x7b') rfl, ne (d := ']') rfl,
    ne (d := '\x7d') rfl, ne (d := ',') rfl, ne (d := '*') rfl, ne (d := '&') rfl,
    ne (d := '!') rfl, ne (d := '|') rfl, ne (d := '>') rfl, ne (d := '\'') rfl,
    ne (d := '"') rfl, and_false, false_and, if_false, if_true, or_self, Bool.false_eq_true]

theorem next_quoted (double : Bool) (found : s.place.rest = quoteMark double :: rest) :
    s.next (quoteMark double) = s.node fun s =>
      (scanQuoted double (.words .wordStart) .empty (s.place.mark.advance (quoteMark double))
        (s.place.rest.drop 1)).map fun (text, p) => (.scalar ⟨text, false⟩, false, p) := by
  cases double <;> simp [quoteMark, next] at found ⊢ <;> simp [found, atDocumentMarker_cons]

/-- The state after a scalar that starts here. -/
def afterScalar (s : TokenState) (cs rest : List Char) (text : ScalarText) : TokenState :=
  { s.approached with
    key := s.approached.saved, place := ⟨rest, cs.foldl Mark.pass s.place.mark⟩,
    keyAllowed := false }.emit (.scalar text)

theorem node_eq {scan : TokenState → Option (Token × Bool × Place)} {token : Token}
    {keyAllowed : Bool} {place : Place} (optional : ∀ k ∈ s.key, k.required = false)
    (scanned : scan { s with key := s.saved } = some (token, keyAllowed, place)) :
    s.node scan = some ({ s with key := s.saved, place, keyAllowed }.emit token) := by
  rw [node, saveKey_eq optional]
  simp only [Option.bind_eq_bind, Option.bind_some, scanned]
  rfl

/-- The next token is read, up to what a gap after it changes. -/
theorem Idle.token (idle : s.Idle) (column : s.outerKeys = [] → s.indent ≤ s.place.mark.column)
    {c : Char} (found : s.place.rest = c :: rest) (solid : IsSolid c) {read t : TokenState}
    (scanned : s.approached.next c = some read) (same : ∀ fuel, run fuel read = run fuel t)
    (length : t.place.rest.length < s.place.rest.length) : s.Reaches t :=
  .token (approach_eq found solid (fun k mem _ => (idle.key k mem).1)
    (fun key mem k inside => (idle.outer key mem k inside).1) column) found scanned same length

theorem inFlow_eq_false : s.inFlow = false ↔ s.outerKeys = [] := by
  simp [inFlow]

/-- A plain scalar is read up to what follows it on its line. -/
theorem Idle.plain (idle : s.Idle) (column : s.outerKeys = [] → s.indent ≤ s.place.mark.column)
    (plain : IsPlain s.inFlow cs) (found : s.place.rest = cs ++ rest)
    (stops : Stops s.inFlow rest) : s.Reaches (s.afterScalar cs rest ⟨cs, true⟩) := by
  have follows : ∀ c ∈ rest.head?, c ≠ '-' ∧ c ≠ '.' := fun c mem => (stops.head c mem).2
  obtain ⟨first, more, rfl, solid, scanned⟩ :=
    next_plain (s := s.approached) ((inFlow_approached s).symm ▸ plain) found follows
  have here := idle.approached
  have deep : s.inFlow = false → s.indent + 1 ≤ (s.place.mark.column : Int) + 1 := fun outside => by
    have := column (inFlow_eq_false.mp outside)
    omega
  have read := scanPlain_eq s.place.mark plain deep follows
  rw [scanPlain_stops stops, ← found, ← inFlow_approached] at read
  rw [node_eq (fun k mem => (here.key k mem).1) (congrArg (Option.map _) read)] at scanned
  refine idle.token column found solid scanned (fun fuel => ?_) ?_
  · simp [afterScalar, Folding.ofText, Folding.result, foldl_pass_of_unbroken plain.unbroken]
  · simp only [afterScalar, emit, found, List.length_append, List.length_cons]
    omega

/-- A quoted scalar is read up to its closing quote. -/
theorem Idle.quoted (idle : s.Idle) (column : s.outerKeys = [] → s.indent ≤ s.place.mark.column)
    {double : Bool} {inner : List Char} (quoted : IsQuoted double inner cs)
    (found : s.place.rest = quoteMark double :: inner ++ rest) (closed : rest.head? ≠ some '\'') :
    s.Reaches (s.afterScalar (quoteMark double :: inner) rest ⟨cs, false⟩) := by
  have scanned := next_quoted (s := s.approached) double found
  have here := idle.approached
  have read := quoted.read (m := s.place.mark.advance (quoteMark double)) (Nat.succ_pos _) closed
  have dropped : s.place.rest.drop 1 = inner ++ rest := by rw [found]; rfl
  rw [← dropped] at read
  rw [node_eq (fun k mem => (here.key k mem).1) (congrArg (Option.map _) read)] at scanned
  have solid := isSolid_quoteMark double
  refine idle.token column found solid scanned (fun fuel => ?_) ?_
  · simp [afterScalar, Mark.pass, solid.notBreak]
  · simp only [afterScalar, emit, found, List.length_append, List.length_cons]
    omega

/-- A scalar is read up to what follows it on its line. -/
theorem Idle.scalar (idle : s.Idle) (column : s.outerKeys = [] → s.indent ≤ s.place.mark.column)
    (form : ScalarForm s.inFlow cs text) (found : s.place.rest = cs ++ rest)
    (stops : Stops s.inFlow rest) : s.Reaches (s.afterScalar cs rest text) := by
  cases form with
  | plain plain => exact idle.plain column plain found stops
  | quoted quoted =>
    exact idle.quoted column quoted found fun head => (stops.head _ head).1 rfl

theorem Ready.after_afterScalar (ready : s.Ready) (cs rest : List Char) (text : ScalarText) :
    s.After s.outerKeys.length rest [.scalar text] (s.afterScalar cs rest text) := by
  have here := ready.approached
  have line := line_le_foldl_pass s.place.mark cs
  exact {
    rest_eq := rfl
    tokens_eq := rfl
    count_eq := rfl
    indent_eq := rfl
    outerIndents_eq := rfl
    depth_eq := by simp [afterScalar, emit, TokenState.approached]
    idle := ⟨fun k mem => (here.saved k mem).imp_right (·.trans line),
      fun key mem k inside => (here.outer key mem k inside).imp_right (·.trans line)⟩ }

/-- A scalar inside of a flow collection is read. -/
theorem Ready.scalar (ready : s.Ready) (form : ScalarForm s.inFlow cs text)
    (found : s.place.rest = cs ++ rest) (stops : Stops s.inFlow rest) :
    s.Scans s.outerKeys.length rest [.scalar text] :=
  ⟨_, ready.toIdle.scalar (fun outside => (ready.column outside).le) form found stops,
    ready.after_afterScalar cs rest text⟩

/-- A plain scalar at the end of a line is read together with the gap before the next one. -/
theorem Ready.plainEnd (ready : s.Ready) (outside : s.outerKeys = []) (plain : IsPlain false cs)
    (found : s.place.rest = cs ++ '\n' :: tail) (follows : Follows s.indent tail) :
    ∃ line, s.Reaches ((s.emit (.scalar ⟨cs, true⟩)).freshLine line 0 tail) := by
  have inFlow : s.approached.inFlow = false := by
    rw [inFlow_approached]
    exact inFlow_eq_false.mpr outside
  have newline : ∀ c ∈ ('\n' :: tail).head?, c ≠ '-' ∧ c ≠ '.' := by simp
  obtain ⟨first, more, rfl, solid, scanned⟩ :=
    next_plain (s := s.approached) (inFlow ▸ plain) found newline
  have here := ready.approached
  let m := (first :: more).foldl Mark.advance s.place.mark
  obtain ⟨p, line, gap, again, -, ended⟩ : ∃ p : Place, p.mark.line = m.line + 1 ∧
      skipGap false false true m.nextLine tail = (true, p) ∧
      skipGap false false true p.mark p.rest = (true, p) ∧ p.rest.length ≤ tail.length ∧
      scanPlain false (s.indent + 1) .word (.ofText (first :: more).reverse) m ('\n' :: tail) =
        some ((Folding.ofText (first :: more).reverse).addBreak '\n', p) :=
    scanPlain_newline follows (by omega)
  have deep : false = false → s.indent + 1 ≤ (s.place.mark.column : Int) + 1 := fun _ => by
    have := ready.column outside
    omega
  have read := scanPlain_eq s.place.mark plain deep newline
  rw [ended, ← found, ← inFlow] at read
  rw [node_eq (fun k mem => (here.key k mem).1) (congrArg (Option.map _) read)] at scanned
  have lines : m.line = s.place.mark.line := (foldl_advance _ _).1
  refine ⟨m.line + 1, ready.toIdle.token (fun outside => (ready.column outside).le) found
    solid scanned ?_ ?_⟩
  · refine run_eq_of_approach_eq ((approach_eq_freshLine again gap ?_ fun k mem => ?_).trans ?_)
    · simp [emit, TokenState.approached, outside]
    · have := here.saved k mem
      exact ⟨this.1, by rw [line, lines]; exact Nat.lt_succ_of_le this.2⟩
    · simp [freshLine, emit, Folding.ofText, Folding.result, Folding.addBreak]
      rfl
  · simp [freshLine, found]
    omega

/-- A scalar at the end of a line of a block is read. -/
theorem Ready.scalarEnd (ready : s.Ready) (outside : s.outerKeys = [])
    (form : ScalarForm false cs text) (found : s.place.rest = cs ++ rest)
    (ended : LineEnd s.indent rest tail) :
    ∃ line, s.Reaches ((s.emit (.scalar text)).freshLine line 0 tail) := by
  have column : s.outerKeys = [] → s.indent ≤ s.place.mark.column := fun h => (ready.column h).le
  have inFlow := inFlow_eq_false.mpr outside
  have after := ready.after_afterScalar cs rest text
  -- what is read without the line's break goes on behind it
  have goes : s.Reaches (s.afterScalar cs rest text) →
      ∃ line, s.Reaches ((s.emit (.scalar text)).freshLine line 0 tail) := by
    intro reaches
    obtain ⟨line, ends⟩ := after.idle.lineEnd (by simpa [outside] using after.depth_eq) ended
    exact ⟨line, reaches.trans ends⟩
  cases form with
  | quoted quoted =>
    have closed : rest.head? ≠ some '\'' := by cases ended <;> simp
    exact goes (ready.toIdle.quoted column quoted found closed)
  | plain plain =>
    cases ended with
    | done => exact goes (ready.toIdle.plain column (inFlow ▸ plain) found .done)
    | line follows => exact ready.plainEnd outside plain found follows

end TokenState

/-- A blank or a break ends a tag. -/
theorem of_atBlank {c : Char} {rest : List Char} (blank : atBlank (c :: rest) = true) :
    isWord c = false ∧ isTagMark c = false ∧ c ≠ '%' ∧ c ≠ '!' := by
  simp only [atBlank, isBlank, isBreak, isSeparator, Bool.or_eq_true, decide_eq_true_eq] at blank
  obtain (rfl | rfl) | rfl | rfl | rfl := blank <;> decide

section

variable {tag : String} {rest : List Char}

theorem Value.IsTagName.plain (name : Value.IsTagName tag) :
    ∀ c ∈ tag.toList, isWord c = true ∧ c ≠ '<' ∧ c ≠ '!' ∧ c ≠ '\x00' := by
  intro c mem
  have letter := name.2 c mem
  refine ⟨by simp [isWord, letter], ?_, ?_, ?_⟩ <;> rintro rfl <;> cases letter

/-- At first the name is taken for a handle. -/
theorem scanHandle_eq (name : Value.IsTagName tag) (m : Mark) (blank : atBlank rest = true) :
    scanHandle ⟨'!' :: tag.toList ++ rest, m⟩ =
      some ('!' :: tag.toList, ⟨rest, ('!' :: tag.toList).foldl Mark.advance m⟩) := by
  have noWord : rest.takeWhile isWord = [] := by
    cases rest with
    | nil => rfl
    | cons c rest => rw [List.takeWhile_cons, (of_atBlank blank).1]; rfl
  have taken : (tag.toList ++ rest).takeWhile isWord = tag.toList := by
    rw [List.takeWhile_append_of_pos fun c mem => (name.plain c mem).1, noWord, List.append_nil]
  have after : (tag.toList ++ rest).drop tag.toList.length = rest := List.drop_left
  have passed : (⟨'!' :: tag.toList ++ rest, m⟩ : Place).drop (tag.toList.length + 1) =
      ⟨rest, ('!' :: tag.toList).foldl Mark.advance m⟩ := by
    simp [Place.drop]
  simp only [scanHandle, List.cons_append, taken, after] at passed ⊢
  cases rest with
  | nil => rw [passed]
  | cons c rest =>
    have mark := (of_atBlank blank).2.2.2
    split
    case h_1 eq => exact absurd (List.cons.inj eq).1 mark
    case h_2 => rw [passed]

/-- Since nothing follows that handle, its name is the suffix. -/
theorem scanTagSuffix_eq (name : Value.IsTagName tag) (m : Mark) (blank : atBlank rest = true) :
    scanTagSuffix false ('!' :: tag.toList) ⟨rest, m⟩ =
      some (tag.toList.map some, ⟨rest, m⟩) := by
  have none : scanTagChars false rest.length rest = some ([], rest) := by
    cases rest with
    | nil => rfl
    | cons c rest =>
      obtain ⟨word, mark, percent, -⟩ := of_atBlank blank
      simp [scanTagChars, word, mark, percent]
  have kept : (tag.toList.map some).takeWhile (· ≠ some '\x00') = tag.toList.map some := by
    rw [List.takeWhile_eq_self_iff]
    intro c mem
    obtain ⟨d, among, rfl⟩ := List.mem_map.mp mem
    simpa using (name.plain d among).2.2.2
  simp only [scanTagSuffix, none, Option.bind_eq_bind, Option.bind_some]
  rw [if_neg (by simp), List.drop_one, List.tail_cons, List.append_nil, kept]
  simp [Place.dropTo, Place.drop]

/-- A name after an exclamation mark is read as a tag up to the next blank. -/
theorem scanTag_eq (name : Value.IsTagName tag) (flow : Bool) (m : Mark)
    (blank : atBlank rest = true) :
    scanTag flow ⟨'!' :: tag.toList ++ rest, m⟩ =
      some (⟨['!'], tag.toList.map some⟩,
        ⟨rest, ('!' :: tag.toList).foldl Mark.advance m⟩) := by
  obtain ⟨first, more, split⟩ := List.exists_cons_of_ne_nil name.1
  have last : ('!' :: tag.toList).getLast? ≠ some '!' := by
    rw [split, List.getLast?_cons_cons, ← split]
    exact fun eq => (name.plain '!' (List.mem_of_getLast? eq)).2.2.1 rfl
  have verbatim : first ≠ '<' := (name.plain first (split ▸ List.mem_cons_self)).2.1
  rw [scanTag]
  split
  case h_1 eq =>
    rw [split] at eq
    exact absurd (List.cons.inj (List.cons.inj eq).2).1 verbatim
  case h_2 =>
    rw [scanHandle_eq name m blank]
    simp only [Option.bind_eq_bind, Option.bind_some, last, and_false, if_false,
      scanTagSuffix_eq name _ blank]
    simp [split, blank]

end

namespace TokenState

variable {s : TokenState} {rest : List Char}

theorem next_tag (found : s.place.rest = '!' :: rest) :
    s.next '!' = s.node fun s =>
      (scanTag s.inFlow s.place).map fun (tag, p) => (.tag tag, false, p) := by
  simp [next, found, atDocumentMarker_cons]

/-- A tag is read up to the blank after it. -/
theorem Ready.tag (ready : s.Ready) {tag : String} (name : Value.IsTagName tag)
    (found : s.place.rest = '!' :: tag.toList ++ rest) (blank : atBlank rest = true) :
    ∃ t, s.Reaches t ∧ s.After s.outerKeys.length rest [.tag ⟨['!'], tag.toList.map some⟩] t ∧
      s.place.mark.column < t.place.mark.column := by
  have here := ready.approached
  have scanned := next_tag (s := s.approached) found
  have read := scanTag_eq name s.approached.inFlow s.place.mark blank
  rw [← found] at read
  rw [node_eq (fun k mem => (here.key k mem).1) (congrArg (Option.map _) read)] at scanned
  have line := (foldl_advance s.place.mark ('!' :: tag.toList)).1
  refine ⟨_, ready.toIdle.token (fun outside => (ready.column outside).le) found
    ⟨rfl, rfl, by decide, by decide⟩ scanned (fun _ => rfl) ?_, ?_, ?_⟩
  · simp only [emit, found, List.length_append, List.length_cons]
    omega
  · exact {
      rest_eq := rfl
      tokens_eq := rfl
      count_eq := rfl
      indent_eq := rfl
      outerIndents_eq := rfl
      depth_eq := by simp [emit, TokenState.approached]
      idle := ⟨fun k mem => (here.saved k mem).imp_right (·.trans line.ge),
        fun key mem k inside => (here.outer key mem k inside).imp_right (·.trans line.ge)⟩ }
  · simp only [emit, foldl_advance, List.length_cons]
    omega

end TokenState

/-- A pass over a text passes its bytes. -/
theorem bytes_foldl_advance (m : Mark) (cs : List Char) :
    (cs.foldl Mark.advance m).bytes = m.bytes + (String.ofList cs).utf8ByteSize := by
  rw [String.utf8ByteSize_ofList]
  induction cs generalizing m with
  | nil => rfl
  | cons c cs ih =>
    have step : (m.advance c).bytes = m.bytes + c.utf8Size := rfl
    rw [List.foldl_cons, ih, String.utf8Len_cons, step]
    omega

namespace TokenState

variable {s : TokenState} {cs rest : List Char} {text : ScalarText}

theorem roll_place (s : TokenState) (column position : Nat) (t : Token) :
    (s.roll column position t).place = s.place := by
  rw [roll]
  split <;> rfl

theorem roll_key (s : TokenState) (column position : Nat) (t : Token) :
    (s.roll column position t).key = s.key := by
  rw [roll]
  split <;> rfl

theorem roll_outerKeys (s : TokenState) (column position : Nat) (t : Token) :
    (s.roll column position t).outerKeys = s.outerKeys := by
  rw [roll]
  split <;> rfl

theorem insertIdx_length_append {α : Type} (before after : List α) (a : α) :
    (before ++ after).insertIdx before.length a = before ++ a :: after := by
  induction before with
  | nil => rfl
  | cons b before ih => rw [List.cons_append, List.length_cons, List.insertIdx_succ_cons, ih]; rfl

/-- A block may be opened behind the last tokens. -/
theorem roll_behind {u : TokenState} (before : List Token) (column : Nat) (t : Token)
    (flow : u.inFlow = s.inFlow) (indent : u.indent = s.indent)
    (outer : u.outerIndents = s.outerIndents) (tokens : u.tokens = before ++ s.tokens)
    (count : u.count = s.count + before.length) :
    (u.roll column s.count t).tokens = before ++ (s.roll column s.count t).tokens ∧
      (u.roll column s.count t).count = (s.roll column s.count t).count + before.length ∧
      (u.roll column s.count t).indent = (s.roll column s.count t).indent ∧
      (u.roll column s.count t).outerIndents = (s.roll column s.count t).outerIndents := by
  rw [roll, roll, flow, indent]
  split
  · exact ⟨tokens, count, indent, outer⟩
  · refine ⟨?_, ?_, rfl, by rw [insert, insert, outer]⟩
    · simp [insert, tokens, count, insertIdx_length_append]
    · simp only [insert, count]
      omega

/-- A scalar that starts here as a key that may follow. -/
def keyHere (s : TokenState) : PossibleKey :=
  ⟨!s.inFlow && s.indent = s.place.mark.column, s.count, s.place.mark⟩

theorem afterScalar_mark (unbroken : ∀ c ∈ cs, isBreak c = false) (rest : List Char)
    (text : ScalarText) :
    (s.afterScalar cs rest text).place.mark = cs.foldl Mark.advance s.place.mark :=
  foldl_pass_of_unbroken unbroken _

theorem afterScalar_key (allowed : s.keyAllowed = true) :
    (s.afterScalar cs rest text).key = some s.keyHere := by
  simp [afterScalar, emit, TokenState.saved, TokenState.approached, allowed, inFlow, keyHere]

/-- A short scalar on one line may still be a key behind it. -/
theorem not_stale_afterScalar (fits : IsKeyText cs) :
    ¬ Stale (s.afterScalar cs rest text).place.mark s.keyHere := by
  have bytes := bytes_foldl_advance s.place.mark cs
  have short := fits.short
  rw [afterScalar_mark fits.unbroken]
  rintro (before | long)
  · rw [(foldl_advance _ _).1] at before
    exact Nat.lt_irrefl _ before
  · have start : s.keyHere.mark.bytes = s.place.mark.bytes := rfl
    omega

theorem Idle.approach_afterScalar (idle : s.Idle)
    (column : s.outerKeys = [] → s.indent ≤ s.place.mark.column) (allowed : s.keyAllowed = true)
    (fits : IsKeyText cs) (rest : List Char) (text : ScalarText) :
    (s.afterScalar cs (':' :: rest) text).approach =
      some (s.afterScalar cs (':' :: rest) text).approached := by
  refine approach_eq rfl ⟨rfl, rfl, by decide, by decide⟩ ?_ ?_ ?_
  · intro k mem stale
    rw [afterScalar_key allowed] at mem
    obtain rfl := Option.some.inj mem
    exact absurd stale (not_stale_afterScalar fits)
  · exact fun key mem k inside => (idle.approached.outer key mem k inside).1
  · intro none
    have start := column (by simpa [afterScalar, emit, TokenState.approached] using none)
    have indent : (s.afterScalar cs (':' :: rest) text).indent = s.indent := rfl
    rw [indent, afterScalar_mark fits.unbroken, (foldl_advance _ _).2]
    omega

/-- The state after a scalar that starts here and the colon behind it. -/
def afterKey (s : TokenState) (cs rest : List Char) (text : ScalarText) : TokenState :=
  { ((s.afterScalar cs (':' :: rest) text).approached.insert s.count .key).roll
      s.place.mark.column s.count .blockMapping with
    key := none, keyAllowed := false }.take 1 .value

theorem next_afterScalar (allowed : s.keyAllowed = true) (fits : IsKeyText cs)
    (blank : atBlank rest = true) (text : ScalarText) :
    (s.afterScalar cs (':' :: rest) text).approached.next ':' = some (s.afterKey cs rest text) := by
  have key : (s.afterScalar cs (':' :: rest) text).approached.key = some s.keyHere := by
    rw [TokenState.approached, afterScalar_key allowed, fresh, Option.filter,
      decide_eq_false (not_stale_afterScalar fits)]
    rfl
  rw [next_colon (s := (s.afterScalar cs (':' :: rest) text).approached) rfl blank,
    TokenState.value, key]
  rfl

theorem afterKey_rest : (s.afterKey cs rest text).place.rest = rest := by
  simp [afterKey, TokenState.take, emit, Place.drop, roll_place, insert, afterScalar,
    TokenState.approached]

theorem afterKey_column (unbroken : ∀ c ∈ cs, isBreak c = false) :
    (s.afterKey cs rest text).place.mark.column = s.place.mark.column + cs.length + 1 := by
  have mark := afterScalar_mark (s := s) unbroken (':' :: rest) text
  simp only [afterKey, TokenState.take, emit, Place.drop, roll_place]
  change (s.afterScalar cs (':' :: rest) text).place.mark.column + 1 = _
  rw [mark, (foldl_advance _ _).2]

theorem afterKey_outerKeys : (s.afterKey cs rest text).outerKeys =
    (s.afterScalar cs (':' :: rest) text).approached.outerKeys := by
  simp only [afterKey, TokenState.take, emit]
  rw [roll_outerKeys]
  rfl

/-- The key is put in front of its scalar, and a block mapping in front of the key where one is
opened. -/
theorem Idle.after_afterKey (idle : s.Idle) (fits : IsKeyText cs) :
    (s.roll s.place.mark.column s.count .blockMapping).After s.outerKeys.length rest
      [.key, .scalar text, .value] (s.afterKey cs rest text) := by
  have inserted : ((s.afterScalar cs (':' :: rest) text).approached.insert s.count .key).tokens =
      .scalar text :: .key :: s.tokens := by
    simp [insert, afterScalar, emit, TokenState.approached]
  have flow : ((s.afterScalar cs (':' :: rest) text).approached.insert s.count .key).inFlow =
      s.inFlow := by
    simp [inFlow, insert, afterScalar, emit, TokenState.approached]
  obtain ⟨tokens, count, indent, outerIndents⟩ :=
    roll_behind [.scalar text, .key] s.place.mark.column .blockMapping flow rfl rfl inserted rfl
  have line : (s.afterScalar cs (':' :: rest) text).place.mark.line = s.place.mark.line := by
    rw [afterScalar_mark fits.unbroken, (foldl_advance _ _).1]
  exact {
    rest_eq := afterKey_rest
    tokens_eq := congrArg (Token.value :: ·) tokens
    count_eq := congrArg (· + 1) count
    indent_eq := indent
    outerIndents_eq := outerIndents
    depth_eq := by
      rw [afterKey_outerKeys]
      simp [afterScalar, emit, TokenState.approached]
    idle := by
      refine ⟨fun k mem => absurd mem (Option.not_mem_none k), fun key mem k inside => ?_⟩
      rw [afterKey_outerKeys] at mem
      obtain ⟨key, among, rfl⟩ := List.mem_map.mp mem
      simp only [afterKey, TokenState.take, emit, Place.drop, roll_place]
      change k.required = false ∧
        k.mark.line ≤ (s.afterScalar cs (':' :: rest) text).place.mark.line
      rw [line]
      exact idle.approached.outer key among k (mem_of_mem_fresh inside) }

/-- A scalar before a colon is a key. It opens a block mapping if it stands further to the right
than the block around it. -/
theorem Idle.mappingKey (idle : s.Idle) (column : s.outerKeys = [] → s.indent ≤ s.place.mark.column)
    (allowed : s.keyAllowed = true) (form : ScalarForm s.inFlow cs text) (fits : IsKeyText cs)
    (found : s.place.rest = cs ++ ':' :: rest) (blank : atBlank rest = true) :
    ∃ t, s.Reaches t ∧ (s.roll s.place.mark.column s.count .blockMapping).After s.outerKeys.length
      rest [.key, .scalar text, .value] t ∧ s.place.mark.column < t.place.mark.column := by
  have scalar := idle.scalar column form found (.colon blank)
  have approached := idle.approach_afterScalar column allowed fits rest text
  have scanned := next_afterScalar allowed fits blank text
  have shorter : (s.afterKey cs rest text).place.rest.length < (':' :: rest).length := by
    rw [afterKey_rest]
    exact Nat.lt_succ_self _
  refine ⟨_, scalar.trans (.token approached rfl scanned (fun _ => rfl) shorter),
    idle.after_afterKey fits, ?_⟩
  rw [afterKey_column fits.unbroken]
  omega

end TokenState

end ArenaVariations.Yaml
