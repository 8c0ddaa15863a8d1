import ArenaVariations.Proofs.Yaml.Token.Quoted
import Mathlib.Data.List.Infix

/-!
# Written texts are read back

A text that is written plainly is read as a plain scalar, `isPlain_of_plainAllowed`, and one in
single quotes, double quotes or as a JSON string is read as a quoted one, `isQuoted_single`,
`isQuoted_double` and `isQuoted_json`. Two of these need more than the choice of the style
guarantees: inside of a flow collection a plain scalar has to be `IsFlowSafe`, and a JSON string
shows separators as they are, so that its lines have to be kept, `keepsLines`.
-/

namespace ArenaVariations.Yaml

/-- The mark around a quoted text. -/
def quoteMark (double : Bool) : Char :=
  if double then '"' else '\''

/-- What stands behind the opening quote of a text, up to its closing quote. -/
structure IsQuoted (double : Bool) (inner text : List Char) : Prop where
  printable : ∀ c ∈ inner, isPrintable c = true
  read {m : Mark} {rest : List Char} (inLine : 0 < m.column) (closed : rest.head? ≠ some '\'') :
    scanQuoted double (.words .wordStart) .empty m (inner ++ rest) =
      some (text, ⟨rest, inner.foldl Mark.pass m⟩)

/-- How a scalar is written, inside of a flow collection if `flow`, and the text of its token. -/
inductive ScalarForm (flow : Bool) : List Char → ScalarText → Prop where
  | plain {cs : List Char} (plain : IsPlain flow cs) : ScalarForm flow cs ⟨cs, true⟩
  | quoted {double : Bool} {inner cs : List Char} (quoted : IsQuoted double inner cs) :
      ScalarForm flow (quoteMark double :: inner) ⟨cs, false⟩

theorem isSolid_quoteMark (double : Bool) : IsSolid (quoteMark double) := by
  cases double <;> exact ⟨rfl, rfl, by decide, by decide⟩

namespace ScalarForm

variable {flow : Bool} {cs : List Char} {text : ScalarText}

theorem head (form : ScalarForm flow cs text) : ∃ c more, cs = c :: more ∧ IsSolid c := by
  cases form with
  | plain plain =>
    obtain ⟨first, more, split, start⟩ := plain.start
    exact ⟨first, more, split, start.solid⟩
  | quoted => exact ⟨_, _, rfl, isSolid_quoteMark _⟩

theorem printable (form : ScalarForm flow cs text) : ∀ c ∈ cs, isPrintable c = true := by
  cases form with
  | plain plain => exact plain.printable
  | @quoted double _ _ quoted =>
    refine List.forall_mem_cons.mpr ⟨?_, quoted.printable⟩
    cases double <;> rfl

end ScalarForm

theorem isChain_of_hasPair {p : Char → Char → Bool} {cs : List Char}
    (none : hasPair p cs = false) : cs.IsChain fun a b => p a b = false := by
  induction cs with
  | nil => exact .nil
  | cons a cs ih =>
    cases cs with
    | nil => exact .singleton a
    | cons b cs =>
      rw [hasPair, Bool.or_eq_false_iff] at none
      exact .cons_cons none.1 (ih none.2)

theorem eq_false_of_hasPair {p : Char → Char → Bool} {cs : List Char} (none : hasPair p cs = false)
    {a b : Char} (inside : [a, b] <:+: cs) : p a b = false := by
  obtain ⟨before, after, rfl⟩ := inside
  have pair := (isChain_of_hasPair none).left_of_append.right_of_append
  exact (List.isChain_cons.mp pair).1 b rfl

/-- A text that may stand plainly inside of a flow collection too, if it holds none of the
characters that delimit one: there a question mark and a colon mean more. -/
structure IsFlowSafe (cs : List Char) : Prop where
  start : cs.head? ≠ some '?' ∧ cs.head? ≠ some ':'
  question : ¬ [':', '?'] <:+: cs

instance {cs : List Char} : Decidable (IsFlowSafe cs) :=
  decidable_of_iff ((cs.head? ≠ some '?' ∧ cs.head? ≠ some ':') ∧ ¬ [':', '?'] <:+: cs)
    ⟨fun h => ⟨h.1, h.2⟩, fun h => ⟨h.start, h.question⟩⟩

theorem isPrintable_of_hasSpecial {cs : List Char} (none : TextStyle.hasSpecial cs = false) :
    ∀ c ∈ cs, isPrintable c = true := by
  intro c mem
  have := List.any_eq_false.mp none c mem
  simpa using this

/-- What may be written plainly stands on one line. -/
theorem visible_of_plainAllowed {cs : List Char} (allowed : TextStyle.plainAllowed cs = true) :
    (∀ c ∈ cs, isPrintable c = true) ∧ ∀ c ∈ cs, isBreak c = false := by
  simp only [TextStyle.plainAllowed, Bool.not_eq_true', Bool.or_eq_false_iff] at allowed
  obtain ⟨⟨⟨-, line⟩, special⟩, -⟩ := allowed
  refine ⟨isPrintable_of_hasSpecial special, fun c mem => ?_⟩
  have ends := List.any_eq_false.mp line c mem
  simp only [endsLine, Bool.or_eq_true, not_or, Bool.not_eq_true] at ends
  exact ends.1.1

/-- What may be written plainly is read as a plain scalar. -/
theorem isPlain_of_plainAllowed {flow : Bool} {cs : List Char}
    (allowed : TextStyle.plainAllowed cs = true) (filled : cs ≠ [])
    (delimited : flow = true → ∀ c ∈ cs, isFlowIndicator c = false)
    (safe : flow = true → IsFlowSafe cs) : IsPlain flow cs := by
  obtain ⟨printable, unbroken⟩ := visible_of_plainAllowed allowed
  simp only [TextStyle.plainAllowed, Bool.not_eq_true', Bool.or_eq_false_iff] at allowed
  obtain ⟨⟨⟨⟨head, last⟩, -⟩, -⟩, indicator⟩ := allowed
  simp only [TextStyle.hasIndicator, Bool.or_eq_false_iff] at indicator
  obtain ⟨⟨atStart, colon, lastColon⟩, comment⟩ := indicator
  obtain ⟨first, more, rfl⟩ := List.exists_cons_of_ne_nil filled
  simp only [Bool.or_eq_false_iff, decide_eq_false_iff_not] at atStart
  obtain ⟨⟨⟨notIndicator, before⟩, dashes⟩, points⟩ := atStart
  have solid : IsSolid first := by
    have space : first ≠ ' ' := by
      rintro rfl
      cases head
    have here : first ∈ first :: more := List.mem_cons_self
    refine ⟨unbroken _ here, isBlank_of_isPrintable (printable _ here) space, ?_, ?_⟩
    · rintro rfl
      cases notIndicator
    · rintro rfl
      exact absurd (printable _ here) (by decide)
  have pairs : (first :: more).IsChain (Adjoins flow) := by
    refine (List.isChain_isInfix (first :: more)).imp fun a b inside => ?_
    have noValue := eq_false_of_hasPair colon inside
    have noComment := eq_false_of_hasPair comment inside
    refine ⟨fun gap is => ?_, fun is => ?_, fun inFlow is question => ?_⟩
    · simp [gap, is] at noComment
    · simpa [is] using noValue
    · subst is question
      exact (safe inFlow).question inside
  exact {
    printable
    unbroken
    delimited
    start := by
      refine ⟨first, more, rfl, solid, notIndicator, fun is => ?_, fun inFlow => ?_⟩
      · have known : ['?', '-'].contains first = true := by obtain rfl | rfl := is <;> rfl
        rw [known, Bool.true_and] at before
        cases found : more.head? with
        | none =>
          rw [found] at before
          cases before
        | some second =>
          rw [found, Option.all_some] at before
          exact ⟨second, rfl, before⟩
      · have := (safe inFlow).start
        simpa using this
    adjoins := pairs
    last := by
      intro c mem
      rw [Option.mem_def.mp mem, Option.any_some, Bool.or_eq_false_iff] at last
      rw [Option.mem_def.mp mem] at lastColon
      exact ⟨by simpa using last.1, by simpa using lastColon⟩
    noMarker := ⟨dashes, points⟩ }

section

variable {cs : List Char}

theorem mem_writeSingleBody {indent : Nat} {afterBreak : Bool} {c : Char}
    (mem : c ∈ writeSingleBody indent afterBreak cs) : c ∈ cs ∨ c = ' ' ∨ c = '\'' := by
  induction cs generalizing afterBreak with
  | nil =>
    rw [writeSingleBody] at mem
    split at mem
    · exact .inr (.inl (List.eq_of_mem_replicate mem))
    · cases mem
  | cons d cs ih =>
    have later : ∀ {afterBreak}, c ∈ writeSingleBody indent afterBreak cs →
        c ∈ d :: cs ∨ c = ' ' ∨ c = '\'' := fun mem => (ih mem).imp_left (List.mem_cons_of_mem _)
    rw [writeSingleBody] at mem
    split at mem
    · obtain rfl | mem := List.mem_cons.mp mem
      · exact .inl List.mem_cons_self
      · exact later mem
    · obtain (margin | shown) | mem := (List.mem_append.mp mem).imp_left List.mem_append.mp
      · split at margin
        · exact .inr (.inl (List.eq_of_mem_replicate margin))
        · cases margin
      · split at shown
        · exact .inr (.inr (by simpa using shown))
        · exact .inl (by simp [List.mem_singleton.mp shown])
      · exact later mem

/-- What may be written in single quotes is read back from them. -/
theorem isQuoted_single (allowed : TextStyle.singleAllowed cs = true) (newline : '\n' ∉ cs)
    {indent : Nat} (indented : 0 < indent) :
    IsQuoted false (writeSingleBody indent false cs ++ ['\'']) cs := by
  simp only [TextStyle.singleAllowed, Bool.not_eq_true', Bool.or_eq_false_iff] at allowed
  obtain ⟨⟨after, before⟩, special⟩ := allowed
  have printable := isPrintable_of_hasSpecial special
  have apart : cs.IsChain (Apart true) := by
    refine (List.isChain_isInfix cs).imp fun a b inside _ => ⟨?_, ?_⟩
    · rintro ⟨separator, rfl⟩
      have := eq_false_of_hasPair after inside
      simp [isBreak, separator] at this
    · rintro ⟨rfl, separator⟩
      have := eq_false_of_hasPair before inside
      simp [isBreak, separator] at this
  refine ⟨fun c mem => ?_, fun {m rest} inLine closed => ?_⟩
  · obtain mem | rfl := (List.mem_append.mp mem).imp_right List.mem_singleton.mp
    · obtain mem | rfl | rfl := mem_writeSingleBody mem
      · exact printable c mem
      all_goals rfl
    · rfl
  · have read := scanQuoted_single .start printable newline (by simp) apart (.inl inLine) closed
      indented
    rw [List.append_assoc]
    exact read

/-- An escape is more than its character. -/
theorem escapeChar_ne (c : Char) : escapeChar c ≠ [c] := by
  unfold escapeChar
  split
  case h_16 => split <;> [skip; split] <;> simp
  all_goals simp

/-- Between double quotes, what is written as itself is printable and ends no line. -/
theorem of_showInDouble {c : Char} (itself : showInDouble c = [c]) :
    isPrintable c = true ∧ isBreak c = false := by
  rw [showInDouble] at itself
  split at itself
  case isTrue => exact absurd itself (escapeChar_ne c)
  case isFalse plain =>
    simp only [Bool.or_eq_true, Bool.not_eq_true', not_or, Bool.not_eq_false,
      Bool.not_eq_true] at plain
    exact plain.1.1

/-- Any text is read back from double quotes. -/
theorem isQuoted_double (cs : List Char) : IsQuoted true (cs.flatMap showInDouble ++ ['"']) cs := by
  have escaped : ∀ c ∈ cs, isSeparator c = true → showInDouble c = [c] → false = true := by
    intro c _ separator itself
    have := (of_showInDouble itself).2
    simp [isBreak, separator] at this
  have apart : cs.IsChain (Apart false) := (List.isChain_isInfix cs).imp fun _ _ _ =>
    (absurd · Bool.false_ne_true)
  refine ⟨fun c mem => ?_, fun {m rest} inLine closed => ?_⟩
  · obtain mem | rfl := (List.mem_append.mp mem).imp_right List.mem_singleton.mp
    · obtain ⟨d, -, shown⟩ := List.mem_flatMap.mp mem
      exact (encodes_showInDouble d).printable (fun itself => (of_showInDouble itself).1) c shown
    · rfl
  · have read := scanQuoted_double .start (fun c _ => encodes_showInDouble c) escaped (by simp)
      apart (fun margin => absurd margin (Nat.ne_of_gt inLine)) (fun _ _ _ => by simp) closed
    rw [List.append_assoc]
    exact read

end

/-- Whether a line starts with a marker that would end the document. -/
def startsWithMarker (line : List Char) : Bool :=
  (line.take 3 = ['-', '-', '-'] || line.take 3 = ['.', '.', '.'])
    && (line.drop 3).head?.any fun d => d = ' ' || isSeparator d

/-- Whether a line behind a separator is read as it is. -/
def keepsLine : List Char → Bool
  | c :: line => !isSeparator c || (line.head? ≠ some ' ' && !startsWithMarker line)
  | [] => true

/-- Whether every line behind a separator is read as it is: no space stands at its start, and no
marker that would end the document. -/
def keepsLines (cs : List Char) : Bool :=
  cs.tails.all keepsLine

theorem keepsLine_of_suffix {cs : List Char} (kept : keepsLines cs = true) {c : Char}
    {line : List Char} (suffix : c :: line <:+ cs) (separator : isSeparator c = true) :
    line.head? ≠ some ' ' ∧ startsWithMarker line = false := by
  have here := List.all_eq_true.mp kept _ ((List.mem_tails _ _).mpr suffix)
  simpa [keepsLine, separator] using here

/-- A character is written in JSON as itself, or its text starts with a backslash. -/
theorem jsonChar_eq (c : Char) : Text.jsonChar c = [c] ∨
    ∃ code, Text.jsonChar c = '\\' :: code := by
  unfold Text.jsonChar
  split
  case h_8 => split <;> simp
  all_goals simp

/-- A mark at the start of a JSON text stands in the text. -/
theorem eq_cons_of_jsonChars {mark : Char} (backslash : mark ≠ '\\') (quote : mark ≠ '"')
    {cs rest others : List Char}
    (starts : cs.flatMap Text.jsonChar ++ '"' :: rest = mark :: others) :
    ∃ more, cs = mark :: more ∧ others = more.flatMap Text.jsonChar ++ '"' :: rest := by
  cases cs with
  | nil => exact absurd (List.cons.inj starts).1.symm quote
  | cons c cs =>
    rw [List.flatMap_cons, List.append_assoc] at starts
    obtain itself | ⟨code, escaped⟩ := jsonChar_eq c
    · rw [itself] at starts
      obtain ⟨rfl, rfl⟩ := List.cons.inj starts
      exact ⟨cs, rfl, rfl⟩
    · rw [escaped] at starts
      exact absurd (List.cons.inj starts).1.symm backslash

/-- A document marker in a JSON text stands in the text. -/
theorem atDocumentMarker_jsonChars {line : List Char} (harmless : startsWithMarker line = false)
    (rest : List Char) : atDocumentMarker (line.flatMap Text.jsonChar ++ '"' :: rest) = false := by
  by_contra marker
  unfold atDocumentMarker at marker
  split at marker
  case h_2 => exact marker rfl
  case h_1 a b c others begins =>
    simp only [Bool.not_eq_false, decide_eq_true_eq] at marker
    obtain ⟨is, rfl, rfl, blank⟩ := marker
    have plain : c ≠ '\\' ∧ c ≠ '"' := by obtain rfl | rfl := is <;> decide
    -- the three characters of the marker stand in the text one after another
    obtain ⟨second, rfl, goes⟩ := eq_cons_of_jsonChars plain.1 plain.2 begins
    obtain ⟨third, rfl, ends⟩ := eq_cons_of_jsonChars plain.1 plain.2 goes.symm
    obtain ⟨after, rfl, rfl⟩ := eq_cons_of_jsonChars plain.1 plain.2 ends.symm
    -- so does the blank behind it
    have marks : startsWithMarker (c :: c :: c :: after) =
        after.head?.any fun d => d = ' ' || isSeparator d := by
      obtain rfl | rfl := is <;> cases after <;> simp [startsWithMarker]
    rw [marks] at harmless
    cases after with
    | nil => cases blank
    | cons d after =>
      have solid : d ≠ ' ' ∧ isSeparator d = false := by simpa using harmless
      rw [List.flatMap_cons, List.append_assoc] at blank
      obtain itself | ⟨code, escaped⟩ := jsonChar_eq d
      · have other : d ≠ '\n' ∧ d ≠ '\t' := by
          constructor <;> rintro rfl <;> revert itself <;> decide
        rw [itself] at blank
        simp [atBlank, isBlank, isBreak, solid, other] at blank
      · rw [escaped] at blank
        cases blank

/-- A text without separators has no lines that could be lost. -/
theorem keepsLines_of_unseparated {cs : List Char} (unseparated : ∀ c ∈ cs, isSeparator c = false) :
    keepsLines cs = true := by
  refine List.all_eq_true.mpr fun line mem => ?_
  cases line with
  | nil => rfl
  | cons c line =>
    have inside : c ∈ cs := ((List.mem_tails _ _).mp mem).subset List.mem_cons_self
    simp [keepsLine, unseparated c inside]

theorem keepsLines_of_unbroken {cs : List Char} (unbroken : ∀ c ∈ cs, isBreak c = false) :
    keepsLines cs = true := by
  refine keepsLines_of_unseparated fun c mem => ?_
  have := unbroken c mem
  simp only [isBreak, decide_eq_false_iff_not, not_or, Bool.not_eq_true] at this
  exact this.2

/-- A text of printable characters is read back as a JSON string, if its lines are kept. -/
theorem isQuoted_json {cs : List Char} (printable : ∀ c ∈ cs, isPrintable c = true)
    (before : TextStyle.hasSpaceBeforeBreak cs = false) (kept : keepsLines cs = true) :
    IsQuoted true (cs.flatMap Text.jsonChar ++ ['"']) cs := by
  have apart : cs.IsChain (Apart true) := by
    refine (List.isChain_isInfix cs).imp fun a b inside _ => ⟨?_, ?_⟩
    · rintro ⟨separator, rfl⟩
      obtain ⟨start, line, split⟩ := inside
      have suffix : a :: ' ' :: line <:+ cs := ⟨start, by simpa using split⟩
      exact (keepsLine_of_suffix kept suffix separator).1 rfl
    · rintro ⟨rfl, separator⟩
      have := eq_false_of_hasPair before inside
      simp [isBreak, separator] at this
  refine ⟨fun c mem => ?_, fun {m rest} inLine closed => ?_⟩
  · obtain mem | rfl := (List.mem_append.mp mem).imp_right List.mem_singleton.mp
    · obtain ⟨d, among, shown⟩ := List.mem_flatMap.mp mem
      exact (encodes_jsonChar (printable d among)).printable (fun _ => printable d among) c shown
    · rfl
  · have read := scanQuoted_double .start (fun c mem => encodes_jsonChar (printable c mem))
      (fun _ _ _ _ => rfl) (by simp) apart (fun margin => absurd margin (Nat.ne_of_gt inLine))
      (fun c line suffix _ separator =>
        atDocumentMarker_jsonChars (keepsLine_of_suffix kept suffix separator).2 rest) closed
    rw [List.append_assoc]
    exact read

end ArenaVariations.Yaml
