import ArenaVariations.Proofs.Yaml.Token.Folding
import ArenaVariations.Yaml.Text.Style

/-!
# Plain scalars

A plain scalar is read as its text if no place in it starts a comment, a value or something else
that YAML marks with a character: `IsPlain` says which texts these are, outside and inside of flow
collections, and `scanPlain_eq` that a pass goes through them. Which characters may follow them is
`Stops`.
-/

namespace ArenaVariations.Yaml

/-- A character that starts something: no blank, no break and no comment. -/
structure IsSolid (c : Char) : Prop where
  notBreak : isBreak c = false
  notBlank : isBlank c = false
  notComment : c ≠ '#'
  notMark : c ≠ byteOrderMark

/-- The characters that start something else than a plain scalar. -/
def isIndicator (c : Char) : Bool :=
  ['#', ',', '[', ']', '\x7b', '\x7d', '&', '*', '!', '|', '>', '\'', '"', '%', '@', '`'].contains c

/-- Two neighbours in a plain scalar: there is no comment, no colon that opens a value and, inside
of a flow collection, no colon before a question mark. -/
structure Adjoins (flow : Bool) (a b : Char) : Prop where
  comment : isGap a = true → b ≠ '#'
  value : a = ':' → isGap b = false
  question : flow = true → a = ':' → b ≠ '?'

/-- The beginning of a plain scalar. A dash, a question mark or a colon has another meaning before
a gap; the last two have it anywhere inside of a flow collection. -/
structure StartsPlain (flow : Bool) (first : Char) (more : List Char) : Prop where
  solid : IsSolid first
  notIndicator : isIndicator first = false
  beforeSolid : first = '-' ∨ first = '?' → ∃ second ∈ more.head?, isGap second = false
  inFlow : flow = true → first ≠ '?' ∧ first ≠ ':'

/-- A text that is read as a plain scalar, inside of a flow collection if `flow`. -/
structure IsPlain (flow : Bool) (cs : List Char) : Prop where
  printable : ∀ c ∈ cs, isPrintable c = true
  unbroken : ∀ c ∈ cs, isBreak c = false
  delimited : flow = true → ∀ c ∈ cs, isFlowIndicator c = false
  start : ∃ first more, cs = first :: more ∧ StartsPlain flow first more
  adjoins : cs.IsChain (Adjoins flow)
  last : ∀ c ∈ cs.getLast?, c ≠ ' ' ∧ c ≠ ':'
  noMarker : cs.take 3 ≠ ['-', '-', '-'] ∧ cs.take 3 ≠ ['.', '.', '.']

/-- What may follow a scalar on its line. -/
inductive Stops (flow : Bool) : List Char → Prop where
  | done : Stops flow []
  | colon {rest : List Char} (blank : atBlank rest = true) : Stops flow (':' :: rest)
  | indicator {c : Char} (inFlow : flow = true) (indicator : isFlowIndicator c = true)
      (rest : List Char) : Stops flow (c :: rest)

theorem eq_of_isFlowIndicator {c : Char} (h : isFlowIndicator c = true) :
    c = ',' ∨ c = '[' ∨ c = ']' ∨ c = '\x7b' ∨ c = '\x7d' := by
  simpa [isFlowIndicator] using h

theorem Stops.head {flow : Bool} {rest : List Char} (stops : Stops flow rest) :
    ∀ c ∈ rest.head?, c ≠ '\'' ∧ c ≠ '-' ∧ c ≠ '.' := by
  intro c mem
  cases stops with
  | done => cases mem
  | colon =>
    obtain rfl := Option.some.inj mem
    decide
  | indicator _ indicator =>
    obtain rfl := Option.some.inj mem
    obtain rfl | rfl | rfl | rfl | rfl := eq_of_isFlowIndicator indicator <;> decide

theorem isGap_eq_false {c : Char} (h : isGap c = false) :
    isBlank c = false ∧ isBreak c = false := by
  simp only [isGap, endsLine, Bool.or_eq_false_iff] at h
  exact ⟨h.1, h.2.1.1⟩

theorem isBlank_of_isPrintable {c : Char} (printable : isPrintable c = true) (other : c ≠ ' ') :
    isBlank c = false := by
  have tab : c ≠ '\t' := by
    rintro rfl
    cases printable
  simp [isBlank, other, tab]

namespace IsPlain

variable {flow : Bool} {cs : List Char}

theorem starts {first : Char} {more : List Char} (h : IsPlain flow (first :: more)) :
    StartsPlain flow first more := by
  obtain ⟨_, _, same, start⟩ := h.start
  obtain ⟨rfl, rfl⟩ := List.cons.inj same
  exact start

/-- No gap follows a first character that has another meaning before one. -/
theorem atBlank_eq {first : Char} {more : List Char} (h : IsPlain flow (first :: more))
    (special : first = '-' ∨ first = '?' ∨ first = ':') (rest : List Char) :
    atBlank (more ++ rest) = false := by
  obtain ⟨second, head, solid⟩ : ∃ second ∈ more.head?, isGap second = false := by
    obtain is | is | rfl := special
    · exact h.starts.beforeSolid (.inl is)
    · exact h.starts.beforeSolid (.inr is)
    · cases more with
      | nil => exact absurd rfl (h.last ':' rfl).2
      | cons second more =>
        exact ⟨second, rfl, ((List.isChain_cons.mp h.adjoins).1 second rfl).value rfl⟩
  obtain ⟨others, rfl⟩ := List.head?_eq_some_iff.mp head
  simp [atBlank, isGap_eq_false solid]

/-- No document marker starts with a plain scalar. -/
theorem atDocumentMarker_eq (h : IsPlain flow cs) {rest : List Char}
    (follows : ∀ c ∈ rest.head?, c ≠ '-' ∧ c ≠ '.') : atDocumentMarker (cs ++ rest) = false := by
  by_contra marker
  obtain ⟨first, more, rfl, -⟩ := h.start
  have short : ∀ d, d = '-' ∨ d = '.' → rest.head? ≠ some d := by
    rintro d is head
    have := follows d head
    obtain rfl | rfl := is <;> simp at this
  unfold atDocumentMarker at marker
  split at marker
  case h_2 => exact marker rfl
  case h_1 a b c others split =>
    simp only [Bool.not_eq_false, decide_eq_true_eq] at marker
    obtain ⟨is, rfl, rfl, -⟩ := marker
    match more with
    | [] =>
      obtain ⟨rfl, rfl⟩ := List.cons.inj split
      exact short _ is rfl
    | [_] =>
      obtain ⟨rfl, same⟩ := List.cons.inj split
      obtain ⟨rfl, rfl⟩ := List.cons.inj same
      exact short _ is rfl
    | _ :: _ :: more =>
      obtain ⟨rfl, same⟩ := List.cons.inj split
      obtain ⟨rfl, same⟩ := List.cons.inj same
      obtain ⟨rfl, rfl⟩ := List.cons.inj same
      obtain rfl | rfl := is
      · exact h.noMarker.1 rfl
      · exact h.noMarker.2 rfl

end IsPlain

section

variable {flow : Bool} {indent : Int} {m : Mark} {phase : WordPhase} {f : Folding}

/-- A character of a plain scalar that is not its first is passed. -/
theorem scanPlain_cons {a c : Char} {done rest : List Char}
    (standing : Standing false phase f (a :: done)) (inLine : 0 < m.column)
    (indented : flow = false → indent ≤ m.column) (printable : isPrintable c = true)
    (unbroken : isBreak c = false) (delimited : flow = true → isFlowIndicator c = false)
    (adjoins : Adjoins flow a c)
    (colon : c = ':' →
      ∃ d ∈ rest.head?, Adjoins flow c d ∧ (flow = true → isFlowIndicator d = false)) :
    ∃ phase' f', Standing false phase' f' (c :: a :: done) ∧
      scanPlain flow indent phase f m (c :: rest) =
        scanPlain flow indent phase' f' (m.advance c) rest := by
  by_cases space : c = ' '
  · subst space
    refine ⟨.gap, f.addBlank ' ', standing.addBlank fun _ _ => nofun, ?_⟩
    have blank : isBlank ' ' = true := rfl
    rw [scanPlain, blank]
    simp
  refine ⟨.word, _, standing.push c, ?_⟩
  have blank := isBlank_of_isPrintable printable space
  have column : ¬ (phase = .gap ∧ (!flow) = true ∧ (m.column : Int) < indent) := by
    rintro ⟨-, outside, before⟩
    have := indented (by simpa using outside)
    omega
  have comment : ¬ (phase ≠ .word ∧
      (c = '#' ∨ (m.column = 0 ∧ atDocumentMarker (c :: rest) = true))) := by
    rintro ⟨gap, rfl | ⟨margin, -⟩⟩
    · obtain rfl := standing.eq_space gap
      exact adjoins.comment rfl rfl
    · omega
  have question : ¬ (flow = true ∧ c = ':' ∧
      (rest.head?.any fun d => d = '?' || isFlowIndicator d) = true) := by
    rintro ⟨inFlow, rfl, special⟩
    obtain ⟨d, head, next, indicator⟩ := colon rfl
    rw [Option.mem_def.mp head, Option.any_some, Bool.or_eq_true, decide_eq_true_eq] at special
    obtain rfl | is := special
    · exact next.question inFlow rfl rfl
    · rw [indicator inFlow] at is
      cases is
  have value : ¬ ((c = ':' ∧ atBlank rest = true) ∨ (flow = true ∧ isFlowIndicator c = true)) := by
    rintro (⟨rfl, ends⟩ | ⟨inFlow, is⟩)
    · obtain ⟨d, head, next, -⟩ := colon rfl
      obtain ⟨others, rfl⟩ := List.head?_eq_some_iff.mp head
      have := isGap_eq_false (next.value rfl)
      simp [atBlank, this] at ends
    · rw [delimited inFlow] at is
      cases is
  rw [scanPlain, blank, unbroken, if_neg Bool.false_ne_true, if_neg Bool.false_ne_true,
    if_neg column, if_neg comment, if_neg question, if_neg value, standing.join_eq]

/-- A plain scalar is passed behind its first character. -/
theorem scanPlain_append {a : Char} {done cs : List Char} (rest : List Char)
    (standing : Standing false phase f (a :: done)) (inLine : 0 < m.column)
    (indented : flow = false → indent ≤ m.column) (printable : ∀ c ∈ cs, isPrintable c = true)
    (unbroken : ∀ c ∈ cs, isBreak c = false)
    (delimited : flow = true → ∀ c ∈ cs, isFlowIndicator c = false)
    (adjoins : (a :: cs).IsChain (Adjoins flow)) (last : cs.getLast? ≠ some ':') :
    ∃ phase' f', Standing false phase' f' (cs.reverse ++ a :: done) ∧
      scanPlain flow indent phase f m (cs ++ rest) =
        scanPlain flow indent phase' f' (cs.foldl Mark.advance m) rest := by
  induction cs generalizing a done phase f m with
  | nil => exact ⟨phase, f, standing, rfl⟩
  | cons c cs ih =>
    obtain ⟨next, others⟩ := List.isChain_cons.mp adjoins
    obtain ⟨after, -⟩ := List.isChain_cons.mp others
    -- a colon is not the last character
    have colon : c = ':' → ∃ d ∈ (cs ++ rest).head?, Adjoins flow c d ∧
        (flow = true → isFlowIndicator d = false) := by
      rintro rfl
      cases cs with
      | nil => exact absurd rfl last
      | cons d cs => exact ⟨d, rfl, after d rfl, fun inFlow => delimited inFlow d (by simp)⟩
    obtain ⟨phase', f', stands, passed⟩ := scanPlain_cons standing inLine indented
      (printable c (by simp)) (unbroken c (by simp)) (fun inFlow => delimited inFlow c (by simp))
      (next c rfl) colon
    have ends : cs.getLast? ≠ some ':' := by
      cases cs with
      | nil => simp
      | cons d cs => simpa using last
    have further : flow = false → indent ≤ (m.advance c).column := fun outside => by
      have := indented outside
      simp only [Mark.advance]
      omega
    obtain ⟨phase'', f'', finished, goes⟩ := ih stands (Nat.succ_pos _) further
      (fun d mem => printable d (by simp [mem])) (fun d mem => unbroken d (by simp [mem]))
      (fun inFlow d mem => delimited inFlow d (by simp [mem])) others ends
    refine ⟨phase'', f'', ?_, passed.trans goes⟩
    rw [List.reverse_cons, List.append_assoc]
    exact finished

/-- The first character of a plain scalar begins a word. -/
theorem scanPlain_start (m : Mark) {first : Char} {more rest : List Char}
    (plain : IsPlain flow (first :: more)) (follows : ∀ c ∈ rest.head?, c ≠ '-' ∧ c ≠ '.') :
    scanPlain flow indent .wordStart .empty m (first :: more ++ rest) =
      scanPlain flow indent .word (.ofText [first]) (m.advance first) (more ++ rest) := by
  have marker := plain.atDocumentMarker_eq follows
  obtain ⟨_, _, split, start⟩ := plain.start
  obtain ⟨rfl, rfl⟩ := List.cons.inj split
  have solid := start.solid
  have here : first ∈ first :: more := List.mem_cons_self
  have question : ¬ (flow = true ∧ first = ':' ∧
      ((more ++ rest).head?.any fun d => d = '?' || isFlowIndicator d) = true) :=
    fun ⟨inFlow, is, _⟩ => (start.inFlow inFlow).2 is
  have value : ¬ ((first = ':' ∧ atBlank (more ++ rest) = true) ∨
      (flow = true ∧ isFlowIndicator first = true)) := by
    rintro (⟨is, ends⟩ | ⟨inFlow, is⟩)
    · rw [plain.atBlank_eq (.inr (.inr is))] at ends
      cases ends
    · rw [plain.delimited inFlow first here] at is
      cases is
  rw [List.cons_append] at marker ⊢
  rw [scanPlain, solid.notBlank, solid.notBreak, marker, if_neg Bool.false_ne_true,
    if_neg Bool.false_ne_true, if_neg (by simp), if_neg (by simp [solid.notComment]),
    if_neg question, if_neg value]
  rfl

/-- A plain scalar is passed as a word. -/
theorem scanPlain_eq (m : Mark) {cs rest : List Char} (plain : IsPlain flow cs)
    (indented : flow = false → indent ≤ m.column + 1)
    (follows : ∀ c ∈ rest.head?, c ≠ '-' ∧ c ≠ '.') :
    scanPlain flow indent .wordStart .empty m (cs ++ rest) =
      scanPlain flow indent .word (.ofText cs.reverse) (cs.foldl Mark.advance m) rest := by
  obtain ⟨first, more, rfl, -⟩ := plain.start
  have last : more.getLast? ≠ some ':' := by
    intro is
    cases more with
    | nil => cases is
    | cons d more => exact (plain.last ':' (by simpa using is)).2 rfl
  have inLine : 0 < (m.advance first).column := Nat.succ_pos _
  have further : flow = false → indent ≤ (m.advance first).column := by
    simpa [Mark.advance] using indented
  obtain ⟨phase, f, standing, passed⟩ := scanPlain_append rest (.word [first]) inLine further
    (fun c mem => plain.printable c (by simp [mem])) (fun c mem => plain.unbroken c (by simp [mem]))
    (fun inFlow c mem => plain.delimited inFlow c (by simp [mem])) plain.adjoins last
  -- the text does not end with a space, so that the pass stands inside of a word
  have ends : ∃ c before, (first :: more).reverse = c :: before ∧ c ≠ ' ' := by
    obtain ⟨c, before, split⟩ := List.exists_cons_of_ne_nil (l := (first :: more).reverse) (by simp)
    refine ⟨c, before, split, (plain.last c ?_).1⟩
    rw [← List.head?_reverse, split]
    rfl
  obtain ⟨c, before, split, solid⟩ := ends
  rw [← List.reverse_cons, split] at standing
  obtain ⟨rfl, rfl⟩ := standing.eq_word solid
  rw [scanPlain_start m plain follows, passed, split]
  rfl

end

end ArenaVariations.Yaml
