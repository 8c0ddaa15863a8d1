import ArenaVariations.Text.Basic
import ArenaVariations.Yaml.Text.Style
import ArenaVariations.Proofs.Yaml.Token.Plain
import Mathlib.Algebra.Group.Nat.Defs

/-!
# Quoted scalars

A text between quotes is read back as it is: between single quotes a quote is written twice and
lines after the first are indented (`scanQuoted_single`), between double quotes a character stands
for itself or is escaped (`Encodes`, `scanQuoted_double`). A separator may stand for itself too, if
no space is beside it and if no document marker begins the line behind it.
-/

namespace ArenaVariations.Yaml

section

variable {double lines : Bool} {phase : WordPhase} {f : Folding} {m : Mark} {text rest : List Char}

/-- A space is held back. -/
theorem scanQuoted_space (m : Mark) (rest : List Char) :
    scanQuoted double (.words phase) f m (' ' :: rest) =
      scanQuoted double (.words .gap) (f.addBlank ' ') (m.pass ' ') rest := by
  have blank : isBlank ' ' = true := rfl
  have advance : m.pass ' ' = m.advance ' ' := rfl
  rw [scanQuoted, blank, if_pos rfl, advance]

/-- A separator is held back, and begins a line. -/
theorem scanQuoted_separator {c : Char} (separator : isSeparator c = true) (m : Mark)
    (rest : List Char) :
    scanQuoted double (.words phase) f m (c :: rest) =
      scanQuoted double (.words .gap) (f.addBreak c) (m.pass c) rest := by
  have breaks : isBreak c = true := by simp [isBreak, separator]
  have blank : isBlank c = false := by
    have : c ≠ ' ' ∧ c ≠ '\t' := by constructor <;> rintro rfl <;> cases separator
    simp [isBlank, this]
  rw [scanQuoted, blank, breaks, if_neg Bool.false_ne_true, if_pos rfl, Mark.pass, breaks,
    if_pos rfl]

/-- The indentation of a line inside of quotes is passed. -/
theorem scanQuoted_margin (broken : f.broken = true) (n : Nat) (m : Mark) (rest : List Char) :
    scanQuoted double (.words .gap) f m (List.replicate n ' ' ++ rest) =
      scanQuoted double (.words .gap) f ((List.replicate n ' ').foldl Mark.pass m) rest := by
  induction n generalizing m with
  | zero => rfl
  | succ n ih =>
    have kept : f.addBlank ' ' = f := by rw [Folding.addBlank, if_pos broken]
    rw [List.replicate_succ, List.cons_append, scanQuoted_space, kept]
    exact ih (m.pass ' ')

/-- A character that is neither a blank nor a break nor special ends a gap. -/
theorem scanQuoted_word (standing : Standing lines phase f text) {c : Char}
    (blank : isBlank c = false) (unbroken : isBreak c = false)
    (inside : m.column = 0 → atDocumentMarker (c :: rest) = false)
    (plain : if double then c ≠ '"' ∧ c ≠ '\\' else c ≠ '\'') :
    scanQuoted double (.words phase) f m (c :: rest) =
      scanQuoted double (.words .word) ((Folding.ofText text).push c) (m.pass c) rest := by
  have marker : ¬ (phase ≠ .word ∧ m.column = 0 ∧ atDocumentMarker (c :: rest) = true) := by
    rintro ⟨-, margin, is⟩
    rw [inside margin] at is
    cases is
  rw [scanQuoted, blank, unbroken, if_neg Bool.false_ne_true, if_neg Bool.false_ne_true, Mark.pass,
    unbroken, if_neg Bool.false_ne_true]
  simp only [standing.joined_eq, if_neg marker]
  cases double with
  | true =>
    simp only [if_true] at plain
    simp [plain]
  | false =>
    have other : c ≠ '\'' := by simpa using plain
    simp [other]

/-- The closing quote gives the text. -/
theorem scanQuoted_close (double : Bool) (m : Mark) (standing : Standing lines phase f text)
    (closed : rest.head? ≠ some '\'') :
    scanQuoted double (.words phase) f m ((if double then '"' else '\'') :: rest) =
      some (text.reverse, ⟨rest, m.pass (if double then '"' else '\'')⟩) := by
  cases double with
  | true =>
    have marker := atDocumentMarker_cons (c := '"') (by decide) (by decide) rest
    have blank : isBlank '"' = false := rfl
    have unbroken : isBreak '"' = false := rfl
    simp only [if_true]
    rw [scanQuoted, blank, unbroken]
    simp only [standing.joined_eq, marker]
    simp [Folding.ofText, Folding.result, Mark.pass, unbroken]
  | false =>
    have marker := atDocumentMarker_cons (c := '\'') (by decide) (by decide) rest
    have blank : isBlank '\'' = false := rfl
    have unbroken : isBreak '\'' = false := rfl
    simp only [Bool.false_eq_true, if_false]
    rw [scanQuoted, blank, unbroken]
    simp only [standing.joined_eq, marker]
    cases rest with
    | nil => simp [Folding.ofText, Folding.result, Mark.pass, unbroken]
    | cons c rest =>
      have other : c ≠ '\'' := by simpa using closed
      simp [Folding.ofText, Folding.result, Mark.pass, unbroken, other]

end

/-- How a character is written between single quotes: a quote is written twice. -/
def showInSingle (c : Char) : List Char :=
  if c = '\'' then ['\'', '\''] else [c]

theorem writeSingleBody_cons (indent : Nat) {c : Char} (unbroken : isBreak c = false)
    (cs : List Char) :
    writeSingleBody indent false (c :: cs) = showInSingle c ++ writeSingleBody indent false cs := by
  simp [writeSingleBody, unbroken, showInSingle]

/-- A line behind a separator is indented, unless the separator is followed by another one. -/
theorem writeSingleBody_afterBreak (indent : Nat) {cs : List Char} (head : cs.head? ≠ some ' ') :
    writeSingleBody indent true cs =
      (if cs.head?.any isBreak then [] else List.replicate indent ' ')
        ++ writeSingleBody indent false cs := by
  cases cs with
  | nil => simp [writeSingleBody]
  | cons c cs =>
    have solid : c ≠ ' ' := by simpa using head
    cases breaks : isBreak c <;> simp [writeSingleBody, breaks, solid]

section

variable {phase : WordPhase} {f : Folding} {m : Mark} {text rest : List Char}

/-- A character between single quotes that ends a gap. -/
theorem scanQuoted_showInSingle (standing : Standing true phase f text) (rest : List Char)
    (inLine : 0 < m.column) {c : Char} (blank : isBlank c = false) (unbroken : isBreak c = false) :
    scanQuoted false (.words phase) f m (showInSingle c ++ rest) =
        scanQuoted false (.words .word) ((Folding.ofText text).push c)
          ((showInSingle c).foldl Mark.pass m) rest ∧
      0 < ((showInSingle c).foldl Mark.pass m).column := by
  have inside : m.column = 0 → atDocumentMarker (c :: rest) = false := fun margin => by omega
  rw [showInSingle]
  split
  case isTrue quote =>
    subst quote
    have marker := atDocumentMarker_cons (c := '\'') (by decide) (by decide) ('\'' :: rest)
    have plain : isBlank '\'' = false ∧ isBreak '\'' = false := ⟨rfl, rfl⟩
    rw [List.cons_append, List.singleton_append, scanQuoted, plain.1, plain.2]
    simp only [standing.joined_eq, marker]
    simp [Mark.pass, Mark.advance, plain.2]
  case isFalse other =>
    rw [List.singleton_append,
      scanQuoted_word standing blank unbroken inside (by simpa using other)]
    simp [Mark.pass, Mark.advance, unbroken]

theorem column_margin {indent : Nat} (indented : 0 < indent) (m : Mark) :
    0 < ((List.replicate indent ' ').foldl Mark.pass m).column := by
  rw [foldl_pass_of_unbroken fun c mem => by rw [List.eq_of_mem_replicate mem]; rfl,
    (foldl_advance _ _).2, List.length_replicate]
  omega

/-- A text is read back from between single quotes. The pass stands behind the part that is read
already, on a line or before the end of an empty one. -/
theorem scanQuoted_single {cs : List Char} (standing : Standing true phase f text)
    (printable : ∀ c ∈ cs, isPrintable c = true) (newline : '\n' ∉ cs)
    (joins : ∀ a ∈ text.head?, ∀ b ∈ cs.head?, Apart true a b) (apart : cs.IsChain (Apart true))
    (place : 0 < m.column ∨ cs.head?.any isBreak = true) (closed : rest.head? ≠ some '\'')
    {indent : Nat} (indented : 0 < indent) :
    scanQuoted false (.words phase) f m (writeSingleBody indent false cs ++ '\'' :: rest) =
      some (text.reverse ++ cs,
        ⟨rest, (writeSingleBody indent false cs ++ ['\'']).foldl Mark.pass m⟩) := by
  induction cs generalizing text phase f m with
  | nil =>
    have close := scanQuoted_close false m standing closed
    simpa [writeSingleBody] using close
  | cons c cs ih =>
    obtain ⟨shown, others⟩ := List.forall_mem_cons.mp printable
    obtain ⟨next, chain⟩ := List.isChain_cons.mp apart
    have first : ∀ a ∈ text.head?, Apart true a c := fun a mem => joins a mem c rfl
    have joined := apart_behind apart text
    have lineless : '\n' ∉ cs := fun mem => newline (List.mem_cons_of_mem _ mem)
    have reversed : (c :: text).reverse ++ cs = text.reverse ++ c :: cs := by simp
    cases breaks : isBreak c with
    | true =>
      have separator : isSeparator c = true := by
        have other : c ≠ '\n' := fun is => newline (is ▸ List.mem_cons_self)
        simpa [isBreak, other] using breaks
      have broken := f.broken_addBreak c
      have stands := standing.addBreak rfl separator first
      have head : cs.head? ≠ some ' ' := fun is => (next ' ' is rfl).1 ⟨separator, rfl⟩
      have body : writeSingleBody indent false (c :: cs) = c :: writeSingleBody indent true cs := by
        rw [writeSingleBody, if_pos breaks]
      rw [body, writeSingleBody_afterBreak indent head, List.cons_append,
        scanQuoted_separator separator]
      -- the next line is empty, or its indentation is passed
      cases again : cs.head?.any isBreak with
      | true =>
        have read := ih (m := m.pass c) stands others lineless joined chain (.inr again)
        simpa [reversed] using read
      | false =>
        have read := ih stands others lineless joined chain
          (.inl (column_margin indented (m.pass c)))
        rw [if_neg Bool.false_ne_true, List.append_assoc, scanQuoted_margin broken, read, reversed]
        simp [List.foldl_append]
    | false =>
      have inLine : 0 < m.column := by simpa [breaks] using place
      rw [writeSingleBody_cons indent breaks, List.append_assoc]
      by_cases space : c = ' '
      · subst space
        have read := ih (m := m.pass ' ') (standing.addBlank first) others lineless joined chain
          (.inl (Nat.succ_pos _))
        have shape : showInSingle ' ' = [' '] := rfl
        rw [shape, List.singleton_append, scanQuoted_space, read, reversed]
        rfl
      · have blank := isBlank_of_isPrintable shown space
        obtain ⟨word, further⟩ := scanQuoted_showInSingle standing
          (writeSingleBody indent false cs ++ '\'' :: rest) inLine blank breaks
        rw [word, ih (standing.push c) others lineless joined chain (.inl further), reversed]
        simp [List.foldl_append]

end

/-- How a character may be written between double quotes: as itself, or as an escape. -/
inductive Encodes : List Char → Char → Prop where
  | itself {c : Char} (quote : c ≠ '"') (backslash : c ≠ '\\') (newline : c ≠ '\n')
      (tab : c ≠ '\t') :
      Encodes [c] c
  | escape {code : List Char} {c : Char}
      (visible : ∀ d ∈ code, isPrintable d = true ∧ isBreak d = false)
      (stands : ∀ (f : Folding) (m : Mark) (rest : List Char),
        scanQuoted true .escape f m (code ++ rest) =
          scanQuoted true (.words .word) (f.push c) (code.foldl Mark.pass m) rest) :
      Encodes ('\\' :: code) c

/-- What stands between double quotes is printable, if all that is written as itself is. -/
theorem Encodes.printable {code : List Char} {c : Char} (h : Encodes code c)
    (itself : code = [c] → isPrintable c = true) : ∀ d ∈ code, isPrintable d = true := by
  cases h with
  | itself => exact List.forall_mem_singleton.mpr (itself rfl)
  | escape visible => exact List.forall_mem_cons.mpr ⟨rfl, fun d mem => (visible d mem).1⟩

section

variable {lines : Bool} {phase : WordPhase} {f : Folding} {m : Mark} {text rest : List Char}

/-- An escape is read as its character. -/
theorem scanQuoted_escape (standing : Standing lines phase f text) (code : List Char) :
    scanQuoted true (.words phase) f m ('\\' :: code) =
      scanQuoted true .escape (.ofText text) (m.pass '\\') code := by
  have marker := atDocumentMarker_cons (c := '\\') (by decide) (by decide) code
  have blank : isBlank '\\' = false := rfl
  have unbroken : isBreak '\\' = false := rfl
  rw [scanQuoted, blank, unbroken]
  simp only [standing.joined_eq, marker]
  simp [Mark.pass, unbroken]

/-- A text is read back from between double quotes, if its characters are written as themselves or
as escapes. Separators may be written as themselves where the text may have several `lines`. -/
theorem scanQuoted_double {shape : Char → List Char} {cs : List Char}
    (standing : Standing lines phase f text) (each : ∀ c ∈ cs, Encodes (shape c) c)
    (several : ∀ c ∈ cs, isSeparator c = true → shape c = [c] → lines = true)
    (joins : ∀ a ∈ text.head?, ∀ b ∈ cs.head?, Apart lines a b) (apart : cs.IsChain (Apart lines))
    (here : m.column = 0 → atDocumentMarker (cs.flatMap shape ++ '"' :: rest) = false)
    (below : ∀ c after, c :: after <:+ cs → lines = true → isSeparator c = true →
      atDocumentMarker (after.flatMap shape ++ '"' :: rest) = false)
    (closed : rest.head? ≠ some '\'') :
    scanQuoted true (.words phase) f m (cs.flatMap shape ++ '"' :: rest) =
      some (text.reverse ++ cs, ⟨rest, (cs.flatMap shape ++ ['"']).foldl Mark.pass m⟩) := by
  induction cs generalizing text phase f m with
  | nil =>
    have close := scanQuoted_close true m standing closed
    simpa using close
  | cons c cs ih =>
    obtain ⟨encodes, others⟩ := List.forall_mem_cons.mp each
    obtain ⟨alone, rest_alone⟩ := List.forall_mem_cons.mp several
    have chain := (List.isChain_cons.mp apart).2
    have first : ∀ a ∈ text.head?, Apart lines a c := fun a mem => joins a mem c rfl
    have joined := apart_behind apart text
    have later : ∀ d after, d :: after <:+ cs → lines = true → isSeparator d = true →
        atDocumentMarker (after.flatMap shape ++ '"' :: rest) = false :=
      fun d after suffix => below d after (suffix.trans (List.suffix_cons c cs))
    have reversed : (c :: text).reverse ++ cs = text.reverse ++ c :: cs := by simp
    rw [List.flatMap_cons, List.append_assoc] at here ⊢
    generalize written : shape c = code at encodes here
    cases encodes with
    | @escape code _ visible stands =>
      have inLine : (code.foldl Mark.pass (m.pass '\\')).column ≠ 0 := by
        rw [foldl_pass_of_unbroken fun d mem => (visible d mem).2, (foldl_advance _ _).2]
        exact Nat.ne_of_gt (Nat.add_pos_left (Nat.succ_pos _) _)
      rw [List.cons_append, scanQuoted_escape standing, stands,
        ih (standing.push c) others rest_alone joined chain (fun margin => absurd margin inLine)
          later, reversed]
      simp
    | itself quote backslash newline tab =>
      rw [List.singleton_append] at here ⊢
      cases separator : isSeparator c with
      | true =>
        have is := alone separator written
        rw [scanQuoted_separator separator,
          ih (standing.addBreak is separator first) others rest_alone joined chain
            (fun _ => below c cs (List.suffix_refl _) is separator) later, reversed]
        simp
      | false =>
        have unbroken : isBreak c = false := by simp [isBreak, newline, separator]
        have inLine : (m.pass c).column ≠ 0 := by
          rw [Mark.pass, unbroken]
          exact Nat.succ_ne_zero _
        by_cases space : c = ' '
        · subst space
          rw [scanQuoted_space, ih (standing.addBlank first) others rest_alone joined chain
            (fun margin => absurd margin inLine) later, reversed]
          simp
        · have blank : isBlank c = false := by simp [isBlank, space, tab]
          rw [scanQuoted_word standing blank unbroken here (by simp [quote, backslash]),
            ih (standing.push c) others rest_alone joined chain
              (fun margin => absurd margin inLine) later, reversed]
          simp

end

/-- A letter that stands for a character. -/
theorem encodes_letter {letter c : Char} (known : simpleEscape? letter = some c)
    (printable : isPrintable letter = true) (unbroken : isBreak letter = false) :
    Encodes ['\\', letter] c := by
  refine .escape (List.forall_mem_singleton.mpr ⟨printable, unbroken⟩) fun f m rest => ?_
  rw [List.singleton_append, scanQuoted, unbroken, if_neg Bool.false_ne_true]
  simp [known, Mark.pass, unbroken]

/-- A hexadecimal digit behind a number. -/
def hexStep (n : Nat) (digit : Char) : Nat :=
  16 * n + natOfDigits.digitValue digit

theorem visible_of_isHex {c : Char} (hex : isHex c = true) :
    isPrintable c = true ∧ isBreak c = false := by
  constructor
  · have bounds : ' ' ≤ c ∧ c ≤ '~' := by
      simp only [isHex, Char.isDigit, Bool.or_eq_true, Bool.and_eq_true, decide_eq_true_eq] at hex
      obtain (⟨low, high⟩ | ⟨low, high⟩) | ⟨low, high⟩ := hex
      · exact ⟨Nat.le_trans (by decide) low, Nat.le_trans high (by decide)⟩
      · exact ⟨Nat.le_trans (by decide) low, Nat.le_trans high (by decide)⟩
      · exact ⟨Nat.le_trans (by decide) low, Nat.le_trans high (by decide)⟩
    simp [isPrintable, bounds]
  · by_contra breaks
    simp only [isBreak, isSeparator, Bool.not_eq_false, decide_eq_true_eq] at breaks
    obtain rfl | rfl | rfl := breaks <;> revert hex <;> decide

/-- The digits of an escape are read as their character. -/
theorem scanQuoted_hex {digits : List Char} (hex : ∀ d ∈ digits, isHex d = true)
    (filled : digits ≠ []) {value : Nat} {c : Char} (spells : digits.foldl hexStep value = c.toNat)
    (f : Folding) (m : Mark) (rest : List Char) :
    scanQuoted true (.hex digits.length value) f m (digits ++ rest) =
      scanQuoted true (.words .word) (f.push c) (digits.foldl Mark.pass m) rest := by
  induction digits generalizing value m with
  | nil => exact absurd rfl filled
  | cons d digits ih =>
    obtain ⟨first, others⟩ := List.forall_mem_cons.mp hex
    have advance : m.pass d = m.advance d := by
      rw [Mark.pass, (visible_of_isHex first).2, if_neg Bool.false_ne_true]
    rw [List.cons_append, scanQuoted, List.foldl_cons, advance]
    cases digits with
    | nil =>
      have value_eq : 16 * value + natOfDigits.digitValue d = c.toNat := spells
      have valid : c.toNat.isValidChar := c.valid
      simp [first, value_eq, valid]
    | cons e digits =>
      have later : (e :: digits).foldl hexStep (hexStep value d) = c.toNat := spells
      have read := ih others (by simp) later (m.advance d)
      simpa [first, hexStep] using read

/-- A letter with the digits that spell a character. -/
theorem encodes_digits {letter c : Char} {digits : List Char}
    (unknown : simpleEscape? letter = none) (known : hexEscape? letter = some digits.length)
    (printable : isPrintable letter = true) (unbroken : isBreak letter = false)
    (hex : ∀ d ∈ digits, isHex d = true) (filled : digits ≠ [])
    (spells : digits.foldl hexStep 0 = c.toNat) : Encodes ('\\' :: letter :: digits) c := by
  refine .escape (List.forall_mem_cons.mpr
    ⟨⟨printable, unbroken⟩, fun d mem => visible_of_isHex (hex d mem)⟩) fun f m rest => ?_
  have advance : m.pass letter = m.advance letter := by
    rw [Mark.pass, unbroken, if_neg Bool.false_ne_true]
  rw [List.cons_append, scanQuoted, unbroken, if_neg Bool.false_ne_true]
  simp only [unknown, known]
  rw [scanQuoted_hex hex filled spells, List.foldl_cons, advance]

/-- The digits of a number, letters being capitals. -/
def capitalDigits (n : Nat) : List Char :=
  (Nat.toDigits 16 n).map Char.toUpper

theorem isHex_digit : ∀ d < 16, isHex (Nat.digitChar d).toUpper = true ∧
    natOfDigits.digitValue (Nat.digitChar d).toUpper = d := by
  decide

theorem capitalDigits_spell (n : Nat) :
    (∀ d ∈ capitalDigits n, isHex d = true) ∧ (capitalDigits n).foldl hexStep 0 = n := by
  induction n using Nat.strongRecOn with
  | ind n ih =>
    by_cases small : n < 16
    · have digits : capitalDigits n = [(Nat.digitChar n).toUpper] := by
        rw [capitalDigits, Nat.toDigits_of_lt_base small, List.map_singleton]
      obtain ⟨hex, value⟩ := isHex_digit n small
      rw [digits]
      exact ⟨List.forall_mem_singleton.mpr hex, by simp [hexStep, value]⟩
    · have digits : capitalDigits n =
          capitalDigits (n / 16) ++ [(Nat.digitChar (n % 16)).toUpper] := by
        rw [capitalDigits, Nat.toDigits_of_base_le (by decide) (Nat.not_lt.mp small),
          List.map_append, List.map_singleton, capitalDigits]
      obtain ⟨hex, value⟩ := isHex_digit (n % 16) (Nat.mod_lt _ (by decide))
      obtain ⟨before, spelled⟩ := ih (n / 16) (by omega)
      rw [digits]
      refine ⟨List.forall_mem_append.mpr ⟨before, List.forall_mem_singleton.mpr hex⟩, ?_⟩
      rw [List.foldl_append, spelled, List.foldl_cons, List.foldl_nil, hexStep, value]
      omega

/-- Zeros in front fill the digits up. -/
theorem encodes_hex (letter : Char) (width : Nat) {c : Char} (unknown : simpleEscape? letter = none)
    (known : hexEscape? letter = some width) (printable : isPrintable letter = true)
    (unbroken : isBreak letter = false) (positive : 0 < width) (fits : c.toNat < 16 ^ width) :
    Encodes ('\\' :: letter :: (List.replicate (width - (capitalDigits c.toNat).length) '0'
      ++ capitalDigits c.toNat)) c := by
  obtain ⟨hex, spelled⟩ := capitalDigits_spell c.toNat
  have short : (capitalDigits c.toNat).length ≤ width := by
    rw [capitalDigits, List.length_map]
    exact (Nat.length_toDigits_le_iff (by decide) positive).mpr fits
  have zeros : ∀ n, (List.replicate n '0').foldl hexStep 0 = 0 := by
    intro n
    induction n with
    | zero => rfl
    | succ n ih => exact ih
  have length : (List.replicate (width - (capitalDigits c.toNat).length) '0'
      ++ capitalDigits c.toNat).length = width := by
    rw [List.length_append, List.length_replicate]
    omega
  refine encodes_digits unknown (by rw [length, known]) printable unbroken ?_ ?_ ?_
  · refine List.forall_mem_append.mpr ⟨fun d mem => ?_, hex⟩
    rw [List.eq_of_mem_replicate mem]
    rfl
  · intro none
    rw [none] at length
    exact absurd length (Nat.ne_of_lt positive)
  · rw [List.foldl_append, zeros, spelled]

/-- Every character has an escape. -/
theorem encodes_escapeChar (c : Char) : Encodes (escapeChar c) c := by
  have small : c.toNat < 16 ^ 8 := c.val.toNat_lt
  unfold escapeChar
  split
  case h_16 =>
    split
    · exact encodes_hex 'x' 2 rfl rfl rfl rfl (by decide) (by omega)
    · split
      · exact encodes_hex 'u' 4 rfl rfl rfl rfl (by decide) (by omega)
      · exact encodes_hex 'U' 8 rfl rfl rfl rfl (by decide) small
  all_goals exact encodes_letter rfl rfl rfl

/-- How a character is written between double quotes. -/
def showInDouble (c : Char) : List Char :=
  if !isPrintable c || isBreak c || c = '"' || c = '\\' then escapeChar c else [c]

theorem encodes_showInDouble (c : Char) : Encodes (showInDouble c) c := by
  rw [showInDouble]
  split
  case isTrue => exact encodes_escapeChar c
  case isFalse plain =>
    simp only [Bool.or_eq_true, Bool.not_eq_true', decide_eq_true_eq, not_or] at plain
    obtain ⟨⟨⟨shown, unbroken⟩, quote⟩, backslash⟩ := plain
    refine .itself quote backslash ?_ ?_
    · rintro rfl
      exact unbroken rfl
    · rintro rfl
      exact shown rfl

theorem le_toNat_of_isPrintable {c : Char} (printable : isPrintable c = true) (newline : c ≠ '\n') :
    0x20 ≤ c.toNat := by
  simp only [isPrintable, newline, decide_eq_true_eq, false_or] at printable
  obtain ⟨above, -⟩ | ⟨above, -⟩ | above := printable
  · exact above
  · exact Nat.le_trans (by decide) (above : 0xa0 ≤ c.toNat)
  · omega

/-- A character that is printable is written in JSON as itself or with a letter. -/
theorem encodes_jsonChar {c : Char} (printable : isPrintable c = true) :
    Encodes (Text.jsonChar c) c := by
  unfold Text.jsonChar
  split
  case h_8 quote backslash backspace tab newline formFeed carriage =>
    rw [if_neg (Nat.not_lt.mpr (le_toNat_of_isPrintable printable newline))]
    exact .itself quote backslash newline tab
  all_goals exact encodes_letter rfl rfl rfl

end ArenaVariations.Yaml
