import ArenaVariations.Layout.Flow
import ArenaVariations.Proofs.Decimal.ReadBack

/-!
# Scalars read back

What a scalar is written as is read as the same scalar. Words are written plainly, or in single
quotes if YAML would read them as something else; numbers, booleans and null are written plainly.
All of them are made of letters, digits, underscores, points and dashes, which have no meaning in
YAML but at the start of a text.
-/

namespace ArenaVariations

namespace Yaml

/-- The characters of words and numbers. -/
def isSimple (c : Char) : Bool :=
  c.isAlphanum || c = '_' || c = '.' || c = '-'

theorem ne_of_isSimple {c d : Char} (simple : isSimple c = true)
    (special : isSimple d = false) : c ≠ d := by
  rintro rfl
  rw [simple] at special
  cases special

/-- A text that is read as a plain scalar of its own: its first character is a letter or a digit,
or else a point or a dash that is not repeated. -/
structure IsSimpleText (cs : List Char) : Prop where
  all : ∀ c ∈ cs, isSimple c = true
  start : ∃ first rest, cs = first :: rest ∧
    (first.isAlphanum = true ∨ ∃ second ∈ rest.head?, second ≠ first)

theorem isSimple_of_isDigit {c : Char} (h : c.isDigit = true) : isSimple c = true := by
  simp [isSimple, Char.isAlphanum, h]

theorem isSimpleText_of_isFraction {cs : List Char} (h : IsFraction cs) : IsSimpleText cs := by
  obtain ⟨⟨c, rest, rfl, digit, -⟩, all⟩ := h
  refine ⟨fun d mem => ?_, c, rest, rfl, .inl (by simp [Char.isAlphanum, digit])⟩
  obtain digit | rfl | rfl | rfl := all d mem
  · exact isSimple_of_isDigit digit
  all_goals rfl

/-- A sign in front of a number. -/
theorem isSimpleText_signed {cs : List Char} (all : ∀ c ∈ cs, isSimple c = true)
    (start : ∃ c rest, cs = c :: rest ∧ c.isDigit = true) (negative : Prop) [Decidable negative] :
    IsSimpleText ((if negative then ['-'] else []) ++ cs) := by
  obtain ⟨c, rest, rfl, digit⟩ := start
  split
  · refine ⟨List.forall_mem_cons.mpr ⟨rfl, all⟩, '-', c :: rest, rfl, .inr ⟨c, rfl, ?_⟩⟩
    rintro rfl
    cases digit
  · exact ⟨all, c, rest, rfl, .inl (by simp [Char.isAlphanum, digit])⟩

theorem isSimple_bounds {c : Char} (h : isSimple c = true) : ' ' ≤ c ∧ c ≤ '~' := by
  simp only [isSimple, Char.isAlphanum, Char.isAlpha, Char.isUpper, Char.isLower, Char.isDigit,
    Bool.or_eq_true, Bool.and_eq_true, decide_eq_true_eq, ge_iff_le, UInt32.le_iff_toNat_le] at h
  rw [Char.le_def, Char.le_def, UInt32.le_iff_toNat_le, UInt32.le_iff_toNat_le]
  obtain ((((upper | lower) | digit) | rfl) | rfl) | rfl := h
  · simp at upper ⊢
    omega
  · simp at lower ⊢
    omega
  · simp at digit ⊢
    omega
  all_goals decide

theorem isPrintable_of_isSimple {c : Char} (h : isSimple c = true) : isPrintable c = true := by
  have bounds := isSimple_bounds h
  simp [isPrintable, bounds]

theorem not_mem_of_isSimple {c : Char} (h : isSimple c = true) {specials : List Char}
    (special : specials.all (fun d => !isSimple d) = true) :
    specials.contains c = false := by
  rw [List.contains_eq_mem, decide_eq_false_iff_not]
  intro mem
  have := List.all_eq_true.mp special c mem
  simp [h] at this

theorem isBreak_of_isSimple {c : Char} (h : isSimple c = true) : isBreak c = false := by
  simp [isBreak, isSeparator, ne_of_isSimple h (d := '\n') rfl,
    ne_of_isSimple h (d := '\u2028') rfl, ne_of_isSimple h (d := '\u2029') rfl]

theorem isBlank_of_isSimple {c : Char} (h : isSimple c = true) : isBlank c = false := by
  simp [isBlank, ne_of_isSimple h (d := ' ') rfl, ne_of_isSimple h (d := '\t') rfl]

theorem isFlowIndicator_of_isSimple {c : Char} (h : isSimple c = true) :
    isFlowIndicator c = false :=
  not_mem_of_isSimple h rfl

namespace TextStyle

theorem hasPair_eq_false {p : Char → Char → Bool} {cs : List Char}
    (none : ∀ a ∈ cs, ∀ b ∈ cs, p a b = false) : hasPair p cs = false := by
  induction cs with
  | nil => rfl
  | cons a cs ih =>
    cases cs with
    | nil => rfl
    | cons b cs =>
      rw [hasPair, none a List.mem_cons_self b (by simp), Bool.false_or]
      exact ih fun c mem d other => none c (by simp [mem]) d (by simp [other])

variable {cs : List Char}

theorem endsLine_of_isSimple {c : Char} (h : isSimple c = true) : endsLine c = false := by
  simp [endsLine, isBreak_of_isSimple h, ne_of_isSimple h (d := '\r') rfl,
    ne_of_isSimple h (d := nextLine) rfl]

theorem hasSpecial_eq_false (all : ∀ c ∈ cs, isSimple c = true) : hasSpecial cs = false := by
  simp only [hasSpecial, List.any_eq_false]
  intro c mem
  simp [isPrintable_of_isSimple (all c mem)]

theorem singleAllowed_of_isSimple (all : ∀ c ∈ cs, isSimple c = true) :
    singleAllowed cs = true := by
  have after : hasSpaceAfterBreak cs = false :=
    hasPair_eq_false fun a mem b _ => by simp [isBreak_of_isSimple (all a mem)]
  have before : hasSpaceBeforeBreak cs = false :=
    hasPair_eq_false fun a _ b mem => by simp [isBreak_of_isSimple (all b mem)]
  simp [singleAllowed, after, before, hasSpecial_eq_false all]

/-- A simple text that starts with a letter may be written plainly. -/
theorem plainAllowed_of_isSimple (all : ∀ c ∈ cs, isSimple c = true)
    (start : ∃ first rest, cs = first :: rest ∧ first.isAlpha = true) : plainAllowed cs = true := by
  have edge : ∀ c ∈ cs, (c = ' ' || isBreak c) = false := fun c mem => by
    simp [isBreak_of_isSimple (all c mem), ne_of_isSimple (all c mem) (d := ' ') rfl]
  have multiline : isMultiline cs = false := by
    simp only [isMultiline, List.any_eq_false]
    intro c mem
    simp [endsLine_of_isSimple (all c mem)]
  have colon : hasPair (fun a b => a = ':' && isGap b) cs = false :=
    hasPair_eq_false fun a mem b _ => by simp [ne_of_isSimple (all a mem) (d := ':') rfl]
  have comment : hasPair (fun a b => isGap a && b = '#') cs = false :=
    hasPair_eq_false fun a _ b mem => by simp [ne_of_isSimple (all b mem) (d := '#') rfl]
  have last : ∀ c ∈ cs.getLast?, (c = ' ' || isBreak c) = false ∧ c ≠ ':' := fun c mem =>
    ⟨edge c (List.mem_of_getLast? mem), ne_of_isSimple (all c (List.mem_of_getLast? mem)) rfl⟩
  have noColon : cs.getLast? ≠ some ':' := fun eq => (last ':' eq).2 rfl
  have lastEdge : cs.getLast?.any (fun c => c = ' ' || isBreak c) = false := by
    cases found : cs.getLast? with
    | none => rfl
    | some c => exact (last c found).1
  obtain ⟨first, rest, rfl, letter⟩ := start
  have simple := all first List.mem_cons_self
  have dash : first ≠ '-' := by rintro rfl; cases letter
  have point : first ≠ '.' := by rintro rfl; cases letter
  have question : first ≠ '?' := ne_of_isSimple simple rfl
  have indicator : ['#', ',', '[', ']', '\x7b', '\x7d', '&', '*', '!', '|', '>', '\'', '"', '%',
      '@', '`'].contains first = false := not_mem_of_isSimple simple rfl
  have firstEdge := edge first List.mem_cons_self
  have atStart : hasIndicator (first :: rest) = false := by
    simp only [hasIndicator, indicator, colon, comment, noColon]
    simp [dash, point, question]
  rw [plainAllowed]
  simp only [List.head?_cons, Option.any_some, firstEdge, lastEdge, multiline,
    hasSpecial_eq_false all, atStart, Bool.or_self, Bool.not_false]

end TextStyle

theorem writeSingleBody_of_isSimple {cs : List Char} (all : ∀ c ∈ cs, isSimple c = true)
    (indent : Nat) : writeSingleBody indent false cs = cs := by
  induction cs with
  | nil => rfl
  | cons c cs ih =>
    obtain ⟨first, rest⟩ := List.forall_mem_cons.mp all
    simp [writeSingleBody, isBreak_of_isSimple first, ne_of_isSimple first (d := '\'') rfl, ih rest]

end Yaml

open Yaml

/-- A word: a letter, and letters, digits, underscores and points after it, a hundred characters at
most. -/
structure IsWord (s : String) : Prop where
  start : ∃ first rest, s.toList = first :: rest ∧ first.isAlpha = true
  all : ∀ c ∈ s.toList, c.isAlphanum = true ∨ c = '_' ∨ c = '.'
  short : s.toList.length ≤ 100

theorem isWord_iff {s : String} : IsWord s ↔ s.toList.head?.any Char.isAlpha = true ∧
    (s.toList.all fun c => c.isAlphanum || c = '_' || c = '.') = true ∧
    s.toList.length ≤ 100 := by
  constructor
  · rintro ⟨⟨first, rest, split, letter⟩, all, short⟩
    refine ⟨by simp [split, letter], List.all_eq_true.mpr fun c mem => ?_, short⟩
    simpa [or_assoc] using all c mem
  · rintro ⟨start, all, short⟩
    obtain ⟨first, head, letter⟩ := Option.any_eq_true _ _ |>.mp start
    obtain ⟨rest, split⟩ := List.head?_eq_some_iff.mp head
    refine ⟨⟨first, rest, split, letter⟩, fun c mem => ?_, short⟩
    simpa [or_assoc] using List.all_eq_true.mp all c mem

instance {s : String} : Decidable (IsWord s) :=
  decidable_of_iff' _ isWord_iff

theorem IsWord.isSimple {s : String} (word : IsWord s) : ∀ c ∈ s.toList, isSimple c = true := by
  intro c mem
  obtain alphanum | rfl | rfl := word.all c mem
  · simp [Yaml.isSimple, alphanum]
  · rfl
  · rfl

theorem dropFinalNewlines_eq_self {cs : List Char} (none : '\n' ∉ cs) :
    dropFinalNewlines cs = cs := by
  rw [dropFinalNewlines]
  have kept : cs.reverse.dropWhile (· = '\n') = cs.reverse := by
    cases reversed : cs.reverse with
    | nil => rfl
    | cons c rest =>
      have mem : c ∈ cs := List.mem_reverse.mp (reversed ▸ List.mem_cons_self)
      have : c ≠ '\n' := by
        rintro rfl
        exact none mem
      simp [this]
  rw [kept, List.reverse_reverse]

/-- A word is written in quotes if it would be read as something else, and plainly otherwise. -/
theorem toList_quoteText_of_isWord {s : String} (word : IsWord s) (flow : Bool) :
    (quoteText flow s).toList = if TextStyle.readsAsOther s.toList then
      '\'' :: s.toList ++ ['\''] else s.toList := by
  have newline : ∀ c ∈ s.toList, c ≠ '\n' := fun c mem => ne_of_isSimple (word.isSimple c mem) rfl
  have none : '\n' ∉ s.toList := fun mem => newline '\n' mem rfl
  have style : (TextStyle.choose false s.toList).write 2 s.toList =
      if TextStyle.readsAsOther s.toList then '\'' :: s.toList ++ ['\''] else s.toList := by
    have plain := TextStyle.plainAllowed_of_isSimple word.isSimple word.start
    have single := TextStyle.singleAllowed_of_isSimple word.isSimple
    cases other : TextStyle.readsAsOther s.toList <;>
      simp [TextStyle.choose, none, other, plain, single, TextStyle.write, writeSingle,
        writeSingleBody_of_isSimple word.isSimple]
  have plain : s.toList.any isFlowIndicator = false :=
    List.any_eq_false.mpr fun c mem => by simp [isFlowIndicator_of_isSimple (word.isSimple c mem)]
  have written : '\n' ∉ (if TextStyle.readsAsOther s.toList then '\'' :: s.toList ++ ['\'']
      else s.toList) := by
    split <;> simp [none]
  have line : ¬ (if TextStyle.readsAsOther s.toList then '\'' :: s.toList ++ ['\'']
      else s.toList).contains '\n' = true := by
    rwa [List.contains_eq_mem, decide_eq_true_eq]
  rw [quoteText, style, dropFinalNewlines_eq_self written,
    if_neg (not_or.mpr ⟨line, by simp [plain]⟩), String.toList_ofList]

namespace Yaml

namespace Value

/-- Whether a value is no collection and has no tag. -/
def isScalar : Value → Bool
  | null | bool _ | int _ | float _ | text _ => true
  | sequence _ | mapping _ | tagged .. => false

/-- How a scalar is written. -/
def scalarLine : Value → String
  | null => "null"
  | bool b => toString b
  | int i => toString i
  | float x => FloatStyle.template.write x
  | text s => quoteText true s
  | sequence _ | mapping _ | tagged .. => ""

/-- How a scalar is written as a key at the start of a line. -/
def keyLine : Value → String
  | text s => quoteText false s
  | key => key.scalarLine

variable {v : Value}

theorem isSimpleText_int (i : Int) : IsSimpleText (toString i).toList := by
  have numeral := isNumeral_toDigits i.natAbs
  obtain ⟨first, rest, split⟩ := List.exists_cons_of_ne_nil numeral.1
  rw [toList_toString_int]
  exact isSimpleText_signed (fun c mem => isSimple_of_isDigit (numeral.2 c mem))
    ⟨first, rest, split, numeral.2 first (split ▸ List.mem_cons_self)⟩ _

theorem isSimpleText_float {x : Float} (real : x.isNaN = false) :
    IsSimpleText (FloatStyle.template.write x).toList := by
  cases infinite : x.isInf with
  | true =>
    rw [FloatStyle.write_of_infinite _ real infinite]
    split <;> exact ⟨forall_mem_of_all (by decide), _, _, rfl, .inr ⟨_, rfl, by decide⟩⟩
  | false =>
    have fraction := FloatStyle.template.isFraction_magnitude x
    obtain ⟨c, rest, split, digit, -⟩ := fraction.first
    rw [FloatStyle.write_of_finite _ real infinite]
    exact isSimpleText_signed (isSimpleText_of_isFraction fraction).all ⟨c, rest, split, digit⟩ _

/-- A text that starts with no letter is no word with a meaning. -/
theorem not_word_of_head {c : Char} (letter : c.isAlpha = false) (tilde : c ≠ '~')
    (rest : List Char) : isNullWord (c :: rest) = false ∧ boolOfWord? (c :: rest) = none := by
  have ne : ∀ d : Char, d.isAlpha = true → c ≠ d := by
    rintro d alpha rfl
    rw [letter] at alpha
    cases alpha
  simp [isNullWord, boolOfWord?, tilde, ne 'n' rfl, ne 'N' rfl, ne 't' rfl, ne 'T' rfl, ne 'f' rfl,
    ne 'F' rfl]

theorem natOfDigits_lt {cs : List Char} (digits : ∀ c ∈ cs, c.isDigit = true) :
    natOfDigits 10 cs < 10 ^ cs.length := by
  have step : ∀ init, cs.foldl (fun n c => 10 * n + natOfDigits.digitValue c) init <
      (init + 1) * 10 ^ cs.length := by
    induction cs with
    | nil => simp
    | cons c cs ih =>
      obtain ⟨first, rest⟩ := List.forall_mem_cons.mp digits
      intro init
      have small : natOfDigits.digitValue c ≤ 9 := by
        rw [natOfDigits.digitValue, if_pos first]
        simp [Char.isDigit, UInt32.le_iff_toNat_le] at first ⊢
        omega
      rw [List.foldl_cons, List.length_cons, Nat.pow_succ]
      calc _ < (10 * init + natOfDigits.digitValue c + 1) * 10 ^ cs.length := ih rest _
        _ ≤ (init + 1) * 10 * 10 ^ cs.length := Nat.mul_le_mul_right _ (by omega)
        _ = (init + 1) * (10 ^ cs.length * 10) := by ring
  simpa [natOfDigits] using step 0

/-- A numeral has no zeros in front. -/
theorem toDigits_ne_padded (n : Nat) (c : Char) (rest : List Char) :
    Nat.toDigits 10 n ≠ '0' :: c :: rest := by
  intro padded
  have numeral := isNumeral_toDigits n
  have value := natOfDigits_toDigits n
  have length : Decimal.length n = rest.length + 2 := by
    rw [Decimal.length, padded]
    rfl
  rw [padded] at numeral value
  have digits := (List.forall_mem_cons.mp numeral.2).2
  have small := natOfDigits_lt digits
  have same : natOfDigits 10 ('0' :: c :: rest) = natOfDigits 10 (c :: rest) :=
    natOfDigits_zeros_append digits 1
  rw [same] at value
  rw [value, List.length_cons] at small
  have := (Decimal.length_le_iff (Nat.succ_pos _)).mpr small
  omega

theorem isDigitIn_of_isDigit {c : Char} (digit : c.isDigit = true) : isDigitIn 10 c = true := by
  have small : natOfDigits.digitValue c < 10 := by
    rw [natOfDigits.digitValue, if_pos digit]
    simp [Char.isDigit, UInt32.le_iff_toNat_le] at digit ⊢
    omega
  simp [isDigitIn, digit, small]

theorem prefixedNat?_of_isNumeral {cs : List Char} (numeral : IsNumeral cs) :
    prefixedNat? cs = none := by
  have ne : ∀ c ∈ cs, c ≠ 'x' ∧ c ≠ 'o' ∧ c ≠ 'b' := by
    intro c mem
    have digit := numeral.2 c mem
    refine ⟨?_, ?_, ?_⟩ <;> rintro rfl <;> cases digit
  match cs with
  | [] | [_] => simp [prefixedNat?]
  | a :: b :: rest =>
    have := ne b (by simp)
    simp [prefixedNat?, this]

/-- A sign in front of a digit is dropped. -/
theorem dropSign_signed {c : Char} (digit : c.isDigit = true) (rest : List Char) (negative : Prop)
    [Decidable negative] :
    dropSign ((if negative then ['-'] else []) ++ c :: rest) = c :: rest := by
  have plus : c ≠ '+' := by rintro rfl; cases digit
  have minus : c ≠ '-' := by rintro rfl; cases digit
  split <;> simp [dropSign, plus, minus]

/-- A number is read as an integer if what follows its sign is one. -/
theorem intOf?_signed {c : Char} (digit : c.isDigit = true) {rest : List Char} (negative : Prop)
    [Decidable negative] (unprefixed : prefixedNat? (c :: rest) = none)
    (unpadded : isPaddedDigits ((if negative then ['-'] else []) ++ c :: rest) = false) :
    intOf? ((if negative then ['-'] else []) ++ c :: rest) =
      (natIn? 10 (c :: rest)).map fun n : Nat => if negative then -(n : Int) else n := by
  have plus : c ≠ '+' := by rintro rfl; cases digit
  have minus : c ≠ '-' := by rintro rfl; cases digit
  split at unpadded <;> rename_i sign
  · rw [List.cons_append, List.nil_append] at unpadded
    cases found : natIn? 10 (c :: rest) <;> simp [intOf?, sign, unprefixed, unpadded, found]
  · rw [List.nil_append] at unpadded
    cases found : natIn? 10 (c :: rest) <;>
      simp [intOf?, sign, unprefixed, unpadded, plus, minus, found]

/-- An integer is read back from its text. -/
theorem intOf?_toString (i : Int) : intOf? (toString i).toList = some i := by
  have numeral := isNumeral_toDigits i.natAbs
  have decimal : natIn? 10 (Nat.toDigits 10 i.natAbs) = some i.natAbs := by
    have all : (Nat.toDigits 10 i.natAbs).all (isDigitIn 10) = true :=
      List.all_eq_true.mpr fun c mem => isDigitIn_of_isDigit (numeral.2 c mem)
    simp [natIn?, numeral.1, all, natOfDigits_toDigits]
  have unprefixed := prefixedNat?_of_isNumeral numeral
  have unpadded := toDigits_ne_padded i.natAbs
  obtain ⟨first, rest, split⟩ := List.exists_cons_of_ne_nil numeral.1
  have digit := numeral.2 first (split ▸ List.mem_cons_self)
  rw [toList_toString_int]
  rw [split] at decimal unprefixed unpadded ⊢
  rw [intOf?_signed digit (i < 0) unprefixed, decimal]
  · simp only [Option.map_some, Option.some.injEq]
    split <;> omega
  · rw [isPaddedDigits, dropSign_signed digit]
    split
    case h_1 c more eq => exact absurd eq (unpadded c more)
    case h_2 => rfl

/-- A double is not read as an integer. -/
theorem intOf?_of_isFraction {cs : List Char} (fraction : IsFraction cs) (negative : Prop)
    [Decidable negative] : intOf? ((if negative then ['-'] else []) ++ cs) = none ∧
      isPaddedDigits ((if negative then ['-'] else []) ++ cs) = false := by
  obtain ⟨⟨first, rest, rfl, digit, mark, mem, kind⟩, all⟩ := fraction
  have undigit : mark.isDigit = false := by obtain rfl | rfl := kind <;> rfl
  have unpadded : isPaddedDigits ((if negative then ['-'] else []) ++ first :: rest) = false := by
    rw [isPaddedDigits, dropSign_signed digit]
    split
    case h_1 c more eq =>
      cases eq
      refine List.all_eq_false.mpr ⟨mark, mem, by simp [undigit]⟩
    case h_2 => rfl
  have unprefixed : prefixedNat? (first :: rest) = none := by
    cases rest with
    | nil => simp [prefixedNat?]
    | cons second more =>
      have ne : second ≠ 'x' ∧ second ≠ 'o' ∧ second ≠ 'b' := by
        have := all second (by simp)
        refine ⟨?_, ?_, ?_⟩ <;> rintro rfl <;> simp [Char.isDigit] at this
      simp [prefixedNat?, ne]
  have undecimal : natIn? 10 (first :: rest) = none := by
    have notDigit : isDigitIn 10 mark = false := by obtain rfl | rfl := kind <;> rfl
    have : (first :: rest).all (isDigitIn 10) = false :=
      List.all_eq_false.mpr ⟨mark, List.mem_cons_of_mem _ mem, by simp [notDigit]⟩
    simp [natIn?, this]
  exact ⟨by rw [intOf?_signed digit negative unprefixed unpadded, undecimal]; rfl, unpadded⟩

/-- The value of a number, which starts with no letter. -/
theorem ofPlain?_of_head {cs : List Char} (start : ∃ c rest, cs = c :: rest ∧
    c.isAlpha = false ∧ c ≠ '~') :
    ofPlain? cs = match ofInt? cs with
      | some value? => value?
      | none =>
        match if isPaddedDigits cs then none else floatOf? cs with
        | some x => some (float x)
        | none => some (text (String.ofList cs)) := by
  obtain ⟨c, rest, rfl, letter, tilde⟩ := start
  obtain ⟨null, bool⟩ := not_word_of_head letter tilde rest
  have word : ((c :: rest).isEmpty || isNullWord (c :: rest)) ≠ true := by
    rw [null]
    exact Bool.false_ne_true
  rewrite [ofPlain?, if_neg word, bool]
  rfl

theorem number_head {cs : List Char} (start : ∃ c rest, cs = c :: rest ∧ c.isDigit = true)
    (negative : Prop) [Decidable negative] :
    ∃ c rest, (if negative then ['-'] else []) ++ cs = c :: rest ∧ c.isAlpha = false ∧ c ≠ '~' := by
  obtain ⟨c, rest, rfl, digit⟩ := start
  split
  · exact ⟨'-', c :: rest, rfl, rfl, by decide⟩
  · refine ⟨c, rest, rfl, not_isAlpha_of_isDigit digit, ?_⟩
    rintro rfl
    cases digit

theorem ofPlain?_int {i : Int} (least : -2 ^ 63 ≤ i) (greatest : i < 2 ^ 63) :
    ofPlain? (toString i).toList = some (.int i) := by
  have fits : fitsWord i = true := by
    simp [fitsWord]
    omega
  have read : ofInt? (toString i).toList = some (some (.int i)) := by
    rw [ofInt?, intOf?_toString]
    dsimp only
    rw [if_pos fits]
  have numeral := isNumeral_toDigits i.natAbs
  obtain ⟨first, rest, split⟩ := List.exists_cons_of_ne_nil numeral.1
  have start := number_head ⟨first, rest, split, numeral.2 first (split ▸ List.mem_cons_self)⟩
    (i < 0)
  rw [← toList_toString_int] at start
  rw [ofPlain?_of_head start, read]

theorem ofPlain?_float {x : Float} (real : x.isNaN = false) :
    ofPlain? (FloatStyle.template.write x).toList = some (.float x) := by
  have read := FloatStyle.template.floatOf?_write real
  have shape : intOf? (FloatStyle.template.write x).toList = none ∧
      isPaddedDigits (FloatStyle.template.write x).toList = false ∧
      ∃ c rest, (FloatStyle.template.write x).toList = c :: rest ∧ c.isAlpha = false ∧ c ≠ '~' := by
    cases infinite : x.isInf with
    | true =>
      rw [FloatStyle.write_of_infinite _ real infinite]
      split <;> exact ⟨by decide, by decide, _, _, rfl, rfl, by decide⟩
    | false =>
      have fraction := FloatStyle.template.isFraction_magnitude x
      obtain ⟨c, rest, split, digit, -⟩ := fraction.first
      obtain ⟨none, unpadded⟩ := intOf?_of_isFraction fraction (x.toBits >>> 63 = 1)
      rw [FloatStyle.write_of_finite _ real infinite]
      exact ⟨none, unpadded, number_head ⟨c, rest, split, digit⟩ _⟩
  obtain ⟨none, unpadded, start⟩ := shape
  have noInt : ofInt? (FloatStyle.template.write x).toList = Option.none := by rw [ofInt?, none]
  rw [ofPlain?_of_head start, noInt]
  dsimp only
  rw [unpadded, if_neg Bool.false_ne_true, read]

/-- A text that is not read as something else is read as itself. -/
theorem ofPlain?_text {s : String} (same : TextStyle.readsAsOther s.toList = false) :
    ofPlain? s.toList = some (.text s) := by
  simp only [TextStyle.readsAsOther, Bool.or_eq_false_iff] at same
  obtain ⟨-, same⟩ := same
  split at same
  case h_2 => cases same
  case h_1 t read =>
    rw [read]
    unfold ofPlain? at read
    split at read
    · cases read
    · split at read
      · cases read
      · split at read
        case h_1 value? number =>
          simp only [ofInt?] at number
          split at number
          · cases number
          · split at number
            · cases number
              cases read
            · split at number <;> cases number
              cases read
        case h_2 =>
          split at read <;> cases read
          rw [String.ofList_toList]

end Value

end Yaml

end ArenaVariations
