import ArenaVariations.Proofs.Decimal.Comparison
import ArenaVariations.Proofs.Layout.Legible

/-!
# Different scalars are written differently

Nothing but its text tells how a scalar was meant: a plain text is read as one value, and what
stands between quotes as one text. So scalars that are different values have different texts, on a
line with others and on a line of their own: `Scalar.same_of_write_eq`. The exception are texts of
newlines only, all of which are written as the same header of a block.
-/

namespace ArenaVariations

open Yaml

namespace Yaml

/-- What stands behind an opening quote is read as one text only. -/
theorem IsQuoted.unique {double : Bool} {inner cs ds : List Char} (first : IsQuoted double inner cs)
    (second : IsQuoted double inner ds) : cs = ds := by
  have inLine : 0 < (Mark.start.advance ' ').column := Nat.succ_pos _
  have closed : ([] : List Char).head? ≠ some '\'' := nofun
  have read := first.read inLine closed
  rw [second.read inLine closed] at read
  exact (Prod.mk.inj (Option.some.inj read)).1.symm

/-- A printable character is written in JSON as itself, or as a letter that stands for it. -/
theorem jsonChar_of_isPrintable {c : Char} (printable : isPrintable c = true) :
    (Text.jsonChar c = [c] ∧ c ≠ '\\') ∨
      ∃ letter, Text.jsonChar c = ['\\', letter] ∧ simpleEscape? letter = some c := by
  unfold Text.jsonChar
  split
  case h_8 _ backslash _ _ newline _ _ =>
    rw [if_neg (Nat.not_lt.mpr (le_toNat_of_isPrintable printable newline))]
    exact .inl ⟨rfl, backslash⟩
  all_goals exact .inr ⟨_, rfl, rfl⟩

/-- What a JSON string starts with is the text of one character only. -/
theorem jsonChar_append_inj {c d : Char} (printable : isPrintable c = true)
    (printable' : isPrintable d = true) {rest rest' : List Char}
    (same : Text.jsonChar c ++ rest = Text.jsonChar d ++ rest') : c = d ∧ rest = rest' := by
  obtain ⟨shown, visible⟩ | ⟨letter, shown, stands⟩ := jsonChar_of_isPrintable printable <;>
    obtain ⟨shown', visible'⟩ | ⟨letter', shown', stands'⟩ := jsonChar_of_isPrintable printable' <;>
    simp only [shown, shown', List.cons_append, List.nil_append, List.cons.injEq] at same
  · exact same
  · exact absurd same.1 visible
  · exact absurd same.1.symm visible'
  · obtain ⟨-, rfl, same⟩ := same
    exact ⟨Option.some.inj (stands.symm.trans stands'), same⟩

/-- Printable texts that have the same JSON string are one text. -/
theorem jsonChars_injective {cs ds : List Char} (printable : ∀ c ∈ cs, isPrintable c = true)
    (printable' : ∀ c ∈ ds, isPrintable c = true)
    (same : cs.flatMap Text.jsonChar = ds.flatMap Text.jsonChar) : cs = ds := by
  have filled (c : Char) : Text.jsonChar c ≠ [] := by
    obtain itself | ⟨code, escaped⟩ := jsonChar_eq c
    · simp [itself]
    · simp [escaped]
  induction cs generalizing ds with
  | nil =>
    cases ds with
    | nil => rfl
    | cons d ds => simp [filled] at same
  | cons c cs ih =>
    obtain ⟨first, rest⟩ := List.forall_mem_cons.mp printable
    cases ds with
    | nil => simp [filled] at same
    | cons d ds =>
      obtain ⟨first', rest'⟩ := List.forall_mem_cons.mp printable'
      rw [List.flatMap_cons, List.flatMap_cons] at same
      obtain ⟨rfl, others⟩ := jsonChar_append_inj first first' same
      rw [ih rest rest' others]

/-- Separators are not written as themselves between double quotes. -/
theorem not_isSeparator_of_mem_showInDouble {c d : Char} (mem : d ∈ showInDouble c) :
    isSeparator d = false := by
  have unbroken : isBreak d = false := by
    have encodes := encodes_showInDouble c
    have itself := of_showInDouble (c := c)
    generalize showInDouble c = code at mem encodes itself
    cases encodes with
    | itself =>
      obtain rfl := List.mem_singleton.mp mem
      exact (itself rfl).2
    | escape visible =>
      obtain rfl | mem := List.mem_cons.mp mem
      · rfl
      · exact (visible d mem).2
  simp only [isBreak, decide_eq_false_iff_not, not_or, Bool.not_eq_true] at unbroken
  exact unbroken.2

/-- Separators are written as themselves in JSON. -/
theorem jsonChar_of_isSeparator {c : Char} (separator : isSeparator c = true) :
    Text.jsonChar c = [c] := by
  simp only [isSeparator, decide_eq_true_eq] at separator
  obtain rfl | rfl := separator <;> decide

end Yaml

/-- A text of newlines only. -/
def IsNewlines (cs : List Char) : Prop :=
  '\n' ∈ cs ∧ ∀ c ∈ cs, c = '\n'

namespace IsNewlines

variable {cs : List Char}

theorem choose_eq_literal (newlines : IsNewlines cs) :
    TextStyle.choose false cs = .literal := by
  obtain ⟨newline, all⟩ := newlines
  have last : cs.getLast? ≠ some ' ' := fun space =>
    absurd (all ' ' (List.mem_of_getLast? space)) (by decide)
  have pairs : TextStyle.hasSpaceBeforeBreak cs = false :=
    TextStyle.hasPair_eq_false fun a mem _ _ => by simp [all a mem]
  have special : TextStyle.hasSpecial cs = false :=
    List.any_eq_false.mpr fun c mem => by rw [all c mem]; decide
  have allowed : TextStyle.literalAllowed cs = true := by
    simp [TextStyle.literalAllowed, last, pairs, special]
  rw [TextStyle.choose, Bool.false_and, if_neg Bool.false_ne_true, if_pos (by simpa using newline),
    if_pos allowed]

theorem literalHeader_eq (newlines : IsNewlines cs) : literalHeader cs = ['|', '2', '+'] := by
  obtain ⟨newline, all⟩ := newlines
  rw [List.eq_replicate_of_mem all]
  obtain ⟨n, count⟩ := Nat.exists_eq_succ_of_ne_zero (List.length_pos_of_mem newline).ne'
  rw [count, literalHeader, List.reverse_replicate]
  cases n <;> rfl

theorem writeLines_eq (all : ∀ c ∈ cs, c = '\n') (indent : Nat) (atStart : Bool) :
    writeLines indent atStart cs = cs := by
  induction cs generalizing atStart with
  | nil => rfl
  | cons c cs ih =>
    obtain ⟨rfl, rest⟩ := List.forall_mem_cons.mp all
    have breaks : isBreak '\n' = true := rfl
    rw [writeLines, breaks, if_pos rfl, ih rest]

theorem dropFinalNewlines_append {before : List Char} (none : '\n' ∉ before)
    (all : ∀ c ∈ cs, c = '\n') : dropFinalNewlines (before ++ cs) = before := by
  have empty : cs.reverse.dropWhile (fun c => c = '\n') = [] :=
    List.dropWhile_eq_nil_iff.mpr fun c mem => by simpa using all c (List.mem_reverse.mp mem)
  rw [dropFinalNewlines, List.reverse_append, List.dropWhile_append, empty, List.isEmpty_nil,
    if_pos rfl]
  exact dropFinalNewlines_eq_self none

/-- All texts that consist of newlines are written alike: what is behind the header of their block
is cut off. -/
theorem quoteText_eq {s : String} (newlines : IsNewlines s.toList) (flow : Bool) :
    quoteText flow s = "|2+" := by
  have written : dropFinalNewlines ((TextStyle.choose false s.toList).write 2 s.toList) =
      ['|', '2', '+'] := by
    rw [newlines.choose_eq_literal, TextStyle.write, writeLiteral, newlines.literalHeader_eq,
      writeLines_eq newlines.2]
    exact dropFinalNewlines_append (by decide) (List.forall_mem_cons.mpr ⟨rfl, newlines.2⟩)
  rw [quoteText, written, if_neg]
  rintro (several | ⟨-, same, -⟩)
  · cases several
  · have newline := newlines.1
    rw [← same] at newline
    exact absurd newline (by decide)

end IsNewlines

/-- The forms in which texts are written. -/
inductive WrittenAs (cs : List Char) : List Char → Prop where
  | plain (other : TextStyle.readsAsOther cs = false) (allowed : TextStyle.plainAllowed cs = true) :
      WrittenAs cs cs
  | single (allowed : TextStyle.singleAllowed cs = true) (newline : '\n' ∉ cs) :
      WrittenAs cs ('\'' :: (writeSingleBody 2 false cs ++ ['\'']))
  | double : WrittenAs cs ('"' :: (cs.flatMap showInDouble ++ ['"']))
  | json (printable : ∀ c ∈ cs, isPrintable c = true)
      (before : TextStyle.hasSpaceBeforeBreak cs = false) :
      WrittenAs cs ('"' :: (cs.flatMap Text.jsonChar ++ ['"']))
  | header (newlines : IsNewlines cs) : WrittenAs cs ['|', '2', '+']

theorem writtenAs_quoteText (flow : Bool) (s : String) :
    WrittenAs s.toList (quoteText flow s).toList := by
  cases style : TextStyle.choose false s.toList with
  | plain =>
    obtain ⟨-, other, allowed⟩ := TextStyle.choose_eq_plain style
    cases delimited : flow && s.toList.any isFlowIndicator with
    | true =>
      obtain ⟨rfl, any⟩ := Bool.and_eq_true_iff.mp delimited
      obtain ⟨printable, unbroken⟩ := visible_of_plainAllowed allowed
      rw [toList_quoteText_of_delimited style any]
      exact .json printable (TextStyle.hasPair_eq_false fun a _ b mem => by simp [unbroken b mem])
    | false =>
      have plain : isWrittenPlainly flow s = true := by simp [isWrittenPlainly, style, delimited]
      rw [toList_quoteText_of_plain plain]
      exact .plain other allowed
  | single =>
    obtain ⟨newline, allowed⟩ := TextStyle.choose_eq_single style
    rw [toList_quoteText_of_single style]
    exact .single allowed newline
  | double =>
    rw [toList_quoteText_of_double style]
    exact .double
  | literal =>
    obtain ⟨newline, allowed⟩ := TextStyle.choose_eq_literal style
    by_cases filled : ∃ c ∈ s.toList, c ≠ '\n'
    · rw [toList_quoteText_of_literal style filled]
      simp only [TextStyle.literalAllowed, Bool.not_eq_true', Bool.or_eq_false_iff] at allowed
      exact .json (isPrintable_of_hasSpecial allowed.2) allowed.1.2
    · have newlines : IsNewlines s.toList := ⟨newline, by simpa using filled⟩
      rw [newlines.quoteText_eq]
      exact .header newlines

/-- A plain text does not start like a text between quotes or like a block. -/
theorem plain_head {cs : List Char} (other : TextStyle.readsAsOther cs = false)
    (allowed : TextStyle.plainAllowed cs = true) :
    ∃ first rest, cs = first :: rest ∧ isIndicator first = false := by
  have filled : cs ≠ [] := by
    rintro rfl
    cases other
  have plain : IsPlain false cs := isPlain_of_plainAllowed allowed filled nofun nofun
  obtain ⟨first, rest, split, start⟩ := plain.start
  exact ⟨first, rest, split, start.notIndicator⟩

/-- A JSON string is no other text between double quotes. -/
theorem eq_of_json_eq_double {cs ds : List Char} (printable : ∀ c ∈ cs, isPrintable c = true)
    (before : TextStyle.hasSpaceBeforeBreak cs = false)
    (same : cs.flatMap Text.jsonChar = ds.flatMap showInDouble) : cs = ds := by
  -- no separator stands between the quotes, so that every line of the first text is kept
  have unseparated : ∀ c ∈ cs, isSeparator c = false := by
    intro c mem
    by_contra separator
    rw [Bool.not_eq_false] at separator
    have inside : c ∈ cs.flatMap Text.jsonChar :=
      List.mem_flatMap.mpr ⟨c, mem, by simp [jsonChar_of_isSeparator separator]⟩
    rw [same] at inside
    obtain ⟨d, -, shown⟩ := List.mem_flatMap.mp inside
    rw [not_isSeparator_of_mem_showInDouble shown] at separator
    cases separator
  have kept := isQuoted_json printable before (keepsLines_of_unseparated unseparated)
  rw [same] at kept
  exact kept.unique (isQuoted_double ds)

/-- The text of a written text is known, unless it is made of newlines. -/
theorem WrittenAs.unique {cs ds written : List Char} (h : WrittenAs cs written)
    (h' : WrittenAs ds written) : cs = ds ∨ IsNewlines cs ∧ IsNewlines ds := by
  have notPlain {ts more : List Char} {mark : Char} (other : TextStyle.readsAsOther ts = false)
      (allowed : TextStyle.plainAllowed ts = true) (starts : ts = mark :: more)
      (indicator : isIndicator mark = true) : False := by
    obtain ⟨first, rest, split, notIndicator⟩ := plain_head other allowed
    obtain ⟨rfl, -⟩ := List.cons.inj (split.symm.trans starts)
    rw [indicator] at notIndicator
    cases notIndicator
  generalize same : written = written' at h'
  cases h with
  | plain other allowed =>
    cases h' with
    | plain => exact .inl same
    | single | double | json | header => exact (notPlain other allowed same rfl).elim
  | single allowed newline =>
    have quoted := isQuoted_single allowed newline Nat.two_pos
    cases h' with
    | plain other allowed => exact (notPlain other allowed same.symm rfl).elim
    | single allowed' newline' =>
      rw [(List.cons.inj same).2] at quoted
      exact .inl (quoted.unique (isQuoted_single allowed' newline' Nat.two_pos))
    | double | json | header => cases (List.cons.inj same).1
  | double =>
    have quoted := isQuoted_double cs
    cases h' with
    | plain other allowed => exact (notPlain other allowed same.symm rfl).elim
    | double =>
      rw [(List.cons.inj same).2] at quoted
      exact .inl (quoted.unique (isQuoted_double ds))
    | json printable before =>
      have inner := List.append_cancel_right (List.cons.inj same).2
      exact .inl (eq_of_json_eq_double printable before inner.symm).symm
    | single | header => cases (List.cons.inj same).1
  | json printable before =>
    cases h' with
    | plain other allowed => exact (notPlain other allowed same.symm rfl).elim
    | double =>
      have inner := List.append_cancel_right (List.cons.inj same).2
      exact .inl (eq_of_json_eq_double printable before inner)
    | json printable' =>
      have inner := List.append_cancel_right (List.cons.inj same).2
      exact .inl (jsonChars_injective printable printable' inner)
    | single | header => cases (List.cons.inj same).1
  | header newlines =>
    cases h' with
    | plain other allowed => exact (notPlain other allowed same.symm rfl).elim
    | header newlines' => exact .inr ⟨newlines, newlines'⟩
    | single | double | json => cases (List.cons.inj same).1

namespace Scalar

/-- A text of newlines only, as a scalar. -/
def IsNewlines (s : Scalar) : Prop :=
  ∃ t, s = .text t ∧ ArenaVariations.IsNewlines t.toList

theorem IsNewlines.write_eq {s : Scalar} (newlines : s.IsNewlines) (flow : Bool) :
    s.write flow = "|2+" := by
  obtain ⟨t, rfl, newlines⟩ := newlines
  exact newlines.quoteText_eq flow

theorem same_toValue_self (s : Scalar) : s.toValue.same s.toValue = true := by
  cases s with
  | float x =>
    cases nan : x.isNaN with
    | true => rw [toValue, Value.same, nan, Bool.and_self, Bool.or_true]
    | false => rw [toValue, Value.same, beq_self nan, Bool.true_or]
  | null | bool | int | text => simp [toValue, Value.same]

/-- What is no text is written plainly, and read as itself. -/
theorem display_reads {s : Scalar} (other : ∀ t, s ≠ .text t) :
    IsSimpleText s.display.toList ∧ Value.ofPlain? s.display.toList = some s.toValue := by
  have legible {v : Value} (legible : v.LegibleAt ⟨false, false⟩) (other : ∀ t, v ≠ .text t) :
      IsSimpleText v.scalarLine.toList ∧ Value.ofPlain? v.scalarLine.toList = some v := by
    refine ⟨legible.isSimpleText other, ?_⟩
    have read := legible.read
    cases legible with
    | text => exact absurd rfl (other _)
    | null | bool | int | float => exact read
  cases s with
  | text t => exact absurd rfl (other t)
  | null => exact legible .null nofun
  | bool b => exact legible (.bool b) nofun
  | int i => exact legible (.int i.le_toInt i.toInt_lt) nofun
  | float x =>
    cases nan : x.isNaN with
    | false => exact legible (.float nan) nofun
    | true =>
      have written : (Scalar.float x).display = ".nan" := if_pos nan
      obtain rfl : x = .nan := by simpa [Float.isNaN_eq_decide_eq_nan] using nan
      rw [written]
      exact ⟨⟨forall_mem_of_all (by decide), '.', _, rfl, .inr ⟨_, rfl, by decide⟩⟩, rfl⟩

/-- A text is written like no other scalar. -/
theorem quoteText_ne_display {s : Scalar} (other : ∀ t, s ≠ .text t) (flow : Bool) (t : String) :
    quoteText flow t ≠ s.display := by
  intro same
  obtain ⟨simple, read⟩ := display_reads other
  have written := writtenAs_quoteText flow t
  rw [same] at written
  have marked {mark : Char} {rest : List Char} (starts : s.display.toList = mark :: rest)
      (special : isSimple mark = false) : False := by
    rw [simple.all mark (starts ▸ List.mem_cons_self)] at special
    cases special
  generalize shown : s.display.toList = cs at written
  cases written with
  | plain reads =>
    rw [shown, Value.ofPlain?_text reads] at read
    cases s with
    | text t => exact other t rfl
    | null | bool | int | float => cases read
  | single | double | json | header => exact marked shown rfl

theorem write_of_ne_text {s : Scalar} (other : ∀ t, s ≠ .text t) (flow : Bool) :
    s.write flow = s.display := by
  cases s with
  | text t => exact absurd rfl (other t)
  | null | bool | int | float => rfl

/-- Scalars that are written alike are the same value, or texts of newlines. -/
theorem same_of_write_eq {s t : Scalar} {flow : Bool} (h : s.write flow = t.write flow) :
    s.toValue.same t.toValue = true ∨ s.IsNewlines ∧ t.IsNewlines := by
  by_cases first : ∃ a, s = .text a <;> by_cases second : ∃ b, t = .text b
  · obtain ⟨a, rfl⟩ := first
    obtain ⟨b, rfl⟩ := second
    have written := writtenAs_quoteText flow a
    have same : quoteText flow a = quoteText flow b := h
    rw [same] at written
    obtain same | ⟨first, second⟩ := written.unique (writtenAs_quoteText flow b)
    · obtain rfl := String.toList_inj.mp same
      exact .inl (same_toValue_self _)
    · exact .inr ⟨⟨a, rfl, first⟩, b, rfl, second⟩
  · obtain ⟨a, rfl⟩ := first
    have other := not_exists.mp second
    rw [write_of_ne_text other] at h
    exact absurd h (quoteText_ne_display other flow a)
  · obtain ⟨b, rfl⟩ := second
    have other := not_exists.mp first
    rw [write_of_ne_text other] at h
    exact absurd h.symm (quoteText_ne_display other flow b)
  · have other := not_exists.mp first
    have other' := not_exists.mp second
    rw [write_of_ne_text other, write_of_ne_text other'] at h
    have read := (display_reads other).2
    rw [h, (display_reads other').2] at read
    rw [Option.some.inj read]
    exact .inl s.same_toValue_self

end Scalar

end ArenaVariations
