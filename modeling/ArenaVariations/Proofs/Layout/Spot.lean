import ArenaVariations.Proofs.Layout.Quoting
import ArenaVariations.Proofs.Yaml.Text.Style

/-!
# Texts read back where they are written

Whether a text is read back depends on where it is written. Inside of a flow collection a plain
text must not start like a key or a value, a key must stand on one line and must not be too long,
and a text that is written as a JSON string shows the separators among its line breaks.
`IsLegible` says at which `Spot` a text is legible, and `IsLegible.form` that it then is written in
a form that is read back as the text. Words are legible everywhere.
-/

namespace ArenaVariations

open Yaml

theorem mem_dropFinalNewlines {before after : List Char} (filled : ∃ c ∈ after, c ≠ '\n') :
    '\n' ∈ dropFinalNewlines (before ++ '\n' :: after) := by
  obtain ⟨c, mem, solid⟩ := filled
  have stops : (after.reverse.dropWhile fun c => c = '\n').isEmpty = false := by
    rw [List.isEmpty_eq_false_iff, ne_eq, List.dropWhile_eq_nil_iff]
    intro all
    exact solid (by simpa using all c (List.mem_reverse.mpr mem))
  rw [dropFinalNewlines, List.mem_reverse, List.reverse_append, List.reverse_cons,
    List.append_assoc, List.dropWhile_append, stops]
  simp

theorem mem_writeLines {indent : Nat} {atStart : Bool} {cs : List Char} {c : Char} (mem : c ∈ cs) :
    c ∈ writeLines indent atStart cs := by
  induction cs generalizing atStart with
  | nil => cases mem
  | cons d cs ih =>
    rw [writeLines]
    obtain rfl | mem := List.mem_cons.mp mem
    · split <;> simp
    · split <;> simp [ih mem]

theorem length_le_writeSingleBody (indent : Nat) (afterBreak : Bool) (cs : List Char) :
    cs.length ≤ (writeSingleBody indent afterBreak cs).length := by
  induction cs generalizing afterBreak with
  | nil => exact Nat.zero_le _
  | cons c cs ih =>
    rw [writeSingleBody]
    split
    · exact Nat.succ_le_succ (ih true)
    · have later := ih false
      have positive : 0 < (if c = '\'' then ['\'', '\''] else [c]).length := by
        split <;> exact Nat.succ_pos _
      simp only [List.length_append, List.length_cons]
      omega

theorem length_le_showInDouble (cs : List Char) : cs.length ≤ (cs.flatMap showInDouble).length := by
  induction cs with
  | nil => exact Nat.zero_le _
  | cons c cs ih =>
    have positive : 0 < (showInDouble c).length := by
      have encodes := encodes_showInDouble c
      generalize showInDouble c = code at encodes
      cases encodes <;> exact Nat.succ_pos _
    rw [List.flatMap_cons, List.length_append, List.length_cons]
    omega

namespace Yaml

theorem Encodes.not_newline {code : List Char} {c : Char} (h : Encodes code c) : '\n' ∉ code := by
  cases h with
  | itself _ _ newline => simpa using newline.symm
  | escape visible =>
    intro mem
    obtain is | mem := List.mem_cons.mp mem
    · cases is
    · have := (visible '\n' mem).2
      cases this

namespace TextStyle

variable {cs : List Char}

theorem choose_eq_plain (h : choose false cs = plain) :
    '\n' ∉ cs ∧ readsAsOther cs = false ∧ plainAllowed cs = true := by
  rw [choose, Bool.false_and, if_neg Bool.false_ne_true] at h
  split at h
  · split at h <;> cases h
  case isFalse newline =>
    split at h
    case isTrue allowed => simpa using And.intro (by simpa using newline) allowed
    case isFalse => split at h <;> cases h

theorem choose_eq_single (h : choose false cs = single) :
    '\n' ∉ cs ∧ singleAllowed cs = true := by
  rw [choose, Bool.false_and, if_neg Bool.false_ne_true] at h
  split at h
  · split at h <;> cases h
  case isFalse newline =>
    split at h
    · cases h
    · split at h
      case isTrue allowed => exact ⟨by simpa using newline, allowed⟩
      case isFalse => cases h

theorem choose_eq_literal (h : choose false cs = literal) :
    '\n' ∈ cs ∧ literalAllowed cs = true := by
  rw [choose, Bool.false_and, if_neg Bool.false_ne_true] at h
  split at h
  case isTrue newline =>
    split at h
    case isTrue allowed => exact ⟨by simpa using newline, allowed⟩
    case isFalse => cases h
  case isFalse =>
    split at h
    · cases h
    · split at h <;> cases h

end TextStyle

end Yaml

/-- Whether a text is written as it is. -/
def isWrittenPlainly (flow : Bool) (s : String) : Bool :=
  TextStyle.choose false s.toList = .plain && !(flow && s.toList.any isFlowIndicator)

/-- What a text looks like behind what is done to it for the sake of its place. -/
theorem quoteText_of_line {flow : Bool} {s : String} {written : List Char}
    (style : (TextStyle.choose false s.toList).write 2 s.toList = written)
    (newline : '\n' ∉ written)
    (plain : ¬ (flow = true ∧ written = s.toList ∧ s.toList.any isFlowIndicator = true)) :
    (quoteText flow s).toList = written := by
  have contains : ¬ written.contains '\n' = true := by
    rwa [List.contains_eq_mem, decide_eq_true_eq]
  rw [quoteText, style, dropFinalNewlines_eq_self newline, if_neg (not_or.mpr ⟨contains, plain⟩),
    String.toList_ofList]

theorem toList_jsonString (s : String) :
    (Text.jsonString s).toList = '"' :: s.toList.flatMap Text.jsonChar ++ ['"'] := by
  rw [Text.jsonString, String.toList_ofList]

theorem toList_quoteText_of_plain {flow : Bool} {s : String}
    (plain : isWrittenPlainly flow s = true) :
    (quoteText flow s).toList = s.toList := by
  simp only [isWrittenPlainly, Bool.and_eq_true, decide_eq_true_eq, Bool.not_eq_true'] at plain
  refine quoteText_of_line (by rw [plain.1]; rfl) (TextStyle.choose_eq_plain plain.1).1 ?_
  rintro ⟨rfl, -, any⟩
  simp [any] at plain

/-- A text that may not stand plainly in a flow collection is written as a JSON string there. -/
theorem toList_quoteText_of_delimited {s : String}
    (plain : TextStyle.choose false s.toList = .plain)
    (any : s.toList.any isFlowIndicator = true) :
    (quoteText true s).toList = '"' :: s.toList.flatMap Text.jsonChar ++ ['"'] := by
  have newline := (TextStyle.choose_eq_plain plain).1
  rw [quoteText, plain, TextStyle.write, dropFinalNewlines_eq_self newline, if_pos,
    toList_jsonString]
  exact .inr ⟨rfl, rfl, any⟩

theorem toList_quoteText_of_single {flow : Bool} {s : String}
    (style : TextStyle.choose false s.toList = .single) :
    (quoteText flow s).toList = '\'' :: (writeSingleBody 2 false s.toList ++ ['\'']) := by
  have newline := (TextStyle.choose_eq_single style).1
  refine quoteText_of_line (by rw [style]; rfl) ?_ ?_
  · intro mem
    simp only [List.mem_cons, List.mem_append, List.not_mem_nil, or_false] at mem
    obtain is | mem | is := mem
    · cases is
    · obtain mem | is | is := mem_writeSingleBody mem
      · exact newline mem
      · cases is
      · cases is
    · cases is
  · rintro ⟨-, same, -⟩
    have := congrArg List.length same
    have := length_le_writeSingleBody 2 false s.toList
    simp only [List.length_cons, List.length_append] at *
    omega

theorem toList_quoteText_of_double {flow : Bool} {s : String}
    (style : TextStyle.choose false s.toList = .double) :
    (quoteText flow s).toList = '"' :: (s.toList.flatMap showInDouble ++ ['"']) := by
  refine quoteText_of_line (by rw [style]; rfl) ?_ ?_
  · intro mem
    simp only [List.mem_cons, List.mem_append, List.not_mem_nil, or_false] at mem
    obtain is | mem | is := mem
    · cases is
    · obtain ⟨c, -, mem⟩ := List.mem_flatMap.mp mem
      exact (encodes_showInDouble c).not_newline mem
    · cases is
  · rintro ⟨-, same, -⟩
    have := congrArg List.length same
    have := length_le_showInDouble s.toList
    simp only [List.length_cons, List.length_append] at *
    omega

/-- A text of several lines is written as a JSON string. -/
theorem toList_quoteText_of_literal {flow : Bool} {s : String}
    (style : TextStyle.choose false s.toList = .literal) (filled : ∃ c ∈ s.toList, c ≠ '\n') :
    (quoteText flow s).toList = '"' :: s.toList.flatMap Text.jsonChar ++ ['"'] := by
  obtain ⟨c, mem, solid⟩ := filled
  have several : '\n' ∈ dropFinalNewlines (TextStyle.literal.write 2 s.toList) :=
    mem_dropFinalNewlines ⟨c, mem_writeLines mem, solid⟩
  rw [quoteText, style, if_pos (.inl (by simpa using several)), toList_jsonString]

/-- Where a scalar is written: inside of a flow collection or outside of all, as a key or
elsewhere. -/
structure Spot where
  flow : Bool
  key : Bool
deriving Repr, DecidableEq

/-- Whether a text is written as on a line with others: everywhere but as the key of a block. -/
def Spot.isShared (spot : Spot) : Bool :=
  spot.flow || !spot.key

/-- A text that may be a key: it stands on one line, and is not too long. -/
structure IsKeyText (cs : List Char) : Prop where
  unbroken : ∀ c ∈ cs, isBreak c = false
  short : (String.ofList cs).utf8ByteSize ≤ 1024

instance {cs : List Char} : Decidable (IsKeyText cs) :=
  decidable_of_iff (cs.all (!isBreak ·) = true ∧ String.utf8Len cs ≤ 1024) (by
    rw [← String.utf8ByteSize_ofList]
    simp only [List.all_eq_true, Bool.not_eq_true']
    exact ⟨fun h => ⟨h.1, h.2⟩, fun h => ⟨h.unbroken, h.short⟩⟩)

/-- A text that is read back where it is written. If it has several lines, not all of them are
empty, and those behind a separator are kept. Inside of a flow collection, if it is written as it
is, it does not look like a key or a value. As a key it is written on one line that is not too
long. -/
structure IsLegible (spot : Spot) (s : String) : Prop where
  lines : TextStyle.choose false s.toList = .literal →
    (∃ c ∈ s.toList, c ≠ '\n') ∧ keepsLines s.toList = true
  flow : spot.flow = true → isWrittenPlainly true s = true → IsFlowSafe s.toList
  key : spot.key = true → IsKeyText (quoteText spot.isShared s).toList

instance {spot : Spot} {s : String} : Decidable (IsLegible spot s) :=
  decidable_of_iff
    ((TextStyle.choose false s.toList = .literal →
        s.toList.any (· ≠ '\n') = true ∧ keepsLines s.toList = true) ∧
      (spot.flow = true → isWrittenPlainly true s = true → IsFlowSafe s.toList) ∧
      (spot.key = true → IsKeyText (quoteText spot.isShared s).toList)) (by
    simp only [List.any_eq_true, decide_eq_true_eq]
    exact ⟨fun h => ⟨h.1, h.2.1, h.2.2⟩, fun h => ⟨h.lines, h.flow, h.key⟩⟩)

/-- A legible text is written in a form that is read as the text. -/
theorem IsLegible.form {spot : Spot} {s : String} (legible : IsLegible spot s) :
    ScalarForm spot.flow (quoteText spot.isShared s).toList
      ⟨s.toList, isWrittenPlainly spot.isShared s⟩ := by
  cases style : TextStyle.choose false s.toList with
  | plain =>
    obtain ⟨-, other, allowed⟩ := TextStyle.choose_eq_plain style
    cases delimited : spot.isShared && s.toList.any isFlowIndicator with
    | true =>
      obtain ⟨shared, any⟩ := Bool.and_eq_true_iff.mp delimited
      have quoted : isWrittenPlainly spot.isShared s = false := by
        simp [isWrittenPlainly, delimited]
      obtain ⟨printable, unbroken⟩ := visible_of_plainAllowed allowed
      have before : TextStyle.hasSpaceBeforeBreak s.toList = false :=
        TextStyle.hasPair_eq_false fun a _ b mem => by simp [unbroken b mem]
      rw [quoted, shared, toList_quoteText_of_delimited style any]
      exact .quoted (isQuoted_json printable before (keepsLines_of_unbroken unbroken))
    | false =>
      have plain : isWrittenPlainly spot.isShared s = true := by
        simp [isWrittenPlainly, style, delimited]
      rw [plain, toList_quoteText_of_plain plain]
      refine .plain (isPlain_of_plainAllowed allowed ?_ (fun inFlow => ?_) fun inFlow => ?_)
      · rintro none
        rw [none] at other
        cases other
      · have shared : spot.isShared = true := by simp [Spot.isShared, inFlow]
        rw [shared, Bool.true_and, List.any_eq_false] at delimited
        exact fun c mem => by simpa using delimited c mem
      · have shared : spot.isShared = true := by simp [Spot.isShared, inFlow]
        exact legible.flow inFlow (shared ▸ plain)
  | single =>
    have quoted : isWrittenPlainly spot.isShared s = false := by simp [isWrittenPlainly, style]
    obtain ⟨newline, allowed⟩ := TextStyle.choose_eq_single style
    rw [quoted, toList_quoteText_of_single style]
    exact .quoted (isQuoted_single allowed newline (by decide))
  | double =>
    have quoted : isWrittenPlainly spot.isShared s = false := by simp [isWrittenPlainly, style]
    rw [quoted, toList_quoteText_of_double style]
    exact .quoted (isQuoted_double s.toList)
  | literal =>
    have quoted : isWrittenPlainly spot.isShared s = false := by simp [isWrittenPlainly, style]
    obtain ⟨-, allowed⟩ := TextStyle.choose_eq_literal style
    obtain ⟨filled, kept⟩ := legible.lines style
    rw [quoted, toList_quoteText_of_literal style filled]
    simp only [TextStyle.literalAllowed, Bool.not_eq_true', Bool.or_eq_false_iff] at allowed
    exact .quoted (isQuoted_json (isPrintable_of_hasSpecial allowed.2) allowed.1.2 kept)

namespace Yaml

theorem isSolid_of_isSimple {c : Char} (h : isSimple c = true) : IsSolid c :=
  ⟨isBreak_of_isSimple h, isBlank_of_isSimple h, ne_of_isSimple h rfl, ne_of_isSimple h rfl⟩

theorem utf8Size_of_isSimple {c : Char} (h : isSimple c = true) : c.utf8Size = 1 := by
  have bounds := (isSimple_bounds h).2
  rw [Char.utf8Size_eq_one_iff]
  rw [Char.le_def] at bounds
  exact UInt32.le_trans bounds (by decide)

/-- A short text on one line may be a key, if its characters take a byte each. -/
theorem isKeyText_of_narrow {cs : List Char} (narrow : ∀ c ∈ cs, isBreak c = false ∧ c.utf8Size = 1)
    (short : cs.length ≤ 1024) : IsKeyText cs := by
  refine ⟨fun c mem => (narrow c mem).1, ?_⟩
  have bytes : String.utf8Len cs = cs.length := by
    clear short
    induction cs with
    | nil => rfl
    | cons c cs ih =>
      obtain ⟨first, others⟩ := List.forall_mem_cons.mp narrow
      rw [String.utf8Len_cons, ih others, first.2, List.length_cons]
  rw [String.utf8ByteSize_ofList, bytes]
  exact short

theorem narrow_of_isSimple {c : Char} (h : isSimple c = true) :
    isBreak c = false ∧ c.utf8Size = 1 :=
  ⟨isBreak_of_isSimple h, utf8Size_of_isSimple h⟩

theorem IsSimpleText.isPlain {cs : List Char} (simple : IsSimpleText cs) (flow : Bool) :
    IsPlain flow cs where
  printable := fun c mem => isPrintable_of_isSimple (simple.all c mem)
  unbroken := fun c mem => isBreak_of_isSimple (simple.all c mem)
  delimited := fun _ c mem => isFlowIndicator_of_isSimple (simple.all c mem)
  start := by
    obtain ⟨first, more, rfl, start⟩ := simple.start
    have here := simple.all first List.mem_cons_self
    refine ⟨first, more, rfl, isSolid_of_isSimple here, not_mem_of_isSimple here rfl, ?_,
      fun _ => ⟨ne_of_isSimple here rfl, ne_of_isSimple here rfl⟩⟩
    rintro (rfl | rfl)
    · obtain letter | ⟨second, head, -⟩ := start
      · cases letter
      · obtain ⟨others, rfl⟩ := List.head?_eq_some_iff.mp head
        have next := simple.all second (by simp)
        exact ⟨second, rfl, by
          simp [isGap, isBlank_of_isSimple next, TextStyle.endsLine_of_isSimple next]⟩
    · exact absurd rfl (ne_of_isSimple here rfl)
  adjoins := by
    refine (List.isChain_isInfix cs).imp fun a b inside => ?_
    have first := simple.all a (inside.subset (by simp))
    have second := simple.all b (inside.subset (by simp))
    exact ⟨fun _ => ne_of_isSimple second rfl, fun is => absurd is (ne_of_isSimple first rfl),
      fun _ is => absurd is (ne_of_isSimple first rfl)⟩
  last := fun c mem =>
    have here := simple.all c (List.mem_of_getLast? mem)
    ⟨ne_of_isSimple here rfl, ne_of_isSimple here rfl⟩
  noMarker := by
    obtain ⟨first, more, rfl, letter | ⟨second, head, ne⟩⟩ := simple.start
    · constructor <;> intro same <;> cases (List.cons.inj same).1 <;> cases letter
    · obtain ⟨others, rfl⟩ := List.head?_eq_some_iff.mp head
      constructor <;> intro same <;> obtain ⟨rfl, rest⟩ := List.cons.inj same <;>
        exact ne (List.cons.inj rest).1

end Yaml

/-- A word is read back wherever it is written. -/
theorem IsWord.isLegible {s : String} (word : IsWord s) (spot : Spot) : IsLegible spot s where
  lines := by
    intro style
    exact absurd rfl (ne_of_isSimple (word.isSimple '\n' (TextStyle.choose_eq_literal style).1) rfl)
  flow := by
    intro _ _
    have ne : ∀ c ∈ s.toList, c ≠ '?' ∧ c ≠ ':' := fun c mem =>
      ⟨ne_of_isSimple (word.isSimple c mem) rfl, ne_of_isSimple (word.isSimple c mem) rfl⟩
    refine ⟨⟨fun head => ?_, fun head => ?_⟩, fun inside => ?_⟩
    · exact (ne _ (List.mem_of_head? head)).1 rfl
    · exact (ne _ (List.mem_of_head? head)).2 rfl
    · exact (ne ':' (inside.subset (by simp))).2 rfl
  key := by
    intro _
    have short := word.short
    rw [toList_quoteText_of_isWord word]
    split
    · refine isKeyText_of_narrow ?_ (by simp; omega)
      simp only [List.cons_append, List.mem_cons, List.mem_append, List.not_mem_nil, or_false]
      rintro c (rfl | mem | rfl)
      · exact ⟨rfl, rfl⟩
      · exact narrow_of_isSimple (word.isSimple c mem)
      · exact ⟨rfl, rfl⟩
    · exact isKeyText_of_narrow (fun c mem => narrow_of_isSimple (word.isSimple c mem)) (by omega)

namespace Yaml.Value

/-- How a scalar is written, as on a line with others or as a key at the start of a line. -/
def lineOf (shared : Bool) (v : Value) : String :=
  if shared then v.scalarLine else v.keyLine

/-- The text of a written scalar's token. -/
def scalarText (shared : Bool) : Value → ScalarText
  | text s => ⟨s.toList, isWrittenPlainly shared s⟩
  | v => ⟨v.scalarLine.toList, true⟩

/-- The scalars that are read back from where they are written: integers that are signed words,
doubles that are numbers, and legible texts. -/
inductive LegibleAt (spot : Spot) : Value → Prop where
  | null : LegibleAt spot .null
  | bool (b : Bool) : LegibleAt spot (.bool b)
  | int {i : Int} (least : -2 ^ 63 ≤ i) (greatest : i < 2 ^ 63) : LegibleAt spot (.int i)
  | float {x : Float} (real : x.isNaN = false) : LegibleAt spot (.float x)
  | text {s : String} (legible : IsLegible spot s) : LegibleAt spot (.text s)

theorem lineOf_text (shared : Bool) (s : String) : (text s).lineOf shared = quoteText shared s := by
  cases shared <;> rfl

theorem lineOf_of_ne_text (shared : Bool) {v : Value} (other : ∀ s, v ≠ .text s) :
    v.lineOf shared = v.scalarLine := by
  cases shared with
  | true => rfl
  | false =>
    cases v with
    | text s => exact absurd rfl (other s)
    | _ => rfl

variable {spot : Spot} {v : Value}

theorem LegibleAt.isScalar (h : v.LegibleAt spot) : v.isScalar = true := by
  cases h <;> rfl

/-- What a number, a boolean or null is written as has no meaning in YAML but its own. -/
theorem LegibleAt.isSimpleText (h : v.LegibleAt spot) (other : ∀ s, v ≠ .text s) :
    IsSimpleText v.scalarLine.toList := by
  cases h with
  | null => exact ⟨forall_mem_of_all (by decide), 'n', _, rfl, .inl rfl⟩
  | bool b => cases b <;> exact ⟨forall_mem_of_all (by decide), _, _, rfl, .inl rfl⟩
  | int => exact isSimpleText_int _
  | float real => exact isSimpleText_float real
  | text => exact absurd rfl (other _)

theorem LegibleAt.form (h : v.LegibleAt spot) :
    ScalarForm spot.flow (v.lineOf spot.isShared).toList (v.scalarText spot.isShared) := by
  have simple := h.isSimpleText
  have line := lineOf_of_ne_text spot.isShared (v := v)
  cases h with
  | null | bool | int | float =>
    rw [line nofun]
    exact .plain ((simple nofun).isPlain _)
  | text legible =>
    rw [lineOf_text]
    exact legible.form

theorem LegibleAt.length (h : v.LegibleAt spot) (other : ∀ s, v ≠ .text s) :
    v.scalarLine.toList.length ≤ 950 := by
  cases h with
  | null => decide
  | bool b => cases b <;> decide
  | @int i least greatest =>
    have digits : (Nat.toDigits 10 i.natAbs).length ≤ 20 :=
      (Decimal.length_le_iff (by decide)).mpr (by omega)
    rw [scalarLine, toList_toString_int]
    split <;> simp <;> omega
  | float real => exact (FloatStyle.length_write real).trans (by decide)
  | text => exact absurd rfl (other _)

/-- A legible key may be a key. -/
theorem LegibleAt.isKeyText (h : v.LegibleAt spot) (key : spot.key = true) :
    IsKeyText (v.lineOf spot.isShared).toList := by
  have simple := h.isSimpleText
  have short := h.length
  have line := lineOf_of_ne_text spot.isShared (v := v)
  cases h with
  | null | bool | int | float =>
    rw [line nofun]
    exact isKeyText_of_narrow (fun c mem => narrow_of_isSimple ((simple nofun).all c mem))
      ((short nofun).trans (by decide))
  | text legible =>
    rw [lineOf_text]
    exact legible.key key

theorem LegibleAt.read (h : v.LegibleAt spot) :
    ofUntagged? (v.scalarText spot.isShared).plain (v.scalarText spot.isShared).text = some v := by
  cases h with
  | null => rfl
  | bool b => cases b <;> rfl
  | int least greatest => exact ofPlain?_int least greatest
  | float real => exact ofPlain?_float real
  | @text s legible =>
    rw [scalarText, ofUntagged?]
    cases plain : isWrittenPlainly spot.isShared s with
    | true =>
      simp only [isWrittenPlainly, Bool.and_eq_true, decide_eq_true_eq] at plain
      exact ofPlain?_text (TextStyle.choose_eq_plain plain.1).2.1
    | false => simp

end Yaml.Value

end ArenaVariations
