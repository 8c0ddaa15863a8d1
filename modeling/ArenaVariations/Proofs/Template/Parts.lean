import ArenaVariations.Proofs.Template.Readable
import ArenaVariations.Proofs.Yaml.Value.Regular
import Mathlib.Data.List.DropRight

/-!
# Trees and the parts of values

A reader is given the reader of smaller parts. What it returns is made of trees that this reader
returned for values standing in the one that is read: `Template.MadeFrom` says for each sort of node
how, with the checks that the node has passed, and `Template.madeFrom_of_readNode` that this is all
a reader can return. Properties of trees that are read follow by its cases.
-/

namespace ArenaVariations

open Yaml

namespace Yaml.Value

/-- A value stands somewhere in another one, but not in one of its keys. -/
inductive Within (w : Value) : Value → Prop where
  | whole : Within w w
  | item {items : List Value} {v : Value} (mem : v ∈ items) (within : Within w v) :
      Within w (.sequence items)
  | entry {entries : List (Value × Value)} {e : Value × Value} (mem : e ∈ entries)
      (within : Within w e.2) : Within w (.mapping entries)
  | inner {tag : String} {v : Value} (within : Within w v) : Within w (.tagged tag v)

variable {u v w : Value}

theorem Within.trans (inner : u.Within v) (outer : v.Within w) : u.Within w := by
  induction outer with
  | whole => exact inner
  | item mem _ ih => exact .item mem ih
  | entry mem _ ih => exact .entry mem ih
  | inner _ ih => exact .inner ih

/-- What stands in a regular value is regular. -/
theorem Regular.within (h : v.Regular) (within : w.Within v) : w.Regular := by
  induction within with
  | whole => exact h
  | item mem _ ih =>
    cases h with
    | sequence each => exact ih (each _ mem)
  | entry mem _ ih =>
    cases h with
    | mapping _ _ values => exact ih (values _ mem)
  | inner _ ih =>
    cases h with
    | tagged _ inner => exact ih inner

end Yaml.Value

namespace Fields

/-- The entries of a tag's mapping are entries of the value that it is read from. -/
theorem mem_of_ofEntries {tag : String} {source : Value} {allowed : List String}
    {entries : List (Value × Value)} {read : List (String × Value)}
    (h : ofEntries tag source allowed entries = .ok read) :
    ∀ field ∈ read, ∃ entry ∈ entries, entry.2 = field.2 := by
  induction entries generalizing read with
  | nil =>
    cases h
    exact fun field mem => absurd mem List.not_mem_nil
  | cons entry rest ih =>
    obtain ⟨key, value⟩ := entry
    rw [ofEntries] at h
    split at h
    case h_2 => cases h
    case h_1 name _ =>
      split at h
      · cases h
      · obtain ⟨others, later, made⟩ := bind_eq_ok.mp h
        cases made
        refine List.forall_mem_cons.mpr ⟨⟨_, List.mem_cons_self, rfl⟩, fun field mem => ?_⟩
        obtain ⟨entry, among, same⟩ := ih later field mem
        exact ⟨entry, List.mem_cons_of_mem _ among, same⟩

/-- What stands under a name of a tag's mapping stands in the value. -/
theorem within_of_get? {tag : String} {allowed : List String} {v : Value} {fields : Fields}
    (h : ofValue tag allowed v = .ok fields) {name : String} {w : Value}
    (found : fields.get? name = some w) : w.Within v := by
  cases v with
  | mapping entries =>
    obtain ⟨read, entered, made⟩ := bind_eq_ok.mp h
    cases made
    obtain ⟨before, after, split, -⟩ := List.lookup_eq_some_iff.mp found
    have mem : (name, w) ∈ read := by simp_all
    obtain ⟨entry, among, rfl⟩ := mem_of_ofEntries entered _ mem
    exact .entry among .whole
  | null | bool | int | float | text | sequence | tagged => cases h

theorem required_eq_ok {fields : Fields} {name : String} {w : Value} :
    fields.required name = .ok w ↔ fields.get? name = some w := by
  rw [required]
  split <;> simp_all [pure_eq_ok]

end Fields

/-- A list of values of a function is a list that is mapped. -/
theorem exists_map_of_forall_mem {α β : Type} {f : α → β} {motive : α → Prop} {ys : List β}
    (each : ∀ y ∈ ys, ∃ x, y = f x ∧ motive x) :
    ∃ xs : List α, ys = xs.map f ∧ ∀ x ∈ xs, motive x := by
  induction ys with
  | nil => exact ⟨[], rfl, nofun⟩
  | cons y ys ih =>
    obtain ⟨⟨x, rfl, first⟩, rest⟩ := List.forall_mem_cons.mp each
    obtain ⟨xs, rfl, others⟩ := ih rest
    exact ⟨x :: xs, rfl, List.forall_mem_cons.mpr ⟨first, others⟩⟩

namespace Template

theorem ofChecked_eq_ok {α : Type} {x : Except Fault α} {a : α} :
    Reading.ofChecked x = .ok a ↔ x = .ok a :=
  mapError_eq_ok

theorem exists_of_readOption_eq_ok {α : Type} {read : Value → Reading α} {value? : Option Value}
    {a? : Option α} (h : readOption read value? = .ok a?) :
    ∀ a ∈ a?, ∃ v ∈ value?, read v = .ok a := by
  cases value? with
  | none =>
    cases h
    exact nofun
  | some v =>
    obtain ⟨a, made, h⟩ := bind_eq_ok.mp h
    cases h
    rintro _ ⟨⟩
    exact ⟨v, rfl, made⟩

/-- Read a field of a record. -/
def readField (read : Value → Reading Node) (kind : RecordKind) (name : String) (v : Value) :
    Reading Node :=
  if kind = .arenaConfig ∧ name = metaField then readMeta read v else read v

theorem readField_of_holdsSettings {read : Value → Reading Node} {kind : RecordKind}
    {name : String} (h : Node.HoldsSettings kind name) (v : Value) :
    readField read kind name v = readMeta read v :=
  if_pos h

theorem readField_of_not_holdsSettings {read : Value → Reading Node} {kind : RecordKind}
    {name : String} (h : ¬ Node.HoldsSettings kind name) (v : Value) :
    readField read kind name v = read v :=
  if_neg h

section

variable {read : Value → Reading Node} {kind : RecordKind} {source key v : Value}
  {id : Option String} {before : List (String × Node)} {rest : List (Value × Value)}
  {name : String} {n : Node}

/-- The id of a record is not among its fields. -/
theorem readFields_id_eq_ok (named : Scalar.nameOf? key = some name) (is_id : name = idField) :
    readFields read kind source id before ((key, v) :: rest) = .ok n ↔
      ∃ own, Scalar.nameOf? v = some own ∧
        readFields read kind source (some own) before rest = .ok n := by
  rw [readFields, named]
  simp only [is_id, ↓reduceIte]
  cases Scalar.nameOf? v with
  | none => simp [throw, throwThe, MonadExceptOf.throw]
  | some own => simp

/-- A field is one that the record may have. -/
theorem readFields_field_eq_ok (named : Scalar.nameOf? key = some name)
    (other : name ≠ idField) :
    readFields read kind source id before ((key, v) :: rest) = .ok n ↔
      name ∈ kind.fields ∧ ∃ node, readField read kind name v = .ok node ∧
        readFields read kind source id ((name, node) :: before) rest = .ok n := by
  have whole : readFields read kind source id before ((key, v) :: rest) =
      if name ∈ kind.fields then do
        let node ← readField read kind name v
        readFields read kind source id ((name, node) :: before) rest
      else throw ((Fault.unexpectedKey name kind.tag kind.fields).at source) := by
    rw [readFields, named]
    by_cases known : name ∈ kind.fields <;>
      by_cases holds : kind = .arenaConfig ∧ name = metaField <;>
      simp only [other, known, holds, readField, ↓reduceIte, List.contains_eq_mem, decide_true,
        decide_false, Bool.not_true, Bool.not_false, Bool.false_eq_true] <;>
      rfl
  rw [whole]
  by_cases known : name ∈ kind.fields
  · simp only [known, ↓reduceIte, true_and, bind_eq_ok]
  · simp only [known, ↓reduceIte, false_and, iff_false]
    exact nofun

end

/-- The name of a tag has no mark left to drop. -/
theorem tagName_tagName (tag : String) : tagName (tagName tag) = tagName tag := by
  simp only [tagName, String.toList_ofList, List.dropWhile_idempotent]

theorem readTagged_of_record {read : Value → Reading Node} {tag : String} {kind : RecordKind}
    (record : RecordKind.ofTag? tag = some kind) (v : Value) :
    readTagged read tag v = readRecord read kind v := by
  unfold readTagged
  rw [record]

/-- A tag without a meaning stands before a scalar. -/
theorem readTagged_of_foreign {read : Value → Reading Node} {tag : String}
    (foreign : Foreign tag) (v : Value) :
    readTagged read tag v = match Scalar.ofValue? v with
      | some value => return .tagged ⟨tag, value⟩
      | none => throw ((Fault.unknownTag tag).at v) := by
  obtain ⟨no_record, unreserved, -⟩ := foreign
  unfold readTagged
  rw [no_record]
  dsimp only
  split <;> first | rfl | simp [reservedTags] at unreserved

/-- A tree was read from a value that stands in another one. -/
def ReadIn (read : Value → Reading Node) (v : Value) (n : Node) : Prop :=
  ∃ w, w.Within v ∧ read w = .ok n

/-- An entry of a mapping was read as a field of a record. -/
structure IsField (read : Value → Reading Node) (kind : RecordKind) (e : Value × Value)
    (field : String × Node) : Prop where
  named : Scalar.nameOf? e.1 = some field.1
  known : field.1 ∈ kind.fields
  made : readField read kind field.1 e.2 = .ok field.2

/-- What a value is read as, with a reader for the values in it. -/
inductive MadeFrom (read : Value → Reading Node) (v : Value) : Node → Prop where
  | scalar {s : Scalar} (is : Scalar.ofValue? v = some s) : MadeFrom read v (.scalar s)
  | interval {range : Interval} (checked : Interval.ofBounds range.min range.max = .ok range) :
      MadeFrom read v (.interval range)
  | tagged {tag : String} {value : Scalar} (foreign : Foreign tag) {w : Value}
      (below : v.untagged = w.untagged) (is : Scalar.ofValue? w = some value) :
      MadeFrom read v (.tagged ⟨tag, value⟩)
  | sequence {ns : List Node} (each : ∀ n ∈ ns, ReadIn read v n) : MadeFrom read v (.sequence ns)
  | mapping {entries : List (Value × Value)} {made : List (Scalar × Node)}
      (inside : (Value.mapping entries).Within v)
      (each : List.Forall₂ (fun e entry => Scalar.ofValue? e.1 = some entry.1 ∧
        read e.2 = .ok entry.2) entries made) : MadeFrom read v (.mapping made)
  | record {kind : RecordKind} {id : Option String} {entries : List (Value × Value)}
      {fields : List (String × Node)} (inside : ∀ e ∈ entries, e.2.Within v)
      (distinct : v.Regular → entries.Pairwise fun e f => e.1.same f.1 = false)
      (each : List.Forall₂ (IsField read kind) entries fields) :
      MadeFrom read v (.record kind id fields)
  | choice {options : List Node} (each : ∀ n ∈ options, ReadIn read v n)
      (checked : Node.choiceOf options = .ok (.choice options)) : MadeFrom read v (.choice options)
  | labelledChoice {options : List (Node × String)}
      (each : ∀ option ∈ options, ReadIn read v option.1)
      (checked : Node.labelledChoiceOf options = .ok (.labelledChoice options)) :
      MadeFrom read v (.labelledChoice options)
  | palette {amount : UInt64} (checked : Node.paletteOf amount = .ok (.palette amount)) :
      MadeFrom read v (.palette amount)
  | scaled {base : Option Node} {scales : List Scalar} {labels : Option (List String)}
      (each : ∀ b ∈ base, ReadIn read v b)
      (checked :
        Node.scaledOf base (scales.map .scalar) labels = .ok (.scaled base scales labels)) :
      MadeFrom read v (.scaled base scales labels)
  | repetition (amount : UInt64) {value : Node} (each : ReadIn read v value) :
      MadeFrom read v (.repetition amount value)
  | restriction (amount : UInt64) {item : Node} (each : ReadIn read v item) :
      MadeFrom read v (.restriction amount item)
  | conditional {source : Conditional Node}
      (each : ∀ n ∈ source.condition.cases ++ source.outcomes, ReadIn read v n)
      (checked : source.Checked) (direct : source.condition.Direct)
      (given : ∀ n ∈ source.fallback, ∃ w, w.Within v ∧ w.untagged ≠ .null ∧ read w = .ok n) :
      MadeFrom read v (.conditional source)

section

variable {read : Value → Reading Node} {v w : Value} {n : Node} (inside : w.Within v)

include inside

theorem readIn_of_get? {tag name : String} {allowed : List String} {fields : Fields} {u : Value}
    (entered : Fields.ofValue tag allowed w = .ok fields) (found : fields.get? name = some u)
    (made : read u = .ok n) : ReadIn read v n :=
  ⟨u, (Fields.within_of_get? entered found).trans inside, made⟩

theorem readIn_of_readNodes {tag : String} {ns : List Node} (h : readNodes read tag w = .ok ns) :
    ∀ n ∈ ns, ReadIn read v n := by
  cases w with
  | sequence items =>
    intro n mem
    obtain ⟨item, among, made⟩ := exists_mem_of_mapM_eq_ok h n mem
    exact ⟨item, (Value.Within.item among .whole).trans inside, made⟩
  | null | bool | int | float | text | mapping | tagged => cases h

omit inside in
theorem readEntry_eq_ok {e : Value × Value} {entry : Scalar × Node} :
    readEntry read e = .ok entry ↔
      Scalar.ofValue? e.1 = some entry.1 ∧ read e.2 = .ok entry.2 := by
  obtain ⟨key, child⟩ := entry
  cases found : Scalar.ofValue? e.1 with
  | none => simp [readEntry, found, throw, throwThe, MonadExceptOf.throw]
  | some s =>
    have whole : readEntry read e = read e.2 >>= fun child => .ok (s, child) := by
      rw [readEntry, found]
      rfl
    rw [whole, bind_eq_ok]
    constructor
    · rintro ⟨child, made, same⟩
      cases same
      exact ⟨rfl, made⟩
    · rintro ⟨same, made⟩
      cases same
      exact ⟨child, made, rfl⟩

theorem madeFrom_of_readLabelledChoice (h : readLabelledChoice read w = .ok n) :
    MadeFrom read v n := by
  cases w with
  | sequence items =>
    obtain ⟨options, mapped, h⟩ := bind_eq_ok.mp h
    have checked := ofChecked_eq_ok.mp h
    obtain ⟨-, -, rfl⟩ := Node.labelledChoiceOf_eq_ok.mp checked
    refine .labelledChoice (fun option mem => ?_) checked
    obtain ⟨item, among, made⟩ := exists_mem_of_mapM_eq_ok mapped option mem
    obtain ⟨fields, entered, made⟩ := bind_eq_ok.mp made
    obtain ⟨w, found, made⟩ := bind_eq_ok.mp made
    obtain ⟨value, read_ok, made⟩ := bind_eq_ok.mp made
    obtain ⟨l, -, made⟩ := bind_eq_ok.mp made
    obtain ⟨label, -, made⟩ := bind_eq_ok.mp made
    cases made
    exact readIn_of_get? ((Value.Within.item among .whole).trans inside)
      (mapError_eq_ok.mp entered) (Fields.required_eq_ok.mp found) read_ok
  | null | bool | int | float | text | mapping | tagged => cases h

theorem madeFrom_of_readScaled (h : readScaled read w = .ok n) : MadeFrom read v n := by
  obtain ⟨fields, entered, h⟩ := bind_eq_ok.mp h
  obtain ⟨base, based, h⟩ := bind_eq_ok.mp h
  obtain ⟨listed, -, h⟩ := bind_eq_ok.mp h
  obtain ⟨scales, -, h⟩ := bind_eq_ok.mp h
  obtain ⟨labels, -, h⟩ := bind_eq_ok.mp h
  have checked := ofChecked_eq_ok.mp h
  obtain ⟨factors, rfl, -, -, -, -, rfl⟩ := Node.scaledOf_eq_ok.mp checked
  refine .scaled (fun b mem => ?_) checked
  obtain ⟨w, found, made⟩ := exists_of_readOption_eq_ok based b mem
  exact readIn_of_get? inside entered found made

theorem madeFrom_of_readRepetition (h : readRepetition read w = .ok n) : MadeFrom read v n := by
  obtain ⟨fields, entered, h⟩ := bind_eq_ok.mp h
  obtain ⟨_, -, h⟩ := bind_eq_ok.mp h
  obtain ⟨amount, -, h⟩ := bind_eq_ok.mp h
  obtain ⟨w, found, h⟩ := bind_eq_ok.mp h
  obtain ⟨value, made, h⟩ := bind_eq_ok.mp h
  cases h
  exact .repetition amount (readIn_of_get? inside entered (Fields.required_eq_ok.mp found) made)

theorem madeFrom_of_readRestriction (h : readRestriction read w = .ok n) : MadeFrom read v n := by
  obtain ⟨fields, entered, h⟩ := bind_eq_ok.mp h
  have rest : ∀ {name u}, fields.get? name = some u →
      (do
        let amount ← readAmount "ProcRestrictCombinations" (← fields.required "amount")
        return .restriction amount (← read u)) = Except.ok n → MadeFrom read v n := by
    intro name u found h
    obtain ⟨_, -, h⟩ := bind_eq_ok.mp h
    obtain ⟨amount, -, h⟩ := bind_eq_ok.mp h
    obtain ⟨item, made, h⟩ := bind_eq_ok.mp h
    cases h
    exact .restriction amount (readIn_of_get? inside entered found made)
  cases item : fields.get? "item" <;> cases value : fields.get? "value" <;>
    simp only [item, value] at h
  case some.some => cases h
  case some.none => exact rest item h
  case none.some => exact rest value h
  case none.none =>
    obtain ⟨w, found, -⟩ := bind_eq_ok.mp h
    rw [Fields.required_eq_ok, item] at found
    cases found

/-- A condition that is read has passed its checks. -/
theorem checked_of_readCondition {tag other : String} {allowed : List String} {fields : Fields}
    {c : Condition Node} (entered : Fields.ofValue other allowed w = .ok fields)
    (h : readCondition read tag fields = .ok c) :
    (∀ n ∈ c.cases, ReadIn read v n) ∧ c.Checked ∧ c.Direct := by
  obtain ⟨references, found, h⟩ := bind_eq_ok.mp h
  have rest : ∀ names multi, (multi = false → ∃ name, names = [name]) →
      (do
        let cases ← readNodes read tag (← fields.required "cases")
        Reading.ofChecked (Condition.ofParts names multi cases)) = Except.ok c →
      (∀ n ∈ c.cases, ReadIn read v n) ∧ c.Checked ∧ c.Direct := by
    intro names multi direct h
    obtain ⟨u, found, h⟩ := bind_eq_ok.mp h
    obtain ⟨cases, made, h⟩ := bind_eq_ok.mp h
    have checked := ofChecked_eq_ok.mp h
    obtain ⟨-, -, rfl⟩ := Condition.ofParts_eq_ok.mp checked
    have within := Fields.within_of_get? entered (Fields.required_eq_ok.mp found)
    exact ⟨readIn_of_readNodes (within.trans inside) made, checked, direct⟩
  cases references with
  | sequence items =>
    obtain ⟨names, -, h⟩ := bind_eq_ok.mp h
    exact rest names true nofun h
  | null | bool | int | float | text | mapping | tagged =>
    obtain ⟨name, -, h⟩ := bind_eq_ok.mp h
    exact rest [name] false (fun _ => ⟨name, rfl⟩) h

theorem madeFrom_of_readConditional (h : readConditional read w = .ok n) : MadeFrom read v n := by
  obtain ⟨fields, entered, h⟩ := bind_eq_ok.mp h
  obtain ⟨condition, conditioned, h⟩ := bind_eq_ok.mp h
  obtain ⟨u, found, h⟩ := bind_eq_ok.mp h
  obtain ⟨outcomes, listed, h⟩ := bind_eq_ok.mp h
  obtain ⟨fallback, given, h⟩ := bind_eq_ok.mp h
  obtain ⟨labels, -, h⟩ := bind_eq_ok.mp h
  obtain ⟨label, -, h⟩ := bind_eq_ok.mp h
  obtain ⟨source, made, rfl⟩ := map_eq_ok.mp h
  have checked := ofChecked_eq_ok.mp made
  obtain ⟨-, -, -, rfl⟩ := Conditional.ofParts_eq_ok.mp checked
  obtain ⟨cases, condition_checked, direct⟩ := checked_of_readCondition inside entered conditioned
  have within := (Fields.within_of_get? entered (Fields.required_eq_ok.mp found)).trans inside
  refine .conditional (List.forall_mem_append.mpr ⟨cases, readIn_of_readNodes within listed⟩)
    ⟨condition_checked, checked⟩ direct fun n mem => ?_
  obtain ⟨d, kept, made⟩ := exists_of_readOption_eq_ok given n mem
  obtain ⟨found, some_value⟩ := Option.filter_eq_some_iff.mp kept
  refine ⟨d, (Fields.within_of_get? entered found).trans inside, fun null => ?_, made⟩
  simp [null] at some_value

/-- A label rule that is read has passed its checks. -/
theorem checked_of_readLabelRule (h : readLabelRule read w = .ok n) :
    ∃ rule, n = .labelRule rule ∧ (∀ n ∈ rule.condition.cases, ReadIn read v n) ∧
      rule.Checked ∧ rule.condition.Direct := by
  obtain ⟨fields, entered, h⟩ := bind_eq_ok.mp h
  obtain ⟨condition, conditioned, h⟩ := bind_eq_ok.mp h
  obtain ⟨u, -, h⟩ := bind_eq_ok.mp h
  obtain ⟨labels, -, h⟩ := bind_eq_ok.mp h
  obtain ⟨fallback, -, h⟩ := bind_eq_ok.mp h
  obtain ⟨rule, made, rfl⟩ := map_eq_ok.mp h
  have checked := ofChecked_eq_ok.mp made
  obtain ⟨-, rfl⟩ := LabelRule.ofParts_eq_ok.mp checked
  obtain ⟨cases, condition_checked, direct⟩ := checked_of_readCondition inside entered conditioned
  exact ⟨_, rfl, cases, ⟨condition_checked, checked⟩, direct⟩

/-- The settings that are read hold label rules and nothing else. -/
theorem settings_of_readMeta (h : readMeta read w = .ok n) :
    ∃ rules : List (LabelRule Node), n = Node.settings rules ∧
      ∀ rule ∈ rules, (∀ n ∈ rule.condition.cases, ReadIn read v n) ∧
        rule.Checked ∧ rule.condition.Direct := by
  obtain ⟨fields, entered, h⟩ := bind_eq_ok.mp h
  cases found : fields.get? labelRulesKey with
  | none =>
    rw [found] at h
    cases h
    exact ⟨[], rfl, nofun⟩
  | some u =>
    rw [found] at h
    cases u with
    | sequence items =>
      obtain ⟨ns, mapped, h⟩ := bind_eq_ok.mp h
      cases h
      have within := (Fields.within_of_get? entered found).trans inside
      have each : ∀ n ∈ ns, ∃ rule, n = .labelRule rule ∧
          (∀ n ∈ rule.condition.cases, ReadIn read v n) ∧ rule.Checked ∧ rule.condition.Direct := by
        intro n mem
        obtain ⟨item, among, made⟩ := exists_mem_of_mapM_eq_ok mapped n mem
        have item_within := (Value.Within.item among .whole).trans within
        cases item with
        | tagged tag below =>
          rw [readRuleItem] at made
          split at made
          · exact checked_of_readLabelRule ((Value.Within.inner .whole).trans item_within) made
          · cases made
        | null | bool | int | float | text | sequence | mapping => cases made
      obtain ⟨rules, rfl, all⟩ := exists_map_of_forall_mem each
      exact ⟨rules, rfl, all⟩
    | null | bool | int | float | text | mapping | tagged => cases h

omit inside in
/-- The fields of a record are read from some entries of its mapping, and come after those in
`before`. -/
theorem fields_of_readFields {kind : RecordKind} {source : Value} {id : Option String}
    {before : List (String × Node)} {entries : List (Value × Value)}
    (h : readFields read kind source id before entries = .ok n) :
    ∃ own fields, n = .record kind own (before.reverse ++ fields) ∧
      ∃ some_entries, some_entries.Sublist entries ∧
        List.Forall₂ (IsField read kind) some_entries fields := by
  induction entries generalizing id before with
  | nil =>
    cases h
    exact ⟨id, [], by rw [List.append_nil], [], .slnil, .nil⟩
  | cons entry rest ih =>
    obtain ⟨key, field⟩ := entry
    cases named : Scalar.nameOf? key with
    | none =>
      rw [readFields, named] at h
      cases h
    | some name =>
      by_cases is_id : name = idField
      · obtain ⟨id, -, h⟩ := (readFields_id_eq_ok named is_id).mp h
        obtain ⟨own, fields, made, some_entries, sub, each⟩ := ih h
        exact ⟨own, fields, made, some_entries, .cons _ sub, each⟩
      · obtain ⟨known, node, made, h⟩ := (readFields_field_eq_ok named is_id).mp h
        obtain ⟨own, fields, whole, some_entries, sub, each⟩ := ih h
        refine ⟨own, (name, node) :: fields, ?_, (key, field) :: some_entries, .cons_cons _ sub,
          .cons ⟨named, known, made⟩ each⟩
        rw [whole, List.reverse_cons, List.append_assoc, List.singleton_append]

theorem madeFrom_of_readRecord {kind : RecordKind} (h : readRecord read kind w = .ok n) :
    MadeFrom read v n := by
  cases w with
  | mapping entries =>
    obtain ⟨own, fields, rfl, some_entries, sub, each⟩ := fields_of_readFields h
    refine .record (fun e mem => (Value.Within.entry (sub.subset mem) .whole).trans inside)
      (fun regular => ?_) each
    cases regular.within inside with
    | mapping distinct => exact distinct.sublist sub
  | null =>
    cases h
    exact .record (List.forall_mem_nil _) (fun _ => .nil) .nil
  | bool | int | float | text | sequence | tagged => cases h

omit inside in
theorem madeFrom_of_readRange (h : readRange w = .ok n) : MadeFrom read v n := by
  cases w with
  | sequence items =>
    rw [readRange] at h
    split at h
    · obtain ⟨range, made, rfl⟩ := map_eq_ok.mp h
      have checked := ofChecked_eq_ok.mp made
      obtain ⟨-, -, -, -, -, rfl⟩ := Interval.ofBounds_eq_ok.mp checked
      exact .interval checked
    · cases h
    · cases h
  | null | bool | int | float | text | mapping | tagged => cases h

theorem madeFrom_of_readReserved {tag : String} (reserved : tag ∈ reservedTags)
    (h : readTagged read tag w = .ok n) : MadeFrom read v n := by
  simp only [reservedTags, List.mem_cons, List.not_mem_nil, or_false] at reserved
  obtain rfl | rfl | rfl | rfl | rfl | rfl | rfl | rfl | rfl := reserved
  · exact madeFrom_of_readRange h
  · obtain ⟨options, listed, h⟩ := bind_eq_ok.mp h
    have checked := ofChecked_eq_ok.mp h
    obtain ⟨-, -, rfl⟩ := Node.choiceOf_eq_ok.mp checked
    exact .choice (readIn_of_readNodes inside listed) checked
  · exact madeFrom_of_readLabelledChoice inside h
  · obtain ⟨amount, -, h⟩ := bind_eq_ok.mp h
    have checked := ofChecked_eq_ok.mp h
    obtain ⟨-, -, rfl⟩ := Node.paletteOf_eq_ok.mp checked
    exact .palette checked
  · exact madeFrom_of_readScaled inside h
  · exact madeFrom_of_readRepetition inside h
  · exact madeFrom_of_readRestriction inside h
  · exact madeFrom_of_readConditional inside h
  · cases h

end

/-- A reader returns what is made of parts. -/
theorem madeFrom_of_readNode {read : Value → Reading Node} {v : Value} {n : Node}
    (h : readNode read v = .ok n) : MadeFrom read v n := by
  cases v with
  | sequence items =>
    obtain ⟨ns, mapped, h⟩ := bind_eq_ok.mp h
    cases h
    refine .sequence fun n mem => ?_
    obtain ⟨item, among, made⟩ := exists_mem_of_mapM_eq_ok mapped n mem
    exact ⟨item, .item among .whole, made⟩
  | mapping entries =>
    obtain ⟨made, mapped, h⟩ := bind_eq_ok.mp h
    cases h
    exact .mapping .whole ((mapM_eq_ok.mp mapped).imp fun _ _ => readEntry_eq_ok.mp)
  | tagged tag inner =>
    have inside : inner.Within (.tagged tag inner) := .inner .whole
    rw [readNode] at h
    cases record : RecordKind.ofTag? (tagName tag) with
    | some kind =>
      rw [readTagged_of_record record] at h
      exact madeFrom_of_readRecord inside h
    | none =>
      by_cases reserved : tagName tag ∈ reservedTags
      · exact madeFrom_of_readReserved inside reserved h
      · have foreign : Foreign (tagName tag) := ⟨record, reserved, tagName_tagName tag⟩
        rw [readTagged_of_foreign foreign] at h
        split at h
        case h_1 value scalar =>
          cases h
          exact .tagged foreign (w := inner) rfl scalar
        case h_2 => cases h
  | null | bool | int | float | text =>
    cases h
    exact .scalar rfl

end Template

end ArenaVariations
