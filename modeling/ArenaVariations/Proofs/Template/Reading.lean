import ArenaVariations.Proofs.Decimal.Text
import ArenaVariations.Proofs.Template.Parts
import ArenaVariations.Proofs.Yaml.Value.Alike

/-!
# What reading returns

Reading returns readable trees, `Node.readable_of_parse`: a tree that is made of readable ones is
readable, and the recursion on the depth closes the circle. That a record has each of its fields
once is because its keys are pairwise different values, and because a key that is no text is
displayed like no field.
-/

namespace ArenaVariations

open Yaml

/-- Every field name starts with a letter. -/
theorem RecordKind.head_field {kind : RecordKind} {name : String} (h : name ∈ kind.fields) :
    ∃ c, name.toList.head? = some c ∧ c.isAlpha = true := by
  have all : ∀ kind : RecordKind, ∀ name ∈ kind.fields,
      (name.toList.head?.any Char.isAlpha) = true := by
    intro kind
    cases kind <;> decide
  simpa [Option.any_eq_true] using all kind name h

theorem not_mem_fields_of_startsNoWord {text : String} (h : StartsNoWord text)
    (kind : RecordKind) : text ∉ kind.fields := by
  intro mem
  obtain ⟨c, head, letter⟩ := RecordKind.head_field mem
  simpa [letter] using h c head

/-- A key that names a field is a text. -/
theorem Scalar.eq_text_of_nameOf? {key : Value} {name : String} {kind : RecordKind}
    (h : nameOf? key = some name) (field : name ∈ kind.fields) : key = .text name := by
  cases key with
  | text s =>
    cases h
    rfl
  | bool b =>
    cases h
    have other : toString b ∉ kind.fields := by cases b <;> cases kind <;> decide
    exact absurd field other
  | int i =>
    exfalso
    by_cases small : i < Int.pow 2 63
    · obtain rfl : (Scalar.int (Int64.ofInt i)).display = name := by
        simpa only [nameOf?, ofValue?, small, if_true, if_false, Option.some.injEq] using h
      exact not_mem_fields_of_startsNoWord (startsNoWord_int _) kind field
    · obtain rfl : (Scalar.float (Float.ofInt i)).display = name := by
        simpa only [nameOf?, ofValue?, small, if_true, if_false, Option.some.injEq] using h
      exact not_mem_fields_of_startsNoWord (FloatStyle.startsNoWord_write _ _) kind field
  | float x =>
    cases h
    exact absurd field (not_mem_fields_of_startsNoWord (FloatStyle.startsNoWord_write _ _) kind)
  | null | sequence | mapping | tagged => cases h

/-- Only null is read as null. -/
theorem Scalar.untagged_of_ofValue?_eq_null {v : Value} (h : ofValue? v = some .null) :
    v.untagged = .null := by
  cases v with
  | null => rfl
  | int i =>
    rw [ofValue?] at h
    split at h <;> cases h
  | bool | float | text | sequence | mapping | tagged => cases h

namespace Template

/-- A reader that returns readable trees, and null only for null. -/
def Sound (read : Value → Reading Node) : Prop :=
  ∀ v n, v.Regular → read v = .ok n →
    n.Readable ∧ (n.isNull = true → v.untagged = .null)

section

variable {read : Value → Reading Node} (sound : Sound read) {v : Value} (regular : v.Regular)

include sound regular

theorem readable_of_readIn {n : Node} (h : ReadIn read v n) : n.Readable := by
  obtain ⟨w, inside, made⟩ := h
  exact (sound w n (regular.within inside) made).1

/-- A field is readable, or holds the label rules of the document. -/
theorem readable_of_isField {kind : RecordKind} {e : Value × Value} {field : String × Node}
    (inside : e.2.Within v) (h : IsField read kind e field) :
    (¬ Node.HoldsSettings kind field.1 → field.2.Readable) ∧
      (Node.HoldsSettings kind field.1 → ∃ rules : List (LabelRule Node),
        field.2 = Node.settings rules ∧ ∀ rule ∈ rules,
          (∀ n ∈ rule.condition.cases, n.Readable) ∧ rule.Checked ∧ rule.condition.Direct) := by
  have made := h.made
  constructor
  · intro holds
    rw [readField_of_not_holdsSettings holds] at made
    exact readable_of_readIn sound regular ⟨e.2, inside, made⟩
  · intro holds
    rw [readField_of_holdsSettings holds] at made
    obtain ⟨rules, same, all⟩ := settings_of_readMeta inside made
    exact ⟨rules, same, fun rule mem =>
      ⟨fun n case => readable_of_readIn sound regular ((all rule mem).1 n case), (all rule mem).2⟩⟩

omit sound regular in
/-- The names of a record's fields are different, as the keys of its mapping are. -/
theorem nodup_of_isField {kind : RecordKind} {entries : List (Value × Value)}
    {fields : List (String × Node)}
    (distinct : entries.Pairwise fun e f => e.1.same f.1 = false)
    (each : List.Forall₂ (IsField read kind) entries fields) : (fields.map Prod.fst).Nodup := by
  rw [List.Nodup, List.pairwise_map]
  refine pairwise_of_forall₂ each distinct fun e field f other first second ne => ?_
  rw [Scalar.eq_text_of_nameOf? first.named first.known,
    Scalar.eq_text_of_nameOf? second.named second.known] at ne
  simpa [Value.same] using ne

theorem readable_of_fields {kind : RecordKind} {entries : List (Value × Value)}
    {fields : List (String × Node)} (inside : ∀ e ∈ entries, e.2.Within v)
    (distinct : entries.Pairwise fun e f => e.1.same f.1 = false)
    (each : List.Forall₂ (IsField read kind) entries fields) (id : Option String) :
    (Node.record kind id fields).Readable := by
  have single := nodup_of_isField distinct each
  have source : ∀ field ∈ fields, ∃ e, e.2.Within v ∧ IsField read kind e field := by
    intro field mem
    obtain ⟨e, among, is_field⟩ := exists_mem_of_forall₂ each field mem
    exact ⟨e, inside e among, is_field⟩
  -- at most one field holds settings, as the names are different
  obtain ⟨rules, settings, all⟩ : ∃ rules : List (LabelRule Node),
      (∀ field ∈ fields, Node.HoldsSettings kind field.1 → field.2 = Node.settings rules) ∧
        ∀ rule ∈ rules, (∀ n ∈ rule.condition.cases, n.Readable) ∧
          rule.Checked ∧ rule.condition.Direct := by
    by_cases some_field : ∃ field ∈ fields, Node.HoldsSettings kind field.1
    · obtain ⟨field, mem, holds⟩ := some_field
      obtain ⟨e, within, is_field⟩ := source field mem
      obtain ⟨rules, same, all⟩ := (readable_of_isField sound regular within is_field).2 holds
      refine ⟨rules, fun other among also => ?_, all⟩
      have one : other = field :=
        List.inj_on_of_nodup_map single among mem (also.2.trans holds.2.symm)
      rw [one, same]
    · exact ⟨[], fun field mem holds => absurd ⟨field, mem, holds⟩ some_field, nofun⟩
  have zipped : (fields.map Prod.fst).zip (fields.map Prod.snd) = fields := by
    rw [List.zip_map', List.map_id']
  refine .record (by simp) ?_ single ?_ ?_ (fun rule mem => (all rule mem).1)
    fun rule mem => (all rule mem).2
  · refine List.forall_mem_map.mpr fun field mem => ?_
    obtain ⟨e, -, is_field⟩ := source field mem
    exact is_field.known
  · rw [zipped]
    intro field mem
    obtain ⟨e, within, is_field⟩ := source field mem
    exact (readable_of_isField sound regular within is_field).1
  · rwa [zipped]

/-- What is made of readable trees is readable. -/
theorem readable_of_madeFrom {n : Node} (h : MadeFrom read v n) : n.Readable := by
  have part {n : Node} (h : ReadIn read v n) : n.Readable := readable_of_readIn sound regular h
  cases h with
  | scalar => exact .scalar _
  | interval checked => exact .interval checked
  | tagged foreign => exact .tagged foreign _
  | sequence each => exact .sequence fun n mem => part (each n mem)
  | mapping inside each =>
    refine .mapping (by simp) (List.forall_mem_map.mpr fun entry mem => ?_)
    obtain ⟨e, among, -, made⟩ := exists_mem_of_forall₂ each entry mem
    exact part ⟨e.2, (Value.Within.entry among .whole).trans inside, made⟩
  | record inside distinct each =>
    exact readable_of_fields sound regular inside (distinct regular) each _
  | choice each checked => exact .choice (fun n mem => part (each n mem)) checked
  | labelledChoice each checked =>
    exact .labelledChoice (fun option mem => part (each option mem)) checked
  | palette checked => exact .palette checked
  | scaled each checked => exact .scaled (fun b mem => part (each b mem)) checked
  | repetition amount each => exact .repetition amount (part each)
  | restriction amount each => exact .restriction amount (part each)
  | conditional each checked direct given =>
    refine .conditional (List.forall_mem_append.mpr ⟨fun n mem => part (each n mem), ?_⟩) checked
      direct fun n mem => ?_
    · intro n mem
      obtain ⟨w, inside, -, made⟩ := given n (Option.mem_toList.mp mem)
      exact part ⟨w, inside, made⟩
    · obtain ⟨w, inside, some_value, made⟩ := given n mem
      by_contra null
      exact some_value ((sound w n (regular.within inside) made).2 (by simpa using null))

omit sound regular in
/-- Only null is read as null. -/
theorem untagged_of_madeFrom {n : Node} (h : MadeFrom read v n) (null : n.isNull = true) :
    v.untagged = .null := by
  cases h with
  | @scalar s is =>
    cases s with
    | null => exact Scalar.untagged_of_ofValue?_eq_null is
    | bool | int | float | text => cases null
  | @tagged tag value _ w below is =>
    cases value with
    | null => exact below.trans (Scalar.untagged_of_ofValue?_eq_null is)
    | bool | int | float | text => cases null
  | _ => cases null

omit regular in
theorem sound_readNode : Sound (readNode read) := fun _ _ regular h =>
  have made := madeFrom_of_readNode h
  ⟨readable_of_madeFrom sound regular made, untagged_of_madeFrom made⟩

end

theorem sound_readToDepth (depth : Nat) : Sound (readToDepth depth) := by
  induction depth with
  | zero => exact fun v n _ h => nomatch h
  | succ depth ih => exact sound_readNode ih

end Template

/-- What a document is read as is readable. -/
theorem Node.readable_of_parse {text source : String} {n : Node}
    (h : Node.parse text source = .ok n) : n.Readable := by
  rw [parse] at h
  split at h
  case h_1 v found =>
    obtain ⟨read, made, h⟩ := bind_eq_ok.mp h
    cases h
    exact (Template.sound_readToDepth _ v read (Value.regular_of_ofChars? found) made).1.number 0
  case h_2 => cases h

theorem Yaml.Value.ofChars?_of_alike {cs : List Char} {v : Value}
    (found : (ofChars? cs).any v.alike = true) : ofChars? cs = some v := by
  obtain ⟨w, read, same⟩ := (Option.any_eq_true _ _).mp found
  rw [read, eq_of_alike _ _ same]

theorem Node.parse_of_ofChars? {text source : String} {v : Value}
    (found : Value.ofChars? text.toList = some v) : Node.parse text source = ofValue? v := by
  rw [parse, found]

theorem Node.parse_of_alike {text source : String} {v : Value}
    (found : (Value.ofChars? text.toList).any v.alike = true) :
    Node.parse text source = ofValue? v :=
  parse_of_ofChars? (Value.ofChars?_of_alike found)

/-- A list that holds a choice. -/
theorem Node.parse_choice : Node.parse "- !ProcList [1, 2]\n" "choice" =
    .ok (.sequence [.choice [int 1, int 2]]) := by
  have read : (Value.ofChars? "- !ProcList [1, 2]\n".toList).any
      (Value.sequence [.tagged "ProcList" (.sequence [.int 1, .int 2])]).alike = true := by
    decide +kernel
  rw [parse_of_alike read]
  rfl

namespace Template

/-- A wall of two sizes, in an arena configuration with a label rule between its other fields. -/
def labelledWall : String :=
  "!ArenaConfig \x7barenas: [!Item \x7bid: wall, name: !ProcList [big, long]\x7d], " ++
    "proc_meta: \x7bproc_labels: [!ProcIfLabels \x7bvariable: wall.name, cases: [big], " ++
    "labels: [near], default: far\x7d]\x7d, canResetEpisode: true\x7d"

/-- The label rule of the wall. -/
def wallRule : LabelRule Node :=
  ⟨⟨["wall.name"], false, [Node.text "big"]⟩, ["near"], some "far"⟩

/-- The wall itself. -/
def wallOfTwo : Node :=
  .sequence [.record .item (some "wall") [("name", .choice [Node.text "big", Node.text "long"])]]

theorem parse_labelledWall : Node.parse labelledWall "wall" =
    .ok (.record .arenaConfig none [("arenas", wallOfTwo), (metaField, Node.settings [wallRule]),
      ("canResetEpisode", .scalar (.bool true))]) := by
  have read : (Yaml.Value.ofChars? labelledWall.toList).any
      (Yaml.Value.tagged "ArenaConfig" (.mapping [
        (.text "arenas", .sequence [.tagged "Item" (.mapping [(.text "id", .text "wall"),
          (.text "name", .tagged "ProcList" (.sequence [.text "big", .text "long"]))])]),
        (.text "proc_meta", .mapping [(.text "proc_labels", .sequence [
          .tagged "ProcIfLabels" (.mapping [(.text "variable", .text "wall.name"),
            (.text "cases", .sequence [.text "big"]), (.text "labels", .sequence [.text "near"]),
            (.text "default", .text "far")])])]),
        (.text "canResetEpisode", .bool true)])).alike = true := by
    decide +kernel
  rw [Node.parse_of_alike read]
  rfl

end Template

end ArenaVariations
