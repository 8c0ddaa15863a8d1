import ArenaVariations.Proofs.Layout.Document
import ArenaVariations.Proofs.Template.PlainView
import ArenaVariations.Proofs.Yaml.Text

/-!
# Trees that are written and read

A tree that was read is written so that it can be read again, on one line and as a document, as
long as its texts are words and its numbers are numbers. What is read is the tree without its ids
and with its records in order, so that writing it once more changes nothing.
-/

namespace ArenaVariations

open Yaml

namespace Yaml.Value

theorem height_pos (v : Value) : 0 < v.height := by
  cases v <;> simp [height]

theorem height_lt_of_mem {items : List Value} {v : Value} (mem : v ∈ items) :
    v.height < (sequence items).height := by
  rw [height]
  induction items with
  | nil => cases mem
  | cons w items ih =>
    rw [heightOfItems]
    obtain rfl | mem := List.mem_cons.mp mem
    · omega
    · have := ih mem
      omega

theorem height_lt_of_entry {entries : List (Value × Value)} {e : Value × Value}
    (mem : e ∈ entries) : e.2.height < (mapping entries).height := by
  rw [height]
  induction entries with
  | nil => cases mem
  | cons f entries ih =>
    rw [heightOfEntries]
    obtain rfl | mem := List.mem_cons.mp mem
    · rw [heightOfEntry]
      omega
    · have := ih mem
      omega

theorem height_lt_of_field {fields : List (String × Value)} {name : String} {v : Value}
    (mem : (name, v) ∈ fields) : v.height < (record fields).height :=
  height_lt_of_entry (List.mem_map_of_mem (f := fun field => (text field.1, field.2)) mem)

theorem height_lt_of_lookup {fields : List (String × Value)} {name : String} {v : Value}
    (found : fields.lookup name = some v) : v.height < (record fields).height := by
  obtain ⟨before, after, rfl, -⟩ := List.lookup_eq_some_iff.mp found
  exact height_lt_of_field (List.mem_append_right before List.mem_cons_self)

end Yaml.Value

namespace Template

section

variable {read : Value → Reading Node}

theorem readNode_scalar (s : Scalar) : readNode read s.toValue = .ok (.scalar s) := by
  cases s with
  | int i =>
    have found := Scalar.ofValue?_toValue (.int i)
    rw [Scalar.toValue] at found ⊢
    rw [readNode]
    · rw [found]
      rfl
    all_goals simp
  | null | bool | float | text => rfl

theorem readNode_tagged {tag : String} (name : Value.IsTagName tag) (v : Value) :
    readNode read (.tagged tag v) = readTagged read tag v := by
  rw [readNode, tagName_of_isTagName name]

theorem readNode_reserved {tag : String} (reserved : tag ∈ reservedTags) (v : Value) :
    readNode read (.tagged tag v) = readTagged read tag v :=
  readNode_tagged (Node.isTagName_of_mem reserved) v

theorem readNode_mapping {keys : List Scalar} {children : List Node}
    (length : keys.length = children.length) (each : ∀ n ∈ children, Reads read n) :
    readNode read (Node.container (.mapping keys) children).toValue =
      .ok (Node.container (.mapping keys) children).tidy := by
  rw [Node.toValue]
  refine bind_eq_ok.mpr ⟨_, mapM_readEntry each, ?_⟩
  have names : ((keys.zip children).map fun entry => (entry.1, entry.2.tidy)).map Prod.fst =
      keys := by
    rw [List.map_map]
    exact List.map_fst_zip length.le
  have values : ((keys.zip children).map fun entry => (entry.1, entry.2.tidy)).map Prod.snd =
      Node.tidyAll children := by
    rw [List.map_map, Node.tidyAll_eq]
    show (keys.zip children).map (Node.tidy ∘ Prod.snd) = _
    rw [← List.map_map, List.map_snd_zip length.ge]
  exact congrArg Except.ok (by rw [Node.mapping, names, values, Node.tidy])

/-- The options of a choice may be tidied. -/
theorem choiceOf_tidyAll {options : List Node}
    (checked : Node.choiceOf options = .ok (.choice options)) :
    Node.choiceOf (Node.tidyAll options) = .ok (Node.choice options).tidy := by
  obtain ⟨filled, static, -⟩ := Node.choiceOf_eq_ok.mp checked
  rw [Node.tidy, Node.tidyAll_eq]
  refine Node.choiceOf_eq_ok.mpr ⟨?_, ?_, rfl⟩
  · simpa using filled
  · exact List.forall_mem_map.mpr fun n mem => Node.isStatic_tidy (static n mem)

end

end Template

namespace Node

open Template

variable {read : Value → Reading Node}

theorem toValue_mem_toValues {n : Node} {ns : List Node} (mem : n ∈ ns) :
    n.toValue ∈ toValues ns := by
  rw [toValues_eq]
  exact List.mem_map_of_mem mem

theorem optionToValue_of_mem {n : Node} {n? : Option Node} (mem : n ∈ n?) :
    optionToValue n? = some n.toValue := by
  rw [Option.mem_def.mp mem, optionToValue]

theorem height_lt_mapping {keys : List Scalar} {children : List Node}
    (length : keys.length = children.length) {n : Node} (mem : n ∈ children) :
    n.toValue.height < (container (.mapping keys) children).toValue.height := by
  have each : ∀ n ∈ children,
      n.toValue.height < (container (.mapping keys) children).toValue.height := by
    refine forall_mem_zip_snd length fun entry mem => ?_
    have among : (entry.1.toValue, entry.2.toValue) ∈
        (keys.map Scalar.toValue).zip (toValues children) := by
      rw [toValues_eq, List.zip_map]
      exact List.mem_map_of_mem mem
    exact Value.height_lt_of_entry among
  exact each n mem

theorem height_lt_record {kind : RecordKind} {id : Option String} {names : List String}
    {children : List Node} {field : String × Node}
    (mem : field ∈ pickOrdered kind.fields names children) :
    field.2.toValue.height < (container (.record kind id names) children).toValue.height := by
  have picked : (field.1, field.2.toValue) ∈
      pickOrdered kind.fields names (toValues children) := by
    rw [toValues_eq, pickOrdered_map]
    exact List.mem_map_of_mem (f := fun field : String × Node => (field.1, field.2.toValue)) mem
  exact Nat.lt_succ_of_lt (Value.height_lt_of_field picked)

theorem height_lt_labelledChoice {options : List (Node × String)} {option : Node × String}
    (mem : option ∈ options) :
    option.1.toValue.height < (labelledChoice options).toValue.height := by
  have item : Value.record [("value", option.1.toValue), ("label", .text option.2)] ∈
      optionValues options := by
    rw [optionValues_eq]
    exact List.mem_map_of_mem (f := fun o : Node × String =>
      Value.record [("value", o.1.toValue), ("label", .text o.2)]) mem
  have value : option.1.toValue.height <
      (Value.record [("value", option.1.toValue), ("label", .text option.2)]).height :=
    Value.height_lt_of_field List.mem_cons_self
  exact Nat.lt_succ_of_lt (value.trans (Value.height_lt_of_mem item))

theorem height_lt_scaled {base : Option Node} {scales : List Scalar}
    {labels : Option (List String)} {n : Node} (mem : n ∈ (scaled base scales labels).children) :
    n.toValue.height < (scaled base scales labels).toValue.height := by
  obtain ⟨base_given, scales_given, -⟩ :=
    Template.lookup_scaledFields (optionToValue base) scales labels
  refine Nat.lt_succ_of_lt ?_
  obtain given | scale := List.mem_append.mp mem
  · exact Value.height_lt_of_lookup
      (base_given.trans (optionToValue_of_mem (Option.mem_toList.mp given)))
  · obtain ⟨s, among, rfl⟩ := List.mem_map.mp scale
    exact (Value.height_lt_of_mem (List.mem_map_of_mem among)).trans
      (Value.height_lt_of_lookup scales_given)

theorem height_lt_settings {rules : List (LabelRule Node)} {rule : LabelRule Node}
    (among : rule ∈ rules) {n : Node} (mem : n ∈ rule.condition.cases) :
    n.toValue.height < (settings rules).toValue.height := by
  have item : Value.tagged "ProcIfLabels" (.record (ruleFields rule)) ∈
      rules.map fun rule => Value.tagged "ProcIfLabels" (.record (ruleFields rule)) :=
    List.mem_map_of_mem among
  rw [toValue_settings]
  calc n.toValue.height
      < (Value.sequence (toValues rule.condition.cases)).height :=
        Value.height_lt_of_mem (toValue_mem_toValues mem)
    _ < (Value.record (ruleFields rule)).height :=
        Value.height_lt_of_lookup (Template.lookup_ruleFields rule).2.1
    _ < (Value.tagged "ProcIfLabels" (.record (ruleFields rule))).height := Nat.lt_succ_self _
    _ < (Value.sequence _).height := Value.height_lt_of_mem item
    _ < _ := Value.height_lt_of_field (List.mem_singleton_self _)

theorem height_lt_conditional {source : Conditional Node} {n : Node}
    (mem : n ∈ (Node.conditional source).children) :
    n.toValue.height < (Node.conditional source).toValue.height := by
  obtain ⟨-, cases, outcomes, fallback, -⟩ := Template.lookup_conditionalFields source
  refine Nat.lt_succ_of_lt ?_
  simp only [children, List.mem_append] at mem
  obtain (case | outcome) | given := mem
  · exact (Value.height_lt_of_mem (toValue_mem_toValues case)).trans
      (Value.height_lt_of_lookup cases)
  · exact (Value.height_lt_of_mem (toValue_mem_toValues outcome)).trans
      (Value.height_lt_of_lookup outcomes)
  · exact Value.height_lt_of_lookup
      (fallback.trans (optionToValue_of_mem (Option.mem_toList.mp given)))

/-- Whether the amount that a tree holds itself is written as it is: amounts are written as signed
integers. -/
def AmountFits : Node → Prop
  | repetition amount _ | restriction amount _ => amount.toNat < 2 ^ 63
  | _ => True

/-- Every amount in a tree is written as it is. -/
def AmountsFit (n : Node) : Prop :=
  ∀ m : Node, m.PartOf n → m.AmountFits

theorem AmountsFit.root {n : Node} (h : n.AmountsFit) : n.AmountFits :=
  h n (.whole n)

theorem AmountsFit.child {n child : Node} (h : n.AmountsFit) (mem : child ∈ n.children) :
    child.AmountsFit :=
  fun m part => h m (.inside mem part)

theorem AmountsFit.labelRule {rules : List (LabelRule Node)} (h : (settings rules).AmountsFit)
    {rule : LabelRule Node} (mem : rule ∈ rules) : (Node.labelRule rule).AmountsFit :=
  (h.child List.mem_cons_self).child (List.mem_map_of_mem mem)

theorem Legible.amountsFit {n : Node} (h : n.Legible) : n.AmountsFit := by
  intro m part
  have root := h m part
  cases m with
  | repetition | restriction => exact root
  | _ => trivial

/-- A tree is read if all lower trees are. -/
theorem Readable.readNode_toValue {n : Node} (readable : n.Readable) (fit : n.AmountsFit)
    (lower : ∀ m : Node, m.Readable → m.AmountsFit → m.toValue.height < n.toValue.height →
      Reads read m) : readNode read n.toValue = .ok n.tidy := by
  cases readable with
  | scalar value => exact readNode_scalar value
  | @interval range checked =>
    rw [toValue, readNode_reserved (by simp [reservedTags])]
    exact readRange_toValue checked
  | @tagged tag foreign value =>
    rw [toValue, readNode, foreign.2.2, readTagged_of_foreign foreign, Scalar.ofValue?_toValue]
    rfl
  | @sequence items each =>
    have items_read : ∀ n ∈ items, Reads read n := fun n mem =>
      lower n (each n mem) (fit.child mem) (Value.height_lt_of_mem (toValue_mem_toValues mem))
    rw [toValue]
    exact bind_eq_ok.mpr ⟨_, mapM_toValues items_read, rfl⟩
  | @mapping keys children length each =>
    exact readNode_mapping length fun n mem =>
      lower n (each n mem) (fit.child mem) (height_lt_mapping length mem)
  | @record kind id names children rules length known distinct each settings cases checked =>
    rw [toValue, readNode_tagged (isTagName_tag kind), readTagged_of_record (kind.ofTag?_tag)]
    refine readRecord_toValue fun field mem => ?_
    have inside := (List.of_mem_zip (mem_of_mem_pickOrdered mem).2).2
    have below : field.2.toValue.height <
        (container (.record kind id names) children).toValue.height := height_lt_record mem
    by_cases holds : HoldsSettings kind field.1
    · have same := settings field (mem_of_mem_pickOrdered mem).2 holds
      have inner : (Node.settings rules).AmountsFit := same ▸ fit.child inside
      rw [same] at below
      rw [readField_of_holdsSettings holds, same]
      refine readMeta_toValue (fun rule among n case => ?_) checked
      exact lower n (cases rule among n case) ((inner.labelRule among).child case)
        ((height_lt_settings among case).trans below)
    · rw [readField_of_not_holdsSettings holds]
      exact lower field.2 (each field (mem_of_mem_pickOrdered mem).2 holds) (fit.child inside)
        below
  | @choice options each checked =>
    have options_read : ∀ n ∈ options, Reads read n := fun n mem =>
      lower n (each n mem) (fit.child mem)
        (Nat.lt_succ_of_lt (Value.height_lt_of_mem (toValue_mem_toValues mem)))
    rw [toValue, readNode_reserved (by simp [reservedTags])]
    exact bind_eq_ok.mpr ⟨_, readNodes_toValues _ options_read,
      ofChecked_eq_ok.mpr (choiceOf_tidyAll checked)⟩
  | @labelledChoice options each checked =>
    rw [toValue, readNode_reserved (by simp [reservedTags])]
    exact readLabelledChoice_toValue (fun option mem => lower option.1 (each option mem)
      (fit.child (List.mem_map_of_mem mem)) (height_lt_labelledChoice mem)) checked
  | @palette amount checked =>
    obtain ⟨-, few, -⟩ := paletteOf_eq_ok.mp checked
    have small : amount.toNat < 2 ^ 63 := lt_of_le_of_lt few (by decide)
    rw [toValue, readNode_reserved (by simp [reservedTags])]
    exact bind_eq_ok.mpr ⟨_, readAmount_toInt64 _ small, ofChecked_eq_ok.mpr checked⟩
  | @scaled base scales labels each checked =>
    have parts_read : ∀ n ∈ (Node.scaled base scales labels).children, n.Readable → Reads read n :=
      fun n mem readable => lower n readable (fit.child mem) (height_lt_scaled mem)
    rw [toValue, readNode_reserved (by simp [reservedTags])]
    refine readScaled_toValue (fun b mem => ?_) (fun s mem => ?_) checked
    · exact parts_read b (by simp [children, Option.mem_def.mp mem]) (each b mem)
    · exact parts_read (.scalar s) (by simp [children, mem]) (.scalar s)
  | @repetition amount value each =>
    have given : [("amount", .int amount.toInt64.toInt), ("value", value.toValue)].lookup "value" =
        some value.toValue := rfl
    have inner : Reads read value := lower value each (fit.child (by simp [children]))
      (Nat.lt_succ_of_lt (Value.height_lt_of_lookup given))
    rw [toValue, readNode_reserved (by simp [reservedTags])]
    exact readRepetition_toValue fit.root inner
  | @restriction amount item each =>
    have given : [("amount", .int amount.toInt64.toInt), ("item", item.toValue)].lookup "item" =
        some item.toValue := rfl
    have inner : Reads read item := lower item each (fit.child (by simp [children]))
      (Nat.lt_succ_of_lt (Value.height_lt_of_lookup given))
    rw [toValue, readNode_reserved (by simp [reservedTags])]
    exact readRestriction_toValue fit.root inner
  | @conditional source each checked direct given =>
    have parts_read : ∀ n ∈ (Node.conditional source).children, Reads read n := fun n mem =>
      lower n (each n mem) (fit.child mem) (height_lt_conditional mem)
    rw [toValue, readNode_reserved (by simp [reservedTags])]
    exact readConditional_toValue parts_read checked direct fun n mem =>
      untagged_toValue_ne_null (each n (by simp [children, Option.mem_def.mp mem])) (given n mem)

/-- A tree is read from its plain view, whatever stands in it. -/
theorem Readable.readToDepth_toValue {n : Node} (readable : n.Readable) (fit : n.AmountsFit)
    {depth : Nat} (deep : n.toValue.height ≤ depth) : Reads (readToDepth depth) n := by
  induction depth generalizing n with
  | zero => exact absurd n.toValue.height_pos (Nat.not_lt.mpr deep)
  | succ depth ih =>
    exact readable.readNode_toValue fit fun m readable fit lower =>
      ih readable fit (Nat.le_of_lt_succ (lower.trans_le deep))

/-- What the plain view of a tree is read as: the tidy tree, its conditionals numbered. -/
theorem Readable.ofValue?_toValue {n : Node} (readable : n.Readable) (legible : n.Legible) :
    Node.ofValue? n.toValue = .ok (n.tidy.number 0).1 :=
  bind_eq_ok.mpr ⟨_, readable.readToDepth_toValue legible.amountsFit le_rfl, rfl⟩

/-- What was read is written as the tree it was written from. -/
theorem toValue_reread (n : Node) : (n.tidy.number 0).1.toValue = n.toValue := by
  rw [toValue_number, toValue_tidy]

/-- A template of legible parts that is not nested too deeply survives being written: on one line
and as a document it is written as a text, and from both texts the tidy tree is read, its
conditionals numbered in their order. What was read is written as the same document again. -/
theorem parse_written {text source : String} {n : Node} (parsed : Node.parse text source = .ok n)
    (legible : n.Legible) (shallow : n.toValue.nesting ≤ Tree.depthLimit) :
    ∃ document line, n.toYaml = .ok document ∧ n.toFlow = .ok line ∧
      (∀ name, Node.parse document name = .ok (n.tidy.number 0).1) ∧
      (∀ name, Node.parse line name = .ok (n.tidy.number 0).1) ∧
      (n.tidy.number 0).1.toYaml = .ok document := by
  have readable := readable_of_parse parsed
  have value := readable.legible_toValue legible
  have again : Node.ofValue? n.toValue = .ok (n.tidy.number 0).1 :=
    readable.ofValue?_toValue legible
  have document : n.toYaml = .ok n.toValue.layout.render := by
    rw [toYaml, readable.layout_eq]
    rfl
  have of_document : ∀ name, Node.parse n.toValue.layout.render name = .ok (n.tidy.number 0).1 :=
    fun name => (parse_of_ofChars? (value.ofChars?_layout shallow)).trans again
  refine ⟨_, _, document, readable.toFlow_eq, of_document,
    fun name => (parse_of_ofChars? (value.ofChars?_flow shallow)).trans again, ?_⟩
  rw [toYaml, (readable_of_parse (of_document "")).layout_eq, toValue_reread]
  rfl

/-- An item that is named by an id, and whose name stands after its sizes. -/
def wallItem : Node :=
  .record .item (some "wall") [("sizes", .choice [int 1, int 2]), ("name", text "Wall")]

/-- What the item is read from. -/
def wallValue : Value :=
  .tagged "Item" (.record [("id", .text "wall"),
    ("sizes", .tagged "ProcList" (.sequence [.int 1, .int 2])), ("name", .text "Wall")])

theorem legible_wallValue : wallValue.Legible := by
  have number (i : Int) (range : -2 ^ 63 ≤ i ∧ i < 2 ^ 63) : (Value.int i).Legible :=
    .scalar (.int range.1 range.2)
  have word (s : String) (h : IsWord s) : (Value.text s).Legible := .scalar (.text h)
  have choice : (Value.tagged "ProcList" (.sequence [.int 1, .int 2])).Legible :=
    legible_reserved (by decide) rfl (.sequence (by simp [number]))
  refine .tagged (isTagName_tag .item) rfl (.mapping ?_ (by decide) ?_)
  · simp only [List.map_cons, List.map_nil, List.forall_mem_cons, List.not_mem_nil,
      false_imp_iff, implies_true, and_true]
    exact ⟨.text (by decide), .text (by decide), .text (by decide)⟩
  · simp only [List.map_cons, List.map_nil, List.forall_mem_cons, List.not_mem_nil,
      false_imp_iff, implies_true, and_true]
    exact ⟨word _ (by decide), choice, word _ (by decide)⟩

theorem parse_wallItem :
    Node.parse "!Item {id: wall, sizes: !ProcList [1, 2], name: Wall}" "item" = .ok wallItem := by
  have written : wallValue.flow = "!Item {id: wall, sizes: !ProcList [1, 2], name: Wall}" := rfl
  rw [← written]
  exact (parse_of_ofChars? (legible_wallValue.ofChars?_flow (by decide))).trans (by rfl)

theorem legible_wallItem : wallItem.Legible := by
  have scalar (s : Scalar) (h : s.Legible) : (Node.scalar s).Legible := legible_of_children h nofun
  have choice : (Node.choice [int 1, int 2]).Legible :=
    legible_of_children trivial (by simp [children, int, scalar (.int _) trivial])
  have word : (text "Wall").Legible := scalar (.text "Wall") (by decide : IsWord "Wall")
  exact legible_of_children trivial (by simp [wallItem, record, children, choice, word])

/-- The item is read back without its id and with its name first. -/
theorem parse_written_wallItem :
    ∃ document line, wallItem.toYaml = .ok document ∧ wallItem.toFlow = .ok line ∧
      (∀ name, Node.parse document name = .ok (.record .item none
        [("name", text "Wall"), ("sizes", .choice [int 1, int 2])])) ∧
      (∀ name, Node.parse line name = .ok (.record .item none
        [("name", text "Wall"), ("sizes", .choice [int 1, int 2])])) := by
  obtain ⟨document, line, yaml, flow, of_document, of_line, -⟩ :=
    parse_written parse_wallItem legible_wallItem (by decide)
  exact ⟨document, line, yaml, flow, of_document, of_line⟩

end Node

end ArenaVariations
