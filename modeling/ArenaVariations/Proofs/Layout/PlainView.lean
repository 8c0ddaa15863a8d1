import ArenaVariations.Proofs.Layout.Value
import ArenaVariations.Proofs.Template.Readable

/-!
# Plain views

The plain view of a tree, `Node.toValue`, is the value that its text stands for: tags are tags of
mappings, sequences and scalars, and the fields of a record stand in the declared order, without
the id. `Readable.toFlow_eq` says that a readable tree is written on one line like its plain view.
-/

namespace ArenaVariations

open Yaml

/-- The value of a scalar. -/
def Scalar.toValue : Scalar → Value
  | null => .null
  | bool b => .bool b
  | int i => .int i.toInt
  | float x => .float x
  | text s => .text s

/-- The references of a condition, as a list if they were written as one. -/
def Condition.referencesValue (c : Condition Node) : Value :=
  if c.multi then Value.texts c.references else .text (c.references.headD "")

namespace Node

/-- The plain view of a scaled vector without its tag. -/
def scaledFields (base : Option Value) (scales : List Scalar) (labels : Option (List String)) :
    List (String × Value) :=
  Value.option "base" base id ++ [("scales", .sequence (scales.map Scalar.toValue))]
    ++ Value.option "labels" labels .texts

mutual

/-- The plain view of a tree. -/
def toValue : Node → Value
  | scalar s => s.toValue
  | interval r => .tagged "R" (.sequence [r.min.toValue, r.max.toValue])
  | tagged t => .tagged t.tag t.value.toValue
  | container .sequence items => .sequence (toValues items)
  | container (.mapping keys) children =>
    .mapping ((keys.map Scalar.toValue).zip (toValues children))
  | container (.record kind _ names) children =>
    .tagged kind.tag (.record (pickOrdered kind.fields names (toValues children)))
  | choice options => .tagged "ProcList" (.sequence (toValues options))
  | labelledChoice options => .tagged "ProcListLabelled" (.sequence (optionValues options))
  | palette amount => .tagged "ProcColor" (.int amount.toInt64.toInt)
  | scaled base scales labels =>
    .tagged "ProcVector3Scaled" (.record (scaledFields (optionToValue base) scales labels))
  | repetition amount value =>
    .tagged "ProcRepeatChoice"
      (.record [("amount", .int amount.toInt64.toInt), ("value", value.toValue)])
  | restriction amount item =>
    .tagged "ProcRestrictCombinations"
      (.record [("amount", .int amount.toInt64.toInt), ("item", item.toValue)])
  | conditional source => .tagged "ProcIf" (.record (conditionalFields source))
  | labelRule rule => .tagged "ProcIfLabels" (.record (ruleFields rule))
  | placeholder _ => .null
termination_by structural n => n

/-- The plain views of the trees of a list. -/
def toValues : List Node → List Value
  | [] => []
  | n :: ns => n.toValue :: toValues ns
termination_by structural ns => ns

/-- The plain views of labelled options. -/
def optionValues : List (Node × String) → List Value
  | [] => []
  | o :: os => labelledValue o :: optionValues os
termination_by structural os => os

/-- The plain view of a labelled option. -/
def labelledValue : Node × String → Value
  | (value, label) => .record [("value", value.toValue), ("label", .text label)]
termination_by structural o => o

/-- The plain view of an optional tree. -/
def optionToValue : Option Node → Option Value
  | none => none
  | some n => some n.toValue
termination_by structural o => o

/-- The plain view of the references and cases of a condition. -/
def conditionFields : Condition Node → List (String × Value)
  | ⟨names, multi, cases⟩ =>
    [("variable", Condition.referencesValue ⟨names, multi, []⟩),
      ("cases", .sequence (toValues cases))]
termination_by structural c => c

/-- The plain view of a conditional without its tag. -/
def conditionalFields : Conditional Node → List (String × Value)
  | ⟨_, condition, outcomes, fallback, labels, fallbackLabel⟩ =>
    conditionFields condition ++ [("then", .sequence (toValues outcomes))]
      ++ Value.option "default" (optionToValue fallback) id
      ++ Value.option "labels" labels .texts
      ++ Value.option "default_label" fallbackLabel .text
termination_by structural c => c

/-- The plain view of a label rule without its tag. -/
def ruleFields : LabelRule Node → List (String × Value)
  | ⟨condition, labels, fallback⟩ =>
    conditionFields condition ++ [("labels", .texts labels)]
      ++ Value.option "default" fallback .text
termination_by structural r => r

end

theorem toValues_eq (ns : List Node) : toValues ns = ns.map toValue := by
  induction ns with
  | nil => rfl
  | cons n ns ih => rw [toValues, ih, List.map_cons]

theorem optionValues_eq (options : List (Node × String)) :
    optionValues options =
      options.map fun o => .record [("value", o.1.toValue), ("label", .text o.2)] := by
  induction options with
  | nil => rfl
  | cons o os ih => rw [optionValues, ih, labelledValue, List.map_cons]

theorem optionToValue_eq (n? : Option Node) : optionToValue n? = n?.map toValue := by
  cases n? <;> rfl

end Node

/-- The names of fields, of records and of procedural tags. -/
def fieldNames : List String :=
  RecordKind.all.flatMap RecordKind.fields ++ [labelRulesKey, "value", "label", "base", "scales",
    "labels", "amount", "item", "variable", "cases", "then", "default", "default_label"]

/-- Every name of a field is a word that is written as it is. -/
theorem isWord_of_mem_fieldNames {name : String} (h : name ∈ fieldNames) :
    IsWord name ∧ TextStyle.readsAsOther name.toList = false := by
  have all : ∀ name ∈ fieldNames, IsWord name ∧ TextStyle.readsAsOther name.toList = false := by
    decide
  exact all name h

theorem quoteText_of_mem_fieldNames {name : String} (h : name ∈ fieldNames) (flow : Bool) :
    quoteText flow name = name := by
  obtain ⟨word, same⟩ := isWord_of_mem_fieldNames h
  rw [← String.toList_inj, toList_quoteText_of_isWord word, same]
  rfl

theorem Scalar.isScalar_toValue (s : Scalar) : s.toValue.isScalar = true := by
  cases s <;> rfl

theorem Scalar.isLeaf_toValue (s : Scalar) : s.toValue.isLeaf = true := by
  cases s <;> rfl

theorem Scalar.write_eq (s : Scalar) : s.write true = s.toValue.scalarLine := by
  cases s <;> rfl

theorem Scalar.write_key_eq (s : Scalar) : s.write false = s.toValue.keyLine := by
  cases s <;> rfl

theorem Scalar.flow_toValue (s : Scalar) : s.toValue.flow = s.write true := by
  rw [Value.flow_of_isScalar s.isScalar_toValue, s.write_eq]

namespace Yaml.Value

theorem isLeaf_record (fields : List (String × Value)) : (record fields).isLeaf = false := rfl

theorem isLeaf_tagged_record {tag : String} (other : (tag == "R") = false)
    (fields : List (String × Value)) : (tagged tag (record fields)).isLeaf = false := by
  rw [isLeaf, other]
  rfl

/-- A record is written with its names as they are. -/
theorem flow_record {fields : List (String × Value)}
    (named : ∀ field ∈ fields, field.1 ∈ fieldNames) :
    (record fields).flow = Flow.map (fields.map fun field => (field.1, field.2.flow)) := by
  rw [record, flow_mapping, List.map_map]
  congr 1
  refine List.map_congr_left fun field mem => ?_
  exact congrArg (·, field.2.flow) (quoteText_of_mem_fieldNames (named field mem) true)

theorem flow_texts (ss : List String) : (texts ss).flow = Flow.texts ss := by
  rw [texts, flow_sequence, List.map_map]
  rfl

end Yaml.Value

theorem Yaml.Value.named_option {α : Type} {name : String} (h : name ∈ fieldNames)
    (given : Option α) (view : α → Value) :
    ∀ field ∈ Value.option name given view, field.1 ∈ fieldNames := by
  intro field mem
  obtain ⟨_, -, rfl⟩ := List.mem_map.mp mem
  exact h

namespace Node

theorem named_scaledFields (base : Option Value) (scales : List Scalar)
    (labels : Option (List String)) :
    ∀ field ∈ scaledFields base scales labels, field.1 ∈ fieldNames := by
  have base : "base" ∈ fieldNames := by simp [fieldNames]
  have scales : "scales" ∈ fieldNames := by simp [fieldNames]
  have labels : "labels" ∈ fieldNames := by simp [fieldNames]
  simp only [scaledFields, List.forall_mem_append, List.forall_mem_singleton]
  exact ⟨⟨Value.named_option base _ _, scales⟩, Value.named_option labels _ _⟩

theorem named_conditionFields (c : Condition Node) :
    ∀ field ∈ conditionFields c, field.1 ∈ fieldNames := by
  obtain ⟨references, multi, cases⟩ := c
  simp [conditionFields, fieldNames]

theorem named_ruleFields (rule : LabelRule Node) :
    ∀ field ∈ ruleFields rule, field.1 ∈ fieldNames := by
  obtain ⟨condition, labels, fallback⟩ := rule
  have labels : "labels" ∈ fieldNames := by simp [fieldNames]
  have fallback : "default" ∈ fieldNames := by simp [fieldNames]
  simp only [ruleFields, List.forall_mem_append, List.forall_mem_singleton]
  exact ⟨⟨named_conditionFields _, labels⟩, Value.named_option fallback _ _⟩

theorem named_conditionalFields (source : Conditional Node) :
    ∀ field ∈ conditionalFields source, field.1 ∈ fieldNames := by
  obtain ⟨serial, condition, outcomes, fallback, labels, fallbackLabel⟩ := source
  have outcomes : "then" ∈ fieldNames := by simp [fieldNames]
  have fallback : "default" ∈ fieldNames := by simp [fieldNames]
  have labels : "labels" ∈ fieldNames := by simp [fieldNames]
  have fallbackLabel : "default_label" ∈ fieldNames := by simp [fieldNames]
  simp only [conditionalFields, List.forall_mem_append, List.forall_mem_singleton]
  exact ⟨⟨⟨⟨named_conditionFields _, outcomes⟩, Value.named_option fallback _ _⟩,
    Value.named_option labels _ _⟩, Value.named_option fallbackLabel _ _⟩

end Node

theorem Yaml.Value.map_option {α : Type} (name : String) (given : Option α) (view : α → Value) :
    (Value.option name given view).map (fun field => (field.1, field.2.flow)) =
      Flow.option name given fun a => (view a).flow := by
  cases given <;> rfl

/-- Picking fields goes along with changing what stands under them. -/
theorem pickOrdered_map {α β : Type} (wanted names : List String) (f : α → β) (values : List α) :
    pickOrdered wanted names (values.map f) =
      (pickOrdered wanted names values).map fun field => (field.1, f field.2) := by
  rw [pickOrdered, pickOrdered, List.map_filterMap, List.zip_map_right]
  refine List.filterMap_congr fun name _ => ?_
  rw [List.find?_map, Option.map_map, Option.map_map]
  rfl

theorem mem_of_mem_pickOrdered {β : Type} {wanted names : List String} {values : List β}
    {field : String × β} (h : field ∈ pickOrdered wanted names values) :
    field.1 ∈ wanted ∧ field ∈ names.zip values := by
  obtain ⟨name, mem, picked⟩ := List.mem_filterMap.mp h
  obtain ⟨entry, found, rfl⟩ := Option.map_eq_some_iff.mp picked
  have same : entry.1 = name := by simpa using List.find?_some found
  exact ⟨mem, same ▸ List.mem_of_find?_eq_some found⟩

theorem pickOrdered_nil {β : Type} (wanted : List String) (values : List β) :
    pickOrdered wanted [] values = [] := by
  simp [pickOrdered]

/-- A record with fields of its kind keeps some when they are put in order. -/
theorem pickOrdered_ne_nil {β : Type} {wanted names : List String} {values : List β}
    (filled : names ≠ []) (length : names.length = values.length)
    (known : ∀ name ∈ names, name ∈ wanted) : pickOrdered wanted names values ≠ [] := by
  obtain ⟨name, names, rfl⟩ := List.exists_cons_of_ne_nil filled
  cases values with
  | nil => cases length
  | cons value values =>
    refine List.ne_nil_of_mem (a := (name, value)) (List.mem_filterMap.mpr
      ⟨name, known name List.mem_cons_self, ?_⟩)
    simp

theorem mem_fieldNames {kind : RecordKind} {name : String} (h : name ∈ kind.fields) :
    name ∈ fieldNames := by
  refine List.mem_append_left _ (List.mem_flatMap.mpr ⟨kind, ?_, h⟩)
  cases kind <;> decide

theorem pickAll_map_ok {β : Type} (fields : List (String × β)) :
    pickAll (fields.map fun field => (field.1, .ok field.2)) = .ok fields := by
  induction fields with
  | nil => rfl
  | cons field fields ih =>
    rw [List.map_cons, pickAll, ih]
    rfl

namespace Node

theorem allToFlow_eq {ns : List Node} (each : ∀ n ∈ ns, n.toFlow = .ok n.toValue.flow) :
    allToFlow ns = .ok (ns.map fun n => n.toValue.flow) := by
  induction ns with
  | nil => rfl
  | cons n ns ih =>
    obtain ⟨first, rest⟩ := List.forall_mem_cons.mp each
    rw [allToFlow, first, ih rest]
    rfl

theorem eachToFlow_eq {ns : List Node} (each : ∀ n ∈ ns, n.toFlow = .ok n.toValue.flow) :
    eachToFlow ns = (ns.map fun n => n.toValue.flow).map .ok := by
  induction ns with
  | nil => rfl
  | cons n ns ih =>
    obtain ⟨first, rest⟩ := List.forall_mem_cons.mp each
    rw [eachToFlow, first, ih rest, List.map_cons, List.map_cons]

theorem optionsToFlow_eq {options : List (Node × String)}
    (each : ∀ o ∈ options, o.1.toFlow = .ok o.1.toValue.flow) :
    optionsToFlow options = .ok ((optionValues options).map Value.flow) := by
  induction options with
  | nil => rfl
  | cons o os ih =>
    obtain ⟨first, rest⟩ := List.forall_mem_cons.mp each
    have named : ∀ field ∈ [("value", o.1.toValue), ("label", Value.text o.2)],
        field.1 ∈ fieldNames := by
      simp [fieldNames]
    rw [optionsToFlow, labelledToFlow, first, ih rest, optionValues, labelledValue, List.map_cons,
      Value.flow_record named]
    rfl

theorem optionToFlow_eq {n? : Option Node} (each : ∀ n ∈ n?, n.toFlow = .ok n.toValue.flow) :
    optionToFlow n? = .ok (n?.map fun n => n.toValue.flow) := by
  cases n? with
  | none => rfl
  | some n =>
    rw [optionToFlow, each n rfl]
    rfl

theorem conditionToFlow_eq {c : Condition Node}
    (each : ∀ n ∈ c.cases, n.toFlow = .ok n.toValue.flow) :
    conditionToFlow c = .ok ((conditionFields c).map fun field => (field.1, field.2.flow)) := by
  obtain ⟨references, multi, cases⟩ := c
  have listed : (Condition.referencesValue ⟨references, multi, []⟩).flow =
      Flow.references ⟨references, multi, []⟩ := by
    cases multi with
    | true => exact Value.flow_texts references
    | false => rfl
  rw [conditionToFlow, allToFlow_eq each, conditionFields, List.map_cons, List.map_cons, listed,
    Value.flow_sequence, toValues_eq, List.map_map]
  rfl

/-- A sequence of trees is written like the sequence of their plain views. -/
theorem flow_sequence (ns : List Node) :
    (Value.sequence (toValues ns)).flow = Flow.list (ns.map fun n => n.toValue.flow) := by
  rw [Value.flow_sequence, toValues_eq, List.map_map]
  rfl

theorem flow_scalars (scalars : List Scalar) :
    (Value.sequence (scalars.map Scalar.toValue)).flow =
      Flow.list (scalars.map (Scalar.write true)) := by
  rw [Value.flow_sequence, List.map_map]
  exact congrArg Flow.list (List.map_congr_left fun s _ => s.flow_toValue)

theorem flow_zip (keys : List Scalar) (ns : List Node) :
    (Value.mapping ((keys.map Scalar.toValue).zip (toValues ns))).flow =
      Flow.map ((keys.map (Scalar.write true)).zip (ns.map fun n => n.toValue.flow)) := by
  have written : Scalar.write true = fun s => s.toValue.scalarLine := funext Scalar.write_eq
  rw [Value.flow_mapping, toValues_eq, written, List.zip_map, List.zip_map, List.map_map]
  rfl

/-- A record is written like the record of the plain views of its fields. -/
theorem flow_fields (kind : RecordKind) (names : List String) (ns : List Node) :
    (Value.record (pickOrdered kind.fields names (toValues ns))).flow =
      Flow.map (pickOrdered kind.fields names (ns.map fun n => n.toValue.flow)) := by
  have named : ∀ field ∈ pickOrdered kind.fields names (toValues ns), field.1 ∈ fieldNames :=
    fun field mem => mem_fieldNames (mem_of_mem_pickOrdered mem).1
  rw [Value.flow_record named, toValues_eq, ← pickOrdered_map, List.map_map]
  rfl

theorem ruleToFlow_eq {rule : LabelRule Node}
    (each : ∀ n ∈ rule.condition.cases, n.toFlow = .ok n.toValue.flow) :
    ruleToFlow rule = .ok (labelRule rule).toValue.flow := by
  rw [toValue, Value.flow_tagged, Value.flow_record (named_ruleFields rule)]
  obtain ⟨condition, labels, fallback⟩ := rule
  rw [ruleToFlow, conditionToFlow_eq each, ruleFields, List.map_append, List.map_append,
    Value.map_option, List.map_singleton, Value.flow_texts]
  rfl

theorem conditionalToFlow_eq {source : Conditional Node}
    (each : ∀ n ∈ (conditional source).children, n.toFlow = .ok n.toValue.flow) :
    conditionalToFlow source = .ok (conditional source).toValue.flow := by
  rw [toValue, Value.flow_tagged, Value.flow_record (named_conditionalFields source)]
  obtain ⟨serial, condition, outcomes, fallback, labels, fallbackLabel⟩ := source
  simp only [children, List.forall_mem_append, Option.mem_toList] at each
  obtain ⟨⟨cases, outs⟩, given⟩ := each
  have written : (fun ls : List String => (Value.texts ls).flow) = Flow.texts :=
    funext Value.flow_texts
  rw [conditionalToFlow, conditionToFlow_eq cases, allToFlow_eq outs, optionToFlow_eq given,
    conditionalFields]
  simp only [List.map_append, Value.map_option, List.map_singleton, written, flow_sequence]
  cases fallback <;> rfl

theorem toFlow_settings {rules : List (LabelRule Node)}
    (each : ∀ rule ∈ rules, ∀ n ∈ rule.condition.cases, n.toFlow = .ok n.toValue.flow) :
    (settings rules).toFlow = .ok (settings rules).toValue.flow := by
  have listed : allToFlow (rules.map labelRule) =
      .ok ((rules.map labelRule).map fun n => n.toValue.flow) := by
    refine allToFlow_eq fun n mem => ?_
    obtain ⟨rule, among, rfl⟩ := List.mem_map.mp mem
    exact ruleToFlow_eq (each rule among)
  have written : (Node.sequence (rules.map labelRule)).toFlow =
      .ok (Node.sequence (rules.map labelRule)).toValue.flow := by
    rw [toFlow, toValue, listed, flow_sequence]
    rfl
  rw [settings, mapping, toFlow, toValue, flow_zip, allToFlow_eq (by simpa using written)]
  rfl

/-- A readable tree is written like its plain view. -/
theorem Readable.toFlow_eq {n : Node} (h : n.Readable) : n.toFlow = .ok n.toValue.flow := by
  induction h with
  | scalar value =>
    rw [toFlow, toValue, value.flow_toValue]
    rfl
  | interval checked =>
    rw [toFlow, toValue, Value.flow_tagged, Value.flow_sequence]
    simp only [List.map_cons, List.map_nil, Scalar.flow_toValue]
    rfl
  | tagged foreign value =>
    rw [toFlow, toValue, Value.flow_tagged, Scalar.flow_toValue]
    rfl
  | sequence _ ih =>
    rw [toFlow, toValue, allToFlow_eq ih, flow_sequence]
    rfl
  | mapping length _ ih =>
    rw [toFlow, toValue, allToFlow_eq ih, flow_zip]
    rfl
  | @record kind _ names children _ length known distinct _ settings cases checked ih ihCases =>
    have each : ∀ n ∈ children, n.toFlow = .ok n.toValue.flow := by
      refine forall_mem_zip_snd length fun field mem => ?_
      by_cases holds : HoldsSettings kind field.1
      · rw [settings field mem holds]
        exact toFlow_settings ihCases
      · exact ih field mem holds
    rw [toFlow, toValue, eachToFlow_eq each, pickOrdered_map, pickAll_map_ok,
      Value.flow_tagged, flow_fields]
    rfl
  | choice _ checked ih =>
    rw [toFlow, toValue, allToFlow_eq ih, Value.flow_tagged, flow_sequence]
    rfl
  | labelledChoice _ checked ih =>
    rw [toFlow, toValue, optionsToFlow_eq ih, Value.flow_tagged, Value.flow_sequence]
    rfl
  | palette checked => rfl
  | @scaled base scales labels _ checked ih =>
    have written : (fun ls : List String => (Value.texts ls).flow) = Flow.texts :=
      funext Value.flow_texts
    rw [toFlow, toValue, optionToFlow_eq ih, Value.flow_tagged,
      Value.flow_record (named_scaledFields _ _ _), scaledFields]
    simp only [List.map_append, Value.map_option, List.map_singleton, written, flow_scalars]
    cases base <;> rfl
  | repetition amount _ ih =>
    rw [toFlow, toValue, ih, Value.flow_tagged, Value.flow_record (by simp [fieldNames])]
    rfl
  | restriction amount _ ih =>
    rw [toFlow, toValue, ih, Value.flow_tagged, Value.flow_record (by simp [fieldNames])]
    rfl
  | conditional _ checked direct given ih => exact conditionalToFlow_eq ih

end Node

end ArenaVariations
