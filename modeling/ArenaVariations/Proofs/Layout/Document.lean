import ArenaVariations.Proofs.Layout.PlainView

/-!
# Plain views of documents

A readable tree is laid out like its plain view, `Readable.layout_eq`: what stays on a line and what
becomes a block depends on the plain view only.
-/

namespace ArenaVariations

open Yaml

namespace Node

/-- Leaves among trees are leaves among values. -/
theorem Readable.isLeaf_eq {n : Node} (h : n.Readable) : n.isLeaf = n.toValue.isLeaf := by
  cases h with
  | scalar value => cases value <;> rfl
  | @tagged tag foreign value =>
    have other : ∀ name ∈ Template.reservedTags, (tag == name) = false := fun name mem =>
      beq_false_of_ne fun same => foreign.2.1 (same ▸ mem)
    simp [isLeaf, toValue, Value.isLeaf, Scalar.isScalar_toValue, bne,
      other "ProcColor" (by decide)]
  | @record kind =>
    have other : (kind.tag == "R") = false := by cases kind <;> rfl
    rw [toValue, Value.isLeaf_tagged_record other]
    rfl
  | interval | sequence | mapping | choice | labelledChoice | palette | scaled | repetition
  | restriction | conditional => rfl

end Node

namespace Yaml.Value

/-- A record is laid out with its names as they are. -/
theorem layout_record {fields : List (String × Value)} (filled : fields ≠ [])
    (named : ∀ field ∈ fields, field.1 ∈ fieldNames) :
    (record fields).layout =
      .entries none (fields.map fun field => (field.1, field.2.layout)) := by
  rw [record, layout_mapping (by simpa using filled), List.map_map]
  congr 1
  refine List.map_congr_left fun field mem => ?_
  exact congrArg (·, field.2.layout) (quoteText_of_mem_fieldNames (named field mem) false)

end Yaml.Value

namespace Layout

open Node

theorem ofNodes_eq {ns : List Node} (each : ∀ n ∈ ns, ofNode n = .ok n.toValue.layout) :
    ofNodes ns = .ok (ns.map fun n => n.toValue.layout) := by
  induction ns with
  | nil => rfl
  | cons n ns ih =>
    obtain ⟨first, rest⟩ := List.forall_mem_cons.mp each
    rw [ofNodes, first, ih rest]
    rfl

theorem eachOfNodes_eq {ns : List Node} (each : ∀ n ∈ ns, ofNode n = .ok n.toValue.layout) :
    eachOfNodes ns = (ns.map fun n => n.toValue.layout).map .ok := by
  induction ns with
  | nil => rfl
  | cons n ns ih =>
    obtain ⟨first, rest⟩ := List.forall_mem_cons.mp each
    rw [eachOfNodes, first, ih rest, List.map_cons, List.map_cons]

theorem ofOption_eq {n? : Option Node} (each : ∀ n ∈ n?, ofNode n = .ok n.toValue.layout) :
    ofOption n? = .ok (n?.map fun n => n.toValue.layout) := by
  cases n? with
  | none => rfl
  | some n =>
    rw [ofOption, each n rfl]
    rfl

/-- A tree that is written on a line is laid out on that line. -/
theorem map_line {n : Node} (readable : n.Readable) {text : String}
    (inline : n.toValue.layout = .line text) : n.toFlow.map line = .ok n.toValue.layout := by
  rw [readable.toFlow_eq, inline, Value.eq_flow_of_layout inline]
  rfl

theorem all_isLeaf {ns : List Node} (readable : ∀ n ∈ ns, n.Readable) :
    ns.all Node.isLeaf = (toValues ns).all Value.isLeaf := by
  rw [toValues_eq, List.all_map, Bool.eq_iff_iff, List.all_eq_true, List.all_eq_true]
  exact forall₂_congr fun n mem => by rw [Function.comp_apply, (readable n mem).isLeaf_eq]

/-- A list of readable trees below a key. -/
theorem list_eq {ns : List Node} (readable : ∀ n ∈ ns, n.Readable) :
    list ns (ns.map fun n => n.toValue.layout) = .ok (Value.sequence (toValues ns)).layout := by
  rw [list, all_isLeaf readable]
  split
  case isTrue leaves =>
    rw [(Readable.sequence readable).toFlow_eq, Value.layout_sequence_of_all leaves]
    rfl
  case isFalse block =>
    rw [Value.layout_sequence (by simpa using block), toValues_eq, List.map_map]
    rfl

theorem ofOptions_eq {options : List (Node × String)}
    (each : ∀ o ∈ options, ofNode o.1 = .ok o.1.toValue.layout) :
    ofOptions options = .ok ((optionValues options).map Value.layout) := by
  induction options with
  | nil => rfl
  | cons o os ih =>
    obtain ⟨first, rest⟩ := List.forall_mem_cons.mp each
    have named : ∀ field ∈ [("value", o.1.toValue), ("label", Value.text o.2)],
        field.1 ∈ fieldNames := by
      simp [fieldNames]
    rw [ofOptions, ofLabelled, first, ih rest, optionValues, labelledValue, List.map_cons,
      Value.layout_record (by simp) named]
    rfl

theorem map_option {α : Type} (name : String) (given : Option α) (view : α → Value) :
    (Value.option name given view).map (fun field => (field.1, field.2.layout)) =
      Layout.option name given fun a => (view a).layout := by
  cases given <;> rfl

theorem layout_texts (ss : List String) : (Value.texts ss).layout = texts ss := by
  have leaves : (ss.map Value.text).all Value.isLeaf = true := by
    simp [Value.isLeaf, Value.isScalar]
  rw [Value.texts, Value.layout_sequence_of_all leaves, ← Value.texts, Value.flow_texts]
  rfl

theorem ofCondition_eq {c : Condition Node} (readable : ∀ n ∈ c.cases, n.Readable)
    (each : ∀ n ∈ c.cases, ofNode n = .ok n.toValue.layout) :
    ofCondition c = .ok ((conditionFields c).map fun field => (field.1, field.2.layout)) := by
  obtain ⟨names, multi, cases⟩ := c
  have listed : (Condition.referencesValue ⟨names, multi, []⟩).layout =
      references ⟨names, multi, []⟩ := by
    cases multi with
    | true => exact layout_texts names
    | false => rfl
  have written : list cases (cases.map fun n => n.toValue.layout) =
      .ok (Value.sequence (toValues cases)).layout := list_eq readable
  rw [ofCondition, ofNodes_eq each, conditionFields, List.map_cons, List.map_cons, listed]
  show (list cases _ >>= _) = _
  rw [written]
  rfl

theorem ofRule_eq {rule : LabelRule Node} (readable : ∀ n ∈ rule.condition.cases, n.Readable)
    (each : ∀ n ∈ rule.condition.cases, ofNode n = .ok n.toValue.layout) :
    ofRule rule = .ok (labelRule rule).toValue.layout := by
  have filled : ruleFields rule ≠ [] := by
    obtain ⟨condition, labels, fallback⟩ := rule
    simp [ruleFields]
  rw [toValue, Value.layout_tagged rfl, Value.layout_record filled (named_ruleFields rule)]
  obtain ⟨condition, labels, fallback⟩ := rule
  rw [ofRule, ofCondition_eq readable each, ruleFields, List.map_append, List.map_append,
    map_option, List.map_singleton, layout_texts]
  rfl

theorem ofConditional_eq {source : Conditional Node}
    (readable : ∀ n ∈ (conditional source).children, n.Readable)
    (each : ∀ n ∈ (conditional source).children, ofNode n = .ok n.toValue.layout) :
    ofConditional source = .ok (conditional source).toValue.layout := by
  have filled : conditionalFields source ≠ [] := by
    obtain ⟨serial, condition, outcomes, fallback, labels, fallbackLabel⟩ := source
    simp [conditionalFields]
  rw [toValue, Value.layout_tagged rfl,
    Value.layout_record filled (named_conditionalFields source)]
  obtain ⟨serial, condition, outcomes, fallback, labels, fallbackLabel⟩ := source
  simp only [children, List.forall_mem_append, Option.mem_toList] at readable each
  obtain ⟨⟨cases, outs⟩, given⟩ := each
  have written : (fun ls : List String => (Value.texts ls).layout) = texts := funext layout_texts
  have listed := list_eq readable.1.2
  rw [ofConditional, ofCondition_eq readable.1.1 cases, ofNodes_eq outs, ofOption_eq given,
    conditionalFields]
  simp only [List.map_append, map_option, List.map_singleton, written]
  show (list outcomes _ >>= _) = _
  rw [listed]
  cases fallback <;> rfl

theorem ofNode_settings {rules : List (LabelRule Node)}
    (readable : ∀ rule ∈ rules, ∀ n ∈ rule.condition.cases, n.Readable)
    (each : ∀ rule ∈ rules, ∀ n ∈ rule.condition.cases, ofNode n = .ok n.toValue.layout) :
    ofNode (settings rules) = .ok (settings rules).toValue.layout := by
  have listed : ofNodes (rules.map labelRule) =
      .ok ((rules.map labelRule).map fun n => n.toValue.layout) := by
    refine ofNodes_eq fun n mem => ?_
    obtain ⟨rule, among, rfl⟩ := List.mem_map.mp mem
    exact ofRule_eq (readable rule among) (each rule among)
  have written : ofNode (.sequence (rules.map labelRule)) =
      .ok (Node.sequence (rules.map labelRule)).toValue.layout := by
    cases rules with
    | nil => rfl
    | cons rule rules =>
      have block : (toValues ((rule :: rules).map labelRule)).all Value.isLeaf = false := by
        rw [List.map_cons, toValues, toValue, List.all_cons, Value.isLeaf_tagged_record rfl,
          Bool.false_and]
      rw [ofNode, if_neg (by simp [isInline, isLeaf]), listed, toValue,
        Value.layout_sequence block, toValues_eq, List.map_map (g := Value.layout)]
      rfl
  rw [settings, mapping, ofNode, if_neg (by simp [isInline]), List.map_cons, List.map_cons,
    List.map_nil, List.map_nil, ofNodes_eq (by simpa using written)]
  rfl

theorem ofNode_sequence {items : List Node} (readable : ∀ n ∈ items, n.Readable)
    (each : ∀ n ∈ items, ofNode n = .ok n.toValue.layout) :
    ofNode (.sequence items) = .ok (Node.sequence items).toValue.layout := by
  rw [ofNode, isInline, all_isLeaf readable]
  split
  case isTrue leaves =>
    exact map_line (.sequence readable) (Value.layout_sequence_of_all leaves)
  case isFalse block =>
    rw [ofNodes_eq each, toValue, Value.layout_sequence (by simpa using block), toValues_eq,
      List.map_map]
    rfl

theorem ofNode_mapping {keys : List Scalar} {children : List Node}
    (length : keys.length = children.length) (readable : ∀ n ∈ children, n.Readable)
    (each : ∀ n ∈ children, ofNode n = .ok n.toValue.layout) :
    ofNode (.container (.mapping keys) children) =
      .ok (container (.mapping keys) children).toValue.layout := by
  rw [ofNode, isInline]
  split
  case isTrue empty =>
    obtain rfl := List.isEmpty_iff.mp empty
    have line : (container (.mapping []) children).toValue.layout = .line (Flow.map []) := rfl
    exact map_line (.mapping length readable) line
  case isFalse filled =>
    have keyed : keys ≠ [] := by simpa using filled
    have valued : children ≠ [] := by
      rintro rfl
      exact keyed (List.length_eq_zero_iff.mp length)
    have entries : (keys.map Scalar.toValue).zip (toValues children) ≠ [] := by
      simp [toValues_eq, List.zip_eq_nil_iff, keyed, valued]
    have written : Scalar.write false = fun s => s.toValue.keyLine := funext Scalar.write_key_eq
    rw [ofNodes_eq each, toValue, Value.layout_mapping entries, toValues_eq, written,
      List.zip_map, List.map_map]
    show Except.ok (Layout.entries none (List.zip _ _)) = _
    rw [List.zip_map]
    rfl

theorem ofNode_record {kind : RecordKind} {id : Option String} {names : List String}
    {children : List Node} (length : names.length = children.length)
    (known : ∀ name ∈ names, name ∈ kind.fields)
    (readable : (container (.record kind id names) children).Readable)
    (each : ∀ n ∈ children, ofNode n = .ok n.toValue.layout) :
    ofNode (.container (.record kind id names) children) =
      .ok (container (.record kind id names) children).toValue.layout := by
  rw [ofNode, isInline]
  cases flow : kind.isFlow with
  | true =>
    have inline : Value.isInlineTag kind.tag = true := by cases kind <;> first | rfl | cases flow
    exact map_line readable (Value.layout_tagged_of_isInlineTag inline _)
  | false =>
    have block : Value.isInlineTag kind.tag = false := by
      cases kind <;> first | rfl | cases flow
    rw [Bool.false_or]
    split
    case isTrue empty =>
      obtain rfl := List.isEmpty_iff.mp empty
      have line : (container (.record kind id []) children).toValue.layout =
          .line ("!" ++ kind.tag ++ " " ++ Flow.map []) := by
        rw [toValue, pickOrdered_nil, Value.layout_tagged block]
        rfl
      exact map_line readable line
    case isFalse filled =>
      have picked : pickOrdered kind.fields names (toValues children) ≠ [] := by
        refine pickOrdered_ne_nil (by simpa using filled) ?_ known
        rw [toValues_eq, List.length_map, length]
      have named : ∀ field ∈ pickOrdered kind.fields names (toValues children),
          field.1 ∈ fieldNames :=
        fun field mem => mem_fieldNames (mem_of_mem_pickOrdered mem).1
      rw [eachOfNodes_eq each, pickOrdered_map, pickAll_map_ok, toValue,
        Value.layout_tagged block, Value.layout_record picked named, toValues_eq,
        ← pickOrdered_map, List.map_map]
      rfl

theorem ofNode_choice {options : List Node} (readable : ∀ n ∈ options, n.Readable)
    (checked : choiceOf options = .ok (.choice options))
    (each : ∀ n ∈ options, ofNode n = .ok n.toValue.layout) :
    ofNode (.choice options) = .ok (Node.choice options).toValue.layout := by
  rw [ofNode, isInline, all_isLeaf readable]
  split
  case isTrue leaves =>
    have line : (Node.choice options).toValue.layout =
        .line ("!" ++ "ProcList" ++ " " ++ (Value.sequence (toValues options)).flow) := by
      rw [toValue, Value.layout_tagged rfl, Value.layout_sequence_of_all leaves]
      rfl
    exact map_line (.choice readable checked) line
  case isFalse block =>
    rw [ofNodes_eq each, toValue, Value.layout_tagged rfl,
      Value.layout_sequence (by simpa using block), toValues_eq, List.map_map]
    rfl

theorem ofNode_labelledChoice {options : List (Node × String)}
    (checked : labelledChoiceOf options = .ok (.labelledChoice options))
    (each : ∀ o ∈ options, ofNode o.1 = .ok o.1.toValue.layout) :
    ofNode (.labelledChoice options) = .ok (Node.labelledChoice options).toValue.layout := by
  have filled : options ≠ [] := (labelledChoiceOf_eq_ok.mp checked).1
  have block : (optionValues options).all Value.isLeaf = false := by
    cases options with
    | nil => exact absurd rfl filled
    | cons => rw [optionValues, labelledValue, List.all_cons, Value.isLeaf_record, Bool.false_and]
  rw [ofNode, ofOptions_eq each, toValue, Value.layout_tagged rfl, Value.layout_sequence block]
  rfl

theorem ofNode_scaled {base : Option Node} {scales : List Scalar} {labels : Option (List String)}
    (each : ∀ b ∈ base, ofNode b = .ok b.toValue.layout) :
    ofNode (.scaled base scales labels) =
      .ok (Node.scaled base scales labels).toValue.layout := by
  have filled : scaledFields (optionToValue base) scales labels ≠ [] := by simp [scaledFields]
  have written : (fun ls : List String => (Value.texts ls).layout) = texts := funext layout_texts
  have factors : (Value.sequence (scales.map Scalar.toValue)).layout =
      .line (Flow.list (scales.map (Scalar.write true))) := by
    rw [Value.layout_sequence_of_all (by simp [Scalar.isLeaf_toValue]), flow_scalars]
  rw [ofNode, ofOption_eq each, toValue, Value.layout_tagged rfl,
    Value.layout_record filled (named_scaledFields _ _ _), scaledFields]
  simp only [List.map_append, map_option, List.map_singleton, written, factors]
  cases base <;> rfl

end Layout

namespace Node

/-- A readable tree is laid out like its plain view. -/
theorem Readable.layout_eq {n : Node} (h : n.Readable) :
    Layout.ofNode n = .ok n.toValue.layout := by
  induction h with
  | scalar value =>
    rw [Layout.ofNode]
    exact Layout.map_line (.scalar value) (Value.layout_of_isScalar value.isScalar_toValue)
  | interval checked =>
    rw [Layout.ofNode]
    exact Layout.map_line (.interval checked) (Value.layout_tagged_of_isInlineTag rfl _)
  | @tagged tag foreign value =>
    rw [Layout.ofNode]
    cases inline : Value.isInlineTag tag with
    | true =>
      exact Layout.map_line (.tagged foreign value) (Value.layout_tagged_of_isInlineTag inline _)
    | false =>
      have line : (Node.tagged ⟨tag, value⟩).toValue.layout =
          .line ("!" ++ tag ++ " " ++ value.toValue.scalarLine) := by
        rw [toValue, Value.layout_tagged inline, Value.layout_of_isScalar value.isScalar_toValue]
        rfl
      exact Layout.map_line (.tagged foreign value) line
  | sequence each ih => exact Layout.ofNode_sequence each ih
  | mapping length each ih => exact Layout.ofNode_mapping length each ih
  | @record kind id names children rules length known distinct each settings cases checked ih
      ihCases =>
    refine Layout.ofNode_record length known
      (.record length known distinct each settings cases checked)
      (forall_mem_zip_snd length fun field mem => ?_)
    by_cases holds : HoldsSettings kind field.1
    · rw [settings field mem holds]
      exact Layout.ofNode_settings cases ihCases
    · exact ih field mem holds
  | choice each checked ih => exact Layout.ofNode_choice each checked ih
  | labelledChoice _ checked ih => exact Layout.ofNode_labelledChoice checked ih
  | palette checked =>
    rw [Layout.ofNode]
    exact Layout.map_line (.palette checked) rfl
  | scaled _ _ ih => exact Layout.ofNode_scaled ih
  | repetition amount _ ih =>
    rw [Layout.ofNode, toValue, ih, Value.layout_tagged rfl,
      Value.layout_record (by simp) (by simp [fieldNames])]
    rfl
  | restriction amount _ ih =>
    rw [Layout.ofNode, toValue, ih, Value.layout_tagged rfl,
      Value.layout_record (by simp) (by simp [fieldNames])]
    rfl
  | conditional each checked direct given ih => exact Layout.ofConditional_eq each ih

end Node

end ArenaVariations
