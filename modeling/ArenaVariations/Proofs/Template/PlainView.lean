import ArenaVariations.Proofs.Layout.Legible
import ArenaVariations.Proofs.Layout.Tidy
import ArenaVariations.Proofs.Template.Reading

/-!
# Plain views are read

Every reader finds in the plain view of a tree what the tree was written from, but tidy. Each of
them takes a reader of smaller parts, of which no more is needed than that it reads the parts that
are there.
-/

namespace ArenaVariations

open Yaml

namespace Scalar

@[simp] theorem ofValue?_toValue (s : Scalar) : ofValue? s.toValue = some s := by
  cases s with
  | int i =>
    have small : i.toInt < Int.pow 2 63 := i.toInt_lt
    rw [toValue, ofValue?, if_pos small, Int64.ofInt_toInt]
  | null | bool | float | text => rfl

@[simp] theorem nameOf?_text (s : String) : nameOf? (.text s) = some s := rfl

end Scalar

/-- A list that is written by one function and read by another. -/
theorem mapM_map_ok {ε α β γ : Type} {write : α → β} {read : β → Except ε γ} {result : α → γ}
    {as : List α} (each : ∀ a ∈ as, read (write a) = .ok (result a)) :
    (as.map write).mapM read = .ok (as.map result) := by
  induction as with
  | nil => rfl
  | cons a as ih =>
    obtain ⟨first, rest⟩ := List.forall_mem_cons.mp each
    rw [List.map_cons, List.mapM_cons, first, ih rest]
    rfl

namespace Fields

/-- A record has its fields as entries. -/
theorem ofValue_record (tag : String) {allowed : List String} {fields : List (String × Value)}
    (named : ∀ field ∈ fields, field.1 ∈ allowed) :
    ofValue tag allowed (Value.record fields) = .ok ⟨tag, Value.record fields, fields⟩ := by
  have entries : ∀ source : Value, ofEntries tag source allowed
      (fields.map fun field => (.text field.1, field.2)) = .ok fields := by
    intro source
    induction fields with
    | nil => rfl
    | cons field fields ih =>
      obtain ⟨first, rest⟩ := List.forall_mem_cons.mp named
      simp only [List.map_cons, ofEntries, Scalar.nameOf?_text, ih rest, List.contains_eq_mem,
        first, decide_true]
      rfl
  rw [Value.record, ofValue, entries]
  rfl

theorem required_of_get? {fields : Fields} {name : String} {v : Value}
    (found : fields.get? name = some v) : fields.required name = .ok v :=
  required_eq_ok.mpr found

/-- An entry that may be left out is found if it is there. -/
theorem lookup_option {α : Type} (name other : String) (given : Option α) (view : α → Value) :
    (Value.option name given view).lookup other =
      if other = name then given.map view else none := by
  cases given with
  | none => simp [Value.option]
  | some a =>
    by_cases same : other = name
    · simp [Value.option, same]
    · simp [Value.option, List.lookup_cons, same, beq_false_of_ne same]

end Fields

namespace Template

theorem tagName_of_isTagName {tag : String} (name : Value.IsTagName tag) : tagName tag = tag := by
  obtain ⟨filled, letters⟩ := name
  obtain ⟨c, rest, split⟩ := List.exists_cons_of_ne_nil filled
  have other : c ≠ '!' := by
    rintro rfl
    have letter := letters '!' (by simp [split])
    exact absurd letter (by decide)
  rw [tagName, split, List.dropWhile_cons_of_neg (by simpa using other), ← split,
    String.ofList_toList]

theorem readTexts_texts (tag field : String) (ss : List String) :
    readTexts tag field (Value.texts ss) = .ok ss := by
  have each : (ss.map Value.text).mapM (readText tag field) = .ok (ss.map id) :=
    mapM_map_ok fun s _ => rfl
  rwa [List.map_id] at each

theorem readAmount_toInt64 (tag : String) {amount : UInt64} (small : amount.toNat < 2 ^ 63) :
    readAmount tag (.int amount.toInt64.toInt) = .ok amount := by
  have plain : (Value.int amount.toNat).untagged = .int amount.toNat := rfl
  rw [Node.toInt_toInt64 small, readAmount, plain]
  dsimp only
  rw [if_pos (Int.natCast_nonneg _), Int.toNat_natCast, UInt64.ofNat_toNat]
  rfl

theorem readOption_map {α γ : Type} {read : Value → Reading γ} {view : α → Value}
    {result : α → γ} {given : Option α} (each : ∀ a ∈ given, read (view a) = .ok (result a)) :
    readOption read (given.map view) = .ok (given.map result) := by
  cases given with
  | none => rfl
  | some a =>
    rw [Option.map_some, readOption, each a rfl]
    rfl

theorem readOption_texts (tag field : String) (given : Option (List String)) :
    readOption (readTexts tag field) (given.map Value.texts) = .ok given := by
  cases given with
  | none => rfl
  | some ss =>
    rw [Option.map_some, readOption, readTexts_texts]
    rfl

theorem readOption_text (tag field : String) (given : Option String) :
    readOption (readText tag field) (given.map Value.text) = .ok given := by
  cases given <;> rfl

/-- A reader reads the plain view of a tree, and finds the tidy tree. -/
def Reads (read : Value → Reading Node) (n : Node) : Prop :=
  read n.toValue = .ok n.tidy

section

variable {read : Value → Reading Node}

theorem mapM_toValues {ns : List Node} (each : ∀ n ∈ ns, Reads read n) :
    (Node.toValues ns).mapM read = .ok (Node.tidyAll ns) := by
  rw [Node.toValues_eq, Node.tidyAll_eq]
  exact mapM_map_ok each

theorem readNodes_toValues (tag : String) {ns : List Node} (each : ∀ n ∈ ns, Reads read n) :
    readNodes read tag (.sequence (Node.toValues ns)) = .ok (Node.tidyAll ns) :=
  mapM_toValues each

theorem readRange_toValue {range : Interval}
    (checked : Interval.ofBounds range.min range.max = .ok range) :
    readRange (.sequence [range.min.toValue, range.max.toValue]) = .ok (.interval range) := by
  have bounds : [range.min.toValue, range.max.toValue].mapM Scalar.ofValue? =
      some [range.min, range.max] := by
    simp
  rw [readRange, bounds]
  dsimp only
  rw [checked]
  rfl

/-- The entries of a mapping. -/
theorem mapM_readEntry {keys : List Scalar} {children : List Node}
    (each : ∀ n ∈ children, Reads read n) :
    ((keys.map Scalar.toValue).zip (Node.toValues children)).mapM (readEntry read) =
      .ok ((keys.zip children).map fun entry => (entry.1, entry.2.tidy)) := by
  rw [Node.toValues_eq, List.zip_map]
  refine mapM_map_ok fun entry mem => ?_
  have found : read entry.2.toValue = .ok entry.2.tidy := each _ (List.of_mem_zip mem).2
  simp only [readEntry, Prod.map_fst, Prod.map_snd, Scalar.ofValue?_toValue, found]
  rfl

theorem readLabelled_toValue {option : Node × String} (inner : Reads read option.1) :
    readLabelled read (Value.record [("value", option.1.toValue), ("label", .text option.2)]) =
      .ok (option.1.tidy, option.2) := by
  have found : read option.1.toValue = .ok option.1.tidy := inner
  rw [readLabelled, Fields.ofValue_record _ (by simp)]
  change (do
    let value ← read option.1.toValue
    return (value, option.2)) = Except.ok (option.1.tidy, option.2)
  rw [found]
  rfl

theorem readLabelledChoice_toValue {options : List (Node × String)}
    (each : ∀ option ∈ options, Reads read option.1)
    (checked : Node.labelledChoiceOf options = .ok (.labelledChoice options)) :
    readLabelledChoice read (.sequence (Node.optionValues options)) =
      .ok (Node.labelledChoice options).tidy := by
  obtain ⟨filled, static, -⟩ := Node.labelledChoiceOf_eq_ok.mp checked
  have items : (Node.optionValues options).mapM (readLabelled read) =
      .ok (options.map fun o => (o.1.tidy, o.2)) := by
    rw [Node.optionValues_eq]
    exact mapM_map_ok fun option mem => readLabelled_toValue (each option mem)
  rw [readLabelledChoice, items, Node.tidy, Node.tidyOptions_eq]
  refine ofChecked_eq_ok.mpr (Node.labelledChoiceOf_eq_ok.mpr ⟨?_, ?_, rfl⟩)
  · simpa using filled
  · exact List.forall_mem_map.mpr fun option mem => Node.isStatic_tidy (static option mem)

theorem readOption_optionToValue {n? : Option Node} (each : ∀ n ∈ n?, Reads read n) :
    readOption read (Node.optionToValue n?) = .ok (Node.tidyOption n?) := by
  rw [Node.optionToValue_eq, Node.tidyOption_eq]
  exact readOption_map each

theorem lookup_scaledFields (base : Option Value) (scales : List Scalar)
    (labels : Option (List String)) :
    (Node.scaledFields base scales labels).lookup "base" = base ∧
      (Node.scaledFields base scales labels).lookup "scales" =
        some (.sequence (scales.map Scalar.toValue)) ∧
      (Node.scaledFields base scales labels).lookup "labels" = labels.map Value.texts := by
  simp [Node.scaledFields, List.lookup_append, List.lookup_cons, Fields.lookup_option]

theorem readScaled_toValue {base : Option Node} {scales : List Scalar}
    {labels : Option (List String)} (each : ∀ b ∈ base, Reads read b)
    (factors : ∀ s ∈ scales, Reads read (.scalar s))
    (checked : Node.scaledOf base (scales.map .scalar) labels = .ok (.scaled base scales labels)) :
    readScaled read (Value.record (Node.scaledFields (Node.optionToValue base) scales labels)) =
      .ok (Node.scaled base scales labels).tidy := by
  obtain ⟨known, same, filled, numeric, labelled, based, made⟩ := Node.scaledOf_eq_ok.mp checked
  cases made
  have named : ∀ field ∈ Node.scaledFields (Node.optionToValue base) scales labels,
      field.1 ∈ ["base", "scales", "labels"] := by
    cases base <;> cases labels <;> simp [Node.scaledFields, Value.option, Node.optionToValue]
  obtain ⟨base_given, scales_given, labels_given⟩ :=
    lookup_scaledFields (Node.optionToValue base) scales labels
  have listed : readNodes read "ProcVector3Scaled" (.sequence (scales.map Scalar.toValue)) =
      .ok (scales.map .scalar) := mapM_map_ok factors
  refine bind_eq_ok.mpr ⟨_, Fields.ofValue_record _ named, bind_eq_ok.mpr ⟨Node.tidyOption base, ?_,
    bind_eq_ok.mpr ⟨_, Fields.required_of_get? scales_given, bind_eq_ok.mpr ⟨_, listed,
      bind_eq_ok.mpr ⟨labels, ?_, ofChecked_eq_ok.mpr (Node.scaledOf_eq_ok.mpr
        ⟨scales, rfl, filled, numeric, labelled, ?_, rfl⟩)⟩⟩⟩⟩⟩
  · rw [Fields.get?, base_given]
    exact readOption_optionToValue each
  · rw [Fields.get?, labels_given]
    exact readOption_texts ..
  · rw [Node.tidyOption_eq]
    intro b mem
    obtain ⟨b, given, rfl⟩ := Option.map_eq_some_iff.mp mem
    rw [Node.components?_tidy]
    exact based b given

theorem readRepetition_toValue {amount : UInt64} (small : amount.toNat < 2 ^ 63) {value : Node}
    (inner : Reads read value) :
    readRepetition read (Value.record
      [("amount", .int amount.toInt64.toInt), ("value", value.toValue)]) =
        .ok (Node.repetition amount value).tidy := by
  have found : read value.toValue = .ok value.tidy := inner
  rw [readRepetition, Fields.ofValue_record _ (by simp)]
  change (do
    let amount ← readAmount "ProcRepeatChoice" (.int amount.toInt64.toInt)
    return Node.repetition amount (← read value.toValue)) = _
  rw [readAmount_toInt64 _ small, found]
  rfl

theorem readRestriction_toValue {amount : UInt64} (small : amount.toNat < 2 ^ 63) {item : Node}
    (inner : Reads read item) :
    readRestriction read (Value.record
      [("amount", .int amount.toInt64.toInt), ("item", item.toValue)]) =
        .ok (Node.restriction amount item).tidy := by
  have found : read item.toValue = .ok item.tidy := inner
  rw [readRestriction, Fields.ofValue_record _ (by simp)]
  change (do
    let amount ← readAmount "ProcRestrictCombinations" (.int amount.toInt64.toInt)
    return Node.restriction amount (← read item.toValue)) = _
  rw [readAmount_toInt64 _ small, found]
  rfl

/-- Tidy cases pass the check of a condition. -/
theorem checked_tidyCondition {c : Condition Node} (checked : c.Checked) :
    Condition.ofParts c.references c.multi (Node.tidyAll c.cases) =
      .ok (Node.tidyCondition c) := by
  obtain ⟨some, cases, -⟩ := Condition.ofParts_eq_ok.mp checked
  rw [Node.tidyCondition_eq, Node.tidyAll_eq]
  refine Condition.ofParts_eq_ok.mpr ⟨some, List.forall_mem_map.mpr fun case mem => ?_, rfl⟩
  obtain ⟨static, arity⟩ := cases case mem
  exact ⟨Node.isStatic_tidy static, (Node.length_values_tidy case).trans arity⟩

theorem readCondition_toValue (tag : String) {fields : Fields} {c : Condition Node}
    (references : fields.get? "variable" = some c.referencesValue)
    (cases : fields.get? "cases" = some (.sequence (Node.toValues c.cases)))
    (each : ∀ n ∈ c.cases, Reads read n) (checked : c.Checked) (direct : c.Direct) :
    readCondition read tag fields = .ok (Node.tidyCondition c) := by
  have rest : (do
      let cases ← readNodes read tag (← fields.required "cases")
      Reading.ofChecked (Condition.ofParts c.references c.multi cases)) =
        .ok (Node.tidyCondition c) :=
    bind_eq_ok.mpr ⟨_, Fields.required_of_get? cases, bind_eq_ok.mpr ⟨_,
      readNodes_toValues tag each, ofChecked_eq_ok.mpr (checked_tidyCondition checked)⟩⟩
  refine bind_eq_ok.mpr ⟨_, Fields.required_of_get? references, ?_⟩
  cases multi : c.multi with
  | true =>
    rw [multi] at rest
    rw [Condition.referencesValue, multi, if_pos rfl]
    change (do
      let names ← readTexts tag "variable" (Value.texts c.references)
      let cases ← readNodes read tag (← fields.required "cases")
      Reading.ofChecked (Condition.ofParts names true cases)) = _
    rw [readTexts_texts]
    exact rest
  | false =>
    obtain ⟨reference, single⟩ := direct multi
    rw [multi, single] at rest
    rw [Condition.referencesValue, multi, single, if_neg Bool.false_ne_true]
    exact rest

theorem lookup_conditionalFields (source : Conditional Node) :
    (Node.conditionalFields source).lookup "variable" = some source.condition.referencesValue ∧
      (Node.conditionalFields source).lookup "cases" =
        some (.sequence (Node.toValues source.condition.cases)) ∧
      (Node.conditionalFields source).lookup "then" =
        some (.sequence (Node.toValues source.outcomes)) ∧
      (Node.conditionalFields source).lookup "default" = Node.optionToValue source.fallback ∧
      (Node.conditionalFields source).lookup "labels" = source.labels.map Value.texts ∧
      (Node.conditionalFields source).lookup "default_label" = source.fallbackLabel.map .text := by
  obtain ⟨serial, ⟨names, multi, cases⟩, outcomes, fallback, labels, fallbackLabel⟩ := source
  simp [Node.conditionalFields, Node.conditionFields, List.lookup_append, List.lookup_cons,
    Fields.lookup_option, Condition.referencesValue]

theorem lookup_ruleFields (rule : LabelRule Node) :
    (Node.ruleFields rule).lookup "variable" = some rule.condition.referencesValue ∧
      (Node.ruleFields rule).lookup "cases" =
        some (.sequence (Node.toValues rule.condition.cases)) ∧
      (Node.ruleFields rule).lookup "labels" = some (Value.texts rule.labels) ∧
      (Node.ruleFields rule).lookup "default" = rule.fallback.map .text := by
  obtain ⟨⟨names, multi, cases⟩, labels, fallback⟩ := rule
  simp [Node.ruleFields, Node.conditionFields, List.lookup_cons, Fields.lookup_option,
    Condition.referencesValue]

/-- A default that is not null is not written as null. -/
theorem untagged_toValue_ne_null {n : Node} (readable : n.Readable) (given : n.isNull = false) :
    n.toValue.untagged ≠ .null := by
  cases readable with
  | scalar value | tagged _ value =>
    cases value with
    | null => cases given
    | bool | int | float | text => rintro ⟨⟩
  | _ => rintro ⟨⟩

/-- Tidy values pass the check of a conditional. -/
theorem checked_tidyConditional {source : Conditional Node} (checked : source.Checked) :
    Conditional.ofParts 0 (Node.tidyCondition source.condition) (Node.tidyAll source.outcomes)
      (Node.tidyOption source.fallback) source.labels source.fallbackLabel =
        .ok (Node.tidyConditional source) := by
  obtain ⟨outcomes, labels, static, -⟩ := Conditional.ofParts_eq_ok.mp checked.2
  have cases : (Node.tidyCondition source.condition).cases.length =
      source.condition.cases.length := by
    rw [Node.tidyCondition_eq, List.length_map]
  have tidied : Node.tidyAll source.outcomes ++ (Node.tidyOption source.fallback).toList =
      (source.outcomes ++ source.fallback.toList).map Node.tidy := by
    rw [Node.tidyAll_eq, Node.tidyOption_eq, List.map_append, Option.toList_map]
  refine Conditional.ofParts_eq_ok.mpr ⟨?_, ?_, ?_, ?_⟩
  · rw [cases, Node.tidyAll_eq, List.length_map, outcomes]
  · rwa [cases]
  · rw [tidied]
    exact List.forall_mem_map.mpr fun n mem => Node.isStatic_tidy (static n mem)
  · obtain ⟨serial, condition, outcomes, fallback, labels, fallbackLabel⟩ := source
    rfl

theorem filter_optionToValue {keep : Value → Bool} {n? : Option Node}
    (each : ∀ n ∈ n?, keep n.toValue = true) :
    (Node.optionToValue n?).filter keep = Node.optionToValue n? := by
  rw [Node.optionToValue_eq]
  cases n? with
  | none => rfl
  | some n => rw [Option.map_some, Option.filter_some, if_pos (each n rfl)]

theorem readConditional_toValue {source : Conditional Node}
    (each : ∀ n ∈ (Node.conditional source).children, Reads read n) (checked : source.Checked)
    (direct : source.condition.Direct)
    (given : ∀ n ∈ source.fallback, n.toValue.untagged ≠ .null) :
    readConditional read (Value.record (Node.conditionalFields source)) =
      .ok (Node.conditional source).tidy := by
  have named : ∀ field ∈ Node.conditionalFields source,
      field.1 ∈ ["variable", "cases", "then", "default", "labels", "default_label"] := by
    obtain ⟨serial, ⟨names, multi, cases⟩, outcomes, fallback, labels, fallbackLabel⟩ := source
    cases fallback <;> cases labels <;> cases fallbackLabel <;>
      simp [Node.conditionalFields, Node.conditionFields, Value.option, Node.optionToValue]
  obtain ⟨references, cases, outcomes, fallback, labels, fallbackLabel⟩ :=
    lookup_conditionalFields source
  simp only [Node.children, List.forall_mem_append] at each
  obtain ⟨⟨cases_read, outcomes_read⟩, fallback_read⟩ := each
  refine bind_eq_ok.mpr ⟨_, Fields.ofValue_record _ named, bind_eq_ok.mpr ⟨_,
    readCondition_toValue "ProcIf" references cases cases_read checked.1 direct, bind_eq_ok.mpr ⟨_,
    Fields.required_of_get? outcomes, bind_eq_ok.mpr ⟨_, readNodes_toValues _ outcomes_read,
    bind_eq_ok.mpr ⟨Node.tidyOption source.fallback, ?_, bind_eq_ok.mpr ⟨source.labels, ?_,
    bind_eq_ok.mpr ⟨source.fallbackLabel, ?_, map_eq_ok.mpr ⟨_,
      ofChecked_eq_ok.mpr (checked_tidyConditional checked), rfl⟩⟩⟩⟩⟩⟩⟩⟩
  · -- a default is not null, so that it is not dropped
    rw [Fields.get?, fallback, filter_optionToValue]
    · exact readOption_optionToValue fun n mem => fallback_read n (Option.mem_toList.mpr mem)
    · intro n mem
      split
      · next null => exact absurd null (given n mem)
      · rfl
  · rw [Fields.get?, labels]
    exact readOption_texts ..
  · rw [Fields.get?, fallbackLabel]
    exact readOption_text ..

theorem readLabelRule_toValue {rule : LabelRule Node}
    (each : ∀ n ∈ rule.condition.cases, Reads read n) (checked : rule.Checked)
    (direct : rule.condition.Direct) :
    readLabelRule read (Value.record (Node.ruleFields rule)) =
      .ok (.labelRule (Node.tidyRule rule)) := by
  have named : ∀ field ∈ Node.ruleFields rule,
      field.1 ∈ ["variable", "cases", "labels", "default"] := by
    obtain ⟨⟨names, multi, cases⟩, labels, fallback⟩ := rule
    cases fallback <;> simp [Node.ruleFields, Node.conditionFields, Value.option]
  obtain ⟨references, cases, labels, fallback⟩ := lookup_ruleFields rule
  obtain ⟨length, -⟩ := LabelRule.ofParts_eq_ok.mp checked.2
  have tidied : LabelRule.ofParts (Node.tidyCondition rule.condition) rule.labels rule.fallback =
      .ok (Node.tidyRule rule) := by
    refine LabelRule.ofParts_eq_ok.mpr ⟨?_, ?_⟩
    · rw [Node.tidyCondition_eq, List.length_map, length]
    · obtain ⟨condition, labels, fallback⟩ := rule
      rfl
  refine bind_eq_ok.mpr ⟨_, Fields.ofValue_record _ named, bind_eq_ok.mpr ⟨_,
    readCondition_toValue "ProcIfLabels" references cases each checked.1 direct,
    bind_eq_ok.mpr ⟨_, Fields.required_of_get? labels, bind_eq_ok.mpr ⟨_, readTexts_texts _ _ _,
    bind_eq_ok.mpr ⟨rule.fallback, ?_, map_eq_ok.mpr ⟨_, ofChecked_eq_ok.mpr tidied, rfl⟩⟩⟩⟩⟩⟩
  rw [Fields.get?, fallback]
  exact readOption_text ..

theorem tidy_settings (rules : List (LabelRule Node)) :
    (Node.settings rules).tidy = Node.settings (rules.map Node.tidyRule) := by
  have list : Node.tidyAll (rules.map .labelRule) = (rules.map Node.tidyRule).map .labelRule := by
    rw [Node.tidyAll_eq, List.map_map, List.map_map]
    rfl
  rw [Node.settings, Node.settings, ← list]
  rfl

/-- Settings are read where they may stand. -/
theorem readMeta_toValue {rules : List (LabelRule Node)}
    (each : ∀ rule ∈ rules, ∀ n ∈ rule.condition.cases, Reads read n)
    (checked : ∀ rule ∈ rules, rule.Checked ∧ rule.condition.Direct) :
    readMeta read (Node.settings rules).toValue = .ok (Node.settings rules).tidy := by
  have items : (rules.map fun rule => Value.tagged "ProcIfLabels"
      (Value.record (Node.ruleFields rule))).mapM (readRuleItem read) =
        .ok (rules.map fun rule => .labelRule (Node.tidyRule rule)) :=
    mapM_map_ok fun rule mem => by
      have known : tagName "ProcIfLabels" = "ProcIfLabels" := by decide
      rw [readRuleItem, if_pos known]
      exact readLabelRule_toValue (each rule mem) (checked rule mem).1 (checked rule mem).2
  rw [Node.toValue_settings, readMeta, Fields.ofValue_record _ (by simp), tidy_settings]
  change (do
    let rules ← (rules.map fun rule => Value.tagged "ProcIfLabels"
      (Value.record (Node.ruleFields rule))).mapM (readRuleItem read)
    return Node.mapping [(.text labelRulesKey, .sequence rules)]) = _
  rw [items, Node.settings, List.map_map]
  rfl

/-- The fields of a record are read one after the other. -/
theorem readFields_map {kind : RecordKind} {source : Value} {before : List (String × Node)}
    {fields : List (String × Node)} (known : ∀ field ∈ fields, field.1 ∈ kind.fields)
    (each : ∀ field ∈ fields, readField read kind field.1 field.2.toValue = .ok field.2.tidy) :
    readFields read kind source none before
        (fields.map fun field => (.text field.1, field.2.toValue)) =
      .ok (.record kind none
        (before.reverse ++ fields.map fun field => (field.1, field.2.tidy))) := by
  induction fields generalizing before with
  | nil =>
    rw [List.map_nil, List.map_nil, List.append_nil]
    rfl
  | cons field fields ih =>
    obtain ⟨mem, known⟩ := List.forall_mem_cons.mp known
    obtain ⟨first, each⟩ := List.forall_mem_cons.mp each
    have other : field.1 ≠ idField := by
      rintro same
      rw [same] at mem
      cases kind <;> revert mem <;> decide
    rw [List.map_cons]
    refine (readFields_field_eq_ok rfl other).mpr ⟨mem, _, first, ?_⟩
    rw [ih known each, List.reverse_cons, List.append_assoc]
    rfl

theorem readRecord_toValue {kind : RecordKind} {id : Option String} {names : List String}
    {children : List Node}
    (each : ∀ field ∈ pickOrdered kind.fields names children,
      readField read kind field.1 field.2.toValue = .ok field.2.tidy) :
    readRecord read kind
        (Value.record (pickOrdered kind.fields names (Node.toValues children))) =
      .ok (Node.container (.record kind id names) children).tidy := by
  rw [Node.tidy, Node.tidyAll_eq, pickOrdered_map, Node.toValues_eq, pickOrdered_map, Value.record,
    List.map_map, readRecord]
  exact readFields_map (fun field mem => (mem_of_mem_pickOrdered mem).1) each

end

end Template

end ArenaVariations
