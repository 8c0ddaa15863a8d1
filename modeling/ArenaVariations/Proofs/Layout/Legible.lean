import ArenaVariations.Proofs.Layout.PlainView

/-!
# Legible trees

A tree is legible if its texts are words, its doubles are numbers, its amounts are small and its
keys are pairwise different. Ids need not be legible, because they are not written. The plain view
of a legible tree that can be read is a legible value.
-/

namespace ArenaVariations

open Yaml

/-- A scalar that is read back from its text. -/
def Scalar.Legible : Scalar → Prop
  | text s => IsWord s
  | float x => x.isNaN = false
  | null | bool _ | int _ => True

/-- The references of a condition are words. -/
def Condition.LegibleReferences (c : Condition Node) : Prop :=
  ∀ reference ∈ c.references, IsWord reference

namespace Node

/-- What a tree holds itself is legible; the trees below it do not count. -/
def LegibleRoot : Node → Prop
  | scalar s => s.Legible
  | interval r => r.min.Legible ∧ r.max.Legible
  | tagged t => Value.IsTagName t.tag ∧ t.value.Legible
  | container (.mapping keys) _ =>
    (∀ key ∈ keys, key.Legible) ∧ keys.Pairwise fun k l => (k == l) = false
  | container .sequence _ | container (.record ..) _ | choice _ | palette _ | placeholder _ => True
  | labelledChoice options => ∀ option ∈ options, IsWord option.2
  | scaled _ scales labels => (∀ s ∈ scales, s.Legible) ∧ ∀ ls ∈ labels, ∀ label ∈ ls, IsWord label
  | repetition amount _ | restriction amount _ => amount.toNat < 2 ^ 63
  | conditional source => source.condition.LegibleReferences ∧
    (∀ ls ∈ source.labels, ∀ label ∈ ls, IsWord label) ∧
    ∀ label ∈ source.fallbackLabel, IsWord label
  | labelRule rule => rule.condition.LegibleReferences ∧ (∀ label ∈ rule.labels, IsWord label) ∧
    ∀ label ∈ rule.fallback, IsWord label

/-- Every part of a tree is legible. -/
def Legible (n : Node) : Prop :=
  ∀ m : Node, m.PartOf n → m.LegibleRoot

theorem Legible.root {n : Node} (h : n.Legible) : n.LegibleRoot :=
  h n (.whole n)

theorem Legible.child {n child : Node} (h : n.Legible) (mem : child ∈ n.children) :
    child.Legible :=
  fun m part => h m (.inside mem part)

theorem legible_of_children {n : Node} (root : n.LegibleRoot)
    (children : ∀ child ∈ n.children, child.Legible) : n.Legible :=
  forall_partOf root children

end Node

theorem Scalar.Legible.toValue {s : Scalar} (h : s.Legible) : s.toValue.LegibleScalar := by
  cases s with
  | null => exact .null
  | bool b => exact .bool b
  | int i => exact .int i.le_toInt i.toInt_lt
  | float x => exact .float h
  | text s => exact .text h

/-- Legible scalars are equal if their values are the same. -/
theorem Scalar.Legible.same_toValue {k l : Scalar} (h : k.Legible) :
    k.toValue.same l.toValue = (k == l) := by
  cases k with
  | int i =>
    cases l with
    | int j =>
      show (i.toInt == j.toInt) = (i == j)
      rw [Bool.eq_iff_iff, beq_iff_eq, beq_iff_eq, Int64.toInt_inj]
    | null | bool | float | text => rfl
  | float x =>
    cases l with
    | float y =>
      have real : x.isNaN = false := h
      simp only [Scalar.toValue, Value.same, real, Bool.false_and, Bool.or_false]
      rfl
    | null | bool | int | text => rfl
  | null | bool | text => cases l <;> rfl

namespace Yaml.Value

theorem legible_texts {ss : List String} (words : ∀ s ∈ ss, IsWord s) : (texts ss).Legible :=
  .sequence (List.forall_mem_map.mpr fun s mem => .scalar (.text (words s mem)))

/-- A record is legible if its names are names of different fields. -/
theorem legible_record {fields : List (String × Value)}
    (named : ∀ field ∈ fields, field.1 ∈ fieldNames) (distinct : (fields.map Prod.fst).Nodup)
    (values : ∀ field ∈ fields, field.2.Legible) : (record fields).Legible := by
  refine .mapping (List.forall_mem_map.mpr fun field mem => ?_) ?_ (List.forall_mem_map.mpr values)
  · exact .text (isWord_of_mem_fieldNames (named field mem)).1
  · rw [List.pairwise_map]
    refine (List.pairwise_map.mp distinct).imp fun ne => ?_
    simpa [same] using ne

/-- An entry that may be left out is legible. -/
theorem legible_option {α : Type} {name : String} {given : Option α} {view : α → Value}
    (each : ∀ a ∈ given, (view a).Legible) :
    ∀ field ∈ option name given view, field.2.Legible := by
  intro field mem
  obtain ⟨a, among, rfl⟩ := List.mem_map.mp mem
  exact each a (Option.mem_toList.mp among)

end Yaml.Value

namespace Node

theorem isTagName_tag (kind : RecordKind) : Value.IsTagName kind.tag := by
  cases kind <;> exact ⟨by decide, forall_mem_of_all (by decide)⟩

/-- The names of reserved tags are letters. -/
theorem isTagName_of_mem {tag : String} (h : tag ∈ Template.reservedTags) :
    Value.IsTagName tag := by
  have all : ∀ tag ∈ Template.reservedTags, tag.toList ≠ [] ∧
      tag.toList.all Char.isAlphanum = true := by
    decide
  exact ⟨(all tag h).1, List.all_eq_true.mp (all tag h).2⟩

/-- A reserved tag in front of a record or a list. -/
theorem legible_reserved {tag : String} (h : tag ∈ Template.reservedTags) {v : Value}
    (untagged : v.isTagged = false) (legible : v.Legible) : (Value.tagged tag v).Legible :=
  .tagged (isTagName_of_mem h) untagged legible

theorem legible_toValues {ns : List Node} (each : ∀ n ∈ ns, n.toValue.Legible) :
    ∀ v ∈ toValues ns, v.Legible := by
  rw [toValues_eq]
  exact List.forall_mem_map.mpr each

theorem legible_scalars {scalars : List Scalar} (each : ∀ s ∈ scalars, s.Legible) :
    (Value.sequence (scalars.map Scalar.toValue)).Legible :=
  .sequence (List.forall_mem_map.mpr fun s mem => .scalar (each s mem).toValue)

/-- Small amounts are written as they are. -/
theorem toInt_toInt64 {amount : UInt64} (small : amount.toNat < 2 ^ 63) :
    amount.toInt64.toInt = amount.toNat :=
  BitVec.toInt_eq_toNat_of_lt (by
    have : amount.toInt64.toBitVec.toNat < 2 ^ 63 := small
    omega)

theorem legible_amount (amount : UInt64) : (Value.int amount.toInt64.toInt).Legible :=
  .scalar (.int (Int64.le_toInt _) (Int64.toInt_lt _))

theorem legible_conditionFields {c : Condition Node} (references : c.LegibleReferences)
    (direct : c.Direct) (each : ∀ n ∈ c.cases, n.toValue.Legible) :
    ∀ field ∈ conditionFields c, field.2.Legible := by
  obtain ⟨names, multi, cases⟩ := c
  simp only [conditionFields, List.forall_mem_cons, List.not_mem_nil, false_imp_iff, implies_true,
    and_true]
  refine ⟨?_, .sequence (legible_toValues each)⟩
  cases multi with
  | true => exact Value.legible_texts references
  | false =>
    obtain ⟨name, rfl⟩ := direct rfl
    exact .scalar (.text (references name List.mem_cons_self))

theorem legible_ruleFields {rule : LabelRule Node} (root : (Node.labelRule rule).LegibleRoot)
    (direct : rule.condition.Direct) (each : ∀ n ∈ rule.condition.cases, n.toValue.Legible) :
    (Value.record (ruleFields rule)).Legible := by
  obtain ⟨condition, labels, fallback⟩ := rule
  obtain ⟨references, words, word⟩ := root
  refine Value.legible_record (named_ruleFields _) ?_ ?_
  · obtain ⟨names, multi, cases⟩ := condition
    cases fallback <;> simp [ruleFields, conditionFields, Value.option]
  · simp only [ruleFields, List.forall_mem_append, List.forall_mem_singleton]
    exact ⟨⟨legible_conditionFields references direct each, Value.legible_texts words⟩,
      Value.legible_option fun label mem => .scalar (.text (word label mem))⟩

theorem legible_conditionalFields {source : Conditional Node}
    (root : (Node.conditional source).LegibleRoot) (direct : source.condition.Direct)
    (each : ∀ n ∈ (Node.conditional source).children, n.toValue.Legible) :
    (Value.record (conditionalFields source)).Legible := by
  obtain ⟨serial, condition, outcomes, fallback, labels, fallbackLabel⟩ := source
  obtain ⟨references, words, word⟩ := root
  simp only [children, List.forall_mem_append] at each
  obtain ⟨⟨cases, results⟩, default⟩ := each
  refine Value.legible_record (named_conditionalFields _) ?_ ?_
  · obtain ⟨names, multi, cases⟩ := condition
    cases fallback <;> cases labels <;> cases fallbackLabel <;>
      simp [conditionalFields, conditionFields, Value.option, optionToValue]
  · simp only [conditionalFields, List.forall_mem_append, List.forall_mem_singleton]
    refine ⟨⟨⟨⟨legible_conditionFields references direct cases,
      .sequence (legible_toValues results)⟩, Value.legible_option fun v mem => ?_⟩,
      Value.legible_option fun ls mem => Value.legible_texts (words ls mem)⟩,
      Value.legible_option fun label mem => .scalar (.text (word label mem))⟩
    rw [optionToValue_eq] at mem
    obtain ⟨n, given, rfl⟩ := Option.map_eq_some_iff.mp mem
    exact default n (by simpa using given)

theorem Legible.labelRule {rules : List (LabelRule Node)} (h : (settings rules).Legible)
    {rule : LabelRule Node} (mem : rule ∈ rules) : (Node.labelRule rule).Legible :=
  (h.child List.mem_cons_self).child (List.mem_map_of_mem mem)

theorem toValue_settings (rules : List (LabelRule Node)) :
    (settings rules).toValue = .record [(labelRulesKey, .sequence
      (rules.map fun rule => .tagged "ProcIfLabels" (.record (ruleFields rule))))] := by
  simp [settings, mapping, toValue, toValues, toValues_eq, Value.record, Scalar.toValue,
    Function.comp_def]

theorem legible_settings {rules : List (LabelRule Node)} (legible : (settings rules).Legible)
    (direct : ∀ rule ∈ rules, rule.condition.Direct)
    (each : ∀ rule ∈ rules, ∀ n ∈ rule.condition.cases, n.toValue.Legible) :
    (settings rules).toValue.Legible := by
  rw [toValue_settings]
  refine Value.legible_record (by simp [fieldNames]) (by simp) (List.forall_mem_singleton.mpr ?_)
  refine .sequence (List.forall_mem_map.mpr fun rule mem => ?_)
  exact legible_reserved (by simp [Template.reservedTags]) rfl
    (legible_ruleFields (legible.labelRule mem).root (direct rule mem) (each rule mem))

theorem legible_zip {keys : List Scalar} {children : List Node}
    (length : keys.length = children.length) (legible : ∀ key ∈ keys, key.Legible)
    (distinct : keys.Pairwise fun k l => (k == l) = false)
    (each : ∀ n ∈ children, n.toValue.Legible) :
    (Value.mapping ((keys.map Scalar.toValue).zip (toValues children))).Legible := by
  rw [toValues_eq, List.zip_map]
  refine .mapping (List.forall_mem_map.mpr fun entry mem => ?_) ?_
    (List.forall_mem_map.mpr fun entry mem => each _ (List.of_mem_zip mem).2)
  · exact (legible _ (List.of_mem_zip mem).1).toValue
  · rw [List.pairwise_map]
    rw [← List.map_fst_zip length.le, List.pairwise_map] at distinct
    refine distinct.imp_of_mem fun {e f} mem _ ne => ?_
    exact (legible _ (List.of_mem_zip mem).1).same_toValue.trans ne

/-- The fields of a record in their declared order are fields of different names. -/
theorem nodup_pickOrdered {β : Type} (kind : RecordKind) (names : List String) (values : List β) :
    ((pickOrdered kind.fields names values).map Prod.fst).Nodup := by
  have fields : kind.fields.Nodup := by cases kind <;> decide
  rw [pickOrdered, List.map_filterMap]
  refine fields.filterMap fun first second name of_first of_second => ?_
  simp only [Option.map_map, Option.mem_def, Option.map_eq_some_iff, Function.comp_apply,
    exists_and_right] at of_first of_second
  exact of_first.2.trans of_second.2.symm

/-- The plain view of a legible tree that can be read is legible. -/
theorem Readable.legible_toValue {n : Node} (readable : n.Readable) (legible : n.Legible) :
    n.toValue.Legible := by
  induction readable with
  | scalar value => exact .scalar (Scalar.Legible.toValue legible.root)
  | @interval range checked =>
    obtain ⟨min, max⟩ := legible.root
    exact legible_reserved (by simp [Template.reservedTags]) rfl
      (legible_scalars (List.forall_mem_cons.mpr ⟨min, List.forall_mem_singleton.mpr max⟩))
  | tagged foreign value =>
    obtain ⟨name, legible⟩ := legible.root
    refine .tagged name ?_ (.scalar legible.toValue)
    cases value <;> rfl
  | sequence each ih =>
    exact .sequence (legible_toValues fun n mem => ih n mem (legible.child mem))
  | mapping length each ih =>
    obtain ⟨keys, distinct⟩ := legible.root
    exact legible_zip length keys distinct fun n mem => ih n mem (legible.child mem)
  | @record kind id names children rules length known distinct each settings cases checked ih
      ihCases =>
    rw [toValue, toValues_eq, pickOrdered_map]
    refine .tagged (isTagName_tag kind) rfl (Value.legible_record
      (List.forall_mem_map.mpr fun field mem => mem_fieldNames (mem_of_mem_pickOrdered mem).1) ?_
      (List.forall_mem_map.mpr fun field mem => ?_))
    · rw [List.map_map]
      exact nodup_pickOrdered kind names children
    · obtain ⟨-, among⟩ := mem_of_mem_pickOrdered mem
      have inside : field.2 ∈ children := (List.of_mem_zip among).2
      by_cases holds : HoldsSettings kind field.1
      · have same := settings field among holds
        have inner : (Node.settings rules).Legible := same ▸ legible.child inside
        rw [same]
        exact legible_settings inner (fun rule mem => (checked rule mem).2)
          fun rule mem n case => ihCases rule mem n case ((inner.labelRule mem).child case)
      · exact ih field among holds (legible.child inside)
  | choice each checked ih =>
    exact legible_reserved (by simp [Template.reservedTags]) rfl
      (.sequence (legible_toValues fun n mem => ih n mem (legible.child mem)))
  | @labelledChoice options each checked ih =>
    rw [toValue, optionValues_eq]
    refine legible_reserved (by simp [Template.reservedTags]) rfl
      (.sequence (List.forall_mem_map.mpr fun option mem => ?_))
    have value := ih option mem (legible.child (List.mem_map_of_mem mem))
    have label : (Value.text option.2).Legible := .scalar (.text (legible.root option mem))
    exact Value.legible_record (by simp [fieldNames]) (by simp) (by simp [value, label])
  | palette checked =>
    exact legible_reserved (by simp [Template.reservedTags]) rfl (legible_amount _)
  | @scaled base scales labels each checked ih =>
    obtain ⟨factors, words⟩ := legible.root
    refine legible_reserved (by simp [Template.reservedTags]) rfl
      (Value.legible_record (named_scaledFields _ _ _) ?_ ?_)
    · cases base <;> cases labels <;> simp [scaledFields, Value.option, optionToValue]
    · simp only [scaledFields, List.forall_mem_append, List.forall_mem_singleton]
      refine ⟨⟨Value.legible_option fun v mem => ?_, legible_scalars factors⟩,
        Value.legible_option fun ls mem => Value.legible_texts (words ls mem)⟩
      rw [optionToValue_eq] at mem
      obtain ⟨b, given, rfl⟩ := Option.map_eq_some_iff.mp mem
      exact ih b given (legible.child (by simp [children, given]))
  | repetition amount each ih =>
    have value := ih (legible.child (by simp [children]))
    exact legible_reserved (by simp [Template.reservedTags]) rfl
      (Value.legible_record (by simp [fieldNames]) (by simp) (by simp [legible_amount, value]))
  | restriction amount each ih =>
    have item := ih (legible.child (by simp [children]))
    exact legible_reserved (by simp [Template.reservedTags]) rfl
      (Value.legible_record (by simp [fieldNames]) (by simp) (by simp [legible_amount, item]))
  | conditional each checked direct given ih =>
    exact legible_reserved (by simp [Template.reservedTags]) rfl
      (legible_conditionalFields legible.root direct fun n mem => ih n mem (legible.child mem))

end Node

end ArenaVariations
