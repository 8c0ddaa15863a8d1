import ArenaVariations.Proofs.Layout.RoundTrip

/-!
# Procedural tags and their plain views

The copy of a template shows a procedural tag by the plain view of what it holds. The reader of the
tag gets the tag back from this view, without ids and with its records in order: `readTag_view`.
The view is regular if no two keys of a mapping have become the same by being read.

Amounts are read as unsigned and written as signed integers, so the tag of an amount from `2 ^ 63`
on is not read back, `readTag_view_fails_vast`.
-/

namespace ArenaVariations

open Yaml

namespace Scalar

theorem regular_toValue (s : Scalar) : s.toValue.Regular := by
  cases s <;> constructor

end Scalar

namespace Yaml.Value

theorem regular_texts (ss : List String) : (texts ss).Regular :=
  .sequence (List.forall_mem_map.mpr fun s _ => .text s)

/-- A record with different names is regular. -/
theorem regular_record {fields : List (String × Value)} (distinct : (fields.map Prod.fst).Nodup)
    (values : ∀ field ∈ fields, field.2.Regular) : (record fields).Regular := by
  refine .mapping ?_ (List.forall_mem_map.mpr fun field _ => .text field.1)
    (List.forall_mem_map.mpr values)
  rw [List.pairwise_map]
  refine (List.pairwise_map.mp distinct).imp fun ne => ?_
  simpa [same] using ne

theorem regular_option {α : Type} {name : String} {given : Option α} {view : α → Value}
    (each : ∀ a ∈ given, (view a).Regular) : ∀ field ∈ option name given view, field.2.Regular := by
  intro field mem
  obtain ⟨a, among, rfl⟩ := List.mem_map.mp mem
  exact each a (Option.mem_toList.mp among)

end Yaml.Value

namespace Node

/-- Whether the keys of a mapping stand for different values. -/
def KeysDiffer : Node → Prop
  | container (.mapping keys) _ => keys.Pairwise fun k l => k.toValue.same l.toValue = false
  | _ => True

theorem regular_toValues {ns : List Node} (each : ∀ n ∈ ns, n.toValue.Regular) :
    (Value.sequence (toValues ns)).Regular := by
  rw [toValues_eq]
  exact .sequence (List.forall_mem_map.mpr each)

theorem regular_optionToValue {n? : Option Node} (each : ∀ n ∈ n?, n.toValue.Regular) :
    ∀ v ∈ optionToValue n?, v.Regular := by
  rw [optionToValue_eq]
  intro v mem
  obtain ⟨n, given, rfl⟩ := Option.map_eq_some_iff.mp mem
  exact each n given

theorem regular_conditionFields {c : Condition Node} (each : ∀ n ∈ c.cases, n.toValue.Regular) :
    ∀ field ∈ conditionFields c, field.2.Regular := by
  obtain ⟨names, multi, cases⟩ := c
  simp only [conditionFields, List.forall_mem_cons, List.not_mem_nil, false_imp_iff, implies_true,
    and_true]
  refine ⟨?_, regular_toValues each⟩
  cases multi with
  | true => exact Value.regular_texts names
  | false => exact .text _

theorem regular_ruleFields {rule : LabelRule Node}
    (each : ∀ n ∈ rule.condition.cases, n.toValue.Regular) :
    (Value.record (ruleFields rule)).Regular := by
  obtain ⟨⟨names, multi, cases⟩, labels, fallback⟩ := rule
  refine Value.regular_record ?_ ?_
  · cases fallback <;> simp [ruleFields, conditionFields, Value.option]
  · simp only [ruleFields, List.forall_mem_append, List.forall_mem_singleton]
    exact ⟨⟨regular_conditionFields each, Value.regular_texts labels⟩,
      Value.regular_option fun label _ => .text label⟩

theorem regular_conditionalFields {source : Conditional Node}
    (each : ∀ n ∈ (Node.conditional source).children, n.toValue.Regular) :
    (Value.record (conditionalFields source)).Regular := by
  obtain ⟨serial, ⟨names, multi, cases⟩, outcomes, fallback, labels, fallbackLabel⟩ := source
  simp only [children, List.forall_mem_append] at each
  obtain ⟨⟨in_cases, in_outcomes⟩, in_fallback⟩ := each
  refine Value.regular_record ?_ ?_
  · cases fallback <;> cases labels <;> cases fallbackLabel <;>
      simp [conditionalFields, conditionFields, Value.option, optionToValue]
  · simp only [conditionalFields, List.forall_mem_append, List.forall_mem_singleton]
    exact ⟨⟨⟨⟨regular_conditionFields in_cases, regular_toValues in_outcomes⟩,
      Value.regular_option (regular_optionToValue fun n mem =>
        in_fallback n (Option.mem_toList.mpr mem))⟩,
      Value.regular_option fun ls _ => Value.regular_texts ls⟩,
      Value.regular_option fun label _ => .text label⟩

theorem regular_scaledFields {base : Option Node} {scales : List Scalar}
    {labels : Option (List String)} (each : ∀ b ∈ base, b.toValue.Regular) :
    (Value.record (scaledFields (optionToValue base) scales labels)).Regular := by
  refine Value.regular_record ?_ ?_
  · cases base <;> cases labels <;> simp [scaledFields, Value.option, optionToValue]
  · simp only [scaledFields, List.forall_mem_append, List.forall_mem_singleton]
    exact ⟨⟨Value.regular_option (regular_optionToValue each),
      .sequence (List.forall_mem_map.mpr fun s _ => s.regular_toValue)⟩,
      Value.regular_option fun ls _ => Value.regular_texts ls⟩

/-- The view of a tree is regular if those of the trees directly below it are. -/
theorem regular_of_children {n : Node} (keys : n.KeysDiffer)
    (each : ∀ child ∈ n.children, child.toValue.Regular) : n.toValue.Regular := by
  cases n with
  | scalar s => exact s.regular_toValue
  | interval range =>
    refine .tagged "R" (.sequence ?_)
    simp only [List.forall_mem_cons, List.not_mem_nil, false_imp_iff, implies_true, and_true]
    exact ⟨range.min.regular_toValue, range.max.regular_toValue⟩
  | tagged t => exact .tagged t.tag t.value.regular_toValue
  | container form children =>
    cases form with
    | sequence => exact regular_toValues each
    | mapping names =>
      rw [toValue, toValues_eq, List.zip_map]
      refine .mapping ?_ (List.forall_mem_map.mpr fun entry _ => entry.1.regular_toValue)
        (List.forall_mem_map.mpr fun entry mem => each entry.2 (List.of_mem_zip mem).2)
      rw [List.pairwise_map]
      have inside : ((names.zip children).map Prod.fst).Sublist names := by
        rw [List.zip_eq_zip_take_min, List.map_fst_zip (by simp)]
        exact List.take_sublist _ _
      exact List.pairwise_map.mp (keys.sublist inside)
    | record kind id names =>
      rw [toValue, toValues_eq, pickOrdered_map]
      refine .tagged kind.tag
        (Value.regular_record ?_ (List.forall_mem_map.mpr fun field mem => ?_))
      · rw [List.map_map]
        exact nodup_pickOrdered kind names children
      · exact each field.2 (List.of_mem_zip (mem_of_mem_pickOrdered mem).2).2
  | choice options => exact .tagged "ProcList" (regular_toValues each)
  | labelledChoice options =>
    rw [toValue, optionValues_eq]
    refine .tagged "ProcListLabelled" (.sequence (List.forall_mem_map.mpr fun option mem => ?_))
    have value : option.1.toValue.Regular := each option.1 (List.mem_map_of_mem mem)
    exact Value.regular_record (by simp) (by simp [value, Value.Regular.text])
  | palette amount => exact .tagged "ProcColor" (.int _)
  | scaled base scales labels =>
    refine .tagged "ProcVector3Scaled" (regular_scaledFields fun b mem => each b ?_)
    simp [children, Option.mem_def.mp mem]
  | repetition amount value =>
    have value : value.toValue.Regular := each value (by simp [children])
    exact .tagged "ProcRepeatChoice"
      (Value.regular_record (by simp) (by simp [value, Value.Regular.int]))
  | restriction amount item =>
    have item : item.toValue.Regular := each item (by simp [children])
    exact .tagged "ProcRestrictCombinations"
      (Value.regular_record (by simp) (by simp [item, Value.Regular.int]))
  | conditional source => exact .tagged "ProcIf" (regular_conditionalFields each)
  | labelRule rule => exact .tagged "ProcIfLabels" (regular_ruleFields each)
  | placeholder source => exact .null

/-- The keys of every mapping in a tree stand for different values. -/
def DistinctKeys (n : Node) : Prop :=
  ∀ m : Node, m.PartOf n → m.KeysDiffer

theorem DistinctKeys.root {n : Node} (h : n.DistinctKeys) : n.KeysDiffer :=
  h n (.whole n)

theorem DistinctKeys.child {n child : Node} (h : n.DistinctKeys) (mem : child ∈ n.children) :
    child.DistinctKeys :=
  fun m part => h m (.inside mem part)

theorem regular_settings {rules : List (LabelRule Node)}
    (each : ∀ rule ∈ rules, ∀ n ∈ rule.condition.cases, n.toValue.Regular) :
    (settings rules).toValue.Regular := by
  refine regular_of_children (List.pairwise_singleton _ _) (List.forall_mem_singleton.mpr ?_)
  refine regular_of_children trivial (List.forall_mem_map.mpr fun rule mem => ?_)
  exact regular_of_children trivial (each rule mem)

/-- The plain view of a readable tree is regular, if its keys are distinct. -/
theorem Readable.regular_toValue {n : Node} (readable : n.Readable) (keys : n.DistinctKeys) :
    n.toValue.Regular := by
  have amounts : ∀ amount, (ofAmount amount).toValue.Regular := fun _ => .int _
  induction readable with
  | scalar | interval | tagged | palette =>
    exact regular_of_children keys.root (by simp [children, amounts])
  | sequence each ih | mapping length each ih | choice each checked ih =>
    exact regular_of_children keys.root fun n mem => ih n mem (keys.child mem)
  | @record kind id names children rules length known distinct each settings cases checked ih
      ihCases =>
    refine regular_of_children keys.root (forall_mem_zip_snd length fun field mem => ?_)
    have inside : field.2 ∈ children := (List.of_mem_zip mem).2
    by_cases holds : HoldsSettings kind field.1
    · have same := settings field mem holds
      have inner : (Node.settings rules).DistinctKeys := same ▸ keys.child inside
      rw [same]
      refine regular_settings fun rule among n case => ihCases rule among n case ?_
      have listed : (Node.labelRule rule).DistinctKeys :=
        (inner.child List.mem_cons_self).child (List.mem_map_of_mem among)
      exact listed.child case
    · exact ih field mem holds (keys.child inside)
  | labelledChoice each checked ih =>
    refine regular_of_children keys.root (List.forall_mem_map.mpr fun option mem => ?_)
    exact ih option mem (keys.child (List.mem_map_of_mem mem))
  | @scaled base scales labels each checked ih =>
    refine regular_of_children keys.root (List.forall_mem_append.mpr ⟨fun b mem => ?_, ?_⟩)
    · exact ih b (Option.mem_toList.mp mem) (keys.child (List.mem_append_left _ mem))
    · exact List.forall_mem_map.mpr fun s _ => s.regular_toValue
  | repetition amount each ih | restriction amount each ih =>
    have inner := ih (keys.child (by simp [children]))
    exact regular_of_children keys.root (by simp [children, amounts, inner])
  | conditional each checked direct given ih =>
    exact regular_of_children keys.root fun n mem => ih n mem (keys.child mem)

end Node

namespace Template

/-- Read what stands below a procedural tag, with a reader for its parts. Label rules stand among
the settings of a document, where they have a reader of their own. -/
def readTag (read : Value → Reading Node) (tag : String) (view : Value) : Reading Node :=
  if tag = "ProcIfLabels" then readLabelRule read view else readTagged read tag view

end Template

namespace Node

open Template

/-- The plain view of a procedural tag stands below this tag. -/
theorem exists_view {n : Node} {tag : String} (is : n.tag? = some tag) :
    tag ∈ reservedTags ∧ ∃ view, n.toValue = .tagged tag view := by
  cases n <;> cases is <;> exact ⟨by simp [reservedTags], _, rfl⟩

/-- A readable tag is read from its view. -/
theorem Readable.readTag_toValue {n : Node} (readable : n.Readable) {tag : String}
    (is : n.tag? = some tag) (fit : n.AmountsFit) {view : Value}
    (viewed : n.toValue = .tagged tag view) {depth : Nat} (deep : view.height ≤ depth) :
    readTag (readToDepth depth) tag view = .ok n.tidy := by
  have other : tag ≠ "ProcIfLabels" := by
    rintro rfl
    cases readable <;> simp [tag?] at is
  rw [readTag, if_neg other, ← readNode_reserved (exists_view is).1, ← viewed]
  refine readable.readNode_toValue fit fun m readable fit lower =>
    readable.readToDepth_toValue fit ?_
  rw [viewed] at lower
  exact (Nat.le_of_lt_succ lower).trans deep

/-- A label rule is read from its view. -/
theorem readTag_ruleFields {rule : LabelRule Node}
    (readable : ∀ n ∈ rule.condition.cases, n.Readable)
    (checked : rule.Checked ∧ rule.condition.Direct) (fit : (Node.labelRule rule).AmountsFit)
    {depth : Nat} (deep : (Value.record (ruleFields rule)).height ≤ depth) :
    readTag (readToDepth depth) "ProcIfLabels" (.record (ruleFields rule)) =
      .ok (.labelRule (tidyRule rule)) := by
  rw [readTag, if_pos rfl]
  refine readLabelRule_toValue (fun n mem => ?_) checked.1 checked.2
  refine (readable n mem).readToDepth_toValue (fit.child mem) (le_trans (le_of_lt ?_) deep)
  calc n.toValue.height
      < (Value.sequence (toValues rule.condition.cases)).height :=
        Value.height_lt_of_mem (toValue_mem_toValues mem)
    _ < (Value.record (ruleFields rule)).height :=
        Value.height_lt_of_lookup (lookup_ruleFields rule).2.1

/-- Writing and reading of procedural tags agree. Every tag of a document is written as its plain
view. If the amounts in it fit, the reader of the tag accepts the view and gives the tag back,
without ids and with records in order; and the view is regular if no two keys of a mapping stand
for the same value. -/
theorem readTag_view {text source : String} {document n : Node}
    (parsed : Node.parse text source = .ok document) (part : n.PartOf document) {tag : String}
    (is : n.tag? = some tag) (fit : n.AmountsFit) :
    ∃ view, n.toValue = .tagged tag view ∧
      n.toFlow = .ok (Value.tagged tag view).flow ∧
      Layout.ofNode n = .ok (Value.tagged tag view).layout ∧
      (n.DistinctKeys → view.Regular) ∧
      ∀ depth, view.height ≤ depth → readTag (readToDepth depth) tag view = .ok n.tidy := by
  obtain ⟨-, view, viewed⟩ := exists_view is
  refine ⟨view, viewed, ?_⟩
  rw [← viewed]
  obtain readable | ⟨of, -⟩ := (readable_of_parse parsed).traced n part
  · refine ⟨readable.toFlow_eq, readable.layout_eq, fun keys => ?_,
      fun depth deep => readable.readTag_toValue is fit viewed deep⟩
    have regular := readable.regular_toValue keys
    rw [viewed] at regular
    exact regular.within (.inner .whole)
  · cases of with
    | settings | list => cases is
    | @rule rule cases checked =>
      cases is
      cases viewed
      refine ⟨ruleToFlow_eq fun n mem => (cases n mem).toFlow_eq,
        Layout.ofRule_eq cases fun n mem => (cases n mem).layout_eq, fun keys => ?_,
        fun depth deep => readTag_ruleFields cases checked fit deep⟩
      exact regular_ruleFields fun n mem => (cases n mem).regular_toValue (keys.child mem)

/-- An item that is placed twice. -/
def twoWalls : Node :=
  .repetition 2 wallItem

theorem parse_twoWalls :
    Node.parse
      "!ProcRepeatChoice {amount: 2, value: !Item {id: wall, sizes: !ProcList [1, 2], name: Wall}}"
      "walls" = .ok twoWalls := by
  let fields : List (String × Value) := [("amount", .int 2), ("value", wallValue)]
  have amount : (Value.int 2).Legible := .scalar (.int (by decide) (by decide))
  have legible : (Value.tagged "ProcRepeatChoice" (.record fields)).Legible := by
    refine legible_reserved (by decide) rfl (.mapping ?_ (by decide) ?_)
    · simp only [fields, List.map_cons, List.map_nil, List.forall_mem_cons, List.not_mem_nil,
        false_imp_iff, implies_true, and_true]
      exact ⟨.text (by decide), .text (by decide)⟩
    · simp [fields, amount, legible_wallValue]
  have written : (Value.tagged "ProcRepeatChoice" (.record fields)).flow =
      "!ProcRepeatChoice {amount: 2, value: !Item {id: wall, sizes: !ProcList [1, 2], name: Wall}}" :=
    by decide
  rw [← written]
  exact (parse_of_ofChars? (legible.ofChars?_flow (by decide))).trans (by rfl)

/-- The repetition is read back, and its item has lost its id and has its name first. -/
theorem readTag_view_twoWalls :
    ∃ view, twoWalls.toFlow = .ok (Value.tagged "ProcRepeatChoice" view).flow ∧
      Layout.ofNode twoWalls = .ok (Value.tagged "ProcRepeatChoice" view).layout ∧
      readTag (readToDepth view.height) "ProcRepeatChoice" view =
        .ok (.repetition 2 (.record .item none
          [("name", text "Wall"), ("sizes", .choice [int 1, int 2])])) := by
  have fit : twoWalls.AmountsFit := by
    have amount : twoWalls.AmountFits := by
      show (2 : UInt64).toNat < 2 ^ 63
      decide
    have shown : (ofAmount 2).Legible := legible_of_children trivial nofun
    have legible : twoWalls.Legible :=
      legible_of_children amount (by simp [twoWalls, children, shown, legible_wallItem])
    exact legible.amountsFit
  obtain ⟨view, -, flow, layout, -, read⟩ :=
    readTag_view parse_twoWalls (.whole twoWalls) rfl fit
  exact ⟨view, flow, layout, read _ le_rfl⟩

/-- A repetition whose amount is the first that is too large for a signed integer. -/
def vast : Node :=
  .repetition 9223372036854775808 (int 1)

theorem parse_vast :
    Node.parse "!ProcRepeatChoice {amount: 9223372036854775808, value: 1}" "vast" = .ok vast := by
  have read : (Value.ofChars?
      "!ProcRepeatChoice {amount: 9223372036854775808, value: 1}".toList).any
      (Value.tagged "ProcRepeatChoice"
        (.record [("amount", .int 9223372036854775808), ("value", .int 1)])).alike = true := by
    decide +kernel
  rw [parse_of_alike read]
  rfl

/-- The view shows the amount as a negative number, which no reader of a repetition accepts. -/
theorem readTag_view_fails_vast :
    Node.parse "!ProcRepeatChoice {amount: 9223372036854775808, value: 1}" "vast" = .ok vast ∧
      vast.toFlow = .ok "!ProcRepeatChoice {amount: -9223372036854775808, value: 1}" ∧
      ∃ view, vast.toValue = .tagged "ProcRepeatChoice" view ∧
        readTag (readToDepth view.height) "ProcRepeatChoice" view ≠ .ok vast.tidy :=
  ⟨parse_vast, by rfl, _, rfl, nofun⟩

end Node

end ArenaVariations
