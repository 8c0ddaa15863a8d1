import ArenaVariations.Proofs.Layout.PlainView
import ArenaVariations.Proofs.Node.Waiting

/-!
# Tidy trees

What a tree looks like after it was written and read: records have no ids and have their fields in
the declared order, everywhere in the tree. Tidying keeps the plain view, and it keeps what the
checks of tags look at.
-/

namespace ArenaVariations

open Yaml

namespace Node

mutual

/-- Remove all ids and put the fields of all records in their declared order. Conditionals are not
numbered. -/
def tidy : Node → Node
  | container .sequence items => .sequence (tidyAll items)
  | container (.mapping keys) children => .container (.mapping keys) (tidyAll children)
  | container (.record kind _ names) children =>
    .record kind none (pickOrdered kind.fields names (tidyAll children))
  | choice options => .choice (tidyAll options)
  | labelledChoice options => .labelledChoice (tidyOptions options)
  | scaled base scales labels => .scaled (tidyOption base) scales labels
  | repetition amount value => .repetition amount value.tidy
  | restriction amount item => .restriction amount item.tidy
  | conditional source => .conditional (tidyConditional source)
  | labelRule rule => .labelRule (tidyRule rule)
  | n@(scalar _) | n@(interval _) | n@(tagged _) | n@(palette _) | n@(placeholder _) => n
termination_by structural n => n

/-- Tidy the trees of a list. -/
def tidyAll : List Node → List Node
  | [] => []
  | n :: ns => n.tidy :: tidyAll ns
termination_by structural ns => ns

/-- Tidy labelled options. -/
def tidyOptions : List (Node × String) → List (Node × String)
  | [] => []
  | o :: os => tidyLabelled o :: tidyOptions os
termination_by structural os => os

/-- Tidy a labelled option. -/
def tidyLabelled : Node × String → Node × String
  | (value, label) => (value.tidy, label)
termination_by structural o => o

/-- Tidy an optional tree. -/
def tidyOption : Option Node → Option Node
  | none => none
  | some n => some n.tidy
termination_by structural o => o

/-- Tidy the cases of a condition. -/
def tidyCondition : Condition Node → Condition Node
  | ⟨references, multi, cases⟩ => ⟨references, multi, tidyAll cases⟩
termination_by structural c => c

/-- Tidy the values of a conditional. -/
def tidyConditional : Conditional Node → Conditional Node
  | ⟨_, condition, outcomes, fallback, labels, fallbackLabel⟩ =>
    ⟨0, tidyCondition condition, tidyAll outcomes, tidyOption fallback, labels, fallbackLabel⟩
termination_by structural c => c

/-- Tidy the cases of a label rule. -/
def tidyRule : LabelRule Node → LabelRule Node
  | ⟨condition, labels, fallback⟩ => ⟨tidyCondition condition, labels, fallback⟩
termination_by structural r => r

end

theorem tidyAll_eq (ns : List Node) : tidyAll ns = ns.map tidy := by
  induction ns with
  | nil => rfl
  | cons n ns ih => rw [tidyAll, ih, List.map_cons]

theorem tidyOptions_eq (options : List (Node × String)) :
    tidyOptions options = options.map fun o => (o.1.tidy, o.2) := by
  induction options with
  | nil => rfl
  | cons o os ih => rw [tidyOptions, ih, tidyLabelled, List.map_cons]

theorem tidyOption_eq (n? : Option Node) : tidyOption n? = n?.map tidy := by
  cases n? <;> rfl

theorem tidyCondition_eq (c : Condition Node) :
    tidyCondition c = ⟨c.references, c.multi, c.cases.map tidy⟩ := by
  obtain ⟨references, multi, cases⟩ := c
  rw [tidyCondition, tidyAll_eq]

end Node

section

variable {β : Type} (wanted names : List String) (values : List β)

/-- Putting fields in order changes nothing under their names. -/
theorem find?_pickOrdered {name : String} (mem : name ∈ wanted) :
    (pickOrdered wanted names values).find? (fun entry => entry.1 == name) =
      (names.zip values).find? fun entry => entry.1 == name := by
  induction wanted with
  | nil => cases mem
  | cons first wanted ih =>
    have start : pickOrdered (first :: wanted) names values =
        (((names.zip values).find? fun entry => entry.1 == first).map
          fun entry => (first, entry.2)).toList ++ pickOrdered wanted names values := by
      rw [pickOrdered, List.filterMap_cons]
      split <;> rename_i found <;> rw [found] <;> rfl
    rw [start, List.find?_append]
    cases found : (names.zip values).find? fun entry => entry.1 == first with
    | none =>
      rw [Option.map_none, Option.toList_none, List.find?_nil, Option.none_or]
      obtain rfl | among := List.mem_cons.mp mem
      · rw [found, List.find?_eq_none]
        exact fun entry picked =>
          List.find?_eq_none.mp found entry (mem_of_mem_pickOrdered picked).2
      · exact ih among
    | some entry =>
      have key : entry.1 = first := by simpa using List.find?_some found
      rw [Option.map_some, Option.toList_some, List.find?_singleton]
      by_cases same : first = name
      · subst same
        obtain ⟨name, value⟩ := entry
        obtain rfl : name = first := key
        simp [found]
      · have among : name ∈ wanted := (List.mem_cons.mp mem).resolve_left (Ne.symm same)
        rw [if_neg (by simpa using same), Option.none_or, ih among]

/-- Fields stay in order. -/
theorem pickOrdered_pickOrdered :
    pickOrdered wanted ((pickOrdered wanted names values).map Prod.fst)
      ((pickOrdered wanted names values).map Prod.snd) = pickOrdered wanted names values := by
  have zipped : ((pickOrdered wanted names values).map Prod.fst).zip
      ((pickOrdered wanted names values).map Prod.snd) = pickOrdered wanted names values := by
    rw [List.zip_map', List.map_id']
  rw [pickOrdered, zipped]
  refine List.filterMap_congr fun name mem => ?_
  rw [find?_pickOrdered wanted names values mem]

end

namespace Node

mutual

/-- A tidy tree is written like the tree itself. -/
theorem toValue_tidy (n : Node) : n.tidy.toValue = n.toValue := by
  cases n with
  | scalar | interval | tagged | palette | placeholder => rfl
  | container form children =>
    cases form with
    | sequence => rw [tidy, toValue, toValue, toValues_tidyAll children]
    | mapping => rw [tidy, toValue, toValue, toValues_tidyAll children]
    | record kind id names =>
      rw [tidy, record, toValue, toValue, toValues_eq, pickOrdered_map, pickOrdered_pickOrdered,
        ← pickOrdered_map, ← toValues_eq, toValues_tidyAll children]
  | choice options => rw [tidy, toValue, toValue, toValues_tidyAll options]
  | labelledChoice options => rw [tidy, toValue, toValue, optionValues_tidyOptions options]
  | scaled base => rw [tidy, toValue, toValue, optionToValue_tidyOption base]
  | repetition amount value => rw [tidy, toValue, toValue, toValue_tidy value]
  | restriction amount item => rw [tidy, toValue, toValue, toValue_tidy item]
  | conditional source => rw [tidy, toValue, toValue, conditionalFields_tidyConditional source]
  | labelRule rule => rw [tidy, toValue, toValue, ruleFields_tidyRule rule]

theorem toValues_tidyAll (ns : List Node) : toValues (tidyAll ns) = toValues ns := by
  cases ns with
  | nil => rfl
  | cons n ns => rw [tidyAll, toValues, toValues, toValue_tidy n, toValues_tidyAll ns]

theorem optionValues_tidyOptions (options : List (Node × String)) :
    optionValues (tidyOptions options) = optionValues options := by
  cases options with
  | nil => rfl
  | cons o os =>
    rw [tidyOptions, optionValues, optionValues, labelledValue_tidyLabelled o,
      optionValues_tidyOptions os]

theorem labelledValue_tidyLabelled (option : Node × String) :
    labelledValue (tidyLabelled option) = labelledValue option := by
  obtain ⟨value, label⟩ := option
  rw [tidyLabelled, labelledValue, labelledValue, toValue_tidy value]

theorem optionToValue_tidyOption (n? : Option Node) :
    optionToValue (tidyOption n?) = optionToValue n? := by
  cases n? with
  | none => rfl
  | some n => rw [tidyOption, optionToValue, optionToValue, toValue_tidy n]

theorem conditionFields_tidyCondition (c : Condition Node) :
    conditionFields (tidyCondition c) = conditionFields c := by
  obtain ⟨references, multi, cases⟩ := c
  rw [tidyCondition, conditionFields, conditionFields, toValues_tidyAll cases]

theorem conditionalFields_tidyConditional (source : Conditional Node) :
    conditionalFields (tidyConditional source) = conditionalFields source := by
  obtain ⟨serial, condition, outcomes, fallback, labels, fallbackLabel⟩ := source
  rw [tidyConditional, conditionalFields, conditionalFields,
    conditionFields_tidyCondition condition, toValues_tidyAll outcomes,
    optionToValue_tidyOption fallback]

theorem ruleFields_tidyRule (rule : LabelRule Node) :
    ruleFields (tidyRule rule) = ruleFields rule := by
  obtain ⟨condition, labels, fallback⟩ := rule
  rw [tidyRule, ruleFields, ruleFields, conditionFields_tidyCondition condition]

end

mutual

/-- The numbers of conditionals are not written. -/
theorem toValue_number (n : Node) (k : Nat) : (n.number k).1.toValue = n.toValue := by
  cases n with
  | container form children =>
    have same := toValues_numberList children k
    cases form <;> simp only [number, toValue, same]
  | repetition amount value => simp only [number, toValue, toValue_number value k]
  | restriction amount item => simp only [number, toValue, toValue_number item k]
  | conditional source =>
    obtain ⟨serial, condition, outcomes, fallback, labels, fallbackLabel⟩ := source
    rfl
  | scalar | interval | tagged | choice | labelledChoice | palette | scaled | labelRule
  | placeholder => rfl

theorem toValues_numberList (ns : List Node) (k : Nat) :
    toValues (numberList k ns).1 = toValues ns := by
  cases ns with
  | nil => rfl
  | cons n ns => simp only [numberList, toValues, toValue_number n k, toValues_numberList ns]

end

theorem isStatic_tidy {n : Node} (static : n.isStatic = true) : n.tidy.isStatic = true := by
  induction n using container_induction with
  | container form children ih =>
    have each := allStatic_iff.mp static
    cases form with
    | sequence | mapping =>
      refine allStatic_iff.mpr ?_
      rw [tidyAll_eq]
      exact List.forall_mem_map.mpr fun n mem => ih n mem (each n mem)
    | record kind id names =>
      rw [tidy, tidyAll_eq, pickOrdered_map]
      refine allStatic_iff.mpr
        (List.forall_mem_map.mpr (List.forall_mem_map.mpr fun field mem => ?_))
      have inside := (List.of_mem_zip (mem_of_mem_pickOrdered mem).2).2
      exact ih _ inside (each _ inside)
  | leaf n other =>
    cases n with
    | container form children => exact absurd rfl (other form children)
    | scalar | interval | tagged => rfl
    | _ => cases static

theorem length_values_tidy (n : Node) :
    (Condition.values n.tidy).length = (Condition.values n).length := by
  cases n with
  | container form children =>
    cases form with
    | sequence => rw [tidy, Condition.values, Condition.values, tidyAll_eq, List.length_map]
    | mapping | record => rfl
  | _ => rfl

/-- A record keeps its fields. -/
theorem field?_tidy {kind : RecordKind} {name : String} (mem : name ∈ kind.fields)
    (id : Option String) (names : List String) (children : List Node) :
    (container (.record kind id names) children).tidy.field? name =
      ((container (.record kind id names) children).field? name).map tidy := by
  rw [tidy, record, field?, field?, lookup, lookup, List.zip_map', List.map_id',
    find?_pickOrdered kind.fields names _ mem, tidyAll_eq, List.zip_map_right, List.find?_map,
    Option.map_map, Option.map_map]
  rfl

theorem number?_tidy (n : Node) : n.tidy.number? = n.number? := by
  cases n with
  | container form => cases form <;> rfl
  | _ => rfl

/-- A vector keeps its components. -/
theorem components?_tidy (n : Node) : n.tidy.components? = n.components? := by
  cases n with
  | container form children =>
    cases form with
    | record kind id names =>
      cases kind with
      | vector3 =>
        have same : ∀ name ∈ RecordKind.vector3.fields,
            ((container (.record .vector3 id names) children).tidy.field? name).bind number? =
              ((container (.record .vector3 id names) children).field? name).bind number? := by
          intro name mem
          rw [field?_tidy mem, Option.bind_map]
          exact congrArg _ (funext number?_tidy)
        have x := same "x" (by decide)
        have y := same "y" (by decide)
        have z := same "z" (by decide)
        rw [tidy] at x y z ⊢
        simp only [components?, record] at x y z ⊢
        rw [x, y, z]
      | _ => rfl
    | _ => rfl
  | _ => rfl

end Node

end ArenaVariations
