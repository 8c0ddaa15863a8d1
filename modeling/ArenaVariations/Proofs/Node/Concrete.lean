import ArenaVariations.Layout.Block
import ArenaVariations.Proofs.Node.Waiting

/-!
# Concrete trees

A tree is concrete if neither a procedural tag nor a placeholder stands anywhere in it. For this
the checks of tags have a decision of their own, `Node.isStatic`, which agrees. A concrete tree
can always be written, on one line and as a document: placeholders are the only trees without a
text.
-/

namespace ArenaVariations

/-- The elements at one position of two lists are a pair of the zipped lists. -/
theorem getElem_mem_zip {α β : Type} {as : List α} {bs : List β} {i : Nat} (left : i < as.length)
    (right : i < bs.length) : (as[i], bs[i]) ∈ as.zip bs :=
  List.mem_iff_getElem.mpr ⟨i, by rw [List.length_zip]; omega, List.getElem_zip⟩

namespace Node

theorem PartOf.trans {l m n : Node} (h : l.PartOf m) (h' : m.PartOf n) : l.PartOf n := by
  induction h' with
  | whole => exact h
  | inside mem _ ih => exact .inside mem ih

theorem PartOf.of_mem {child n : Node} (mem : child ∈ n.children) : child.PartOf n :=
  .inside mem (.whole child)

/-- What stands in a tree is the tree, or stands in one of its children. -/
theorem partOf_iff {m n : Node} :
    m.PartOf n ↔ m = n ∨ ∃ child ∈ n.children, m.PartOf child := by
  constructor
  · intro h
    cases h with
    | whole => exact .inl rfl
    | inside mem part => exact .inr ⟨_, mem, part⟩
  · rintro (rfl | ⟨child, mem, part⟩)
    · exact .whole _
    · exact .inside mem part

theorem partOf_container {m : Node} {form : Form} {children : List Node} :
    m.PartOf (container form children) ↔
      m = container form children ∨ ∃ child ∈ children, m.PartOf child :=
  partOf_iff

/-- A leaf is its only part. -/
theorem partOf_leaf {m n : Node} (leaf : n.children = []) : m.PartOf n ↔ m = n := by
  constructor
  · intro h
    cases h with
    | whole => rfl
    | inside mem => exact absurd (leaf ▸ mem) List.not_mem_nil
  · rintro rfl
    exact .whole m

/-- Neither a procedural tag nor a placeholder stands in the tree. -/
def Concrete (n : Node) : Prop :=
  ∀ m : Node, m.PartOf n → m.tag? = none ∧ m.rule ≠ .placeholder

theorem isStatic_iff_concrete {n : Node} : n.isStatic = true ↔ n.Concrete := by
  induction n using container_induction with
  | container form children ih =>
    rw [isStatic, allStatic_iff]
    constructor
    · intro static m part
      obtain rfl | ⟨child, mem, part⟩ := partOf_container.mp part
      · cases form <;> exact ⟨rfl, by simp [rule]⟩
      · exact (ih child mem).mp (static child mem) m part
    · intro concrete child mem
      exact (ih child mem).mpr fun m part => concrete m (.inside mem part)
  | leaf n other =>
    cases n with
    | container form children => exact absurd rfl (other form children)
    | scalar | interval | tagged =>
      refine iff_of_true rfl fun m part => ?_
      obtain rfl := (partOf_leaf rfl).mp part
      exact ⟨rfl, by simp [rule]⟩
    | choice | labelledChoice | palette | scaled | repetition | restriction | conditional
    | labelRule =>
      refine iff_of_false Bool.false_ne_true fun concrete => ?_
      exact absurd (concrete _ (.whole _)).1 (by simp [tag?])
    | placeholder =>
      refine iff_of_false Bool.false_ne_true fun concrete => ?_
      exact absurd rfl (concrete _ (.whole _)).2

theorem freeOf_of_isStatic {n : Node} (static : n.isStatic = true) :
    n.FreeOf [.labelRule, .placeholder] := by
  intro m part mem
  obtain ⟨untagged, open_⟩ := isStatic_iff_concrete.mp static m part
  cases m with
  | labelRule => cases untagged
  | placeholder => exact open_ rfl
  | container form => cases form <;> simp [rule] at mem
  | _ => simp [rule] at mem

theorem exists_scalar_of_number? {n : Node} (number : n.number?.isSome = true) :
    ∃ s, n = scalar s := by
  cases n with
  | scalar s => exact ⟨s, rfl⟩
  | _ => cases number

/-- What stands in a static tree is a leaf or a container. -/
theorem cases_of_isStatic {n : Node} (static : n.isStatic = true) :
    (∃ s, n = scalar s) ∨ (∃ range, n = interval range) ∨ (∃ t, n = tagged t) ∨
      ∃ form children, n = container form children := by
  cases n <;> simp_all [isStatic]

/-- A tree directly below another one is smaller, or it is a leaf. -/
theorem sizeOf_lt_of_mem_children {child n : Node} (mem : child ∈ n.children) :
    (∃ s, child = scalar s) ∨ sizeOf child < sizeOf n := by
  cases n with
  | scalar | interval | tagged | placeholder => cases mem
  | palette amount => exact .inl ⟨_, List.mem_singleton.mp mem⟩
  | container form children =>
    have := List.sizeOf_lt_of_mem (show child ∈ children from mem)
    exact .inr (by simp only [container.sizeOf_spec]; omega)
  | choice options =>
    have := List.sizeOf_lt_of_mem (show child ∈ options from mem)
    exact .inr (by simp only [choice.sizeOf_spec]; omega)
  | labelledChoice options =>
    obtain ⟨⟨value, label⟩, among, rfl⟩ := List.mem_map.mp mem
    have := List.sizeOf_lt_of_mem among
    exact .inr (by simp only [labelledChoice.sizeOf_spec, Prod.mk.sizeOf_spec] at *; omega)
  | scaled base scales labels =>
    obtain mem | mem := List.mem_append.mp mem
    · obtain rfl := Option.mem_toList.mp mem
      exact .inr (by simp only [scaled.sizeOf_spec, Option.some.sizeOf_spec]; omega)
    · obtain ⟨s, -, rfl⟩ := List.mem_map.mp mem
      exact .inl ⟨s, rfl⟩
  | repetition amount value | restriction amount value =>
    obtain rfl | mem := List.mem_cons.mp mem
    · exact .inl ⟨_, rfl⟩
    · obtain rfl := List.mem_singleton.mp mem
      exact .inr (by simp only [repetition.sizeOf_spec, restriction.sizeOf_spec]; omega)
  | conditional source =>
    obtain ⟨serial, ⟨references, multi, cases⟩, outcomes, fallback, labels, fallbackLabel⟩ := source
    refine .inr ?_
    simp only [conditional.sizeOf_spec, Conditional.mk.sizeOf_spec, Condition.mk.sizeOf_spec]
    simp only [children, List.mem_append] at mem
    obtain (among | among) | given := mem
    · have := List.sizeOf_lt_of_mem among
      omega
    · have := List.sizeOf_lt_of_mem among
      omega
    · obtain rfl := Option.mem_toList.mp given
      simp only [Option.some.sizeOf_spec]
      omega
  | labelRule rule =>
    obtain ⟨⟨references, multi, cases⟩, labels, fallback⟩ := rule
    have := List.sizeOf_lt_of_mem (show child ∈ cases from mem)
    refine .inr ?_
    simp only [labelRule.sizeOf_spec, LabelRule.mk.sizeOf_spec, Condition.mk.sizeOf_spec]
    omega

/-- What holds of a tree if it holds of all trees directly below it, inside of tags as well, holds
of every tree. -/
@[elab_as_elim]
theorem children_induction {motive : Node → Prop}
    (step : ∀ n : Node, (∀ child ∈ n.children, motive child) → motive n) (n : Node) : motive n := by
  induction n using (measure (sizeOf : Node → Nat)).wf.induction with
  | h n ih =>
    refine step n fun child mem => ?_
    obtain ⟨s, rfl⟩ | smaller := sizeOf_lt_of_mem_children mem
    · exact step (scalar s) nofun
    · exact ih child smaller

/-- Joining results succeeds if each of them is a success. -/
theorem pickAll_ok {β : Type} {entries : List (String × Writing β)}
    (each : ∀ entry ∈ entries, ∃ value, entry.2 = .ok value) :
    ∃ values, pickAll entries = .ok values := by
  induction entries with
  | nil => exact ⟨[], rfl⟩
  | cons entry rest ih =>
    obtain ⟨name, result⟩ := entry
    obtain ⟨⟨value, rfl⟩, others⟩ := List.forall_mem_cons.mp each
    obtain ⟨values, picked⟩ := ih others
    exact ⟨(name, value) :: values, by rw [pickAll, picked]; rfl⟩

/-- What is picked is picked from the values. -/
theorem snd_mem_of_mem_pickOrdered {β : Type} {wanted names : List String} {values : List β}
    {entry : String × β} (mem : entry ∈ pickOrdered wanted names values) :
    entry.2 ∈ values := by
  obtain ⟨name, -, picked⟩ := List.mem_filterMap.mp mem
  obtain ⟨⟨address, value⟩, found, rfl⟩ := Option.map_eq_some_iff.mp picked
  exact (List.of_mem_zip (List.mem_of_find?_eq_some found)).2

theorem eachToFlow_eq_map (ns : List Node) : eachToFlow ns = ns.map toFlow := by
  induction ns with
  | nil => rfl
  | cons n ns ih => rw [eachToFlow, ih, List.map_cons]

theorem allToFlow_ok {ns : List Node} (each : ∀ n ∈ ns, ∃ text, n.toFlow = .ok text) :
    ∃ texts, allToFlow ns = .ok texts := by
  induction ns with
  | nil => exact ⟨[], rfl⟩
  | cons n ns ih =>
    obtain ⟨⟨text, written⟩, others⟩ := List.forall_mem_cons.mp each
    obtain ⟨texts, rest⟩ := ih others
    exact ⟨text :: texts, by rw [allToFlow, written, rest]; rfl⟩

/-- Results of the trees under the names that occur can be joined. -/
theorem pickAll_pickOrdered_ok {β : Type} (wanted names : List String) {ns : List Node}
    {result : Node → Writing β} (each : ∀ n ∈ ns, ∃ value, result n = .ok value) :
    ∃ fields, pickAll (pickOrdered wanted names (ns.map result)) = .ok fields := by
  refine pickAll_ok fun entry mem => ?_
  obtain ⟨n, child, eq⟩ := List.mem_map.mp (snd_mem_of_mem_pickOrdered mem)
  exact eq ▸ each n child

theorem optionsToFlow_ok {options : List (Node × String)}
    (each : ∀ o ∈ options, ∃ text, o.1.toFlow = .ok text) :
    ∃ texts, optionsToFlow options = .ok texts := by
  induction options with
  | nil => exact ⟨[], rfl⟩
  | cons o os ih =>
    obtain ⟨⟨text, written⟩, others⟩ := List.forall_mem_cons.mp each
    obtain ⟨texts, rest⟩ := ih others
    exact ⟨_, by rw [optionsToFlow, labelledToFlow, written, rest]; rfl⟩

theorem optionToFlow_ok {n? : Option Node} (each : ∀ n ∈ n?, ∃ text, n.toFlow = .ok text) :
    ∃ text?, optionToFlow n? = .ok text? := by
  cases n? with
  | none => exact ⟨none, rfl⟩
  | some n =>
    obtain ⟨text, written⟩ := each n rfl
    exact ⟨some text, by rw [optionToFlow, written]; rfl⟩

theorem conditionToFlow_ok {c : Condition Node}
    (each : ∀ n ∈ c.cases, ∃ text, n.toFlow = .ok text) :
    ∃ fields, conditionToFlow c = .ok fields := by
  obtain ⟨names, multi, cases⟩ := c
  obtain ⟨texts, written⟩ := allToFlow_ok each
  exact ⟨_, by rw [conditionToFlow, written]; rfl⟩

/-- A tree without placeholders can be written on one line. -/
theorem toFlow_ok {n : Node} (free : n.FreeOf [.placeholder]) : ∃ text, n.toFlow = .ok text := by
  induction n using children_induction with
  | step n ih =>
    have each := fun child mem => ih child mem (free.child mem)
    cases n with
    | scalar | interval | tagged | palette => exact ⟨_, rfl⟩
    | placeholder => exact absurd (List.mem_singleton_self _) (freeOf_iff.mp free).1
    | container form children =>
      cases form with
      | sequence | mapping =>
        obtain ⟨texts, written⟩ : ∃ texts, allToFlow children = .ok texts := allToFlow_ok each
        exact ⟨_, by rw [toFlow, written]; rfl⟩
      | record kind id names =>
        have each : ∀ child ∈ children, ∃ text, child.toFlow = .ok text := each
        obtain ⟨fields, picked⟩ := pickAll_pickOrdered_ok kind.fields names each
        exact ⟨_, by rw [toFlow, eachToFlow_eq_map, picked]; rfl⟩
    | choice options =>
      obtain ⟨texts, written⟩ : ∃ texts, allToFlow options = .ok texts := allToFlow_ok each
      exact ⟨_, by rw [toFlow, written]; rfl⟩
    | labelledChoice options =>
      obtain ⟨texts, written⟩ := optionsToFlow_ok fun o mem =>
        each o.1 (List.mem_map_of_mem mem)
      exact ⟨_, by rw [toFlow, written]; rfl⟩
    | scaled base scales labels =>
      obtain ⟨text?, written⟩ := optionToFlow_ok fun b given =>
        each b (List.mem_append_left _ (Option.mem_toList.mpr given))
      exact ⟨_, by rw [toFlow, written]; rfl⟩
    | repetition amount value | restriction amount value =>
      obtain ⟨text, written⟩ := each value (by simp [children])
      exact ⟨_, by rw [toFlow, written]; rfl⟩
    | conditional source =>
      obtain ⟨serial, condition, outcomes, fallback, labels, fallbackLabel⟩ := source
      simp only [children, List.forall_mem_append, Option.mem_toList] at each
      obtain ⟨fields, first⟩ := conditionToFlow_ok each.1.1
      obtain ⟨texts, second⟩ := allToFlow_ok each.1.2
      obtain ⟨text?, third⟩ := optionToFlow_ok each.2
      exact ⟨_, by rw [toFlow, conditionalToFlow, first, second, third]; rfl⟩
    | labelRule rule =>
      obtain ⟨condition, labels, fallback⟩ := rule
      obtain ⟨fields, written⟩ := conditionToFlow_ok each
      exact ⟨_, by rw [toFlow, ruleToFlow, written]; rfl⟩

theorem eachOfNodes_eq_map (ns : List Node) : Layout.eachOfNodes ns = ns.map Layout.ofNode := by
  induction ns with
  | nil => rfl
  | cons n ns ih => rw [Layout.eachOfNodes, ih, List.map_cons]

theorem ofNodes_ok {ns : List Node} (each : ∀ n ∈ ns, ∃ layout, Layout.ofNode n = .ok layout) :
    ∃ layouts, Layout.ofNodes ns = .ok layouts := by
  induction ns with
  | nil => exact ⟨[], rfl⟩
  | cons n ns ih =>
    obtain ⟨⟨layout, laid⟩, others⟩ := List.forall_mem_cons.mp each
    obtain ⟨layouts, rest⟩ := ih others
    exact ⟨layout :: layouts, by rw [Layout.ofNodes, laid, rest]; rfl⟩

theorem ofOptions_ok {options : List (Node × String)}
    (each : ∀ o ∈ options, ∃ layout, Layout.ofNode o.1 = .ok layout) :
    ∃ layouts, Layout.ofOptions options = .ok layouts := by
  induction options with
  | nil => exact ⟨[], rfl⟩
  | cons o os ih =>
    obtain ⟨⟨layout, laid⟩, others⟩ := List.forall_mem_cons.mp each
    obtain ⟨layouts, rest⟩ := ih others
    exact ⟨_, by rw [Layout.ofOptions, Layout.ofLabelled, laid, rest]; rfl⟩

theorem ofOption_ok {n? : Option Node} (each : ∀ n ∈ n?, ∃ layout, Layout.ofNode n = .ok layout) :
    ∃ layout?, Layout.ofOption n? = .ok layout? := by
  cases n? with
  | none => exact ⟨none, rfl⟩
  | some n =>
    obtain ⟨layout, laid⟩ := each n rfl
    exact ⟨some layout, by rw [Layout.ofOption, laid]; rfl⟩

/-- A list of trees without placeholders can be laid out below a key. -/
theorem list_ok {ns : List Node} (free : ∀ n ∈ ns, n.FreeOf [.placeholder])
    (layouts : List Layout) : ∃ layout, Layout.list ns layouts = .ok layout := by
  obtain ⟨texts, written⟩ := allToFlow_ok fun n mem => toFlow_ok (free n mem)
  rw [Layout.list, toFlow, written]
  split <;> exact ⟨_, rfl⟩

theorem ofCondition_ok {c : Condition Node} (free : ∀ n ∈ c.cases, n.FreeOf [.placeholder])
    (each : ∀ n ∈ c.cases, ∃ layout, Layout.ofNode n = .ok layout) :
    ∃ fields, Layout.ofCondition c = .ok fields := by
  obtain ⟨names, multi, cases⟩ := c
  obtain ⟨layouts, laid⟩ := ofNodes_ok each
  obtain ⟨listed, list⟩ := list_ok free layouts
  rw [Layout.ofCondition]
  exact ⟨_, bind_eq_ok.mpr ⟨layouts, laid, bind_eq_ok.mpr ⟨listed, list, rfl⟩⟩⟩

/-- A tree without placeholders can be laid out. -/
theorem ofNode_ok {n : Node} (free : n.FreeOf [.placeholder]) :
    ∃ layout, Layout.ofNode n = .ok layout := by
  induction n using children_induction with
  | step n ih =>
    have frees : ∀ child ∈ n.children, child.FreeOf [.placeholder] := fun _ mem => free.child mem
    have each := fun child mem => ih child mem (frees child mem)
    obtain ⟨line, inline⟩ := toFlow_ok free
    cases n with
    | scalar | interval | tagged | palette => exact ⟨_, rfl⟩
    | placeholder => exact absurd (List.mem_singleton_self _) (freeOf_iff.mp free).1
    | container form children =>
      cases form with
      | sequence | mapping =>
        obtain ⟨layouts, laid⟩ : ∃ ls, Layout.ofNodes children = .ok ls := ofNodes_ok each
        rw [Layout.ofNode, inline, laid]
        split <;> exact ⟨_, rfl⟩
      | record kind id names =>
        have each : ∀ child ∈ children, ∃ layout, Layout.ofNode child = .ok layout := each
        obtain ⟨fields, picked⟩ := pickAll_pickOrdered_ok kind.fields names each
        rw [Layout.ofNode, inline, eachOfNodes_eq_map, picked]
        split <;> exact ⟨_, rfl⟩
    | choice options =>
      obtain ⟨layouts, laid⟩ : ∃ ls, Layout.ofNodes options = .ok ls := ofNodes_ok each
      rw [Layout.ofNode, inline, laid]
      split <;> exact ⟨_, rfl⟩
    | labelledChoice options =>
      obtain ⟨layouts, laid⟩ := ofOptions_ok fun o mem => each o.1 (List.mem_map_of_mem mem)
      exact ⟨_, by rw [Layout.ofNode, laid]; rfl⟩
    | scaled base scales labels =>
      obtain ⟨layout?, laid⟩ := ofOption_ok fun b given =>
        each b (List.mem_append_left _ (Option.mem_toList.mpr given))
      exact ⟨_, by rw [Layout.ofNode, laid]; rfl⟩
    | repetition amount value | restriction amount value =>
      obtain ⟨layout, laid⟩ := each value (by simp [children])
      exact ⟨_, by rw [Layout.ofNode, laid]; rfl⟩
    | conditional source =>
      obtain ⟨serial, condition, outcomes, fallback, labels, fallbackLabel⟩ := source
      simp only [children, List.forall_mem_append, Option.mem_toList] at each frees
      obtain ⟨fields, first⟩ := ofCondition_ok frees.1.1 each.1.1
      obtain ⟨layouts, second⟩ := ofNodes_ok each.1.2
      obtain ⟨layout?, third⟩ := ofOption_ok each.2
      obtain ⟨listed, list⟩ := list_ok frees.1.2 layouts
      rw [Layout.ofNode, Layout.ofConditional, first, second, third]
      exact ⟨_, by show (Layout.list outcomes layouts >>= _) = _; rw [list]; rfl⟩
    | labelRule rule =>
      obtain ⟨condition, labels, fallback⟩ := rule
      obtain ⟨fields, laid⟩ := ofCondition_ok frees each
      exact ⟨_, by rw [Layout.ofNode, Layout.ofRule, laid]; rfl⟩

/-- A concrete tree can be written as a document and on one line. -/
theorem Concrete.written {n : Node} (h : n.Concrete) :
    (∃ text, n.toYaml = .ok text) ∧ ∃ text, n.toFlow = .ok text := by
  have free : n.FreeOf [.placeholder] :=
    (freeOf_of_isStatic (isStatic_iff_concrete.mpr h)).mono (by simp)
  obtain ⟨layout, laid⟩ := ofNode_ok free
  exact ⟨⟨_, by rw [toYaml, laid]; rfl⟩, toFlow_ok free⟩

end Node

end ArenaVariations
