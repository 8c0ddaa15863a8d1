import ArenaVariations.Proofs.Template.Readable

/-!
# Documents are well formed

`Node.WellFormed` says of a single node what the tags and records of a document are required to
be. The reader lets a document through only if all of its nodes are well formed, at every depth and
inside of tags as well: `Node.Readable.wellFormed_of_partOf`. Label rules stand in the settings of
an arena configuration; on a way that leads past all settings there is none.
-/

namespace ArenaVariations

/-- There is a reference, and every case has a static value for each reference. -/
structure Condition.WellFormed (c : Condition Node) : Prop where
  references : c.references ≠ []
  cases : ∀ case ∈ c.cases,
    case.isStatic = true ∧ (Condition.values case).length = c.references.length

/-- There is a value for each case, and a label if there are labels. All values are static. -/
structure Conditional.WellFormed (c : Conditional Node) : Prop where
  condition : c.condition.WellFormed
  outcomes : c.outcomes.length = c.condition.cases.length
  labels : ∀ labels ∈ c.labels, labels.length = c.condition.cases.length
  static : ∀ value ∈ c.outcomes ++ c.fallback.toList, value.isStatic = true

/-- There is a label for each case. -/
structure LabelRule.WellFormed (rule : LabelRule Node) : Prop where
  condition : rule.condition.WellFormed
  labels : rule.labels.length = rule.condition.cases.length

theorem Condition.Checked.wellFormed {c : Condition Node} (h : c.Checked) : c.WellFormed := by
  obtain ⟨references, cases, -⟩ := Condition.ofParts_eq_ok.mp h
  exact ⟨references, cases⟩

theorem Conditional.Checked.wellFormed {c : Conditional Node} (h : c.Checked) : c.WellFormed := by
  obtain ⟨outcomes, labels, static, -⟩ := Conditional.ofParts_eq_ok.mp h.2
  exact ⟨h.1.wellFormed, outcomes, labels, static⟩

theorem LabelRule.Checked.wellFormed {rule : LabelRule Node} (h : rule.Checked) :
    rule.WellFormed := by
  obtain ⟨labels, -⟩ := LabelRule.ofParts_eq_ok.mp h.2
  exact ⟨h.1.wellFormed, labels⟩

namespace Node

/-- A vector whose components are numbers. -/
def IsNumericVector (n : Node) : Prop :=
  (∃ id names children, n = container (.record .vector3 id names) children) ∧
    ∀ axis ∈ ["x", "y", "z"], ∃ s, n.field? axis = some (scalar s) ∧ s.isNumeric = true

/-- What a node of a document is required to be; what stands below it is not looked at. -/
def WellFormed : Node → Prop
  | choice options => options ≠ [] ∧ ∀ option ∈ options, option.isStatic = true
  | labelledChoice options => options ≠ [] ∧ ∀ option ∈ options, option.1.isStatic = true
  | palette amount => 1 ≤ amount.toNat ∧ amount.toNat ≤ 10
  | scaled base scales labels =>
    scales ≠ [] ∧ (∀ s ∈ scales, s.isNumeric = true) ∧
      (∀ ls ∈ labels, ls.length = scales.length) ∧ ∀ b ∈ base, b.IsNumericVector
  | conditional source => source.WellFormed
  | labelRule rule => rule.WellFormed
  | container (.record kind _ names) children =>
    names.length = children.length ∧ (∀ name ∈ names, name ∈ kind.fields) ∧ names.Nodup ∧
      ∀ field ∈ names.zip children, HoldsSettings kind field.1 → ∃ rules, field.2 = settings rules
  | container (.mapping keys) children => keys.length = children.length
  | placeholder _ => False
  | scalar _ | interval _ | tagged _ | container .sequence _ | repetition .. | restriction .. =>
    True

/-- Components are those of a numeric vector. -/
theorem isNumericVector_of_components? {n : Node} (h : n.components?.isSome = true) :
    n.IsNumericVector := by
  unfold components? at h
  split at h
  case h_1 id names children =>
    refine ⟨⟨id, names, children, rfl⟩, ?_⟩
    generalize container (.record .vector3 id names) children = n at h
    have number : ∀ axis, ((n.field? axis).bind number?).isSome = true →
        ∃ s, n.field? axis = some (scalar s) ∧ s.isNumeric = true := by
      intro axis some_number
      obtain ⟨x, found⟩ := Option.isSome_iff_exists.mp some_number
      obtain ⟨component, there, number⟩ := Option.bind_eq_some_iff.mp found
      obtain ⟨s, rfl⟩ := exists_scalar_of_number? (Option.isSome_iff_exists.mpr ⟨x, number⟩)
      exact ⟨s, there, Option.isSome_iff_exists.mpr ⟨x, number⟩⟩
    obtain ⟨result, made⟩ := Option.isSome_iff_exists.mp h
    obtain ⟨x, first, made⟩ := Option.bind_eq_some_iff.mp made
    obtain ⟨y, second, made⟩ := Option.bind_eq_some_iff.mp made
    obtain ⟨z, third, -⟩ := Option.bind_eq_some_iff.mp made
    simp only [List.forall_mem_cons, List.not_mem_nil, false_imp_iff, implies_true, and_true]
    exact ⟨number _ (by rw [first, Option.isSome_some]),
      number _ (by rw [second, Option.isSome_some]), number _ (by rw [third, Option.isSome_some])⟩
  case h_2 => cases h

theorem Readable.wellFormed {n : Node} (h : n.Readable) : n.WellFormed := by
  cases h with
  | scalar | interval | tagged | sequence | repetition | restriction => exact trivial
  | mapping length => exact length
  | record length known distinct _ settings =>
    exact ⟨length, known, distinct, fun field mem holds => ⟨_, settings field mem holds⟩⟩
  | choice _ checked =>
    obtain ⟨some_option, static, -⟩ := choiceOf_eq_ok.mp checked
    exact ⟨some_option, static⟩
  | labelledChoice _ checked =>
    obtain ⟨some_option, static, -⟩ := labelledChoiceOf_eq_ok.mp checked
    exact ⟨some_option, static⟩
  | palette checked =>
    obtain ⟨some_color, enough, -⟩ := paletteOf_eq_ok.mp checked
    exact ⟨some_color, enough⟩
  | scaled _ checked =>
    obtain ⟨factors, -, some_factor, numeric, labelled, based, made⟩ := scaledOf_eq_ok.mp checked
    cases made
    exact ⟨some_factor, numeric, labelled,
      fun b mem => isNumericVector_of_components? (based b mem)⟩
  | conditional _ checked => exact checked.wellFormed

theorem OfSettings.wellFormed {n : Node} (h : n.OfSettings) : n.WellFormed := by
  cases h with
  | settings => exact rfl
  | list => exact trivial
  | rule _ checked => exact checked.1.wellFormed

/-- Whatever stands in a readable tree is well formed. -/
theorem Readable.wellFormed_of_partOf {m n : Node} (h : n.Readable) (part : m.PartOf n) :
    m.WellFormed := by
  obtain readable | ⟨of, -⟩ := h.traced m part
  · exact readable.wellFormed
  · exact of.wellFormed

/-- A tree stands somewhere in another one, on a way that does not lead into the settings of an
arena configuration. -/
inductive OutsideSettings (m : Node) : Node → Prop where
  | whole : OutsideSettings m m
  | field {kind : RecordKind} {id : Option String} {names : List String} {children : List Node}
      {field : String × Node} (mem : field ∈ names.zip children)
      (other : ¬ HoldsSettings kind field.1) (outside : OutsideSettings m field.2) :
      OutsideSettings m (container (.record kind id names) children)
  | child {n child : Node} (mem : child ∈ n.children)
      (other : ∀ kind id names children, n ≠ container (.record kind id names) children)
      (outside : OutsideSettings m child) : OutsideSettings m n

/-- What stands below a readable tree that is no record is readable. -/
theorem Readable.child {n child : Node} (h : n.Readable) (mem : child ∈ n.children)
    (other : ∀ kind id names children, n ≠ container (.record kind id names) children) :
    child.Readable := by
  cases h with
  | scalar | interval | tagged => exact absurd mem List.not_mem_nil
  | sequence each | mapping _ each | choice each | conditional each => exact each child mem
  | record => exact absurd rfl (other _ _ _ _)
  | labelledChoice each =>
    obtain ⟨option, among, rfl⟩ := List.mem_map.mp mem
    exact each option among
  | palette =>
    obtain rfl := List.mem_singleton.mp mem
    exact .scalar _
  | scaled each =>
    obtain base | scale := List.mem_append.mp mem
    · exact each child (Option.mem_toList.mp base)
    · obtain ⟨s, -, rfl⟩ := List.mem_map.mp scale
      exact .scalar s
  | repetition _ each | restriction _ each =>
    obtain rfl | among := List.mem_cons.mp mem
    · exact .scalar _
    · obtain rfl := List.mem_singleton.mp among
      exact each

/-- Outside of settings everything is readable. -/
theorem Readable.outsideSettings {m n : Node} (h : n.Readable) (outside : m.OutsideSettings n) :
    m.Readable := by
  induction outside with
  | whole => exact h
  | field mem other _ ih =>
    cases h with
    | record _ _ _ each => exact ih (each _ mem other)
  | child mem other _ ih => exact ih (h.child mem other)

/-- Label rules are read as parts of the settings of an arena configuration only. -/
theorem Readable.labelRule_not_outside {n : Node} (h : n.Readable) (rule : LabelRule Node) :
    ¬ (labelRule rule).OutsideSettings n :=
  fun outside => (h.outsideSettings outside).rule_ne_labelRule rfl

end Node

end ArenaVariations
