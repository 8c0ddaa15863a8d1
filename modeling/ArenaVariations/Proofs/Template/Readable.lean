import ArenaVariations.Proofs.Expansion.Expandable
import ArenaVariations.Proofs.Node.Concrete
import ArenaVariations.Template.Reading

/-!
# Trees that can be read

`Node.Readable` describes the trees that a document can be read as. They are built, and more is
known of them: placeholders and label rules do not occur, but for the settings of an arena
configuration, which hold label rules and nothing else; a record has fields of its kind, each at
most once; a leaf stands under a tag only if the tag has no meaning.

Numbering the conditionals of a tree keeps it readable, and two numberings differ in the serial
numbers alone.
-/

namespace ArenaVariations

namespace Template

/-- The tags of ranges and the procedural tags. -/
def reservedTags : List String :=
  ["R", "ProcList", "ProcListLabelled", "ProcColor", "ProcVector3Scaled", "ProcRepeatChoice",
    "ProcRestrictCombinations", "ProcIf", "ProcIfLabels"]

/-- A tag without a meaning of its own, by its name. -/
def Foreign (tag : String) : Prop :=
  RecordKind.ofTag? tag = none ∧ tag ∉ reservedTags ∧ tagName tag = tag

end Template

/-- A single reference is written without brackets. -/
def Condition.Direct (c : Condition Node) : Prop :=
  c.multi = false → ∃ reference, c.references = [reference]

namespace Node

/-- The settings of a document that has label rules. -/
def settings (rules : List (LabelRule Node)) : Node :=
  .mapping [(.text labelRulesKey, .sequence (rules.map .labelRule))]

/-- Null, and null under a tag without a meaning. -/
def isNull : Node → Bool
  | scalar .null | tagged ⟨_, .null⟩ => true
  | _ => false

/-- Whether a field of a record holds settings of the document. -/
def HoldsSettings (kind : RecordKind) (name : String) : Prop :=
  kind = .arenaConfig ∧ name = metaField

/-- The trees that a document can be read as. -/
inductive Readable : Node → Prop where
  | scalar (value : Scalar) : Readable (.scalar value)
  | interval {range : Interval} (checked : Interval.ofBounds range.min range.max = .ok range) :
      Readable (.interval range)
  | tagged {tag : String} (foreign : Template.Foreign tag) (value : Scalar) :
      Readable (.tagged ⟨tag, value⟩)
  | sequence {items : List Node} (each : ∀ n ∈ items, Readable n) : Readable (.sequence items)
  | mapping {keys : List Scalar} {children : List Node} (length : keys.length = children.length)
      (each : ∀ n ∈ children, Readable n) : Readable (.container (.mapping keys) children)
  | record {kind : RecordKind} {id : Option String} {names : List String} {children : List Node}
      {rules : List (LabelRule Node)} (length : names.length = children.length)
      (known : ∀ name ∈ names, name ∈ kind.fields) (distinct : names.Nodup)
      (each : ∀ field ∈ names.zip children, ¬ HoldsSettings kind field.1 → Readable field.2)
      (settings : ∀ field ∈ names.zip children, HoldsSettings kind field.1 →
        field.2 = settings rules)
      (cases : ∀ rule ∈ rules, ∀ n ∈ rule.condition.cases, Readable n)
      (checked : ∀ rule ∈ rules, rule.Checked ∧ rule.condition.Direct) :
      Readable (.container (.record kind id names) children)
  | choice {options : List Node} (each : ∀ n ∈ options, Readable n)
      (checked : choiceOf options = .ok (.choice options)) : Readable (.choice options)
  | labelledChoice {options : List (Node × String)} (each : ∀ option ∈ options, Readable option.1)
      (checked : labelledChoiceOf options = .ok (.labelledChoice options)) :
      Readable (.labelledChoice options)
  | palette {amount : UInt64} (checked : paletteOf amount = .ok (.palette amount)) :
      Readable (.palette amount)
  | scaled {base : Option Node} {scales : List Scalar} {labels : Option (List String)}
      (each : ∀ b ∈ base, Readable b)
      (checked : scaledOf base (scales.map .scalar) labels = .ok (.scaled base scales labels)) :
      Readable (.scaled base scales labels)
  | repetition (amount : UInt64) {value : Node} (each : Readable value) :
      Readable (.repetition amount value)
  | restriction (amount : UInt64) {item : Node} (each : Readable item) :
      Readable (.restriction amount item)
  | conditional {source : Conditional Node}
      (each : ∀ n ∈ (Node.conditional source).children, Readable n) (checked : source.Checked)
      (direct : source.condition.Direct) (given : ∀ n ∈ source.fallback, n.isNull = false) :
      Readable (.conditional source)

/-- Settings are built, though no document can be read as settings alone. -/
theorem built_settings {rules : List (LabelRule Node)}
    (cases : ∀ rule ∈ rules, ∀ n ∈ rule.condition.cases, n.Built)
    (checked : ∀ rule ∈ rules, rule.Checked) : (settings rules).Built := by
  refine .container (by simp [Form.Fits]) ?_
  simp only [List.map_cons, List.map_nil, List.forall_mem_singleton]
  refine .container trivial fun n mem => ?_
  obtain ⟨rule, among, rfl⟩ := List.mem_map.mp mem
  exact .labelRule (cases rule among) (checked rule among)

/-- A statement about the fields of a record is one about its children. -/
theorem forall_mem_zip_snd {κ : Type} {names : List κ} {children : List Node}
    {motive : Node → Prop} (length : names.length = children.length)
    (each : ∀ field ∈ names.zip children, motive field.2) : ∀ n ∈ children, motive n := by
  intro n mem
  rw [← List.map_snd_zip (Nat.le_of_eq length.symm)] at mem
  obtain ⟨field, among, rfl⟩ := List.mem_map.mp mem
  exact each field among

theorem Readable.built {n : Node} (h : n.Readable) : n.Built := by
  induction h with
  | scalar value => exact .scalar value
  | interval checked => exact .interval checked
  | tagged _ value => exact .tagged ⟨_, value⟩
  | sequence _ ih => exact .container trivial ih
  | mapping length _ ih => exact .container length ih
  | @record kind _ _ _ _ length _ _ _ settings _ checked ih cases =>
    refine .container length (forall_mem_zip_snd length fun field mem => ?_)
    by_cases holds : HoldsSettings kind field.1
    · rw [settings field mem holds]
      exact built_settings cases fun rule among => (checked rule among).1
    · exact ih field mem holds
  | choice _ checked ih => exact .choice ih checked
  | labelledChoice _ checked ih => exact .labelledChoice ih checked
  | palette checked => exact .palette checked
  | scaled _ checked ih => exact .scaled ih checked
  | repetition amount _ ih => exact .repetition amount ih
  | restriction amount _ ih => exact .restriction amount ih
  | conditional _ checked _ _ ih => exact .conditional ih checked

/-- An arena configuration with settings of the document. -/
def HasSettings (n : Node) : Prop :=
  ∃ id names children, n = .container (.record .arenaConfig id names) children ∧
    metaField ∈ names

/-- The parts of settings that lie outside of the cases of their label rules. -/
inductive OfSettings : Node → Prop where
  | settings (rules : List (LabelRule Node)) : OfSettings (settings rules)
  | list (rules : List (LabelRule Node)) : OfSettings (.sequence (rules.map .labelRule))
  | rule {rule : LabelRule Node} (cases : ∀ n ∈ rule.condition.cases, Readable n)
      (checked : rule.Checked ∧ rule.condition.Direct) : OfSettings (.labelRule rule)

/-- What stands in a tree, by what stands in its children. -/
theorem forall_partOf {motive : Node → Prop} {n : Node} (root : motive n)
    (below : ∀ child ∈ n.children, ∀ m : Node, m.PartOf child → motive m) :
    ∀ m : Node, m.PartOf n → motive m := by
  intro m part
  obtain rfl | ⟨child, mem, part⟩ := partOf_iff.mp part
  · exact root
  · exact below child mem m part

theorem forall_partOf_settings {motive : Node → Prop} {rules : List (LabelRule Node)}
    (root : ∀ n : Node, n.OfSettings → motive n)
    (readable : ∀ rule ∈ rules, ∀ n ∈ rule.condition.cases, Readable n)
    (checked : ∀ rule ∈ rules, rule.Checked ∧ rule.condition.Direct)
    (cases : ∀ rule ∈ rules, ∀ n ∈ rule.condition.cases, ∀ m : Node, m.PartOf n → motive m) :
    ∀ m : Node, m.PartOf (settings rules) → motive m := by
  refine forall_partOf (root _ (.settings rules)) fun list mem => ?_
  obtain rfl := List.mem_singleton.mp mem
  refine forall_partOf (root _ (.list rules)) fun n mem => ?_
  obtain ⟨rule, among, rfl⟩ := List.mem_map.mp mem
  exact forall_partOf (root _ (.rule (readable rule among) (checked rule among))) (cases rule among)

/-- A tree is readable, or belongs to settings that stand in another one. -/
def Traced (n m : Node) : Prop :=
  m.Readable ∨ m.OfSettings ∧ ∃ k : Node, k.PartOf n ∧ k.HasSettings

theorem Traced.inside {n child m : Node} (h : child.Traced m) (mem : child ∈ n.children) :
    n.Traced m := by
  obtain readable | ⟨of, k, inner, has⟩ := h
  · exact .inl readable
  · exact .inr ⟨of, k, .inside mem inner, has⟩

/-- What stands in a readable tree is readable itself or belongs to settings, and then an arena
configuration with settings stands there as well. -/
theorem Readable.traced {n : Node} (h : n.Readable) : ∀ m : Node, m.PartOf n → n.Traced m := by
  have leaf : ∀ (s : Scalar) (m : Node), m.PartOf (.scalar s) → (Node.scalar s).Traced m :=
    fun s => forall_partOf (.inl (.scalar s)) nofun
  induction h with
  | scalar value => exact leaf value
  | interval checked => exact forall_partOf (.inl (.interval checked)) nofun
  | tagged foreign value => exact forall_partOf (.inl (.tagged foreign value)) nofun
  | sequence each ih =>
    exact forall_partOf (.inl (.sequence each)) fun n mem m part => (ih n mem m part).inside mem
  | mapping length each ih =>
    exact forall_partOf (.inl (.mapping length each))
      fun n mem m part => (ih n mem m part).inside mem
  | @record kind id names children rules length known distinct each settings cases checked ih
      ihCases =>
    refine forall_partOf (.inl (.record length known distinct each settings cases checked)) ?_
    refine forall_mem_zip_snd length fun field mem => ?_
    have among := List.of_mem_zip mem
    by_cases holds : HoldsSettings kind field.1
    · have has : (container (.record kind id names) children).HasSettings :=
        ⟨id, names, children, by rw [holds.1], holds.2 ▸ among.1⟩
      rw [settings field mem holds]
      refine forall_partOf_settings (fun n of => Or.inr ⟨of, _, .whole _, has⟩) cases checked
        fun rule mem n among m part => ?_
      obtain readable | ⟨of, -⟩ := ihCases rule mem n among m part
      · exact .inl readable
      · exact .inr ⟨of, _, .whole _, has⟩
    · exact fun m part => (ih field mem holds m part).inside among.2
  | choice each checked ih =>
    exact forall_partOf (.inl (.choice each checked))
      fun n mem m part => (ih n mem m part).inside mem
  | labelledChoice each checked ih =>
    refine forall_partOf (.inl (.labelledChoice each checked)) fun n mem m part => ?_
    obtain ⟨option, among, rfl⟩ := List.mem_map.mp mem
    exact (ih option among m part).inside mem
  | palette checked =>
    refine forall_partOf (.inl (.palette checked)) fun n mem m part => ?_
    obtain rfl := List.mem_singleton.mp mem
    exact (leaf _ m part).inside mem
  | scaled each checked ih =>
    refine forall_partOf (.inl (.scaled each checked)) fun n mem m part => ?_
    obtain base | scale := List.mem_append.mp mem
    · exact (ih n (Option.mem_toList.mp base) m part).inside mem
    · obtain ⟨s, -, rfl⟩ := List.mem_map.mp scale
      exact (leaf s m part).inside mem
  | repetition amount each ih =>
    refine forall_partOf (.inl (.repetition amount each)) fun n mem m part => ?_
    obtain rfl | among := List.mem_cons.mp mem
    · exact (leaf _ m part).inside mem
    · obtain rfl := List.mem_singleton.mp among
      exact (ih m part).inside mem
  | restriction amount each ih =>
    refine forall_partOf (.inl (.restriction amount each)) fun n mem m part => ?_
    obtain rfl | among := List.mem_cons.mp mem
    · exact (leaf _ m part).inside mem
    · obtain rfl := List.mem_singleton.mp among
      exact (ih m part).inside mem
  | conditional each checked direct given ih =>
    exact forall_partOf (.inl (.conditional each checked direct given))
      fun n mem m part => (ih n mem m part).inside mem

theorem Readable.rule_ne_placeholder {n : Node} (h : n.Readable) : n.rule ≠ .placeholder := by
  cases h <;> simp [rule]

theorem Readable.rule_ne_labelRule {n : Node} (h : n.Readable) : n.rule ≠ .labelRule := by
  cases h <;> simp [rule]

/-- Placeholders cannot be read. -/
theorem Readable.freeOf_placeholder {n : Node} (h : n.Readable) : n.FreeOf [.placeholder] := by
  intro m part
  rw [List.mem_singleton]
  obtain readable | ⟨of, -⟩ := h.traced m part
  · exact readable.rule_ne_placeholder
  · cases of <;> simp [rule, Node.settings, Node.mapping]

/-- Label rules are read as parts of settings only. -/
theorem Readable.freeOf_labelRule {n : Node} (h : n.Readable)
    (unset : ∀ m : Node, m.PartOf n → ¬ m.HasSettings) : n.FreeOf [.labelRule] := by
  intro m part
  rw [List.mem_singleton]
  obtain readable | ⟨-, k, inner, has⟩ := h.traced m part
  · exact readable.rule_ne_labelRule
  · exact absurd has (unset k inner)

/-- The trees of a list are numbered one after the other. -/
theorem numberList_forall₂ (ns : List Node) (k : Nat) :
    List.Forall₂ (fun n m => ∃ k, (n.number k).1 = m) ns (numberList k ns).1 := by
  induction ns generalizing k with
  | nil => exact .nil
  | cons n ns ih => exact .cons ⟨k, rfl⟩ (ih _)

theorem number_settings (rules : List (LabelRule Node)) (k : Nat) :
    (settings rules).number k = (settings rules, k) := by
  have list : numberList k (rules.map .labelRule) = (rules.map .labelRule, k) := by
    induction rules with
    | nil => rfl
    | cons rule rules ih => simp [numberList, number, ih]
  simp [settings, Node.mapping, number, numberList, list]

/-- Entries whose values are related to those of another list have the same addresses. -/
theorem exists_mem_zip_of_forall₂ {κ : Type} {related : Node → Node → Prop} {ns ms : List Node}
    (h : List.Forall₂ related ns ms) {addresses : List κ} {entry : κ × Node}
    (mem : entry ∈ addresses.zip ms) : ∃ n, (entry.1, n) ∈ addresses.zip ns ∧
      related n entry.2 := by
  induction h generalizing addresses with
  | nil => simp at mem
  | cons first _ ih =>
    cases addresses with
    | nil => cases mem
    | cons address addresses =>
      obtain rfl | mem := List.mem_cons.mp mem
      · exact ⟨_, List.mem_cons_self, first⟩
      · obtain ⟨n, among, rel⟩ := ih mem
        exact ⟨n, List.mem_cons_of_mem _ among, rel⟩

theorem forall_mem_of_forall₂ {related : Node → Node → Prop} {ns ms : List Node}
    (h : List.Forall₂ related ns ms) {motive : Node → Prop}
    (each : ∀ n ∈ ns, ∀ m, related n m → motive m) : ∀ m ∈ ms, motive m := by
  intro m mem
  obtain ⟨n, among, rel⟩ := exists_mem_of_forall₂ h m mem
  exact each n among m rel

/-- Numbering the conditionals of a readable tree leaves it readable. -/
theorem Readable.number {n : Node} (h : n.Readable) (k : Nat) : (n.number k).1.Readable := by
  induction h generalizing k with
  | scalar value => exact .scalar value
  | interval checked => exact .interval checked
  | tagged foreign value => exact .tagged foreign value
  | sequence _ ih =>
    refine .sequence (forall_mem_of_forall₂ (numberList_forall₂ _ k) ?_)
    rintro n mem _ ⟨k, rfl⟩
    exact ih n mem k
  | mapping length _ ih =>
    refine .mapping (length.trans (numberList_forall₂ _ k).length_eq)
      (forall_mem_of_forall₂ (numberList_forall₂ _ k) ?_)
    rintro n mem _ ⟨k, rfl⟩
    exact ih n mem k
  | record length known distinct _ settings cases checked ih =>
    refine .record (length.trans (numberList_forall₂ _ k).length_eq) known distinct ?_ ?_ cases
      checked
    · intro field mem holds
      obtain ⟨n, among, k, numbered⟩ := exists_mem_zip_of_forall₂ (numberList_forall₂ _ k) mem
      exact numbered ▸ ih _ among holds k
    · intro field mem holds
      obtain ⟨n, among, k, numbered⟩ := exists_mem_zip_of_forall₂ (numberList_forall₂ _ k) mem
      have same : n = Node.settings _ := settings _ among holds
      rw [← numbered, same, number_settings]
  | choice each checked => exact .choice each checked
  | labelledChoice each checked => exact .labelledChoice each checked
  | palette checked => exact .palette checked
  | scaled each checked => exact .scaled each checked
  | repetition amount _ ih => exact .repetition amount (ih k)
  | restriction amount _ ih => exact .restriction amount (ih k)
  | conditional each checked direct given =>
    obtain ⟨outcomes, labels, static, -⟩ := Conditional.ofParts_eq_ok.mp checked.2
    exact .conditional each
      ⟨checked.1, Conditional.ofParts_eq_ok.mpr ⟨outcomes, labels, static, rfl⟩⟩ direct given

end Node

end ArenaVariations
