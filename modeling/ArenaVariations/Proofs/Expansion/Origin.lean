import ArenaVariations.Proofs.Expansion.Yield
import ArenaVariations.Proofs.Node.Concrete
import ArenaVariations.Proofs.Resolution.Unfinished

/-!
# Where the nodes of a variation come from

Whatever stands in a variation of a built tree is a leaf, a placeholder of one of the tree's
conditionals, a list, vector or color that a tag makes, or a container of the tree with other
children: `Node.Origin`. No procedural tag is among these. Filling placeholders in with values
that the tree's conditionals name keeps to it.
-/

namespace ArenaVariations

namespace Form

/-- The forms of the containers that tags make. -/
def made : List Form :=
  [.sequence, .record .vector3 none ["x", "y", "z"], .record .rgb none ["r", "g", "b"]]

end Form

namespace Node

/-- The nodes that can stand in a variation of a tree. -/
inductive Origin (n : Node) : Node → Prop where
  | scalar (value : Scalar) : Origin n (.scalar value)
  | interval (range : Interval) : Origin n (.interval range)
  | tagged (value : TaggedScalar) : Origin n (.tagged value)
  | placeholder {source : Conditional Node} (part : (Node.conditional source).PartOf n) :
      Origin n (.placeholder source)
  | made {form : Form} (mem : form ∈ Form.made) (children : List Node) :
      Origin n (.container form children)
  | kept {form : Form} {original : List Node} (part : (Node.container form original).PartOf n)
      (children : List Node) : Origin n (.container form children)

/-- Every node of a tree can stand in a variation of another one. -/
def StandsIn (v n : Node) : Prop :=
  ∀ m : Node, m.PartOf v → n.Origin m

theorem Origin.mono {m n k : Node} (h : n.Origin m) (part : n.PartOf k) : k.Origin m := by
  cases h with
  | scalar value => exact .scalar value
  | interval range => exact .interval range
  | tagged value => exact .tagged value
  | placeholder inner => exact .placeholder (inner.trans part)
  | made mem children => exact .made mem children
  | kept inner children => exact .kept (inner.trans part) children

theorem StandsIn.mono {v n k : Node} (h : v.StandsIn n) (part : n.PartOf k) : v.StandsIn k :=
  fun m inner => (h m inner).mono part

/-- A container can stand where one of the same form can. -/
theorem Origin.with_children {n : Node} {form : Form} {children : List Node}
    (h : n.Origin (.container form children)) (others : List Node) :
    n.Origin (.container form others) := by
  cases h with
  | made mem => exact .made mem others
  | kept part => exact .kept part others

theorem Origin.conditional_part {n : Node} {source : Conditional Node}
    (h : n.Origin (.placeholder source)) : (Node.conditional source).PartOf n := by
  cases h with
  | placeholder part => exact part

theorem StandsIn.container {n : Node} {form : Form} {children : List Node}
    (root : n.Origin (.container form children)) (each : ∀ child ∈ children, child.StandsIn n) :
    (Node.container form children).StandsIn n := by
  intro m part
  obtain rfl | ⟨child, mem, part⟩ := partOf_container.mp part
  · exact root
  · exact each child mem m part

theorem StandsIn.leaf {n leaf : Node} (none : leaf.children = []) (root : n.Origin leaf) :
    leaf.StandsIn n := by
  intro m part
  obtain rfl := (partOf_leaf none).mp part
  exact root

/-- Static parts of a tree can stand in its variations. -/
theorem StandsIn.of_isStatic {v n : Node} (static : v.isStatic = true) (part : v.PartOf n) :
    v.StandsIn n := by
  intro m inner
  have here : m.Concrete := fun k below => isStatic_iff_concrete.mp static k (below.trans inner)
  obtain ⟨s, rfl⟩ | ⟨range, rfl⟩ | ⟨t, rfl⟩ | ⟨form, children, rfl⟩ :=
    cases_of_isStatic (isStatic_iff_concrete.mpr here)
  · exact .scalar s
  · exact .interval range
  · exact .tagged t
  · exact .kept (inner.trans part) children

/-- What a node with a single variation becomes can stand in its variations. -/
theorem Single.standsIn {n : Node} (h : n.Single) : n.only.node.StandsIn n := by
  cases h with
  | scalar value => exact .leaf rfl (.scalar value)
  | interval range => exact .leaf rfl (.interval range)
  | tagged value => exact .leaf rfl (.tagged value)
  | conditional source => exact .leaf rfl (.placeholder (.whole _))

/-- What a checked tag lists can stand in its variations. -/
theorem Lists.standsIn {n : Node} (h : n.Lists) (built : n.Built) {v : Variation}
    (mem : v ∈ n.alternatives) : v.node.StandsIn n := by
  cases h with
  | choice options =>
    obtain ⟨option, among, rfl⟩ := List.mem_map.mp mem
    cases built with
    | choice _ checked =>
      exact .of_isStatic ((choiceOf_eq_ok.mp checked).2.1 option among) (.of_mem among)
  | labelledChoice options =>
    obtain ⟨option, among, rfl⟩ := List.mem_map.mp mem
    cases built with
    | labelledChoice _ checked =>
      exact .of_isStatic ((labelledChoiceOf_eq_ok.mp checked).2.1 option among)
        (.of_mem (List.mem_map_of_mem among))
  | palette amount =>
    obtain ⟨color, -, rfl⟩ := List.mem_map.mp mem
    refine .container (.made (by simp [Form.made]) _) fun child among => ?_
    simp only [List.map_cons, List.map_nil, List.mem_cons, List.not_mem_nil, or_false] at among
    obtain rfl | rfl | rfl := among <;> exact .leaf rfl (.scalar _)
  | scaled base scales labels =>
    obtain ⟨scale, -, rfl⟩ := List.mem_map.mp mem
    refine .container (.made (by simp [Form.made]) _) fun child among => ?_
    simp only [List.map_cons, List.map_nil, List.mem_cons, List.not_mem_nil, or_false] at among
    obtain rfl | rfl | rfl := among <;> exact .leaf rfl (.scalar _)

/-- What a built tree becomes has its nodes from there. -/
theorem Yields.standsIn {n v : Node} (h : n.Yields v) (built : n.Built) : v.StandsIn n := by
  induction h with
  | single single => exact single.standsIn
  | listed lists mem => exact lists.standsIn built mem
  | @container form children parts length each ih =>
    cases built with
    | container _ built =>
      refine .container (.kept (.whole _) parts) fun part mem => ?_
      obtain ⟨i, bound, rfl⟩ := List.getElem_of_mem mem
      have paired := getElem_mem_zip (length ▸ bound) bound
      have among := (List.of_mem_zip paired).1
      exact (ih paired (built _ among)).mono (.of_mem among)
  | repetition amount _ ih =>
    cases built with
    | repetition _ built =>
      refine .container (.made (by simp [Form.made]) _) fun child mem => ?_
      obtain rfl := List.eq_of_mem_replicate mem
      exact (ih built).mono (.of_mem (by simp [children]))
  | restriction amount _ ih =>
    cases built with
    | restriction _ built => exact (ih built).mono (.of_mem (by simp [children]))

/-- The values that a conditional of a tree names can stand in its variations. -/
theorem StandsIn.of_names {n : Node} {source : Conditional Node}
    (part : (Node.conditional source).PartOf n) {value : Node} (named : source.Names value) :
    value.StandsIn n := by
  obtain ⟨checked, mem⟩ := named
  have among : value ∈ (Node.conditional source).children := by
    simp only [children, List.append_assoc]
    exact List.mem_append_right _ mem
  exact .of_isStatic (Conditional.static_of_ofParts checked.2 value mem)
    ((PartOf.of_mem among).trans part)

/-- Filling placeholders in with values that their conditionals name. -/
theorem Filling.standsIn {n v w : Node} (filling : Filling Conditional.Names v w)
    (stands : v.StandsIn n) : w.StandsIn n := by
  induction filling with
  | same => exact stands
  | placeholder fits =>
    exact .of_names (stands _ (.whole _)).conditional_part fits
  | @container form children filled length each ih =>
    refine .container ((stands _ (.whole _)).with_children filled) fun part mem => ?_
    obtain ⟨i, bound, rfl⟩ := List.getElem_of_mem mem
    have paired := getElem_mem_zip (length ▸ bound) bound
    exact ih paired fun m part => stands m (.inside (List.of_mem_zip paired).1 part)

/-- What stands in a built tree is built. -/
theorem Built.of_partOf {m n : Node} (built : n.Built) (part : m.PartOf n) : m.Built := by
  induction part with
  | whole => exact built
  | @inside child n mem _ ih =>
    refine ih ?_
    cases built with
    | scalar | interval | tagged | placeholder => exact absurd mem List.not_mem_nil
    | container _ each => exact each child mem
    | choice each => exact each child mem
    | labelledChoice each =>
      obtain ⟨option, among, rfl⟩ := List.mem_map.mp mem
      exact each option among
    | palette =>
      obtain rfl := List.mem_singleton.mp mem
      exact .scalar _
    | scaled each =>
      obtain base | scale := List.mem_append.mp mem
      · exact each child (Option.mem_toList.mp base)
      · obtain ⟨s, -, rfl⟩ := List.mem_map.mp scale
        exact .scalar s
    | repetition _ each | restriction _ each =>
      simp only [Node.children, List.mem_cons, List.not_mem_nil, or_false] at mem
      obtain rfl | rfl := mem
      · exact .scalar _
      · exact each
    | conditional each => exact each child mem
    | labelRule each => exact each child mem

/-- The conditionals that wait in a variation of a tree stand in the tree. -/
theorem StandsIn.conditional_partOf {v n : Node} (h : v.StandsIn n) {c : Conditional Node}
    (waits : c ∈ v.waiting) : (Node.conditional c).PartOf n := by
  induction v using container_induction with
  | container form children ih =>
    obtain ⟨child, mem, waits⟩ := mem_waitingIn.mp waits
    exact ih child mem (fun m part => h m (.inside mem part)) waits
  | leaf v other =>
    cases h v (.whole v) with
    | scalar | interval | tagged => exact absurd waits List.not_mem_nil
    | made | kept => exact absurd rfl (other _ _)
    | placeholder part =>
      obtain rfl := List.mem_singleton.mp waits
      exact part

/-- The conditionals that wait in a variation of a built tree pass their checks. -/
theorem StandsIn.checked {v n : Node} (h : v.StandsIn n) (built : n.Built) {c : Conditional Node}
    (waits : c ∈ v.waiting) : c.Checked := by
  cases built.of_partOf (h.conditional_partOf waits) with
  | conditional _ checked => exact checked

/-- A tree whose nodes can stand in a variation, and in which nothing waits, is concrete. -/
theorem StandsIn.concrete {v n : Node} (h : v.StandsIn n) (done : v.waiting = []) :
    v.Concrete := by
  rw [← isStatic_iff_concrete]
  induction v using container_induction with
  | container form children ih =>
    have each := waitingIn_eq_nil.mp done
    exact allStatic_iff.mpr fun child mem =>
      ih child mem (fun m part => h m (.inside mem part)) (each child mem)
  | leaf v other =>
    cases h v (.whole v) with
    | scalar | interval | tagged => rfl
    | placeholder => cases done
    | made | kept => exact absurd rfl (other _ _)

end Node

end ArenaVariations
