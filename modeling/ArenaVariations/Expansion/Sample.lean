import ArenaVariations.Error.Basic
import ArenaVariations.Node.Checked
import ArenaVariations.Random.Draw

/-!
# Sampling

`Node.sample` draws one variation of a tree, each with the same chance unless a restriction
repeats some. Children are sampled in order, and each choice takes one draw. A conditional is not
decided here: it becomes a placeholder that the rest of the variation fills in later.
-/

namespace ArenaVariations

namespace Variation

/-- A variation without labels. -/
def unlabelled (n : Node) : Variation := ⟨n, []⟩

/-- Put the variations of a container's children together, with their labels in order. -/
def gather (form : Form) (parts : List Variation) : Variation :=
  ⟨.container form (parts.map node), parts.flatMap labels⟩

/-- Repeat the value of a variation in a list. The labels are not repeated. -/
def repeated (amount : UInt64) (v : Variation) : Variation :=
  ⟨.sequence (List.replicate amount.toNat v.node), v.labels⟩

end Variation

namespace Node

/-- The product of a base vector, or the vector of ones, with a factor. -/
def scaledVector (base : Option Node) (factor : Scalar) : Node :=
  let (x, y, z) := (base.bind components?).getD (1, 1, 1)
  let factor := factor.number?.getD 1
  vector3 (x * factor) (y * factor) (z * factor)

/-- The factors of a scaled vector, each with its label. -/
def labelledScales (scales : List Scalar) (labels : Option (List String)) :
    List (Scalar × Labels) :=
  scales.zipIdx.map fun entry => (entry.1, (labels.bind (·[entry.2]?)).toList)

/-- The variations that a choice, a palette or a scaled vector lists, in order. Other nodes list
none. -/
def alternatives : Node → List Variation
  | choice options => options.map Variation.unlabelled
  | labelledChoice options => options.map fun option => ⟨option.1, [option.2]⟩
  | palette amount =>
    (colors.take amount.toNat).map fun color => .unlabelled (rgb color.1 color.2.1 color.2.2)
  | scaled base scales labels =>
    (labelledScales scales labels).map fun scale => ⟨scaledVector base scale.1, scale.2⟩
  | _ => []

end Node

/-- A computation that draws and may fail. What it drew before a failure stays drawn. -/
abbrev Drawing := ExceptT Error Draw

namespace Drawing

/-- One of the members of a list. -/
def oneOf {α : Type} : List α → Drawing α
  | [] => throw (.internal .emptyChoice)
  | first :: rest => ExceptT.lift (Draw.oneOf first rest)

end Drawing

namespace Node

mutual

/-- Draw a variation of a tree. -/
def sample : Node → Drawing Variation
  | n@(scalar _) | n@(interval _) | n@(tagged _) => return .unlabelled n
  | container form children => return .gather form (← sampleAll children)
  | n@(choice _) | n@(labelledChoice _) | n@(palette _) | n@(scaled ..) =>
    Drawing.oneOf n.alternatives
  | repetition amount value => return (← value.sample).repeated amount
  | restriction _ item => item.sample
  | conditional source => return .unlabelled (placeholder source)
  | labelRule _ => throw (.internal .labelRuleSampled)
  | placeholder _ => throw (.internal .placeholderExpanded)

/-- Draw a variation of each tree of a list. -/
def sampleAll : List Node → Drawing (List Variation)
  | [] => return []
  | n :: ns => return (← n.sample) :: (← sampleAll ns)

end

end Node

end ArenaVariations
