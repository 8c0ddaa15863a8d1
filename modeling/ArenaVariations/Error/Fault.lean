import ArenaVariations.Node.Basic

/-!
# Faults of a template

A `Fault` says in which way a tag, a record or a mapping is used with the wrong shape. Faults are
found while a template is read or a tag is built, and never during expansion.
-/

namespace ArenaVariations

/-- A tag that was used with the wrong shape. -/
inductive Fault where
  /-- The bounds of a range must be numbers. -/
  | boundsNotNumbers (min max : Scalar)
  | reversedRange (min max : Scalar)
  | rangeLength (length : Nat)
  | rangeNotList
  /-- Values that are copied as they are must not hold procedural tags. -/
  | notStatic (tag field : String) (found : Node)
  | noOptions (tag : String)
  | paletteAmount (limit : Nat) (amount : UInt64)
  | noScales
  | scaleNotNumber (found : Node)
  | scaleLabels (scales labels : Nat)
  | baseNotVector (found : Node)
  | noVariables
  /-- A case must have as many values as the condition has references. -/
  | caseArity (index arity : Nat) (case : Node) (references : List String)
  | outcomeCount (cases outcomes : Nat)
  | labelCount (cases labels : Nat)
  | ruleLabelCount (cases labels : Nat)
  | keyNotScalar
  | itemAndValue
  | strayLabelRule
  | unknownTag (tag : String)
  | notMapping (tag : String)
  | keysNotText (tag : String)
  | idNotPlain
  | unexpectedKey (key tag : String) (allowed : List String)
  | missingKey (tag key : String)
  | labelRulesNotList
  | labelRulesHold (found : Node)
  | metaNotMapping
  | labelledNotList
  | labelledItem
  | listExpected (tag : String)
  | textExpected (tag field : String)
  | textListExpected (tag field : String)
  | amountExpected (tag : String)
  /-- A fault that a caller reports in its own words. -/
  | custom (message : String)
deriving Inhabited

namespace Fault

/-- What an error message says about a fault. -/
def message : Fault → String
  | boundsNotNumbers min max =>
    s!"Range !R bounds must be numbers, got [{min.display}, {max.display}]."
  | reversedRange min max =>
    s!"Range !R minimum {min.display} is greater than maximum {max.display}."
  | rangeLength length => s!"Range !R must have exactly 2 elements, got {length}."
  | rangeNotList => "Range !R must be a list of two numbers."
  | notStatic tag field found =>
    s!"!{tag} `{field}` values are copied as-is and cannot contain other !Proc tags, "
      ++ s!"found {found.describe}."
  | noOptions tag => s!"!{tag} needs at least one option."
  | paletteAmount limit amount =>
    s!"!ProcColor amount must be between 1 and {limit}, got {amount.toNat}."
  | noScales => "!ProcVector3Scaled needs at least one scale."
  | scaleNotNumber found => s!"!ProcVector3Scaled scales must be numbers, got {found.describe}."
  | scaleLabels scales labels =>
    s!"!ProcVector3Scaled has {scales} scales but {labels} labels. They should be equal."
  | baseNotVector found =>
    "!ProcVector3Scaled base must be a !Vector3 with numeric x, y and z, "
      ++ s!"got {found.describe}."
  | noVariables => "`variable` must name at least one variable."
  | caseArity index arity case references =>
    s!"Length of case {index} is {arity} and does not match with length {references.length} "
      ++ s!"of variables.\nCase {index}: {case.describe}\nVariables: "
      ++ ", ".intercalate references
  | outcomeCount cases outcomes =>
    s!"!ProcIf has {cases} cases but {outcomes} `then` values. They should be equal."
  | labelCount cases labels =>
    s!"!ProcIf has {cases} cases but {labels} labels. They should be equal."
  | ruleLabelCount cases labels =>
    s!"!ProcIfLabels has a different number of cases ({cases}) vs. labels ({labels}). "
      ++ "They should be equal."
  | keyNotScalar => "Mapping keys must be plain scalars."
  | itemAndValue => "!ProcRestrictCombinations takes either `item` or `value`, not both."
  | strayLabelRule =>
    "!ProcIfLabels can only be declared under proc_meta.proc_labels of the !ArenaConfig."
  | unknownTag tag => s!"Unknown tag !{tag}."
  | notMapping tag => s!"!{tag} must be a mapping."
  | keysNotText tag => s!"!{tag} keys must be strings."
  | idNotPlain => "`id` must be a plain value."
  | unexpectedKey key tag allowed =>
    s!"Unexpected key '{key}' in tag '{tag}'. Allowed keys: " ++ ", ".intercalate allowed ++ "."
  | missingKey tag key => s!"!{tag} is missing the required key '{key}'."
  | labelRulesNotList => "`proc_labels` must be a list of !ProcIfLabels."
  | labelRulesHold found =>
    s!"`proc_labels` must be a list of !ProcIfLabels, found {found.describe}."
  | metaNotMapping => "`proc_meta` must be a mapping."
  | labelledNotList => "!ProcListLabelled must be a list."
  | labelledItem => "!ProcListLabelled items must be a mapping of (value, label)."
  | listExpected tag => s!"!{tag} expects a list here."
  | textExpected tag field => s!"!{tag} `{field}` must be a string."
  | textListExpected tag field => s!"!{tag} `{field}` must be a list of strings."
  | amountExpected tag => s!"!{tag} amount must be a non-negative integer."
  | custom message => message

end Fault

end ArenaVariations
