import ArenaVariations.Error.Basic

/-!
# Templates

A document is split into the tree to expand and the label rules that its settings hold. Only an
arena configuration at the root has settings.
-/

namespace ArenaVariations

/-- A document ready for expansion. -/
structure Template where
  body : Node
  /-- Label rules, in the order in which they apply. -/
  rules : List (LabelRule Node)
deriving Inhabited

namespace Template

/-- The label rules among the items of a list, all of which must be label rules. -/
def rulesOf : List Node → Except Fault (List (LabelRule Node))
  | [] => return []
  | .labelRule rule :: rest => return rule :: (← rulesOf rest)
  | other :: _ => throw (.labelRulesHold other)

/-- The label rules that the settings of a document hold. -/
def rulesOfSettings (settings : Node) : Except Fault (List (LabelRule Node)) := do
  let .container (.mapping _) _ := settings | throw .metaNotMapping
  match settings.valueNamed? labelRulesKey with
  | none => return []
  | some (.container .sequence items) => rulesOf items
  | some _ => throw .labelRulesNotList

/-- Split a document. -/
def ofDocument (document : Node) : Except Fault Template := do
  let .container (.record .arenaConfig id names) children := document | return ⟨document, []⟩
  let some position := names.idxOf? metaField | return ⟨document, []⟩
  let some settings := children[position]? | return ⟨document, []⟩
  let rules ← rulesOfSettings settings
  return ⟨.container (.record .arenaConfig id (names.eraseIdx position))
    (children.eraseIdx position), rules⟩

end Template

end ArenaVariations
