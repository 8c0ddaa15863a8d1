import ArenaVariations.Expansion.Count
import ArenaVariations.Expansion.Enumeration

/-!
# Applying a rule by name

Every node is expanded by the rule of its sort. This module says what happens when a rule is
applied to a node of another sort: leaves' rules copy any node, the rules that always fail or
count one do so for every node, and all others report the mismatch.
-/

namespace ArenaVariations

namespace Rule

/-- Whether a node is of the rule's sort. -/
def accepts (rule : Rule) (n : Node) : Bool :=
  n.rule == rule

/-- The error of a rule that was applied to another sort of node. -/
def mismatch (rule : Rule) (n : Node) : Error :=
  .internal (.mismatch rule.name n)

/-- The number of variations of a node by a rule. -/
def count (rule : Rule) (n : Node) : Except Error Nat :=
  if rule.accepts n then return n.count
  else if rule.role = .combinatorial then throw (rule.mismatch n)
  else return 1

/-- The children of a node by a rule. -/
def children (rule : Rule) (n : Node) : List Node :=
  if rule.accepts n then n.children else []

/-- The only variation that a rule finds for a node of another sort. Label rules are reported as
given. -/
def foreign (rule : Rule) (n : Node) (misplaced : Breach) : Except Error Variation :=
  match rule with
  | interval | tagged | scalar => return .unlabelled n
  | labelRule => throw (.internal misplaced)
  | placeholder => throw (.internal .placeholderExpanded)
  | _ => throw (rule.mismatch n)

/-- Draw a variation of a node by a rule. -/
def sample (rule : Rule) (n : Node) : Drawing Variation :=
  if rule.accepts n then n.sample
  else match rule.foreign n .labelRuleSampled with
    | .ok v => return v
    | .error e => throw e

/-- The step of an enumeration of a node by a rule. -/
def advance (rule : Rule) (n : Node) (cursor : Cursor) : Draw (Pull Variation × Cursor) :=
  if rule.accepts n then n.advance cursor
  else return Node.once (rule.foreign n .labelRuleIterated) cursor

end Rule

end ArenaVariations
