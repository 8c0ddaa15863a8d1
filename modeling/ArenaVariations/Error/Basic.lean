import ArenaVariations.Error.Fault
import ArenaVariations.Text.Basic

/-!
# Errors

An `Error` is a cause: text that is not YAML, a file that could not be read, a fault of a tag, a
variation that could not be finished, or a breach of the library's own rules. Any of them may be
annotated, once, with the template it came from. `Error.label` is the short name for reports,
`Error.message` the full text. Everything but a breach is the template's doing and is reported to
its author.
-/

namespace ArenaVariations

/-- Where and why a text could not be read as YAML. -/
structure TextProblem where
  message : String
  source : String
  text : String
  /-- Byte position in the text, if it is known. -/
  index : Option Nat
  line : Nat
  column : Nat
deriving Inhabited

/-- A variation that could not be finished. -/
inductive Failure where
  /-- No record carries the id that a reference starts with. -/
  | unknownId (id reference : String)
  | noSuchValue (reference id : String)
  | circular (references : String)
  | noCase (references values : String)
  | noFallbackLabel (references values : String)
  /-- A failure that a caller reports under a label and in words of its own. -/
  | custom (label message : String)
deriving Inhabited

namespace Failure

/-- The short name of a failure. -/
def label : Failure → String
  | unknownId .. => "IDNotFound"
  | noSuchValue .. => "NonExistentVariable"
  | circular _ => "CircularCondition"
  | noCase .. | noFallbackLabel .. => "MissingCase"
  | custom label _ => label

/-- What an error message says about a failure. -/
def message : Failure → String
  | unknownId id reference =>
    s!"Could not find an Item with id '{id}', but it is needed for a variable ({reference})."
      ++ "\nDid you forget to specify the id in the corresponding Item?"
  | noSuchValue reference id =>
    s!"Could not find variable '{reference}' in Item '{id}', but it is referred to in some place "
      ++ "(e.g. a !ProcIf)."
  | circular references => s!"The !ProcIf on {references} depends on its own value."
  | noCase references values =>
    s!"Could not find a matching case for {references} = {values} in `cases` and there is no "
      ++ "default."
  | noFallbackLabel references values =>
    s!"Could not find a matching case for {references} = {values} in `cases` and there is no "
      ++ "default label."
  | custom _ message => message

end Failure

/-- A use of the library that its own rules exclude. -/
inductive Breach where
  /-- A rule for one sort of node was applied to another sort. -/
  | mismatch (rule : String) (found : Node)
  | labelRuleIterated
  | labelRuleSampled
  | placeholderExpanded
  | placeholderExplained
  | placeholderWritten
  /-- No placeholder stands at the place of one, given by child positions from the root. -/
  | placeholderMissing (place : List Nat)
  | placeholderLost (place : List Nat)
  | emptyChoice
  /-- Text that could not be produced. -/
  | unwritable (detail : String)
  /-- A breach that a caller reports in its own words. -/
  | custom (message : String)
deriving Inhabited

namespace Breach

/-- What an error message says about a breach. -/
def message : Breach → String
  | mismatch rule found => s!"Handler {rule} was called with {found.describe}"
  | labelRuleIterated => ".iterate should not be called on ProcIfLabels."
  | labelRuleSampled => ".sample should not be called on ProcIfLabels."
  | placeholderExpanded => "An unresolved !ProcIf cannot be expanded again."
  | placeholderExplained => "Cannot explain the count of an already expanded variation."
  | placeholderWritten => "An unresolved !ProcIf was about to be written."
  | placeholderMissing place => s!"Expected an unresolved !ProcIf at {place}"
  | placeholderLost place => s!"Lost the !ProcIf at {place}"
  | emptyChoice => "Cannot choose from a list without options."
  | unwritable detail => "Format error: " ++ detail
  | custom message => message

end Breach

/-- Why an operation failed. Excerpts are the YAML text of the offending part. -/
inductive Error where
  | unreadable (problem : TextProblem)
  | io (path message : String)
  | malformed (fault : Fault) (excerpt : Option String)
  | unresolved (failure : Failure) (excerpt : Option String)
  | internal (breach : Breach)
  | inSource (source : String) (error : Error)
deriving Inhabited

namespace Error

/-- A fault without an excerpt. -/
def ofFault (fault : Fault) : Error := malformed fault none

/-- Annotate an error with its template. An annotated error is left alone. -/
def annotate (source : String) : Error → Error
  | inSource s e => inSource s e
  | e => inSource source e

@[simp] theorem annotate_annotate (s t : String) (e : Error) :
    (e.annotate s).annotate t = e.annotate s := by
  cases e <;> rfl

/-- The error without its annotation. -/
def root : Error → Error
  | inSource _ e => e.root
  | e => e

/-- A short name for reports. -/
def label : Error → String
  | unreadable _ => "ParseError"
  | io .. => "IOError"
  | malformed .. => "InvalidStructure"
  | unresolved failure _ => failure.label
  | internal _ => "InternalError"
  | inSource _ e => e.label

/-- Whether the template is to blame, so that the error can be reported for it alone. -/
def isUserFacing : Error → Bool
  | internal _ => false
  | inSource _ e => e.isUserFacing
  | _ => true

/-- The full text of an error. -/
def message : Error → String
  | unreadable p => s!"Parse error: {p.message} at {p.source}:{p.line}:{p.column}"
  | io path message => s!"Could not read {path}: {message}"
  | malformed fault excerpt =>
    "Structure error: " ++ fault.message ++ (match excerpt with
      | some e => "\n" ++ Text.boxed e
      | none => "")
  | unresolved failure excerpt =>
    (match excerpt with
      | some e => Text.boxed e ++ "\n"
      | none => "") ++ s!"Error ({failure.label}): {failure.message}"
  | internal breach => "Internal error: " ++ breach.message
  | inSource source e => s!"{e.label} in {source}\n{e.message}"

/-- The text of an error for a terminal: a breach is flagged as not being the template's fault,
and text that is not YAML is not prefixed with its source, which the message names already. -/
def report : Error → String
  | internal breach =>
    s!"Internal error: {breach.message}\nThis is a bug in procgen, not in the template."
  | inSource source e => match e with
    | unreadable _ => e.report
    | _ => s!"{e.label} in {source}\n" ++ e.report
  | e => e.message

end Error

end ArenaVariations
