import ArenaVariations.Command.Basic
import ArenaVariations.Files.Workspace
import ArenaVariations.Output
import ArenaVariations.Report.Count
import ArenaVariations.Template.Reading
import ArenaVariations.Text.Basic

/-!
# Running commands

A command reads templates from a workspace and leaves its results there. The results of a template
are put into a hidden folder next to the output folder, one after the other as they are produced,
and moved into the output folder when all of them are there. The hidden folder goes in any case, so
a template that fails leaves no results behind; the folder that the output folder lies in may have
been created by then.

All templates of a run draw from one generator. In a bulk run a template that fails is reported
next to where its results would have gone, and the run goes on; it ends when the library itself
is to blame or an output cannot be written.
-/

namespace ArenaVariations

open ArenaVariations.Random (Generator)

namespace Results

/-- The file of a variation, and its row in the index. -/
def ofVariation (stem : String) (index : Nat) (v : Variation) :
    Except Error ((String × String) × String) := do
  let name := Output.variationName stem index v.labels
  return ((name, ← v.node.toYaml), LabelIndex.row name v.labels)

end Results

/-- What a run holds while it goes on. -/
structure Progress where
  generator : Generator
  printed : String

/-- A part of a run in a workspace. -/
abbrev Run (m : Type → Type) := ExceptT CommandFailure (StateT Progress m)

namespace Run

section

variable {m : Type → Type} [Monad m] [Workspace m]

/-- Print a text. -/
def print (text : String) : Run m Unit :=
  modify fun p => { p with printed := p.printed ++ text }

/-- Use the workspace. -/
def inWorkspace {α : Type} (action : m α) : Run m α :=
  liftM action

/-- The result of a step on the template of a path. -/
def ofTemplate {α : Type} (path : Path) : Except Error α → Run m α
  | .ok a => return a
  | .error e => throw (.template (e.annotate path.text))

/-- Read the template at a path. -/
def read (path : Path) : m (Except Error Node) := do
  match ← Workspace.readText path with
  | .ok text => return Node.parse text path.text
  | .error problem => return .error (.io path.text problem.message)

/-- Draw from the generator of the run. -/
def draw {α : Type} (d : Draw α) : Run m α :=
  modifyGet fun p =>
    let (a, g) := d.run p.generator
    (a, { p with generator := g })

/-- Use the workspace for something that the run cannot go on without. -/
def require (action : m Bool) (failure : CommandFailure) : Run m Unit := do
  unless ← inWorkspace action do
    throw failure

/-- Create a folder and those that it lies in. -/
def createFolders (path : Path) : Run m Unit :=
  require (Workspace.createFolders path) (.folderNotCreated path)

/-- What became of a template. -/
structure Expansion where
  count : Nat
  explanation : String
  /-- The number of variations that were written, unless the template was refused. -/
  written : Option Nat
deriving Inhabited

/-- The folder that a folder lies in. -/
def enclosing (folder : Path) : Path :=
  match folder.parent? with
  | some parent => if parent.text = "" then ⟨"."⟩ else parent
  | none => ⟨"."⟩

/-- The text of a result. Only the library itself can be to blame if there is none. -/
def ofWriting {α : Type} : Except Error α → Run m α
  | .ok a => return a
  | .error e => throw (.template e)

/-- Put a result into the hidden folder. -/
def stage (hidden : Path) (name text : String) : Run m Unit :=
  require (Workspace.writeText (hidden.join ⟨name⟩) text) (.notWritten (hidden.join ⟨name⟩))

/-- Put the copy of the template into the hidden folder, if there is to be one. -/
def stageCopy (document : Node) (hidden : Path) (copyTemplate : Bool) : Run m Unit := do
  if copyTemplate then
    stage hidden templateCopyName (← ofWriting document.toYaml)

/-- Produce the next variations of a template, up to so many, and put each of them into the hidden
folder before the next one. The result is their rows in the index. -/
def stageVariations (path hidden : Path) : Nat → Nat → Production → Run m (List String)
  | 0, _, _ => return []
  | amount + 1, index, p => do
    match ← draw p.next with
    | (.done, _) => return []
    | (.failed e, _) => ofTemplate path (.error e)
    | (.item v, p) =>
      let ((name, text), row) ← ofWriting (Results.ofVariation (Output.stem path) index v)
      stage hidden name text
      return row :: (← stageVariations path hidden amount (index + 1) p)

/-- The names in a folder. -/
def namesIn (folder : Path) : Run m (List String) := do
  match ← inWorkspace (Workspace.outline folder) with
  | .folder entries => return entries.map Prod.fst
  | .file _ => return []

/-- Move files from the hidden folder into the output folder. -/
def moveAllTo (hidden folder : Path) : List String → Run m Unit
  | [] => return
  | name :: names => do
    require (Workspace.moveFile (hidden.join ⟨name⟩) (folder.join ⟨name⟩))
      (.notMoved (folder.join ⟨name⟩))
    moveAllTo hidden folder names

/-- Move everything out of the hidden folder into the output folder. -/
def deliver (hidden folder : Path) : Run m Unit := do
  createFolders folder
  moveAllTo hidden folder (← namesIn hidden)

/-- Work with a hidden folder next to a folder. It is gone when the work is done or has failed. -/
def withHidden {α : Type} (folder : Path) (work : Path → Run m α) : Run m α := do
  createFolders (enclosing folder)
  match ← inWorkspace (Workspace.createHidden (enclosing folder) folder) with
  | none => throw (.notStaged (enclosing folder))
  | some hidden =>
    let outcome ← ExceptT.lift (work hidden).run
    inWorkspace (Workspace.removeFolder hidden)
    match outcome with
    | .ok a => return a
    | .error failure => throw failure

/-- Produce all results of a template in the hidden folder, and move them into the output folder.
The result is the number of variations. -/
def fill (path : Path) (document : Node) (production : Production) (amount : Nat) (folder : Path)
    (copyTemplate : Bool) (hidden : Path) : Run m Nat := do
  let index := hidden.join ⟨labelIndexName⟩
  require (Workspace.writeText index "") (.notCreated index)
  stageCopy document hidden copyTemplate
  let rows ← stageVariations path hidden amount 1 production
  stage hidden labelIndexName (String.join rows)
  deliver hidden folder
  return rows.length

/-- Write the variations of a template that was not refused. -/
def produce (path : Path) (document : Node) (mode : Mode) (amount : Nat) (folder : Path)
    (copyTemplate : Bool) : Run m Nat := do
  let template ← ofTemplate path ((Template.ofDocument document).mapError Error.ofFault)
  withHidden folder
    (fill path document (Production.ofTemplate template mode amount) amount folder copyTemplate)

/-- The number of variations to produce at most, and how, unless a template with so many of them
is refused. -/
def plan (request : Request) (limits : Limits) (count : Nat) : Option (Mode × Nat) :=
  match request with
  | .sample amount => some (.sample, amount)
  | .generate head =>
    if head.isNone && !limits.allows count then none
    else
      let cap := min count limits.maxVariations
      some (.exhaustive, min (Nat.pow 2 64 - 1) (match head with
        | some head => min cap head
        | none => cap))

/-- Write the variations of the template at a path into a folder. -/
def expand (path : Path) (request : Request) (options : WriteOptions) (folder : Path) :
    Run m Expansion := do
  let document ← ofTemplate path (← inWorkspace (read path))
  let count := document.count
  let explanation ← ofTemplate path document.explain
  match plan request options.limits count with
  | none => return ⟨count, explanation, none⟩
  | some (mode, amount) =>
    let written ← produce path document mode amount folder options.copyTemplate
    return ⟨count, explanation, some written⟩

/-- Write the variations of a single template. -/
def write (path : Path) (request : Request) (options : WriteOptions) : Run m Unit := do
  if ← inWorkspace (Workspace.isFolder path) then
    throw (.isFolder path)
  let folder := options.output.getD (Output.defaultFolder path)
  let expansion ← expand path request options folder
  print (Report.single expansion.count expansion.explanation)
  match expansion.written with
  | some written => print s!"Wrote {written} variation(s) to {folder.text}\n"
  | none => throw (.tooMany expansion.count options.limits.maxVariations)

/-- Count the variations of a single template. -/
def count (path : Path) : Run m Unit := do
  let document ← ofTemplate path (← inWorkspace (read path))
  let explanation ← ofTemplate path document.explain
  print (Report.single document.count explanation)

/-- The templates below a root. -/
def discover (root : Path) (bulk : BulkOptions) : Run m (List Path) := do
  unless ← inWorkspace (Workspace.isFolder root) do
    throw (.notFolder root)
  return bulk.discovery.templates root (← inWorkspace (Workspace.outline root))

/-- Write the report on a failed template. -/
def writeReport (folder : Path) (stem report : String) : Run m Unit := do
  createFolders folder
  let target := folder.join ⟨stem ++ ".error.txt"⟩
  require (Workspace.writeText target (Text.trimEnd report ++ "\n")) (.notWritten target)

/-- The label and the report of a failure that concerns a template alone. -/
def reportable? : CommandFailure → Option (String × String)
  | .template e => if e.isUserFacing then some (e.label, e.message) else none
  | _ => none

/-- Why a template was refused, for its report. -/
def refusalReport (template : Path) (count limit : Nat) (explanation : String) : String :=
  s!"TooManyVariations in {template.text}\n" ++ CommandFailure.refusal count limit ++ "\n"
    ++ explanation

/-- Write the variations of a template of a bulk run. The result is the label of its failure. -/
def writeOne (root output template : Path) (request : Request) (options : WriteOptions)
    (flatten : Bool) : Run m (Option String) := do
  let folder := Bulk.outputFolder root template output flatten
  let report := writeReport (Bulk.errorFolder root template output flatten) (Output.stem template)
  let outcome ← ExceptT.lift (expand template request options folder).run
  match outcome with
  | .ok expansion =>
    match expansion.written with
    | some written =>
      print s!"{template.text}\t{expansion.count}\t{written} written\n"
      return none
    | none =>
      report (refusalReport template expansion.count options.limits.maxVariations
        expansion.explanation)
      return some "TooManyVariations"
  | .error failure =>
    match reportable? failure with
    | some (label, text) =>
      report text
      return some label
    | none => throw failure

/-- Write the variations of some templates. The result lists those that failed. -/
def writeEach (root output : Path) (request : Request) (options : WriteOptions)
    (flatten : Bool) : List Path → Run m (List (String × String))
  | [] => return []
  | template :: templates => do
    let failure ← writeOne root output template request options flatten
    let failures ← writeEach root output request options flatten templates
    return failure.toList.map (fun label => (template.text, label)) ++ failures

/-- Write the variations of all templates below a root. -/
def writeAll (root : Path) (request : Request) (options : WriteOptions) (bulk : BulkOptions) :
    Run m Unit := do
  let templates ← discover root bulk
  let output := options.output.getD ⟨"tmp"⟩
  let failed ← writeEach root output request options bulk.flatten templates
  print (Report.summary templates.length failed)
  unless failed.isEmpty do
    throw (.templatesFailed failed.length templates.length output)

/-- Count the variations of a template of a bulk run. -/
def countOne (template : Path) : Run m CountReport := do
  let document ← inWorkspace (read template)
  match document.bind fun n => n.explain.map fun explanation => (n.count, explanation) with
  | .ok (count, explanation) => return ⟨template.text, .counted count explanation⟩
  | .error e =>
    if e.isUserFacing then return ⟨template.text, .failed e.label⟩
    else throw (.template (e.annotate template.text))

/-- Count the variations of all templates below a root. -/
def countAll (root : Path) (json : Bool) (bulk : BulkOptions) : Run m Unit := do
  let templates ← discover root bulk
  let reports ← templates.mapM countOne
  print (if json then CountReport.json reports ++ "\n" else CountReport.table reports)
  let failed := (reports.filter CountReport.isFailure).length
  unless failed = 0 do
    throw (.templatesUncounted failed reports.length)

/-- What a command does. -/
def ofCommand : Command → Run m Unit
  | .write path request options => write path request options
  | .count path => count path
  | .writeAll root request options bulk => writeAll root request options bulk
  | .countAll root json bulk => countAll root json bulk

end

end Run

namespace Command

/-- The seed of a command's generator. -/
def seed : Command → UInt64
  | .write _ _ options | .writeAll _ _ options _ => options.limits.seed
  | .count _ | .countAll .. => Limits.seed {}

/-- Run a command in a workspace. -/
def run {m : Type → Type} [Monad m] [Workspace m] (c : Command) : m Outcome := do
  let (result, progress) ← (Run.ofCommand (m := m) c).run.run ⟨.ofSeed c.seed, ""⟩
  return match result with
    | .ok () => ⟨0, progress.printed, ""⟩
    | .error failure => ⟨1, progress.printed, failure.report⟩

end Command

end ArenaVariations
