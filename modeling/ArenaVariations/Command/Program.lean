import ArenaVariations.Command.Arguments
import ArenaVariations.Command.Run

/-!
# The program

A run of the program reads its command line and does what it asks for. A malformed command line
ends with status 2, a failed command with status 1.

The program also explains itself. A help page says what the program or one of its commands is for,
how it is called and what it takes. A page is short or long. On a short page everything has one
line, its text in a column of its own; a long page shows all details, each text below the option or
argument it belongs to. If nothing has details, the long page is the short one.
-/

namespace ArenaVariations

namespace CommandLine

/-- An entry of a help page: what is explained, and what is said about it. -/
structure HelpEntry where
  label : String
  text : String
deriving Repr, Inhabited

/-- A part of a help page: a heading with entries, whose texts stand beside them or below. -/
structure HelpSection where
  heading : String
  beside : Bool
  entries : List HelpEntry
deriving Repr, Inhabited

namespace HelpSection

/-- The width of the labels. -/
def labelWidth (entries : List HelpEntry) : Nat :=
  (entries.map fun e => e.label.length).foldl max 0

/-- An entry with its text in a column. -/
def besideEntry (width : Nat) (e : HelpEntry) : String :=
  "  " ++ e.label ++ String.ofList (List.replicate (width + 2 - e.label.length) ' ') ++ e.text

/-- An entry with its text below it. -/
def belowEntry (e : HelpEntry) : String :=
  let margin := "\n          "
  "  " ++ e.label ++ margin ++ margin.intercalate (e.text.splitOn "\n")

/-- The lines of a section. -/
def render (s : HelpSection) : String :=
  s.heading ++ ":\n" ++
    if s.beside then "\n".intercalate (s.entries.map (besideEntry (labelWidth s.entries)))
    else "\n\n".intercalate (s.entries.map belowEntry)

end HelpSection

/-- A help page. -/
structure HelpPage where
  about : String
  usage : String
  sections : List HelpSection
deriving Repr, Inhabited

/-- The text of a help page. Sections without entries are left out. -/
def HelpPage.render (p : HelpPage) : String :=
  let sections := (p.sections.filter fun s => !s.entries.isEmpty).map HelpSection.render
  "\n\n".intercalate (p.about :: ("Usage: " ++ p.usage) :: sections) ++ "\n"

/-- The text of a page of the given kind. -/
def Notes.show (long : Bool) (n : Notes) : String :=
  if long then n.details.getD n.summary else n.summary

/-- A text with the default of its value. -/
def ValueSpec.noteDefault (long : Bool) (v : ValueSpec) (text : String) : String :=
  match v.default with
  | some d => text ++ (if long then "\n\n" else " ") ++ s!"[default: {d}]"
  | none => text

/-- An option as it is written on a command line, its names in columns. -/
def Spec.label (s : Spec) : String :=
  let short := match s.short with
    | some c => String.ofList ['-', c, ',', ' ']
    | none => "    "
  let value := match s.arity with
    | .flag => ""
    | .one => s!" <{s.value.name}>"
    | .many => s!" <{s.value.name}>..."
  short ++ "--" ++ s.long ++ value

/-- The entry of an option. -/
def Spec.entry (long : Bool) (s : Spec) : HelpEntry :=
  ⟨s.label, s.value.noteDefault long (s.notes.show long)⟩

/-- A positional argument as it is written on a command line. -/
def Positional.label (p : Positional) : String :=
  if p.required then s!"<{p.value.name}>" else s!"[{p.value.name}]"

/-- The entry of a positional argument. -/
def Positional.entry (long : Bool) (p : Positional) : HelpEntry :=
  ⟨p.label, p.value.noteDefault long (p.notes.show long)⟩

namespace Shape

/-- Whether the long help page of a command differs from the short one. -/
def hasDetails (s : Shape) : Bool :=
  s.notes.details.isSome || s.options.any fun option => option.notes.details.isSome

/-- The option that asks for a help page. -/
def helpOption (s : Shape) (long : Bool) : Spec :=
  flag "help" (some 'h') (.line (
    if !s.hasDetails then "Print help"
    else if long then "Print help (see a summary with '-h')"
    else "Print help (see more with '--help')"))

/-- The help page of a command, with sections before its arguments and options after the others. -/
def page (s : Shape) (long : Bool) (usage : String) (first : List HelpSection)
    (last : List Spec) : HelpPage :=
  let long := long && s.hasDetails
  { about := s.notes.show long
    usage
    sections := first ++
      [⟨"Arguments", !long, s.positionals.map (Positional.entry long)⟩,
        ⟨"Options", !long, (s.options ++ s.helpOption long :: last).map (Spec.entry long)⟩] }

/-- How a command is called. -/
def usage (s : Shape) : String :=
  " ".intercalate (programShape.name :: s.name :: "[OPTIONS]" :: s.positionals.map Positional.label)

/-- The help page of a command. -/
def help (s : Shape) (long : Bool) : HelpPage :=
  s.page long s.usage [] []

end Shape

/-- What the command for help pages does. -/
def helpNotes : Notes :=
  .line "Print this message or the help of the given subcommand(s)"

/-- How the program is called. -/
def programUsage : String := programShape.name ++ " [OPTIONS] <COMMAND>"

/-- The help page of the program. -/
def programHelp (long : Bool) : HelpPage :=
  let commands := shapes.map (fun s => HelpEntry.mk s.name s.notes.summary)
    ++ [⟨"help", helpNotes.summary⟩]
  programShape.page long programUsage [⟨"Commands", true, commands⟩]
    [flag "version" (some 'V') (.line "Print version")]

/-- The help page of the command for help pages. -/
def helpHelp : HelpPage :=
  { about := helpNotes.summary
    usage := programShape.name ++ " help [COMMAND]..."
    sections := [⟨"Arguments", true, [⟨"[COMMAND]...", "Print help for the subcommand(s)"⟩]⟩] }

/-- The help page of the command of a name, or of the program. -/
def help (command : Option String) (long : Bool) : HelpPage :=
  match command with
  | none => programHelp long
  | some name =>
    match shape? name with
    | some shape => shape.help long
    | none => helpHelp

end CommandLine

/-- The name of the program and its version. -/
def versionText : String := "procgen 0.3.0\n"

/-- How the program is called. -/
def usageText : String := "Usage: " ++ CommandLine.programUsage ++ "\n"

/-- Run the program in a workspace. -/
def runProgram {m : Type → Type} [Monad m] [Workspace m] (arguments : List String) : m Outcome :=
  match CommandLine.command arguments with
  | .ok command => command.run
  | .error .version => return ⟨0, versionText, ""⟩
  | .error (.help command long) => return ⟨0, (CommandLine.help command long).render, ""⟩
  | .error .usage => return ⟨2, "", usageText⟩

end ArenaVariations
