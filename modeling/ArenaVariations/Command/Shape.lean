import ArenaVariations.Command.Basic
import ArenaVariations.Decimal.Reading

/-!
# Shapes of commands

What each command takes: its options and its positional arguments, which values they accept, and
what a help page says about them. The order of the options is that of the help page.
-/

namespace ArenaVariations

namespace CommandLine

/-- How many values an option takes. -/
inductive Arity where
  | flag
  | one
  /-- One value or more, up to the next option. -/
  | many
deriving DecidableEq, Repr, Inhabited

/-- What a help page says about a part of the program. -/
structure Notes where
  /-- One line. -/
  summary : String
  /-- A longer text in the place of the summary, for long help pages. -/
  details : Option String
deriving Repr, Inhabited

/-- Values of options and positional arguments. -/
structure ValueSpec where
  /-- What a help page calls the value. -/
  name : String
  /-- Which texts are such values. -/
  accepts : String → Bool
  /-- The value that is taken if none is given. -/
  default : Option String
deriving Inhabited

/-- An option of a command. -/
structure Spec where
  long : String
  short : Option Char
  arity : Arity
  value : ValueSpec
  /-- An option that it replaces. -/
  replaces : Option String
  notes : Notes
deriving Inhabited

/-- A positional argument of a command. -/
structure Positional where
  value : ValueSpec
  required : Bool
  notes : Notes
deriving Inhabited

/-- What a command takes. -/
structure Shape where
  name : String
  notes : Notes
  options : List Spec
  positionals : List Positional
deriving Inhabited

/-- A number of so many bits: digits after an optional plus sign. -/
def unsigned? (bits : Nat) (s : String) : Option Nat :=
  let digits := match s.toList with
    | '+' :: rest => rest
    | cs => cs
  if digits.isEmpty || !digits.all Char.isDigit then none
  else
    let n := natOfDigits 10 digits
    if n < Nat.pow 2 bits then some n else none

namespace Notes

/-- A summary without details. -/
def line (summary : String) : Notes := ⟨summary, none⟩

/-- A summary and a further paragraph. -/
def paragraphs (summary further : String) : Notes :=
  ⟨summary, some (summary ++ ".\n\n" ++ further)⟩

/-- A heading without a full stop, and a further paragraph. -/
def headed (summary further : String) : Notes :=
  ⟨summary, some (summary ++ "\n\n" ++ further)⟩

end Notes

namespace ValueSpec

/-- No value at all. -/
def absent : ValueSpec := ⟨"", fun _ => true, none⟩

/-- Any path but an empty one. -/
def path (name : String) : ValueSpec := ⟨name, fun s => s != "", none⟩

/-- Numbers of so many bits. -/
def unsigned (name : String) (bits : Nat) (default : Option Nat) : ValueSpec :=
  ⟨name, fun s => (unsigned? bits s).isSome, default.map toString⟩

end ValueSpec

/-- An option without a value. -/
def flag (long : String) (short : Option Char) (notes : Notes) : Spec :=
  ⟨long, short, .flag, .absent, none, notes⟩

/-- The option that asks for more messages. It is accepted everywhere. -/
def verbose : Spec :=
  flag "verbose" (some 'v') (.line "Log every generated variation (overridden by RUST_LOG)")

/-- The option that gives the seed. -/
def seedOption : Spec :=
  ⟨"seed", some 's', .one, .unsigned "SEED" 64 (some (Limits.seed {}).toNat), none,
    .line "Seed for random number generation"⟩

/-- The options that tell where variations are written. -/
def outputOptions : List Spec :=
  [⟨"output", some 'o', .one, .path "OUTPUT", none,
      .line ("Output directory for the variations (default: tmp/<template>_variations, "
        ++ "or tmp for bulk runs)")⟩,
    { flag "copy-template" none
        (.line "Copy the template to the output directory (default)") with
      replaces := some "no-copy-template" },
    { flag "no-copy-template" none
        (.line "Do not copy the template to the output directory") with
      replaces := some "copy-template" }]

/-- The options of commands that work on folders. -/
def bulkOptions : List Spec :=
  [⟨"ignore-dirs", some 'i', .many, .path "IGNORE_DIRS", none,
      .line "Directories to skip, by name or path relative to the template directory"⟩,
    flag "no-ignore-hidden" none (.line "Also look for templates in hidden directories"),
    flag "flatten" none
      (.paragraphs "Put all variation directories directly under the output directory"
        "Templates with the same file name overwrite each other's variations.")]

/-- The option that caps the number of variations. -/
def maxOption (summary : String) : Spec :=
  ⟨"max", some 'm', .one, .unsigned "MAX" 128 (some (Limits.maxVariations {})), none,
    .line summary⟩

/-- The option that asks for the first variations only. -/
def headOption : Spec :=
  ⟨"head", none, .one, .unsigned "HEAD" 64 none, none,
    .line "Only generate the first N variations"⟩

/-- The path that every command works on. -/
def pathArgument (summary : String) : Positional :=
  ⟨.path "PATH", true, .line summary⟩

/-- How many variations to sample. -/
def amountArgument (summary : String) : Positional :=
  ⟨.unsigned "AMOUNT" 64 (some (Limits.sampleAmount {})), false, .line summary⟩

/-- What every command takes. -/
def shapes : List Shape :=
  let file := pathArgument "Template file"
  let folder := pathArgument "Directory containing template files"
  [⟨"sample",
      .headed "Sample random variations of a template"
        ("Draws every variation independently, so the same variation can appear more than "
          ++ "once."),
      seedOption :: verbose :: outputOptions,
      [file, amountArgument "Number of variations to sample"]⟩,
    ⟨"gen",
      .headed "Generate every variation of a template"
        "Refuses templates with more than --max variations unless --head is given.",
      maxOption "Largest number of variations to generate" :: verbose :: headOption
        :: seedOption :: outputOptions,
      [file]⟩,
    ⟨"count",
      .line "Count the variations of a template and show where the count comes from",
      [verbose], [file]⟩,
    ⟨"sample-bulk",
      .line "Sample random variations of every template in a directory",
      seedOption :: verbose :: outputOptions ++ bulkOptions,
      [folder, amountArgument "Number of variations to sample per template"]⟩,
    ⟨"gen-bulk",
      .headed "Generate every variation of every template in a directory"
        "Templates with more than --max variations are reported as failed.",
      maxOption "Largest number of variations to generate per template" :: verbose
        :: seedOption :: outputOptions ++ bulkOptions,
      [folder]⟩,
    ⟨"count-bulk",
      .line "Count the variations of every template in a directory",
      flag "json" none (.line "Print the counts as JSON") :: verbose :: bulkOptions,
      [folder]⟩]

/-- What the command of a name takes. -/
def shape? (name : String) : Option Shape :=
  shapes.find? fun shape => shape.name == name

/-- What stands before the name of the command. -/
def programShape : Shape :=
  ⟨"procgen",
    ⟨"Procedurally generate variations of an AnimalAI task definition.",
      some ("procgen expands an AnimalAI arena template annotated with !Proc* tags into "
        ++ "concrete task variations.\nThe CLI counts variations, samples them at random, or "
        ++ "generates every one of them, for a single template or a whole directory.")⟩,
    [verbose], []⟩

end CommandLine

end ArenaVariations
