import ArenaVariations.Command.Shape

/-!
# Command lines

A command line names a command and gives it options and positional arguments, in any order. A long
option starts with two dashes and takes its value after an equals sign or as the next argument.
Short options start with one dash and may be written together; the rest of the argument, after an
equals sign or without one, is the value of the first of them that takes a value. After two dashes
alone everything is positional. An option is given once, unless it collects a list; a value that
an option cannot take is an error as soon as the option is complete.
-/

namespace ArenaVariations

namespace CommandLine

/-- A command line that asks for something else than a command. -/
inductive Stop where
  /-- The command line is malformed. -/
  | usage
  /-- A help page, of the program if no command is named. -/
  | help (command : Option String) (long : Bool)
  | version
deriving DecidableEq, Repr, Inhabited

/-- What was read from a command line so far. -/
structure Reading where
  /-- The options that are complete, with their values. -/
  given : List (String × List String)
  positionals : List String
  /-- An option whose values are being read. -/
  current : Option (Spec × List String)
deriving Inhabited

namespace Reading

/-- Record an option with its values. -/
def record (r : Reading) (spec : Spec) (values : List String) : Except Stop Reading :=
  let earlier := r.given.lookup spec.long
  let kept := r.given.filter fun entry => some entry.1 != spec.replaces
  if !values.all spec.value.accepts then throw .usage
  else
    match spec.arity, earlier with
    | .many, some vs =>
      return { r with given := (spec.long, vs ++ values)
        :: kept.filter fun entry => entry.1 != spec.long }
    | _, some _ => throw .usage
    | _, none => return { r with given := (spec.long, values) :: kept }

/-- Complete the option whose values are being read. It needs a value. -/
def complete (r : Reading) : Except Stop Reading :=
  match r.current with
  | none => return r
  | some (_, []) => throw .usage
  | some (spec, values) => { r with current := none }.record spec values

/-- Read a positional argument. -/
def positional (shape : Shape) (r : Reading) (value : String) : Except Stop Reading := do
  let r ← r.complete
  match shape.positionals[r.positionals.length]? with
  | some argument =>
    if argument.value.accepts value then return { r with positionals := r.positionals ++ [value] }
    else throw .usage
  | none => throw .usage

/-- Read an option, with the value that is written in the same argument. -/
def option (r : Reading) (spec : Spec) (attached : Option String) : Except Stop Reading := do
  let r ← r.complete
  match spec.arity, attached with
  | .flag, some _ => throw .usage
  | .flag, none => r.record spec []
  | _, some value => r.record spec [value]
  | _, none => return { r with current := some (spec, []) }

/-- Read a long option: a name, and perhaps a value after an equals sign. -/
def longOption (command : Option String) (shape : Shape) (r : Reading) (text : List Char) :
    Except Stop Reading := do
  let name := String.ofList (text.takeWhile (· ≠ '='))
  let attached := match text.dropWhile (· ≠ '=') with
    | [] => none
    | _ :: value => some (String.ofList value)
  match shape.options.find? fun spec => spec.long == name with
  | some spec => r.option spec attached
  | none =>
    if name = "help" ∧ attached = none then
      let _ ← r.complete
      throw (.help command true)
    else if name = "version" ∧ attached = none ∧ command = none then throw .version
    else throw .usage

/-- Read short options that are written together. -/
def shortOptions (command : Option String) (shape : Shape) (r : Reading) :
    List Char → Except Stop Reading
  | [] => return r
  | c :: rest =>
    match shape.options.find? fun spec => spec.short == some c with
    | some spec =>
      if spec.arity = .flag then do (← r.option spec none).shortOptions command shape rest
      else
        r.option spec (match rest with
          | [] => none
          | '=' :: value => some (String.ofList value)
          | value => some (String.ofList value))
    | none =>
      if c = 'h' then do
        let _ ← r.complete
        throw (.help command false)
      else if c = 'V' ∧ command = none then throw .version
      else throw .usage

/-- Read the arguments of a command. -/
def arguments (command : String) (shape : Shape) (r : Reading) :
    List String → Except Stop Reading
  | [] => r.complete
  | text :: rest => do
    match text.toList with
    | ['-', '-'] => rest.foldlM (positional shape) (← r.complete) >>= complete
    | '-' :: '-' :: name =>
      (← r.longOption (some command) shape name).arguments command shape rest
    | '-' :: c :: cs =>
      (← r.shortOptions (some command) shape (c :: cs)).arguments command shape rest
    | _ =>
      match r.current with
      | some (spec, values) =>
        if spec.arity = .many ∨ values = [] then
          arguments command shape ({ r with current := some (spec, values ++ [text]) }) rest
        else (← r.positional shape text).arguments command shape rest
      | none => (← r.positional shape text).arguments command shape rest

/-- The value of an option. -/
def value? (r : Reading) (long : String) : Option String :=
  (r.given.lookup long).bind List.head?

/-- Whether an option was given. -/
def has (r : Reading) (long : String) : Bool :=
  (r.given.lookup long).isSome

/-- The number that an option gives. -/
def number? (r : Reading) (bits : Nat) (long : String) : Option Nat :=
  (r.value? long).bind (unsigned? bits)

end Reading

namespace Reading

/-- The options of a command that writes variations. -/
def toWriteOptions (r : Reading) : WriteOptions :=
  let defaults : Limits := {}
  { limits :=
      { defaults with
        maxVariations := (r.number? 128 "max").getD defaults.maxVariations
        seed := ((r.number? 64 "seed").map UInt64.ofNat).getD defaults.seed }
    output := (r.value? "output").map Path.mk
    copyTemplate := r.has "copy-template" || !r.has "no-copy-template" }

/-- The options of a command that works on a folder. -/
def toBulkOptions (r : Reading) : BulkOptions :=
  { discovery :=
      { ignored := ((r.given.lookup "ignore-dirs").getD []).map Path.mk
        ignoreHidden := !r.has "no-ignore-hidden" }
    flatten := r.has "flatten" }

/-- The request to sample. -/
def toSample (r : Reading) : Request :=
  .sample ((r.positionals[1]?.bind (unsigned? 64)).getD (Limits.sampleAmount {}))

/-- The command that was read. -/
def toCommand? (r : Reading) (name : String) : Option Command := do
  let path := Path.mk (← r.positionals.head?)
  match name with
  | "sample" => some (.write path r.toSample r.toWriteOptions)
  | "gen" => some (.write path (.generate (r.number? 64 "head")) r.toWriteOptions)
  | "count" => some (.count path)
  | "sample-bulk" => some (.writeAll path r.toSample r.toWriteOptions r.toBulkOptions)
  | "gen-bulk" => some (.writeAll path (.generate none) r.toWriteOptions r.toBulkOptions)
  | "count-bulk" => some (.countAll path (r.has "json") r.toBulkOptions)
  | _ => none

end Reading

/-- Read a command line. -/
def commandFrom (r : Reading) : List String → Except Stop Command
  | [] => throw .usage
  | text :: rest => do
    match text.toList with
    | ['-', '-'] => throw .usage
    | '-' :: '-' :: name => commandFrom (← r.longOption none programShape name) rest
    | '-' :: c :: cs => commandFrom (← r.shortOptions none programShape (c :: cs)) rest
    | _ =>
      if text = "help" then
        match rest with
        | [] => throw (.help none true)
        | [name] =>
          if name = "help" ∨ (shape? name).isSome then throw (.help (some name) true)
          else throw .usage
        | _ => throw .usage
      else
        let some shape := shape? text | throw .usage
        let r ← Reading.arguments text shape default rest
        let some command := r.toCommand? text | throw .usage
        return command

/-- The command that a command line asks for. -/
def command (arguments : List String) : Except Stop Command :=
  commandFrom default arguments

end CommandLine

end ArenaVariations
