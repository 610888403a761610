import Preproc.Text.Digit
import Preproc.Text.Quoted

/-!
# Command line options

An argument that starts with a dash is an option: a short one, whose value may be attached, or a
long one, whose name may be cut short and whose value may follow an equals sign. Short options
without a value may share one dash. After `--` no argument is an option, and `--` is nobody's value.
The inputs stand together.
-/

namespace Preproc.CommandLine

/-- The options. -/
inductive OptionKind where
  | help
  | define
  | includePath
  | forceInclude
  | charset
  | strict
  | progress
  | verbose
  | quiet
deriving DecidableEq, Repr

/-- An option: the names by which it goes, what its value is called if it takes one, and what it is
for. -/
structure OptionSpec where
  kind : OptionKind
  names : List String
  value : Option String
  purpose : String
deriving DecidableEq, Repr

/-- Whether an option takes a value. -/
def OptionSpec.takesValue (spec : OptionSpec) : Bool :=
  spec.value.isSome

/-- All options. -/
def optionSpecs : List OptionSpec :=
  [⟨.help, ["-h", "--help"], none, "Explain the options and exit."⟩,
   ⟨.define, ["-D"], some "MACRO[=VAL]", "Predefine MACRO as a macro with value VAL."⟩,
   ⟨.includePath, ["-I"], some "path", "Add a directory to the include search path."⟩,
   ⟨.forceInclude, ["--include"], some "file", "Process file before the first line of each input."⟩,
   ⟨.charset, ["--charset"], some "name", "Encoding of the source files (default: utf-8)."⟩,
   ⟨.strict, ["--strict"], none, "Fail on unbalanced conditionals and missing includes."⟩,
   ⟨.progress, ["--progress"], none, "Display the progress."⟩,
   ⟨.verbose, ["-v", "--verbose"], none, "Increase verbosity level."⟩,
   ⟨.quiet, ["-q", "--quiet"], none, "Decrease verbosity level."⟩]

/-- The options by name. -/
def namedOptions : List (String × OptionSpec) :=
  optionSpecs.flatMap fun spec => spec.names.map fun name => (name, spec)

/-- What a command line asks for. A value is missing if its option is given the separator for it. -/
structure Options where
  inputs : List String := []
  defines : List (Option String) := []
  includePaths : List (Option String) := []
  forceIncludes : List (Option String) := []
  charset : Option String := some "utf-8"
  strict : Bool := false
  progress : Bool := false
  verbose : Nat := 0
  quiet : Nat := 0
deriving DecidableEq, Repr

/-- Why a command line is not carried out. -/
inductive UsageError where
  /-- Only an explanation is asked for. -/
  | helpWanted
  | ambiguous (argument : String) (names : List String)
  | expectsValue (spec : OptionSpec)
  | takesNoValue (spec : OptionSpec) (value : String)
  | noInput
  | unrecognized (arguments : List String)
deriving DecidableEq, Repr

/-- All names of an option. -/
def OptionSpec.label (spec : OptionSpec) : String :=
  "/".intercalate spec.names

/-- The line that explains an option. -/
def OptionSpec.helpLine (spec : OptionSpec) : String :=
  "  " ++ ", ".intercalate (spec.names.map fun name => name ++ spec.value.elim "" (" " ++ ·))
    ++ "\n        " ++ spec.purpose ++ "\n"

/-- The explanation of all options. -/
def helpText : String :=
  "usage: cxxpp [options] input [input ...]\n\n"
    ++ "Preprocess C/C++ source files and print the tokens.\n\n"
    ++ String.join (optionSpecs.map OptionSpec.helpLine)

/-- The wording of a refusal. -/
def UsageError.message : UsageError → String
  | helpWanted => "only an explanation is asked for"
  | ambiguous argument names =>
    s!"ambiguous option: {argument} could match " ++ ", ".intercalate names
  | expectsValue spec => "argument " ++ spec.label ++ ": expected one argument"
  | takesNoValue spec value =>
    "argument " ++ spec.label ++ ": ignored explicit argument " ++ Text.quoted value
  | noInput => "the following arguments are required: input"
  | unrecognized arguments => "unrecognized arguments: " ++ " ".intercalate arguments

/-- An argument, as it is read. -/
inductive Argument where
  | plain (text : String)
  /-- The mark after which no argument is an option. -/
  | separator
  /-- An option under one of its names, with the text that is attached to it. -/
  | option (spec : OptionSpec) (name : String) (attached : Option (List Char))
  /-- What looks like an option and is none. -/
  | unknown (text : String)
deriving DecidableEq, Repr

namespace Argument

/-- The argument as it is written, for those that are no options. -/
def text : Argument → String
  | plain text | unknown text => text
  | separator => "--"
  | option _ name _ => name

/-- Whether the argument is no option. -/
def isInput : Argument → Bool
  | plain _ | separator => true
  | _ => false

/-- Whether the argument is a plain text. -/
def isPlain : Argument → Bool
  | plain _ => true
  | _ => false

end Argument

/-- What stands before the first equals sign, and the value after it. -/
def splitEquals? (cs : List Char) : Option (List Char × List Char) :=
  match cs.dropWhile (· ≠ '=') with
  | [] => none
  | _ :: value => some (cs.takeWhile (· ≠ '='), value)

/-- The options that the start of an argument may stand for, each with its name and the text that is
attached to it. -/
def candidates (cs : List Char) : List (String × OptionSpec × Option (List Char)) :=
  match cs with
  | '-' :: '-' :: _ =>
    let (name, value) := match splitEquals? cs with
      | some (name, value) => (name, some value)
      | none => (cs, none)
    namedOptions.filterMap fun (full, spec) =>
      if name.isPrefixOf full.toList then some (full, spec, value) else none
  | _ =>
    namedOptions.filterMap fun (full, spec) =>
      if full.toList = cs.take 2 then some (full, spec, some (cs.drop 2))
      else if cs.isPrefixOf full.toList then some (full, spec, none)
      else none

/-- Whether an argument is a number with a minus sign. A newline may follow it. -/
def isNegativeNumber (cs : List Char) : Bool :=
  let isDecimal := fun c => (Text.decimalValue? c).isSome
  match cs with
  | '-' :: number =>
    let ds := if number.getLast? = some '\n' then number.dropLast else number
    (!ds.isEmpty && ds.all isDecimal)
      || (match ds.dropWhile isDecimal with
          | '.' :: fs => !fs.isEmpty && fs.all isDecimal
          | _ => false)
  | _ => false

/-- The option whose name is the whole argument, or stands before an equals sign. -/
def exactOption? (arg : String) : Option Argument :=
  match namedOptions.lookup arg with
  | some spec => some (.option spec arg none)
  | none => do
    let (name, value) ← splitEquals? arg.toList
    let spec ← namedOptions.lookup (String.ofList name)
    pure (.option spec (String.ofList name) (some value))

/-- Reads one argument before a separator. -/
def readArgument (arg : String) : Except UsageError Argument :=
  match arg.toList with
  | '-' :: _ :: _ =>
    match exactOption? arg with
    | some option => .ok option
    | none =>
      match candidates arg.toList with
      | [(name, spec, value)] => .ok (.option spec name value)
      | [] =>
        if isNegativeNumber arg.toList || arg.toList.contains ' ' then .ok (.plain arg)
        else .ok (.unknown arg)
      | several => .error (.ambiguous arg (several.map (·.1)))
  | _ => .ok (.plain arg)

/-- Reads all arguments. -/
def readArguments : List String → Except UsageError (List Argument)
  | [] => .ok []
  | arg :: args =>
    if arg = "--" then .ok (.separator :: args.map .plain)
    else do
      let first ← readArgument arg
      let rest ← readArguments args
      pure (first :: rest)

/-- An option that is asked for, with its value if it has one. -/
structure Choice where
  spec : OptionSpec
  value : Option String := none
deriving DecidableEq, Repr

/-- An option with the value `text`. The separator is no value. -/
def Choice.withText (spec : OptionSpec) (text : String) : Choice :=
  ⟨spec, if text = "--" then none else some text⟩

/-- What the options of one argument come to. -/
structure Cluster where
  choices : List Choice := []
  /-- The last option, if it still wants a value. -/
  wanting : Option OptionSpec := none
deriving DecidableEq, Repr

/-- An option with nothing attached. -/
def Cluster.alone (spec : OptionSpec) : Cluster :=
  if spec.takesValue then { wanting := some spec } else { choices := [⟨spec, none⟩] }

/-- An option with the text `cs` attached. It is the value, if the option takes one; after a short
option that takes none it starts with the letter of another. -/
def Cluster.read (spec : OptionSpec) (short : Bool) (cs : List Char) : Except UsageError Cluster :=
  if spec.takesValue then .ok { choices := [.withText spec (String.ofList cs)] }
  else
    match cs with
    | [] => .error (.takesNoValue spec "")
    | c :: rest =>
      match if short then namedOptions.lookup (String.ofList ['-', c]) else none with
      | none => .error (.takesNoValue spec (String.ofList (c :: rest)))
      | some next => do
        let more ← if rest.isEmpty then pure (Cluster.alone next) else Cluster.read next true rest
        pure { more with choices := ⟨spec, none⟩ :: more.choices }

/-- The options in an argument that starts with the option `spec` under the name `name`. -/
def Cluster.ofOption (spec : OptionSpec) (name : String) (attached : Option (List Char)) :
    Except UsageError Cluster :=
  match attached with
  | none => .ok (Cluster.alone spec)
  | some cs => Cluster.read spec ((name.toList.drop 1).head?.any (· ≠ '-')) cs

/-- The options after a choice. -/
def Options.choose (o : Options) (c : Choice) : Except UsageError Options :=
  match c.spec.kind with
  | .help => .error .helpWanted
  | .define => .ok { o with defines := o.defines ++ [c.value] }
  | .includePath => .ok { o with includePaths := o.includePaths ++ [c.value] }
  | .forceInclude => .ok { o with forceIncludes := o.forceIncludes ++ [c.value] }
  | .charset => .ok { o with charset := c.value }
  | .strict => .ok { o with strict := true }
  | .progress => .ok { o with progress := true }
  | .verbose => .ok { o with verbose := o.verbose + 1 }
  | .quiet => .ok { o with quiet := o.quiet + 1 }

/-- Takes a run of arguments that are no options as the inputs, unless there are inputs already or
the run holds none; then they are left over. -/
def takeInputs (o : Options) (extras : List String) (run : List Argument) :
    Options × List String :=
  if o.inputs.isEmpty && run.any Argument.isPlain then
    ({ o with inputs := (run.map Argument.text).erase "--" }, extras)
  else (o, extras ++ run.map Argument.text)

/-- Carries out the arguments, after which `extras` are left over. -/
def consume (o : Options) (extras : List String) (args : List Argument) :
    Except UsageError (Options × List String) :=
  match args with
  | [] => .ok (o, extras)
  | .unknown text :: rest => consume o (extras ++ [text]) rest
  | .option spec name attached :: rest => do
    let cluster ← Cluster.ofOption spec name attached
    match cluster.wanting, rest with
    | none, rest =>
      let o ← cluster.choices.foldlM Options.choose o
      consume o extras rest
    | some wanting, .plain text :: rest =>
      let o ← (cluster.choices ++ [Choice.mk wanting (some text)]).foldlM Options.choose o
      consume o extras rest
    -- Neither an option nor the separator is a value.
    | some wanting, _ => throw (.expectsValue wanting)
  -- Arguments that are no options are taken together up to the next option.
  | arg :: rest =>
    let more := rest.takeWhile Argument.isInput
    let (o, extras) := takeInputs o extras (arg :: more)
    consume o extras (rest.drop more.length)
termination_by args.length
decreasing_by all_goals (simp only [List.length_cons, List.length_drop]; omega)

/-- The options that a command line asks for. -/
def Options.ofArguments (args : List String) : Except UsageError Options := do
  let (o, extras) ← consume {} [] (← readArguments args)
  if o.inputs.isEmpty then throw .noInput
  if !extras.isEmpty then throw (.unrecognized extras)
  pure o

end Preproc.CommandLine
