import Preproc.Path
import Preproc.Text.Quoted

/-!
# Settings

The settings of a run, and how they are read from values under names, such as a settings file holds.
-/

namespace Preproc

/-- The settings of a run. -/
structure Config where
  /-- The character set of the files. -/
  charset : String := "utf-8"
  /-- Where headers are looked for. -/
  includePaths : List Path := []
  /-- Definitions that come before those of the project. -/
  globalDefines : List String := []
  /-- The definitions of the project. -/
  defines : List String := []
  /-- Headers that are processed before the main file. -/
  forceIncludes : List Path := []
  /-- Whether a run goes on after an unbalanced conditional or a missing header. -/
  errorRecovery : Bool := true
  /-- The limit on live streams of macro expansion. -/
  maxExpansionDepth : Nat := 200
  /-- The limit on tokens that one expansion produces. -/
  maxExpansionTokens : Nat := 1000000
  /-- The limit on open files. -/
  maxIncludeDepth : Nat := 200
deriving DecidableEq, Repr

/-- A value of a settings file. -/
inductive Setting where
  | null
  | flag (b : Bool)
  | integer (n : Int)
  /-- A number that is not written as an integer. -/
  | real
  | text (s : String)
  | list (items : List Setting)
  /-- Values under names, of which only the names matter. -/
  | table (names : List String)
deriving Repr

namespace Setting

/-- The text that a value is. -/
def text? : Setting → Option String
  | text s => some s
  | _ => none

/-- The values that a value holds; a table holds its names. -/
def items? : Setting → Option (List Setting)
  | list items => some items
  | table names => some (names.map text)
  | _ => none

end Setting

/-- Why values are no settings. -/
inductive ConfigError where
  | unknownKeys (keys : List String)
  | notString (name : String)
  | notBoolean (name : String)
  | notPaths (name : String)
  | notStrings (name : String)
  | notPositive (name : String)
  /-- A value that should be a list holds no values. -/
  | notList (value : Setting)
deriving Repr

/-- The wording of a refusal. -/
def ConfigError.message : ConfigError → String
  | unknownKeys keys => "Unknown configuration keys: " ++ Text.quotedList keys
  | notString name => s!"'{name}' must be a string."
  | notBoolean name => s!"'{name}' must be a boolean."
  | notPaths name => s!"Each path in '{name}' must be PathLike."
  | notStrings name => s!"'{name}' must be a list of strings."
  | notPositive name => s!"'{name}' must be a positive integer."
  | notList _ => "The value is not a list."

namespace Config

/-- The names of the settings. -/
def keys : List String :=
  ["charset", "include_paths", "global_defines", "defines", "force_includes", "error_recovery",
   "max_expansion_depth", "max_expansion_tokens", "max_include_depth"]

/-- Reads a list of texts; `refuse` is the error if the value is something else. -/
def readTexts (refuse : ConfigError) (value : Setting) : Except ConfigError (List String) :=
  if value.text?.isSome then .error refuse
  else
    match value.items? with
    | none => .error (.notList value)
    | some items =>
      match items.mapM Setting.text? with
      | some texts => .ok texts
      | none => .error refuse

/-- Reads the value under `name`, if there is one. -/
def readSetting {α : Type} (values : List (String × Setting)) (name : String) (default : α)
    (read : Setting → Except ConfigError α) : Except ConfigError α :=
  match values.lookup name with
  | none => .ok default
  | some value => read value

/-- Reads a list of paths. -/
def readPaths (values : List (String × Setting)) (name : String) :
    Except ConfigError (List Path) :=
  readSetting values name [] fun v => (·.map Path.ofString) <$> readTexts (.notPaths name) v

/-- Reads a list of definitions. -/
def readStrings (values : List (String × Setting)) (name : String) :
    Except ConfigError (List String) :=
  readSetting values name [] (readTexts (.notStrings name))

/-- Reads a limit, which is at least one. -/
def readLimit (values : List (String × Setting)) (name : String) (default : Nat) :
    Except ConfigError Nat :=
  readSetting values name default fun
    | .integer n => if 1 ≤ n then .ok n.toNat else .error (.notPositive name)
    | _ => .error (.notPositive name)

/-- Reads settings; a name that is no setting is refused first, then each value in turn. -/
def ofSettings (values : List (String × Setting)) : Except ConfigError Config := do
  let unknown := (values.map (·.1)).filter fun name => !keys.contains name
  if !unknown.isEmpty then throw (.unknownKeys (unknown.mergeSort (· ≤ ·)))
  let fresh : Config := {}
  let charset ← readSetting values "charset" fresh.charset fun
    | .text s => .ok s
    | _ => .error (.notString "charset")
  let errorRecovery ← readSetting values "error_recovery" fresh.errorRecovery fun
    | .flag b => .ok b
    | _ => .error (.notBoolean "error_recovery")
  let includePaths ← readPaths values "include_paths"
  let globalDefines ← readStrings values "global_defines"
  let defines ← readStrings values "defines"
  let forceIncludes ← readPaths values "force_includes"
  let maxExpansionDepth ← readLimit values "max_expansion_depth" fresh.maxExpansionDepth
  let maxExpansionTokens ← readLimit values "max_expansion_tokens" fresh.maxExpansionTokens
  let maxIncludeDepth ← readLimit values "max_include_depth" fresh.maxIncludeDepth
  pure
    { charset, includePaths, globalDefines, defines, forceIncludes, errorRecovery,
      maxExpansionDepth, maxExpansionTokens, maxIncludeDepth }

end Config

end Preproc
