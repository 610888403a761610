import Preproc.Macro.Replacement

/-!
# The table of macro definitions

Definitions are kept in the order in which their names were first defined; a later definition of a
name takes the place of the earlier one. The table starts with the predefined macros.
-/

namespace Preproc

/-- The macros that are defined, and how often the counting macro has been used. -/
structure MacroTable where
  macros : List Macro := []
  count : Nat := 0
deriving DecidableEq, Repr

namespace MacroTable

/-- The macro that goes by `name`. -/
def find? (table : MacroTable) (name : String) : Option Macro :=
  table.macros.find? (·.name = name)

/-- Whether a macro goes by `name`. -/
def isDefined (table : MacroTable) (name : String) : Bool :=
  table.macros.any (·.name = name)

/-- The table with the definition `m`, which takes the place of an earlier one of its name. -/
def define (table : MacroTable) (m : Macro) : MacroTable :=
  if table.isDefined m.name then
    { table with macros := table.macros.map fun n => if n.name = m.name then m else n }
  else { table with macros := table.macros ++ [m] }

/-- The table without the macro that goes by `name`. -/
def undefine (table : MacroTable) (name : String) : MacroTable :=
  { table with macros := table.macros.filter (·.name ≠ name) }

/-- The names that are defined, in the order of the table. -/
def names (table : MacroTable) : List String :=
  table.macros.map (·.name)

end MacroTable

/-- A moment of the local calendar. -/
structure Clock where
  year : Nat
  month : Nat
  day : Nat
  hour : Nat
  minute : Nat
  second : Nat
deriving DecidableEq, Repr

namespace Clock

/-- The short names of the months. -/
def months : List String :=
  ["Jan", "Feb", "Mar", "Apr", "May", "Jun", "Jul", "Aug", "Sep", "Oct", "Nov", "Dec"]

/-- A number in at least two places, the first filled with `fill`. -/
def twoPlaces (fill : Char) (n : Nat) : String :=
  if n < 10 then String.ofList [fill] ++ toString n else toString n

/-- The date as month, day and year. -/
def date (c : Clock) : String :=
  months.getD (c.month - 1) "" ++ " " ++ twoPlaces ' ' c.day ++ " " ++ toString c.year

/-- The time of day in hours, minutes and seconds. -/
def time (c : Clock) : String :=
  twoPlaces '0' c.hour ++ ":" ++ twoPlaces '0' c.minute ++ ":" ++ twoPlaces '0' c.second

end Clock

namespace MacroTable

/-- The predefined macro `name` with a fixed number as its value. -/
def constantMacro (name value : String) : Macro :=
  .object name [{ kind := .number, value, file := "<built-in>", line := 0, col := 0 }]

/-- The macros that are defined before a run starts at the moment `now`. -/
def predefinedMacros (now : Clock) : List Macro :=
  [.builtin "__LINE__" .line,
   .builtin "__FILE__" .file,
   .builtin "__DATE__" (.stamp (Builtin.literal now.date)),
   .builtin "__TIME__" (.stamp (Builtin.literal now.time)),
   .builtin "__COUNTER__" .counter,
   constantMacro "__STDC__" "1",
   constantMacro "__STDC_HOSTED__" "1",
   constantMacro "__cplusplus" "201103L"]

/-- The table at the start of a run. -/
def predefined (now : Clock) : MacroTable :=
  { macros := predefinedMacros now }

end MacroTable

end Preproc
