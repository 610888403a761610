import Preproc.Disk
import Preproc.Lexer
import Preproc.Macro.Table

/-!
# Tokens, macros and files of small inputs

What a result says of all inputs is shown at a small one as well. These are the tokens, the macros
and the disks that such inputs are made of.
-/

namespace Preproc

namespace Token

/-- The token `value`, as if it stood alone in a text; `white` tells of white space before it. -/
def sample (kind : Kind) (value : String) (white : Bool := false) : Token :=
  { kind, value, file := "", line := 1, col := 0, prevWhite := white }

/-- The name `value`. -/
def word (value : String) : Token :=
  sample .identifier value

/-- The punctuator `value`. -/
def sign (value : String) : Token :=
  sample .punctuator value

end Token

/-- The tokens of a text. -/
def tokensOf (text : String) : List Token :=
  (lexText "t.c" text.toList).value.all.value

/-- The macro `f(x)` that stands for `x`. -/
def Macro.echo : Macro :=
  .function "f" ⟨["x"], false⟩ [true] [.word "x"]

/-- The time at which the runs are started. -/
def Clock.sample : Clock :=
  ⟨2024, 1, 2, 3, 4, 5⟩

/-- A disk that has nothing but files in its root, each given by its name and its text. The texts
are plain ASCII, so that each of their characters is a byte. -/
def Disk.ofTexts (files : List (String × String)) : Disk :=
  { cwd := ⟨1, []⟩
    entries := files.map fun (name, text) =>
      ([name], .file (text.toList.map fun c => c.toNat.toUInt8)) }

end Preproc
