import LazyExpr.Cli

/-!
# The program

Reads the arguments and the file, and prints what `Cli.run` says.
-/

namespace LazyExpr.Cli

/-- The arguments of the program. -/
structure Arguments where
  options : Options := {}
  /-- Whether the expression stands in a file. -/
  file : Bool := false
  /-- The expression, or the path of its file. -/
  contents : Option String := none

/-- How the program is called. -/
def usage : String := "Usage: lazyexpr [--file] [--timeout SECONDS] [--explain] [--] CONTENTS"

/-- Reads the arguments; `none` if they are not understood. -/
def readArguments (a : Arguments) : List String → Option Arguments
  | [] => if a.contents.isSome then some a else none
  | ["--", contents] =>
    if a.contents.isSome then none else some { a with contents := some contents }
  | option :: rest =>
    match option, rest with
    | "-f", rest | "--file", rest => readArguments { a with file := true } rest
    | "-e", rest | "--explain", rest =>
      readArguments { a with options := { a.options with explain := true } } rest
    | "-t", seconds :: rest | "--timeout", seconds :: rest =>
      match seconds.toNat? with
      | some timeout => readArguments { a with options := { a.options with timeout } } rest
      | none => none
    | contents, rest =>
      if contents.startsWith "-" || a.contents.isSome then none
      else readArguments { a with contents := some contents } rest

/-- The run that the arguments ask for. -/
def runWith (a : Arguments) (contents : String) : IO Output := do
  if a.file then
    try
      return run a.options (← IO.FS.readFile contents)
    catch _ => return unreadable contents
  else return run a.options contents

end LazyExpr.Cli

/-- Runs the program. -/
def main (arguments : List String) : IO UInt32 := do
  match LazyExpr.Cli.readArguments {} arguments with
  | some { options, file, contents := some contents } =>
    let output ← LazyExpr.Cli.runWith { options, file } contents
    (← IO.getStdout).putStr output.stdout
    (← IO.getStderr).putStr output.stderr
    return output.code.toUInt32
  | _ =>
    (← IO.getStderr).putStrLn LazyExpr.Cli.usage
    return 2
