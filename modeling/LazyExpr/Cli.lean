import LazyExpr.Request

/-!
# The command line

What the program prints and how it exits, for given options and source text.  Results go to standard
output, failures to standard error with exit code 1.
-/

namespace LazyExpr.Cli

/-- The options of a run. -/
structure Options where
  /-- Seconds the evaluation may take. -/
  timeout : Nat := 5
  /-- Whether the expression is written before it is evaluated. -/
  explain : Bool := false

/-- What a run prints and how it exits. -/
structure Output where
  code : Nat
  stdout : String
  stderr : String
  deriving DecidableEq, Repr

/-- A run that ends well with the given lines. -/
def success (lines : List String) : Output := ⟨0, String.join (lines.map (· ++ "\n")), ""⟩

/-- A run that fails with a message, after it has printed the given lines. -/
def failure (lines : List String) (message : String) : Output :=
  ⟨1, String.join (lines.map (· ++ "\n")), message ++ "\n"⟩

/-- The run for a file that cannot be read. -/
def unreadable (path : String) : Output :=
  failure [] ("Failed to read the input file '" ++ path ++ "'. Perhaps this file does not exist?")

/-- The message of a failed request. -/
def failureMessage (options : Options) : Failure → String
  | .parse e => e.pretty
  | f =>
    if f.isTimeout then
      "Evaluation took longer than " ++ toString options.timeout ++ " second(s) and was stopped."
    else f.message

/-- The run for a text. -/
def run (options : Options) (source : String) : Output :=
  match parse source with
  | .error e => failure [] e.pretty
  | .ok e =>
    let explained := if options.explain then [e.source] else []
    match evaluateExpr (some (options.timeout * checksPerSecond)) e with
    | .ok result => success (explained ++ [result])
    | .error f => failure explained (failureMessage options f)

end LazyExpr.Cli
