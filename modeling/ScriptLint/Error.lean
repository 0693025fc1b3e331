/-
Failures as values.

A failure carries a category, a message and, where there is one, a context,
usually the path or the input that the failure is about.  An operation that
can fail answers with an `Outcome`:

* **`Error.render`** — the one-line form `[Category] message (context: …)`;
* **`Error.inContext`** — adds to the context, never replaces it;
* **`Outcome.value`**, **`Outcome.failure`** — the two sides of an outcome, each
  of which is a misuse of the other.
-/
import ScriptLint.Bytes

namespace ScriptLint

/-- What kind of failure it is. -/
inductive ErrorKind where
  | none | invalidArgument | notFound | parse | disk | config | resolve | analysis | internal
  | unknown
  deriving DecidableEq, Inhabited, Repr

/-- The name under which a kind is shown. -/
def ErrorKind.name : ErrorKind → Bytes
  | .none => "None"
  | .invalidArgument => "InvalidArgument"
  | .notFound => "NotFound"
  | .parse => "ParseError"
  | .disk => "IoError"
  | .config => "ConfigError"
  | .resolve => "ResolveError"
  | .analysis => "AnalysisError"
  | .internal => "InternalError"
  | .unknown => "Unknown"

/-- A failure: its kind, its message and an optional context. -/
structure Error where
  kind : ErrorKind
  message : Bytes
  context : Option Bytes := none
  deriving DecidableEq, Inhabited, Repr

namespace Error

/-- The failure with more context: after `; ` if it has one already. -/
def inContext (e : Error) (more : Bytes) : Error :=
  { e with context := some (match e.context with
      | none => more
      | some context => context ++ "; " ++ more) }

/-- `[Kind] message`, and the context in parentheses if there is one. -/
def render (e : Error) : Bytes :=
  "[" ++ e.kind.name ++ "] " ++ e.message ++
    match e.context with
    | none => []
    | some context => " (context: " ++ context ++ ")"

end Error

/-- What a fallible operation answers. -/
abbrev Outcome (α : Type) := Except Error α

/-- Asking an outcome for the side that it does not have. -/
inductive Misuse where
  | valueOfFailure | errorOfSuccess
  deriving DecidableEq, Repr

/-- The text of a misuse. -/
def Misuse.message : Misuse → Bytes
  | .valueOfFailure => "Result::value() called on error result"
  | .errorOfSuccess => "Result::error() called on success result"

namespace Outcome

variable {α : Type}

/-- The value of a success. -/
def value : Outcome α → Except Misuse α
  | .ok a => .ok a
  | Except.error _ => .error .valueOfFailure

/-- The failure, if the outcome is one. -/
def failure : Outcome α → Except Misuse Error
  | .ok _ => .error .errorOfSuccess
  | .error e => .ok e

/-- The value of a success, and a default for a failure. -/
def valueOr (fallback : α) : Outcome α → α
  | .ok a => a
  | .error _ => fallback

end Outcome

end ScriptLint
