import Hartwatch.Debugger.Execute
import Hartwatch.Text.Lines

/-! A whole session: prompt, line, answer, until a command leaves or the input ends. In batch
mode it is one unlimited run. -/

namespace Hartwatch.Debugger

def promptText : String := "(rvdb) "

def prompt : Session Unit :=
  write promptText

def outcome (line : String) : Session (Except Error Flow) :=
  ExceptT.lift (execute line).run

/-- Executes a line and reports an error that is not fatal. -/
def respond (line : String) : Session Flow := do
  match ← outcome line with
  | .ok flow => return flow
  | .error e =>
    if e.isFatal then throw e
    writeLine e.message
    return .go

/-- Works off the lines that the input still has; one that is no text is fatal. -/
def converse : List (Option String) → Session Unit
  | [] => prompt
  | none :: _ => do prompt; throw (.stream .invalidText)
  | some line :: lines => do
    prompt
    match ← respond line with
    | .leave => return ()
    | .go => converse lines

def session (input : List UInt8) : Session Unit := do
  if (← get).batch then
    let _ ← run .unlimited
  else converse (Text.lines input)

end Hartwatch.Debugger
