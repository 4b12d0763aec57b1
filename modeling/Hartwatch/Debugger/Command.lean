import Hartwatch.Watchpoint

/-! The commands of a session and what can go wrong in one. -/

namespace Hartwatch

inductive Command where
  | help | resume | quit | stepInstructions | info | examine | print | watch | delete
  deriving DecidableEq, Repr

namespace Command

def name : Command → String
  | help => "help"
  | resume => "c"
  | quit => "q"
  | stepInstructions => "si"
  | info => "info"
  | examine => "x"
  | print => "p"
  | watch => "w"
  | delete => "d"

def summary : Command → String
  | help => "Display information about all supported commands"
  | resume => "Continue the execution of the program"
  | quit => "Exit rvdb"
  | stepInstructions => "Step N instructions, 1 if omitted: si [N]"
  | info => "Print registers or watchpoints: info r | info w"
  | examine => "Print N words of memory starting at EXPR: x N EXPR"
  | print => "Print the value of an expression: p EXPR"
  | watch => "Stop when the value of an expression changes: w EXPR"
  | delete => "Delete a watchpoint: d N"

def all : List Command :=
  [help, resume, quit, stepInstructions, info, examine, print, watch, delete]

def ofName? (name : String) : Option Command :=
  all.find? fun c => c.name = name

def describe (c : Command) : String :=
  c.name ++ " - " ++ c.summary

end Command

namespace Debugger

inductive ArgumentError where
  | missing
  | extra (word : String)
  | stepCount (args : String)
  | watchpointNumber (args : String)
  | noTopic
  | unknownTopic (args : String)
  | examineUsage
  deriving DecidableEq, Repr

def ArgumentError.message : ArgumentError → String
  | missing => "missing argument"
  | extra word => s!"unexpected argument '{word}'"
  | stepCount args => s!"invalid step count '{args}'"
  | watchpointNumber args => s!"invalid watchpoint number '{args}'"
  | noTopic => "info needs an argument: r or w"
  | unknownTopic args => s!"Unknown info argument '{args}', expected r or w"
  | examineUsage => "usage: x N EXPR"

inductive StreamError where
  | outputFull
  | invalidText
  deriving DecidableEq, Repr

def StreamError.message : StreamError → String
  | outputFull => "output full"
  | invalidText => "stream did not contain valid UTF-8"

inductive Error where
  | unknownCommand (name : String)
  | argument (error : ArgumentError)
  | expression (error : Expr.Error)
  | watchpoint (error : Watchpoint.Error)
  | stream (error : StreamError)
  deriving DecidableEq, Repr

namespace Error

def message : Error → String
  | unknownCommand name => s!"Unknown command '{name}'"
  | argument error => error.message
  | expression error => error.message
  | watchpoint error => error.message
  | stream error => error.message

/-- A fatal error ends the session; any other is reported and the prompt comes back. -/
def isFatal : Error → Bool
  | stream _ => true
  | _ => false

end Error

end Debugger

end Hartwatch
