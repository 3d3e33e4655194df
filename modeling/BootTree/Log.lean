/-!
# BootTree.Log

Log records and the logger that puts them on the boot console. A record is data: the code that does
the work reports records in order, and what reaches the console is a function of those records and
of the filter in force.

* `Filter.admits` — whether a level passes a filter, which names the most verbose level let through.
* `Record.line` — the console line of a record.
* `Logger` — the logger with its filter; installing it a second time fails and changes nothing.
-/

namespace BootTree

namespace Log

inductive Level where
  | error | warn | info | debug | trace
  deriving DecidableEq, Repr

namespace Level

def verbosity : Level → Nat
  | error => 1
  | warn => 2
  | info => 3
  | debug => 4
  | trace => 5

def name : Level → String
  | error => "ERROR"
  | warn => "WARN"
  | info => "INFO"
  | debug => "DEBUG"
  | trace => "TRACE"

end Level

/-- The most verbose level that is let through; `none` lets nothing through. -/
abbrev Filter := Option Level

def Filter.admits (filter : Filter) (level : Level) : Bool :=
  match filter with
  | none => false
  | some most => decide (level.verbosity ≤ most.verbosity)

/-- One message, with the part of the program that sent it. -/
structure Record where
  level : Level
  target : String
  message : String
  deriving DecidableEq, Repr

def Record.line (record : Record) : String :=
  record.level.name ++ " - " ++ record.target ++ ": " ++ record.message ++ "\n"

def console (filter : Filter) (records : List Record) : String :=
  String.join ((records.filter fun r => filter.admits r.level).map Record.line)

/-- The logger: the level it starts with, whether it is installed, and the filter in force. -/
structure Logger where
  initialLevel : Level
  installed : Bool := false
  filter : Filter := none
  deriving DecidableEq, Repr

namespace Logger

/-- Install the logger, which puts its initial level into force. Only the first time succeeds. -/
def install (logger : Logger) : Bool × Logger :=
  if logger.installed then (false, logger)
  else (true, { logger with installed := true, filter := some logger.initialLevel })

def setLevel (logger : Logger) (level : Level) : Logger := { logger with filter := some level }

def enabled (logger : Logger) (level : Level) : Bool := logger.filter.admits level

def emit (logger : Logger) (record : Record) : String := console logger.filter [record]

theorem install_of_installed {logger : Logger} (h : logger.installed = true) :
    logger.install = (false, logger) := by simp [install, h]

theorem emit_eq_empty {logger : Logger} {record : Record} (h : logger.enabled record.level = false) :
    logger.emit record = "" := by
  unfold enabled at h
  simp [emit, console, h, String.join]

end Logger

end Log

end BootTree
