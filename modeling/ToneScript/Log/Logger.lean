import ToneScript.Log.Filter
import ToneScript.Log.Record
/-! The logger: a threshold, a filter and the sinks that records go to. -/
namespace ToneScript.Log

/-- Where records go. -/
inductive Sink where
  | console (format : Format)
  | file (path : String) (format : Format)
  /-- Keeps records under a tag. -/
  | memory (tag : String)
  | null
  | multi (sinks : List Sink)
deriving Repr, Inhabited

/-- What a sink does with the outside world. -/
inductive Output where
  | console (text : String)
  | file (path text : String)
  | kept (tag : String) (record : Record)
  | flushed (tag : String)
deriving Repr, Inhabited

namespace Sink

mutual
/-- Hands a record to a sink. -/
def write (r : Record) : Sink → List Output
  | console format => [.console (r.render format)]
  | file path format => [.file path (r.render format)]
  | memory tag => [.kept tag r]
  | null => []
  | multi sinks => writeAll r sinks
/-- Hands a record to several sinks in order. -/
def writeAll (r : Record) : List Sink → List Output
  | [] => []
  | s :: ss => s.write r ++ writeAll r ss
end

mutual
/-- Asks a sink to let go of what it holds back. -/
def flush : Sink → List Output
  | memory tag => [.flushed tag]
  | multi sinks => flushAll sinks
  | console _ | file _ _ | null => []
/-- Asks several sinks in order. -/
def flushAll : List Sink → List Output
  | [] => []
  | s :: ss => s.flush ++ flushAll ss
end

end Sink

/-- Settings of a logger. -/
structure Config where
  level : Level := .info
  format : Format := .text
  filter : String := ""
  /-- Path of the log file; none when empty. -/
  file : String := ""
  console : Bool := true
  colors : Bool := true
deriving DecidableEq, Repr, Inhabited

/-- A logger. Its threshold is a quick test before the filter. -/
structure Logger where
  level : Level := .info
  filter : Filter := {}
  sinks : List Sink := []
deriving Repr, Inhabited

namespace Logger

/-- Whether a record of this level and module is written. -/
def accepts (l : Logger) (level : Level) (module : String) : Bool :=
  l.level ≤ level && l.filter.passes level module

/-- The threshold and filter that a configuration leads to. An empty filter text keeps the overrides,
and the filter's default can only be lowered by a text that does not set it. -/
def configureLevels (l : Logger) (c : Config) : Logger :=
  if c.filter = "" then
    { l with level := c.level, filter := { l.filter with fallback := c.level } }
  else
    let filter := l.filter.parse c.filter
    let filter := if c.level < filter.fallback then { filter with fallback := c.level } else filter
    { l with level := filter.minLevel, filter }

/-- Sets a logger up anew. `opened` tells whether the log file could be opened. -/
def configure (l : Logger) (c : Config) (opened : Bool) : Logger :=
  { l.configureLevels c with
    sinks := (if c.console then [.console c.format] else [])
      ++ if c.file ≠ "" ∧ opened then [.file c.file c.format] else [] }

/-- Sets the threshold of the logger and the default of its filter. -/
def setLevel (l : Logger) (level : Level) : Logger :=
  { l with level, filter := { l.filter with fallback := level } }

/-- Replaces the overrides of the filter and lowers or raises the threshold to fit. -/
def setFilter (l : Logger) (spec : String) : Logger :=
  let filter := l.filter.parse spec
  { l with level := filter.minLevel, filter }

/-- Adds a sink after the others. -/
def addSink (l : Logger) (s : Sink) : Logger :=
  { l with sinks := l.sinks ++ [s] }

/-- Removes all sinks. -/
def clearSinks (l : Logger) : Logger :=
  { l with sinks := [] }

/-- Writes a record to every sink, whatever its level. -/
def write (l : Logger) (r : Record) : List Output :=
  Sink.writeAll r l.sinks

/-- Flushes every sink. -/
def flush (l : Logger) : List Output :=
  Sink.flushAll l.sinks

/-- Writes those remarks that the logger accepts, stamped with the given time. -/
def emit (l : Logger) (time : Int) (remarks : List Remark) : List Output :=
  remarks.flatMap fun m => if l.accepts m.level m.module then l.write { m with time } else []

end Logger

/-- What is printed when a log file cannot be opened. -/
def Config.openFailure (c : Config) : String :=
  "warning: could not open log file: " ++ c.file ++ "\n"

end ToneScript.Log
