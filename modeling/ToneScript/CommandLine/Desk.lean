import ToneScript.CommandLine.Place
import ToneScript.CommandLine.Run
import ToneScript.Log.FileSink
/-! Surroundings that are kept in memory: a tree of files, and everything that was printed. -/
namespace ToneScript.CommandLine

/-- Files and what was printed. -/
structure Desk where
  /-- Where paths start that do not start at the root. -/
  home : Place := ["desk", "tmp"]
  directories : List Place :=
    [["desk", "tmp"], ["tmp"], ["bin"], ["boot"], ["dev"], ["etc"], ["home"], ["lib"], ["media"],
      ["mnt"], ["opt"], ["proc"], ["root"], ["run"], ["sbin"], ["srv"], ["sys"], ["usr"],
      ["bin", "usr"], ["lib", "usr"], ["share", "usr"], ["var"], ["log", "var"], ["tmp", "var"], []]
  /-- Devices that hold nothing and drop what is written to them. -/
  devices : List Place := [["null", "dev"], ["zero", "dev"], ["full", "dev"]]
  files : List (Place × String) := []
  out : String := ""
  err : String := ""
  /-- What log sinks wrote to neither a file nor the console. -/
  kept : List Log.Output := []
deriving Repr, Inhabited

namespace Desk

/-- Where a path leads. -/
def place? (d : Desk) (path : String) : Option Place :=
  Place.ofPath? d.directories.contains d.home path

/-- What can be read at the end of a path. A directory or a device reads as an empty file. -/
def read? (d : Desk) (path : String) : Option String := do
  let place ← d.place? path
  if d.directories.contains place || d.devices.contains place then return ""
  d.files.lookup place

/-- Makes a text the content of a file. -/
def store (d : Desk) (place : Place) (text : String) : Desk :=
  if d.devices.contains place then d
  else { d with files := (place, text) :: d.files.filter (·.1 != place) }

/-- Changes the content of a file. -/
def edit (d : Desk) (path : String) (change : String → String) : Desk :=
  (d.place? path).elim d fun place => d.store place (change ((d.files.lookup place).getD ""))

/-- Opens a file for writing, keeping or dropping what it holds. Tells whether that went well. -/
def openFile (d : Desk) (path : String) (keep : Bool) : Bool × Desk :=
  if (d.place? path).all d.directories.contains then (false, d)
  else (true, d.edit path fun content => if keep then content else "")

/-- A desk with some files on it. -/
def ofFiles (files : List (String × String)) : Desk :=
  files.foldl (fun d (path, text) =>
    let (opened, d) := d.openFile path false
    if opened then d.edit path fun _ => text else d) {}

/-- Takes what a log sink writes. -/
def put (d : Desk) (o : Log.Output) : Desk :=
  match o with
  | .console text => { d with err := d.err ++ text }
  | .file path text => d.edit path (· ++ text)
  | .kept .. | .flushed _ => { d with kept := d.kept ++ [o] }

/-- Takes several outputs in order. -/
def putAll (d : Desk) (os : List Log.Output) : Desk :=
  os.foldl put d

/-- Opens a log file, to add to it or to write it anew. -/
def openSink (d : Desk) (path : String) (keep : Bool) : Option Log.FileSink × Desk :=
  let (opened, d) := d.openFile path keep
  (if opened then some { path, offset? := if keep then none else some 0 } else none, d)

/-- Lets the text go that a log file holds back. -/
def settle (d : Desk) (s : Log.FileSink) : Log.FileSink × Desk :=
  (s.emptied, d.edit s.path s.written)

/-- Hands a record to a log file. -/
def record (d : Desk) (s : Log.FileSink) (r : Log.Record) : Log.FileSink × Desk :=
  let s := s.add r
  if s.isDue r then d.settle s else (s, d)

/-- The surroundings that a desk is. -/
def host (setting : String) : Host (StateM Desk) where
  readFile path := return (← get).read? path
  openLog path := modifyGet fun d => d.openFile path true
  log o := modify (·.put o)
  out s := modify fun d => { d with out := d.out ++ s }
  err s := modify fun d => { d with err := d.err ++ s }
  now := return 0
  logSetting := setting
  colors := false

end Desk

/-- Runs the program at a desk and returns its exit code. -/
def runAt (desk : Desk) (setting : String) (logger : Log.Logger) (args : List String) :
    UInt32 × Desk :=
  (run (Desk.host setting) logger args).run desk

end ToneScript.CommandLine
