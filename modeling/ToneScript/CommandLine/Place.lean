import ToneScript.Text.Fields
/-! Places in a tree of directories, and where paths lead to. -/
namespace ToneScript.CommandLine

/-- A place in a tree of directories: the names that lead to it from the root, the innermost first. -/
abbrev Place := List String

namespace Place

/-- The length of the longest name that a directory holds. -/
def maxName : Nat := 255

/-- The length of the longest path that is followed. -/
def maxPath : Nat := 4095

/-- Takes the steps of a path one by one. Each of them starts at a directory: an empty step and `.` stay
there, `..` leads out unless it is the root, and any other leads in. -/
def walk (isDirectory : Place → Bool) (here : Place) : List String → Option Place
  | [] => some here
  | step :: steps =>
    if !isDirectory here || maxName < step.length then none
    else if step = "" ∨ step = "." then walk isDirectory here steps
    else if step = ".." then walk isDirectory here.tail steps
    else walk isDirectory (step :: here) steps

/-- Where a path leads. It ends before its first NUL and starts at the root if its first character is a
slash. An empty path leads nowhere. -/
def ofPath? (isDirectory : Place → Bool) (home : Place) (path : String) : Option Place :=
  let cs := path.toList.takeWhile (· ≠ '\x00')
  if cs = [] ∨ maxPath < cs.length then none
  else
    walk isDirectory (if cs.head? = some '/' then [] else home)
      ((Text.fields '/' cs).map String.ofList)

end Place
end ToneScript.CommandLine
