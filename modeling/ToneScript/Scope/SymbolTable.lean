import ToneScript.Diagnostic.Defect
import ToneScript.Syntax.Tree
import ToneScript.Typing.Ty
/-!
The symbol table: declarations by block, and the blocks that are active.

Active blocks form frames. Entering a block extends the current frame, and entering a chain of blocks
starts a new one. Names are looked up in the current frame only.
-/
namespace ToneScript

/-- A declared name. -/
structure Declaration where
  /-- The blocks of the frame in which the name was declared, outermost first. -/
  scope : List BlockKey
  name : Ident
  pos : Position
  /-- Offset from which the name can be used. -/
  visibleFrom : UInt64
  ty? : Option Ty
  /-- Whether the name is there from the start and not from the source. -/
  builtin : Bool
deriving DecidableEq, Repr, Inhabited

namespace Declaration

/-- The block that a name is declared in. -/
def block (d : Declaration) : BlockKey :=
  d.scope.getLastD rootBlock

/-- Whether a use at an offset can see the declaration. -/
def visibleAt (d : Declaration) (index : UInt64) : Bool :=
  d.builtin || d.visibleFrom ≤ index

/-- Whether the name is that of a function. -/
def isFunction (d : Declaration) : Bool :=
  d.ty?.any Ty.isFunction

end Declaration

/-- All declarations, and the active blocks. -/
structure SymbolTable where
  /-- Declarations with the blocks that hold them, each name at most once in a block. -/
  declarations : List (BlockKey × Declaration) := []
  /-- The active blocks of all frames, innermost first. -/
  active : List BlockKey := [rootBlock]
  /-- How many blocks each enter pushed, the latest first. -/
  entered : List Nat := []
  /-- How many blocks lie below each frame but the first, the latest first. -/
  frames : List Nat := []
deriving DecidableEq, Repr, Inhabited

namespace SymbolTable

/-- Number of active blocks below the current frame. -/
def frameBase (t : SymbolTable) : Nat :=
  t.frames.headD 0

/-- Number of blocks in the current frame. -/
def depth (t : SymbolTable) : Nat :=
  t.active.length - t.frameBase

/-- The blocks of the current frame, innermost first. -/
def frame (t : SymbolTable) : List BlockKey :=
  t.active.take t.depth

/-- The blocks of the current frame, outermost first. -/
def scope (t : SymbolTable) : List BlockKey :=
  t.frame.reverse

/-- The innermost active block. -/
def currentBlock (t : SymbolTable) : BlockKey :=
  t.active.headD rootBlock

/-- Enters a block. -/
def enterBlock (t : SymbolTable) (key : BlockKey) : SymbolTable :=
  { t with active := key :: t.active, entered := 1 :: t.entered }

/-- Enters a chain of blocks, outermost first, as a new frame. -/
def enterScope (t : SymbolTable) (chain : List BlockKey) : SymbolTable :=
  { t with
    active := chain.reverse ++ t.active
    entered := chain.length :: t.entered
    frames := t.active.length :: t.frames }

/-- Leaves what was entered last. -/
def leave (t : SymbolTable) : Except Defect SymbolTable :=
  match t.entered with
  | [] => .error .leftOutermost
  | count :: entered =>
    let active := t.active.drop count
    let frames :=
      match t.frames with
      | base :: frames => if active.length ≤ base then frames else base :: frames
      | [] => []
    .ok { t with active, entered, frames }

/-- Whether a block is active in any frame. -/
def isActive (t : SymbolTable) (key : BlockKey) : Bool :=
  t.active.contains key

/-- The declaration of a name in a block. -/
def find? (t : SymbolTable) (key : BlockKey) (name : Ident) : Option Declaration :=
  (t.declarations.find? fun entry => entry.1 == key && entry.2.name == name).map Prod.snd

/-- Puts a declaration into a block, in place of one of the same name. -/
def put (t : SymbolTable) (key : BlockKey) (d : Declaration) : SymbolTable :=
  { t with
    declarations :=
      (key, d) :: t.declarations.filter fun entry => !(entry.1 == key && entry.2.name == d.name) }

/-- The declaration that `declare` puts into the innermost block. -/
def declaration (t : SymbolTable) (name : Ident) (pos : Position) (visibleFrom : UInt64)
    (ty? : Option Ty) (builtin : Bool) : Declaration :=
  { scope := t.scope, name, pos, visibleFrom, ty?, builtin }

/-- Declares a name in the innermost block, in place of an earlier one. -/
def declare (t : SymbolTable) (name : Ident) (pos : Position) (visibleFrom : UInt64)
    (ty? : Option Ty) (builtin : Bool) : SymbolTable :=
  t.put t.currentBlock (t.declaration name pos visibleFrom ty? builtin)

/-- Sets the type of a name declared in a block. -/
def setTypeIn (t : SymbolTable) (key : BlockKey) (name : Ident) (ty : Ty) : SymbolTable :=
  match t.find? key name with
  | some d => t.put key { d with ty? := some ty }
  | none => t

/-- Sets the type of a name in the innermost block, declaring it there if needed. -/
def setType (t : SymbolTable) (name : Ident) (pos : Position) (ty : Ty) : SymbolTable :=
  match t.find? t.currentBlock name with
  | some _ => t.setTypeIn t.currentBlock name ty
  | none => t.declare name pos pos.index (some ty) false

/-- The first declaration of a name that satisfies `p`, in a chain of blocks with the innermost first,
and how many blocks were crossed to reach it. -/
def findAlong? (t : SymbolTable) (p : Declaration → Bool) (name : Ident) :
    List BlockKey → Option (Declaration × Nat)
  | [] => none
  | key :: keys =>
    match (t.find? key name).filter p with
    | some d => some (d, 0)
    | none => (t.findAlong? p name keys).map fun (d, crossed) => (d, crossed + 1)

/-- The innermost declaration of a name in the current frame. -/
def lookup? (t : SymbolTable) (name : Ident) : Option (Declaration × Nat) :=
  t.findAlong? (fun _ => true) name t.frame

/-- The innermost declaration of a name in the current frame that a use at an offset can see. -/
def lookupBefore? (t : SymbolTable) (name : Ident) (index : UInt64) : Option (Declaration × Nat) :=
  t.findAlong? (·.visibleAt index) name t.frame

/-- The innermost declaration of a name along a chain of blocks, outermost first. -/
def lookupWithin? (t : SymbolTable) (chain : List BlockKey) (name : Ident) : Option Declaration :=
  (t.findAlong? (fun _ => true) name chain.reverse).map Prod.fst

/-- The function that a call at an offset refers to: the innermost visible declaration of the name,
if that is a function. -/
def callee? (t : SymbolTable) (name : Ident) (index : UInt64) : Option Declaration :=
  ((t.lookupBefore? name index).map Prod.fst).filter Declaration.isFunction

/-- The names declared in a block that a use at an offset can see. -/
def visibleIn (t : SymbolTable) (index : UInt64) (key : BlockKey) : List Ident :=
  t.declarations.filterMap fun entry =>
    if entry.1 == key && entry.2.visibleAt index then some entry.2.name else none

/-- The names that a use at an offset can see, innermost first, each once. -/
def visibleNames (t : SymbolTable) (index : UInt64) : List Ident :=
  (t.frame.flatMap (t.visibleIn index)).foldl
    (fun names name => if name ∈ names then names else names ++ [name]) []

end SymbolTable
end ToneScript
