import ToneScript.Scope.SymbolTable
import ToneScript.Typing.Signature
/-! What a table holds for given blocks, in a fixed order. -/
namespace ToneScript

/-- The outermost block, and then the given ones in ascending order, each once. -/
def listedBlocks (keys : List BlockKey) : List BlockKey :=
  rootBlock :: ((keys.filter (· != rootBlock)).mergeSort (· ≤ ·)).eraseDups

namespace SymbolTable

/-- The declarations of a block that come from the source, by ascending name. -/
def declaredIn (t : SymbolTable) (key : BlockKey) : List Declaration :=
  (t.declarations.filterMap fun entry =>
    if entry.1 == key && !entry.2.builtin then some entry.2 else none).mergeSort
      fun a b => a.name ≤ b.name

/-- The declarations of the outermost block and of the given ones that come from the source. -/
def listing (t : SymbolTable) (keys : List BlockKey) : List (BlockKey × Declaration) :=
  (listedBlocks keys).flatMap fun key => (t.declaredIn key).map fun d => (key, d)

end SymbolTable

namespace FunctionTable

/-- The known signatures of functions in the outermost block and in the given ones, without those of
names that are there from the start. -/
def listing (functions : FunctionTable) (t : SymbolTable) (keys : List BlockKey) :
    List (FunctionKey × Signature) :=
  (listedBlocks keys).flatMap fun key => functions.filterMap fun (place, info) =>
    match info.progress with
    | .resolved s =>
      if place.1 == key && !(t.find? key place.2).any (·.builtin) then some (place, s) else none
    | .pending | .active => none

end FunctionTable
end ToneScript
