/-! Interned names. -/
namespace ToneScript

/-- The handle of a name: its place in the table that interned it. -/
abbrev Ident := UInt32

/-- The distinct names met so far, in the order of first use. -/
structure NameTable where
  names : List String := []
deriving DecidableEq, Repr, Inhabited

namespace NameTable

/-- Number of names. -/
def size (t : NameTable) : Nat :=
  t.names.length

/-- The handle of a name that was interned before. -/
def find? (t : NameTable) (name : String) : Option Ident :=
  (t.names.findIdx? (· == name)).map Nat.toUInt32

/-- The handle of a name, taking the next free one on first use. -/
def intern (t : NameTable) (name : String) : Ident × NameTable :=
  match t.find? name with
  | some id => (id, t)
  | none => (t.size.toUInt32, ⟨t.names ++ [name]⟩)

/-- Interns several names from left to right. -/
def internAll (t : NameTable) : List String → List Ident × NameTable
  | [] => ([], t)
  | n :: ns =>
    let (id, t) := t.intern n
    let (ids, t) := t.internAll ns
    (id :: ids, t)

/-- The spelling behind a handle; `<unknown>` for a foreign one. -/
def name (t : NameTable) (id : Ident) : String :=
  t.names.getD id.toNat "<unknown>"

end NameTable
end ToneScript
