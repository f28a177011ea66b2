/-! Edit distance and the nearest of several names. -/
namespace ToneScript

namespace EditDistance

/-- The next row of the distance table. `above` is the rest of the row above, `diagonal` the entry
before it, and `left` the entry before the one that comes next. -/
def nextRow (c : Char) : Nat → Nat → List Char → List Nat → List Nat
  | diagonal, left, d :: ds, above :: rest =>
    let here := min (min (above + 1) (left + 1)) (diagonal + if c = d then 0 else 1)
    here :: nextRow c above here ds rest
  | _, _, _, _ => []

/-- The row of a table after one more character. -/
def stepRow (b : List Char) (row : List Nat) (c : Char) : List Nat :=
  match row with
  | [] => []
  | first :: rest => (first + 1) :: nextRow c first (first + 1) b rest

/-- Number of insertions, deletions and substitutions of single characters that lead from `a` to `b`,
found row by row. -/
def distance (a b : List Char) : Nat :=
  (a.foldl (stepRow b) (List.range (b.length + 1))).getLastD 0

end EditDistance

/-- The candidate nearest to `input` other than itself, if one is nearer than `limit`; the first of
those equally near. -/
def nearest? (input : String) (candidates : List String) (limit : Nat) : Option String :=
  (candidates.foldl
    (fun (best : Option (Nat × String)) candidate =>
      if candidate = input then best
      else
        let d := EditDistance.distance input.toList candidate.toList
        if d < best.elim limit Prod.fst then some (d, candidate) else best)
    none).map Prod.snd

end ToneScript
