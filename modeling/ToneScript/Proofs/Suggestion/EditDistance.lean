import Mathlib.Order.Bounds.Basic
import Mathlib.Order.MinMax
import ToneScript.Diagnostic.Suggestion

/-! The edit distance of two texts is the least number of insertions, deletions and substitutions of single characters that
lead from one to the other. A row of the distance table holds the costs of turning one text into the prefixes of the
other, both read backwards. -/
namespace ToneScript.EditDistance

/-- One insertion, deletion or substitution of a character. -/
inductive Edit : List Char → List Char → Prop
  | insert (before : List Char) (c : Char) (after : List Char) : Edit (before ++ after) (before ++ c :: after)
  | delete (before : List Char) (c : Char) (after : List Char) : Edit (before ++ c :: after) (before ++ after)
  | substitute (before : List Char) (c d : Char) (after : List Char) :
      Edit (before ++ c :: after) (before ++ d :: after)

/-- Edits that are made one after another, and how many they are. -/
inductive Edits : Nat → List Char → List Char → Prop
  | nil (a : List Char) : Edits 0 a a
  | cons {n : Nat} {a b c : List Char} (first : Edit a b) (rest : Edits n b c) : Edits (n + 1) a c

/-- What it costs to turn one text into another from the front: each time a character of the first is deleted, one of the
second is inserted, or their first characters are matched. -/
def cost : List Char → List Char → Nat
  | [], b => b.length
  | c :: a, [] => a.length + 1
  | c :: a, d :: b =>
    min (min (cost a (d :: b) + 1) (cost (c :: a) b + 1)) (cost a b + if c = d then 0 else 1)
termination_by a b => a.length + b.length

variable {a b c : List Char} {m n : Nat}

namespace Edit

theorem cons (x : Char) (h : Edit a b) : Edit (x :: a) (x :: b) := by
  cases h with
  | insert before y after => exact insert (x :: before) y after
  | delete before y after => exact delete (x :: before) y after
  | substitute before y z after => exact substitute (x :: before) y z after

theorem reverse (h : Edit a b) : Edit a.reverse b.reverse := by
  cases h with
  | insert before x after =>
    rw [List.reverse_append, List.reverse_append, List.reverse_cons, List.append_assoc]
    exact insert after.reverse x before.reverse
  | delete before x after =>
    rw [List.reverse_append, List.reverse_append, List.reverse_cons, List.append_assoc]
    exact delete after.reverse x before.reverse
  | substitute before x y after =>
    simp only [List.reverse_append, List.reverse_cons, List.append_assoc]
    exact substitute after.reverse x y before.reverse

end Edit

namespace Edits

theorem single (h : Edit a b) : Edits 1 a b :=
  cons h (nil b)

theorem trans (h : Edits m a b) (h' : Edits n b c) : Edits (m + n) a c := by
  induction h with
  | nil => rwa [Nat.zero_add]
  | cons first _ ih =>
    rw [Nat.add_right_comm]
    exact cons first (ih h')

theorem prepend (x : Char) (h : Edits n a b) : Edits n (x :: a) (x :: b) := by
  induction h with
  | nil a => exact nil (x :: a)
  | cons first _ ih => exact cons (first.cons x) ih

theorem reverse (h : Edits n a b) : Edits n a.reverse b.reverse := by
  induction h with
  | nil a => exact nil a.reverse
  | cons first _ ih => exact cons first.reverse ih

theorem insertAll (b : List Char) : Edits b.length [] b := by
  induction b with
  | nil => exact nil []
  | cons d b ih => exact ih.trans (single (.insert [] d b))

theorem deleteAll (a : List Char) : Edits a.length a [] := by
  induction a with
  | nil => exact nil []
  | cons x a ih => exact cons (.delete [] x a) ih

end Edits

/-- As many edits as it costs turn the one text into the other. -/
theorem edits_cost (a b : List Char) : Edits (cost a b) a b := by
  fun_induction cost a b with
  | case1 b => exact .insertAll b
  | case2 x a => exact .deleteAll (x :: a)
  | case3 x a y b hdelete hinsert hmatch =>
    rcases min_choice (min (cost a (y :: b) + 1) (cost (x :: a) b + 1)) (cost a b + if x = y then 0 else 1)
      with hmin | hmin
    · rw [hmin]
      rcases min_choice (cost a (y :: b) + 1) (cost (x :: a) b + 1) with hmin | hmin <;> rw [hmin]
      · exact .cons (.delete [] x a) hdelete
      · exact hinsert.trans (.single (.insert [] y b))
    · rw [hmin]
      split
      · rename_i heq
        exact heq ▸ hmatch.prepend x
      · exact (hmatch.prepend x).trans (.single (.substitute [] x y b))

/-! One edit changes the cost by one at most. -/

theorem cost_nil (a : List Char) : cost a [] = a.length := by
  cases a <;> simp [cost]

theorem cost_cons_right (a : List Char) (d : Char) (b : List Char) : cost a (d :: b) ≤ cost a b + 1 := by
  cases a with
  | nil => simp [cost]
  | cons x a =>
    rw [cost]
    omega

theorem cost_delete (x : Char) (a b : List Char) : cost (x :: a) b ≤ cost a b + 1 := by
  cases b with
  | nil => simp [cost_nil]
  | cons d b =>
    rw [cost]
    omega

theorem cost_insert (x : Char) (a b : List Char) : cost a b ≤ cost (x :: a) b + 1 := by
  induction b with
  | nil =>
    simp only [cost_nil, List.length_cons]
    omega
  | cons d b ih =>
    have hright := cost_cons_right a d b
    rw [cost]
    omega

theorem cost_substitute (x y : Char) (a b : List Char) : cost (x :: a) b ≤ cost (y :: a) b + 1 := by
  induction b with
  | nil => simp [cost_nil]
  | cons d b ih =>
    have hmatch : (if x = d then 0 else 1) ≤ (if y = d then 0 else 1) + 1 := by split <;> omega
    rw [cost, cost]
    omega

/-- A change of the cost behind a character is one behind it and another in front. -/
theorem cost_cons_le (h : ∀ c, cost a c ≤ cost b c + 1) (x : Char) (c : List Char) :
    cost (x :: a) c ≤ cost (x :: b) c + 1 := by
  induction c with
  | nil =>
    have hlength := h []
    simp only [cost_nil, List.length_cons] at hlength ⊢
    omega
  | cons d c ih =>
    have hdelete := h (d :: c)
    have hmatch := h c
    rw [cost, cost]
    omega

theorem Edit.cost_le (h : Edit a b) (c : List Char) : cost a c ≤ cost b c + 1 := by
  have hcontext {u v : List Char} (huv : ∀ c, cost u c ≤ cost v c + 1) (before : List Char) (c : List Char) :
      cost (before ++ u) c ≤ cost (before ++ v) c + 1 := by
    induction before generalizing c with
    | nil => exact huv c
    | cons x before ih => exact cost_cons_le ih x c
  cases h with
  | insert before x after => exact hcontext (cost_insert x after) before c
  | delete before x after => exact hcontext (cost_delete x after) before c
  | substitute before x y after => exact hcontext (cost_substitute x y after) before c

/-- No fewer edits than it costs turn the one text into the other. -/
theorem Edits.cost_le (h : Edits n a b) : cost a b ≤ n := by
  induction h with
  | nil a =>
    induction a with
    | nil => simp [cost]
    | cons x a ih =>
      rw [cost, if_pos rfl]
      omega
  | @cons n a b c first _ ih =>
    have hstep := first.cost_le c
    exact hstep.trans (Nat.succ_le_succ ih)

/-! The rows of the table. -/

/-- The entries of a row after the one for the prefix `done` of the other text, where both texts are read backwards. -/
def entries (a done : List Char) : List Char → List Nat
  | [] => []
  | d :: ds => cost a (d :: done) :: entries a (d :: done) ds

theorem nextRow_entries (c : Char) (a done ds : List Char) :
    nextRow c (cost a done) (cost (c :: a) done) ds (entries a done ds) = entries (c :: a) done ds := by
  induction ds generalizing done with
  | nil => rfl
  | cons d ds ih =>
    rw [entries, entries, nextRow, ← ih (d :: done)]
    simp only [cost]

theorem entries_nil (done ds : List Char) : entries [] done ds = List.range' (done.length + 1) ds.length := by
  induction ds generalizing done with
  | nil => rfl
  | cons d ds ih => rw [entries, ih, cost, List.length_cons, List.length_cons, List.range'_succ]

/-- After some characters of the first text, the row of the table is that of these characters. -/
theorem foldl_stepRow (a b done : List Char) :
    a.foldl (stepRow b) (cost done [] :: entries done [] b) =
      cost (a.reverse ++ done) [] :: entries (a.reverse ++ done) [] b := by
  induction a generalizing done with
  | nil => rfl
  | cons c a ih =>
    have hrow : stepRow b (cost done [] :: entries done [] b) c = cost (c :: done) [] :: entries (c :: done) [] b := by
      have hfirst : cost (c :: done) [] = cost done [] + 1 := by simp [cost_nil]
      rw [stepRow, ← hfirst, nextRow_entries]
    rw [List.foldl_cons, hrow, ih, List.reverse_cons, List.append_assoc, List.singleton_append]

theorem getLastD_entries (a done ds : List Char) :
    (cost a done :: entries a done ds).getLastD 0 = cost a (ds.reverse ++ done) := by
  induction ds generalizing done with
  | nil => rfl
  | cons d ds ih =>
    rw [entries, List.reverse_cons, List.append_assoc, List.singleton_append, ← ih (d :: done)]
    rfl

theorem distance_eq_cost (a b : List Char) : distance a b = cost a.reverse b.reverse := by
  have hstart : List.range (b.length + 1) = cost [] [] :: entries [] [] b := by
    rw [entries_nil, List.range_eq_range', List.range'_succ, cost]
    rfl
  rw [distance, hstart, foldl_stepRow, List.append_nil, getLastD_entries, List.append_nil]

/-- The table gives the least number of edits that lead from one text to another. -/
theorem isLeast_distance (a b : List Char) : IsLeast {n | Edits n a b} (distance a b) := by
  rw [distance_eq_cost]
  constructor
  · have hreverse := (edits_cost a.reverse b.reverse).reverse
    rwa [List.reverse_reverse, List.reverse_reverse] at hreverse
  · exact fun n hn => hn.reverse.cost_le

/-- A distance is a number of edits if it is the least of them. -/
theorem isLeast_iff : IsLeast {n | Edits n a b} n ↔ distance a b = n :=
  ⟨(isLeast_distance a b).unique, fun h => h ▸ isLeast_distance a b⟩

end ToneScript.EditDistance
