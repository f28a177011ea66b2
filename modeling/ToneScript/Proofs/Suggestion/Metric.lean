import ToneScript.Proofs.Suggestion.EditDistance

/-! The edit distance is a metric on texts. Between texts of bytes the fewest edits can all be made on bytes. -/
namespace ToneScript.EditDistance

variable {a b c : List Char} {m n : Nat}

/-- Every edit can be undone by one. -/
theorem Edit.symm (h : Edit a b) : Edit b a := by
  cases h with
  | insert before x after => exact delete before x after
  | delete before x after => exact insert before x after
  | substitute before x y after => exact substitute before y x after

theorem Edits.symm (h : Edits n a b) : Edits n b a := by
  induction h with
  | nil a => exact nil a
  | cons first _ ih => exact ih.trans (single first.symm)

theorem Edits.eq_of_zero (h : Edits 0 a b) : a = b := by
  cases h
  rfl

theorem distance_le (h : Edits n a b) : distance a b ≤ n :=
  (isLeast_distance a b).2 h

theorem edits_distance (a b : List Char) : Edits (distance a b) a b :=
  (isLeast_distance a b).1

theorem distance_comm (a b : List Char) : distance a b = distance b a := by
  have hab := distance_le (edits_distance b a).symm
  have hba := distance_le (edits_distance a b).symm
  omega

theorem distance_eq_zero_iff : distance a b = 0 ↔ a = b := by
  constructor
  · intro h
    have hedits := edits_distance a b
    rw [h] at hedits
    exact hedits.eq_of_zero
  · rintro rfl
    have hnone := distance_le (Edits.nil a)
    omega

/-- Edits from `a` to `b` and from `b` to `c` are edits from `a` to `c`. -/
theorem distance_triangle (a b c : List Char) : distance a c ≤ distance a b + distance b c :=
  distance_le ((edits_distance a b).trans (edits_distance b c))

/-! Edits on bytes. -/

/-- Whether each character of a text stands for a byte. -/
def IsBytes (a : List Char) : Prop :=
  ∀ x ∈ a, x.toNat < 256

instance (a : List Char) : Decidable (IsBytes a) :=
  List.decidableBAll _ a

/-- Edits that are made one after another, all of them on texts of bytes. -/
inductive ByteEdits : Nat → List Char → List Char → Prop
  | nil {a : List Char} (h : IsBytes a) : ByteEdits 0 a a
  | cons {n : Nat} {a b c : List Char} (h : IsBytes a) (first : Edit a b) (rest : ByteEdits n b c) :
      ByteEdits (n + 1) a c

theorem ByteEdits.edits (h : ByteEdits n a b) : Edits n a b := by
  induction h with
  | nil => exact .nil _
  | cons _ first _ ih => exact .cons first ih

/-- A character as a byte; all that stand for none become the same one. -/
def toByte (x : Char) : Char :=
  if x.toNat < 256 then x else '\x00'

theorem isBytes_map_toByte (a : List Char) : IsBytes (a.map toByte) := by
  intro x hx
  obtain ⟨y, -, rfl⟩ := List.mem_map.1 hx
  unfold toByte
  split
  · assumption
  · decide

theorem IsBytes.map_toByte (h : IsBytes a) : a.map toByte = a := by
  have hsame (x : Char) (hx : x ∈ a) : toByte x = x := if_pos (h x hx)
  rw [List.map_congr_left hsame, List.map_id']

theorem Edit.map (f : Char → Char) (h : Edit a b) : Edit (a.map f) (b.map f) := by
  cases h with
  | insert before x after =>
    rw [List.map_append, List.map_append, List.map_cons]
    exact insert _ _ _
  | delete before x after =>
    rw [List.map_append, List.map_append, List.map_cons]
    exact delete _ _ _
  | substitute before x y after =>
    rw [List.map_append, List.map_append, List.map_cons, List.map_cons]
    exact substitute _ _ _ _

/-- Edits on any texts become as many on texts of bytes if every character is made a byte. -/
theorem Edits.map_toByte (h : Edits n a b) : ByteEdits n (a.map toByte) (b.map toByte) := by
  induction h with
  | nil a => exact .nil (isBytes_map_toByte a)
  | @cons n a b c first _ ih => exact .cons (isBytes_map_toByte a) (first.map toByte) ih

theorem byteEdits_iff (ha : IsBytes a) (hb : IsBytes b) : ByteEdits n a b ↔ Edits n a b := by
  refine ⟨ByteEdits.edits, fun h => ?_⟩
  have hbytes := h.map_toByte
  rwa [ha.map_toByte, hb.map_toByte] at hbytes

theorem isLeast_byteEdits (ha : IsBytes a) (hb : IsBytes b) : IsLeast {n | ByteEdits n a b} (distance a b) := by
  simp only [byteEdits_iff ha hb]
  exact isLeast_distance a b

/-- The distance found row by row is the least number of edits, of bytes between texts of bytes and of characters between
any texts, and so it is a metric. -/
theorem distance_metric (a b c : List Char) :
    (IsBytes a → IsBytes b → IsLeast {n | ByteEdits n a b} (distance a b)) ∧
      IsLeast {n | Edits n a b} (distance a b) ∧ distance a b = distance b a ∧ (distance a b = 0 ↔ a = b) ∧
      distance a c ≤ distance a b + distance b c :=
  ⟨isLeast_byteEdits, isLeast_distance a b, distance_comm a b, distance_eq_zero_iff, distance_triangle a b c⟩

/-- Three edits of bytes lead from the one text to the other, and no fewer. -/
theorem distance_metric_kitten : IsBytes "kitten".toList ∧ IsBytes "sitting".toList ∧
    distance "kitten".toList "sitting".toList = 3 ∧ ByteEdits 3 "kitten".toList "sitting".toList ∧
      ∀ n, ByteEdits n "kitten".toList "sitting".toList → 3 ≤ n := by
  have hkitten : IsBytes "kitten".toList := by decide
  have hsitting : IsBytes "sitting".toList := by decide
  have hdistance : distance "kitten".toList "sitting".toList = 3 := by decide
  obtain ⟨hedits, hleast⟩ := (distance_metric _ _ []).1 hkitten hsitting
  rw [hdistance] at hedits hleast
  exact ⟨hkitten, hsitting, hdistance, hedits, fun n hn => hleast hn⟩

end ToneScript.EditDistance
