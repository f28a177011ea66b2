import ToneScript.Proofs.Scope.Blocks
import ToneScript.Proofs.Syntax.Journal

/-! Blocks that are entered while a source is read are left again, wherever the reading stops. -/
namespace ToneScript.Resolution

variable {α β : Type}

/-- A step that leaves all blocks that it enters, and so never ends in a defect. -/
def Level (x : Step α) : Prop :=
  ∀ s, (x.run s).2.table.entered = s.table.entered ∧ ∀ d, (x.run s).1 ≠ .error (.defect d)

namespace Level

theorem bind {x : Step α} {f : α → Step β} (hx : Level x) (hf : ∀ a, Level (f a)) : Level (x >>= f) := by
  intro s
  obtain ⟨hentered, hdefect⟩ := hx s
  rw [run_bind]
  split
  · rename_i a s' heq
    rw [heq] at hentered
    obtain ⟨hentered', hdefect'⟩ := hf a s'
    exact ⟨hentered'.trans hentered, hdefect'⟩
  · rename_i e s' heq
    rw [heq] at hentered hdefect
    exact ⟨hentered, fun d hd => hdefect d (congrArg _ (Except.error.inj hd))⟩

theorem inBlock {x : Step α} (key : BlockKey) (hx : Level x) : Level (inBlock key x) := by
  intro s
  obtain ⟨hentered, hdefect⟩ := hx { s with table := s.table.enterBlock key }
  unfold Resolution.inBlock
  simp only [ExceptT.run_mk]
  split
  rename_i result s' heq
  rw [heq] at hentered hdefect
  -- The block that was entered is still there to be left.
  have hleave : ∃ table, s'.table.leave = .ok table ∧ table.entered = s.table.entered := by
    unfold SymbolTable.leave
    rw [hentered]
    exact ⟨_, rfl, rfl⟩
  obtain ⟨table, hleave, hlevel⟩ := hleave
  rw [hleave]
  exact ⟨hlevel, hdefect⟩

theorem attempt {x : Step α} (hx : Level x) : Level (attempt x) := by
  intro s
  obtain ⟨hentered, hdefect⟩ := hx s
  unfold Resolution.attempt
  simp only [ExceptT.run_mk]
  rcases hrun : x.run s with ⟨(e | d) | a, s'⟩
  · rw [hrun] at hentered
    exact ⟨hentered, nofun⟩
  · rw [hrun] at hdefect
    exact absurd rfl (hdefect d)
  · rw [hrun] at hentered
    exact ⟨hentered, nofun⟩

def law : ItemLaw where
  holds := Level
  pure _ _ := ⟨rfl, nofun⟩
  get _ := ⟨rfl, nofun⟩
  refuse _ _ := ⟨rfl, nofun⟩
  declare _ _ _ _ _ := ⟨rfl, nofun⟩
  warn _ _ := ⟨rfl, nofun⟩
  note _ _ _ _ := ⟨rfl, nofun⟩
  bind := bind
  inBlock := inBlock
  report _ _ := ⟨rfl, nofun⟩
  attempt := attempt

end Level

/-- Items are always read to the end. -/
theorem exists_items (c : Context) (outlines : List ItemOutline) (s : State) :
    ∃ trees s', (items c outlines).run s = (.ok trees, s') := by
  rcases hrun : (items c outlines).run s with ⟨(e | d) | trees, s'⟩
  · exact absurd hrun items_ne_refused
  · have hdefect := (Level.law.items c outlines s).2 d
    rw [hrun] at hdefect
    exact absurd rfl hdefect
  · exact ⟨trees, s', rfl⟩

/-- A step that leaves the blocks active that it finds active, however it ends. -/
def Balanced (x : Step α) : Prop :=
  ∀ s : State, s.table.Framed → s.table.SameBlocks (x.run s).2.table

namespace Balanced

theorem bind {x : Step α} {f : α → Step β} (hx : Balanced x) (hf : ∀ a, Balanced (f a)) : Balanced (x >>= f) :=
  relates_bind (r := fun s s' => s.table.Framed → s.table.SameBlocks s'.table)
    (fun h h' hframed => (h hframed).trans (h' ((h hframed).framed hframed))) hx hf

theorem inBlock {x : Step α} (key : BlockKey) (hx : Balanced x) : Balanced (inBlock key x) := by
  intro s hframed
  have hinner := hx { s with table := s.table.enterBlock key } (hframed.enterBlock key)
  unfold Resolution.inBlock
  simp only [ExceptT.run_mk]
  split
  rename_i result s' heq
  rw [heq] at hinner
  obtain ⟨left, hleave, hblocks, _⟩ := hinner.leave_enterBlock hframed
  rw [hleave]
  exact hblocks

theorem attempt {x : Step α} (hx : Balanced x) : Balanced (attempt x) := by
  intro s hframed
  have hinner := hx s hframed
  unfold Resolution.attempt
  simp only [ExceptT.run_mk]
  rcases hrun : x.run s with ⟨(e | d) | a, s'⟩
  all_goals
    rw [hrun] at hinner
    exact hinner

def law : ItemLaw where
  holds := Balanced
  pure _ _ _ := .refl _
  get _ _ := .refl _
  refuse _ _ _ := .refl _
  declare _ _ _ _ _ _ := ⟨rfl, rfl, rfl⟩
  warn _ _ _ := .refl _
  note _ _ _ _ _ := .refl _
  bind := bind
  inBlock := inBlock
  report _ _ _ := .refl _
  attempt := attempt

end Balanced

end ToneScript.Resolution
