import ToneScript.Scope.SymbolTable

/-! The active blocks of a symbol table. A block that is entered can be left again, and then the blocks are active that
were so before. -/
namespace ToneScript.SymbolTable

variable {t t' t'' : SymbolTable}

/-- Two tables with the same active blocks. -/
structure SameBlocks (t t' : SymbolTable) : Prop where
  active : t'.active = t.active
  entered : t'.entered = t.entered
  frames : t'.frames = t.frames

theorem SameBlocks.refl (t : SymbolTable) : t.SameBlocks t :=
  ⟨rfl, rfl, rfl⟩

theorem SameBlocks.trans (h : t.SameBlocks t') (h' : t'.SameBlocks t'') : t.SameBlocks t'' :=
  ⟨h'.active.trans h.active, h'.entered.trans h.entered, h'.frames.trans h.frames⟩

theorem sameBlocks_setTypeIn (t : SymbolTable) (key : BlockKey) (name : Ident) (ty : Ty) :
    t.SameBlocks (t.setTypeIn key name ty) := by
  unfold setTypeIn
  split
  · exact ⟨rfl, rfl, rfl⟩
  · exact .refl t

/-- Whether the current frame has a block. -/
def Framed (t : SymbolTable) : Prop :=
  t.frameBase < t.active.length

theorem SameBlocks.framed (h : t.SameBlocks t') (hframed : t.Framed) : t'.Framed := by
  unfold Framed frameBase at hframed ⊢
  rw [h.active, h.frames]
  exact hframed

theorem Framed.enterBlock (h : t.Framed) (key : BlockKey) : (t.enterBlock key).Framed :=
  Nat.lt_succ_of_lt h

theorem framed_enterScope (t : SymbolTable) {chain : List BlockKey} (h : chain ≠ []) :
    (t.enterScope chain).Framed := by
  have := List.length_pos_iff.2 h
  simp only [Framed, frameBase, SymbolTable.enterScope, List.headD_cons, List.length_append,
    List.length_reverse]
  omega

/-- A block is left as it was entered, whatever is declared in between. -/
theorem SameBlocks.leave_enterBlock {key : BlockKey} (h : (t.enterBlock key).SameBlocks t') (hframed : t.Framed) :
    ∃ left, t'.leave = .ok left ∧ t.SameBlocks left ∧ left.declarations = t'.declarations := by
  obtain ⟨hactive, hentered, hframes⟩ := h
  refine ⟨{ t' with active := t.active, entered := t.entered, frames := t.frames }, ?_, ⟨rfl, rfl, rfl⟩, rfl⟩
  unfold leave
  rw [hactive, hentered, hframes]
  simp only [SymbolTable.enterBlock, List.drop_succ_cons, List.drop_zero]
  -- The frame keeps a block, so that it does not end here.
  cases hbases : t.frames with
  | nil => rfl
  | cons base bases =>
    have hbase : base < t.active.length := by
      rw [Framed, frameBase, hbases] at hframed
      exact hframed
    simp only [if_neg (Nat.not_le.2 hbase)]

theorem leave_enterBlock_self (h : t.Framed) (key : BlockKey) : (t.enterBlock key).leave = .ok t := by
  obtain ⟨left, hleave, hblocks, hdeclarations⟩ := (SameBlocks.refl (t.enterBlock key)).leave_enterBlock h
  obtain ⟨declarations, active, entered, frames⟩ := left
  obtain ⟨rfl, rfl, rfl⟩ := hblocks
  cases hdeclarations
  exact hleave

theorem leave_enterScope (t : SymbolTable) (chain : List BlockKey) : (t.enterScope chain).leave = .ok t := by
  obtain ⟨declarations, active, entered, frames⟩ := t
  simp [leave, SymbolTable.enterScope]

end ToneScript.SymbolTable
