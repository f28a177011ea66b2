import ToneScript.Proofs.Scope.Blocks
import ToneScript.Proofs.Scope.Placement

/-! Growth of the symbol table while a source is read. What is declared in one part of the text can be used
from there on, and goes into the current block or into blocks that open there. -/
namespace ToneScript

namespace Declaration

/-- A declaration that fits its block. Only assigned names can be without a type, and these are declared at
the outermost level. -/
structure Proper (key : BlockKey) (d : Declaration) : Prop where
  block : d.block = key
  builtin : d.builtin = true → key = rootBlock
  untyped : d.ty? = none → key = rootBlock ∧ d.builtin = false
  typed : ∀ ty, d.ty? = some ty → ty = .function d.name ∨ ty.IsKind

theorem Proper.becomes {key : BlockKey} {d d' : Declaration} (h : d.Proper key) (hd : d.Becomes d') :
    d'.Proper key := by
  rcases hd with rfl | ⟨_, ty, hty, rfl⟩
  · exact h
  · exact ⟨h.block, h.builtin, by simp, fun ty' hty' => .inr (by cases hty'; exact hty)⟩

end Declaration

namespace SymbolTable

/-- A table that holds only what was declared before an offset. -/
structure Tidy (lo : Nat) (t : SymbolTable) : Prop where
  proper : ∀ key name d, t.find? key name = some d → d.Proper key
  bound : ∀ key name d, t.find? key name = some d →
    (d.builtin = true ∧ key = rootBlock) ∨
      (d.builtin = false ∧ d.visibleFrom.toNat < lo ∧ (key = rootBlock ∨ key.toNat < lo))
  /-- The types of assigned names are not known before the check. -/
  assigned : ∀ name d, t.find? rootBlock name = some d → d.builtin = false → d.isFunction = false →
    d.ty? = none

theorem Tidy.weaken {lo hi : Nat} {t : SymbolTable} (h : t.Tidy lo) (hle : lo ≤ hi) : t.Tidy hi where
  proper := h.proper
  assigned := h.assigned
  bound key name d hd := by
    rcases h.bound key name d hd with hbuiltin | ⟨hsource, hlt, hkey⟩
    · exact .inl hbuiltin
    · exact .inr ⟨hsource, by omega, hkey.imp_right (by omega)⟩

theorem frame_eq_active {t : SymbolTable} (h : t.frames = []) : t.frame = t.active := by
  simp [frame, depth, frameBase, h]

theorem leave_enterBlock {t t' t'' : SymbolTable} {key : BlockKey} (hframes : t.frames = [])
    (h : (t.enterBlock key).SameBlocks t') (hleave : t'.leave = .ok t'') :
    t.SameBlocks t'' ∧ t''.declarations = t'.declarations := by
  obtain ⟨hactive, hentered, hframes'⟩ := h
  unfold leave at hleave
  rw [hentered, hframes', hactive] at hleave
  simp only [enterBlock, hframes] at hleave
  cases hleave
  exact ⟨⟨rfl, rfl, hframes.symm⟩, rfl⟩

theorem find?_congr {t t' : SymbolTable} (h : t'.declarations = t.declarations) (key : BlockKey)
    (name : Ident) : t'.find? key name = t.find? key name := by
  unfold find?
  rw [h]

/-- What comes after a block that is left comes after what stood in the block. -/
theorem later_of_leave {t t' t'' T : SymbolTable} {key : BlockKey} {hi : Nat} (hframes : t.frames = [])
    (h : (t.enterBlock key).SameBlocks t') (hleave : t'.leave = .ok t'') (hT : Later hi t'' T) :
    Later hi t' T := by
  have hfind := find?_congr (leave_enterBlock hframes h hleave).2
  exact ⟨by simpa only [hfind] using hT.kept, by simpa only [hfind] using hT.added⟩

/-- One table grows into another between two offsets. What is new goes into the blocks `own` or into blocks
that open there. -/
structure Extends (own : List BlockKey) (lo hi : Nat) (t t' : SymbolTable) : Prop where
  le : lo ≤ hi
  blocks : t.SameBlocks t'
  tidy : t'.Tidy hi
  later : Later lo t t'
  inside : ∀ key name d, t.find? key name = none → t'.find? key name = some d →
    key ∈ own ∨ (lo ≤ key.toNat ∧ key ≠ rootBlock)

namespace Extends

variable {own : List BlockKey} {lo mid hi : Nat} {t t' t'' T : SymbolTable}

theorem refl (h : t.Tidy lo) (hle : lo ≤ hi) : Extends own lo hi t t where
  le := hle
  blocks := ⟨rfl, rfl, rfl⟩
  tidy := h.weaken hle
  later := .refl _ _
  inside _ _ _ hnone hd := by simp [hnone] at hd

/-- One growth after another, where the second one may begin before the first one ends. -/
theorem join {mid' : Nat} (h : Extends own lo mid t t') (h' : Extends own mid' hi t' t'')
    (hle : lo ≤ mid') : Extends own lo hi t t'' where
  le := Nat.le_trans hle h'.le
  blocks := h.blocks.trans h'.blocks
  tidy := h'.tidy
  later := h.later.trans (h'.later.weaken hle)
  inside key name d hnone hd := by
    cases hmid : t'.find? key name with
    | none => exact (h'.inside key name d hmid hd).imp_right fun hkey => ⟨by omega, hkey.2⟩
    | some d' => exact h.inside key name d' hnone hmid

theorem trans (h : Extends own lo mid t t') (h' : Extends own mid hi t' t'') :
    Extends own lo hi t t'' :=
  h.join h' h.le

theorem own_mono {own' : List BlockKey} (h : Extends own lo hi t t') (hown : own ⊆ own') :
    Extends own' lo hi t t' :=
  { h with inside := fun key name d hnone hd => (h.inside key name d hnone hd).imp_left (hown ·) }

/-- What puts nothing into the outermost block leaves its names free. -/
theorem find?_rootBlock (h : Extends [] lo hi t t') {name : Ident} (hnone : t.find? rootBlock name = none) :
    t'.find? rootBlock name = none := by
  cases hd : t'.find? rootBlock name with
  | none => rfl
  | some d =>
    rcases h.inside rootBlock name d hnone hd with hmem | ⟨_, hne⟩
    · cases hmem
    · exact absurd rfl hne

/-- A declaration that can be used within the interval is a new one. -/
theorem origin (h : Extends own lo hi t t') (ht : t.Tidy lo) (hT : Later hi t' T) {key : BlockKey}
    {name : Ident} {d : Declaration} (hfind : T.find? key name = some d) (hsource : d.builtin = false)
    (hlo : lo ≤ d.visibleFrom.toNat) (hhi : d.visibleFrom.toNat < hi) :
    ∃ d', t.find? key name = none ∧ t'.find? key name = some d' ∧ d'.Becomes d := by
  obtain ⟨d', hd', hbecomes⟩ := hT.find?_of_lt hfind (.inr hhi)
  cases hold : t.find? key name with
  | none => exact ⟨d', rfl, hd', hbecomes⟩
  | some d₀ =>
    obtain ⟨d₁, hd₁, hbecomes₀⟩ := h.later.kept key name d₀ hold
    rw [hd'] at hd₁
    cases hd₁
    have hd := hbecomes₀.trans hbecomes
    rw [hd.visibleFrom_eq] at hlo
    rw [hd.builtin_eq] at hsource
    rcases ht.bound key name d₀ hold with ⟨hbuiltin, _⟩ | ⟨_, hlt, _⟩
    · simp [hsource] at hbuiltin
    · omega

/-- Leaving a block that was entered before. -/
theorem leave {key : BlockKey} (hframes : t.frames = []) (hlo : lo ≤ mid) (hkey : lo ≤ key.toNat)
    (hroot : key ≠ rootBlock) (h : Extends [key] mid hi (t.enterBlock key) t')
    (hleave : t'.leave = .ok t'') : Extends [] lo hi t t'' := by
  obtain ⟨hblocks, hdecl⟩ := leave_enterBlock hframes h.blocks hleave
  have hfind := find?_congr hdecl
  refine ⟨Nat.le_trans hlo h.le, hblocks, ⟨?_, ?_, ?_⟩, ⟨?_, ?_⟩, ?_⟩
  · simpa only [hfind] using h.tidy.proper
  · simpa only [hfind] using h.tidy.bound
  · simpa only [hfind] using h.tidy.assigned
  · simpa only [hfind, find?_enterBlock] using h.later.kept
  · simpa only [hfind, find?_enterBlock] using (h.later.weaken hlo).added
  · intro key' name d hnone hd
    rw [hfind] at hd
    rcases h.inside key' name d hnone hd with hmem | ⟨hle, hne⟩
    · rw [List.mem_singleton.1 hmem]
      exact .inr ⟨hkey, hroot⟩
    · exact .inr ⟨by omega, hne⟩

end Extends

/-- A table while the text is read from an offset on, in a chain of blocks that opened before it. -/
structure Reading (scope : List BlockKey) (lo : Nat) (t : SymbolTable) : Prop where
  frames : t.frames = []
  active : t.active = scope
  tidy : t.Tidy lo
  keys : ∀ key ∈ scope, key = rootBlock ∨ key.toNat < lo

namespace Reading

variable {scope own : List BlockKey} {lo hi : Nat} {t t' T : SymbolTable}

theorem frame (h : Reading scope lo t) : t.frame = scope := by
  rw [frame_eq_active h.frames, h.active]

theorem scope_eq (h : Reading scope lo t) : t.scope = scope.reverse := by
  rw [SymbolTable.scope, h.frame]

theorem currentBlock_eq {key : BlockKey} (h : Reading (key :: scope) lo t) : t.currentBlock = key := by
  rw [currentBlock, h.active, List.headD_cons]

theorem step (h : Reading scope lo t) (ht : Extends own lo hi t t') : Reading scope hi t' where
  frames := ht.blocks.frames.trans h.frames
  active := ht.blocks.active.trans h.active
  tidy := ht.tidy
  keys key hkey := (h.keys key hkey).imp_right fun hlt => Nat.lt_of_lt_of_le hlt ht.le

theorem enter {key : BlockKey} (h : Reading scope lo t) (hkey : lo ≤ key.toNat) :
    Reading (key :: scope) (key.toNat + 1) (t.enterBlock key) where
  frames := h.frames
  active := congrArg (key :: ·) h.active
  tidy :=
    have htidy := h.tidy.weaken (Nat.le_succ_of_le hkey)
    ⟨htidy.proper, htidy.bound, htidy.assigned⟩
  keys k hk := by
    rcases List.mem_cons.1 hk with rfl | hk
    · exact .inr (Nat.lt_succ_self _)
    · exact (h.keys k hk).imp_right (by omega)

/-- A block that opens now holds nothing yet. -/
theorem find?_fresh (h : Reading scope lo t) {key : BlockKey} (hkey : lo ≤ key.toNat)
    (hroot : key ≠ rootBlock) (name : Ident) : t.find? key name = none := by
  cases hd : t.find? key name with
  | none => rfl
  | some d =>
    rcases h.tidy.bound key name d hd with ⟨_, hkey'⟩ | ⟨_, _, hkey' | hlt⟩
    · exact absurd hkey' hroot
    · exact absurd hkey' hroot
    · omega

/-- Nothing is declared in the blocks around a part of the text by that part. -/
theorem clear (h : Reading scope lo t) (ht : Extends [] lo hi t t') (hT : Later hi t' T) :
    T.Clear scope lo hi := by
  intro key hkey name d hd hsource
  by_cases hbetween : d.visibleFrom.toNat < lo ∨ hi ≤ d.visibleFrom.toNat
  · exact hbetween
  exfalso
  obtain ⟨hlo, hhi⟩ : lo ≤ d.visibleFrom.toNat ∧ d.visibleFrom.toNat < hi := by omega
  obtain ⟨d', hnone, hd', _⟩ := ht.origin h.tidy hT hd hsource hlo hhi
  rcases ht.inside key name d' hnone hd' with hmem | ⟨hle, hne⟩
  · cases hmem
  · rcases h.keys key hkey with hroot | hlt
    · exact hne hroot
    · omega

end Reading

/-- A block that opens empty holds only what is declared from there on. -/
theorem Extends.opens {own : List BlockKey} {lo mid hi : Nat} {key : BlockKey} {t t' T : SymbolTable}
    (hfresh : ∀ name, t.find? key name = none) (hkey : lo ≤ key.toNat) (hroot : key ≠ rootBlock)
    (ht : Extends own mid hi (t.enterBlock key) t') (hT : Later hi t' T) : T.Opens key lo mid := by
  refine ⟨hkey, hroot, fun name d hd => ?_⟩
  obtain ⟨hle, hsource⟩ := (ht.later.trans (hT.weaken ht.le)).added key name d (hfresh name) hd
  exact ⟨hsource, hle⟩

end SymbolTable
end ToneScript
