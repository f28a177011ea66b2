import ToneScript.Proofs.Syntax.Openings
import ToneScript.Proofs.Syntax.Resolution
import ToneScript.Proofs.Syntax.Success

/-! Every declaration that is made while a source is read is one of a new name, on every path through its
definitions, whether these can be read or not. -/
namespace ToneScript

namespace Resolution

open SymbolTable (Extends Reading)

variable {α β : Type} {c : Context}

/-- A step that only declares names that the current block does not hold yet, from a state on. It is taken
apart as it is put together, down to declarations and to steps that leave the table alone. -/
inductive Fresh : {α : Type} → Step α → State → Prop where
  | idle {α : Type} {x : Step α} {s : State} (table : (x.run s).2.table = s.table) : Fresh x s
  | declare {name : Ident} {pos : Position} {visibleFrom : UInt64} {ty? : Option Ty} {builtin : Bool} {s : State}
      (new : s.table.find? s.table.currentBlock name = none) :
      Fresh (modifyTable (·.declare name pos visibleFrom ty? builtin)) s
  | bind {α β : Type} {x : Step α} {f : α → Step β} {s : State} (first : Fresh x s)
      (rest : ∀ a s', x.run s = (.ok a, s') → Fresh (f a) s') : Fresh (x >>= f) s
  | inBlock {α : Type} {x : Step α} {s : State} (key : BlockKey)
      (inside : Fresh x { s with table := s.table.enterBlock key }) : Fresh (inBlock key x) s
  | attempt {α : Type} {x : Step α} {s : State} (tried : Fresh x s) : Fresh (attempt x) s

theorem run_inBlock {key : BlockKey} {x : Step α} {s : State} {table : SymbolTable}
    (h : (x.run { s with table := s.table.enterBlock key }).2.table.leave = .ok table) :
    (inBlock key x).run s = ((x.run { s with table := s.table.enterBlock key }).1,
      { (x.run { s with table := s.table.enterBlock key }).2 with table }) := by
  rw [inBlock, ExceptT.run_mk]
  rcases hrun : x.run { s with table := s.table.enterBlock key } with ⟨result, mid⟩
  rw [hrun] at h
  simp only [h]

theorem run_attempt_table (x : Step α) (s : State) : ((attempt x).run s).2.table = (x.run s).2.table := by
  rw [attempt, ExceptT.run_mk]
  split <;> rename_i heq <;> rw [heq]

/-- What a step does to the table from a state on, however it ends: it declares new names only, between two
offsets, in the blocks `own` or in blocks that open there. `Q` holds of its result, if it has one, and of every
table that comes later. -/
structure Reads (own : List BlockKey) (lo hi : Nat) (Q : α → SymbolTable → Prop) (x : Step α) (s : State) : Prop where
  fresh : Fresh x s
  extends_table : s.table.Extends own lo hi (x.run s).2.table
  result : ∀ a s', x.run s = (.ok a, s') → ∀ t, s'.table.Later 0 t → Q a t

namespace Reads

variable {own own' : List BlockKey} {lo mid mid' hi : Nat} {P Q : α → SymbolTable → Prop} {R : β → SymbolTable → Prop}
  {x : Step α} {f : α → Step β} {s : State}

theorem of_idle (htable : (x.run s).2.table = s.table) (htidy : s.table.Tidy lo) (hle : lo ≤ hi)
    (hQ : ∀ a s', x.run s = (.ok a, s') → ∀ t, s'.table.Later 0 t → Q a t) : Reads own lo hi Q x s where
  fresh := .idle htable
  extends_table := by
    rw [htable]
    exact .refl htidy hle
  result := hQ

theorem pure {a : α} (htidy : s.table.Tidy lo) (hle : lo ≤ hi) (hQ : ∀ t, s.table.Later 0 t → Q a t) :
    Reads own lo hi Q (Pure.pure a) s := by
  refine of_idle rfl htidy hle fun b s' hrun => ?_
  cases hrun
  exact hQ

theorem refuse (e : SyntaxError) (htidy : s.table.Tidy lo) (hle : lo ≤ hi) :
    Reads own lo hi Q (Resolution.refuse e) s :=
  of_idle rfl htidy hle nofun

theorem mono (h : Reads own lo hi P x s) (hown : own ⊆ own') (hQ : ∀ a t, P a t → Q a t) : Reads own' lo hi Q x s where
  fresh := h.fresh
  extends_table := h.extends_table.own_mono hown
  result a s' hrun t ht := hQ a t (h.result a s' hrun t ht)

/-- One step after another, where the second one may begin before the first one ends. -/
theorem join (hx : Reads own lo mid P x s) (hlo : lo ≤ mid') (hle : mid ≤ hi)
    (hf : ∀ a s', x.run s = (.ok a, s') → s.table.Extends own lo mid s'.table →
      Reads own mid' hi (fun b t => P a t → R b t) (f a) s') : Reads own lo hi R (x >>= f) s := by
  rcases hrun : x.run s with ⟨e | a, s'⟩
  · have htable := hx.extends_table
    have hbind : (x >>= f).run s = (.error e, s') := by rw [run_bind, hrun]
    rw [hrun] at htable
    refine ⟨hx.fresh.bind fun a s'' h => ?_, ?_, fun b s'' h => ?_⟩
    · cases hrun.symm.trans h
    · rw [hbind]
      exact htable.trans (.refl htable.tidy hle)
    · cases hbind.symm.trans h
  · have htable := hx.extends_table
    rw [hrun] at htable
    have hrest := hf a s' hrun htable
    have hbind : (x >>= f).run s = (f a).run s' := by rw [run_bind, hrun]
    refine ⟨hx.fresh.bind fun a' s'' h => ?_, ?_, fun b s'' h t ht => ?_⟩
    · cases hrun.symm.trans h
      exact hrest.fresh
    · rw [hbind]
      exact htable.join hrest.extends_table hlo
    · rw [hbind] at h
      have hlater := hrest.extends_table.later
      rw [h] at hlater
      exact hrest.result b s'' h t ht (hx.result a s' hrun t ((hlater.weaken (Nat.zero_le _)).trans ht))

theorem bind (hx : Reads own lo mid P x s) (hle : mid ≤ hi)
    (hf : ∀ a s', x.run s = (.ok a, s') → s.table.Extends own lo mid s'.table →
      Reads own mid hi (fun b t => P a t → R b t) (f a) s') : Reads own lo hi R (x >>= f) s :=
  hx.join hx.extends_table.le hle hf

/-- A step after one that leaves the table alone. -/
theorem bind_idle (htable : (x.run s).2.table = s.table) (htidy : s.table.Tidy lo) (hle : lo ≤ hi)
    (hf : ∀ a s', x.run s = (.ok a, s') → s'.table = s.table → Reads own lo hi R (f a) s') :
    Reads own lo hi R (x >>= f) s := by
  have hx : Reads own lo lo (fun _ _ => True) x s := of_idle htable htidy (Nat.le_refl _) fun _ _ _ _ _ => trivial
  refine hx.bind hle fun a s' hrun _ => ?_
  rw [hrun] at htable
  exact (hf a s' hrun htable).mono (List.Subset.refl _) fun _ _ h _ => h

/-- A step inside a block, which is entered before it and left after it. -/
theorem inBlock {key : BlockKey} (hframes : s.table.frames = []) (hlo : lo ≤ mid) (hkey : lo ≤ key.toNat)
    (hroot : key ≠ rootBlock) (h : Reads [key] mid hi Q x { s with table := s.table.enterBlock key }) :
    Reads [] lo hi Q (inBlock key x) s := by
  have htable := h.extends_table
  have hleave : ∃ table, (x.run { s with table := s.table.enterBlock key }).2.table.leave = .ok table := by
    rw [SymbolTable.leave, htable.blocks.entered]
    exact ⟨_, rfl⟩
  obtain ⟨table, hleave⟩ := hleave
  refine ⟨.inBlock key h.fresh, ?_, fun a s' hrun t ht => ?_⟩
  · rw [run_inBlock hleave]
    exact Extends.leave hframes hlo hkey hroot htable hleave
  · rw [run_inBlock hleave] at hrun
    obtain ⟨hresult, rfl⟩ := Prod.mk.inj hrun
    refine h.result a _ (Prod.ext hresult rfl) t ?_
    have hfind := SymbolTable.find?_congr (SymbolTable.declarations_leave hleave)
    exact ⟨by simpa only [hfind] using ht.kept, by simpa only [hfind] using ht.added⟩

theorem attempt (h : Reads own lo hi Q x s) : Reads own lo hi (fun o t => ∀ a ∈ o, Q a t) (attempt x) s := by
  refine ⟨.attempt h.fresh, ?_, fun o s' hrun t ht => ?_⟩
  · rw [run_attempt_table]
    exact h.extends_table
  · rw [Resolution.attempt, ExceptT.run_mk] at hrun
    split at hrun
    · rename_i a s'' heq
      cases hrun
      exact fun b hb => Option.some.inj hb ▸ h.result a _ heq t ht
    · cases hrun
      exact fun a ha => absurd ha (Option.not_mem_none a)
    · cases hrun

/-- A new name is declared in the current block, where it is found from then on. -/
theorem declare {key : BlockKey} {rest : List BlockKey} (hr : Reading (key :: rest) lo s.table) (name : Ident)
    (pos : Position) (visibleFrom : UInt64) (ty? : Option Ty) (hnone : s.table.find? key name = none)
    (hlo : lo ≤ visibleFrom.toNat) (hhi : visibleFrom.toNat < hi)
    (htyped : ∀ ty, ty? = some ty → ty = .function name) (huntyped : ty? = none → key = rootBlock) :
    Reads [key] lo hi (fun _ t => ∃ d, t.find? key name = some d ∧
        Declaration.Becomes ⟨(key :: rest).reverse, name, pos, visibleFrom, ty?, false⟩ d)
      (modifyTable (·.declare name pos visibleFrom ty? false)) s := by
  have hcurrent := hr.currentBlock_eq
  have hscope := hr.scope_eq
  refine ⟨.declare (hcurrent.symm ▸ hnone), ?_, fun _ s' hrun t ht => ?_⟩
  · refine extends_declare hr name pos visibleFrom ty? hnone (by simp) hlo hhi ⟨?_, nofun, ?_, ?_⟩ ?_
    · simp [SymbolTable.declaration, Declaration.block, hscope]
    · exact fun hty => ⟨huntyped hty, rfl⟩
    · exact fun ty hty => .inl (htyped ty hty)
    · intro hnot
      cases hty : ty? with
      | none => rfl
      | some ty =>
        rw [hty, htyped ty hty] at hnot
        cases hnot
  · cases hrun
    refine ht.kept key name _ ?_
    show (s.table.declare ..).find? key name = _
    rw [SymbolTable.find?_declare, hcurrent, SymbolTable.declaration, hscope]
    exact if_pos ⟨rfl, rfl⟩

end Reads

theorem declareFunction_reads (c : Context) {h : FunctionHeader} {key : BlockKey} {scope : List BlockKey} {lo : Nat}
    {s : State} (hr : Reading (key :: scope) lo s.table) (hlo : lo ≤ h.opening.index.toNat) :
    Reads [key] lo (h.opening.index.toNat + 1)
      (fun _ t => t.find? key h.name = some ⟨(key :: scope).reverse, h.name, h.pos, h.opening.index,
        some (.function h.name), false⟩) (declareFunction c h) s := by
  have hle := Nat.le_succ_of_le hlo
  refine Reads.bind_idle (idle.checkNew c h.name h.pos s) hr.tidy hle fun _ s₁ hnew _ => ?_
  obtain ⟨rfl, hnone⟩ := checkNew_ok hnew
  rw [hr.currentBlock_eq] at hnone
  refine Reads.bind_idle (idle_warnIfShadowing c h.name h.pos s₁) hr.tidy hle fun _ s₂ _ htable => ?_
  rw [← htable] at hr hnone
  refine (Reads.declare hr h.name h.pos h.opening.index (some (.function h.name)) hnone hlo (Nat.lt_succ_self _)
    (fun ty hty => ?_) nofun).mono (List.Subset.refl _) ?_
  · exact (Option.some.inj hty).symm
  · rintro _ t ⟨d, hd, hbecomes⟩
    rw [hd, hbecomes.eq_of_typed (by simp)]

theorem fresh_declareParams (c : Context) (h : FunctionHeader) {ps : List Param} (hnodup : (ps.map Param.name).Nodup)
    {s : State} (hnew : ∀ p ∈ ps, s.table.find? s.table.currentBlock p.name = none) :
    Fresh (declareParams c h ps) s := by
  induction ps generalizing s with
  | nil => exact .idle rfl
  | cons p ps ih =>
    obtain ⟨hfresh, hnodup⟩ := List.nodup_cons.1 hnodup
    obtain ⟨hp, hps⟩ := List.forall_mem_cons.1 hnew
    refine .bind (.idle (idle_warnIfShadowing c p.name p.pos s)) fun _ s₁ hwarn => ?_
    have htable := warnIfShadowing_ok hwarn
    rw [← htable] at hp hps
    refine .bind (.declare hp) fun _ s₂ hdeclare => ?_
    cases hdeclare
    refine ih hnodup fun q hq => ?_
    show (s₁.table.declare ..).find? s₁.table.currentBlock q.name = none
    rw [SymbolTable.find?_declare, if_neg, hps q hq]
    rintro ⟨_, heq⟩
    rw [heq] at hfresh
    exact hfresh (List.mem_map_of_mem hq)

/-- The parameters of a function are declared in a block that opens empty. -/
theorem declareParams_reads {h : FunctionHeader} {key : BlockKey} {scope : List BlockKey} {lo : Nat} {s s₁ : State}
    (hlo : lo ≤ h.opening.index.toNat) (hnodup : (h.params.map Param.name).Nodup) (hroot : h.opening.index ≠ rootBlock)
    (hr : Reading (key :: scope) lo s.table) (hdeclare : (declareFunction c h).run s = (.ok (), s₁)) :
    let start : State := { s₁ with table := s₁.table.enterBlock h.opening.index }
    Reads [h.opening.index] h.opening.index.toNat (h.opening.index.toNat + 1) (fun _ _ => True)
      (declareParams c h h.params) start ∧
    ∀ s₂, (declareParams c h h.params).run start = (.ok (), s₂) →
      Reading (h.opening.index :: key :: scope) (h.opening.index.toNat + 1) s₂.table := by
  intro start
  obtain ⟨⟨⟩, s₂, hparams, _⟩ := Succeeds.declareParams (c := c) h h.params start.table start rfl
  obtain ⟨_, hempty, hopened, _, _, hr₂⟩ := function_opens hlo hnodup hroot hr hdeclare hparams
  refine ⟨⟨fresh_declareParams c h hnodup fun p _ => hempty p.name, ?_, fun _ _ _ _ _ => trivial⟩, fun s₂' h' => ?_⟩
  · rw [hparams]
    exact hopened
  · cases hparams.symm.trans h'
    exact hr₂

section Trees

variable (c)

mutual

/-- Whether an expression can be read or not, it declares new names only; and if it can, then what opens blocks in it
is laid out between its offsets. So it is with whatever else is read. -/
theorem expr_reads {scope : List BlockKey} {lo hi : Nat} (hhi : hi < UInt64.size) (o : Outline) (ho : o.Within lo hi)
    {s : State} (hr : Reading scope lo s.table) :
    Reads [] lo hi (fun e t => Opening.Laid lo hi e.openings t) (expr c o) s := by
  cases o with
  | conditional condition thenBranch elseBranch pos =>
    obtain ⟨m, n, hcondition, hthen, helse⟩ := ho
    have hm := Outline.Within.le thenBranch hthen
    have hn := Outline.Within.le elseBranch helse
    rw [expr]
    refine (expr_reads (by omega) condition hcondition hr).bind (Nat.le_trans hm hn) fun _ s₁ _ hext₁ => ?_
    have hr₁ := hr.step hext₁
    refine (expr_reads (by omega) thenBranch hthen hr₁).bind hn fun _ s₂ _ hext₂ => ?_
    have hr₂ := hr₁.step hext₂
    refine (expr_reads hhi elseBranch helse hr₂).bind (Nat.le_refl _) fun _ s₃ _ hext₃ => ?_
    exact Reads.pure hext₃.tidy (Nat.le_refl _) fun t _ h₃ h₂ h₁ => (h₁.append h₂).append h₃
  | block items flaw? pos =>
    obtain ⟨hpos, hitems⟩ := ho
    have hle := EntryOutline.AllWithin.le items hitems
    have hroot := ne_rootBlock (Nat.lt_of_succ_le hle) hhi
    rw [expr]
    refine (Reads.inBlock hr.frames (Nat.le_succ_of_le hpos) hpos hroot
      (entries_reads hhi items hitems (hr.enter hpos))).bind (Nat.le_refl _) fun _ s₁ _ hext => ?_
    cases flaw? with
    | none => exact Reads.pure hext.tidy (Nat.le_refl _) fun t _ hlaid => hlaid.cons hpos nofun
    | some flaw => exact Reads.refuse flaw hext.tidy (Nat.le_refl _)
  | arithmetic terms pos =>
    have htable : idle.holds (expr c (.arithmetic terms pos)) := by
      rw [expr]
      exact idle.bind (idle.cells c terms) fun _ => idle.bind (idle.compile _ _) fun _ => idle.accept _
    have hflat : Returns (fun e : Expr => e.openings = []) (expr c (.arithmetic terms pos)) := by
      rw [expr]
      exact .bind_any fun _ => .bind_any fun compiled => .accept fun _ => compiled.openings_of_toExpr
    refine .of_idle (htable s) hr.tidy ho.1 fun e s' hrun t _ => ?_
    rw [hflat s e s' hrun]
    exact .nil ho.1
  | flawed e => exact Reads.refuse e hr.tidy ho

theorem entries_reads {scope : List BlockKey} {lo hi : Nat} (hhi : hi < UInt64.size) {key : BlockKey}
    (items : List EntryOutline) (hitems : EntryOutline.AllWithin lo hi items) {s : State}
    (hr : Reading (key :: scope) lo s.table) :
    Reads [key] lo hi (fun trees t => Opening.Laid lo hi (BlockEntry.openingsOfAll trees) t) (entries c items) s := by
  cases items with
  | nil => exact Reads.pure hr.tidy hitems fun _ _ => .nil hitems
  | cons item items =>
    obtain ⟨m, hitem, hitems⟩ := hitems
    have hm := EntryOutline.AllWithin.le items hitems
    rw [entries]
    refine (entry_reads (by omega) item hitem hr).bind hm fun _ s₁ _ hext₁ => ?_
    refine (entries_reads hhi items hitems (hr.step hext₁)).bind (Nat.le_refl _) fun _ s₂ _ hext₂ => ?_
    exact Reads.pure hext₂.tidy (Nat.le_refl _) fun t _ h₂ h₁ => h₁.append h₂

theorem entry_reads {scope : List BlockKey} {lo hi : Nat} (hhi : hi < UInt64.size) {key : BlockKey}
    (item : EntryOutline) (hitem : item.Within lo hi) {s : State} (hr : Reading (key :: scope) lo s.table) :
    Reads [key] lo hi (fun tree t => Opening.Laid lo hi tree.openings t) (entry c item) s := by
  cases item with
  | operator op value guard pos =>
    obtain ⟨m, hvalue, hguard⟩ := hitem
    have hm := Outline.OptionWithin.le guard hguard
    -- The value and the guard open blocks of their own only.
    refine Reads.mono ?_ (List.nil_subset [key]) fun _ _ h => h
    cases guard with
    | none =>
      rw [entry]
      refine (expr_reads (by omega) value hvalue hr).bind hm fun _ s₁ _ hext => ?_
      exact Reads.pure hext.tidy hm fun t _ h => h.append (.nil hm)
    | some guard =>
      rw [entry]
      refine (expr_reads (by omega) value hvalue hr).bind hm fun _ s₁ _ hext₁ => ?_
      refine (expr_reads hhi guard hguard (hr.step hext₁)).bind (Nat.le_refl _) fun _ s₂ _ hext₂ => ?_
      exact Reads.pure hext₂.tidy (Nat.le_refl _) fun t _ h₂ h₁ => h₁.append h₂
  | closure definition pos =>
    rw [entry]
    refine (function_reads hhi definition hitem hr).bind (Nat.le_refl _) fun _ s₁ _ hext => ?_
    exact Reads.pure hext.tidy (Nat.le_refl _) fun _ _ h => h
  | flawed e => exact Reads.refuse e hr.tidy hitem

theorem function_reads {scope : List BlockKey} {lo hi : Nat} (hhi : hi < UInt64.size) {key : BlockKey}
    (definition : FunctionOutline) (hdefinition : definition.Within lo hi) {s : State}
    (hr : Reading (key :: scope) lo s.table) :
    Reads [key] lo hi (fun f t => Opening.Laid lo hi f.openings t) (function c definition) s := by
  cases definition with
  | defined header body =>
    obtain ⟨hlo, hnodup, hbody⟩ := hdefinition
    have hle := Outline.Within.le body hbody
    have hroot := ne_rootBlock (Nat.lt_of_succ_le hle) hhi
    rw [function]
    refine Reads.bind_idle rfl hr.tidy (by omega) fun _ s₀ hget _ => ?_
    cases hget
    -- The block of the parameters opens where the function can be used from, and not after it.
    refine (declareFunction_reads c hr hlo).join hlo hle fun _ s₁ hdeclare hext₁ => ?_
    have hr₁ := hr.step hext₁
    obtain ⟨hparams, hr₂⟩ := declareParams_reads hlo hnodup hroot hr hdeclare
    have hinner : Reads [header.opening.index] header.opening.index.toNat hi
        (fun e t => Opening.Laid (header.opening.index.toNat + 1) hi e.openings t)
        (do declareParams c header header.params; expr c body)
        { s₁ with table := s₁.table.enterBlock header.opening.index } := by
      refine hparams.bind hle fun _ s₂ hrun _ => ?_
      exact (expr_reads hhi body hbody (hr₂ s₂ hrun)).mono (List.nil_subset _) fun _ _ h _ => h
    have hblock := (Reads.inBlock hr₁.frames (Nat.le_refl _) (Nat.le_refl _) hroot hinner).mono
      (List.nil_subset [key]) fun _ _ h => h
    refine hblock.bind (Nat.le_refl _) fun _ s₃ _ hext₃ => ?_
    refine Reads.bind_idle rfl hext₃.tidy (Nat.le_refl _) fun _ s₄ _ htable => ?_
    refine Reads.pure (htable.symm ▸ hext₃.tidy) (Nat.le_refl _) fun t _ hlaid hdeclared => ?_
    rw [FunctionDef.openings]
    refine hlaid.cons hlo fun f hf => ?_
    cases hf
    rw [show s.table.scope = _ from hr.scope_eq]
    simpa [FunctionDef.block, FunctionDef.declaration] using hdeclared
  | bodiless header e =>
    obtain ⟨hlo, hlt⟩ := hdefinition
    rw [function]
    refine (declareFunction_reads c hr hlo).bind (Nat.succ_le_of_lt hlt) fun _ s₁ _ hext => ?_
    exact Reads.refuse e hext.tidy (Nat.succ_le_of_lt hlt)
  | flawed e => exact Reads.refuse e hr.tidy hdefinition

end

end Trees

end Resolution

end ToneScript
