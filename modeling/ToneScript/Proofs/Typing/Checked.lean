import ToneScript.Proofs.Typing.Arithmetic

/-! The check of expressions and functions. By induction on how deep functions may nest, and on the text, a
check that leaves no error has learned only right signatures, and what it went through obeys the rules. -/
namespace ToneScript

namespace SymbolTable

theorem frame_enterBlock {t : SymbolTable} (h : t.Framed) (key : BlockKey) :
    (t.enterBlock key).frame = key :: t.frame := by
  have hdepth : (t.enterBlock key).depth = t.depth + 1 := by
    have hle : t.frameBase ≤ t.active.length := Nat.le_of_lt h
    show t.active.length + 1 - t.frameBase = t.active.length - t.frameBase + 1
    omega
  rw [frame, hdepth]
  rfl

theorem frame_enterScope (t : SymbolTable) (chain : List BlockKey) :
    (t.enterScope chain).frame = chain.reverse := by
  have hdepth : (t.enterScope chain).depth = chain.reverse.length := by
    simp [depth, frameBase, enterScope]
  rw [frame, hdepth, enterScope, List.take_left]

end SymbolTable

/-- A program that is laid out in a text, as its table says. -/
structure Elaboration.LaidOut (w : Elaboration) (size : Nat) : Prop where
  size_lt : size < UInt64.size
  placed : Item.AllPlaced w.constants w.table 0 size w.program
  bound : ∀ key name d, w.table.find? key name = some d → d.builtin = false → d.visibleFrom.toNat < size
  proper : ∀ key name d, w.table.find? key name = some d → d.Proper key

namespace Elaboration

variable {w : Elaboration} {size : Nat}

/-- A function of the program is found under its key. -/
theorem LaidOut.find? (h : w.LaidOut size) {f : FunctionDef} (hf : f ∈ w.program.functions) :
    w.table.find? f.block f.name = some f.declaration := by
  obtain ⟨scope, lo, hi, hsuffix, _, _, hplaced⟩ := h.placed.placedWithin f hf
  cases scope with
  | nil => simp at hsuffix
  | cons key scope =>
    obtain ⟨hblock, hfind⟩ := hplaced.find?
    rw [hblock, hfind]

/-- Functions are told apart by their keys. -/
theorem LaidOut.eq_of_key_eq (h : w.LaidOut size) {f g : FunctionDef} (hf : f ∈ w.program.functions)
    (hg : g ∈ w.program.functions) (hkey : f.key = g.key) : f = g := by
  have hfind := h.find? hf
  obtain ⟨hblock, hname⟩ := Prod.mk.inj hkey
  rw [hblock, hname, h.find? hg] at hfind
  have hargs : f.argsKey = g.argsKey := congrArg Declaration.visibleFrom (Option.some.inj hfind).symm
  exact h.placed.inOrder.eq_of_argsKey_eq hf hg hargs

/-- How many functions open at an offset or after it. -/
def openAfter (w : Elaboration) (lo : Nat) : Nat :=
  w.functions.countP fun entry => entry.2.definition?.any fun f => decide (lo ≤ f.argsKey.toNat)

theorem openAfter_le (w : Elaboration) (lo : Nat) : w.openAfter lo ≤ w.functions.length :=
  List.countP_le_length

/-- A function is not among those that open after it. -/
theorem openAfter_lt {f : FunctionDef} {progress : Progress}
    (h : w.functions.lookup f.key = some ⟨some f, progress⟩) {lo : Nat} (hlo : lo ≤ f.argsKey.toNat) :
    w.openAfter (f.argsKey.toNat + 1) < w.openAfter lo := by
  obtain ⟨before, after, hsplit, _⟩ := List.lookup_eq_some_iff.1 h
  have hmono (entries : FunctionTable) :
      entries.countP (fun entry => entry.2.definition?.any fun g =>
        decide (f.argsKey.toNat + 1 ≤ g.argsKey.toNat)) ≤
      entries.countP fun entry => entry.2.definition?.any fun g => decide (lo ≤ g.argsKey.toNat) := by
    refine List.countP_mono_left fun entry _ hentry => ?_
    simp only [Option.any_eq_true_iff_get, decide_eq_true_eq] at hentry ⊢
    obtain ⟨hsome, hle⟩ := hentry
    exact ⟨hsome, by omega⟩
  have hbefore := hmono before
  have hafter := hmono after
  rw [openAfter, openAfter, hsplit]
  simp only [List.countP_append, List.countP_cons, Option.any_some, Nat.not_succ_le_self,
    decide_false, hlo, decide_true, Bool.false_eq_true, if_true, if_false]
  omega

end Elaboration

namespace Check

variable {names : NameTable} {w : Elaboration} {scope : List BlockKey} {size lo hi : Nat} {s s' : State}

namespace State.At

/-- What is declared in the blocks around, up to an offset before which nothing new is declared, is old. -/
theorem seen (hclear : w.table.Clear scope lo hi) {key : BlockKey} (hkey : key ∈ scope) {name : Ident}
    {d : Declaration} (hfind : w.table.find? key name = some d) (hsource : d.builtin = false)
    (hlt : d.visibleFrom.toNat < hi) : d.visibleFrom.toNat < lo := by
  rcases hclear key hkey name d hfind hsource with hlt' | hle
  · exact hlt'
  · omega

/-- A name at the outermost level that was declared in the text so far has its type. -/
theorem typed_of_clear (h : s.At w scope lo) (hto : s.LeadsTo w) (hclear : w.table.Clear scope lo hi)
    (hroot : rootBlock ∈ scope) {name : Ident} {d : Declaration}
    (hfind : s.table.find? rootBlock name = some d) (hsource : d.builtin = false)
    (hlt : d.visibleFrom.toNat < hi) : d.ty? ≠ none := by
  obtain ⟨d', hd', hbecomes⟩ := (hto.table hi).kept rootBlock name d hfind
  have hold := seen hclear hroot hd' (by rw [hbecomes.builtin_eq, hsource])
    (by rw [hbecomes.visibleFrom_eq]; exact hlt)
  rw [hbecomes.visibleFrom_eq] at hold
  exact h.typed name d hfind hsource hold

/-- Inside a block that opens now. -/
theorem enterBlock (h : s.At w scope lo) {key : BlockKey}
    (hopens : w.table.Opens key lo (key.toNat + 1)) (hclear : w.table.Clear scope lo hi)
    (hroot : rootBlock ∈ scope) (hhi : key.toNat + 1 ≤ hi) (hto : s.LeadsTo w) :
    State.At w (key :: scope) (key.toNat + 1) { s with table := s.table.enterBlock key } := by
  obtain ⟨hlo, hne, hfresh⟩ := hopens
  constructor
  case toLearned => exact ⟨h.unpoisoned, h.known⟩
  case frame => rw [SymbolTable.frame_enterBlock h.framed, h.frame]
  case keys =>
    intro key' hkey'
    rcases List.mem_cons.1 hkey' with rfl | hmem
    · exact .inr (Nat.lt_succ_self _)
    · exact (h.keys key' hmem).imp_right (by omega)
  case framed => exact h.framed.enterBlock key
  case proper => exact h.proper
  case collected => exact h.collected
  case intrinsic => exact h.intrinsic
  case builtin => exact h.builtin
  case ready =>
    intro key' hkey' name d hd hfunction hsource hlt
    rcases List.mem_cons.1 hkey' with rfl | hmem
    · have := (hfresh name d hd).2
      omega
    · have hold := seen hclear hmem hd hsource (Nat.lt_of_lt_of_le hlt hhi)
      rcases h.ready key' hmem name d hd hfunction hsource hold with ⟨hin, hactive⟩ | ⟨hout, hready⟩
      · exact .inl ⟨List.mem_cons_of_mem _ hin, hactive⟩
      · refine .inr ⟨fun hin => ?_, hready⟩
        rcases List.mem_cons.1 hin with heq | hin
        · rw [heq] at hold
          omega
        · exact hout hin
  case before =>
    intro key' f hkey'
    have := h.before key' f hkey'
    omega
  case typed =>
    intro name d hd hsource hlt
    exact h.typed_of_clear hto hclear hroot hd hsource (Nat.lt_of_lt_of_le hlt hhi)

/-- A function at the outermost level has its type. -/
theorem typed_of_declared {f : FunctionDef} (hplaced : f.Placed w.constants w.table scope lo hi)
    (hclear : w.table.Clear (scope.drop 1) lo hi) (hroot : rootBlock ∈ scope) (hto : s.LeadsTo w)
    {name : Ident} {d : Declaration} (hfind : s.table.find? rootBlock name = some d)
    (hsource : d.builtin = false) (hlo : lo ≤ d.visibleFrom.toNat) (hhi : d.visibleFrom.toNat < hi) :
    d.ty? ≠ none := by
  obtain ⟨d', hd', hbecomes⟩ := (hto.table hi).kept rootBlock name d hfind
  obtain ⟨_, heq⟩ := hplaced.declared hclear hroot hd' (by rw [hbecomes.builtin_eq, hsource])
    (by rw [hbecomes.visibleFrom_eq]; exact hlo) (by rw [hbecomes.visibleFrom_eq]; exact hhi)
  intro hnone
  rcases hbecomes with rfl | ⟨_, ty, hty, rfl⟩
  · rw [heq] at hnone
    cases hnone
  · have htype := congrArg Declaration.ty? heq
    rcases hty with rfl | rfl <;> cases htype

/-- In the body of a function that is declared now. -/
theorem enterBody (h : s.At w scope lo) {f : FunctionDef} (hplaced : f.Placed w.constants w.table scope lo hi)
    (hclear : w.table.Clear (scope.drop 1) lo hi) (hroot : rootBlock ∈ scope) (hto : s.LeadsTo w)
    (hpending : s.typing.functions.lookup f.key = some ⟨some f, .pending⟩) :
    State.At w (f.argsKey :: scope) (f.argsKey.toNat + 1)
      { s with
        table := s.table.enterScope f.bodyScope
        typing := { s.typing with functions := s.typing.functions.setProgress f.key .active } } := by
  obtain ⟨⟨hlo, hne, _⟩, hscope, _, _, _, hparams, hbody⟩ := FunctionDef.placed_iff.1 hplaced
  have hhi : f.argsKey.toNat + 1 ≤ hi := (Expr.Placed.inOrder f.body hbody).1
  constructor
  case toLearned =>
    refine ⟨h.unpoisoned, fun key g signature hkey => ?_⟩
    rcases FunctionTable.of_setProgress hkey with ⟨_, hactive, _⟩ | ⟨_, hold⟩
    · cases hactive
    · exact h.known key g signature hold
  case frame =>
    rw [SymbolTable.frame_enterScope, FunctionDef.bodyScope, hscope, List.reverse_append,
      List.reverse_reverse]
    rfl
  case keys =>
    intro key hkey
    rcases List.mem_cons.1 hkey with rfl | hmem
    · exact .inr (Nat.lt_succ_self _)
    · exact (h.keys key hmem).imp_right (by omega)
  case framed => exact SymbolTable.framed_enterScope _ (bodyScope_ne_nil f)
  case proper => exact h.proper
  case collected =>
    intro key g progress hkey
    rcases FunctionTable.of_setProgress hkey with ⟨_, _, old, hold⟩ | ⟨_, hold⟩
    · exact h.collected key g old hold
    · exact h.collected key g progress hold
  case intrinsic =>
    intro key progress hkey
    rcases FunctionTable.of_setProgress hkey with ⟨_, _, old, hold⟩ | ⟨_, hold⟩
    · exact h.intrinsic key old hold
    · exact h.intrinsic key progress hold
  case builtin =>
    intro name d hd hbuiltin hfunction
    obtain ⟨signature, hold, husable⟩ := h.builtin name d hd hbuiltin hfunction
    exact ⟨signature, FunctionTable.lookup_setProgress_of_ne _ hpending hold (by simp), husable⟩
  case ready =>
    intro key hkey name d hd hfunction hsource hlt
    have hlt' : d.visibleFrom.toNat < hi := Nat.lt_of_lt_of_le hlt hhi
    rcases List.mem_cons.1 hkey with rfl | hmem
    · obtain ⟨p, _, rfl⟩ := hparams name d hd hlt'
      cases hfunction
    by_cases hold : d.visibleFrom.toNat < lo
    · rcases h.ready key hmem name d hd hfunction hsource hold with
        ⟨hin, g, hactive⟩ | ⟨hout, g, signature, hresolved⟩
      · exact .inl ⟨List.mem_cons_of_mem _ hin, g,
          FunctionTable.lookup_setProgress_of_ne _ hpending hactive (by simp)⟩
      · refine .inr ⟨fun hin => ?_, g, signature,
          FunctionTable.lookup_setProgress_of_ne _ hpending hresolved (by simp)⟩
        rcases List.mem_cons.1 hin with heq | hin
        · rw [heq] at hold
          omega
        · exact hout hin
    · obtain ⟨hfkey, rfl⟩ := hplaced.declared hclear hmem hd hsource (Nat.not_lt.1 hold) hlt'
      refine .inl ⟨List.mem_cons_self, f, ?_⟩
      rw [← hfkey, FunctionTable.lookup_setProgress_self hpending]
  case before =>
    intro key g hkey
    rcases FunctionTable.of_setProgress hkey with ⟨rfl, _, old, hold⟩ | ⟨_, hold⟩
    · rw [hpending] at hold
      cases hold
      exact Nat.lt_succ_self _
    · have := h.before key g hold
      omega
  case typed =>
    intro name d hd hsource hlt
    by_cases hold : d.visibleFrom.toNat < lo
    · exact h.typed name d hd hsource hold
    exact typed_of_declared hplaced hclear hroot hto hd hsource (Nat.not_lt.1 hold)
      (Nat.lt_of_lt_of_le hlt hhi)

/-- After a function has been checked. -/
theorem define (h : s.At w scope lo) {f : FunctionDef} (hplaced : f.Placed w.constants w.table scope lo hi)
    (hclear : w.table.Clear (scope.drop 1) lo hi) (hroot : rootBlock ∈ scope) (hto : s.LeadsTo w)
    (hg : s.Grows s') (hlearned : s'.Learned w) {signature : Signature}
    (hresolved : s'.typing.functions.lookup f.key = some ⟨some f, .resolved signature⟩) :
    s'.At w scope hi := by
  obtain ⟨⟨hlo, hne, _⟩, _⟩ := FunctionDef.placed_iff.1 hplaced
  refine h.grow hg hlearned (FunctionDef.Placed.inOrder f hplaced).1 ?_ ?_
  · intro key hkey name d hd _ hsource hlo' hhi
    obtain ⟨hfkey, rfl⟩ := hplaced.declared hclear hkey hd hsource hlo' hhi
    refine ⟨fun hin => ?_, f, signature, hfkey ▸ hresolved⟩
    rcases h.keys f.argsKey hin with heq | hlt
    · exact hne heq
    · omega
  · intro name d hd hsource hlo' hhi
    exact typed_of_declared hplaced hclear hroot hto hd hsource hlo' hhi

end State.At
theorem State.Learned.same (h : s.Learned w) (hs : s.Same s') : s'.Learned w where
  unpoisoned := hs.poisoned.trans h.unpoisoned
  known := by rw [hs.functions]; exact h.known

/-- A function whose signature is known obeys the rules. -/
theorem State.Learned.obeys (h : s.Learned w) (hto : s.LeadsTo w) {f : FunctionDef} {signature : Signature}
    (hresolved : s.typing.functions.lookup f.key = some ⟨some f, .resolved signature⟩) (p : List BlockKey) :
    f.Obeys (.checked w) p := by
  have hknown := h.known _ f signature hresolved
  obtain ⟨final, hfinal, heq, _⟩ := hto.functions _ _ hresolved
  cases heq signature rfl
  exact FunctionDef.obeys_iff.2 ⟨⟨signature, hfinal, hknown.parameters, hknown.arity, hknown.kind,
    hknown.settled, hknown.returns⟩, hknown.obeys⟩

/-- A resolver that learns only right signatures when it is asked for functions from an offset on. -/
def Resolver.Sound (w : Elaboration) (start : Nat) (resolve : Resolver) : Prop :=
  ∀ scope lo hi f s signature s', start ≤ lo → f.Placed w.constants w.table scope lo hi →
    f.functions ⊆ w.program.functions → w.table.Clear (scope.drop 1) lo hi → rootBlock ∈ scope →
    State.At w scope lo s → s.typing.functions.lookup f.key = some ⟨some f, .pending⟩ →
    (resolve f.key f).run s = .ok (signature, s') → s'.LeadsTo w →
    s'.Learned w ∧ (∃ signature, s'.typing.functions.lookup f.key = some ⟨some f, .resolved signature⟩) ∧
      s.Marks w [] s'

/-- A conditional has the type of its branches, as far as these have types. -/
theorem Types.conditional {c t e : Expr} {pos : Position} {thenType elseType : Ty}
    (ht : Types w scope t thenType) (he : Types w scope e elseType)
    (hdiffer : ¬(thenType.isDeterminate ∧ elseType.isDeterminate ∧ thenType ≠ elseType)) :
    Types w scope (.conditional c t e pos)
        (if thenType.isDeterminate then thenType else elseType) ∧
      (t.isProvisional w scope = false → e.isProvisional w scope = false →
        t.ty w scope = e.ty w scope) := by
  have htdet := ht.determinate
  have hedet := he.determinate
  obtain ⟨hty, hkind⟩ := ht
  cases hprov : t.isProvisional w scope with
  | true =>
    rw [hprov] at htdet
    rw [htdet]
    refine ⟨?_, nofun⟩
    rw [Types, Expr.isProvisional, Expr.ty, hprov, Bool.true_and, if_pos rfl]
    exact he
  | false =>
    rw [hprov] at htdet hty
    rw [htdet]
    refine ⟨?_, fun _ heprov => ?_⟩
    · rw [Types, Expr.isProvisional, Expr.ty, hprov]
      exact ⟨hty, fun _ => hkind hprov⟩
    · rw [heprov] at hedet
      have heq : thenType = elseType := Classical.not_not.1 fun hne => hdiffer ⟨htdet, hedet, hne⟩
      have hety := he.1
      rw [heprov] at hety
      exact hty.symm.trans (heq.trans hety)

/-- A function that is defined in a block has its signature from there on. -/
theorem closure_ok (hlaid : w.LaidOut size) {resolve : Resolver} (hgrows : resolve.Grows)
    {start : Nat} (hsound : resolve.Sound w start) (frame? : Option Frame) {f : FunctionDef} {pos : Position}
    (hstart : start ≤ lo) (hplaced : f.Placed w.constants w.table scope lo hi)
    (hsub : f.functions ⊆ w.program.functions) (hclear : w.table.Clear (scope.drop 1) lo hi)
    (hroot : rootBlock ∈ scope) (hat : s.At w scope lo) {u : Unit}
    (h : (entry names resolve frame? (.closure f pos)).run s = .ok (u, s')) (hto : s'.LeadsTo w) :
    s'.At w scope hi ∧ f.Obeys (.checked w) scope ∧
      s.Marks w ((BlockEntry.closure f pos).nodes scope) s' := by
  have hf : f ∈ w.program.functions := hsub (by rw [FunctionDef.functions_eq]; exact List.mem_cons_self)
  have hfind : w.table.find? f.block f.name = some f.declaration := hlaid.find? hf
  have hlo : lo ≤ f.argsKey.toNat := (FunctionDef.placed_iff.1 hplaced).1.1
  have hg := Grows.entry names hgrows frame? (.closure f pos) _ _ _ hat.framed h
  have hto₀ := hto.of_grows hg
  suffices hdone : ∃ mid signature, mid.Learned w ∧
      mid.typing.functions.lookup f.key = some ⟨some f, .resolved signature⟩ ∧ s.Marks w [] mid ∧
      (setType pos (.function f.name)).run mid = .ok (⟨⟩, s') by
    obtain ⟨mid, signature, hlearned, hresolved, hmarks, htype⟩ := hdone
    have hsame := setType_same htype
    have hlearned' := hlearned.same hsame
    have hresolved' := hsame.functions ▸ hresolved
    exact ⟨hat.define hplaced hclear hroot hto₀ hg hlearned' hresolved', hlearned'.obeys hto hresolved' _,
      (hmarks.resolved hresolved).trans (.setType rfl rfl rfl htype)⟩
  unfold entry at h
  obtain ⟨s₀, s₁, hget, h₁⟩ := run_bind_ok h
  cases hget
  split at h₁
  · cases h₁
  · rename_i known hpending
    obtain ⟨hkey, hmem⟩ := hat.collected _ _ _ hpending
    cases hlaid.eq_of_key_eq (Program.definitions_subset _ hmem) hf hkey
    obtain ⟨⟨⟩, s₂, hdiscard, h₂⟩ := run_bind_ok h₁
    obtain ⟨signature, hrun⟩ := discard_ok hdiscard
    have hg₁ := hgrows _ f _ _ _ hpending hrun
    obtain ⟨hlearned, ⟨signature', hresolved⟩, hmarks⟩ := hsound scope lo hi f s signature s₂ hstart hplaced hsub
      hclear hroot hat hpending hrun
      (hto.of_grows (Grows.setType _ _ _ _ _ (hg₁.framed hat.framed) h₂))
    exact ⟨s₂, signature', hlearned, hresolved, hmarks, h₂⟩
  · rename_i info hnot hlookup
    obtain ⟨definition?, progress⟩ := info
    cases definition? with
    | none =>
      obtain ⟨d, hd, hbuiltin⟩ := hat.intrinsic _ _ hlookup
      rw [FunctionDef.key, hfind] at hd
      cases hd
      cases hbuiltin
    | some known =>
      obtain ⟨hkey, hmem⟩ := hat.collected _ _ _ hlookup
      cases hlaid.eq_of_key_eq (Program.definitions_subset _ hmem) hf hkey
      cases progress with
      | pending => exact (hnot f rfl).elim
      | active =>
        have := hat.before _ _ hlookup
        omega
      | resolved signature => exact ⟨s, signature, hat.toLearned, hlookup, .refl s, h₁⟩

mutual

theorem expr_ok (hlaid : w.LaidOut size) {resolve : Resolver} (hgrows : resolve.Grows)
    {start : Nat} (hsound : resolve.Sound w start) (frame? : Option Frame)
    (e : Expr) {scope : List BlockKey} {lo hi : Nat} (hstart : start ≤ lo)
    (hplaced : e.Placed w.constants w.table scope lo hi) (hsub : e.functions ⊆ w.program.functions)
    (hclear : w.table.Clear scope lo hi) (hroot : rootBlock ∈ scope) {s s' : State}
    (hat : s.At w scope lo) {ty : Ty} (h : (expr names resolve frame? e).run s = .ok (ty, s'))
    (hto : s'.LeadsTo w) :
    s'.Learned w ∧ e.Obeys (.checked w) scope ∧ Types w scope e ty ∧ s.Marks w (e.nodes scope) s' := by
  cases e with
  | span compiled tree =>
    obtain ⟨_, _, hnamed⟩ := hplaced
    rw [expr] at h
    obtain ⟨hsame, hrest⟩ := arithmetic_ok hgrows frame? tree hnamed hclear hat h hto
    exact ⟨hat.toLearned.same hsame, hrest⟩
  | conditional c t e pos =>
    obtain ⟨m, n, hc, ht, he⟩ := hplaced
    simp only [Expr.functions, List.append_subset] at hsub
    obtain ⟨⟨hsubc, hsubt⟩, hsube⟩ := hsub
    have hle₁ := (Expr.Placed.inOrder c hc).1
    have hle₂ := (Expr.Placed.inOrder t ht).1
    have hle₃ := (Expr.Placed.inOrder e he).1
    have hclear₁ := hclear.narrow (Nat.le_refl lo) (Nat.le_trans hle₂ hle₃)
    have hclear₂ := hclear.narrow hle₁ hle₃
    have hclear₃ := hclear.narrow (Nat.le_trans hle₁ hle₂) (Nat.le_refl hi)
    rw [expr] at h
    obtain ⟨conditionType, s₁, hcondition, h₁⟩ := run_bind_ok h
    obtain ⟨⟨⟩, s₂, hexpect, h₂⟩ := run_bind_ok h₁
    obtain ⟨thenType, s₃, hthen, h₃⟩ := run_bind_ok h₂
    obtain ⟨elseType, s₄, helse, h₄⟩ := run_bind_ok h₃
    have hg₁ := Grows.expr names hgrows frame? c _ _ _ hat.framed hcondition
    have hf₁ := hg₁.framed hat.framed
    have hg₂ := Grows.expect names _ _ _ _ _ _ _ hf₁ hexpect
    have hf₂ := hg₂.framed hf₁
    have hg₃ := Grows.expr names hgrows frame? t _ _ _ hf₂ hthen
    have hf₃ := hg₃.framed hf₂
    have hg₄ := Grows.expr names hgrows frame? e _ _ _ hf₃ helse
    have hf₄ := hg₄.framed hf₃
    have htype (ty' : Ty) : Grows (do setType pos ty'; return ty' : Step Ty) :=
      Grows.bind (Grows.setType _ _) fun _ => Grows.pure _
    obtain ⟨hdiffer, h₅⟩ := reported_ok (htype _) hf₄ h₄ hto.clean
    obtain ⟨⟨⟩, s₅, hset, h₆⟩ := run_bind_ok h₅
    cases h₆
    have hto₄ := hto.of_grows (Grows.setType _ _ _ _ _ hf₄ hset)
    have hto₃ := hto₄.of_grows hg₄
    have hto₂ := hto₃.of_grows hg₃
    have hto₁ := hto₂.of_grows hg₂
    obtain ⟨hlearned₁, hobeys₁, htypes₁, hmarks₁⟩ :=
      expr_ok hlaid hgrows hsound frame? c hstart hc hsubc hclear₁ hroot hat hcondition hto₁
    obtain ⟨heq, hboolean⟩ := expect_ok hexpect hto₂.clean
    subst heq
    have hat₂ := hat.advance hg₁ hlearned₁ (hto₁.of_grows hg₁) hclear₁ hroot hle₁
    obtain ⟨hlearned₃, hobeys₂, htypes₂, hmarks₂⟩ :=
      expr_ok hlaid hgrows hsound frame? t (by omega) ht hsubt hclear₂ hroot hat₂ hthen hto₃
    have hat₃ := hat₂.advance hg₃ hlearned₃ hto₂ hclear₂ hroot hle₂
    obtain ⟨hlearned₄, hobeys₃, htypes₃, hmarks₃⟩ :=
      expr_ok hlaid hgrows hsound frame? e (by omega) he hsube hclear₃ hroot hat₃ helse hto₄
    obtain ⟨htypes, hbranches⟩ := htypes₂.conditional htypes₃ hdiffer
    exact ⟨hlearned₄.same (setType_same hset),
      ⟨⟨htypes₁.expected hboolean, hbranches⟩, hobeys₁, hobeys₂, hobeys₃⟩, htypes,
      ((hmarks₁.trans hmarks₂).trans hmarks₃).trans (htypes.marks hset)⟩
  | block key items pos =>
    obtain ⟨hopens, hitems⟩ := hplaced
    rw [Expr.functions] at hsub
    rw [expr] at h
    obtain ⟨⟨⟩, s₁, hblock, hrest⟩ := run_bind_ok h
    obtain ⟨⟨⟩, s₂, htype, hrest⟩ := run_bind_ok hrest
    cases hrest
    obtain ⟨mid, table, hentries, hleave, rfl⟩ := inScope_ok hblock
    have hle := (BlockEntry.AllPlaced.inOrder items hitems).1
    have hg := Grows.entries names hgrows frame? items _ _ _ (hat.framed.enterBlock key) hentries
    have htable : table = s.table := by
      rw [hg.table, SymbolTable.leave_enterBlock_self hat.framed] at hleave
      exact (Except.ok.inj hleave).symm
    have hg₁ := Grows.enterBlock key (Grows.entries names hgrows frame? items) _ _ _ hat.framed hblock
    have hg₂ := Grows.setType _ _ _ _ _ (hg₁.framed hat.framed) htype
    have hto₂ := hto.of_grows hg₂
    have hto₀ := hto₂.of_grows hg₁
    have hto₁ : mid.LeadsTo w := by
      refine ⟨fun hi => ?_, hto₂.functions, hto₂.count, hto₂.clean⟩
      rw [hg.table]
      exact ⟨(hto₀.table hi).kept, (hto₀.table hi).added⟩
    obtain ⟨hlearned, hobeys, hmarks⟩ := entries_ok hlaid hgrows hsound frame? items (by have := hopens.1; omega) hitems hsub
      (hclear.narrow (Nat.le_succ_of_le hopens.1) (Nat.le_refl _)) (List.mem_cons_of_mem _ hroot)
      (hat.enterBlock hopens hclear hroot hle hto₀) hentries hto₁
    have htypes : Types w scope (.block key items pos) .number := ⟨rfl, fun _ => .inl rfl⟩
    have hlearned' : State.Learned w { mid with table } := ⟨hlearned.unpoisoned, hlearned.known⟩
    have hmarks' : s.Marks w (BlockEntry.nodesOfAll (key :: scope) items) { mid with table } :=
      ⟨hmarks.kept, hmarks.added, hmarks.marked, hmarks.recorded⟩
    exact ⟨hlearned'.same (setType_same htype), ⟨trivial, hobeys⟩, htypes,
      hmarks'.trans (htypes.marks htype)⟩
  | number | boolean | var | prefixed | binary | call => cases hplaced

theorem entries_ok (hlaid : w.LaidOut size) {resolve : Resolver} (hgrows : resolve.Grows)
    {start : Nat} (hsound : resolve.Sound w start) (frame? : Option Frame)
    (items : List BlockEntry) {scope : List BlockKey} {lo hi : Nat}
    (hstart : start ≤ lo) (hplaced : BlockEntry.AllPlaced w.constants w.table scope lo hi items)
    (hsub : BlockEntry.functionsOfAll items ⊆ w.program.functions)
    (hclear : w.table.Clear (scope.drop 1) lo hi) (hroot : rootBlock ∈ scope) {s s' : State}
    (hat : s.At w scope lo) {u : Unit} (h : (entries names resolve frame? items).run s = .ok (u, s'))
    (hto : s'.LeadsTo w) :
    s'.Learned w ∧ BlockEntry.AllObey (.checked w) scope items ∧
      s.Marks w (BlockEntry.nodesOfAll scope items) s' := by
  cases items with
  | nil =>
    cases h
    exact ⟨hat.toLearned, trivial, .refl _⟩
  | cons item items =>
    obtain ⟨m, hitem, hitems⟩ := hplaced
    rw [BlockEntry.functionsOfAll, List.append_subset] at hsub
    rw [entries] at h
    obtain ⟨⟨⟩, s₁, hentry, hrest⟩ := run_bind_ok h
    have hg₁ := Grows.entry names hgrows frame? item _ _ _ hat.framed hentry
    have hg₂ := Grows.entries names hgrows frame? items _ _ _ (hg₁.framed hat.framed) hrest
    have hlo := (BlockEntry.Placed.inOrder item hitem).1
    have hhi := (BlockEntry.AllPlaced.inOrder items hitems).1
    obtain ⟨hat₁, hobeys₁, hmarks₁⟩ := entry_ok hlaid hgrows hsound frame? item hstart hitem hsub.1
      (hclear.narrow (Nat.le_refl _) hhi) hroot hat hentry (hto.of_grows hg₂)
    obtain ⟨hlearned, hobeys₂, hmarks₂⟩ := entries_ok hlaid hgrows hsound frame? items (Nat.le_trans hstart hlo) hitems hsub.2
      (hclear.narrow hlo (Nat.le_refl _)) hroot hat₁ hrest hto
    exact ⟨hlearned, ⟨hobeys₁, hobeys₂⟩, hmarks₁.trans hmarks₂⟩

theorem entry_ok (hlaid : w.LaidOut size) {resolve : Resolver} (hgrows : resolve.Grows)
    {start : Nat} (hsound : resolve.Sound w start) (frame? : Option Frame)
    (item : BlockEntry) {scope : List BlockKey} {lo hi : Nat}
    (hstart : start ≤ lo) (hplaced : item.Placed w.constants w.table scope lo hi)
    (hsub : item.functions ⊆ w.program.functions) (hclear : w.table.Clear (scope.drop 1) lo hi)
    (hroot : rootBlock ∈ scope) {s s' : State} (hat : s.At w scope lo) {u : Unit}
    (h : (entry names resolve frame? item).run s = .ok (u, s')) (hto : s'.LeadsTo w) :
    s'.At w scope hi ∧ item.Obeys (.checked w) scope ∧ s.Marks w (item.nodes scope) s' := by
  cases item with
  | closure f pos =>
    exact closure_ok hlaid hgrows hsound frame? hstart hplaced hsub hclear hroot hat h hto
  | operator op value guard pos =>
    obtain ⟨hown, m, hvalue, hguard⟩ := hplaced
    rw [BlockEntry.functions, List.append_subset] at hsub
    have hclear' := hown.join hclear
    have hle₁ := (Expr.Placed.inOrder value hvalue).1
    have hle₂ := (Expr.OptionPlaced.inOrder guard hguard).1
    have hclear₁ := hclear'.narrow (Nat.le_refl lo) hle₂
    unfold entry at h
    have hrest : Grows (do
        let valueType ← expr names resolve frame? value
        expect names .blockEntry .number valueType value.pos
        match guard with
        | none => pure ()
        | some guard =>
          let guardType ← expr names resolve frame? guard
          expect names .guard .boolean guardType guard.pos : Step Unit) := by
      refine Grows.bind (Grows.expr names hgrows frame? value) fun _ =>
        Grows.bind (Grows.expect names _ _ _ _) fun _ => ?_
      cases guard with
      | none => exact Grows.pure _
      | some guard =>
        exact Grows.bind (Grows.expr names hgrows frame? guard) fun _ => Grows.expect names _ _ _ _
    obtain ⟨hop, h₁⟩ := reported_ok hrest hat.framed h hto.clean
    have harith : op.isArithmetic = true := by simpa using hop
    have hg := hrest _ _ _ hat.framed h₁
    have hto₀ := hto.of_grows hg
    obtain ⟨valueType, s₁, hrun, h₂⟩ := run_bind_ok h₁
    obtain ⟨⟨⟩, s₂, hexpect, h₃⟩ := run_bind_ok h₂
    have hg₁ := Grows.expr names hgrows frame? value _ _ _ hat.framed hrun
    have hf₁ := hg₁.framed hat.framed
    have hg₂ := Grows.expect names _ _ _ _ _ _ _ hf₁ hexpect
    have hf₂ := hg₂.framed hf₁
    cases guard with
    | none =>
      cases h₃
      obtain ⟨hlearned, hobeys, _, hmarks⟩ := expr_ok hlaid hgrows hsound frame? value hstart hvalue hsub.1 hclear₁
        hroot hat hrun (hto.of_grows hg₂)
      obtain ⟨rfl, _⟩ := expect_ok hexpect hto.clean
      exact ⟨hat.advance hg₁ hlearned hto₀ hclear' hroot (Nat.le_trans hle₁ hle₂),
        ⟨⟨harith, nofun⟩, hobeys, trivial⟩, hmarks.trans (.refl _)⟩
    | some guard =>
      obtain ⟨guardType, s₃, hrun', h₄⟩ := run_bind_ok h₃
      have hg₃ := Grows.expr names hgrows frame? guard _ _ _ hf₂ hrun'
      have hg₄ := Grows.expect names _ _ _ _ _ _ _ (hg₃.framed hf₂) h₄
      have hto₃ := hto.of_grows hg₄
      have hto₂ := hto₃.of_grows hg₃
      have hto₁ := hto₂.of_grows hg₂
      obtain ⟨hlearned₁, hobeys₁, _, hmarks₁⟩ := expr_ok hlaid hgrows hsound frame? value hstart hvalue hsub.1 hclear₁
        hroot hat hrun hto₁
      obtain ⟨rfl, _⟩ := expect_ok hexpect hto₂.clean
      have hat₁ := hat.advance hg₁ hlearned₁ hto₀ hclear₁ hroot hle₁
      obtain ⟨hlearned₂, hobeys₂, htypes, hmarks₂⟩ := expr_ok hlaid hgrows hsound frame? guard
        (Nat.le_trans hstart hle₁) hguard hsub.2 (hclear'.narrow hle₁ (Nat.le_refl hi)) hroot hat₁ hrun' hto₃
      obtain ⟨rfl, hboolean⟩ := expect_ok h₄ hto.clean
      refine ⟨hat.advance hg hlearned₂ hto₀ hclear' hroot (Nat.le_trans hle₁ hle₂),
        ⟨⟨harith, fun g hg hprov => ?_⟩, hobeys₁, hobeys₂⟩, hmarks₁.trans hmarks₂⟩
      cases hg
      exact htypes.expected hboolean hprov

end

/-- What the check of the body of a function finds out. -/
theorem known_of_body {f : FunctionDef} {ty : Ty} (hobeys : f.body.Obeys (.checked w) f.inside)
    (htypes : Types w f.inside f.body ty) (hdet : ty.isDeterminate = true) :
    w.Known f
      { type := .ofNumbers (f.params.map Param.name) ty
        defaults := f.params.map Param.default?
        failed := !ty.isDeterminate } := by
  have hprov : f.body.isProvisional w f.inside = false := by
    simpa [hdet] using htypes.determinate.symm
  obtain ⟨hty, hkind⟩ := htypes
  rw [hprov, if_neg Bool.false_ne_true] at hty
  exact ⟨⟨by simp [FunctionType.ofNumbers], by simp [hdet]⟩, Signature.parameters_provisional f,
    hty ▸ hkind hprov, hprov, hty, hobeys⟩

/-- The state in which the body of a function has just been checked is one on the way, since the function itself is
resolved right after. -/
theorem State.LeadsTo.inBody {f : FunctionDef} {signature : Signature} {mid : State} (h : s.LeadsTo w)
    (hto : s'.LeadsTo w) (htable : mid.table = s.table.enterScope f.bodyScope)
    (hactive : mid.typing.functions.lookup f.key = some ⟨some f, .active⟩)
    (hfunctions : s'.typing.functions = mid.typing.functions.setProgress f.key (.resolved signature))
    (herrors : mid.journal.errorCount ≤ s'.journal.errorCount) : mid.LeadsTo w where
  table hi := by
    rw [htable]
    exact ⟨(h.table hi).kept, (h.table hi).added⟩
  functions key info hinfo := by
    by_cases hkey : f.key = key
    · subst hkey
      rw [hactive] at hinfo
      cases hinfo
      have hresolved : s'.typing.functions.lookup f.key = some ⟨some f, .resolved signature⟩ := by
        rw [hfunctions, FunctionTable.lookup_setProgress_self hactive]
      obtain ⟨final, hfinal, _, hparams⟩ := hto.functions _ _ hresolved
      exact ⟨final, hfinal, nofun, hparams⟩
    · refine hto.functions key info ?_
      rw [hfunctions, FunctionTable.lookup_setProgress, if_neg hkey, hinfo]
  count := by rw [← hto.count, hfunctions, FunctionTable.length_setProgress]
  clean := Nat.le_zero.1 (hto.clean ▸ herrors)

theorem resolveWithin_sound (hlaid : w.LaidOut size) (nesting : Nat) {start : Nat}
    (hnesting : w.openAfter start ≤ nesting) : (resolveWithin names nesting).Sound w start := by
  induction nesting generalizing start with
  | zero =>
    intro scope lo hi f s signature s' hstart hplaced hsub hclear hroot hat hpending h hto
    have hto₀ := hto.of_grows (resolveWithin_grows _ _ _ _ _ _ hpending h)
    obtain ⟨final, hfinal, _⟩ := hto₀.functions _ _ hpending
    have hlo := (FunctionDef.placed_iff.1 hplaced).1.1
    have := Elaboration.openAfter_lt hfinal (Nat.le_trans hstart hlo)
    omega
  | succ nesting ih =>
    intro scope lo hi f s signature s' hstart hplaced hsub hclear hroot hat hpending h hto
    have hg := resolveWithin_grows _ _ _ _ _ _ hpending h
    have hto₀ := hto.of_grows hg
    obtain ⟨final, hfinal, _⟩ := hto₀.functions _ _ hpending
    obtain ⟨⟨hlo, _, _⟩, hscope, _, _, _, _, hbody⟩ := FunctionDef.placed_iff.1 hplaced
    have hfuel := Elaboration.openAfter_lt hfinal (Nat.le_trans hstart hlo)
    obtain ⟨ty, mid, hexpr, hsignature, hleave, hfunctions, hrecords, hpoisoned, hjournal, hundetermined, _⟩ :=
      resolveWithin_ok h
    have hat' := hat.enterBody hplaced hclear hroot hto₀ hpending
    have hgm := Grows.expr names (resolveWithin_grows nesting) _ f.body _ _ _ hat'.framed hexpr
    have hactive : mid.typing.functions.lookup f.key = some ⟨some f, .active⟩ :=
      hgm.functions.active (FunctionTable.lookup_setProgress_self hpending .active)
    have hresolved : s'.typing.functions.lookup f.key = some ⟨some f, .resolved signature⟩ := by
      rw [hfunctions, FunctionTable.lookup_setProgress_self hactive]
    have htom := hto₀.inBody hto hgm.table hactive hfunctions hjournal.errorCount_le
    have hplace : f.inside = f.argsKey :: scope := by
      rw [FunctionDef.inside, FunctionDef.bodyScope, hscope, List.reverse_append, List.reverse_reverse]
      rfl
    have hsub' : f.body.functions ⊆ w.program.functions := by
      rw [FunctionDef.functions_eq] at hsub
      exact fun g hg => hsub (List.mem_cons_of_mem _ hg)
    obtain ⟨hlearned, hobeys, htypes, hmarks⟩ := expr_ok hlaid (resolveWithin_grows nesting)
      (ih (by omega : w.openAfter (f.argsKey.toNat + 1) ≤ nesting)) _ f.body (Nat.le_refl _) hbody
      hsub' (hplaced.clear hclear) (List.mem_cons_of_mem _ hroot) hat' hexpr htom
    have hdet : ty.isDeterminate = true := by
      cases hdet : ty.isDeterminate with
      | true => rfl
      | false =>
        have := hundetermined hdet (htom.clean.trans hto₀.clean.symm)
          (hlearned.unpoisoned.trans hat.unpoisoned.symm)
        rw [hto.clean] at this
        cases this
    have hf : f ∈ w.program.functions := hsub (by rw [FunctionDef.functions_eq]; exact List.mem_cons_self)
    have hnodes : f.nodes = f.body.nodes (f.argsKey :: scope) := by rw [FunctionDef.nodes_eq, hplace]
    refine ⟨⟨hpoisoned.trans hlearned.unpoisoned, fun key g signature' hkey => ?_⟩, ⟨signature, hresolved⟩, ?_⟩
    · rw [hfunctions] at hkey
      rcases FunctionTable.of_setProgress hkey with ⟨rfl, hprogress, old, hold⟩ | ⟨_, hold⟩
      · rw [hactive] at hold
        cases hold
        cases hprogress
        rw [← hplace] at hobeys
        have hknown := known_of_body hobeys (by rw [hplace]; exact htypes) hdet
        rwa [← hsignature] at hknown
      · exact hlearned.known key g signature' hold
    · exact State.Marks.resolve hf (hnodes ▸ hmarks) hactive hfunctions hrecords

theorem resolve_sound (hlaid : w.LaidOut size) : (resolve names).Sound w 0 := by
  intro scope lo hi f s signature s' hstart hplaced hsub hclear hroot hat hpending h hto
  have hto₀ := hto.of_grows (resolve_grows _ _ _ _ _ hpending h)
  unfold resolve at h
  obtain ⟨s₀, s₁, hget, h₁⟩ := run_bind_ok h
  cases hget
  rw [hto₀.count] at h₁
  exact resolveWithin_sound hlaid _ (w.openAfter_le 0) scope lo hi f s signature s' hstart hplaced hsub
    hclear hroot hat hpending h₁ hto

end Check
end ToneScript
