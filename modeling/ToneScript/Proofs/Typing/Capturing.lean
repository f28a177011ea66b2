import ToneScript.Proofs.Typing.Captures

/-! The check of a body notes what the body uses. By induction on how deep functions may nest, and on the text, a check
that leaves no error has noted the variables of outer functions that are used where it went through, and no others. -/
namespace ToneScript.Check

variable {α β : Type}

/-- A step in a chain of blocks that notes some uses of variables, unless it leaves an error. -/
def Captures (w : Elaboration) (frame? : Option Frame) (scope : List BlockKey) (us : List Use) (x : Step α)
    (Q : α → Prop) : Prop :=
  ∀ s a s', s.Consistent w → s.table.frame = scope → x.run s = .ok (a, s') →
    s.Grows s' ∧ Q a ∧ (s'.journal.errorCount = 0 → s.Takes w (w.table.captured frame? us) s')

/-- A resolver that notes what the functions use whose signatures it finds. -/
def Resolver.Captures (w : Elaboration) (resolve : Resolver) : Prop :=
  ∀ key f s signature s', s.Consistent w → s.typing.functions.lookup key = some ⟨some f, .pending⟩ →
    (resolve key f).run s = .ok (signature, s') →
    s.Grows s' ∧ (s'.journal.errorCount = 0 → s.Takes w [] s')

variable {names : NameTable} {w : Elaboration} {frame? : Option Frame} {scope : List BlockKey}

namespace Captures

variable {P : α → Prop} {Q : β → Prop} {us vs : List Use}

theorem pure {a : α} (h : P a) : Captures w frame? scope [] (pure a) P := by
  intro s b s' _ _ hrun
  cases hrun
  refine ⟨.refl s, h, fun _ => ?_⟩
  rw [SymbolTable.captured_nil]
  exact .refl s

theorem bind {x : Step α} {f : α → Step β} (hx : Captures w frame? scope us x P)
    (hf : ∀ a, P a → Captures w frame? scope vs (f a) Q) : Captures w frame? scope (us ++ vs) (x >>= f) Q := by
  intro s b s' hs hframe hrun
  obtain ⟨a, mid, hrun₁, hrun₂⟩ := run_bind_ok hrun
  obtain ⟨hg₁, ha, htakes₁⟩ := hx s a mid hs hframe hrun₁
  obtain ⟨hg₂, hb, htakes₂⟩ := hf a ha mid b s' (hs.grow hg₁) (hg₁.table ▸ hframe) hrun₂
  refine ⟨hg₁.trans hg₂, hb, fun hclean => ?_⟩
  have hclean₁ : mid.journal.errorCount = 0 := Nat.le_zero.1 (hclean ▸ hg₂.errors)
  rw [SymbolTable.captured_append]
  exact (htakes₁ hclean₁).trans (htakes₂ hclean)

/-- A step before which nothing is used. -/
theorem after {x : Step α} {f : α → Step β} (hx : Captures w frame? scope [] x P)
    (hf : ∀ a, P a → Captures w frame? scope vs (f a) Q) : Captures w frame? scope vs (x >>= f) Q :=
  bind hx hf

/-- A step after which nothing is used. -/
theorem last {x : Step α} {f : α → Step β} (hx : Captures w frame? scope us x P)
    (hf : ∀ a, P a → Captures w frame? scope [] (f a) Q) : Captures w frame? scope us (x >>= f) Q := by
  have hbind := bind hx hf
  rwa [List.append_nil] at hbind

theorem mono {x : Step α} {P' : α → Prop} (h : Captures w frame? scope us x P) (hP : ∀ a, P a → P' a) :
    Captures w frame? scope us x P' := by
  intro s a s' hs hframe hrun
  obtain ⟨hg, ha, htakes⟩ := h s a s' hs hframe hrun
  exact ⟨hg, hP a ha, htakes⟩

/-- A step that notes nothing. -/
theorem silent {x : Step α} (hgrows : Grows x)
    (hsame : ∀ s a s', s.table.Framed → x.run s = .ok (a, s') → s'.journal.errorCount = 0 →
      s'.typing.functions = s.typing.functions ∧ s'.typing.captures = s.typing.captures) :
    Captures w frame? scope [] x fun _ => True := by
  intro s a s' hs _ hrun
  refine ⟨hgrows s a s' hs.framed hrun, trivial, fun hclean => ?_⟩
  obtain ⟨hfunctions, hcaptures⟩ := hsame s a s' hs.framed hrun hclean
  rw [SymbolTable.captured_nil]
  exact .of_same hfunctions hcaptures

/-- Where an error is left, nothing is said of what is noted. -/
theorem reportAt (us : List Use) (pos? : Option Position) (e : TypeError) :
    Captures w frame? scope us (reportAt names pos? e) fun _ => True := by
  intro s u s' hs _ hrun
  exact ⟨Grows.reportAt names pos? e s u s' hs.framed hrun, trivial, fun hclean => absurd hclean (reportAt_dirty hrun)⟩

theorem setType (pos : Position) (ty : Ty) : Captures w frame? scope [] (setType pos ty) fun _ => True := by
  refine silent (Grows.setType pos ty) fun s u s' _ hrun _ => ?_
  cases hrun
  exact ⟨rfl, rfl⟩

theorem poison : Captures w frame? scope [] poison fun _ => True := by
  refine silent Grows.poison fun s u s' _ hrun _ => ?_
  cases hrun
  exact ⟨rfl, rfl⟩

theorem expect (role : Role) (expected actual : Ty) (pos : Position) :
    Captures w frame? scope [] (expect names role expected actual pos) fun _ => True := by
  refine silent (Grows.expect names role expected actual pos) fun s u s' _ hrun hclean => ?_
  obtain ⟨rfl, _⟩ := expect_ok hrun hclean
  exact ⟨rfl, rfl⟩

theorem binaryType (op : Operator) (pos : Position) (left right : Ty) (leftPos rightPos : Position) :
    Captures w frame? scope [] (binaryType names op pos left right leftPos rightPos) fun _ => True := by
  refine silent (Grows.binaryType names op pos left right leftPos rightPos) fun s ty s' hframed hrun hclean => ?_
  obtain ⟨rfl, _⟩ := binaryType_ok hframed hrun hclean
  exact ⟨rfl, rfl⟩

theorem checkMissing (callee : Ident) (pos : Position) (params : List (Ident × Ty))
    (defaults : List (Option Number)) (bound : List Bool) :
    Captures w frame? scope [] (checkMissing names callee pos params defaults bound) fun _ => True := by
  refine silent (Grows.checkMissing names callee pos params defaults bound) fun s u s' hframed hrun hclean => ?_
  obtain ⟨rfl, _⟩ := checkMissing_ok hframed hrun hclean
  exact ⟨rfl, rfl⟩

theorem typed (pos : Position) (ty : Ty) :
    Captures w frame? scope [] (do Check.setType pos ty; return ty : Step Ty) fun _ => True :=
  last (setType pos ty) fun _ _ => pure trivial

/-- A step that is done only in some cases, before another one. -/
theorem guarded {p : Prop} [Decidable p] {x : Step Unit} {y : Step β}
    (hx : Captures w frame? scope [] x fun _ => True) (hy : Captures w frame? scope us y Q) :
    Captures w frame? scope us (if p then (do x; y) else y) Q := by
  split
  · exact after hx fun _ _ => hy
  · exact hy

/-- A step before which an error may be reported. -/
theorem reported {p : Prop} [Decidable p] (pos? : Option Position) (e : TypeError) {y : Step β}
    (hy : Captures w frame? scope us y Q) :
    Captures w frame? scope us (if p then (do Check.reportAt names pos? e; y) else y) Q :=
  guarded (reportAt [] pos? e) hy

/-- A step in a block that is entered before it and left after it. -/
theorem enterBlock {x : Step α} {key : BlockKey} (hx : Captures w frame? (key :: scope) us x P) :
    Captures w frame? scope us (inScope (·.enterBlock key) x) P := by
  intro s a s' hs hframe hrun
  obtain ⟨mid, table, hinner, hleave, rfl⟩ := inScope_ok hrun
  have hinside : (s.table.enterBlock key).frame = key :: scope := by
    rw [SymbolTable.frame_enterBlock hs.framed, hframe]
  obtain ⟨hg, ha, htakes⟩ := hx _ a mid (hs.enterBlock key) hinside hinner
  have htable : table = s.table := by
    rw [hg.table, SymbolTable.leave_enterBlock_self hs.framed] at hleave
    exact (Except.ok.inj hleave).symm
  refine ⟨⟨htable, hg.journal, hg.poisoned, hg.functions⟩, ha, fun hclean => ?_⟩
  have hinner := htakes hclean
  exact ⟨hinner.kept, hinner.nodup, hinner.added, hinner.taken, hinner.complete⟩

/-- A lookup finds what is found in the end, and notes it where the variable is one of an outer function. -/
theorem lookup? (name : Ident) (pos : Position) :
    Captures w frame? scope [⟨scope, name, pos⟩] (lookup? frame? name pos) fun d? =>
      d?.map (fun d => (d.block, d.name, d.isFunction)) =
        (w.table.target? scope name pos).map fun target => (target.block, target.name, target.isFunction) := by
  intro s d? s' hs hframe hrun
  have hagrees := hs.agrees scope name pos
  obtain ⟨_, hd⟩ := lookup?_ok hframe hrun
  refine ⟨Grows.lookup? frame? name pos s d? s' hs.framed hrun, ?_, fun _ => ?_⟩
  · rw [hd, ← hagrees, SymbolTable.target?]
    cases s.table.resolve scope name pos <;> rfl
  have hdepth : s.table.depth = scope.length := by
    rw [← hframe, SymbolTable.frame, List.length_take, Nat.min_eq_left]
    exact Nat.sub_le _ _
  unfold Check.lookup? at hrun
  obtain ⟨_, _, hget, hrun⟩ := run_bind_ok hrun
  cases hget
  simp only [SymbolTable.lookupBefore?_eq_resolve hframe, hdepth] at hrun
  cases frame? with
  | none =>
    rw [SymbolTable.captured_none]
    split at hrun <;> cases hrun <;> exact .refl s
  | some frame =>
    unfold SymbolTable.captured
    rw [Option.elim_some, List.filter_singleton, Use.isCaptured, ← hagrees, SymbolTable.target?]
    cases hfound : s.table.resolve scope name pos with
    | none =>
      rw [hfound] at hrun
      cases hrun
      exact .refl s
    | some found =>
      obtain ⟨d, crossed⟩ := found
      rw [hfound] at hrun
      rw [Option.map_some, Option.any_some]
      simp only at hrun
      split at hrun
      · rename_i hcaptured
        have hnoted : (decide (scope.length - 1 - crossed < frame.ownBase) && d.block != rootBlock &&
            !d.isFunction) = true := by simpa [and_assoc] using hcaptured
        obtain ⟨⟨⟩, mid, hcapture, hrest⟩ := run_bind_ok hrun
        cases hrest
        rw [hnoted, cond_true]
        exact .capture hcapture
      · rename_i hnot
        have hpassed : (decide (scope.length - 1 - crossed < frame.ownBase) && d.block != rootBlock &&
            !d.isFunction) = false := by
          rw [← Bool.not_eq_true]
          simpa [and_assoc] using hnot
        cases hrun
        rw [hpassed, cond_false]
        exact .refl s

theorem variableType (name : Ident) (pos : Position) :
    Captures w frame? scope [⟨scope, name, pos⟩] (variableType names frame? name pos) fun _ => True := by
  unfold Check.variableType
  refine last (lookup? name pos) fun d? _ => ?_
  split
  · exact last (reportAt [] _ _) fun _ _ => pure trivial
  · split
    · exact last poison fun _ _ => pure trivial
    · exact last (reportAt [] _ _) fun _ _ => pure trivial
    · exact pure trivial

/-- An argument that is a name alone uses the variable of that name. -/
theorem checkForm_shorthand (callee : Ident) (signature : Signature) (name other : Ident) (i : Nat) (pos : Position) :
    Captures w frame? scope [⟨scope, name, pos⟩]
      (checkForm names frame? callee signature name i (.shorthand other pos)) fun _ => True := by
  unfold Check.checkForm
  refine last (lookup? name pos) fun d? _ => ?_
  split
  · exact reportAt [] _ _
  · split
    · exact expect _ _ _ _
    · exact pure trivial

/-- Apart from its value, an argument that gives one uses no variable. -/
theorem checkForm_value (callee : Ident) (signature : Signature) (name : Ident) (i : Nat) {arg : Argument}
    (h : arg.value? ≠ none) :
    Captures w frame? scope [] (checkForm names frame? callee signature name i arg) fun _ => True := by
  cases arg with
  | shorthand other pos => exact absurd rfl h
  | opAssign other op value pos =>
    refine reported _ _ ?_
    split
    · exact reportAt [] _ _
    · exact pure trivial
  | assign | positional => exact pure trivial

theorem checkNamed (callee : Ident) (signature : Signature) (bound : List Bool) (name : Ident) {arg : Argument}
    (h : ∀ i, Captures w frame? scope us (Check.checkForm names frame? callee signature name i arg) fun _ => True) :
    Captures w frame? scope us (checkNamed names frame? callee signature bound name arg) fun _ => True := by
  unfold Check.checkNamed
  split
  · exact last (reportAt us _ _) fun _ _ => pure trivial
  · exact reported _ _ (last (h _) fun _ _ => pure trivial)

section Functions

variable {resolve : Resolver} (hresolve : resolve.Captures w)
include hresolve

/-- A function that has a signature in the end has one whenever it is called. -/
theorem signatureOf? {d : Declaration} {signature : Signature}
    (hsignature : w.functions.signature? (d.block, d.name) = some signature) :
    Captures w frame? scope [] (signatureOf? resolve d) (· ≠ none) := by
  intro s signature? s' hs _ hrun
  obtain ⟨⟨definition?, progress⟩, hlookup, hbuiltin⟩ := hs.callable _ signature hsignature
  have hidle : s.Grows s ∧ (s.journal.errorCount = 0 → s.Takes w (w.table.captured frame? []) s) := by
    rw [SymbolTable.captured_nil]
    exact ⟨.refl s, fun _ => .refl s⟩
  unfold Check.signatureOf? at hrun
  obtain ⟨_, _, hget, hrun⟩ := run_bind_ok hrun
  cases hget
  rw [hlookup] at hrun
  cases progress with
  | resolved found =>
    cases hrun
    exact ⟨hidle.1, Option.some_ne_none found, hidle.2⟩
  | active =>
    cases definition? with
    | none =>
      obtain ⟨_, hresolved⟩ := hbuiltin rfl
      cases hresolved
    | some f =>
      cases hrun
      exact ⟨hidle.1, Option.some_ne_none _, hidle.2⟩
  | pending =>
    cases definition? with
    | none =>
      obtain ⟨_, hresolved⟩ := hbuiltin rfl
      cases hresolved
    | some f =>
      simp only at hrun
      split at hrun
      · cases hrun
        exact ⟨hidle.1, Option.some_ne_none _, hidle.2⟩
      · obtain ⟨found, mid, hfound, hrest⟩ := run_bind_ok hrun
        cases hrest
        obtain ⟨hg, htakes⟩ := hresolve _ f s found _ hs hlookup hfound
        rw [SymbolTable.captured_nil]
        exact ⟨hg, Option.some_ne_none found, htakes⟩

/-- The function that a call refers to is not a variable. -/
theorem calleeSignature? {callee : Ident} {pos : Position} {d : Declaration} {crossed : Nat} {signature : Signature}
    (hd : w.table.resolve scope callee pos = some (d, crossed)) (hfunction : d.isFunction = true)
    (hsignature : w.signature? d = some signature) :
    Captures w frame? scope [] (calleeSignature? names resolve frame? callee pos) (· ≠ none) := by
  have htarget : w.table.target? scope callee pos = some ⟨d.block, d.name, d.isFunction, crossed⟩ := by
    rw [SymbolTable.target?, hd]
    rfl
  have hnothing : w.table.captured frame? [⟨scope, callee, pos⟩] = [] := by
    cases frame? with
    | none => rfl
    | some frame =>
      have hpassed : Use.isCaptured w.table frame.ownBase ⟨scope, callee, pos⟩ = false := by
        rw [Use.isCaptured, htarget, Option.any_some, hfunction, Bool.not_true, Bool.and_false]
      rw [SymbolTable.captured, Option.elim_some, List.filter_singleton, hpassed]
      rfl
  have hlookup : Captures w frame? scope [] (Check.lookup? frame? callee pos) fun d? =>
      d?.map (fun d => (d.block, d.name, d.isFunction)) = some (d.block, d.name, true) := by
    intro s d? s' hs hframe hrun
    obtain ⟨hg, hfound, htakes⟩ := lookup? callee pos s d? s' hs hframe hrun
    rw [htarget, Option.map_some, hfunction] at hfound
    rw [hnothing] at htakes
    rw [SymbolTable.captured_nil]
    exact ⟨hg, hfound, htakes⟩
  unfold Check.calleeSignature?
  refine after hlookup fun d? hfound => ?_
  obtain ⟨found, rfl, hsame⟩ := Option.map_eq_some_iff.1 hfound
  obtain ⟨hblock, hrest⟩ := Prod.mk.inj hsame
  obtain ⟨hname, hisFunction⟩ := Prod.mk.inj hrest
  have hknown : w.functions.signature? (found.block, found.name) = some signature := by
    rw [hblock, hname]
    exact hsignature
  simp only [if_pos hisFunction]
  exact signatureOf? hresolve hknown

/-- The check of a function that is defined in a block uses no variable of its own. -/
theorem closure (f : FunctionDef) (pos : Position) :
    Captures w frame? scope [] (Check.entry names resolve frame? (.closure f pos)) fun _ => True := by
  have htype : Captures w frame? scope [] (Check.setType pos (.function f.name)) fun _ => True := setType pos _
  intro s u s' hs hframe hrun
  unfold Check.entry at hrun
  obtain ⟨_, _, hget, hrun⟩ := run_bind_ok hrun
  cases hget
  split at hrun
  · cases hrun
  · rename_i known hpending
    obtain ⟨⟨⟩, mid, hdiscard, hrest⟩ := run_bind_ok hrun
    obtain ⟨signature, hsignature⟩ := discard_ok hdiscard
    obtain ⟨hg, htakes⟩ := hresolve _ known s signature mid hs hpending hsignature
    obtain ⟨hg', _, htakes'⟩ := htype mid u s' (hs.grow hg) (hg.table ▸ hframe) hrest
    refine ⟨hg.trans hg', trivial, fun hclean => ?_⟩
    have hclean₁ : mid.journal.errorCount = 0 := Nat.le_zero.1 (hclean ▸ hg'.errors)
    exact (htakes hclean₁).trans (htakes' hclean)
  · exact htype s u s' hs hframe hrun

end Functions

section Arguments

variable (site : CallSite) (count : Nat) {ordered : Step Unit} {named : Signature → List Bool → Step (List Bool)}
  (hordered : site.style = .ordered → Captures w frame? scope us ordered fun _ => True)
  (hnamed : site.style = .named → ∀ signature bound, Captures w frame? scope us (named signature bound) fun _ => True)
include hordered hnamed

theorem checkGiven (signature : Signature) :
    Captures w frame? scope us (checkGiven names site count ordered named signature) fun _ => True := by
  unfold Check.checkGiven
  cases hstyle : site.style with
  | ordered => exact reported _ _ (last (hordered hstyle) fun _ _ => pure trivial)
  | named => exact hnamed hstyle _ _

/-- The check of a call once its function is known. -/
theorem checkCall (signature? : Option Signature) (hsome : signature? ≠ none) :
    Captures w frame? scope us (checkCall names site count ordered named signature?) fun _ => True := by
  cases signature? with
  | none => exact absurd rfl hsome
  | some signature =>
    exact guarded poison (last (checkGiven site count hordered hnamed signature) fun bound _ =>
      last (checkMissing _ _ _ _ bound) fun _ _ => typed _ _)

end Arguments

section Traversal

variable {resolve : Resolver}

mutual

/-- The check of an arithmetic expression notes what the expression uses. -/
theorem arithmetic (hresolve : resolve.Captures w) {lo hi : Nat} (e : Expr)
    (hnamed : e.Obeys (.named w.constants w.table lo hi) scope) (hchecked : e.Obeys (.checked w) scope) :
    Captures w frame? scope (e.uses scope) (expr names resolve frame? e) fun _ => True := by
  cases e with
  | span compiled tree =>
    rw [Check.expr, Expr.uses]
    exact arithmetic hresolve tree hnamed hchecked
  | number value pos | boolean value pos =>
    rw [Check.expr, Expr.uses]
    exact typed _ _
  | var name pos =>
    rw [Check.expr, Expr.uses]
    exact last (variableType name pos) fun ty _ => typed _ ty
  | prefixed op operand pos =>
    rw [Check.expr, Expr.uses]
    exact last (arithmetic hresolve operand hnamed hchecked) fun _ _ => last (expect _ _ _ _) fun _ _ => typed _ _
  | binary op left right pos =>
    rw [Check.expr, Expr.uses]
    exact bind (arithmetic hresolve left hnamed.1 hchecked.1) fun _ _ =>
      last (arithmetic hresolve right hnamed.2 hchecked.2) fun _ _ =>
        last (binaryType _ _ _ _ _ _) fun ty _ => typed _ ty
  | block key items pos => exact hnamed.1.elim
  | conditional c t e pos => exact hnamed.1.elim
  | call site args =>
    obtain ⟨⟨_, hargs, hwritten, _⟩, hall⟩ := hnamed
    obtain ⟨⟨⟨d, crossed, signature, hd, hfunction, hsignature, _⟩, _⟩, hall'⟩ := hchecked
    have hstyle (arg : Argument) (hmem : arg ∈ args) : arg.name? = none ↔ site.style = .ordered := by
      obtain ⟨sarg, hsarg, htree⟩ := mem_toArguments hargs hmem
      rw [toArgument_name? htree]
      exact hwritten sarg hsarg
    rw [expr_call_eq, Expr.uses]
    refine after (calleeSignature? hresolve hd hfunction hsignature)
      (checkCall site args.length (fun hordered => ?_) fun hnamed signature bound => ?_)
    · exact orderedArguments hresolve site.callee 0 args hall hall' fun arg hmem => (hstyle arg hmem).2 hordered
    · refine namedArguments hresolve site.callee signature bound args hall hall' fun arg hmem hnone => ?_
      rw [(hstyle arg hmem).1 hnone] at hnamed
      cases hnamed

theorem orderedArguments (hresolve : resolve.Captures w) {lo hi : Nat} (callee : Ident) (i : Nat) (args : List Argument)
    (hnamed : Argument.AllObey (.named w.constants w.table lo hi) scope args)
    (hchecked : Argument.AllObey (.checked w) scope args) (hstyle : ∀ arg ∈ args, arg.name? = none) :
    Captures w frame? scope (Argument.usesOfAll scope args)
      (orderedArguments names resolve frame? callee i args) fun _ => True := by
  cases args with
  | nil =>
    rw [Check.orderedArguments, Argument.usesOfAll]
    exact pure trivial
  | cons arg args =>
    obtain ⟨hfirst, hrest⟩ := List.forall_mem_cons.1 hstyle
    cases arg with
    | shorthand | assign | opAssign => cases hfirst
    | positional value pos =>
      rw [Check.orderedArguments, Argument.usesOfAll, Argument.uses]
      exact bind (arithmetic hresolve value hnamed.1 hchecked.1) fun _ _ => after (expect _ _ _ _) fun _ _ =>
        orderedArguments hresolve callee (i + 1) args hnamed.2 hchecked.2 hrest

theorem namedArguments (hresolve : resolve.Captures w) {lo hi : Nat} (callee : Ident) (signature : Signature)
    (bound : List Bool) (args : List Argument) (hnamed : Argument.AllObey (.named w.constants w.table lo hi) scope args)
    (hchecked : Argument.AllObey (.checked w) scope args) (hstyle : ∀ arg ∈ args, arg.name? ≠ none) :
    Captures w frame? scope (Argument.usesOfAll scope args)
      (namedArguments names resolve frame? callee signature bound args) fun _ => True := by
  cases args with
  | nil =>
    rw [Check.namedArguments, Argument.usesOfAll]
    exact pure trivial
  | cons arg args =>
    obtain ⟨hfirst, hrest⟩ := List.forall_mem_cons.1 hstyle
    cases arg with
    | positional value pos => exact absurd rfl hfirst
    | shorthand name pos =>
      rw [Check.namedArguments, Argument.usesOfAll, Argument.uses]
      refine bind (checkNamed callee signature bound name fun i => ?_) fun bound _ =>
        namedArguments hresolve callee signature bound args hnamed.2 hchecked.2 hrest
      exact checkForm_shorthand callee signature name name i pos
    | assign name value pos | opAssign name op value pos =>
      rw [Check.namedArguments, Argument.usesOfAll, Argument.uses]
      refine bind (arithmetic hresolve value hnamed.1 hchecked.1) fun _ _ => after (expect _ _ _ _) fun _ _ =>
        after (checkNamed callee signature bound name fun i => ?_) fun bound _ =>
          namedArguments hresolve callee signature bound args hnamed.2 hchecked.2 hrest
      exact checkForm_value callee signature name i (Option.some_ne_none value)

end

mutual

/-- The check of an expression notes what the expression uses. -/
theorem expr (hresolve : resolve.Captures w) {scope : List BlockKey} {lo hi : Nat} (e : Expr)
    (hplaced : e.Placed w.constants w.table scope lo hi) (hchecked : e.Obeys (.checked w) scope) :
    Captures w frame? scope (e.uses scope) (expr names resolve frame? e) fun _ => True := by
  cases e with
  | span compiled tree =>
    rw [Check.expr, Expr.uses]
    exact arithmetic hresolve tree hplaced.2.2 hchecked
  | conditional c t e pos =>
    obtain ⟨m, n, hc, ht, he⟩ := hplaced
    obtain ⟨_, hc', ht', he'⟩ := hchecked
    rw [Check.expr, Expr.uses]
    exact bind (expr hresolve c hc hc') fun _ _ => after (expect _ _ _ _) fun _ _ =>
      bind (expr hresolve t ht ht') fun _ _ => last (expr hresolve e he he') fun _ _ => reported _ _ (typed _ _)
  | block key items pos =>
    rw [Check.expr, Expr.uses]
    exact last (enterBlock (entries hresolve items hplaced.2 hchecked.2)) fun _ _ => typed _ _
  | number | boolean | var | prefixed | binary | call => cases hplaced

theorem entries (hresolve : resolve.Captures w) {scope : List BlockKey} {lo hi : Nat} (items : List BlockEntry)
    (hplaced : BlockEntry.AllPlaced w.constants w.table scope lo hi items)
    (hchecked : BlockEntry.AllObey (.checked w) scope items) :
    Captures w frame? scope (BlockEntry.usesOfAll scope items) (entries names resolve frame? items) fun _ => True := by
  cases items with
  | nil =>
    rw [Check.entries, BlockEntry.usesOfAll]
    exact pure trivial
  | cons item items =>
    obtain ⟨m, hitem, hitems⟩ := hplaced
    rw [Check.entries, BlockEntry.usesOfAll]
    exact bind (entry hresolve item hitem hchecked.1) fun _ _ => entries hresolve items hitems hchecked.2

theorem entry (hresolve : resolve.Captures w) {scope : List BlockKey} {lo hi : Nat} (item : BlockEntry)
    (hplaced : item.Placed w.constants w.table scope lo hi) (hchecked : item.Obeys (.checked w) scope) :
    Captures w frame? scope (item.uses scope) (entry names resolve frame? item) fun _ => True := by
  cases item with
  | closure f pos =>
    rw [BlockEntry.uses]
    exact closure hresolve f pos
  | operator op value guard pos =>
    obtain ⟨_, m, hvalue, hguard⟩ := hplaced
    obtain ⟨_, hvalue', hguard'⟩ := hchecked
    rw [BlockEntry.uses]
    unfold Check.entry
    refine reported _ _ (bind (expr hresolve value hvalue hvalue') fun _ _ => after (expect _ _ _ _) fun _ _ => ?_)
    cases guard with
    | none =>
      rw [Expr.usesOfOption]
      exact pure trivial
    | some guard =>
      rw [Expr.usesOfOption]
      exact last (expr hresolve guard hguard hguard') fun _ _ => expect _ _ _ _

end

end Traversal
end Captures

section Bodies

variable (hbodies : ∀ f ∈ w.program.functions, f.body.Obeys (.checked w) f.inside ∧
  ∃ lo hi, f.body.Placed w.constants w.table f.inside lo hi)
include hbodies

/-- A body is checked in its own blocks, wherever the check comes from. -/
theorem resolveWithin_captures (nesting : Nat) : (resolveWithin names nesting).Captures w := by
  induction nesting with
  | zero =>
    intro key f s signature s' _ _ hrun
    cases hrun
    exact ⟨.refl s, fun _ => .refl s⟩
  | succ nesting ih =>
    intro key f s signature s' hs hpending hrun
    have hg := resolveWithin_grows _ key f s signature s' hpending hrun
    refine ⟨hg, fun hclean => ?_⟩
    obtain ⟨ty, mid, hexpr, _, _, hfunctions, _, _, hjournal, _, hcaptures, _⟩ := resolveWithin_ok hrun
    obtain ⟨rfl, hf⟩ := hs.known key f _ hpending
    obtain ⟨hchecked, lo, hi, hplaced⟩ := hbodies f hf
    have hframe : (s.table.enterScope f.bodyScope).frame = f.inside := SymbolTable.frame_enterScope _ _
    have hentered := hs.enterBody f.key f hpending
    obtain ⟨hgm, _, htakes⟩ := Captures.expr ih f.body hplaced hchecked _ ty mid hentered hframe hexpr
    have hclean₁ : mid.journal.errorCount = 0 := Nat.le_zero.1 (hclean ▸ hjournal.errorCount_le)
    have hactive : mid.typing.functions.lookup f.key = some ⟨some f, .active⟩ :=
      hgm.functions.active (FunctionTable.lookup_setProgress_self hpending .active)
    exact .resolve hf (htakes hclean₁) hactive hfunctions hcaptures

theorem resolve_captures : (resolve names).Captures w := by
  intro key f s signature s' hs hpending hrun
  unfold resolve at hrun
  obtain ⟨_, _, hget, hrun⟩ := run_bind_ok hrun
  cases hget
  exact resolveWithin_captures hbodies _ key f s signature s' hs hpending hrun

/-- The check of an item notes nothing at the outermost level. -/
theorem item_takes {lo hi : Nat} {i : Item} {s s' : State} {u : Unit} (hplaced : i.Placed w.constants w.table lo hi)
    (hchecked : i.Obeys (.checked w)) (hs : s.Consistent w) (hframe : s.table.frame = [rootBlock])
    (h : (item names i).run s = .ok (u, s')) :
    s'.table.frame = [rootBlock] ∧ (s'.journal.errorCount = 0 → s.Takes w [] s') := by
  cases i with
  | function f pos =>
    have hg := Grows.resolveOnce f.key _ _ _ hs.framed h
    rw [hg.table]
    refine ⟨hframe, fun hclean => ?_⟩
    rw [item] at h
    unfold resolveOnce at h
    obtain ⟨_, _, hget, hrun⟩ := run_bind_ok h
    cases hget
    split at hrun
    · rename_i known hpending
      obtain ⟨signature, hsignature⟩ := discard_ok hrun
      exact (resolve_captures hbodies _ known s signature s' hs hpending hsignature).2 hclean
    · cases hrun
      exact .refl s
  | assignment name value pos =>
    obtain ⟨m, _, hvalue, _⟩ := hplaced
    rw [item] at h
    obtain ⟨ty, mid, hexpr, hrest⟩ := run_bind_ok h
    have hall : Captures w none [rootBlock] (value.uses [rootBlock]) (expr names (resolve names) none value) fun _ =>
        True := Captures.expr (resolve_captures hbodies) value hvalue hchecked.2
    obtain ⟨hg, _, htakes⟩ := hall s ty mid hs hframe hexpr
    have hlast : s'.table.frame = mid.table.frame ∧ s'.typing = mid.typing ∧ s'.journal = mid.journal := by
      split at hrest
      · cases hrest
        exact ⟨SymbolTable.frame_setTypeIn _ _ _ _, rfl, rfl⟩
      · cases hrest
        exact ⟨rfl, rfl, rfl⟩
    obtain ⟨hframe', htyping, hjournal⟩ := hlast
    rw [hframe', hg.table]
    refine ⟨hframe, fun hclean => ?_⟩
    have hclean₁ : mid.journal.errorCount = 0 := by rw [← hjournal, hclean]
    exact (htakes hclean₁).trans (.of_same (by rw [htyping]) (by rw [htyping]))

/-- By induction on the items. -/
theorem items_take {lo hi : Nat} {is : List Item} {s s' : State} {u : Unit}
    (hplaced : Item.AllPlaced w.constants w.table lo hi is) (hchecked : Program.Obeys (.checked w) is)
    (hs : s.Consistent w) (hframe : s.table.frame = [rootBlock]) (hplain : s.typing.functions.Plain)
    (hawaits : s.Awaits is) (h : (items names is).run s = .ok (u, s')) (hclean : s'.journal.errorCount = 0) :
    s.Takes w [] s' := by
  induction is generalizing lo s with
  | nil =>
    cases h
    exact .refl _
  | cons i is ih =>
    obtain ⟨m, hitem, hitems⟩ := hplaced
    obtain ⟨hfirst, hrest⟩ := List.forall_mem_cons.1 hchecked
    rw [items] at h
    obtain ⟨⟨⟩, mid, hrun, hrun'⟩ := run_bind_ok h
    obtain ⟨hevolves, hawaits₁⟩ := item_evolves hs.framed hplain hawaits hrun
    have hplain₁ := hevolves.functions.plain hplain
    have hs₁ := hs.evolve hevolves
    have hclean₁ : mid.journal.errorCount = 0 :=
      Nat.le_zero.1 (hclean ▸ (items_evolve hs₁.framed hplain₁ hawaits₁ hrun').errors)
    obtain ⟨hframe₁, htakes⟩ := item_takes hbodies hitem hfirst hs hframe hrun
    exact (htakes hclean₁).trans (ih hitems hrest hs₁ hframe₁ hplain₁ hawaits₁ hrun')

end Bodies
end ToneScript.Check
