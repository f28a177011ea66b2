import ToneScript.Proofs.Folding.Parsed
import ToneScript.Proofs.Run.Scene

/-! The run of a program in which names of constants have been replaced by their values. Where such a name is used, the
outermost frame is the first to have a value for it, and this is the constant; so evaluation gives the same values and
the same errors, and frames that differ in what is replaced in their functions. -/
namespace ToneScript

section Frames

variable (values : Valuation)

/-- A function with variables replaced in its body, if it has one. -/
def Callable.fold : Callable → Callable
  | .intrinsic i params => .intrinsic i params
  | .defined f => .defined (f.fold values)

/-- A frame with variables replaced in its functions. -/
def Frame.fold (frame : Frame) : Frame :=
  { frame with functions := frame.functions.map fun entry => (entry.1, entry.2.fold values) }

/-- Frames with variables replaced in their functions. -/
def Chain.fold (chain : Chain) : Chain :=
  chain.map (Frame.fold values)

@[simp] theorem FunctionDef.name_fold (f : FunctionDef) : (f.fold values).name = f.name := by
  cases f
  rfl

@[simp] theorem Callable.params_fold (callable : Callable) : (callable.fold values).params = callable.params := by
  rcases callable with ⟨i, params⟩ | ⟨⟨name, pos, params, argsKey, around, body⟩⟩ <;> rfl

theorem Frame.lookup_fold (frame : Frame) (name : Ident) :
    (frame.fold values).functions.lookup name = (frame.functions.lookup name).map (Callable.fold values) := by
  obtain ⟨_, functions⟩ := frame
  show (functions.map fun entry => (entry.1, entry.2.fold values)).lookup name = _
  induction functions with
  | nil => rfl
  | cons entry functions ih =>
    rw [List.map_cons, List.lookup_cons, List.lookup_cons]
    split
    · rfl
    · exact ih

namespace Chain

variable (chain : Chain)

@[simp] theorem lookup_fold (name : Ident) : (chain.fold values).lookup name = chain.lookup name := by
  induction chain with
  | nil => rfl
  | cons frame chain ih => exact congrArg (Option.or (frame.values.lookup name)) ih

@[simp] theorem findFunction?_fold (name : Ident) : (chain.fold values).findFunction? name =
    (chain.findFunction? name).map (Prod.map (Callable.fold values) (Chain.fold values)) := by
  induction chain with
  | nil => rfl
  | cons frame chain ih =>
    rw [fold, List.map_cons, findFunction?, findFunction?, Frame.lookup_fold]
    cases frame.functions.lookup name with
    | none => exact ih
    | some callable => rfl

end Chain

end Frames

namespace Chain

section Binds

variable (constants : List (Ident × Value)) (t : SymbolTable)

/-- Whether the functions that a frame defines stand in given blocks, once the names of constants are replaced in
them. -/
def Houses (scope : List BlockKey) (frame : Frame) : Prop :=
  ∀ name f, frame.functions.lookup name = some (.defined f) →
    ∃ lo hi, (f.fold (t.constantAt? constants)).Placed constants t scope lo hi

/-- A chain of frames for a chain of blocks, both with the innermost first. The outermost frame gives constants their
values, and an inner one has values for nothing but what its block declares from its beginning on. -/
inductive Binds : List BlockKey → Chain → Prop
  | outermost {frame : Frame}
      (constant : ∀ name d, t.find? rootBlock name = some d → d.builtin = true →
        frame.values.lookup name = constants.lookup name)
      (houses : Houses constants t [rootBlock] frame) : Binds [rootBlock] [frame]
  | inner {key : BlockKey} {scope : List BlockKey} {frame : Frame} {chain : Chain} (opens : t.Opens key 0 0)
      (declared : ∀ name v, frame.values.lookup name = some v →
        ∃ d, t.find? key name = some d ∧ d.visibleFrom = key)
      (houses : Houses constants t (key :: scope) frame) (outer : Binds scope chain) :
      Binds (key :: scope) (frame :: chain)

end Binds

variable {constants : List (Ident × Value)} {t : SymbolTable} {scope : List BlockKey} {frame : Frame} {chain : Chain}

theorem Binds.houses (h : Binds constants t scope (frame :: chain)) : Houses constants t scope frame := by
  cases h with
  | outermost _ houses => exact houses
  | inner _ _ houses _ => exact houses

/-- Where a name stands for a constant, the first frame that has a value for it has that constant. -/
theorem Binds.lookup (h : Binds constants t scope chain) {name : Ident} {pos : Position} {v : Value}
    (hv : t.constantAt? constants scope name pos = some v) : chain.lookup name = some v := by
  obtain ⟨hinside, d, crossed, hresolve, hbuiltin, hv⟩ := SymbolTable.constantAt?_eq_some.1 hv
  clear * - h hinside hresolve hbuiltin hv
  induction h generalizing crossed with
  | @outermost frame constant _ =>
    obtain ⟨key, hkey, hfind, _⟩ := SymbolTable.resolve_some hresolve
    obtain rfl : key = rootBlock := by simpa using List.mem_of_getElem? hkey
    rw [Chain.lookup, constant name d hfind hbuiltin, hv]
    rfl
  | @inner key scope frame chain opens declared _ outer ih =>
    have hhidden (d' : Declaration) (hd' : t.find? key name = some d') : d'.visibleAt pos.index = false := by
      by_contra hvisible
      rw [SymbolTable.resolve_cons_visible hd' (by simpa using hvisible)] at hresolve
      cases hresolve
      have hsource := (opens.2.2 name d hd').1
      rw [hbuiltin] at hsource
      cases hsource
    -- A parameter of the name would be visible throughout the block.
    have hunbound : frame.values.lookup name = none := by
      rw [Option.eq_none_iff_forall_ne_some]
      intro v' hv'
      obtain ⟨d', hd', hfrom⟩ := declared name v' hv'
      have hopened := (hinside key List.mem_cons_self).resolve_left opens.2.1
      simpa [Declaration.visibleAt, hfrom, hopened] using hhidden d' hd'
    rw [SymbolTable.resolve_cons_hidden hhidden] at hresolve
    obtain ⟨⟨d', crossed'⟩, hresolve', heq⟩ := Option.map_eq_some_iff.1 hresolve
    cases heq
    rw [Chain.lookup, hunbound, Option.none_or]
    exact ih (fun key' hkey' => hinside key' (List.mem_cons_of_mem _ hkey')) crossed' hresolve'

/-- A function is found in a frame of a block of its own. -/
theorem Binds.findFunction? (h : Binds constants t scope chain) {name : Ident} {callable : Callable} {home : Chain}
    (hfind : chain.findFunction? name = some (callable, home)) :
    ∃ around, Binds constants t around home ∧ ∀ f, callable = .defined f →
      ∃ lo hi, (f.fold (t.constantAt? constants)).Placed constants t around lo hi := by
  induction h with
  | @outermost frame constant houses =>
    rw [Chain.findFunction?] at hfind
    cases hlookup : frame.functions.lookup name with
    | none =>
      rw [hlookup] at hfind
      cases hfind
    | some found =>
      rw [hlookup] at hfind
      cases hfind
      exact ⟨_, .outermost constant houses, fun f heq => houses name f (heq ▸ hlookup)⟩
  | @inner key scope frame chain opens declared houses outer ih =>
    rw [Chain.findFunction?] at hfind
    cases hlookup : frame.functions.lookup name with
    | none =>
      rw [hlookup] at hfind
      exact ih hfind
    | some found =>
      rw [hlookup] at hfind
      cases hfind
      exact ⟨_, .inner opens declared houses outer, fun f heq => houses name f (heq ▸ hlookup)⟩

/-- A function of the innermost block is defined. -/
theorem Binds.setFunction (h : Binds constants t scope (frame :: chain)) {f : FunctionDef} {lo hi : Nat}
    (hplaced : (f.fold (t.constantAt? constants)).Placed constants t scope lo hi) (name : Ident) :
    Binds constants t scope (frame.setFunction name (.defined f) :: chain) := by
  have hhouses : Houses constants t scope (frame.setFunction name (.defined f)) := by
    intro other g hg
    rw [Frame.lookup_setFunction] at hg
    split at hg
    · cases hg
      exact ⟨lo, hi, hplaced⟩
    · exact h.houses other g hg
  cases h with
  | outermost constant _ => exact .outermost constant hhouses
  | inner opens declared _ outer => exact .inner opens declared hhouses outer

/-- A name is assigned that is none of the built-in ones. -/
theorem Binds.setVariable (h : Binds constants t [rootBlock] [frame]) {name : Ident}
    (hsource : ∀ d, t.find? rootBlock name = some d → d.builtin = false) (v : Value) :
    Binds constants t [rootBlock] [frame.setVariable name v] := by
  cases h with
  | outermost constant houses =>
    refine .outermost (fun other d hd hbuiltin => ?_) houses
    rw [Frame.lookup_setVariable, if_neg]
    · exact constant other d hd hbuiltin
    · rintro rfl
      rw [hsource d hd] at hbuiltin
      cases hbuiltin
  | inner opens _ _ _ => exact absurd rfl opens.2.1

/-- A block is entered, with nothing in its frame yet. -/
theorem Binds.enter (h : Binds constants t scope chain) {key : BlockKey} {lo first : Nat}
    (hopens : t.Opens key lo first) : Binds constants t (key :: scope) ({} :: chain) :=
  .inner ⟨Nat.zero_le _, hopens.2.1, fun name d hd => ⟨(hopens.2.2 name d hd).1, Nat.zero_le _⟩⟩ nofun nofun h

/-- A function is entered, with its arguments in its frame. -/
theorem Binds.activate (h : Binds constants t scope chain) {f : FunctionDef} {lo hi : Nat}
    (hplaced : (f.fold (t.constantAt? constants)).Placed constants t scope lo hi) (args : List Value) :
    Binds constants t (f.argsKey :: scope) (.ofArguments (Callable.defined f).params args :: chain) := by
  rw [FunctionDef.fold_eq] at hplaced
  obtain ⟨hopens, _, _, _, hparams, _⟩ := FunctionDef.placed_iff.1 hplaced
  refine .inner ⟨Nat.zero_le _, hopens.2.1, fun name d hd => ⟨(hopens.2.2 name d hd).1, Nat.zero_le _⟩⟩ ?_ nofun h
  intro name v hv
  obtain ⟨hname, _⟩ := List.of_mem_zip (mem_of_lookup hv)
  obtain ⟨p, hp, rfl⟩ : ∃ p ∈ f.params, p.name = name := by simpa [Callable.params] using hname
  exact ⟨_, hparams p hp, rfl⟩

end Chain

namespace Activation

variable {constants : List (Ident × Value)} {t : SymbolTable} {c : Context}

/-- Whether functions are invoked alike with the names of constants replaced in them, where the frames that they belong
to bind these. -/
def Context.Folds (c : Context) (constants : List (Ident × Value)) (t : SymbolTable) : Prop :=
  ∀ callable scope home args pos, Chain.Binds constants t scope home →
    (∀ f, callable = .defined f → ∃ lo hi, (f.fold (t.constantAt? constants)).Placed constants t scope lo hi) →
    c.invoke (callable.fold (t.constantAt? constants)) (home.fold (t.constantAt? constants)) args pos =
      c.invoke callable home args pos

theorem placeOf_fold (values : Ident → Position → Option Value) (callee : Ident) (style : CallStyle)
    (params : List (Ident × Option Number)) (slots : List (Option Value)) (i : Nat) (arg : SiteArgument) :
    placeOf c callee style params slots i (arg.fold values) = placeOf c callee style params slots i arg := by
  unfold placeOf
  rw [SiteArgument.name?_fold, SiteArgument.pos_fold]

theorem argumentValue_fold (values : Ident → Position → Option Value) (default? : Option Number) (arg : SiteArgument)
    (v : Value) : argumentValue c default? (arg.fold values) v = argumentValue c default? arg v := by
  cases arg <;> rfl

section Arithmetic

variable {scope : List BlockKey} {chain : Chain}

mutual

theorem cells_fold (hc : c.Folds constants t) (hchain : Chain.Binds constants t scope chain) (stack : List Value)
    (sequence : List Cell) : cells c (chain.fold (t.constantAt? constants)) stack
      (Cell.foldAll (t.constantAt? constants scope) sequence) = cells c chain stack sequence := by
  cases sequence with
  | nil => rw [Cell.foldAll, cells, cells]
  | cons cell rest =>
    have hrest (stack : List Value) := cells_fold hc hchain stack rest
    cases cell with
    | value v pos =>
      rw [Cell.foldAll, Cell.fold, cells, cells]
      exact hrest (v :: stack)
    | slot id pos =>
      rw [Cell.foldAll, Cell.fold]
      cases hv : t.constantAt? constants scope id pos with
      | some v =>
        dsimp only
        rw [cells, cells, Postfix.readSlot, hchain.lookup hv]
        exact hrest (v :: stack)
      | none =>
        dsimp only
        rw [cells, cells, Postfix.readSlot, Postfix.readSlot, Chain.lookup_fold]
        cases chain.lookup id with
        | some v => exact hrest (v :: stack)
        | none => rfl
    | call site =>
      rw [Cell.foldAll, Cell.fold, cells, cells, call_fold hc hchain site]
      cases call c chain site with
      | ok v => exact hrest (v :: stack)
      | error e => rfl
    | operator op pos =>
      rw [Cell.foldAll, Cell.fold, cells, cells]
      cases Postfix.applyOperator op pos stack with
      | ok stack' => exact hrest stack'
      | error e => rfl
    | left pos | right pos => rw [Cell.foldAll, Cell.fold, cells, cells]

theorem compiled_fold (hc : c.Folds constants t) (hchain : Chain.Binds constants t scope chain) (e : Compiled) :
    compiled c (chain.fold (t.constantAt? constants)) (e.fold (t.constantAt? constants scope)) =
      compiled c chain e := by
  obtain ⟨sequence, pos⟩ := e
  rw [Compiled.fold, compiled, compiled, cells_fold hc hchain [] sequence]

theorem call_fold (hc : c.Folds constants t) (hchain : Chain.Binds constants t scope chain) (site : CallSite) :
    call c (chain.fold (t.constantAt? constants)) (site.fold (t.constantAt? constants scope)) = call c chain site := by
  obtain ⟨callee, style, args, pos⟩ := site
  rw [CallSite.fold, call, call, Chain.findFunction?_fold]
  cases hfind : chain.findFunction? callee with
  | none => rfl
  | some found =>
    obtain ⟨callable, home⟩ := found
    obtain ⟨around, hhome, hplaced⟩ := hchain.findFunction? hfind
    have hargs (params : List (Ident × Option Number)) (slots : List (Option Value)) :=
      arguments_fold hc hchain callee style params slots 0 args
    have hinvoke (values : List Value) := hc callable around home values pos hhome hplaced
    simp only [Option.map_some, Prod.map_apply, Callable.params_fold, SiteArgument.foldAll_eq_map,
      List.length_map] at hargs ⊢
    simp only [hargs, hinvoke]

theorem arguments_fold (hc : c.Folds constants t) (hchain : Chain.Binds constants t scope chain) (callee : Ident)
    (style : CallStyle) (params : List (Ident × Option Number)) (slots : List (Option Value)) (i : Nat)
    (args : List SiteArgument) : arguments c (chain.fold (t.constantAt? constants)) callee style params slots i
      (SiteArgument.foldAll (t.constantAt? constants scope) args) =
        arguments c chain callee style params slots i args := by
  cases args with
  | nil => rw [SiteArgument.foldAll, arguments, arguments]
  | cons arg args =>
    rw [SiteArgument.foldAll, arguments, arguments, argument_fold hc hchain arg, placeOf_fold]
    cases placeOf c callee style params slots i arg with
    | error e => rfl
    | ok place =>
      cases argument c chain arg with
      | error e => rfl
      | ok v =>
        simp only [argumentValue_fold, arguments_fold hc hchain callee style params _ (i + 1) args]

theorem argument_fold (hc : c.Folds constants t) (hchain : Chain.Binds constants t scope chain) (arg : SiteArgument) :
    argument c (chain.fold (t.constantAt? constants)) (arg.fold (t.constantAt? constants scope)) =
      argument c chain arg := by
  cases arg with
  | shorthand name value pos | assign name value pos | opAssign name op value pos | positional value pos =>
    rw [SiteArgument.fold, argument, argument, compiled_fold hc hchain value]

end

end Arithmetic

mutual

/-- An expression has the value that it has with the names of constants replaced. -/
theorem expr_fold (hc : c.Folds constants t) {scope : List BlockKey} {chain : Chain}
    (hchain : Chain.Binds constants t scope chain) (e : Expr) {lo hi : Nat}
    (hplaced : (e.fold (t.constantAt? constants) scope).Placed constants t scope lo hi) :
    expr c (chain.fold (t.constantAt? constants)) (e.fold (t.constantAt? constants) scope) = expr c chain e := by
  cases e with
  | span sequence tree =>
    rw [Expr.fold, expr, expr]
    exact compiled_fold hc hchain sequence
  | conditional condition e₁ e₂ pos =>
    obtain ⟨m, n, hcondition, h₁, h₂⟩ := hplaced
    rw [Expr.fold, expr, expr, expr_fold hc hchain condition hcondition, expr_fold hc hchain e₁ h₁,
      expr_fold hc hchain e₂ h₂]
  | block key items pos =>
    obtain ⟨hopens, hitems⟩ := hplaced
    have hinner := hchain.enter hopens
    rw [Expr.fold, expr, expr]
    exact congrArg (· >>= _) (entries_fold hc hinner (.number 0) items hitems)
  | var name pos =>
    rw [Expr.fold] at hplaced
    cases hv : t.constantAt? constants scope name pos with
    | some v =>
      rw [hv] at hplaced
      cases v <;> cases hplaced
    | none =>
      rw [hv] at hplaced
      cases hplaced
  | number | boolean | prefixed | binary | call => cases hplaced

theorem entries_fold (hc : c.Folds constants t) {key : BlockKey} {scope : List BlockKey} {inner : Frame} {chain : Chain}
    (hchain : Chain.Binds constants t (key :: scope) (inner :: chain)) (result : Value) (items : List BlockEntry)
    {lo hi : Nat} (hplaced : BlockEntry.AllPlaced constants t (key :: scope) lo hi
      (BlockEntry.foldAll (t.constantAt? constants) (key :: scope) items)) :
    entries c (inner.fold (t.constantAt? constants)) (chain.fold (t.constantAt? constants)) result
      (BlockEntry.foldAll (t.constantAt? constants) (key :: scope) items) = entries c inner chain result items := by
  cases items with
  | nil => rw [BlockEntry.foldAll, entries, entries]
  | cons item items =>
    obtain ⟨m, hitem, hitems⟩ := hplaced
    cases item with
    | closure f pos =>
      rw [BlockEntry.foldAll, BlockEntry.fold, entries, entries, FunctionDef.name_fold]
      exact entries_fold hc (hchain.setFunction hitem f.name) result items hitems
    | operator op value guard pos =>
      obtain ⟨_, n, hvalue, hguard⟩ := hitem
      have hvalue' := expr_fold hc hchain value hvalue
      have hrest (result : Value) := entries_fold hc hchain result items hitems
      cases guard with
      | none =>
        rw [BlockEntry.foldAll, BlockEntry.fold, Expr.foldOption, entries, entries]
        simp only [← hvalue', ← hrest]
        rfl
      | some guard =>
        have hguard' := expr_fold hc hchain guard hguard
        rw [BlockEntry.foldAll, BlockEntry.fold, Expr.foldOption, entries, entries]
        simp only [← hvalue', ← hguard', ← hrest]
        rfl

end

/-- By induction on how deep calls may nest. -/
theorem context_folds (names : NameTable) (depth : Nat) : (context names depth).Folds constants t := by
  induction depth with
  | zero => exact fun _ _ _ _ _ _ _ => rfl
  | succ depth ih =>
    intro callable scope home args pos hhome hplaced
    cases callable with
    | intrinsic i params => rfl
    | defined f =>
      obtain ⟨lo, hi, hf⟩ := hplaced f rfl
      have hactive := hhome.activate hf args
      rw [FunctionDef.fold_eq] at hf
      obtain ⟨_, hscope, _, _, _, _, hbody⟩ := FunctionDef.placed_iff.1 hf
      have hinside : f.inside = f.argsKey :: scope := by
        rw [FunctionDef.inside, FunctionDef.bodyScope, List.reverse_append, hscope, List.reverse_reverse]
        rfl
      dsimp only at hbody
      rw [hinside] at hbody
      have hexpr := expr_fold ih hactive f.body hbody
      show expr (context names depth) (.ofArguments (Callable.fold _ (.defined f)).params args :: home.fold _)
        (f.fold (t.constantAt? constants)).body = expr (context names depth) _ f.body
      rw [← hexpr, Callable.params_fold, FunctionDef.fold_eq, hinside]
      rfl

end Activation

namespace Compilation

variable {constants : List (Ident × Value)} {t : SymbolTable}

/-- The outermost level is evaluated alike, to frames that differ in what is replaced in their functions. -/
theorem evaluateItems_fold (names : NameTable) (depth : Nat) (items : List Item) {globals : Frame}
    (hglobals : Chain.Binds constants t [rootBlock] [globals]) {lo hi : Nat}
    (hplaced : Item.AllPlaced constants t lo hi (Program.fold (t.constantAt? constants) items)) :
    evaluateItems names depth (globals.fold (t.constantAt? constants)) (Program.fold (t.constantAt? constants) items) =
        ((evaluateItems names depth globals items).1.map (Frame.fold (t.constantAt? constants)),
          (evaluateItems names depth globals items).2) ∧
      ∀ globals', (evaluateItems names depth globals items).1 = .ok globals' →
        Chain.Binds constants t [rootBlock] [globals'] := by
  induction items generalizing globals lo with
  | nil => exact ⟨rfl, fun _ heq => Except.ok.inj heq ▸ hglobals⟩
  | cons item items ih =>
    obtain ⟨m, hitem, hitems⟩ := hplaced
    cases item with
    | function f pos =>
      rw [Program.fold, List.map_cons, Item.fold, evaluateItems, evaluateItems, FunctionDef.name_fold]
      exact ih (hglobals.setFunction hitem f.name) hitems
    | assignment name value pos =>
      obtain ⟨n, d, hvalue, hfind, hsource, _⟩ := hitem
      rw [Program.fold, List.map_cons, Item.fold, evaluateItems, evaluateItems]
      have hexpr : Activation.expr (Activation.context names depth) [globals.fold (t.constantAt? constants)]
          (value.fold (t.constantAt? constants) [rootBlock]) =
          Activation.expr (Activation.context names depth) [globals] value :=
        Activation.expr_fold (Activation.context_folds names depth) hglobals value hvalue
      rw [hexpr]
      cases Activation.expr (Activation.context names depth) [globals] value with
      | error e => exact ⟨rfl, fun _ heq => by cases heq⟩
      | ok v =>
        have hset := hglobals.setVariable (fun d' hd' => Option.some.inj (hfind.symm.trans hd') ▸ hsource) v
        obtain ⟨hrest, hbinds⟩ := ih hset hitems
        exact ⟨congrArg (fun r => (r.1, _ :: r.2)) hrest, hbinds⟩

end Compilation

end ToneScript
