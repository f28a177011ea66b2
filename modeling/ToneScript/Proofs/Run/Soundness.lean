import ToneScript.Proofs.Run.Binding
import ToneScript.Proofs.Run.Contract
import ToneScript.Proofs.Run.Scene

/-! Runs of accepted programs. Whatever happens in a run happens in frames that stand for the blocks around it.
If in addition every call finds the function that the check had found for it, no run fails but by calls that
nest too deep; and if recursive calls have the types that are asked for where they stand, all values have the
types that the check found. -/
namespace ToneScript

/-- Whether a call finds the function that the table finds for it. -/
def Elaboration.Agrees (w : Elaboration) (scene : Scene) (site : CallSite) : Prop :=
  ∃ d crossed callable, w.table.resolve scene.scope site.callee site.pos = some (d, crossed) ∧
    scene.chain.findFunction? site.callee = some (callable, scene.chain.drop crossed)

instance (w : Elaboration) (scene : Scene) (site : CallSite) : Decidable (w.Agrees scene site) :=
  decidable_of_iff (((w.table.resolve scene.scope site.callee site.pos).any fun (_, crossed) =>
      (scene.chain.findFunction? site.callee).any fun (_, home) =>
        decide (home.length + crossed = scene.chain.length)) = true) <| by
    simp only [Option.any_eq_true, decide_eq_true_eq, Prod.exists]
    constructor
    · rintro ⟨d, crossed, hresolve, callable, home, hfound, hlength⟩
      obtain ⟨n, _, _, hn, rfl, _⟩ := Chain.findFunction?_eq_some hfound
      rw [List.length_drop] at hlength
      obtain rfl : n = crossed := by omega
      exact ⟨d, n, callable, hresolve, hfound⟩
    · rintro ⟨d, crossed, callable, hresolve, hfound⟩
      obtain ⟨n, _, _, hn, hhome, hcons, _⟩ := Chain.findFunction?_eq_some hfound
      have hlength := congrArg List.length (hhome.symm.trans hcons)
      have hlength' := congrArg List.length hcons
      rw [List.length_drop, List.length_cons] at hlength hlength'
      refine ⟨d, crossed, hresolve, callable, _, hfound, ?_⟩
      rw [List.length_drop]
      omega

/-- Whether an event, if it is a call, finds the function that the table finds for it. -/
def Event.Agrees (w : Elaboration) : Event → Prop
  | .called scene site => w.Agrees scene site
  | .read .. | .bound .. | .completed .. | .tested .. | .assigned .. => True

instance (w : Elaboration) (e : Event) : Decidable (e.Agrees w) :=
  match e with
  | .called scene site => inferInstanceAs (Decidable (w.Agrees scene site))
  | .read .. | .bound .. | .completed .. | .tested .. | .assigned .. => .isTrue trivial

/-- What is known of the events of a run. -/
def Event.Proper (w : Elaboration) (typed : Prop) (occurs : Event → Prop) : Event → Prop
  | .read scene name pos value? => ∃ lo hi d crossed, scene.Fit w typed occurs lo hi ∧ pos.Between lo hi ∧
      w.table.resolve scene.scope name pos = some (d, crossed) ∧ d.isFunction = false ∧
      value? = scene.chain.lookup name
  | .called scene site => ∃ lo hi d crossed, scene.Fit w typed occurs lo hi ∧ site.pos.Between lo hi ∧
      w.table.resolve scene.scope site.callee site.pos = some (d, crossed) ∧ d.isFunction = true
  | .bound _ args => typed → ∀ v ∈ args, v.ty = .number
  | .completed f v => typed → ∃ signature,
      w.functions.lookup f.key = some ⟨some f, .resolved signature⟩ ∧ v.ty = signature.type.returns
  | .tested v => typed → v.ty = .boolean
  | .assigned name v => typed → ∃ d, w.table.find? rootBlock name = some d ∧ d.ty? = some v.ty

/-- The contract of runs with the events that occur. Where it is certain that calls find the functions that the
table finds for them, only calls that nest too deep can fail. -/
def Elaboration.contract (w : Elaboration) (certain typed : Prop) (occurs : Event → Prop) : Contract where
  assumes e := occurs e ∧ (certain → e.Agrees w)
  ensures := Event.Proper w typed occurs
  fails e := certain → e.cause = .depthExceeded

/-- An expression that obeys all rules, in a chain of blocks and between two offsets. -/
structure Expr.Admitted (w : Elaboration) (typed : Prop) (scope : List BlockKey) (lo hi : Nat)
    (e : Expr) : Prop where
  named : e.Obeys (.named w.constants w.table lo hi) scope
  checked : e.Obeys (.checked w) scope
  settled : typed → e.Obeys (.settled w) scope

theorem Expr.Admitted.of_toTrees {w : Elaboration} {typed : Prop} {scope : List BlockKey} {lo hi : Nat}
    {tree : Expr} (h : tree.Admitted w typed scope lo hi) {stack : List Expr} {cells : List Cell}
    (htrees : Cell.toTrees stack cells = .ok [tree]) : ∀ e ∈ stack, e.Admitted w typed scope lo hi := by
  have hpart {R : Rule} (hR : tree.Obeys R scope) : ∀ e ∈ stack, e.Obeys R scope :=
    Cell.obeys_of_toTrees htrees (by simpa using hR)
  exact fun e he => ⟨hpart h.named e he, hpart h.checked e he, fun ht => hpart (h.settled ht) e he⟩

/-- An argument whose value obeys all rules. -/
def SiteArgument.Admitted (w : Elaboration) (typed : Prop) (scope : List BlockKey) (lo hi : Nat)
    (arg : SiteArgument) : Prop :=
  (∃ tree, Cell.toTrees [] arg.value.cells = .ok [tree] ∧ tree.Admitted w typed scope lo hi ∧
    (typed → tree.ty w scope = .number)) ∧
  ∀ name op value pos, arg = .opAssign name op value pos → op.isArithmetic = true

namespace Elaboration

variable {w : Elaboration} {typed : Prop} {size : Nat} {entry : Ident × FunctionType}
  {scope : List BlockKey} {lo hi : Nat}

theorem admitted_ofValue (v : Value) (pos : Position) :
    (Expr.ofValue v pos).Admitted w typed scope lo hi :=
  ⟨Expr.obeys_ofValue v pos, Expr.obeys_ofValue v pos, fun _ => Expr.obeys_ofValue v pos⟩

theorem ty_ofValue (v : Value) (pos : Position) : (Expr.ofValue v pos).ty w scope = v.ty := by
  cases v <;> rfl

theorem Accepted.signature?_declares (hw : w.Accepted size entry) {d : Declaration} {key : BlockKey}
    {name : Ident} (hfind : w.table.find? key name = some d) {i : Intrinsic} {params : List Ident}
    (h : w.Declares d (.intrinsic i params)) :
    w.signature? d = some (.ofBuiltin (.ofNumbers params .number)) := by
  obtain ⟨hbuiltin, hmem⟩ := h
  have hproper := hw.laid.proper key name d hfind
  have hknown := hw.knows _ hmem
  rw [signature?, FunctionTable.signature?, hproper.block, hproper.builtin hbuiltin, hknown]

/-- The parameters of a function are those of the signature that its calls are checked against. -/
theorem Accepted.params_eq (hw : w.Accepted size entry) {d : Declaration} {key : BlockKey} {name : Ident}
    (hfind : w.table.find? key name = some d) {callable : Callable} (hdeclares : w.Declares d callable)
    (hobeys : ∀ f, callable = .defined f → ∃ scope, f.Obeys (.checked w) scope) {signature : Signature}
    (hsignature : w.signature? d = some signature) : callable.params = signature.parameters := by
  cases callable with
  | intrinsic i params =>
    rw [hw.signature?_declares hfind hdeclares] at hsignature
    cases hsignature
    simp only [Callable.params, Signature.parameters, Signature.ofBuiltin, FunctionType.ofNumbers,
      List.map_map]
    rw [List.zip_map']
    rfl
  | defined f =>
    obtain ⟨scope, hf⟩ := hobeys f rfl
    obtain ⟨⟨signature', hlookup, hparams, _⟩, _⟩ := FunctionDef.obeys_iff.1 hf
    cases hdeclares
    have hsame : w.signature? f.declaration = some signature' := by
      show w.functions.signature? f.key = _
      rw [FunctionTable.signature?, hlookup]
    cases hsignature.symm.trans hsame
    exact hparams.symm

/-- The arguments of an admitted call are admitted. -/
theorem Accepted.admitted_arguments (hw : w.Accepted size entry) {site : CallSite} {args : List Argument}
    (h : (Expr.call site args).Admitted w typed scope lo hi) :
    ∀ arg ∈ site.args, arg.Admitted w typed scope lo hi := by
  obtain ⟨⟨⟨_, hargs, _, hshort⟩, hnamed⟩, ⟨⟨_, hnumber, hshorthand, hop⟩, hchecked⟩, hsettled⟩ := h
  intro arg harg
  obtain ⟨tree, hmem, htree⟩ := exists_toArgument hargs harg
  obtain ⟨hmatches, hvalue⟩ := toArgument_ok htree
  have hwritten (e : Expr) (he : tree.value? = some e) :
      ∃ tree, Cell.toTrees [] arg.value.cells = .ok [tree] ∧ tree.Admitted w typed scope lo hi ∧
        (typed → tree.ty w scope = .number) := by
    obtain ⟨e', rfl, htrees⟩ := Compiled.toExpr_eq_ok (hvalue e he)
    have hpart {R : Rule} (hR : Argument.AllObey R scope args) : (Expr.span arg.value e').Obeys R scope :=
      (Argument.allObey_iff.1 hR tree hmem).value he
    refine ⟨e', htrees, ⟨hpart hnamed, hpart hchecked, fun ht => hpart (hsettled ht).2⟩, fun ht => ?_⟩
    show (Expr.span arg.value e').ty w scope = .number
    cases hprovisional : (Expr.span arg.value e').isProvisional w scope with
    | false => exact hnumber tree hmem _ he hprovisional
    | true => exact (hsettled ht).1 tree hmem _ he hprovisional
  cases arg with
  | shorthand name value pos =>
    cases tree with
    | shorthand name' pos' =>
      obtain ⟨rfl, rfl⟩ := hmatches
      obtain ⟨d, crossed, hresolve, hty⟩ := hshorthand name' pos' hmem
      obtain ⟨hpos, hcells | ⟨v, d', crossed', hcells, hresolve', hbuiltin, hconstant⟩⟩ := hshort name' value pos' harg
      · refine ⟨⟨.var name' pos', by rw [SiteArgument.value, hcells]; rfl, ⟨hpos, ?_, fun _ => trivial⟩, fun _ => ?_⟩,
          fun _ _ _ _ he => by cases he⟩
        · exact ⟨d, crossed, .number, hresolve, hty, .inl rfl⟩
        · rw [Expr.ty, hresolve]
          exact congrArg (Option.getD · Ty.indeterminate) hty
      · refine ⟨⟨.ofValue v pos', by rw [SiteArgument.value, hcells]; rfl, admitted_ofValue v pos', fun _ => ?_⟩,
          fun _ _ _ _ he => by cases he⟩
        cases hresolve.symm.trans hresolve'
        obtain ⟨key, _, hfind, _⟩ := SymbolTable.resolve_some hresolve
        obtain rfl := (hw.laid.proper key name' d hfind).builtin hbuiltin
        obtain ⟨d', hd', _, hty'⟩ := hw.native.constant name' v hconstant
        cases hfind.symm.trans hd'
        rw [ty_ofValue]
        exact Option.some.inj (hty'.symm.trans hty)
    | assign | opAssign | positional => cases hmatches
  | assign name value pos =>
    cases tree with
    | assign name' e pos' => exact ⟨hwritten e rfl, fun _ _ _ _ he => by cases he⟩
    | shorthand | opAssign | positional => cases hmatches
  | positional value pos =>
    cases tree with
    | positional e pos' => exact ⟨hwritten e rfl, fun _ _ _ _ he => by cases he⟩
    | shorthand | opAssign | assign => cases hmatches
  | opAssign name op value pos =>
    cases tree with
    | opAssign name' op' e pos' =>
      obtain ⟨rfl, rfl, rfl⟩ := hmatches
      refine ⟨hwritten e rfl, ?_⟩
      rintro _ _ _ _ ⟨⟩
      exact hop _ _ _ _ hmem
    | shorthand | assign | positional => cases hmatches

end Elaboration

/-- A tracer that looks variables up by name and whose functions meet the contract. -/
structure Tracer.Serves (t : Tracer) (w : Elaboration) (certain typed : Prop) (occurs : Event → Prop) : Prop where
  byName : t.read = .byName
  intrinsic : ∀ i params home args pos,
    (t.invoke (.intrinsic i params) home args pos).Meets (w.contract certain typed occurs) fun v => v.ty = .number
  defined : ∀ scope f home args pos, Chain.Sound w typed occurs scope home →
    Chain.Ready w.table (f.argsKey.toNat + 1) scope home → w.Stands typed scope f →
    args.length = f.params.length → (typed → ∀ v ∈ args, v.ty = .number) →
    (t.invoke (.defined f) home args pos).Meets (w.contract certain typed occurs) fun v => typed →
      ∃ signature, w.functions.lookup f.key = some ⟨some f, .resolved signature⟩ ∧
        v.ty = signature.type.returns

namespace Tracer

variable {w : Elaboration} {certain typed : Prop} {occurs : Event → Prop} {size : Nat} {entry : Ident × FunctionType} {t : Tracer}
  {lo hi : Nat} {scene : Scene}

section Sequence

set_option linter.unusedSectionVars false

variable (hw : w.Accepted size entry) (htyped : typed → certain) (ht : t.Serves w certain typed occurs)
  (hfit : scene.Fit w typed occurs lo hi)
include hw htyped ht hfit

/-- The values on a stack have the types of the trees that they belong to. -/
def StackTyped (w : Elaboration) (typed : Prop) (scope : List BlockKey) (stack : List Value)
    (trees : List Expr) : Prop :=
  List.Forall₂ (fun v (e : Expr) => typed → v.ty = e.ty w scope) stack trees

omit hw htyped ht hfit in
theorem applyOperator_typed {scope : List BlockKey} {op : Operator} {pos : Position} {stack : List Value}
    {trees trees' : List Expr} (h : (Cell.operator op pos).Pushes trees trees')
    (hstack : StackTyped w typed scope stack trees) :
    ∃ stack', Postfix.applyOperator op pos stack = .ok stack' ∧ StackTyped w typed scope stack' trees' := by
  unfold Postfix.applyOperator
  cases h with
  | prefixed hunary =>
    obtain ⟨v, stack, _, hrest, rfl⟩ := List.forall₂_cons_right_iff.1 hstack
    rw [if_pos hunary]
    exact ⟨_, rfl, .cons (fun _ => Value.ty_applyPrefix op v) hrest⟩
  | binary hbinary =>
    obtain ⟨r, _, _, hrest, rfl⟩ := List.forall₂_cons_right_iff.1 hstack
    obtain ⟨l, stack, _, hrest', rfl⟩ := List.forall₂_cons_right_iff.1 hrest
    rw [if_neg (ne_true_of_eq_false hbinary)]
    exact ⟨_, rfl, .cons (fun _ => Value.ty_applyBinary hbinary l r) hrest'⟩

omit hw htyped in
theorem readVariable_meets {name : Ident} {pos : Position} {e : EvalError}
    (hvar : (Expr.var name pos).Admitted w typed scene.scope lo hi) :
    (t.readVariable scene name pos e).Meets (w.contract certain typed occurs) fun v => typed →
      v.ty = (Expr.var name pos).ty w scene.scope := by
  obtain ⟨hpos, ⟨d, crossed, ty, hresolve, hty, hkind⟩, _⟩ := hvar
  have hvariable : d.isFunction = false := by
    rw [Declaration.isFunction, hty]
    rcases hkind with rfl | rfl <;> rfl
  obtain ⟨key, frame, v, _, hfind, _, hfits, hv, hlookup⟩ :=
    hfit.sound.lookup hfit.ready hfit.clear hpos hresolve hvariable
  rw [readVariable, ht.byName, Reader.byName, hlookup]
  refine Traced.meets_record_bind ⟨lo, hi, d, crossed, hfit, hpos, hresolve, hvariable, hlookup.symm⟩ fun _ =>
    Traced.meets_pure fun htyped => ?_
  obtain ⟨d', hd', _, hd'ty⟩ := hfits.value name v hv
  cases hfind.symm.trans hd'
  rw [Expr.ty, hresolve]
  exact (congrArg (Option.getD · Ty.indeterminate) (hd'ty htyped)).symm

omit hw htyped ht hfit in
/-- Where the arguments of a call and the defaults leave no parameter out, all parameters get their values. -/
theorem fillDefaults_meets (callee : Ident) (pos : Position) {params : List (Ident × Option Number)}
    {slots : List (Option Value)} (hlength : slots.length = params.length)
    (hfilled : certain → filled params (slots.map Option.isSome) = true)
    (hnumber : typed → ∀ v, some v ∈ slots → v.ty = .number) :
    (Traced.ofResult (Activation.fillDefaults t.context callee pos params slots)).Meets
      (w.contract certain typed occurs) fun values => values.length = params.length ∧
        (typed → ∀ v ∈ values, v.ty = .number) := by
  refine Traced.meets_ofResult (fun values hok => ?_) fun e herror hc => ?_
  · obtain ⟨hcount, hall⟩ := Activation.fillDefaults_spec hok hlength
    exact ⟨hcount, fun htyped => hall (hnumber htyped)⟩
  · obtain ⟨values, hok⟩ := (Activation.fillDefaults_ok_iff t.context callee pos).2 (hfilled hc)
    cases herror.symm.trans hok

mutual

/-- A sequence is evaluated to a value of the type of its tree. -/
theorem cells_meets (stack : List Value) (sequence : List Cell) {trees : List Expr} {tree : Expr}
    (htrees : Cell.toTrees trees sequence = .ok [tree]) (hstack : StackTyped w typed scene.scope stack trees)
    (htree : tree.Admitted w typed scene.scope lo hi) :
    (t.cells scene stack sequence).Meets (w.contract certain typed occurs) fun v => typed →
      v.ty = tree.ty w scene.scope := by
  cases sequence with
  | nil =>
    rw [Cell.toTrees] at htrees
    cases htrees
    obtain ⟨v, stack, hv, hrest, rfl⟩ := List.forall₂_cons_right_iff.1 hstack
    cases hrest
    rw [cells]
    exact Traced.meets_pure hv
  | cons cell rest =>
    obtain ⟨trees', hfirst, hrest⟩ := Cell.toTrees_cons_iff.1 htrees
    cases cell with
    | value v pos =>
      cases hfirst
      rw [cells]
      exact cells_meets _ rest hrest (.cons (fun _ => (Elaboration.ty_ofValue v pos).symm) hstack) htree
    | slot name pos =>
      cases hfirst
      rw [cells]
      have hvar := htree.of_toTrees hrest _ List.mem_cons_self
      refine (readVariable_meets ht hfit hvar).bind fun v hv => ?_
      exact cells_meets _ rest hrest (.cons hv hstack) htree
    | call site =>
      cases hfirst
      rw [cells]
      have hcall := htree.of_toTrees hrest _ List.mem_cons_self
      refine (call_meets site hcall).bind fun v hv => ?_
      exact cells_meets _ rest hrest (.cons hv hstack) htree
    | operator op pos =>
      obtain ⟨stack', hop, hstack'⟩ := applyOperator_typed hfirst hstack
      rw [cells, hop]
      have hnext : (Traced.ofResult (.ok stack')).Meets (w.contract certain typed occurs) fun stack =>
          StackTyped w typed scene.scope stack trees' := Traced.meets_pure hstack'
      exact hnext.bind fun stack hstack => cells_meets stack rest hrest hstack htree
    | left pos | right pos => cases hfirst

theorem compiled_meets (e : Compiled) {tree : Expr} (htrees : Cell.toTrees [] e.cells = .ok [tree])
    (htree : tree.Admitted w typed scene.scope lo hi) :
    (t.compiled scene e).Meets (w.contract certain typed occurs) fun v => typed →
      v.ty = tree.ty w scene.scope := by
  obtain ⟨sequence, pos⟩ := e
  rw [compiled]
  exact (cells_meets [] sequence htrees .nil htree).mapError fun _ he => he

/-- A call returns a value of the type that its function returns. -/
theorem call_meets (site : CallSite) {args : List Argument}
    (hcall : (Expr.call site args).Admitted w typed scene.scope lo hi) :
    (t.call scene site).Meets (w.contract certain typed occurs) fun v => typed →
      v.ty = (Expr.call site args).ty w scene.scope := by
  have hadmitted := hw.admitted_arguments hcall
  obtain ⟨⟨⟨hpos, _⟩, _⟩, ⟨⟨⟨d, crossed, signature, hresolve, hfunction, hsignature, hfits⟩, _⟩, _⟩, _⟩ := hcall
  obtain ⟨n, key, callable, d', hle, hlt, hkey, hfound, hfind, _, hdeclares, hsame, _⟩ :=
    hfit.sound.findFunction? hfit.ready hfit.clear hpos hresolve hfunction
  have hreturns : (Expr.call site args).ty w scene.scope = signature.type.returns := by
    rw [Expr.ty, Elaboration.returns, Elaboration.callee?, hresolve]
    exact congrArg (Option.elim · Ty.indeterminate (·.type.returns)) hsignature
  have hhome (f : FunctionDef) (hf : callable = .defined f) := hfit.sound.home hlt (hf ▸ hfound)
  obtain ⟨callee, style, sites, pos⟩ := site
  rw [call]
  refine Traced.meets_record_bind ⟨lo, hi, d, crossed, hfit, hpos, hresolve, hfunction⟩ fun hagrees => ?_
  -- Where calls are certain to find their functions, the one that is found is the one that was checked.
  have hd (hc : certain) : d' = d := by
    obtain ⟨d₁, crossed₁, callable₁, hresolve₁, hfound₁⟩ := hagrees.2 hc
    cases hresolve.symm.trans hresolve₁
    refine hsame (hfit.sound.level_inj hlt ?_ (Prod.mk.inj (Option.some.inj (hfound.symm.trans hfound₁))).2)
    obtain ⟨key, hkey, _⟩ := SymbolTable.resolve_some hresolve
    exact (List.getElem?_eq_some_iff.1 hkey).1
  have hparams (hc : certain) : callable.params = signature.parameters := by
    refine hw.params_eq hfind hdeclares (fun f hf => ⟨_, (hhome f hf).2.1.checked⟩) ?_
    rw [hd hc]
    exact hsignature
  have hbind (hc : certain) : (style = .ordered → sites.length ≤ callable.params.length) ∧
      ∃ bound, SiteArgument.bindAll? callable.params style (callable.params.map fun _ => false) 0 sites =
        some bound ∧ filled callable.params bound = true := by
    rw [← hparams hc, CallSite.fits, Bool.and_eq_true, decide_eq_true_eq, Option.any_eq_true] at hfits
    exact hfits
  simp only [hfound]
  split
  · rename_i hmany
    refine Traced.meets_ofResult nofun fun e _ hc => ?_
    exact absurd ((hbind hc).1 hmany.1) (Nat.not_le.2 hmany.2)
  have hslots := arguments_meets callee style callable.params (callable.params.map fun _ => none) 0 sites
    hadmitted (fun hc => by simpa [Function.comp_def] using (hbind hc).2) (by simp)
  refine hslots.bind fun slots ⟨hlength, hfilled, hnumber⟩ => ?_
  rw [List.length_map] at hlength
  refine (fillDefaults_meets callee pos hlength hfilled hnumber).bind fun values ⟨hcount, hnumber⟩ => ?_
  rw [hreturns]
  cases callable with
  | intrinsic i params =>
    refine (ht.intrinsic i params _ values pos).mono fun v _ hv htyp => ?_
    have hsame := hw.signature?_declares hfind hdeclares
    rw [hd (htyped htyp), hsignature] at hsame
    cases hsame
    exact hv
  | defined f =>
    obtain ⟨hsound, hstands, hready⟩ := hhome f rfl
    rw [Callable.params, List.length_map] at hcount
    refine (ht.defined _ f _ values pos hsound hready hstands hcount hnumber).mono fun v _ hv htyp => ?_
    obtain ⟨signature', hlookup, hv⟩ := hv htyp
    cases hdeclares
    have hsame : w.signature? f.declaration = some signature' := by
      show w.functions.signature? f.key = _
      rw [FunctionTable.signature?, hlookup]
    rw [hd (htyped htyp), hsignature] at hsame
    cases hsame
    exact hv

/-- Arguments go to the places of their parameters. -/
theorem arguments_meets (callee : Ident) (style : CallStyle) (params : List (Ident × Option Number))
    (slots : List (Option Value)) (i : Nat) (args : List SiteArgument)
    (hargs : ∀ arg ∈ args, arg.Admitted w typed scene.scope lo hi)
    (hbind : certain → ∃ bound, SiteArgument.bindAll? params style (slots.map Option.isSome) i args =
      some bound ∧ filled params bound = true)
    (hslots : typed → ∀ v, some v ∈ slots → v.ty = .number) :
    (t.arguments scene callee style params slots i args).Meets (w.contract certain typed occurs) fun slots' =>
      slots'.length = slots.length ∧ (certain → filled params (slots'.map Option.isSome) = true) ∧
        (typed → ∀ v, some v ∈ slots' → v.ty = .number) := by
  cases args with
  | nil =>
    rw [arguments]
    refine Traced.meets_pure ⟨rfl, fun hc => ?_, hslots⟩
    obtain ⟨bound, hbound, hfilled⟩ := hbind hc
    cases hbound
    exact hfilled
  | cons arg args =>
    rw [List.forall_mem_cons] at hargs
    rw [arguments]
    -- Where the call fits, the argument has a place, and the rest of the arguments fit once it is taken.
    have hplace : (Traced.ofResult (Activation.placeOf t.context callee style params slots i arg)).Meets
        (w.contract certain typed occurs) fun place => certain →
          (∀ v, ∃ v', Activation.argumentValue t.context ((params[place]?).bind Prod.snd) arg v = .ok v') ∧
          ∃ bound, (∀ v, SiteArgument.bindAll? params style ((slots.set place (some v)).map Option.isSome)
            (i + 1) args = some bound) ∧ filled params bound = true := by
      have hfits (hc : certain) : ∃ bound, SiteArgument.bindAll? params style (slots.map Option.isSome) i
          (arg :: args) = some bound ∧ filled params bound = true := hbind hc
      refine Traced.meets_ofResult (fun place hok hc => ?_) fun e herror hc => ?_
      · obtain ⟨bound, hbound, hfilled⟩ := hfits hc
        obtain ⟨place', hplace', hvalue, hrest⟩ := Activation.bind_ok t.context callee hbound
        cases hok.symm.trans hplace'
        exact ⟨hvalue, bound, hrest, hfilled⟩
      · obtain ⟨bound, hbound, _⟩ := hfits hc
        obtain ⟨place', hplace', _⟩ := Activation.bind_ok t.context callee hbound
        cases herror.symm.trans hplace'
    refine hplace.bind fun place hplace => ?_
    refine (argument_meets arg hargs.1).bind fun v hv => ?_
    have hvalue : (Traced.ofResult (Activation.argumentValue t.context ((params[place]?).bind Prod.snd) arg
        v)).Meets (w.contract certain typed occurs) fun v => typed → v.ty = .number := by
      refine Traced.meets_ofResult (fun v' hok htyped => ?_) fun e herror hc => ?_
      · exact Activation.ty_argumentValue hok (hv htyped) hargs.1.2
      · obtain ⟨v', hv'⟩ := (hplace hc).1 v
        cases herror.symm.trans hv'
    refine hvalue.bind fun v hv => ?_
    have hrest := arguments_meets callee style params (slots.set place (some v)) (i + 1) args hargs.2
      (fun hc => (hplace hc).2.imp fun bound h => ⟨h.1 v, h.2⟩) fun htyped v' hmem => by
        rcases List.mem_or_eq_of_mem_set hmem with hmem | heq
        · exact hslots htyped v' hmem
        · cases heq
          exact hv htyped
    exact hrest.mono fun slots' _ h => ⟨h.1.trans (List.length_set ..), h.2⟩

theorem argument_meets (arg : SiteArgument) (harg : arg.Admitted w typed scene.scope lo hi) :
    (t.argument scene arg).Meets (w.contract certain typed occurs) fun v => typed → v.ty = .number := by
  obtain ⟨⟨tree, htrees, htree, hnumber⟩, _⟩ := harg
  cases arg with
  | shorthand _ value _ | assign _ value _ | opAssign _ _ value _ | positional value _ =>
    rw [argument]
    exact (compiled_meets value htrees htree).mono fun v _ hv htyped => (hv htyped).trans (hnumber htyped)

end

end Sequence

section Walk

set_option linter.unusedSectionVars false

variable (hw : w.Accepted size entry) (htyped : typed → certain) (ht : t.Serves w certain typed occurs)
include hw htyped ht

mutual

/-- An expression is evaluated to a value of its type. -/
theorem expr_meets {lo hi : Nat} {scene : Scene} (hfit : scene.Fit w typed occurs lo hi) (e : Expr)
    (hplaced : e.Placed w.constants w.table scene.scope lo hi) (hchecked : e.Obeys (.checked w) scene.scope)
    (hsettled : typed → e.Obeys (.settled w) scene.scope) :
    (t.expr scene e).Meets (w.contract certain typed occurs) fun v => typed → v.ty = e.ty w scene.scope := by
  cases e with
  | span sequence tree =>
    obtain ⟨_, htrees, hnamed⟩ := hplaced
    have htree : tree.Admitted w typed scene.scope lo hi := ⟨hnamed, hchecked, hsettled⟩
    rw [expr]
    exact (compiled_meets hw htyped ht hfit sequence htrees htree).mono fun _ _ hv => hv
  | conditional c e e' pos =>
    obtain ⟨m, n, hc, he, he'⟩ := hplaced
    obtain ⟨⟨hcondition, hbranches⟩, hcheckedC, hcheckedE, hcheckedE'⟩ := hchecked
    have hlo := (Expr.Placed.inOrder c hc).1
    have hmid := (Expr.Placed.inOrder e he).1
    have hhi := (Expr.Placed.inOrder e' he').1
    -- Recursive branches have the type of the other one where the rules are settled.
    have hsame (htyp : typed) : e.ty w scene.scope = e'.ty w scene.scope := by
      by_cases hprovisional : e.isProvisional w scene.scope = true ∨ e'.isProvisional w scene.scope = true
      · exact (hsettled htyp).1.2 hprovisional
      · simp only [not_or, Bool.not_eq_true] at hprovisional
        exact hbranches hprovisional.1 hprovisional.2
    have hty : (Expr.conditional c e e' pos).ty w scene.scope =
        if e.isProvisional w scene.scope then e'.ty w scene.scope else e.ty w scene.scope := rfl
    rw [expr]
    refine (expr_meets (hfit.part (Nat.le_refl _) (by omega) (by omega)) c hc hcheckedC
      fun htyp => (hsettled htyp).2.1).bind fun v hv => ?_
    refine Traced.meets_record_bind (fun htyp => ?_) fun _ => ?_
    · rw [hv htyp]
      cases hprovisional : c.isProvisional w scene.scope with
      | false => exact hcondition hprovisional
      | true => exact (hsettled htyp).1.1 hprovisional
    · split
      · refine (expr_meets (hfit.part hlo (by omega) hhi) e he hcheckedE
          fun htyp => (hsettled htyp).2.2.1).mono fun v _ hv htyp => ?_
        rw [hv htyp, hty, ← hsame htyp, ite_self]
      · refine (expr_meets (hfit.part (by omega) hhi (Nat.le_refl _)) e' he' hcheckedE'
          fun htyp => (hsettled htyp).2.2.2).mono fun v _ hv htyp => ?_
        rw [hv htyp, hty, hsame htyp, ite_self]
  | block key items pos =>
    obtain ⟨hopens, hitems⟩ := hplaced
    have hle := (BlockEntry.AllPlaced.inOrder items hitems).1
    obtain ⟨hsound, hready⟩ := hfit.sound.enter hfit.ready hfit.clear hopens hle
    rw [expr]
    refine (entries_meets (hfit.clear.narrow (Nat.le_succ_of_le hopens.1) (Nat.le_refl _)) hsound hready _ items
      hitems hchecked.2 fun htyp => (hsettled htyp).2).bind fun v _ => Traced.meets_pure fun _ => rfl
  | number | boolean | var | prefixed | binary | call => cases hplaced

/-- The entries of a block are evaluated in a frame that grows with their definitions. -/
theorem entries_meets {lo hi : Nat} {key : BlockKey} {scope : List BlockKey} {inner : Frame} {chain : Chain}
    (hclear : w.table.Clear scope lo hi) (hsound : Chain.Sound w typed occurs (key :: scope) (inner :: chain))
    (hready : Chain.Ready w.table lo (key :: scope) (inner :: chain)) (result : Value)
    (items : List BlockEntry) (hplaced : BlockEntry.AllPlaced w.constants w.table (key :: scope) lo hi items)
    (hchecked : BlockEntry.AllObey (.checked w) (key :: scope) items)
    (hsettled : typed → BlockEntry.AllObey (.settled w) (key :: scope) items) :
    (t.entries (key :: scope) inner chain result items).Meets (w.contract certain typed occurs) fun _ => True := by
  cases items with
  | nil =>
    rw [entries]
    exact Traced.meets_pure trivial
  | cons item items =>
    obtain ⟨m, hitem, hitems⟩ := hplaced
    have hle := (BlockEntry.AllPlaced.inOrder items hitems).1
    have hrest : w.table.Clear scope m hi :=
      hclear.narrow (BlockEntry.Placed.inOrder item hitem).1 (Nat.le_refl _)
    cases item with
    | closure f pos =>
      rw [entries]
      obtain ⟨hsound', hready'⟩ := hsound.define hready (hclear.narrow (Nat.le_refl _) hle) hitem hchecked.1
        fun htyp => (hsettled htyp).1
      exact entries_meets hrest hsound' hready' result items hitems hchecked.2 fun htyp => (hsettled htyp).2
    | operator op value guard pos =>
      obtain ⟨hown, n, hvalue, hguard⟩ := hitem
      have hlo := (Expr.Placed.inOrder value hvalue).1
      have hmid := (Expr.OptionPlaced.inOrder guard hguard).1
      have hfit : Scene.Fit w typed occurs lo m ⟨key :: scope, inner :: chain⟩ :=
        ⟨hown.join (hclear.narrow (Nat.le_refl _) hle), hready, hsound⟩
      have hready' := hready.advance hfit.clear (by omega)
      have hnext (result : Value) := entries_meets hrest hsound hready' result items hitems hchecked.2
        fun htyp => (hsettled htyp).2
      have hfirst := expr_meets (hfit.part (Nat.le_refl _) (by omega) hmid) value hvalue hchecked.1.2.1
        fun htyp => (hsettled htyp).1.2.1
      cases guard with
      | none =>
        rw [entries]
        exact hfirst.bind fun v _ => hnext _
      | some g =>
        rw [entries]
        refine (expr_meets (hfit.part hlo hmid (Nat.le_refl _)) g hguard hchecked.1.2.2
          fun htyp => (hsettled htyp).1.2.2).bind fun v hv => ?_
        refine Traced.meets_record_bind (fun htyp => ?_) fun _ => ?_
        · rw [hv htyp]
          cases hprovisional : g.isProvisional w (key :: scope) with
          | false => exact hchecked.1.1.2 g rfl hprovisional
          | true => exact (hsettled htyp).1.1 g rfl hprovisional
        · split
          · exact hfirst.bind fun v _ => hnext _
          · exact hnext result

end

end Walk

/-- Functions meet the contract however deep calls may nest. -/
theorem serves_ofDepth (hw : w.Accepted size entry) (htyped : typed → certain) (names : NameTable)
    (depth : Nat) : (ofDepth names .byName depth).Serves w certain typed occurs := by
  induction depth with
  | zero =>
    refine ⟨rfl, fun _ _ _ _ _ => ?_, fun _ _ _ _ _ _ _ _ _ _ => ?_⟩
    · exact Traced.meets_ofResult nofun fun e he _ => by cases he; rfl
    · exact Traced.meets_ofResult nofun fun e he _ => by cases he; rfl
  | succ depth ih =>
    refine ⟨rfl, fun i params home args pos => ?_, fun scope f home args pos hsound hready hstands hlength hargs => ?_⟩
    · exact Traced.meets_pure (i.ty_apply args)
    · obtain ⟨⟨signature, hlookup, _, _, _, _, hreturns⟩, hchecked⟩ := FunctionDef.obeys_iff.1 hstands.checked
      refine Traced.meets_record_bind hargs fun hoccurs => ?_
      obtain ⟨_, hsound', hready', hi, hclear, hplaced⟩ :=
        hsound.activate hready hstands hlength hargs hoccurs.1
      have hfit : Scene.Fit w typed occurs (f.argsKey.toNat + 1) hi
          ⟨f.inside, .ofArguments (Callable.defined f).params args :: home⟩ := ⟨hclear, hready', hsound'⟩
      have hbody := expr_meets hw htyped ih hfit f.body hplaced hchecked fun htyp => (FunctionDef.obeys_iff.1 (hstands.settled htyp)).2
      refine hbody.bind fun v hv => ?_
      have hresult (htyp : typed) : ∃ signature,
          w.functions.lookup f.key = some ⟨some f, .resolved signature⟩ ∧ v.ty = signature.type.returns :=
        ⟨signature, hlookup, (hv htyp).trans hreturns.symm⟩
      exact Traced.meets_record_bind hresult fun _ => Traced.meets_pure hresult

/-- The items of a program are evaluated in a frame that grows with them. -/
theorem items_meets (hw : w.Accepted size entry) (htyped : typed → certain) (names : NameTable) (depth : Nat)
    {lo hi : Nat} {globals : Frame} (hsound : Chain.Sound w typed occurs [rootBlock] [globals])
    (hready : Chain.Ready w.table lo [rootBlock] [globals]) (is : List Item)
    (hplaced : Item.AllPlaced w.constants w.table lo hi is) (hchecked : Program.Obeys (.checked w) is)
    (hsettled : typed → Program.Obeys (.settled w) is) :
    ((ofDepth names .byName depth).items globals is).Meets (w.contract certain typed occurs) fun globals' =>
      Chain.Sound w typed occurs [rootBlock] [globals'] ∧ Chain.Ready w.table hi [rootBlock] [globals'] := by
  induction is generalizing lo globals with
  | nil => exact Traced.meets_pure ⟨hsound, hready.advance hplaced.2 hplaced.1⟩
  | cons item is ih =>
    obtain ⟨m, hitem, hrest⟩ := hplaced
    obtain ⟨hchecked, hcheckedRest⟩ := List.forall_mem_cons.1 hchecked
    have hsettled' (htyp : typed) := List.forall_mem_cons.1 (hsettled htyp)
    cases item with
    | function f pos =>
      obtain ⟨hsound', hready'⟩ := hsound.define hready nofun hitem hchecked fun htyp => (hsettled' htyp).1
      exact ih hsound' hready' hrest hcheckedRest fun htyp => (hsettled' htyp).2
    | assignment name value pos =>
      obtain ⟨n, d, hvalue, hfind, hsource, hvariable, hn, hm, hunique⟩ := hitem
      obtain ⟨⟨d', hfind', hty, _⟩, hchecked⟩ := hchecked
      cases hfind.symm.trans hfind'
      have hlo := (Expr.Placed.inOrder value hvalue).1
      have hclear : w.table.Clear [rootBlock] lo n := by
        intro key hkey other d' hd' hsource'
        rw [List.mem_singleton.1 hkey] at hd'
        by_cases hbetween : lo ≤ d'.visibleFrom.toNat ∧ d'.visibleFrom.toNat < m
        · cases hunique other d' hd' hsource' hbetween.1 hbetween.2
          exact .inr hn
        · omega
      have hfit : Scene.Fit w typed occurs lo n ⟨[rootBlock], [globals]⟩ := ⟨hclear, hready, hsound⟩
      have hfirst := expr_meets hw htyped (serves_ofDepth hw htyped names depth) hfit value hvalue hchecked
        fun htyp => (hsettled' htyp).1.2
      refine hfirst.bind fun v hv => ?_
      have hv' (htyp : typed) : d.ty? = some v.ty := hty.trans (congrArg some (hv htyp).symm)
      refine Traced.meets_record_bind (fun htyp => ⟨d, hfind, hv' htyp⟩) fun hoccurs => ?_
      refine ih (hsound.setVariable hfind hvariable hv' hoccurs.1) ?_ hrest hcheckedRest fun htyp => (hsettled' htyp).2
      -- Up to the end of the item, the name is all that is declared.
      obtain ⟨⟨hkey, hhas⟩, _⟩ := List.forall₂_cons.1 hready
      refine .cons ⟨.inl rfl, fun other d' hd' hbefore => ?_⟩ .nil
      by_cases hold : d'.Before lo
      · exact hhas.setVariable name v other d' hd' hold
      · simp only [Declaration.Before, not_or, Bool.not_eq_true] at hold
        have hlt := hbefore.resolve_left (by simp [hold.1])
        cases hunique other d' hd' hold.1 (Nat.not_lt.1 hold.2) hlt
        have hname := (SymbolTable.find?_name hd').symm.trans (SymbolTable.find?_name hfind)
        rw [hvariable, hname]
        exact ⟨v, (Frame.lookup_setVariable ..).trans (if_pos rfl)⟩

end Tracer
end ToneScript
