import ToneScript.Proofs.Run.Program

/-! Lexical scope. Looking a variable up by its name along the frames of a run comes to the same as reading it at a
place that is known before the run: so many frames out, in the slot of its declaration. -/
namespace ToneScript

/-- Reads a variable at the place that the table finds for it. -/
def Reader.lexical (t : SymbolTable) : Reader :=
  fun scene name pos =>
    (t.resolve scene.scope name pos).bind fun (d, crossed) =>
      (scene.chain[crossed]?).bind fun frame => frame.values.lookup d.name

namespace Traced

variable {α β : Type} {r r' : Reader} {x x' : Traced α}

/-- Whether two ways to read a variable come to the same for what is read in a run. -/
def ReadsAlike (x : Traced α) (r r' : Reader) : Prop :=
  ∀ scene name pos value?, .read scene name pos value? ∈ x.events → r scene name pos = r' scene name pos

theorem bind_congr {f f' : α → Traced β} (hx : x.ReadsAlike r r' → x = x')
    (hf : ∀ a, (f a).ReadsAlike r r' → f a = f' a) (h : (x >>= f).ReadsAlike r r') :
    x >>= f = x' >>= f' := by
  cases hresult : x.result with
  | error e =>
    rw [bind_of_error hresult] at h
    have hsame := hx h
    rw [← hsame, bind_of_error hresult, bind_of_error hresult]
  | ok a =>
    rw [bind_of_ok hresult] at h
    have hsame := hx fun scene name pos value? hmem => h _ _ _ _ (List.mem_append_left _ hmem)
    have hrest := hf a fun scene name pos value? hmem => h _ _ _ _ (List.mem_append_right _ hmem)
    rw [← hsame, bind_of_ok hresult, bind_of_ok hresult, hrest]

end Traced

namespace Tracer

variable {names : NameTable} {r r' : Reader} {t t' : Tracer}

/-- Two tracers that differ in how they read variables, and whose functions run alike as long as what is read is
alike. -/
structure Alike (t t' : Tracer) : Prop where
  names : t.names = t'.names
  invoke : ∀ callable home args pos, (t.invoke callable home args pos).ReadsAlike t.read t'.read →
    t.invoke callable home args pos = t'.invoke callable home args pos

theorem fillDefaults_congr (h : t.Alike t') (callee : Ident) (pos : Position)
    (params : List (Ident × Option Number)) (slots : List (Option Value)) :
    Activation.fillDefaults t.context callee pos params slots =
      Activation.fillDefaults t'.context callee pos params slots := by
  have hnames : t.context.names = t'.context.names := h.names
  induction params generalizing slots with
  | nil => simp [Activation.fillDefaults]
  | cons param params ih =>
    cases slots with
    | nil => simp [Activation.fillDefaults]
    | cons slot slots => simp only [Activation.fillDefaults, ih, hnames]

theorem placeOf_congr (h : t.Alike t') (callee : Ident) (style : CallStyle)
    (params : List (Ident × Option Number)) (slots : List (Option Value)) (i : Nat) (arg : SiteArgument) :
    Activation.placeOf t.context callee style params slots i arg =
      Activation.placeOf t'.context callee style params slots i arg := by
  have hnames : t.context.names = t'.context.names := h.names
  simp only [Activation.placeOf, hnames]

theorem argumentValue_congr (h : t.Alike t') (default? : Option Number) (arg : SiteArgument) (v : Value) :
    Activation.argumentValue t.context default? arg v =
      Activation.argumentValue t'.context default? arg v := by
  have hnames : t.context.names = t'.context.names := h.names
  simp only [Activation.argumentValue, hnames]

theorem readVariable_congr {scene : Scene} {name : Ident} {pos : Position} {e : EvalError}
    (hreads : (t.readVariable scene name pos e).ReadsAlike t.read t'.read) :
    t.readVariable scene name pos e = t'.readVariable scene name pos e := by
  have hsame : t.read scene name pos = t'.read scene name pos := by
    refine hreads scene name pos (t.read scene name pos) ?_
    rw [readVariable, Traced.bind_of_ok (Traced.result_record _)]
    exact List.mem_append_left _ (List.mem_singleton_self _)
  rw [readVariable, readVariable, hsame]

mutual

theorem cells_congr (h : t.Alike t') (scene : Scene) (stack : List Value) (sequence : List Cell)
    (hreads : (t.cells scene stack sequence).ReadsAlike t.read t'.read) :
    t.cells scene stack sequence = t'.cells scene stack sequence := by
  cases sequence with
  | nil => simp only [cells]
  | cons cell rest =>
    have hrest (stack' : List Value) := cells_congr h scene stack' rest
    cases cell with
    | value v pos =>
      simp only [cells] at hreads ⊢
      exact hrest _ hreads
    | slot name pos =>
      simp only [cells] at hreads ⊢
      exact Traced.bind_congr readVariable_congr (fun v => hrest _) hreads
    | call site =>
      simp only [cells] at hreads ⊢
      exact Traced.bind_congr (call_congr h scene site) (fun v => hrest _) hreads
    | operator op pos =>
      simp only [cells] at hreads ⊢
      exact Traced.bind_congr (fun _ => rfl) (fun stack' => hrest _) hreads
    | left pos | right pos => simp only [cells]

theorem compiled_congr (h : t.Alike t') (scene : Scene) (e : Compiled)
    (hreads : (t.compiled scene e).ReadsAlike t.read t'.read) : t.compiled scene e = t'.compiled scene e := by
  obtain ⟨sequence, pos⟩ := e
  simp only [compiled] at hreads ⊢
  rw [cells_congr h scene [] sequence hreads]

theorem call_congr (h : t.Alike t') (scene : Scene) (site : CallSite)
    (hreads : (t.call scene site).ReadsAlike t.read t'.read) : t.call scene site = t'.call scene site := by
  obtain ⟨callee, style, args, pos⟩ := site
  simp only [call] at hreads ⊢
  refine Traced.bind_congr (fun _ => rfl) (fun _ hreads => ?_) hreads
  simp only [← h.names] at hreads ⊢
  cases hfound : scene.chain.findFunction? callee with
  | none => rfl
  | some found =>
    obtain ⟨callable, home⟩ := found
    simp only [hfound] at hreads ⊢
    split at hreads
    · rename_i hmany
      rw [if_pos hmany, if_pos hmany]
    · rename_i hfits
      rw [if_neg hfits, if_neg hfits]
      refine Traced.bind_congr (arguments_congr h scene callee style callable.params _ 0 args)
        (fun slots hreads => ?_) hreads
      rw [← fillDefaults_congr h]
      exact Traced.bind_congr (fun _ => rfl) (fun values => h.invoke callable home values pos) hreads

theorem arguments_congr (h : t.Alike t') (scene : Scene) (callee : Ident) (style : CallStyle)
    (params : List (Ident × Option Number)) (slots : List (Option Value)) (i : Nat) (args : List SiteArgument)
    (hreads : (t.arguments scene callee style params slots i args).ReadsAlike t.read t'.read) :
    t.arguments scene callee style params slots i args = t'.arguments scene callee style params slots i args := by
  cases args with
  | nil => simp only [arguments]
  | cons arg args =>
    simp only [arguments, ← placeOf_congr h, ← argumentValue_congr h] at hreads ⊢
    refine Traced.bind_congr (fun _ => rfl) (fun place => ?_) hreads
    refine Traced.bind_congr (argument_congr h scene arg) fun v => ?_
    exact Traced.bind_congr (fun _ => rfl) fun v => arguments_congr h scene callee style params _ (i + 1) args

theorem argument_congr (h : t.Alike t') (scene : Scene) (arg : SiteArgument)
    (hreads : (t.argument scene arg).ReadsAlike t.read t'.read) :
    t.argument scene arg = t'.argument scene arg := by
  cases arg with
  | shorthand _ value _ | assign _ value _ | opAssign _ _ value _ | positional value _ =>
    simp only [argument] at hreads ⊢
    exact compiled_congr h scene value hreads

end

mutual

theorem expr_congr (h : t.Alike t') (scene : Scene) (e : Expr)
    (hreads : (t.expr scene e).ReadsAlike t.read t'.read) : t.expr scene e = t'.expr scene e := by
  cases e with
  | span sequence tree =>
    simp only [expr] at hreads ⊢
    exact compiled_congr h scene sequence hreads
  | number | boolean => simp only [expr]
  | var name pos =>
    simp only [expr, ← h.names] at hreads ⊢
    exact readVariable_congr hreads
  | prefixed op operand pos =>
    simp only [expr] at hreads ⊢
    exact Traced.bind_congr (expr_congr h scene operand) (fun _ _ => rfl) hreads
  | binary op left right pos =>
    simp only [expr] at hreads ⊢
    refine Traced.bind_congr (expr_congr h scene left) (fun l => ?_) hreads
    exact Traced.bind_congr (expr_congr h scene right) fun _ _ => rfl
  | call site args =>
    simp only [expr] at hreads ⊢
    exact call_congr h scene site hreads
  | conditional c e e' pos =>
    simp only [expr] at hreads ⊢
    refine Traced.bind_congr (expr_congr h scene c) (fun v => ?_) hreads
    refine Traced.bind_congr (fun _ => rfl) fun _ => ?_
    split
    · exact expr_congr h scene e
    · exact expr_congr h scene e'
  | block key items pos =>
    simp only [expr] at hreads ⊢
    exact Traced.bind_congr (entries_congr h _ {} scene.chain _ items) (fun _ _ => rfl) hreads

theorem entries_congr (h : t.Alike t') (scope : List BlockKey) (inner : Frame) (chain : Chain)
    (result : Value) (items : List BlockEntry)
    (hreads : (t.entries scope inner chain result items).ReadsAlike t.read t'.read) :
    t.entries scope inner chain result items = t'.entries scope inner chain result items := by
  cases items with
  | nil => simp only [entries]
  | cons item items =>
    have hitems (inner' : Frame) (result' : Value) := entries_congr h scope inner' chain result' items
    cases item with
    | closure f pos =>
      simp only [entries] at hreads ⊢
      exact hitems _ _ hreads
    | operator op value guard pos =>
      have hvalue := expr_congr h ⟨scope, inner :: chain⟩ value
      cases guard with
      | none =>
        simp only [entries] at hreads ⊢
        exact Traced.bind_congr hvalue (fun v => hitems _ _) hreads
      | some g =>
        simp only [entries] at hreads ⊢
        refine Traced.bind_congr (expr_congr h ⟨scope, inner :: chain⟩ g) (fun v => ?_) hreads
        refine Traced.bind_congr (fun _ => rfl) fun _ => ?_
        split
        · exact Traced.bind_congr hvalue fun v => hitems _ _
        · exact hitems _ _

end

theorem alike_ofDepth (names : NameTable) (r r' : Reader) (depth : Nat) :
    (ofDepth names r depth).Alike (ofDepth names r' depth) := by
  induction depth with
  | zero => exact ⟨rfl, fun _ _ _ _ _ => rfl⟩
  | succ depth ih =>
    refine ⟨rfl, fun callable home args pos hreads => ?_⟩
    cases callable with
    | intrinsic i params => rfl
    | defined f =>
      refine Traced.bind_congr (fun _ => rfl) (fun _ => ?_) hreads
      exact Traced.bind_congr (expr_congr ih _ f.body) fun _ _ => rfl

theorem items_congr (h : t.Alike t') (globals : Frame) (is : List Item)
    (hreads : (t.items globals is).ReadsAlike t.read t'.read) : t.items globals is = t'.items globals is := by
  induction is generalizing globals with
  | nil => rfl
  | cons item is ih =>
    cases item with
    | function f pos => exact ih _ hreads
    | assignment name value pos =>
      refine Traced.bind_congr (expr_congr h _ value) (fun v => ?_) hreads
      exact Traced.bind_congr (fun _ => rfl) fun _ => ih _

end Tracer

namespace Compilation

/-- Two ways to read variables that come to the same for what is read in a run make the same run. -/
theorem trace_congr (c : Compilation) {r r' : Reader} {depth : Nat} {time : Number}
    (hreads : (c.trace r depth time).ReadsAlike r r') : c.trace r depth time = c.trace r' depth time := by
  have halike := Tracer.alike_ofDepth c.names r r' depth
  refine Traced.bind_congr (Tracer.items_congr halike _ _) (fun globals hreads => ?_) hreads
  cases hlookup : globals.functions.lookup c.entry.1 with
  | none => rfl
  | some callable =>
    simp only [hlookup] at hreads ⊢
    exact halike.invoke callable _ _ _ hreads

/-- Variables have lexical scope. A run in which variables are looked up by name is the run in which each is read
at the place that the check found for it; its frame there is that of the block of its declaration, and the value
is what was bound to the parameter by an activation of the function, or was assigned at the outermost level, or
is that of the constant. -/
theorem trace_lexical {source : Source} {intrinsics : Bool} {main? : Option (String × FunctionType)}
    {strict : Bool} {c : Compilation} (hsize : source.text.length < UInt64.size)
    (hcheck : typecheck.run (prepared source intrinsics main? strict) = (.ok true, c))
    (hentry : c.entry.2.args.length = 1) (depth : Nat) (time : Number) :
    (∀ e c', compile.run (prepared source intrinsics main? strict) = (.ok (some e), c') →
      e.callValue time = (c.trace (.lexical c.table) defaultDepth time).result) ∧
    c.trace .byName depth time = c.trace (.lexical c.table) depth time ∧
      ∀ scene name pos value?, .read scene name pos value? ∈ (c.trace .byName depth time).events →
        ∃ d crossed key frame v, c.table.resolve scene.scope name pos = some (d, crossed) ∧
          scene.scope[crossed]? = some key ∧ c.table.find? key name = some d ∧
          scene.chain[crossed]? = some frame ∧ frame.values.lookup name = some v ∧ value? = some v ∧
          (key = rootBlock → c.constants.lookup name = some v ∨
            .assigned name v ∈ (c.trace .byName depth time).events) ∧
          (key ≠ rootBlock → ∃ f args, .bound f args ∈ (c.trace .byName depth time).events ∧
            f.argsKey = key ∧ frame.values = (f.params.map Param.name).zip args ∧
            ∃ p ∈ f.params, d = f.paramDeclaration p) := by
  have hc := accepted_prepared hsize hcheck
  have hread (depth : Nat) (scene : Scene) (name : Ident) (pos : Position) (value? : Option Value)
      (hmem : .read scene name pos value? ∈ (c.trace .byName depth time).events) :
      ∃ d crossed key frame v, c.table.resolve scene.scope name pos = some (d, crossed) ∧
        scene.scope[crossed]? = some key ∧ c.table.find? key name = some d ∧
        scene.chain[crossed]? = some frame ∧
        frame.Fits c.elaboration False (· ∈ (c.trace .byName depth time).events) key ∧
        frame.values.lookup name = some v ∧ value? = some v ∧ scene.chain.lookup name = some v := by
    obtain ⟨hproper, _⟩ := trace_meets False False (· ∈ (c.trace .byName depth time).events) hc hentry nofun nofun depth time
      fun e he => ⟨he, nofun⟩
    obtain ⟨lo, hi, d, crossed, hfit, hpos, hresolve, hvariable, rfl⟩ := hproper _ hmem
    obtain ⟨key, frame, v, hkey, hfind, hframe, hfits, hv, hlookup⟩ :=
      hfit.sound.lookup hfit.ready hfit.clear hpos hresolve hvariable
    exact ⟨d, crossed, key, frame, v, hresolve, hkey, hfind, hframe, hfits, hv, hlookup, hlookup⟩
  have hsame (depth : Nat) : c.trace .byName depth time = c.trace (.lexical c.table) depth time := by
    refine trace_congr c fun scene name pos value? hmem => ?_
    obtain ⟨d, crossed, key, frame, v, hresolve, _, hfind, hframe, _, hv, _, hlookup⟩ :=
      hread _ _ _ _ _ hmem
    rw [Reader.byName, hlookup, Reader.lexical, hresolve]
    simp only [Option.bind_some, hframe, SymbolTable.find?_name hfind, hv]
  refine ⟨fun e c' hcompile => ?_, hsame depth, ?_⟩
  · obtain ⟨checked, hcheck', hresult⟩ := compile_some hcompile
    obtain ⟨_, rfl⟩ := Prod.mk.inj (hcheck.symm.trans hcheck')
    rw [← hsame, hresult]
  · intro scene name pos value? hmem
    obtain ⟨d, crossed, key, frame, v, hresolve, hkey, hfind, hframe, hfits, hv, hvalue, _⟩ :=
      hread _ _ _ _ _ hmem
    refine ⟨d, crossed, key, frame, v, hresolve, hkey, hfind, hframe, hv, hvalue,
      fun hroot => hfits.outermost hroot name v hv, fun hroot => ?_⟩
    obtain ⟨f, args, hbound, hargs, hvalues, p, hp, hdecl⟩ := hfits.activation hroot name v hv
    cases hfind.symm.trans hdecl
    exact ⟨f, args, hbound, hargs, hvalues, p, hp, rfl⟩

/-- A program whose entry point defines a function that reads the parameter of the entry point. -/
def scaledSource : Source :=
  .ofString "scaled" "[main t] \x7b [scaled x] x * t; + scaled(2); \x7d"

theorem trace_lexical_enclosingParameter :
    typecheck.run (prepared scaledSource true none false) = (.ok true, afterCheck scaledSource none) ∧
      (afterCheck scaledSource none).entry.2.args.length = 1 ∧
      (afterCheck scaledSource none).trace .byName 2 3 =
        (afterCheck scaledSource none).trace (.lexical (afterCheck scaledSource none).table) 2 3 := by
  have hcheck := typecheck_afterCheck scaledSource none (by decide +kernel)
  have hentry : (afterCheck scaledSource none).entry.2.args.length = 1 := by decide +kernel
  exact ⟨hcheck, hentry, (trace_lexical (by decide) hcheck hentry 2 3).2.1⟩

end Compilation
end ToneScript
