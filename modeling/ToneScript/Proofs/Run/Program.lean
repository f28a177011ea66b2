import ToneScript.Proofs.Compilation.Stages
import ToneScript.Proofs.Run.Soundness

/-! Runs of whole programs: the outermost level is evaluated, and then the entry point is called. -/
namespace ToneScript

namespace Compilation

/-- The evaluation of the outermost level, with a trace. -/
def globalsTrace (c : Compilation) (read : Reader) (depth : Nat) : Traced Frame :=
  (Tracer.ofDepth c.names read depth).items c.initialGlobals c.program

/-- A run of a program, with a trace: the outermost level is evaluated, and then the entry point is called at a
point in time. -/
def trace (c : Compilation) (read : Reader) (depth : Nat) (time : Number) : Traced Value := do
  let globals ← c.globalsTrace read depth
  match globals.functions.lookup c.entry.1 with
  | none => .ofResult (.error ⟨.undefinedFunction (c.names.name c.entry.1), none⟩)
  | some callable =>
    Tracer.invokeWith c.names read depth callable [globals] [.number time] .start

/-- The compilation of a source, with what every program has from the start, once it was checked. -/
def afterCheck (source : Source) (main? : Option (String × FunctionType)) : Compilation :=
  (typecheck.run (prepared source true main? false)).2

theorem typecheck_afterCheck (source : Source) (main? : Option (String × FunctionType))
    (h : (typecheck.run (prepared source true main? false)).1 = .ok true) :
    typecheck.run (prepared source true main? false) = (.ok true, afterCheck source main?) := by
  unfold afterCheck
  generalize typecheck.run (prepared source true main? false) = r at h ⊢
  exact Prod.ext h rfl

variable {c c' : Compilation}

/-- The result of the outermost level is that of its evaluation without a trace. -/
theorem result_globalsTrace (c : Compilation) (depth : Nat) :
    (c.globalsTrace .byName depth).result =
      (evaluateItems c.names depth c.initialGlobals c.program).1.mapError (·.error) :=
  Tracer.result_items c.names depth c.initialGlobals c.program

theorem exists_compile (h : (compile.run c).1.toOption.any Option.isSome = true) :
    ∃ e c', compile.run c = (.ok (some e), c') := by
  rcases hrun : compile.run c with ⟨result, c'⟩
  rw [hrun] at h
  rcases result with d | _ | e
  · cases h
  · cases h
  · exact ⟨e, c', rfl⟩

/-- What a compilation that gives an entry point has done before. -/
theorem compile_some {e : EntryPoint} (h : compile.run c = (.ok (some e), c')) :
    ∃ checked, typecheck.run c = (.ok true, checked) ∧
      ∀ time, (checked.trace .byName defaultDepth time).result = e.callValue time := by
  obtain ⟨checked, hcheck, hevaluated⟩ := evaluated_of_compile h
  obtain ⟨hitems, hlookup, hnames⟩ := evaluated_ok hevaluated
  refine ⟨checked, hcheck, fun time => ?_⟩
  have hglobals : (checked.globalsTrace .byName defaultDepth).result = .ok e.globals := by
    rw [result_globalsTrace, hitems]
    rfl
  rw [trace, Traced.result_bind, hglobals]
  show Traced.result (match e.globals.functions.lookup checked.entry.1 with
    | none => _
    | some callable => _) = _
  rw [hlookup, EntryPoint.callValue, ← Tracer.result_invokeWith, hnames]

/-- A compilation that gives no entry point for an accepted program could not evaluate the outermost level, or
the entry point is not there. -/
theorem compile_none {checked : Compilation} (hcheck : typecheck.run c = (.ok true, checked))
    (h : compile.run c = (.ok none, c')) :
    (∃ error, (checked.globalsTrace .byName defaultDepth).result = .error error) ∨
      ∃ globals, (checked.globalsTrace .byName defaultDepth).result = .ok globals ∧
        globals.functions.lookup checked.entry.1 = none := by
  obtain ⟨_, hcompile, _⟩ := compile_accepted hcheck
  obtain ⟨heq, _⟩ := Prod.mk.inj (h.symm.trans hcompile)
  rw [result_globalsTrace]
  cases hevaluated : checked.evaluated with
  | ok e =>
    rw [hevaluated] at heq
    cases heq
  | error i =>
    rcases evaluated_error hevaluated with ⟨e, hglobals⟩ | ⟨globals, hglobals, hnone⟩
    · exact .inl ⟨e.error, by rw [hglobals]; rfl⟩
    · exact .inr ⟨globals, by rw [hglobals]; rfl, hnone⟩

end Compilation

/-- A function that is an item is declared in the outermost block. -/
theorem Item.AllPlaced.find? {constants : List (Ident × Value)} {t : SymbolTable} {lo hi : Nat}
    {items : List Item} (h : Item.AllPlaced constants t lo hi items) {f : FunctionDef} {pos : Position}
    (hf : .function f pos ∈ items) :
    f.block = rootBlock ∧ t.find? rootBlock f.name = some f.declaration := by
  induction items generalizing lo with
  | nil => cases hf
  | cons item items ih =>
    obtain ⟨m, hitem, hrest⟩ := h
    rcases List.mem_cons.1 hf with rfl | hf
    · exact FunctionDef.Placed.find? hitem
    · exact ih hrest hf

section Entry

variable {w : Elaboration} {certain typed : Prop} {occurs : Event → Prop} {size : Nat} {entry : Ident × FunctionType}

/-- The function that runs the program is found in the outermost frame, with the type that is asked for. -/
theorem Elaboration.Accepted.findEntry (hw : w.Accepted size entry) {globals : Frame}
    (hsound : Chain.Sound w typed occurs [rootBlock] [globals])
    (hready : Chain.Ready w.table size [rootBlock] [globals]) :
    ∃ f signature, globals.functions.lookup entry.1 = some (.defined f) ∧
      w.Stands typed [rootBlock] f ∧ Chain.Ready w.table (f.argsKey.toNat + 1) [rootBlock] [globals] ∧
      f.params.length = entry.2.args.length ∧
      w.functions.lookup f.key = some ⟨some f, .resolved signature⟩ ∧
      signature.type.returns = entry.2.returns := by
  obtain ⟨f, pos, signature, hmem, hname, hlookup, hparams, hreturns⟩ := hw.entry
  obtain ⟨_, hfind⟩ := hw.laid.placed.find? hmem
  obtain ⟨⟨_, hhas⟩, _⟩ := List.forall₂_cons.1 hready
  obtain ⟨callable, hcallable⟩ := hhas f.name f.declaration hfind (.inr (hw.laid.bound _ _ _ hfind rfl))
  obtain ⟨d, hd, _, hdeclares⟩ := hsound.fits_head.function f.name callable hcallable
  cases hfind.symm.trans hd
  rw [hname] at hcallable
  cases callable with
  | intrinsic i params => cases hdeclares.1
  | defined g =>
    obtain ⟨hstands, hready'⟩ := hsound.hosts_head _ g hcallable
    obtain ⟨⟨signature', hlookup', _⟩, _⟩ := FunctionDef.obeys_iff.1 hstands.checked
    -- Both functions have the same key, and so they are the same.
    have hkey : g.key = f.key := by
      have hscope : f.scope = g.scope := congrArg Declaration.scope hdeclares
      have hsame : f.name = g.name := congrArg Declaration.name hdeclares
      simp [FunctionDef.key, FunctionDef.block, hscope, hsame]
    rw [hkey, hlookup] at hlookup'
    cases hlookup'
    exact ⟨f, signature, hcallable, hstands, hready', hparams, hlookup, hreturns⟩

end Entry

namespace Compilation

variable {c : Compilation} {size : Nat}

/-- The outermost level is evaluated to a frame that has all that it declares. -/
theorem globalsTrace_meets (certain typed : Prop) (occurs : Event → Prop)
    (hc : c.elaboration.Accepted size c.entry) (htyped : typed → certain)
    (hsettled : typed → c.program.Obeys (.settled c.elaboration)) (depth : Nat) :
    (c.globalsTrace .byName depth).Meets (c.elaboration.contract certain typed occurs) fun globals =>
      Chain.Sound c.elaboration typed occurs [rootBlock] [globals] ∧
        Chain.Ready c.elaboration.table size [rootBlock] [globals] := by
  obtain ⟨hsound, hready⟩ := Chain.Sound.start typed occurs hc.native c.initialGlobals rfl rfl
  exact Tracer.items_meets hc htyped c.names depth hsound hready c.program hc.laid.placed hc.obeys hsettled

/-- A run of an accepted program whose entry point has one parameter. -/
theorem trace_meets (certain typed : Prop) (occurs : Event → Prop)
    (hc : c.elaboration.Accepted size c.entry) (hentry : c.entry.2.args.length = 1)
    (htyped : typed → certain) (hsettled : typed → c.program.Obeys (.settled c.elaboration)) (depth : Nat)
    (time : Number) :
    (c.trace .byName depth time).Meets (c.elaboration.contract certain typed occurs) fun v => typed →
      v.ty = c.entry.2.returns := by
  refine (globalsTrace_meets certain typed occurs hc htyped hsettled depth).bind fun globals ⟨hsound, hready⟩ => ?_
  obtain ⟨f, signature, hlookup, hstands, hready', hparams, hsignature, hreturns⟩ :=
    hc.findEntry hsound hready
  rw [hlookup]
  have hrun := (Tracer.serves_ofDepth hc htyped c.names depth).defined [rootBlock] f [globals] [.number time]
    .start hsound hready' hstands (hentry.symm.trans hparams.symm) fun _ => by simp [Value.ty]
  refine hrun.mono fun v _ hv htyp => ?_
  obtain ⟨signature', hsignature', hty⟩ := hv htyp
  cases hsignature.symm.trans hsignature'
  exact hty.trans hreturns

section Prepared

variable {source : Source} {intrinsics : Bool} {main? : Option (String × FunctionType)} {strict : Bool}

/-- A program that passed all checks. -/
theorem accepted_prepared (hsize : source.text.length < UInt64.size)
    (h : typecheck.run (prepared source intrinsics main? strict) = (.ok true, c)) :
    c.elaboration.Accepted source.text.length c.entry := by
  obtain ⟨hsource, hfresh⟩ := prepared_fresh source intrinsics main? strict
  obtain ⟨haccepted, hentry⟩ := accepted hfresh (prepared_starts source intrinsics main? strict)
    (by rw [hsource]; exact hsize) h
  rw [hsource, ← hentry] at haccepted
  exact haccepted

/-- Unless something else is said, the entry point has one parameter. -/
theorem entry_prepared (hsize : source.text.length < UInt64.size)
    (h : typecheck.run (prepared source true none strict) = (.ok true, c)) : c.entry.2.args.length = 1 := by
  obtain ⟨hsource, hfresh⟩ := prepared_fresh source true none strict
  obtain ⟨_, hentry⟩ := accepted hfresh (prepared_starts source true none strict) (by rw [hsource]; exact hsize) h
  obtain ⟨_, _, _, _, _, hnative⟩ := prepared_native source none strict
  rw [hentry, hnative rfl]
  decide +kernel

end Prepared

end Compilation
end ToneScript
