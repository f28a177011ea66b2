import ToneScript.Proofs.Run.Program

/-! Which functions calls find, and how runs can fail. -/
namespace ToneScript

/-- Whether every call of a run finds the function that the table finds for it. -/
def Traced.Faithful {α : Type} (x : Traced α) (w : Elaboration) : Prop :=
  ∀ e ∈ x.events, e.Agrees w

instance {α : Type} (x : Traced α) (w : Elaboration) : Decidable (x.Faithful w) :=
  inferInstanceAs (Decidable (∀ e ∈ x.events, e.Agrees w))

theorem Traced.exists_of_not_faithful {α : Type} {x : Traced α} {w : Elaboration} (h : ¬ x.Faithful w) :
    ∃ scene site, .called scene site ∈ x.events ∧ ¬ w.Agrees scene site := by
  obtain ⟨e, he⟩ := not_forall.1 h
  obtain ⟨hmem, hdiffers⟩ := Classical.not_imp.1 he
  cases e with
  | called scene site => exact ⟨scene, site, hmem, hdiffers⟩
  | read | bound | completed | tested | assigned => exact absurd trivial hdiffers

namespace Compilation

variable {source : Source} {intrinsics : Bool} {main? : Option (String × FunctionType)} {strict : Bool}
  {c : Compilation}

/-- A call finds the function that the check found for it, unless a nearer block declares a function of the same
name after the call. -/
theorem trace_called (hsize : source.text.length < UInt64.size)
    (hcheck : typecheck.run (prepared source intrinsics main? strict) = (.ok true, c))
    (hentry : c.entry.2.args.length = 1) (depth : Nat) (time : Number) (scene : Scene) (site : CallSite)
    (hcalled : .called scene site ∈ (c.trace .byName depth time).events) :
    ∃ d crossed n key callable d', c.table.resolve scene.scope site.callee site.pos = some (d, crossed) ∧
      d.isFunction = true ∧ n ≤ crossed ∧ scene.scope[n]? = some key ∧
      scene.chain.findFunction? site.callee = some (callable, scene.chain.drop n) ∧
      c.table.find? key site.callee = some d' ∧ c.elaboration.Declares d' callable ∧
      (n = crossed → d' = d) ∧
      (n < crossed → d'.builtin = false ∧ site.pos.index < d'.visibleFrom) := by
  have hc := accepted_prepared hsize hcheck
  obtain ⟨hproper, _⟩ := trace_meets False False (fun _ => True) hc hentry nofun
    nofun depth time fun e he => ⟨trivial, nofun⟩
  obtain ⟨lo, hi, d, crossed, hfit, hpos, hresolve, hfunction⟩ := hproper _ hcalled
  obtain ⟨n, key, callable, d', hle, _, hkey, hfound, hfind, _, hdeclares, hsame, hlate⟩ :=
    hfit.sound.findFunction? hfit.ready hfit.clear hpos hresolve hfunction
  refine ⟨d, crossed, n, key, callable, d', hresolve, hfunction, hle, hkey, hfound, hfind, hdeclares, hsame,
    fun hlt => ?_⟩
  have hhidden := hlate hlt
  rw [Declaration.visibleAt, Bool.or_eq_false_iff, decide_eq_false_iff_not, UInt64.not_le] at hhidden
  exact hhidden

/-- A program that declares a function in a block after a call of another function of that name. -/
def lateSource : Source :=
  .ofString "late" "[f x] 1; [main t] \x7b [h x] f(x); + h(1); [f x, y] 2; + h(1); \x7d"

theorem trace_called_lateSource :
    ∃ scene site d crossed n callable,
      .called scene site ∈ ((afterCheck lateSource none).trace .byName 4 0).events ∧
      (afterCheck lateSource none).table.resolve scene.scope site.callee site.pos = some (d, crossed) ∧
      scene.chain.findFunction? site.callee = some (callable, scene.chain.drop n) ∧ n < crossed := by
  have hcheck := typecheck_afterCheck lateSource none (by decide +kernel)
  have hlate : ¬ ((afterCheck lateSource none).trace .byName 4 0).Faithful (afterCheck lateSource none).elaboration := by
    decide +kernel
  have hsize : lateSource.text.length < UInt64.size := by decide
  generalize afterCheck lateSource none = c at hcheck hlate ⊢
  obtain ⟨scene, site, hmem, hdiffers⟩ := Traced.exists_of_not_faithful hlate
  obtain ⟨d, crossed, n, key, callable, d', hresolve, _, hle, _, hfound, _⟩ :=
    trace_called hsize hcheck (entry_prepared hsize hcheck) 4 0 scene site hmem
  refine ⟨scene, site, d, crossed, n, callable, hmem, hresolve, hfound, ?_⟩
  rcases Nat.lt_or_eq_of_le hle with hlt | rfl
  · exact hlt
  · exact (hdiffers ⟨d, n, callable, hresolve, hfound⟩).elim

/-- A function that calls itself, with itself as an argument of the call. -/
def recursiveSource : Source :=
  .ofString "recursive" "[f a] if a < 1 : a else f(f(0)); [main t] f(t);"

/-- As long as calls find the functions that the check found for them, nothing in an accepted program fails but
calls that nest too deep: neither the evaluation of the outermost level, which is all that can keep the program
from being compiled, nor a call of the entry point. -/
theorem call_of_faithful (hsize : source.text.length < UInt64.size)
    (hcheck : typecheck.run (prepared source true none false) = (.ok true, c)) :
    (∀ c', compile.run (prepared source true none false) = (.ok none, c') →
      (c.globalsTrace .byName defaultDepth).Faithful c.elaboration →
      ∃ e, (c.globalsTrace .byName defaultDepth).result = .error e ∧ e.cause = .depthExceeded) ∧
    ∀ e c', compile.run (prepared source true none false) = (.ok (some e), c') →
      ∀ time, (c.trace .byName defaultDepth time).Faithful c.elaboration →
        (∃ x, e.call time = .ok x) ∨ ∃ error, e.call time = .error error ∧ error.cause = .depthExceeded := by
  have hc := accepted_prepared hsize hcheck
  have hentry := entry_prepared hsize hcheck
  constructor
  · intro c' hcompile hfaithful
    have hmeets := globalsTrace_meets True False (fun _ => True) hc nofun nofun
      defaultDepth fun e he => ⟨trivial, fun _ => hfaithful e he⟩
    rcases compile_none hcheck hcompile with ⟨e, herror⟩ | ⟨globals, hglobals, hnone⟩
    · rw [herror] at hmeets
      exact ⟨e, herror, hmeets.2 trivial⟩
    · rw [hglobals] at hmeets
      obtain ⟨f, _, hfound, _⟩ := hc.findEntry hmeets.2.1 hmeets.2.2
      rw [hnone] at hfound
      cases hfound
  · intro e c' hcompile time hfaithful
    obtain ⟨checked, hcheck', hresult⟩ := compile_some hcompile
    obtain ⟨_, rfl⟩ := Prod.mk.inj (hcheck.symm.trans hcheck')
    have hmeets := trace_meets True False (fun _ => True) hc hentry nofun nofun
      defaultDepth time fun e he => ⟨trivial, fun _ => hfaithful e he⟩
    rw [hresult time] at hmeets
    rw [EntryPoint.call]
    cases hvalue : e.callValue time with
    | ok v => exact .inl ⟨v.toNumber, rfl⟩
    | error error =>
      rw [hvalue] at hmeets
      exact .inr ⟨error, rfl, hmeets.2 trivial⟩

theorem call_of_faithful_recursion :
    ∃ e c', compile.run (prepared recursiveSource true none false) = (.ok (some e), c') ∧
      ((∃ x, e.call 1 = .ok x) ∨ ∃ error, e.call 1 = .error error ∧ error.cause = .depthExceeded) := by
  have hcheck := typecheck_afterCheck recursiveSource none (by decide +kernel)
  have hcompile : (compile.run (prepared recursiveSource true none false)).1.toOption.any Option.isSome =
      true := by decide +kernel
  have hfaithful : ((afterCheck recursiveSource none).trace .byName defaultDepth 1).Faithful
      (afterCheck recursiveSource none).elaboration := by decide +kernel
  obtain ⟨e, c', hcompile⟩ := exists_compile hcompile
  exact ⟨e, c', hcompile, (call_of_faithful (by decide) hcheck).2 e c' hcompile 1 hfaithful⟩

end Compilation
end ToneScript
