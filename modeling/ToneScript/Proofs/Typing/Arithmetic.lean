import ToneScript.Proofs.Syntax.Arguments
import ToneScript.Proofs.Typing.Records

/-! The check of arithmetic expressions. Their names refer to what is declared before them, so that no
function is checked on their account and nothing new is learned. -/
namespace ToneScript

namespace Signature

variable {s : Signature}

theorem indexOf?_eq (h : s.Usable) (name : Ident) :
    s.indexOf? name = s.parameters.findIdx? (·.1 == name) := by
  have hfst : s.parameters.map Prod.fst = s.type.args.map Prod.fst :=
    List.map_fst_zip (by simp [h.defaults])
  have hmap : s.parameters.findIdx? (·.1 == name) =
      (s.parameters.map Prod.fst).findIdx? (· == name) := by
    rw [List.findIdx?_map]
    rfl
  rw [hmap, hfst, List.findIdx?_map]
  rfl

theorem default_eq (h : s.Usable) (i : Nat) :
    s.defaults.getD i none = (s.parameters[i]?).bind Prod.snd := by
  have hsnd : s.parameters.map Prod.snd = s.defaults :=
    List.map_snd_zip (by simp [h.defaults])
  rw [← hsnd, List.getD_eq_getElem?_getD, List.getElem?_map]
  cases s.parameters[i]? <;> rfl

theorem Usable.length_parameters (h : s.Usable) : s.parameters.length = s.type.args.length := by
  rw [parameters, List.length_zip, h.defaults, List.length_map, Nat.min_self]

end Signature

namespace Check

variable {names : NameTable} {w : Elaboration} {scope : List BlockKey} {lo hi : Nat} {s s' : State}

theorem reportAt_dirty {pos? : Option Position} {e : TypeError} {u : Unit}
    (h : (reportAt names pos? e).run s = .ok (u, s')) : s'.journal.errorCount ≠ 0 := by
  cases h
  rw [Journal.errorCount_report_error _ rfl]
  exact Nat.succ_ne_zero _

/-- Where no error is left behind, none was reported. -/
theorem reported_ok {α : Type} {p : Prop} [Decidable p] {pos? : Option Position} {e : TypeError}
    {x : Step α} {a : α} (hx : Grows x) (hframed : s.table.Framed)
    (h : (if p then (do reportAt names pos? e; x) else x).run s = .ok (a, s'))
    (hclean : s'.journal.errorCount = 0) : ¬p ∧ x.run s = .ok (a, s') := by
  split at h
  · obtain ⟨⟨⟩, s₁, hreport, hrest⟩ := run_bind_ok h
    have hgrows := hx _ _ _ (by cases hreport; exact hframed) hrest
    exact absurd (Nat.le_zero.1 (hclean ▸ hgrows.errors)) (reportAt_dirty hreport)
  · exact ⟨by assumption, h⟩

theorem expect_ok {role : Role} {expected actual : Ty} {pos : Position} {u : Unit}
    (h : (expect names role expected actual pos).run s = .ok (u, s'))
    (hclean : s'.journal.errorCount = 0) :
    s' = s ∧ (actual.isDeterminate = true → actual = expected) := by
  unfold expect at h
  split at h
  · exact absurd hclean (reportAt_dirty h)
  · rename_i hfits
    cases h
    exact ⟨rfl, fun hdet => Classical.not_not.1 fun hne => hfits ⟨hdet, hne⟩⟩

theorem setType_same {pos : Position} {ty : Ty} {u : Unit}
    (h : (setType pos ty).run s = .ok (u, s')) : s.Same s' := by
  cases h
  exact ⟨rfl, rfl, rfl⟩

theorem lookup?_ok {frame? : Option Frame} {name : Ident} {pos : Position} {d? : Option Declaration}
    (hframe : s.table.frame = scope) (h : (lookup? frame? name pos).run s = .ok (d?, s')) :
    s.Calm s' ∧ d? = (s.table.resolve scope name pos).map Prod.fst := by
  unfold lookup? at h
  obtain ⟨s₀, s₁, hget, h₁⟩ := run_bind_ok h
  cases hget
  simp only at h₁
  rw [← SymbolTable.lookupBefore?_eq_resolve hframe]
  split at h₁
  · rename_i hnone
    cases h₁
    rw [hnone]
    exact ⟨.refl _, rfl⟩
  · rename_i d crossed hsome
    rw [hsome]
    split at h₁
    · split at h₁
      · obtain ⟨⟨⟩, s₂, hcapture, h₂⟩ := run_bind_ok h₁
        cases hcapture
        cases h₂
        refine ⟨⟨⟨rfl, ?_, rfl⟩, ?_⟩, rfl⟩
        · show Typing.functions (if _ then _ else _) = _
          split <;> rfl
        · show Typing.types (if _ then _ else _) = _
          split <;> rfl
      · cases h₁
        exact ⟨.refl _, rfl⟩
    · cases h₁
      exact ⟨.refl _, rfl⟩

theorem checkMissing_ok {callee : Ident} {pos : Position} {params : List (Ident × Ty)}
    {defaults : List (Option Number)} {bound : List Bool} {u : Unit} (hframed : s.table.Framed)
    (h : (checkMissing names callee pos params defaults bound).run s = .ok (u, s'))
    (hclean : s'.journal.errorCount = 0) :
    s' = s ∧ filled ((params.map Prod.fst).zip defaults) bound = true := by
  induction params generalizing defaults bound s with
  | nil =>
    cases h
    exact ⟨rfl, by simp [filled]⟩
  | cons param params ih =>
    cases defaults with
    | nil =>
      cases h
      exact ⟨rfl, by simp [filled]⟩
    | cons default? defaults =>
      cases bound with
      | nil =>
        cases h
        exact ⟨rfl, by simp [filled]⟩
      | cons b bounds =>
        unfold checkMissing at h
        obtain ⟨hbound, hrest⟩ := reported_ok (Grows.checkMissing names _ _ _ _ _) hframed h hclean
        obtain ⟨hsame, hfilled⟩ := ih hframed hrest
        refine ⟨hsame, ?_⟩
        rw [List.map_cons, List.zip_cons_cons, filled, hfilled, Bool.and_true]
        cases b <;> cases default? <;> simp_all

theorem toArgument_needsDefault {arg : SiteArgument} {tree : Argument} (h : arg.toArgument = .ok tree) :
    arg.needsDefault = true ↔ ∃ name op value pos, tree = .opAssign name op value pos := by
  have hmatches := (toArgument_ok h).1
  cases arg <;> cases tree <;> simp_all [Argument.Matches, SiteArgument.needsDefault]

/-- What is known of the form of an argument that was checked without an error. -/
theorem checkForm_ok {frame? : Option Frame} {callee : Ident} {signature : Signature}
    (husable : signature.Usable) {name : Ident} {i : Nat} {arg : Argument} {u : Unit}
    (hat : s.At w scope lo) (hclear : w.table.Clear scope lo hi)
    (hpos : ∀ other pos, arg = .shorthand other pos → pos.Between lo hi)
    (h : (checkForm names frame? callee signature name i arg).run s = .ok (u, s'))
    (hto : s'.LeadsTo w) :
    s.Calm s' ∧
    (∀ other op value pos, arg = .opAssign other op value pos →
      ((signature.parameters[i]?).bind Prod.snd).isSome = true ∧ op.isArithmetic = true) ∧
    ∀ other pos, arg = .shorthand other pos → ∃ d crossed,
      w.table.resolve scope name pos = some (d, crossed) ∧ d.ty? = some .number := by
  cases arg with
  | shorthand other pos =>
    have hgrows := Grows.checkForm names _ _ _ _ _ (.shorthand other pos) _ _ _ hat.framed h
    have hto₀ := hto.of_grows hgrows
    unfold checkForm at h
    obtain ⟨d?, s₁, hlookup, hrest⟩ := run_bind_ok h
    obtain ⟨hsame, hd?⟩ := lookup?_ok hat.frame hlookup
    cases hresolve : s.table.resolve scope name pos with
    | none =>
      rw [hd?, hresolve] at hrest
      exact absurd hto.clean (reportAt_dirty hrest)
    | some r =>
      obtain ⟨d, crossed⟩ := r
      obtain ⟨hfinal, htyped, _, _, _, hproper, _⟩ :=
        hat.resolve hto₀ hclear (hpos other pos rfl) hresolve
      rw [hd?, hresolve] at hrest
      simp only [Option.map_some] at hrest
      cases hty : d.ty? with
      | none => exact absurd hty htyped
      | some ty =>
        rw [hty] at hrest
        obtain ⟨hsame', hexpected⟩ := expect_ok hrest hto.clean
        have hdet : ty.isDeterminate = true := by
          rcases hproper.typed ty hty with rfl | rfl | rfl <;> rfl
        rw [hexpected hdet] at hty
        refine ⟨hsame'.symm ▸ hsame, nofun, fun _ _ heq => ?_⟩
        cases heq
        exact ⟨d, crossed, hfinal, hty⟩
  | opAssign other op value pos =>
    unfold checkForm at h
    have hpure : Grows (if (!op.isArithmetic) = true then
        reportAt names (some pos) (.cannotUpdate op) else pure ()) := by
      split
      · exact Grows.reportAt _ _ _
      · exact Grows.pure _
    obtain ⟨hdefault, hrest⟩ := reported_ok hpure hat.framed h hto.clean
    rw [Signature.default_eq husable, Option.isNone_iff_eq_none, ← ne_eq,
      ← Option.isSome_iff_ne_none] at hdefault
    split at hrest
    · exact absurd hto.clean (reportAt_dirty hrest)
    · rename_i hop
      cases hrest
      refine ⟨.refl _, fun _ _ _ _ heq => ?_, nofun⟩
      cases heq
      exact ⟨hdefault, by simpa using hop⟩
  | assign | positional =>
    cases h
    exact ⟨.refl _, nofun, nofun⟩

/-- What is known of an argument given by name that was checked without an error. -/
theorem checkNamed_ok {frame? : Option Frame} {callee : Ident} {signature : Signature}
    (husable : signature.Usable) {bound bound' : List Bool} {name : Ident} {arg : Argument}
    (hat : s.At w scope lo) (hclear : w.table.Clear scope lo hi)
    (hpos : ∀ other pos, arg = .shorthand other pos → pos.Between lo hi)
    (h : (checkNamed names frame? callee signature bound name arg).run s = .ok (bound', s'))
    (hto : s'.LeadsTo w) :
    s.Calm s' ∧ (∃ i, signature.parameters.findIdx? (·.1 == name) = some i ∧
      bound.getD i false = false ∧ bound' = bound.set i true ∧
      ∀ other op value pos, arg = .opAssign other op value pos →
        ((signature.parameters[i]?).bind Prod.snd).isSome = true ∧ op.isArithmetic = true) ∧
    ∀ other pos, arg = .shorthand other pos → ∃ d crossed,
      w.table.resolve scope name pos = some (d, crossed) ∧ d.ty? = some .number := by
  unfold checkNamed at h
  rw [Signature.indexOf?_eq husable] at h
  split at h
  · obtain ⟨⟨⟩, s₁, hreport, hrest⟩ := run_bind_ok h
    cases hrest
    exact absurd hto.clean (reportAt_dirty hreport)
  · rename_i i hindex
    obtain ⟨hfree, hrest⟩ := reported_ok
      (Grows.bind (Grows.checkForm names _ _ _ _ _ _) fun _ => Grows.pure _) hat.framed h hto.clean
    obtain ⟨⟨⟩, s₁, hform, hrest⟩ := run_bind_ok hrest
    cases hrest
    obtain ⟨hsame, hopAssign, hshorthand⟩ := checkForm_ok husable hat hclear hpos hform hto
    exact ⟨hsame, ⟨i, hindex, by simpa using hfree, rfl, hopAssign⟩, hshorthand⟩

/-- Arguments in order go to the parameters one by one. -/
theorem bindAll?_ordered (params : List (Ident × Option Number)) {args : List SiteArgument}
    (hargs : ∀ arg ∈ args, arg.name? = none) (k : Nat) :
    SiteArgument.bindAll? params .ordered (params.mapIdx fun j _ => decide (j < k)) k args =
      some (params.mapIdx fun j _ => decide (j < k + args.length)) := by
  induction args generalizing k with
  | nil => rfl
  | cons arg args ih =>
    have hpositional : arg.needsDefault = false := by
      have hname := hargs arg (by simp)
      cases arg <;> simp_all [SiteArgument.needsDefault, SiteArgument.name?]
    have hset : (params.mapIdx fun j _ => decide (j < k)).set k true =
        params.mapIdx fun j _ => decide (j < k + 1) := by
      apply List.ext_getElem?
      intro j
      rw [List.getElem?_set, List.getElem?_mapIdx, List.getElem?_mapIdx, List.length_mapIdx]
      by_cases hj : k = j
      · subst hj
        by_cases hk : k < params.length <;> simp [hk]
      · rw [if_neg hj]
        congr 1
        funext _
        exact decide_eq_decide.2 (by omega)
    unfold SiteArgument.bindAll?
    simp only [Option.bind_some, hpositional, Bool.false_and, Bool.false_eq_true, if_false]
    rw [hset, ih (fun arg harg => hargs arg (by simp [harg])), List.length_cons]
    congr 2
    funext j _
    exact decide_eq_decide.2 (by omega)

theorem variableType_ok {frame? : Option Frame} {name : Ident} {pos : Position} {ty : Ty}
    (hat : s.At w scope lo) (hclear : w.table.Clear scope lo hi) (hpos : pos.Between lo hi)
    (h : (variableType names frame? name pos).run s = .ok (ty, s')) (hto : s'.LeadsTo w) :
    s.Calm s' ∧ ∃ d crossed, w.table.resolve scope name pos = some (d, crossed) ∧
      d.ty? = some ty ∧ ty.IsKind := by
  have hgrows := Grows.variableType names frame? name pos _ _ _ hat.framed h
  have hto₀ := hto.of_grows hgrows
  unfold variableType at h
  obtain ⟨d?, s₁, hlookup, hrest⟩ := run_bind_ok h
  obtain ⟨hsame, hd?⟩ := lookup?_ok hat.frame hlookup
  cases hresolve : s.table.resolve scope name pos with
  | none =>
    rw [hd?, hresolve] at hrest
    obtain ⟨⟨⟩, s₂, hreport, hrest⟩ := run_bind_ok hrest
    cases hrest
    exact absurd hto.clean (reportAt_dirty hreport)
  | some r =>
    obtain ⟨d, crossed⟩ := r
    obtain ⟨hfinal, htyped, _, _, _, hproper, _⟩ := hat.resolve hto₀ hclear hpos hresolve
    rw [hd?, hresolve] at hrest
    simp only [Option.map_some] at hrest
    cases hty : d.ty? with
    | none => exact absurd hty htyped
    | some ty' =>
      rcases hproper.typed ty' hty with rfl | rfl | rfl
      · rw [hty] at hrest
        obtain ⟨⟨⟩, s₂, hreport, hrest⟩ := run_bind_ok hrest
        cases hrest
        exact absurd hto.clean (reportAt_dirty hreport)
      · rw [hty] at hrest
        cases hrest
        exact ⟨hsame, d, crossed, hfinal, hty, .inl rfl⟩
      · rw [hty] at hrest
        cases hrest
        exact ⟨hsame, d, crossed, hfinal, hty, .inr rfl⟩

theorem expect_pair_ok {role role' : Role} {expected actual expected' actual' : Ty}
    {pos pos' : Position} {ty ty' : Ty} (hframed : s.table.Framed)
    (h : (do
      expect names role expected actual pos
      expect names role' expected' actual' pos'
      return ty : Step Ty).run s = .ok (ty', s'))
    (hclean : s'.journal.errorCount = 0) : s' = s ∧ ty' = ty := by
  obtain ⟨⟨⟩, s₁, hfirst, hrest⟩ := run_bind_ok h
  obtain ⟨⟨⟩, s₂, hsecond, hrest⟩ := run_bind_ok hrest
  cases hrest
  have hg₁ := Grows.expect names _ _ _ _ _ _ _ hframed hfirst
  have hg₂ := Grows.expect names _ _ _ _ _ _ _ (hg₁.framed hframed) hsecond
  obtain ⟨heq₂, _⟩ := expect_ok hsecond hclean
  obtain ⟨heq₁, _⟩ := expect_ok hfirst (Nat.le_zero.1 (hclean ▸ hg₂.errors))
  exact ⟨heq₂.trans heq₁, rfl⟩

theorem binaryType_ok {op : Operator} {pos : Position} {left right : Ty} {leftPos rightPos : Position}
    {ty : Ty} (hframed : s.table.Framed)
    (h : (binaryType names op pos left right leftPos rightPos).run s = .ok (ty, s'))
    (hclean : s'.journal.errorCount = 0) :
    s' = s ∧ ty = if op.isArithmetic then .number else .boolean := by
  unfold binaryType at h
  split at h
  · exact expect_pair_ok hframed h hclean
  rename_i hop
  have harith : op.isArithmetic = false := by
    cases hop' : op.isArithmetic
    · rfl
    · simp [hop'] at hop
  rw [harith]
  split at h
  · split at h
    · obtain ⟨⟨⟩, s₁, hreport, hrest⟩ := run_bind_ok h
      cases hrest
      exact absurd hclean (reportAt_dirty hreport)
    · cases h
      exact ⟨rfl, rfl⟩
  · exact expect_pair_ok hframed h hclean

/-- The result of a check: the final type, unless the expression has none yet. -/
def Types (w : Elaboration) (scope : List BlockKey) (e : Expr) (ty : Ty) : Prop :=
  ty = (if e.isProvisional w scope then .indeterminate else e.ty w scope) ∧
    (e.isProvisional w scope = false → (e.ty w scope).IsKind)

theorem Types.determinate {e : Expr} {ty : Ty} (h : Types w scope e ty) :
    ty.isDeterminate = !e.isProvisional w scope := by
  obtain ⟨rfl, hkind⟩ := h
  cases hprov : e.isProvisional w scope with
  | true => rfl
  | false => rcases hkind hprov with heq | heq <;> simp [heq, Ty.isDeterminate]

/-- Where the result of a check is recorded, the expression is gone through. -/
theorem Types.marks {e : Expr} {ty : Ty} (h : Types w scope e ty) {u : Unit}
    (htype : (setType e.pos ty).run s = .ok (u, s')) : s.Marks w [.expr scope e] s' :=
  .setType rfl h.1.symm h.determinate htype

/-- Where a type is expected, it is there unless the expression has none yet. -/
theorem Types.expected {e : Expr} {ty expected : Ty} (h : Types w scope e ty)
    (hexpected : ty.isDeterminate = true → ty = expected) (hprov : e.isProvisional w scope = false) :
    e.ty w scope = expected := by
  have hdet := h.determinate
  rw [hprov] at hdet
  have hty := h.1
  rw [hprov] at hty
  rw [← hexpected hdet, hty]
  rfl

/-- The values of arguments that are written out are numbers, as far as their types are known. -/
def ArgumentsTyped (w : Elaboration) (scope : List BlockKey) (args : List Argument) : Prop :=
  ∀ arg ∈ args, ∀ value, arg.value? = some value → value.isProvisional w scope = false →
    value.ty w scope = .number

theorem ArgumentsTyped.cons {arg : Argument} {args : List Argument}
    (harg : ∀ value, arg.value? = some value → value.isProvisional w scope = false →
      value.ty w scope = .number)
    (hargs : ArgumentsTyped w scope args) : ArgumentsTyped w scope (arg :: args) := by
  intro arg' harg' value hvalue
  rcases List.mem_cons.1 harg' with rfl | hmem
  · exact harg value hvalue
  · exact hargs arg' hmem value hvalue

/-- An argument given by name gets the value of its parameter. -/
theorem bindAll?_named {params : List (Ident × Option Number)} {bound : List Bool} {i place : Nat}
    {arg : SiteArgument} {args : List SiteArgument} {name : Ident} (hname : arg.name? = some name)
    (hplace : params.findIdx? (·.1 == name) = some place) (hfree : bound.getD place false = false)
    (hdefault : arg.needsDefault = true → ((params[place]?).bind Prod.snd).isSome = true) :
    SiteArgument.bindAll? params .named bound i (arg :: args) =
      SiteArgument.bindAll? params .named (bound.set place true) (i + 1) args := by
  rw [SiteArgument.bindAll?.eq_def]
  simp only [hname]
  rw [hplace, Option.filter_some, hfree, Bool.not_false, if_pos rfl, Option.bind_some, if_neg]
  rw [Bool.and_eq_true, not_and, Option.isNone_iff_eq_none, ← ne_eq, ← Option.isSome_iff_ne_none]
  exact hdefault

/-- What is known of arguments given by name that were checked without an error. -/
structure NamedArguments (w : Elaboration) (p : List BlockKey) (params : List (Ident × Option Number))
    (bound bound' : List Bool) (sargs : List SiteArgument) (args : List Argument) : Prop where
  obeys : Argument.AllObey (.checked w) p args
  typed : ArgumentsTyped w p args
  shorthand : ∀ name pos, .shorthand name pos ∈ args → ∃ d crossed,
    w.table.resolve p name pos = some (d, crossed) ∧ d.ty? = some .number
  arithmetic : ∀ name op value pos, .opAssign name op value pos ∈ args → op.isArithmetic = true
  binds : ∀ i, SiteArgument.bindAll? params .named bound i sargs = some bound'

theorem NamedArguments.cons {p : List BlockKey} {params : List (Ident × Option Number)}
    {bound bound' : List Bool} {place : Nat} {sarg : SiteArgument} {sargs : List SiteArgument}
    {arg : Argument} {args : List Argument} {name : Ident} (htree : sarg.toArgument = .ok arg)
    (hname : arg.name? = some name) (hplace : params.findIdx? (·.1 == name) = some place)
    (hfree : bound.getD place false = false) (hobeys : arg.Obeys (.checked w) p)
    (htyped : ∀ value, arg.value? = some value → value.isProvisional w p = false →
      value.ty w p = .number)
    (hshorthand : ∀ other pos, arg = .shorthand other pos → ∃ d crossed,
      w.table.resolve p name pos = some (d, crossed) ∧ d.ty? = some .number)
    (hop : ∀ other op value pos, arg = .opAssign other op value pos →
      ((params[place]?).bind Prod.snd).isSome = true ∧ op.isArithmetic = true)
    (h : NamedArguments w p params (bound.set place true) bound' sargs args) :
    NamedArguments w p params bound bound' (sarg :: sargs) (arg :: args) where
  obeys := ⟨hobeys, h.obeys⟩
  typed := .cons htyped h.typed
  shorthand other pos hmem := by
    rcases List.mem_cons.1 hmem with heq | hmem
    · have hother := hshorthand other pos heq.symm
      rw [← heq] at hname
      cases hname
      exact hother
    · exact h.shorthand other pos hmem
  arithmetic other op value pos hmem := by
    rcases List.mem_cons.1 hmem with heq | hmem
    · exact (hop other op value pos heq.symm).2
    · exact h.arithmetic other op value pos hmem
  binds i := by
    rw [bindAll?_named (by rw [← toArgument_name? htree, hname]) hplace hfree, h.binds]
    intro hneeds
    obtain ⟨other, op, value, pos, heq⟩ := (toArgument_needsDefault htree).1 hneeds
    exact (hop other op value pos heq).1

/-- The parameters that have got their values, whichever list they are counted along. -/
theorem mapIdx_lt_eq {α β : Type} {as : List α} {bs : List β} (hlength : as.length = bs.length) (n : Nat) :
    (as.mapIdx fun j _ => decide (j < n)) = bs.mapIdx fun j _ => decide (j < n) := by
  apply List.ext_getElem
  · simp [hlength]
  · intro j _ _
    simp

/-- Arguments in order can be bound if there are not too many of them and the parameters that are left have defaults. -/
theorem fits_ordered {site : CallSite} (params : List (Ident × Option Number)) (hsite : site.style = .ordered)
    (hargs : ∀ arg ∈ site.args, arg.name? = none) : site.fits params = true ↔ site.args.length ≤ params.length ∧
      filled params (params.mapIdx fun i _ => decide (i < site.args.length)) = true := by
  have hnone : (params.mapIdx fun j _ => decide (j < 0)) = params.map fun _ => false :=
    List.ext_getElem (by simp) (by simp)
  have hbind := bindAll?_ordered params hargs 0
  rw [hnone, Nat.zero_add] at hbind
  rw [CallSite.fits, hsite, hbind, Option.any_some, Bool.and_eq_true, decide_eq_true_eq]
  exact and_congr_left' (forall_prop_of_true rfl)

theorem fits_named {site : CallSite} (params : List (Ident × Option Number)) (hsite : site.style = .named) :
    site.fits params = true ↔ ∃ bound,
      SiteArgument.bindAll? params .named (params.map fun _ => false) 0 site.args = some bound ∧
        filled params bound = true := by
  have hstyle : CallStyle.named = .ordered → site.args.length ≤ params.length := nofun
  rw [CallSite.fits, hsite, Bool.and_eq_true, decide_eq_true_eq, Option.any_eq_true, and_iff_right hstyle]

/-- What the check of a call knows of the function that is called. Inside the body of that function its signature
is not final. -/
structure Callee (w : Elaboration) (scope : List BlockKey) (callee : Ident) (pos : Position) (signature : Signature)
    (d : Declaration) (crossed : Nat) (final : Signature) : Prop where
  resolved : w.table.resolve scope callee pos = some (d, crossed)
  isFunction : d.isFunction = true
  usable : signature.Usable
  settles : w.signature? d = some final
  parameters : signature.parameters = final.parameters
  returns : if !d.builtin && scope.contains d.visibleFrom then signature.type.returns = .indeterminate
    else signature = final ∧ final.type.returns.IsKind

theorem calleeSignature?_ok {resolve : Resolver} (hresolve : resolve.Grows) {frame? : Option Frame}
    {callee : Ident} {pos : Position} {signature? : Option Signature} (hat : s.At w scope lo)
    (hclear : w.table.Clear scope lo hi) (hpos : pos.Between lo hi)
    (h : (calleeSignature? names resolve frame? callee pos).run s = .ok (signature?, s'))
    (hto : s'.LeadsTo w) :
    s.Calm s' ∧ ∃ signature d crossed final, signature? = some signature ∧
      Callee w scope callee pos signature d crossed final := by
  unfold calleeSignature? at h
  obtain ⟨d?, s₁, hlookup, hrest⟩ := run_bind_ok h
  have hg₁ := Grows.lookup? frame? callee pos _ _ _ hat.framed hlookup
  obtain ⟨hcalm, hd?⟩ := lookup?_ok hat.frame hlookup
  have hat₁ := hat.same hcalm.toSame
  cases hfound : s.table.resolve scope callee pos with
  | none =>
    rw [hd?, hfound] at hrest
    obtain ⟨⟨⟩, s₂, hreport, hrest⟩ := run_bind_ok hrest
    cases hrest
    exact absurd hto.clean (reportAt_dirty hreport)
  | some r =>
    obtain ⟨d, crossed⟩ := r
    rw [hd?, hfound] at hrest
    simp only [Option.map_some] at hrest
    split at hrest
    · rename_i hfunction
      have hg₂ := Grows.signatureOf? hresolve d _ _ _ hat₁.framed hrest
      have hto₁ := hto.of_grows hg₂
      obtain ⟨hfinal, _, key, hkey, hfind, hproper, hseen⟩ :=
        hat.resolve (hto₁.of_grows hg₁) hclear hpos hfound
      obtain ⟨heq, signature, final, hsignature, husable, hw, hparams, hreturns⟩ :=
        hat₁.signature hto₁ hkey hfind hproper hfunction hseen hrest
      subst heq
      exact ⟨hcalm, signature, d, crossed, final, hsignature, hfinal, hfunction, husable, hw, hparams, hreturns⟩
    · obtain ⟨⟨⟩, s₂, hreport, hrest⟩ := run_bind_ok hrest
      cases hrest
      exact absurd hto.clean (reportAt_dirty hreport)

section Calls

variable {site : CallSite} {signature : Signature} {count : Nat} {ordered : Step Unit}
  {named : Signature → List Bool → Step (List Bool)} {bound : List Bool}

/-- A call of a function without errors: its arguments are checked, and then its type is recorded. -/
theorem checkCall_ok {ty : Ty} (hfailed : signature.failed = false)
    (h : (checkCall names site count ordered named (some signature)).run s = .ok (ty, s')) :
    ∃ bound mid, (checkGiven names site count ordered named signature).run s = .ok (bound, mid) ∧
      (finishCall names site signature bound).run mid = .ok (ty, s') := by
  simp only [checkCall, hfailed, Bool.false_eq_true, if_false] at h
  exact run_bind_ok h

theorem checkGiven_ordered_ok (hsite : site.style = .ordered) (hordered : Grows ordered) (hframed : s.table.Framed)
    (h : (checkGiven names site count ordered named signature).run s = .ok (bound, s'))
    (hclean : s'.journal.errorCount = 0) :
    count ≤ signature.arity ∧ ordered.run s = .ok ((), s') ∧
      bound = (signature.type.args.map fun _ => false).mapIdx fun i _ => decide (i < count) := by
  unfold checkGiven at h
  rw [hsite] at h
  obtain ⟨harity, h⟩ := reported_ok (Grows.bind hordered fun _ => Grows.pure _) hframed h hclean
  obtain ⟨⟨⟩, mid, harguments, hrest⟩ := run_bind_ok h
  cases hrest
  exact ⟨Nat.not_lt.1 harity, harguments, rfl⟩

theorem checkGiven_named_ok (hsite : site.style = .named)
    (h : (checkGiven names site count ordered named signature).run s = .ok (bound, s')) :
    (named signature (signature.type.args.map fun _ => false)).run s = .ok (bound, s') := by
  unfold checkGiven at h
  rwa [hsite] at h

theorem finishCall_ok {ty : Ty} (hframed : s.table.Framed)
    (h : (finishCall names site signature bound).run s = .ok (ty, s')) (hclean : s'.journal.errorCount = 0) :
    (setType site.pos ty).run s = .ok ((), s') ∧ ty = signature.type.returns ∧
      filled signature.parameters bound = true := by
  obtain ⟨⟨⟩, s₁, hmissing, hrest⟩ := run_bind_ok h
  obtain ⟨⟨⟩, s₂, htype, hrest⟩ := run_bind_ok hrest
  cases hrest
  have hg := Grows.checkMissing names _ _ _ _ _ _ _ _ hframed hmissing
  have hg' := Grows.setType _ _ _ _ _ (hg.framed hframed) htype
  obtain ⟨heq, hfilled⟩ := checkMissing_ok hframed hmissing (Nat.le_zero.1 (hclean ▸ hg'.errors))
  rw [heq] at htype
  exact ⟨htype, rfl, hfilled⟩

variable {args : List Argument} {d : Declaration} {crossed : Nat} {final : Signature}

/-- The type of a call is what its function returns, and nothing where the call stands in the body of that function. -/
theorem Callee.types (h : Callee w scope site.callee site.pos signature d crossed final) :
    Types w scope (.call site args) signature.type.returns := by
  have hcallee? : w.callee? scope site = some d := by
    rw [Elaboration.callee?, h.resolved]
    rfl
  have hreturns := h.returns
  rw [Types, Expr.isProvisional, Expr.ty, Elaboration.isRecursive, Elaboration.returns, hcallee?,
    Option.any_some, Option.bind_some, h.settles]
  split at hreturns
  · rename_i hrecursive
    rw [if_pos hrecursive, hrecursive]
    exact ⟨hreturns, nofun⟩
  · rename_i hknown
    rw [if_neg hknown, hreturns.1]
    exact ⟨rfl, fun _ => hreturns.2⟩

/-- A call with arguments in order fits its function if they are not too many and the other parameters have defaults. -/
theorem Callee.obeys_ordered (h : Callee w scope site.callee site.pos signature d crossed final)
    (hsite : site.style = .ordered) (htrees : SiteArgument.toArguments site.args = .ok args)
    (hpositional : ∀ arg ∈ site.args, arg.name? = none) (harity : args.length ≤ signature.arity)
    (hfilled : filled signature.parameters
      ((signature.type.args.map fun _ => false).mapIdx fun i _ => decide (i < args.length)) = true)
    (htyped : ArgumentsTyped w scope args) (hobeys : Argument.AllObey (.checked w) scope args) :
    (Expr.call site args).Obeys (.checked w) scope := by
  have hlength := h.usable.length_parameters
  have hfits : site.fits final.parameters = true := by
    rw [← h.parameters, fits_ordered _ hsite hpositional, ← length_toArguments htrees, hlength]
    refine ⟨harity, (congrArg (filled _) (mapIdx_lt_eq ?_ _)).trans hfilled⟩
    rw [List.length_map, hlength]
  have hno (tree : Argument) (htree : tree ∈ args) : tree.name? = none := by
    obtain ⟨arg, harg, htree⟩ := mem_toArguments htrees htree
    rw [toArgument_name? htree, hpositional arg harg]
  refine ⟨⟨⟨d, crossed, final, h.resolved, h.isFunction, h.settles, hfits⟩, htyped, fun name pos hmem => ?_,
    fun name op value pos hmem => ?_⟩, hobeys⟩
  · cases hno _ hmem
  · cases hno _ hmem

/-- A call with arguments by name fits its function if they can be bound and the other parameters have defaults. -/
theorem Callee.obeys_named (h : Callee w scope site.callee site.pos signature d crossed final)
    (hsite : site.style = .named)
    (hnamed : NamedArguments w scope signature.parameters (signature.type.args.map fun _ => false) bound site.args args)
    (hfilled : filled signature.parameters bound = true) : (Expr.call site args).Obeys (.checked w) scope := by
  have hunbound : (signature.parameters.map fun _ => false) = signature.type.args.map fun _ => false := by
    rw [List.map_const', List.map_const', h.usable.length_parameters]
  have hfits : site.fits final.parameters = true := by
    rw [← h.parameters, fits_named _ hsite, hunbound]
    exact ⟨bound, hnamed.binds 0, hfilled⟩
  exact ⟨⟨⟨d, crossed, final, h.resolved, h.isFunction, h.settles, hfits⟩, hnamed.typed, hnamed.shorthand,
    hnamed.arithmetic⟩, hnamed.obeys⟩

end Calls

theorem var_ok {frame? : Option Frame} {name : Ident} {pos : Position} {ty : Ty} (hat : s.At w scope lo)
    (hclear : w.table.Clear scope lo hi) (hpos : pos.Between lo hi)
    (h : (do
      let ty ← variableType names frame? name pos
      setType pos ty
      return ty : Step Ty).run s = .ok (ty, s')) (hto : s'.LeadsTo w) :
    s.Same s' ∧ (Expr.var name pos).Obeys (.checked w) scope ∧ Types w scope (.var name pos) ty ∧
      s.Marks w ((Expr.var name pos).nodes scope) s' := by
  obtain ⟨ty', s₁, hvar, hrest⟩ := run_bind_ok h
  obtain ⟨⟨⟩, s₂, htype, hrest⟩ := run_bind_ok hrest
  cases hrest
  have hgrows := Grows.variableType names frame? name pos _ _ _ hat.framed hvar
  have htype' := Grows.setType pos ty _ _ _ (hgrows.framed hat.framed) htype
  obtain ⟨hcalm, d, crossed, hres, hty, hkind⟩ := variableType_ok hat hclear hpos hvar (hto.of_grows htype')
  have heq : (Expr.var name pos).ty w scope = ty := by
    rw [Expr.ty, hres, Option.bind_some, hty]
    rfl
  have htypes : Types w scope (.var name pos) ty := ⟨heq.symm, fun _ => heq ▸ hkind⟩
  exact ⟨hcalm.trans (setType_same htype), ⟨d, crossed, ty, hres, hty, hkind⟩, htypes,
    .after hcalm (htypes.marks htype)⟩

mutual

theorem arithmetic_ok {resolve : Resolver} (hresolve : resolve.Grows) (frame? : Option Frame)
    (e : Expr)
    (hnamed : e.Obeys (.named w.constants w.table lo hi) scope)
    (hclear : w.table.Clear scope lo hi) {s s' : State} (hat : s.At w scope lo) {ty : Ty}
    (h : (expr names resolve frame? e).run s = .ok (ty, s')) (hto : s'.LeadsTo w) :
    s.Same s' ∧ e.Obeys (.checked w) scope ∧ Types w scope e ty ∧ s.Marks w (e.nodes scope) s' := by
  cases e with
  | number value pos =>
    rw [expr] at h
    obtain ⟨⟨⟩, s₁, htype, hrest⟩ := run_bind_ok h
    cases hrest
    have htypes : Types w scope (.number value pos) .number := ⟨rfl, fun _ => .inl rfl⟩
    exact ⟨setType_same htype, trivial, htypes, htypes.marks htype⟩
  | boolean value pos =>
    rw [expr] at h
    obtain ⟨⟨⟩, s₁, htype, hrest⟩ := run_bind_ok h
    cases hrest
    have htypes : Types w scope (.boolean value pos) .boolean := ⟨rfl, fun _ => .inr rfl⟩
    exact ⟨setType_same htype, trivial, htypes, htypes.marks htype⟩
  | var name pos =>
    rw [expr] at h
    exact var_ok hat hclear hnamed h hto
  | prefixed op operand pos =>
    rw [expr] at h
    obtain ⟨actual, s₁, hoperand, hrest⟩ := run_bind_ok h
    obtain ⟨⟨⟩, s₂, hexpect, hrest⟩ := run_bind_ok hrest
    obtain ⟨⟨⟩, s₃, htype, hrest⟩ := run_bind_ok hrest
    cases hrest
    have hg₁ := Grows.expr names hresolve frame? operand _ _ _ hat.framed hoperand
    have hf₁ := hg₁.framed hat.framed
    have hg₂ := Grows.expect names _ _ _ _ _ _ _ hf₁ hexpect
    have hg₃ := Grows.setType pos _ _ _ _ (hg₂.framed hf₁) htype
    have hto₂ := hto.of_grows hg₃
    obtain ⟨hsame, hobeys, _, hmarks⟩ :=
      arithmetic_ok hresolve frame? operand hnamed hclear hat hoperand (hto₂.of_grows hg₂)
    obtain ⟨heq, _⟩ := expect_ok hexpect hto₂.clean
    rw [heq] at htype
    have htypes : Types w scope (.prefixed op operand pos) (if op = .not then .boolean else .number) := by
      refine ⟨rfl, fun _ => ?_⟩
      rw [Expr.ty]
      split
      · exact .inr rfl
      · exact .inl rfl
    exact ⟨hsame.trans (setType_same htype), hobeys, htypes, hmarks.trans (htypes.marks htype)⟩
  | binary op left right pos =>
    rw [expr] at h
    obtain ⟨leftType, s₁, hleft, hrest⟩ := run_bind_ok h
    obtain ⟨rightType, s₂, hright, hrest⟩ := run_bind_ok hrest
    obtain ⟨ty', s₃, hbinary, hrest⟩ := run_bind_ok hrest
    obtain ⟨⟨⟩, s₄, htype, hrest⟩ := run_bind_ok hrest
    cases hrest
    have hg₁ := Grows.expr names hresolve frame? left _ _ _ hat.framed hleft
    have hf₁ := hg₁.framed hat.framed
    have hg₂ := Grows.expr names hresolve frame? right _ _ _ hf₁ hright
    have hf₂ := hg₂.framed hf₁
    have hg₃ := Grows.binaryType names op pos leftType rightType left.pos right.pos _ _ _ hf₂ hbinary
    have hg₄ := Grows.setType pos ty _ _ _ (hg₃.framed hf₂) htype
    have hto₃ := hto.of_grows hg₄
    have hto₂ := hto₃.of_grows hg₃
    obtain ⟨hsame₁, hobeys₁, _, hmarks₁⟩ := arithmetic_ok hresolve frame? left hnamed.1 hclear hat hleft
      (hto₂.of_grows hg₂)
    obtain ⟨hsame₂, hobeys₂, _, hmarks₂⟩ := arithmetic_ok hresolve frame? right hnamed.2 hclear
      (hat.same hsame₁) hright hto₂
    obtain ⟨heq, hty⟩ := binaryType_ok hf₂ hbinary hto₃.clean
    rw [heq] at htype
    have htypes : Types w scope (.binary op left right pos) ty := by
      refine ⟨hty, fun _ => ?_⟩
      rw [Expr.ty]
      split
      · exact .inl rfl
      · exact .inr rfl
    exact ⟨(hsame₁.trans hsame₂).trans (setType_same htype), ⟨hobeys₁, hobeys₂⟩, htypes,
      (hmarks₁.trans hmarks₂).trans (htypes.marks htype)⟩
  | block key items pos => exact hnamed.1.elim
  | conditional c t e pos => exact hnamed.1.elim
  | call site args =>
    obtain ⟨⟨hpos, htrees, hstyle, hshort⟩, hargs⟩ := hnamed
    rw [expr_call_eq] at h
    obtain ⟨signature?, s₁, hcallee, hrest⟩ := run_bind_ok h
    have hg₁ := Grows.calleeSignature? names hresolve frame? site.callee site.pos _ _ _ hat.framed hcallee
    have hf₁ := hg₁.framed hat.framed
    have hordered := Grows.orderedArguments names hresolve frame? site.callee 0 args
    have hbyName (signature : Signature) (bound : List Bool) :=
      Grows.namedArguments names hresolve frame? site.callee signature bound args
    have hto₁ : s₁.LeadsTo w :=
      hto.of_grows (Grows.law.checkCall names site args.length hordered hbyName signature? _ _ _ hf₁ hrest)
    obtain ⟨hcalm, signature, d, crossed, final, rfl, hfound⟩ :=
      calleeSignature?_ok hresolve hat hclear hpos hcallee hto₁
    have hat₁ := hat.same hcalm.toSame
    have htypes : Types w scope (.call site args) signature.type.returns := hfound.types
    obtain ⟨bound, s₂, hgiven, hfinish⟩ := checkCall_ok hfound.usable.failed hrest
    have hg₂ := Grows.law.checkGiven names site args.length hordered hbyName signature _ _ _ hf₁ hgiven
    have hf₂ := hg₂.framed hf₁
    have hto₂ := hto.of_grows (Grows.law.finishCall names _ _ _ _ _ _ hf₂ hfinish)
    obtain ⟨htype, rfl, hfilled⟩ := finishCall_ok hf₂ hfinish hto.clean
    cases hsite : site.style with
    | ordered =>
      obtain ⟨harity, harguments, rfl⟩ := checkGiven_ordered_ok hsite hordered hf₁ hgiven hto₂.clean
      obtain ⟨hsame, hobeys, htyped, hmarks⟩ := orderedArguments_ok hresolve frame? site.callee 0 args hargs
        hclear hat₁ harguments hto₂
      have hpositional : ∀ arg ∈ site.args, arg.name? = none := fun arg harg => (hstyle arg harg).2 hsite
      exact ⟨(hcalm.trans hsame).trans (setType_same htype),
        hfound.obeys_ordered hsite htrees hpositional harity hfilled htyped hobeys, htypes,
        .after hcalm (hmarks.trans (htypes.marks htype))⟩
    | named =>
      have hnames : ∀ arg ∈ site.args, arg.name? ≠ none := by
        intro arg harg hname
        cases hsite.symm.trans ((hstyle arg harg).1 hname)
      have hpositions (name : Ident) (pos : Position) (hmem : .shorthand name pos ∈ args) :
          pos.Between lo hi := by
        obtain ⟨arg, harg, htree⟩ := mem_toArguments htrees hmem
        obtain ⟨value, rfl⟩ := toArgument_shorthand htree
        exact (hshort name value pos harg).1
      obtain ⟨hsame, hnamed, hmarks⟩ := namedArguments_ok hresolve frame? site.callee hfound.usable args htrees
        hnames hpositions hargs hclear hat₁ (checkGiven_named_ok hsite hgiven) hto₂
      exact ⟨(hcalm.trans hsame).trans (setType_same htype), hfound.obeys_named hsite hnamed hfilled, htypes,
        .after hcalm (hmarks.trans (htypes.marks htype))⟩
  | span compiled tree =>
    rw [expr] at h
    exact arithmetic_ok hresolve frame? tree hnamed hclear hat h hto

theorem orderedArguments_ok {resolve : Resolver} (hresolve : resolve.Grows) (frame? : Option Frame)
    (callee : Ident) (i : Nat) (args : List Argument)
    (hnamed : Argument.AllObey (.named w.constants w.table lo hi) scope args)
    (hclear : w.table.Clear scope lo hi) {s s' : State} (hat : s.At w scope lo) {u : Unit}
    (h : (orderedArguments names resolve frame? callee i args).run s = .ok (u, s'))
    (hto : s'.LeadsTo w) :
    s.Same s' ∧ Argument.AllObey (.checked w) scope args ∧ ArgumentsTyped w scope args ∧
      s.Marks w (Argument.nodesOfAll scope args) s' := by
  cases args with
  | nil =>
    cases h
    exact ⟨.refl _, trivial, by simp [ArgumentsTyped], .refl _⟩
  | cons arg args =>
    obtain ⟨hfirst, hrest⟩ := hnamed
    cases arg with
    | assign _ value _ | opAssign _ _ value _ | positional value _ =>
      rw [orderedArguments] at h
      obtain ⟨ty, s₁, hvalue, hargs⟩ := run_bind_ok h
      obtain ⟨⟨⟩, s₂, hexpect, hargs⟩ := run_bind_ok hargs
      have hg₁ := Grows.expr names hresolve frame? value _ _ _ hat.framed hvalue
      have hf₁ := hg₁.framed hat.framed
      have hg₂ := Grows.expect names _ _ _ _ _ _ _ hf₁ hexpect
      have hg₃ := Grows.orderedArguments names hresolve frame? callee (i + 1) args _ _ _
        (hg₂.framed hf₁) hargs
      have hto₂ := hto.of_grows hg₃
      obtain ⟨hsame₁, hobeys₁, htypes, hmarks₁⟩ := arithmetic_ok hresolve frame? value hfirst hclear hat
        hvalue (hto₂.of_grows hg₂)
      obtain ⟨heq, hexpected⟩ := expect_ok hexpect hto₂.clean
      rw [heq] at hargs
      obtain ⟨hsame₂, hobeys₂, htyped, hmarks₂⟩ := orderedArguments_ok hresolve frame? callee (i + 1) args
        hrest hclear (hat.same hsame₁) hargs hto
      refine ⟨hsame₁.trans hsame₂, ⟨hobeys₁, hobeys₂⟩, .cons (fun v hv hprov => ?_) htyped,
        hmarks₁.trans hmarks₂⟩
      cases hv
      exact htypes.expected hexpected hprov
    | shorthand name pos =>
      rw [orderedArguments] at h
      obtain ⟨hsame, hobeys, htyped, hmarks⟩ := orderedArguments_ok hresolve frame? callee (i + 1) args
        hrest hclear hat h hto
      exact ⟨hsame, ⟨trivial, hobeys⟩, .cons (fun v hv => by cases hv) htyped, hmarks⟩

theorem namedArguments_ok {resolve : Resolver} (hresolve : resolve.Grows) (frame? : Option Frame)
    (callee : Ident) {signature : Signature} (husable : signature.Usable)
    {bound bound' : List Bool} (args : List Argument) {sargs : List SiteArgument}
    (htrees : SiteArgument.toArguments sargs = .ok args) (hnames : ∀ arg ∈ sargs, arg.name? ≠ none)
    (hpos : ∀ name pos, .shorthand name pos ∈ args → pos.Between lo hi)
    (hnamed : Argument.AllObey (.named w.constants w.table lo hi) scope args)
    (hclear : w.table.Clear scope lo hi) {s s' : State} (hat : s.At w scope lo)
    (h : (namedArguments names resolve frame? callee signature bound args).run s = .ok (bound', s'))
    (hto : s'.LeadsTo w) :
    s.Same s' ∧ NamedArguments w scope signature.parameters bound bound' sargs args ∧
      s.Marks w (Argument.nodesOfAll scope args) s' := by
  cases args with
  | nil =>
    rw [toArguments_nil htrees]
    cases h
    exact ⟨.refl _, ⟨trivial, by simp [ArgumentsTyped], by simp, by simp, fun _ => rfl⟩, .refl _⟩
  | cons arg args =>
    obtain ⟨sarg, sargs', rfl, harg, htrees'⟩ := toArguments_eq_cons htrees
    obtain ⟨hfirst, hrest⟩ := hnamed
    have hnames' : ∀ arg ∈ sargs', arg.name? ≠ none := fun arg harg => hnames arg (by simp [harg])
    have hpos' (name : Ident) (pos : Position) (hmem : .shorthand name pos ∈ args) :
        pos.Between lo hi :=
      hpos name pos (by simp [hmem])
    cases arg with
    | assign name value pos | opAssign name op value pos =>
      rw [namedArguments] at h
      obtain ⟨ty, s₁, hvalue, hargs⟩ := run_bind_ok h
      obtain ⟨⟨⟩, s₂, hexpect, hargs⟩ := run_bind_ok hargs
      obtain ⟨bound₁, s₃, hcheck, hargs⟩ := run_bind_ok hargs
      have hg₁ := Grows.expr names hresolve frame? value _ _ _ hat.framed hvalue
      have hf₁ := hg₁.framed hat.framed
      have hg₂ := Grows.expect names _ _ _ _ _ _ _ hf₁ hexpect
      have hf₂ := hg₂.framed hf₁
      have hg₃ := Grows.checkNamed names _ _ _ _ _ _ _ _ _ hf₂ hcheck
      have hg₄ := Grows.namedArguments names hresolve frame? callee signature bound₁ args _ _ _
        (hg₃.framed hf₂) hargs
      have hto₃ := hto.of_grows hg₄
      have hto₂ := hto₃.of_grows hg₃
      obtain ⟨hsame₁, hobeys, htypes, hmarks₁⟩ := arithmetic_ok hresolve frame? value hfirst hclear hat
        hvalue (hto₂.of_grows hg₂)
      obtain ⟨heq, hexpected⟩ := expect_ok hexpect hto₂.clean
      rw [heq] at hcheck
      obtain ⟨hcalm, ⟨place, hplace, hfree, rfl, hop⟩, hshorthand⟩ :=
        checkNamed_ok husable (hat.same hsame₁) hclear (by simp) hcheck hto₃
      have hsame₂ := hsame₁.trans hcalm.toSame
      obtain ⟨hsame₃, hnamed, hmarks₂⟩ := namedArguments_ok hresolve frame? callee husable args htrees'
        hnames' hpos' hrest hclear (hat.same hsame₂) hargs hto
      refine ⟨hsame₂.trans hsame₃, .cons harg rfl hplace hfree hobeys ?_ hshorthand hop hnamed,
        hmarks₁.trans (.after hcalm hmarks₂)⟩
      intro v hv hprov
      cases hv
      exact htypes.expected hexpected hprov
    | shorthand name pos =>
      rw [namedArguments] at h
      obtain ⟨bound₁, s₁, hcheck, hargs⟩ := run_bind_ok h
      have hg₁ := Grows.checkNamed names _ _ _ _ _ _ _ _ _ hat.framed hcheck
      have hg₂ := Grows.namedArguments names hresolve frame? callee signature bound₁ args _ _ _
        (hg₁.framed hat.framed) hargs
      have hpos₁ (other : Ident) (pos' : Position)
          (heq : Argument.shorthand name pos = .shorthand other pos') : pos'.Between lo hi :=
        hpos other pos' (by simp [heq])
      obtain ⟨hcalm, ⟨place, hplace, hfree, rfl, hop⟩, hshorthand⟩ :=
        checkNamed_ok husable hat hclear hpos₁ hcheck (hto.of_grows hg₂)
      obtain ⟨hsame, hnamed, hmarks⟩ := namedArguments_ok hresolve frame? callee husable args htrees'
        hnames' hpos' hrest hclear (hat.same hcalm.toSame) hargs hto
      exact ⟨hcalm.trans hsame, .cons harg rfl hplace hfree trivial (by simp [Argument.value?])
        hshorthand hop hnamed, .after hcalm hmarks⟩
    | positional value pos =>
      have hname := toArgument_name? harg
      exact absurd hname.symm (hnames sarg (by simp))

end

end Check
end ToneScript
