import ToneScript.Compilation.EntryPoint
import ToneScript.Proofs.Scope.Growth
import ToneScript.Proofs.Syntax.Journal

/-! What a compilation starts from: the constants and functions that every program has, and the table that
declares them. -/
namespace ToneScript

/-- The type of a value. -/
def Value.ty : Value → Ty
  | .number _ => .number
  | .boolean _ => .boolean

theorem Value.ty_isKind (v : Value) : v.ty.IsKind := by
  cases v
  · exact .inl rfl
  · exact .inr rfl

/-- A table in which exactly the given constants and functions are there from the start. -/
structure SymbolTable.Native (t : SymbolTable) (constants : List (Ident × Value))
    (intrinsics : List IntrinsicEntry) : Prop where
  function : ∀ name d, t.find? rootBlock name = some d → d.builtin = true → d.isFunction = true →
    ∃ i ∈ intrinsics, i.name = name
  intrinsic : ∀ i ∈ intrinsics, ∃ d, t.find? rootBlock i.name = some d ∧ d.builtin = true ∧
    d.isFunction = true
  constant : ∀ name v, constants.lookup name = some v → ∃ d, t.find? rootBlock name = some d ∧
    d.builtin = true ∧ d.ty? = some v.ty
  value : ∀ name d, t.find? rootBlock name = some d → d.builtin = true → d.isFunction = false →
    ∃ v, constants.lookup name = some v

/-- What is there from the start stays so, and nothing is added to it. -/
theorem SymbolTable.Native.later {t t' : SymbolTable} {constants : List (Ident × Value)}
    {intrinsics : List IntrinsicEntry} (h : t.Native constants intrinsics) {hi : Nat}
    (hlater : Later hi t t') : t'.Native constants intrinsics := by
  have horigin {name : Ident} {d : Declaration} (hd : t'.find? rootBlock name = some d)
      (hbuiltin : d.builtin = true) : ∃ d', t.find? rootBlock name = some d' ∧ d'.Becomes d :=
    hlater.find?_of_lt hd (.inl hbuiltin)
  constructor
  case function =>
    intro name d hd hbuiltin hfunction
    obtain ⟨d', hd', hbecomes⟩ := horigin hd hbuiltin
    exact h.function name d' hd' (hbecomes.builtin_eq ▸ hbuiltin) (hbecomes.isFunction_eq ▸ hfunction)
  case intrinsic =>
    intro i hi
    obtain ⟨d, hd, hbuiltin, hfunction⟩ := h.intrinsic i hi
    obtain ⟨d', hd', hbecomes⟩ := hlater.kept _ _ _ hd
    exact ⟨d', hd', by rw [hbecomes.builtin_eq, hbuiltin], by rw [hbecomes.isFunction_eq, hfunction]⟩
  case constant =>
    intro name v hv
    obtain ⟨d, hd, hbuiltin, hty⟩ := h.constant name v hv
    obtain ⟨d', hd', hbecomes⟩ := hlater.kept _ _ _ hd
    rw [hbecomes.eq_of_typed (by simp [hty])] at hd'
    exact ⟨d, hd', hbuiltin, hty⟩
  case value =>
    intro name d hd hbuiltin hvariable
    obtain ⟨d', hd', hbecomes⟩ := horigin hd hbuiltin
    exact h.value name d' hd' (hbecomes.builtin_eq ▸ hbuiltin) (hbecomes.isFunction_eq ▸ hvariable)

namespace Compilation

/-- The same compilation of another source. -/
def onSource (c : Compilation) (source : Source) (strict : Bool) : Compilation :=
  { c with source, strict }

/-- A compilation that is set up and about to start: with or without the constants and functions that every
program has, and perhaps with an entry point other than the usual one. -/
def prepared (source : Source) (intrinsics : Bool) (main? : Option (String × FunctionType))
    (strict : Bool) : Compilation :=
  ((do
    if intrinsics then defineIntrinsics
    if let some (name, type) := main? then defineEntryPoint name type : Step Unit).run
      ((ofSource source).onSource source strict)).2

variable {α β : Type}

/-- A step that goes the same way whatever the source. -/
def Blind (x : Step α) : Prop :=
  ∀ c source strict, x.run (c.onSource source strict) =
    ((x.run c).1, (x.run c).2.onSource source strict)

namespace Blind

theorem pure (a : α) : Blind (pure a : Step α) :=
  fun _ _ _ => rfl

theorem bind {x : Step α} {f : α → Step β} (hx : Blind x) (hf : ∀ a, Blind (f a)) :
    Blind (x >>= f) := by
  intro c source strict
  rw [run_bind, run_bind, hx c source strict]
  rcases hrun : x.run c with ⟨_ | a, c'⟩
  · rfl
  · exact hf a c' source strict

theorem modify {f : Compilation → Compilation}
    (hf : ∀ c source strict, f (c.onSource source strict) = (f c).onSource source strict) :
    Blind (modify f : Step Unit) := by
  intro c source strict
  show (_, f (c.onSource source strict)) = _
  rw [hf]
  rfl

/-- A step that looks at what has nothing to do with the source. -/
theorem inspect {f : Compilation → Step β}
    (hsame : ∀ c source strict, f (c.onSource source strict) = f c) (hf : ∀ c, Blind (f c)) :
    Blind (get >>= f) := by
  intro c source strict
  show (f (c.onSource source strict)).run (c.onSource source strict) = _
  rw [hsame]
  exact hf c c source strict

theorem forIn {xs : List α} {f : α → PUnit → Step (ForInStep PUnit)} (hf : ∀ a, Blind (f a ⟨⟩)) :
    Blind (forIn xs ⟨⟩ f) := by
  induction xs with
  | nil => exact pure _
  | cons x xs ih =>
    rw [List.forIn_cons]
    refine bind (hf x) fun next => ?_
    cases next with
    | done => exact pure _
    | yield => exact ih

theorem intern (name : String) : Blind (intern name) :=
  fun _ _ _ => rfl

theorem mapM {xs : List α} {f : α → Step β} (hf : ∀ a, Blind (f a)) : Blind (xs.mapM f) := by
  induction xs with
  | nil => exact pure _
  | cons x xs ih =>
    rw [List.mapM_cons]
    exact bind (hf x) fun _ => bind ih fun _ => pure _

theorem note (level : Log.Level) (message : String) : Blind (note level message) :=
  modify fun _ _ _ => rfl

theorem requireFresh (what : String) : Blind (requireFresh what) := by
  rintro ⟨_, _, _, _, _, _, _, _, stage, _⟩ source strict
  cases stage <;> rfl

theorem defineConstant (name : String) (v : Value) : Blind (defineConstant name v) := by
  unfold Compilation.defineConstant
  exact bind (intern name) fun id => modify fun _ _ _ => rfl

theorem defineFunction (f : Intrinsic) : Blind (defineFunction f) := by
  unfold Compilation.defineFunction
  exact bind (intern _) fun id => bind (mapM intern) fun params => modify fun _ _ _ => rfl

theorem defineIntrinsics : Blind defineIntrinsics := by
  unfold Compilation.defineIntrinsics
  refine bind (requireFresh _) fun _ => ?_
  refine bind (forIn fun entry => bind (defineConstant _ _) fun _ => pure _) fun _ => ?_
  refine bind (forIn fun i => bind (defineFunction _) fun _ => pure _) fun _ => ?_
  exact inspect (fun _ _ _ => rfl) fun _ => note _ _

theorem defineEntryPoint (name : String) (type : FunctionType) : Blind (defineEntryPoint name type) := by
  unfold Compilation.defineEntryPoint
  exact bind (requireFresh _) fun _ => bind (intern _) fun _ => modify fun _ _ _ => rfl

end Blind

/-- What is set up for a source is set up in the same way for every other. -/
theorem prepared_onSource (source : Source) (intrinsics : Bool) (main? : Option (String × FunctionType))
    (strict : Bool) :
    prepared source intrinsics main? strict = (prepared default intrinsics main? false).onSource source strict := by
  have hmain : Blind (if let some (name, type) := main? then defineEntryPoint name type else pure () : Step Unit) := by
    cases main? with
    | none => exact .pure ()
    | some main => exact .defineEntryPoint main.1 main.2
  have hall : Blind (do
      if intrinsics then defineIntrinsics
      if let some (name, type) := main? then defineEntryPoint name type : Step Unit) := by
    cases intrinsics with
    | false => exact hmain
    | true => exact .bind .defineIntrinsics fun _ => hmain
  exact congrArg Prod.snd (hall (ofSource default) source strict)

/-- A compilation that knows the constants and functions that every program has. -/
def native : Compilation :=
  (defineIntrinsics.run (ofSource default)).2

theorem native_fresh : native.stage = .fresh := by
  have hfresh : native.stage.ctorIdx = 0 := by decide +kernel
  cases hnative : native.stage with
  | fresh => rfl
  | lexed | parsed | checked => simp [hnative, Stage.ctorIdx] at hfresh

/-- What every program has from the start is defined without a defect, and then the entry point is. -/
theorem prepared_defined (main? : Option (String × FunctionType)) :
    prepared default true main? false =
      match main? with
      | none => native
      | some (name, type) =>
        { native with names := (native.names.intern name).2, entry := ((native.names.intern name).1, type) } := by
  have hok : (defineIntrinsics.run (ofSource default)).1.isOk = true := by decide +kernel
  have hrun : defineIntrinsics.run (ofSource default) = (.ok (), native) := by
    unfold native
    generalize defineIntrinsics.run (ofSource default) = r at hok ⊢
    obtain ⟨d | ⟨⟨⟩⟩, c⟩ := r
    · cases hok
    · rfl
  have hsource : (ofSource default).onSource default false = ofSource default := rfl
  unfold prepared
  rw [hsource, if_pos rfl, run_bind, hrun]
  have hfresh := native_fresh
  generalize native = c at hfresh ⊢
  obtain ⟨_, _, _, _, _, _, _, _, stage, _⟩ := c
  cases hfresh
  cases main? <;> rfl

theorem prepared_native (source : Source) (main? : Option (String × FunctionType)) (strict : Bool) :
    (prepared source true main? strict).table = native.table ∧
      (prepared source true main? strict).constants = native.constants ∧
      (prepared source true main? strict).intrinsics = native.intrinsics ∧
      (prepared source true main? strict).source = source ∧
      (prepared source true main? strict).stage = native.stage ∧
      (main? = none → (prepared source true main? strict).entry = native.entry) := by
  rw [prepared_onSource, prepared_defined]
  generalize native = c
  cases main? with
  | none => exact ⟨rfl, rfl, rfl, rfl, rfl, fun _ => rfl⟩
  | some main => exact ⟨rfl, rfl, rfl, rfl, rfl, nofun⟩

theorem prepared_bare (source : Source) (main? : Option (String × FunctionType)) (strict : Bool) :
    (prepared source false main? strict).table = {} ∧
      (prepared source false main? strict).constants = [] ∧
      (prepared source false main? strict).intrinsics = [] ∧
      (prepared source false main? strict).source = source ∧
      (prepared source false main? strict).stage = .fresh := by
  cases main? <;> exact ⟨rfl, rfl, rfl, rfl, rfl⟩

/-- A compilation that is set up has not begun. -/
theorem prepared_fresh (source : Source) (intrinsics : Bool) (main? : Option (String × FunctionType))
    (strict : Bool) : (prepared source intrinsics main? strict).source = source ∧
      (prepared source intrinsics main? strict).stage = .fresh := by
  cases intrinsics with
  | false =>
    obtain ⟨_, _, _, hsource, hstage⟩ := prepared_bare source main? strict
    exact ⟨hsource, hstage⟩
  | true =>
    obtain ⟨_, _, _, hsource, hstage, _⟩ := prepared_native source main? strict
    exact ⟨hsource, hstage.trans native_fresh⟩

theorem prepared_strict (source : Source) (intrinsics : Bool) (main? : Option (String × FunctionType))
    (strict : Bool) : (prepared source intrinsics main? strict).strict = strict := by
  rw [prepared_onSource]
  rfl

/-- Unless something else is said, the entry point has one parameter. -/
theorem prepared_arity (source : Source) (intrinsics : Bool) (main? : Option (String × FunctionType)) (strict : Bool) :
    (prepared source intrinsics main? strict).entry.2.args.length = main?.elim 1 fun main => main.2.args.length := by
  rw [prepared_onSource]
  cases intrinsics with
  | false => cases main? <;> rfl
  | true =>
    have hnative : native.entry.2.args.length = 1 := by decide +kernel
    rw [prepared_defined]
    generalize native = c at hnative ⊢
    cases main? with
    | none => exact hnative
    | some main => rfl

/-- Whether all declarations of a table are those of constants and functions, and all of these are
declared. -/
def isNative (c : Compilation) : Bool :=
  (c.table.declarations.all fun entry => entry.1 == rootBlock && entry.2.builtin &&
    entry.2.block == rootBlock &&
    ((entry.2.ty? == some (.function entry.2.name) && c.intrinsics.any (·.name == entry.2.name)) ||
      c.constants.any fun constant => constant.1 == entry.2.name && entry.2.ty? == some constant.2.ty)) &&
  (c.intrinsics.all fun i => (c.table.find? rootBlock i.name).any fun d => d.builtin && d.isFunction) &&
  (c.constants.all fun constant => (c.table.find? rootBlock constant.1).any fun d =>
    d.builtin && d.ty? == some constant.2.ty) &&
  decide (c.constants.map Prod.fst).Nodup && decide (c.intrinsics.map IntrinsicEntry.name).Nodup

/-- What a compilation starts from before its source is read. -/
structure Starts (c : Compilation) : Prop where
  native : c.table.Native c.constants c.intrinsics
  reading : c.table.Reading [rootBlock] 0
  constants : (c.constants.map Prod.fst).Nodup
  intrinsics : (c.intrinsics.map IntrinsicEntry.name).Nodup

theorem starts_of_isNative {c : Compilation} (h : c.isNative = true) (hframes : c.table.frames = [])
    (hactive : c.table.active = [rootBlock]) : c.Starts := by
  simp only [isNative, Bool.and_eq_true, List.all_eq_true, decide_eq_true_eq] at h
  obtain ⟨⟨⟨⟨hdeclarations, hintrinsics⟩, hconstants⟩, hdistinct⟩, hdistinct'⟩ := h
  have hfound {key : BlockKey} {name : Ident} {d : Declaration} (hd : c.table.find? key name = some d) :
      key = rootBlock ∧ d.builtin = true ∧ d.block = rootBlock ∧
        ((d.ty? = some (.function d.name) ∧ ∃ i ∈ c.intrinsics, i.name = name) ∨
          ∃ constant ∈ c.constants, constant.1 = name ∧ d.ty? = some constant.2.ty) := by
    obtain ⟨hmem, hname⟩ := SymbolTable.find?_mem hd
    have hentry := hdeclarations _ hmem
    simp only [Bool.or_eq_true, Bool.and_eq_true, beq_iff_eq, List.any_eq_true, hname] at hentry
    obtain ⟨⟨⟨hkey, hbuiltin⟩, hblock⟩, hty⟩ := hentry
    rw [hname]
    exact ⟨hkey, hbuiltin, hblock, hty⟩
  have hnot (v : Value) : (some v.ty).any Ty.isFunction = false := by cases v <;> rfl
  refine ⟨?_, ?_, hdistinct, hdistinct'⟩
  · constructor
    case function =>
      intro name d hd _ hfunction
      obtain ⟨_, _, _, ⟨_, hmem⟩ | ⟨constant, _, _, hty⟩⟩ := hfound hd
      · exact hmem
      · rw [Declaration.isFunction, hty, hnot] at hfunction
        cases hfunction
    case intrinsic =>
      intro i hi
      obtain ⟨d, hd, hboth⟩ := (Option.any_eq_true _ _).1 (hintrinsics i hi)
      rw [Bool.and_eq_true] at hboth
      exact ⟨d, hd, hboth⟩
    case constant =>
      intro name v hv
      obtain ⟨d, hd, hboth⟩ := (Option.any_eq_true _ _).1 (hconstants _ (mem_of_lookup hv))
      rw [Bool.and_eq_true, beq_iff_eq] at hboth
      exact ⟨d, hd, hboth⟩
    case value =>
      intro name d hd _ hvariable
      obtain ⟨_, _, _, ⟨hty, _⟩ | ⟨⟨name', v⟩, hmem, rfl, _⟩⟩ := hfound hd
      · rw [Declaration.isFunction, hty] at hvariable
        cases hvariable
      · exact Option.isSome_iff_exists.1 (List.lookup_isSome_iff.2 ⟨(name', v), hmem, by simp⟩)
  · refine ⟨hframes, hactive, ⟨?_, ?_, ?_⟩, by simp⟩
    · intro key name d hd
      obtain ⟨rfl, hbuiltin, hblock, hty⟩ := hfound hd
      refine ⟨hblock, fun _ => rfl, fun hnone => ?_, fun ty hty' => ?_⟩
      · rcases hty with ⟨hty, _⟩ | ⟨_, _, _, hty⟩ <;> simp [hty] at hnone
      · rcases hty with ⟨hty, _⟩ | ⟨constant, _, _, hty⟩
        · rw [hty] at hty'
          exact .inl (Option.some.inj hty').symm
        · rw [hty] at hty'
          exact .inr (Option.some.inj hty' ▸ constant.2.ty_isKind)
    · intro key name d hd
      obtain ⟨hkey, hbuiltin, _⟩ := hfound hd
      exact .inl ⟨hbuiltin, hkey⟩
    · intro name d hd hsource
      obtain ⟨_, hbuiltin, _⟩ := hfound hd
      simp [hsource] at hbuiltin

theorem prepared_starts (source : Source) (intrinsics : Bool) (main? : Option (String × FunctionType))
    (strict : Bool) : (prepared source intrinsics main? strict).Starts := by
  cases intrinsics with
  | false =>
    obtain ⟨htable, hconstants, hintrinsics, _⟩ := prepared_bare source main? strict
    refine starts_of_isNative ?_ (by rw [htable]) (by rw [htable])
    simp [isNative, htable, hconstants, hintrinsics]
  | true =>
    obtain ⟨htable, hconstants, hintrinsics, _⟩ := prepared_native source main? strict
    have hnative : native.isNative = true := by decide +kernel
    have hframes : native.table.frames = [] := by decide +kernel
    have hactive : native.table.active = [rootBlock] := by decide +kernel
    refine starts_of_isNative ?_ (by rw [htable, hframes]) (by rw [htable, hactive])
    simpa only [isNative, htable, hconstants, hintrinsics] using hnative

end Compilation
end ToneScript
