import ToneScript.Proofs.Compilation.Accepted
import ToneScript.Proofs.Run.Trace

/-! The frames of a run against the blocks of the source. Every frame of a chain stands for a block and holds
what is declared there. A variable is then found where the table says. So is a function, unless a nearer
block declares one of its name after the place that calls it. -/
namespace ToneScript

/-- Whether a declaration can be used right before an offset. -/
def Declaration.Before (lo : Nat) (d : Declaration) : Prop :=
  d.builtin = true ∨ d.visibleFrom.toNat < lo

theorem Declaration.Before.visibleAt {lo hi : Nat} {d : Declaration} (h : d.Before lo) {pos : Position}
    (hpos : pos.Between lo hi) : d.visibleAt pos.index = true := by
  rw [Declaration.visibleAt, Bool.or_eq_true, decide_eq_true_eq, UInt64.le_iff_toNat_le]
  have hle := hpos.1
  exact h.imp_right fun hlt => by omega

theorem SymbolTable.Clear.before {t : SymbolTable} {scope : List BlockKey} {lo hi : Nat}
    (h : t.Clear scope lo hi) {key : BlockKey} (hkey : key ∈ scope) {name : Ident} {d : Declaration}
    (hfind : t.find? key name = some d) {pos : Position} (hpos : pos.Between lo hi)
    (hvisible : d.visibleAt pos.index = true) : d.Before lo := by
  cases hbuiltin : d.builtin with
  | true => exact .inl hbuiltin
  | false =>
    right
    rw [Declaration.visibleAt, hbuiltin, Bool.false_or, decide_eq_true_eq,
      UInt64.le_iff_toNat_le] at hvisible
    have hlt := hpos.2
    have := h key hkey name d hfind hbuiltin
    omega

namespace Elaboration

variable (w : Elaboration) (typed : Prop)

/-- Whether a declaration is that of a function that can be called. -/
def Declares (d : Declaration) : Callable → Prop
  | .intrinsic i params => d.builtin = true ∧ ⟨d.name, i, params⟩ ∈ w.intrinsics
  | .defined f => d = f.declaration

/-- A function that the program defines in a chain of blocks. Where runs are typed, its recursive calls have
the types that are asked for. -/
structure Stands (scope : List BlockKey) (f : FunctionDef) : Prop where
  placed : ∃ lo hi, f.Placed w.constants w.table scope lo hi ∧ w.table.Clear (scope.drop 1) lo hi
  checked : f.Obeys (.checked w) scope
  settled : typed → f.Obeys (.settled w) scope

end Elaboration

/-- Whether a frame has everything that its block declares before an offset. -/
def Frame.Has (t : SymbolTable) (lo : Nat) (key : BlockKey) (frame : Frame) : Prop :=
  ∀ name d, t.find? key name = some d → d.Before lo →
    if d.isFunction then ∃ callable, frame.functions.lookup name = some callable
    else ∃ v, frame.values.lookup name = some v

/-- A frame that holds nothing but what its block declares. Its values are those that have been assigned at the
outermost level, or bound to the parameters of a function, by the events of the run. -/
structure Frame.Fits (w : Elaboration) (typed : Prop) (occurs : Event → Prop) (key : BlockKey) (frame : Frame) : Prop where
  value : ∀ name v, frame.values.lookup name = some v → ∃ d, w.table.find? key name = some d ∧
    d.isFunction = false ∧ (typed → d.ty? = some v.ty)
  function : ∀ name callable, frame.functions.lookup name = some callable →
    ∃ d, w.table.find? key name = some d ∧ d.isFunction = true ∧ w.Declares d callable
  outermost : key = rootBlock → ∀ name v, frame.values.lookup name = some v →
    w.constants.lookup name = some v ∨ occurs (.assigned name v)
  activation : key ≠ rootBlock → ∀ name v, frame.values.lookup name = some v →
    ∃ (f : FunctionDef) (args : List Value), occurs (.bound f args) ∧ f.argsKey = key ∧
      frame.values = (f.params.map Param.name).zip args ∧
      ∃ p ∈ f.params, w.table.find? key name = some (f.paramDeclaration p)

namespace Frame

variable {t : SymbolTable} {lo : Nat} {key : BlockKey} {frame : Frame}

theorem lookup_setFunction (frame : Frame) (name other : Ident) (callable : Callable) :
    (frame.setFunction name callable).functions.lookup other =
      if other = name then some callable else frame.functions.lookup other := by
  rw [setFunction, List.lookup_cons]
  split <;> simp_all

theorem lookup_setVariable (frame : Frame) (name other : Ident) (v : Value) :
    (frame.setVariable name v).values.lookup other =
      if other = name then some v else frame.values.lookup other := by
  rw [setVariable, List.lookup_cons]
  split <;> simp_all

theorem Has.setFunction (h : frame.Has t lo key) (name : Ident) (callable : Callable) :
    (frame.setFunction name callable).Has t lo key := by
  intro other d hd hbefore
  have hold := h other d hd hbefore
  rw [lookup_setFunction]
  split
  · rename_i hfunction
    rw [if_pos hfunction] at hold
    split
    · exact ⟨_, rfl⟩
    · exact hold
  · rename_i hvariable
    rwa [if_neg hvariable] at hold

theorem Has.setVariable (h : frame.Has t lo key) (name : Ident) (v : Value) :
    (frame.setVariable name v).Has t lo key := by
  intro other d hd hbefore
  have hold := h other d hd hbefore
  rw [lookup_setVariable]
  split
  · rename_i hfunction
    rwa [if_pos hfunction] at hold
  · rename_i hvariable
    rw [if_neg hvariable] at hold
    split
    · exact ⟨_, rfl⟩
    · exact hold

end Frame

namespace Chain

/-- Whether every frame has what its block, which opens before an offset, declares before that offset. -/
def Ready (t : SymbolTable) (lo : Nat) (scope : List BlockKey) (chain : Chain) : Prop :=
  List.Forall₂ (fun key frame => (key = rootBlock ∨ key.toNat < lo) ∧ frame.Has t lo key) scope chain

/-- Whether the functions of the program in the innermost frame belong there, with frames that have what
their bodies can see from the start. -/
def Hosts (w : Elaboration) (typed : Prop) (scope : List BlockKey) (frame : Frame) (chain : Chain) : Prop :=
  ∀ name f, frame.functions.lookup name = some (.defined f) →
    w.Stands typed scope f ∧ Ready w.table (f.argsKey.toNat + 1) scope (frame :: chain)

/-- A chain of frames for a chain of blocks, both with the innermost first. -/
inductive Sound (w : Elaboration) (typed : Prop) (occurs : Event → Prop) : List BlockKey → Chain → Prop
  | outermost {frame : Frame} (fits : frame.Fits w typed occurs rootBlock)
      (hosts : Hosts w typed [rootBlock] frame []) : Sound w typed occurs [rootBlock] [frame]
  | inner {key : BlockKey} {scope : List BlockKey} {frame : Frame} {chain : Chain}
      (opens : key ≠ rootBlock) (fits : frame.Fits w typed occurs key)
      (hosts : Hosts w typed (key :: scope) frame chain) (outer : Sound w typed occurs scope chain) :
      Sound w typed occurs (key :: scope) (frame :: chain)

variable {w : Elaboration} {typed : Prop} {occurs : Event → Prop} {t : SymbolTable} {scope : List BlockKey} {chain : Chain}
  {lo hi : Nat} {pos : Position}

theorem Sound.length_eq (h : Sound w typed occurs scope chain) : scope.length = chain.length := by
  induction h with
  | outermost => rfl
  | inner _ _ _ _ ih => simp [ih]

/-- Different levels have different frames from there on. -/
theorem Sound.level_inj (h : Sound w typed occurs scope chain) {m n : Nat} (hm : m < chain.length)
    (hn : n < scope.length) (heq : chain.drop m = chain.drop n) : m = n := by
  have hlength := congrArg List.length heq
  rw [List.length_drop, List.length_drop] at hlength
  have := h.length_eq
  omega

/-- Where nothing is declared between two offsets, what is ready at the first one is so at the second. -/
theorem Ready.advance (h : Ready t lo scope chain) (hclear : t.Clear scope lo hi) (hle : lo ≤ hi) :
    Ready t hi scope chain := by
  induction h with
  | nil => exact .nil
  | cons hfirst _ ih =>
    refine .cons ⟨hfirst.1.imp_right (by omega), fun name d hd hbefore => ?_⟩
      (ih fun key hkey => hclear key (List.mem_cons_of_mem _ hkey))
    refine hfirst.2 name d hd ?_
    cases hbuiltin : d.builtin with
    | true => exact .inl hbuiltin
    | false =>
      have hcase := hclear _ List.mem_cons_self name d hd hbuiltin
      simp only [Declaration.Before, hbuiltin, Bool.false_eq_true, false_or] at hbefore ⊢
      omega

theorem Sound.fits_head {key : BlockKey} {frame : Frame}
    (h : Sound w typed occurs (key :: scope) (frame :: chain)) : frame.Fits w typed occurs key := by
  cases h with
  | outermost fits _ => exact fits
  | inner _ fits _ _ => exact fits

theorem Sound.hosts_head {frame : Frame} (h : Sound w typed occurs scope (frame :: chain)) :
    Hosts w typed scope frame chain := by
  cases h with
  | outermost _ hosts => exact hosts
  | inner _ _ hosts _ => exact hosts

/-- The frames from one on are those of the blocks from there on. -/
theorem Sound.drop (h : Sound w typed occurs scope chain) {n : Nat} (hn : n < chain.length) :
    Sound w typed occurs (scope.drop n) (chain.drop n) := by
  induction h generalizing n with
  | outermost fits hosts =>
    obtain rfl : n = 0 := by simpa using hn
    exact .outermost fits hosts
  | inner opens fits hosts outer ih =>
    cases n with
    | zero => exact .inner opens fits hosts outer
    | succ n => exact ih (Nat.lt_of_succ_lt_succ hn)

/-- A function is found in a frame, and with it the frames from there on. -/
theorem findFunction?_eq_some {chain home : Chain} {name : Ident} {callable : Callable}
    (h : chain.findFunction? name = some (callable, home)) :
    ∃ n frame rest, n < chain.length ∧ home = chain.drop n ∧ home = frame :: rest ∧
      frame.functions.lookup name = some callable := by
  induction chain with
  | nil => cases h
  | cons frame chain ih =>
    rw [findFunction?] at h
    cases hfirst : frame.functions.lookup name with
    | some found =>
      rw [hfirst] at h
      cases h
      exact ⟨0, frame, chain, Nat.zero_lt_succ _, rfl, rfl, hfirst⟩
    | none =>
      rw [hfirst] at h
      obtain ⟨n, frame', rest, hn, hrest⟩ := ih h
      exact ⟨n + 1, frame', rest, Nat.succ_lt_succ hn, hrest⟩

/-- A function of the program is found with frames that have what its body can see from the start. -/
theorem Sound.home (h : Sound w typed occurs scope chain) {n : Nat} (hn : n < chain.length) {name : Ident}
    {f : FunctionDef} (hfound : chain.findFunction? name = some (.defined f, chain.drop n)) :
    Sound w typed occurs (scope.drop n) (chain.drop n) ∧ w.Stands typed (scope.drop n) f ∧
      Ready w.table (f.argsKey.toNat + 1) (scope.drop n) (chain.drop n) := by
  have hdrop := h.drop hn
  obtain ⟨_, frame, rest, _, _, hhome, hlookup⟩ := findFunction?_eq_some hfound
  rw [hhome] at hdrop ⊢
  exact ⟨hdrop, hdrop.hosts_head name f hlookup⟩

section Use

variable (hready : Ready w.table lo scope chain) (hclear : w.table.Clear scope lo hi)
  (hpos : pos.Between lo hi) {name : Ident} {d : Declaration} {crossed : Nat}
include hready hclear hpos

/-- A variable that the table finds is found in the frame of its block. -/
theorem Sound.lookup (h : Sound w typed occurs scope chain)
    (hresolve : w.table.resolve scope name pos = some (d, crossed)) (hvariable : d.isFunction = false) :
    ∃ key frame v, scope[crossed]? = some key ∧ w.table.find? key name = some d ∧
      chain[crossed]? = some frame ∧ frame.Fits w typed occurs key ∧ frame.values.lookup name = some v ∧
      chain.lookup name = some v := by
  induction h generalizing crossed with
  | @outermost frame fits hosts =>
    obtain ⟨⟨_, hhas⟩, _⟩ := List.forall₂_cons.1 hready
    obtain ⟨key, hkey, hfind, hvisible⟩ := SymbolTable.resolve_some hresolve
    obtain ⟨rfl, rfl⟩ : crossed = 0 ∧ key = rootBlock := by
      cases crossed <;> simp_all
    have hvalue := hhas name d hfind (hclear.before (List.mem_singleton_self _) hfind hpos hvisible)
    rw [hvariable] at hvalue
    obtain ⟨v, hv⟩ := hvalue
    exact ⟨_, frame, v, rfl, hfind, rfl, fits, hv, by simp [Chain.lookup, hv]⟩
  | @inner key scope frame chain opens fits hosts outer ih =>
    obtain ⟨⟨hkey, hhas⟩, hready'⟩ := List.forall₂_cons.1 hready
    have hclear' : w.table.Clear scope lo hi := fun k hk => hclear k (List.mem_cons_of_mem _ hk)
    rcases w.table.visible_or_hidden key name pos with ⟨d', hd', hvisible⟩ | hhidden
    · rw [SymbolTable.resolve_cons_visible hd' hvisible] at hresolve
      cases hresolve
      have hvalue := hhas name d hd' (hclear.before List.mem_cons_self hd' hpos hvisible)
      rw [hvariable] at hvalue
      obtain ⟨v, hv⟩ := hvalue
      exact ⟨key, frame, v, rfl, hd', rfl, fits, hv, by simp [Chain.lookup, hv]⟩
    · rw [SymbolTable.resolve_cons_hidden hhidden] at hresolve
      obtain ⟨⟨d', n⟩, hrest, heq⟩ := Option.map_eq_some_iff.1 hresolve
      cases heq
      -- A parameter can be used anywhere in its block, so that no frame on the way has the name.
      have hnone : frame.values.lookup name = none := by
        cases hv : frame.values.lookup name with
        | none => rfl
        | some v =>
          obtain ⟨f, args, _, hargs, _, p, _, hfind⟩ := fits.activation opens name v hv
          have hlt : f.argsKey.toNat < lo := by
            rw [hargs]
            exact hkey.resolve_left opens
          have hbefore : (f.paramDeclaration p).Before lo := .inr hlt
          exact absurd ((hhidden _ hfind).symm.trans (hbefore.visibleAt hpos)) nofun
      obtain ⟨k, frame', v, hk, hfind, hframe, hfits, hv, hlookup⟩ := ih hready' hclear' hrest
      exact ⟨k, frame', v, by simpa using hk, hfind, by simpa using hframe, hfits, hv,
        by simpa [Chain.lookup, hnone] using hlookup⟩

/-- A function that the table finds is found in the frame of its block, unless the frame of a nearer block
has a function of its name that is declared after the use. -/
theorem Sound.findFunction? (h : Sound w typed occurs scope chain)
    (hresolve : w.table.resolve scope name pos = some (d, crossed)) (hfunction : d.isFunction = true) :
    ∃ n key callable d', n ≤ crossed ∧ n < chain.length ∧ scope[n]? = some key ∧
      chain.findFunction? name = some (callable, chain.drop n) ∧ w.table.find? key name = some d' ∧
      d'.isFunction = true ∧ w.Declares d' callable ∧
      (n = crossed → d' = d) ∧ (n < crossed → d'.visibleAt pos.index = false) := by
  induction h generalizing crossed with
  | @outermost frame fits hosts =>
    obtain ⟨⟨_, hhas⟩, _⟩ := List.forall₂_cons.1 hready
    obtain ⟨key, hkey, hfind, hvisible⟩ := SymbolTable.resolve_some hresolve
    obtain ⟨rfl, rfl⟩ : crossed = 0 ∧ key = rootBlock := by
      cases crossed <;> simp_all
    have hcallable := hhas name d hfind (hclear.before (List.mem_singleton_self _) hfind hpos hvisible)
    rw [hfunction] at hcallable
    obtain ⟨callable, hlookup⟩ := hcallable
    obtain ⟨d', hd', _, hdeclares⟩ := fits.function name callable hlookup
    cases hfind.symm.trans hd'
    exact ⟨0, _, callable, d, Nat.le_refl _, Nat.zero_lt_one, rfl, by simp [Chain.findFunction?, hlookup],
      hfind, hfunction, hdeclares, fun _ => rfl, fun hlt => absurd hlt (Nat.lt_irrefl _)⟩
  | @inner key scope frame chain opens fits hosts outer ih =>
    obtain ⟨⟨hkey, hhas⟩, hready'⟩ := List.forall₂_cons.1 hready
    have hclear' : w.table.Clear scope lo hi := fun k hk => hclear k (List.mem_cons_of_mem _ hk)
    cases hlookup : frame.functions.lookup name with
    | some callable =>
      obtain ⟨d', hd', hfunction', hdeclares⟩ := fits.function name callable hlookup
      refine ⟨0, key, callable, d', Nat.zero_le _, Nat.zero_lt_succ _, rfl,
        by simp [Chain.findFunction?, hlookup], hd', hfunction', hdeclares, ?_, ?_⟩
      · rintro rfl
        obtain ⟨key', hkey', hfind, _⟩ := SymbolTable.resolve_some hresolve
        cases hkey'
        cases hfind.symm.trans hd'
        rfl
      · intro hlt
        by_contra hvisible
        rw [Bool.not_eq_false] at hvisible
        rw [SymbolTable.resolve_cons_visible hd' hvisible] at hresolve
        cases hresolve
        exact absurd hlt (Nat.lt_irrefl _)
    | none =>
      have hhidden (d' : Declaration) (hd' : w.table.find? key name = some d') :
          d'.visibleAt pos.index = false := by
        by_contra hvisible
        rw [Bool.not_eq_false] at hvisible
        rw [SymbolTable.resolve_cons_visible hd' hvisible] at hresolve
        cases hresolve
        have hcallable := hhas name d hd' (hclear.before List.mem_cons_self hd' hpos hvisible)
        rw [hfunction] at hcallable
        obtain ⟨callable, hcallable⟩ := hcallable
        simp [hlookup] at hcallable
      rw [SymbolTable.resolve_cons_hidden hhidden] at hresolve
      obtain ⟨⟨d', m⟩, hrest, heq⟩ := Option.map_eq_some_iff.1 hresolve
      cases heq
      obtain ⟨n, k, callable, d'', hle, hlt, hk, hfound, hfind, hfunction'', hdeclares, hsame, hlate⟩ :=
        ih hready' hclear' hrest
      refine ⟨n + 1, k, callable, d'', Nat.succ_le_succ hle, Nat.succ_lt_succ hlt, by simpa using hk, ?_, hfind,
        hfunction'', hdeclares, fun heq => hsame (Nat.succ.inj heq), fun hlt => hlate (Nat.lt_of_succ_lt_succ hlt)⟩
      rw [Chain.findFunction?, hlookup]
      simpa using hfound

end Use

section Growth

variable {key : BlockKey} {frame frame' : Frame}

theorem Ready.grow (h : Ready t lo (key :: scope) (frame :: chain))
    (hgrow : frame.Has t lo key → frame'.Has t lo key) : Ready t lo (key :: scope) (frame' :: chain) := by
  obtain ⟨⟨hkey, hhas⟩, hrest⟩ := List.forall₂_cons.1 h
  exact .cons ⟨hkey, hgrow hhas⟩ hrest

theorem Hosts.grow (h : Hosts w typed (key :: scope) frame chain)
    (hgrow : ∀ lo, frame.Has w.table lo key → frame'.Has w.table lo key)
    (hnew : ∀ name f, frame'.functions.lookup name = some (.defined f) →
      frame.functions.lookup name = some (.defined f) ∨ w.Stands typed (key :: scope) f ∧
        Ready w.table (f.argsKey.toNat + 1) (key :: scope) (frame' :: chain)) :
    Hosts w typed (key :: scope) frame' chain := by
  intro name f hf
  rcases hnew name f hf with hold | hnew
  · exact ⟨(h name f hold).1, (h name f hold).2.grow (hgrow _)⟩
  · exact hnew

/-- A function is added to the innermost frame. -/
theorem Sound.setFunction (h : Sound w typed occurs (key :: scope) (frame :: chain)) {f : FunctionDef}
    (hfind : w.table.find? key f.name = some f.declaration) (hstands : w.Stands typed (key :: scope) f)
    (hready : Ready w.table (f.argsKey.toNat + 1) (key :: scope)
      (frame.setFunction f.name (.defined f) :: chain)) :
    Sound w typed occurs (key :: scope) (frame.setFunction f.name (.defined f) :: chain) := by
  have hfits := h.fits_head
  have hhosts := h.hosts_head
  have hfits' : (frame.setFunction f.name (.defined f)).Fits w typed occurs key := by
    refine ⟨hfits.value, fun name callable hlookup => ?_, hfits.outermost, hfits.activation⟩
    rw [Frame.lookup_setFunction] at hlookup
    split at hlookup
    · rename_i hname
      cases hlookup
      rw [hname]
      exact ⟨_, hfind, rfl, rfl⟩
    · exact hfits.function name callable hlookup
  have hhosts' : Hosts w typed (key :: scope) (frame.setFunction f.name (.defined f)) chain := by
    refine hhosts.grow (fun _ hhas => hhas.setFunction _ _) fun name g hg => ?_
    rw [Frame.lookup_setFunction] at hg
    split at hg
    · cases hg
      exact .inr ⟨hstands, hready⟩
    · exact .inl hg
  cases h with
  | outermost => exact .outermost hfits' hhosts'
  | inner opens _ _ outer => exact .inner opens hfits' hhosts' outer

/-- A name gets its value at the outermost level. -/
theorem Sound.setVariable (h : Sound w typed occurs [rootBlock] [frame]) {name : Ident} {d : Declaration} {v : Value}
    (hfind : w.table.find? rootBlock name = some d) (hvariable : d.isFunction = false)
    (htyped : typed → d.ty? = some v.ty) (hoccurs : occurs (.assigned name v)) :
    Sound w typed occurs [rootBlock] [frame.setVariable name v] := by
  have hfits := h.fits_head
  have hhosts := h.hosts_head
  refine .outermost ⟨?_, hfits.function, ?_, fun hroot => absurd rfl hroot⟩
    (hhosts.grow (fun _ hhas => hhas.setVariable _ _) fun _ _ hf => .inl hf)
  · intro other v' hlookup
    rw [Frame.lookup_setVariable] at hlookup
    split at hlookup
    · rename_i hname
      cases hlookup
      rw [hname]
      exact ⟨d, hfind, hvariable, htyped⟩
    · exact hfits.value other v' hlookup
  · intro _ other v' hlookup
    rw [Frame.lookup_setVariable] at hlookup
    split at hlookup
    · rename_i hname
      cases hlookup
      rw [hname]
      exact .inr hoccurs
    · exact hfits.outermost rfl other v' hlookup

/-- A block that opens has nothing yet. -/
theorem Sound.enter (h : Sound w typed occurs scope chain) (hready : Ready w.table lo scope chain)
    (hclear : w.table.Clear scope lo hi) (hopens : w.table.Opens key lo (key.toNat + 1))
    (hle : key.toNat + 1 ≤ hi) :
    Sound w typed occurs (key :: scope) ({} :: chain) ∧
      Ready w.table (key.toNat + 1) (key :: scope) ({} :: chain) := by
  obtain ⟨hlo, hroot, hempty⟩ := hopens
  refine ⟨.inner hroot ⟨nofun, nofun, nofun, nofun⟩ nofun h, .cons ⟨.inr (Nat.lt_succ_self _), ?_⟩ ?_⟩
  · intro name d hd hbefore
    obtain ⟨hsource, hle⟩ := hempty name d hd
    rcases hbefore with hbuiltin | hlt
    · simp [hsource] at hbuiltin
    · omega
  · exact hready.advance (hclear.narrow (Nat.le_refl _) hle) (by omega)

/-- A function is defined in the innermost block. -/
theorem Sound.define (h : Sound w typed occurs (key :: scope) (frame :: chain))
    (hready : Ready w.table lo (key :: scope) (frame :: chain)) (hclear : w.table.Clear scope lo hi)
    {f : FunctionDef} (hplaced : f.Placed w.constants w.table (key :: scope) lo hi)
    (hchecked : f.Obeys (.checked w) (key :: scope)) (hsettled : typed → f.Obeys (.settled w) (key :: scope)) :
    Sound w typed occurs (key :: scope) (frame.setFunction f.name (.defined f) :: chain) ∧
      Ready w.table hi (key :: scope) (frame.setFunction f.name (.defined f) :: chain) := by
  obtain ⟨⟨hlo, _⟩, _, _, hdeclared, _⟩ := FunctionDef.placed_iff.1 hplaced
  obtain ⟨hfind, honly⟩ := hdeclared key (by simp)
  have hhi := (FunctionDef.Placed.inOrder f hplaced).2.2 f (by simp [FunctionDef.functions_eq])
  -- Between the two offsets the block declares the function and nothing else.
  have hsoon (n : Nat) (hn : f.argsKey.toNat + 1 ≤ n) (hn' : n ≤ hi) :
      Ready w.table n (key :: scope) (frame.setFunction f.name (.defined f) :: chain) := by
    obtain ⟨⟨hkey, hhas⟩, hrest⟩ := List.forall₂_cons.1 hready
    refine .cons ⟨hkey.imp_right (by omega), fun name d hd hbefore => ?_⟩
      (Ready.advance hrest (hclear.narrow (Nat.le_refl _) hn') (by omega))
    by_cases hold : d.Before lo
    · exact hhas.setFunction _ _ name d hd hold
    · simp only [Declaration.Before, not_or, Bool.not_eq_true] at hold
      rcases hbefore with hbuiltin | hlt
      · simp [hold.1] at hbuiltin
      · cases honly name d hd hold.1 (Nat.not_lt.1 hold.2) (Nat.lt_of_lt_of_le hlt hn')
        cases SymbolTable.find?_name hd
        exact ⟨_, (Frame.lookup_setFunction ..).trans (if_pos rfl)⟩
  refine ⟨h.setFunction hfind ⟨⟨lo, hi, hplaced, hclear⟩, hchecked, hsettled⟩ ?_, ?_⟩
  · exact hsoon _ (Nat.le_refl _) hhi.2
  · exact hsoon _ hhi.2 (Nat.le_refl _)

end Growth

section Activation

variable {f : FunctionDef} {args : List Value}

theorem lookup_zip_isSome {names : List Ident} (hlength : args.length = names.length) {name : Ident}
    (hmem : name ∈ names) : ∃ v, (names.zip args).lookup name = some v := by
  induction names generalizing args with
  | nil => cases hmem
  | cons first names ih =>
    obtain ⟨v, args, rfl⟩ := List.exists_cons_of_length_eq_add_one hlength
    rw [List.zip_cons_cons, List.lookup_cons]
    by_cases hfirst : name = first
    · exact ⟨v, by simp [hfirst]⟩
    · rw [show (name == first) = false by simpa using hfirst]
      exact ih (Nat.succ.inj hlength) ((List.mem_cons.1 hmem).resolve_left hfirst)

/-- A function is invoked in the frames from its own one on: its body then sees what it can use. -/
theorem Sound.activate (h : Sound w typed occurs scope chain) (hready : Ready w.table (f.argsKey.toNat + 1) scope chain)
    (hstands : w.Stands typed scope f) (hlength : args.length = f.params.length)
    (htyped : typed → ∀ v ∈ args, v.ty = .number) (hoccurs : occurs (.bound f args)) :
    f.inside = f.argsKey :: scope ∧
      Sound w typed occurs f.inside (.ofArguments (Callable.defined f).params args :: chain) ∧
      Ready w.table (f.argsKey.toNat + 1) f.inside (.ofArguments (Callable.defined f).params args :: chain) ∧
      ∃ hi, w.table.Clear f.inside (f.argsKey.toNat + 1) hi ∧
        f.body.Placed w.constants w.table f.inside (f.argsKey.toNat + 1) hi := by
  obtain ⟨⟨lo, hi, hplaced, hclear⟩, _, _⟩ := hstands
  have hbody := hplaced.clear hclear
  have hhi := (FunctionDef.Placed.inOrder f hplaced).2.2 f (by simp [FunctionDef.functions_eq])
  obtain ⟨⟨_, hroot, hempty⟩, hscope, _, _, hparams, honly, hplaced⟩ := FunctionDef.placed_iff.1 hplaced
  have hinside : f.inside = f.argsKey :: scope := by
    simp [FunctionDef.inside, FunctionDef.bodyScope, hscope]
  have hvalues : (Frame.ofArguments (Callable.defined f).params args).values =
      (f.params.map Param.name).zip args := by
    simp [Frame.ofArguments, Callable.params, Function.comp_def]
  have hvalue (name : Ident) (v : Value)
      (hlookup : (Frame.ofArguments (Callable.defined f).params args).values.lookup name = some v) :
      v ∈ args ∧ ∃ p ∈ f.params, w.table.find? f.argsKey name = some (f.paramDeclaration p) := by
    rw [hvalues] at hlookup
    obtain ⟨hname, hv⟩ := List.of_mem_zip (mem_of_lookup hlookup)
    obtain ⟨p, hp, rfl⟩ := List.mem_map.1 hname
    exact ⟨hv, p, hp, hparams p hp⟩
  rw [hinside]
  refine ⟨rfl, .inner hroot ⟨?_, nofun, fun heq => absurd heq hroot, ?_⟩ nofun h, .cons ⟨.inr (Nat.lt_succ_self _), ?_⟩ hready, hi, hbody,
    hplaced⟩
  · intro name v hlookup
    obtain ⟨hv, p, _, hfind⟩ := hvalue name v hlookup
    exact ⟨_, hfind, rfl, fun ht => by rw [htyped ht v hv]; rfl⟩
  · intro _ name v hlookup
    exact ⟨f, args, hoccurs, rfl, hvalues, (hvalue name v hlookup).2⟩
  · intro name d hd hbefore
    have hlt := hbefore.resolve_left (by simp [(hempty name d hd).1])
    obtain ⟨p, hp, rfl⟩ := honly name d hd (by omega)
    cases SymbolTable.find?_name hd
    rw [hvalues]
    exact lookup_zip_isSome (by simpa using hlength) (List.mem_map_of_mem hp)

end Activation

/-- The outermost frame before any item is evaluated. -/
theorem Sound.start (typed : Prop) (occurs : Event → Prop)
    (hnative : w.table.Native w.constants w.intrinsics) (globals : Frame)
    (hvalues : globals.values = w.constants)
    (hfunctions : globals.functions = w.intrinsics.map fun i => (i.name, .intrinsic i.function i.params)) :
    Sound w typed occurs [rootBlock] [globals] ∧ Ready w.table 0 [rootBlock] [globals] := by
  have hfunction (name : Ident) (callable : Callable)
      (hlookup : globals.functions.lookup name = some callable) :
      ∃ i ∈ w.intrinsics, i.name = name ∧ callable = .intrinsic i.function i.params := by
    rw [hfunctions] at hlookup
    obtain ⟨i, hi, heq⟩ := List.mem_map.1 (mem_of_lookup hlookup)
    cases heq
    exact ⟨i, hi, rfl, rfl⟩
  refine ⟨.outermost ⟨?_, ?_, ?_, fun hroot => absurd rfl hroot⟩ ?_, .cons ⟨.inl rfl, ?_⟩ .nil⟩
  · intro name v hlookup
    rw [hvalues] at hlookup
    obtain ⟨d, hd, _, hty⟩ := hnative.constant name v hlookup
    refine ⟨d, hd, ?_, fun _ => hty⟩
    rw [Declaration.isFunction, hty]
    cases v <;> rfl
  · intro name callable hlookup
    obtain ⟨i, hi, rfl, rfl⟩ := hfunction name callable hlookup
    obtain ⟨d, hd, hbuiltin, hfun⟩ := hnative.intrinsic i hi
    refine ⟨d, hd, hfun, hbuiltin, ?_⟩
    rw [SymbolTable.find?_name hd]
    exact hi
  · intro _ name v hlookup
    rw [hvalues] at hlookup
    exact .inl hlookup
  · intro name f hlookup
    obtain ⟨_, _, _, heq⟩ := hfunction name _ hlookup
    cases heq
  · intro name d hd hbefore
    have hbuiltin : d.builtin = true := hbefore.resolve_right (Nat.not_lt_zero _)
    split
    · rename_i hfun
      obtain ⟨i, hi, rfl⟩ := hnative.function name d hd hbuiltin hfun
      rw [hfunctions]
      refine Option.isSome_iff_exists.1 (List.lookup_isSome_iff.2 ⟨_, List.mem_map_of_mem hi, by simp⟩)
    · rename_i hvariable
      rw [hvalues]
      exact hnative.value name d hd hbuiltin (by simpa using hvariable)

end Chain

/-- A scene in which everything is there that can be used between two offsets. -/
structure Scene.Fit (w : Elaboration) (typed : Prop) (occurs : Event → Prop) (lo hi : Nat) (scene : Scene) : Prop where
  clear : w.table.Clear scene.scope lo hi
  ready : Chain.Ready w.table lo scene.scope scene.chain
  sound : Chain.Sound w typed occurs scene.scope scene.chain

theorem Scene.Fit.part {w : Elaboration} {typed : Prop} {occurs : Event → Prop} {lo lo' hi hi' : Nat} {scene : Scene}
    (h : scene.Fit w typed occurs lo hi) (hlo : lo ≤ lo') (hmid : lo' ≤ hi) (hhi : hi' ≤ hi) :
    scene.Fit w typed occurs lo' hi' where
  clear := h.clear.narrow hlo hhi
  ready := h.ready.advance (h.clear.narrow (Nat.le_refl _) hmid) hlo
  sound := h.sound

end ToneScript
