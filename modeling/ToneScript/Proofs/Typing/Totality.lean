import ToneScript.Proofs.Syntax.Definitions
import ToneScript.Proofs.Typing.Program

/-! Checks come to an end. A check ends in a defect only where it meets the definition of a function that has not been
collected; where all functions have been, it is carried out whatever the program is. -/
namespace ToneScript

/-- What is known of types when nothing but built-in functions is known. -/
def Typing.BuiltinsOnly (typing : Typing) : Prop :=
  ∀ key info, typing.functions.lookup key = some info → info.definition? = none

namespace Check

variable {α β : Type} {names : NameTable} {known : List FunctionDef} {s s' s'' : State}

/-- A state in which the known functions are collected, and no others. -/
structure State.Gathers (known : List FunctionDef) (s : State) : Prop where
  framed : s.table.Framed
  present : ∀ f ∈ known, ∃ info, s.typing.functions.lookup f.key = some info
  known : ∀ key f progress, s.typing.functions.lookup key = some ⟨some f, progress⟩ → f ∈ known

/-- What a check leaves of a state: the active blocks, all issues and all signatures. What it adds to the
issues are errors. -/
structure State.Follows (s s' : State) : Prop where
  blocks : s.table.SameBlocks s'.table
  journal : s.journal.GainsErrors s'.journal
  functions : FunctionTable.Grows s.typing.functions s'.typing.functions

theorem State.Follows.refl (s : State) : s.Follows s :=
  ⟨.refl _, .refl _, .refl _⟩

theorem State.Follows.trans (h : s.Follows s') (h' : s'.Follows s'') : s.Follows s'' :=
  ⟨h.blocks.trans h'.blocks, h.journal.trans h'.journal, h.functions.trans h'.functions⟩

theorem State.Grows.follows (h : s.Grows s') : s.Follows s' :=
  ⟨h.table ▸ .refl _, h.journal, h.functions⟩

/-- No function is lost, and none is new. -/
theorem State.Gathers.of_functions (h : s.Gathers known) (hframed : s'.table.Framed)
    (hg : FunctionTable.Grows s.typing.functions s'.typing.functions) : s'.Gathers known where
  framed := hframed
  present f hf := by
    obtain ⟨info, hinfo⟩ := h.present f hf
    obtain ⟨info', hinfo', _⟩ := hg.present _ _ hinfo
    exact ⟨info', hinfo'⟩
  known key f progress hlookup := by
    obtain ⟨old, hold⟩ := hg.origin hlookup
    exact h.known key f old hold

theorem State.Gathers.follow (h : s.Gathers known) (hs : s.Follows s') : s'.Gathers known :=
  h.of_functions (hs.blocks.framed h.framed) hs.functions

theorem State.Gathers.enterBlock (h : s.Gathers known) (key : BlockKey) :
    State.Gathers known { s with table := s.table.enterBlock key } :=
  ⟨h.framed.enterBlock key, h.present, h.known⟩

/-- The functions stay collected where the body of one of them is entered. -/
theorem State.Gathers.enterBody (h : s.Gathers known) (key : FunctionKey) (f : FunctionDef) :
    State.Gathers known { s with
      table := s.table.enterScope f.bodyScope
      typing := { s.typing with functions := s.typing.functions.setProgress key .active } } where
  framed := SymbolTable.framed_enterScope _ (bodyScope_ne_nil f)
  present g hg := by
    obtain ⟨info, hinfo⟩ := h.present g hg
    show ∃ info, (s.typing.functions.setProgress key .active).lookup g.key = some info
    rw [FunctionTable.lookup_setProgress, hinfo]
    split
    · exact ⟨_, rfl⟩
    · exact ⟨_, rfl⟩
  known key' g progress hlookup := by
    rcases FunctionTable.of_setProgress hlookup with ⟨_, _, old, hold⟩ | ⟨_, hold⟩
    · exact h.known key' g old hold
    · exact h.known key' g progress hold

/-- A step that is carried out wherever the known functions are collected. -/
def Completes (known : List FunctionDef) (x : Step α) : Prop :=
  ∀ s : State, s.Gathers known → ∃ a s', x.run s = .ok (a, s') ∧ s.Grows s'

/-- A resolver that finds a signature wherever the known functions are collected. -/
def Resolver.Completes (known : List FunctionDef) (resolve : Resolver) : Prop :=
  ∀ key f (s : State), s.Gathers known → s.typing.functions.lookup key = some ⟨some f, .pending⟩ →
    ∃ signature s', (resolve key f).run s = .ok (signature, s') ∧ s.Grows s'

namespace Completes

theorem of_grows {x : Step α} (hgrows : Grows x) (hrun : ∀ s, ∃ a s', x.run s = .ok (a, s')) : Completes known x := by
  intro s hs
  obtain ⟨a, s', h⟩ := hrun s
  exact ⟨a, s', h, hgrows s a s' hs.framed h⟩

theorem bind {x : Step α} {f : α → Step β} (hx : Completes known x) (hf : ∀ a, Completes known (f a)) :
    Completes known (x >>= f) := by
  intro s hs
  obtain ⟨a, mid, hrun, hg⟩ := hx s hs
  obtain ⟨b, s', hrun', hg'⟩ := hf a mid (hs.follow hg.follows)
  exact ⟨b, s', (run_bind_eq hrun).trans hrun', hg.trans hg'⟩

theorem enterBlock {x : Step α} (key : BlockKey) (hx : Completes known x) :
    Completes known (inScope (·.enterBlock key) x) := by
  intro s hs
  obtain ⟨a, mid, hrun, hg⟩ := hx _ (hs.enterBlock key)
  have hleave : mid.table.leave = .ok s.table := by
    rw [hg.table]
    exact SymbolTable.leave_enterBlock_self hs.framed key
  exact ⟨a, _, inScope_run _ hrun hleave, ⟨rfl, hg.journal, hg.poisoned, hg.functions⟩⟩

theorem signatureOf? {resolve : Resolver} (hresolve : resolve.Completes known) (d : Declaration) :
    Completes known (signatureOf? resolve d) := by
  intro s hs
  unfold Check.signatureOf?
  rw [run_bind_eq (show (get : Step State).run s = .ok (s, s) from rfl)]
  rcases hlookup : s.typing.functions.lookup (d.block, d.name) with _ | ⟨_ | f, _ | _ | signature⟩
  case some.some.pending =>
    dsimp only
    split
    · exact ⟨_, s, rfl, .refl s⟩
    · obtain ⟨signature, s', hrun, hg⟩ := hresolve _ f s hs hlookup
      exact ⟨some signature, s', by rw [run_bind_eq hrun]; rfl, hg⟩
  all_goals exact ⟨_, s, rfl, .refl s⟩

theorem closure {resolve : Resolver} (hresolve : resolve.Completes known) (frame? : Option Frame) (f : FunctionDef)
    (pos : Position) (hf : f ∈ known) : Completes known (entry names resolve frame? (.closure f pos)) := by
  intro s hs
  obtain ⟨⟨definition?, progress⟩, hlookup⟩ := hs.present f hf
  have htype (s : State) : ∃ s', (setType pos (.function f.name)).run s = .ok ((), s') ∧ s.Grows s' :=
    ⟨_, rfl, ⟨rfl, .refl _, Nat.le_refl _, .refl _⟩⟩
  unfold entry
  rw [run_bind_eq (show (get : Step State).run s = .ok (s, s) from rfl), hlookup]
  obtain ⟨last, hset, hgrows⟩ := htype s
  rcases definition? with _ | g
  · exact ⟨(), last, hset, hgrows⟩
  cases progress with
  | pending =>
    obtain ⟨signature, mid, hrun, hg⟩ := hresolve f.key g s hs hlookup
    obtain ⟨last, hset, hgrows⟩ := htype mid
    exact ⟨(), last, (run_bind_eq (discard_run hrun)).trans hset, hg.trans hgrows⟩
  | active | resolved => exact ⟨(), last, hset, hgrows⟩

def law : Law where
  holds := Completes known
  pure _ := of_grows (.pure _) fun _ => ⟨_, _, rfl⟩
  get := of_grows .get fun _ => ⟨_, _, rfl⟩
  bind := bind
  reportAt names pos? e := of_grows (.reportAt names pos? e) fun _ => ⟨_, _, rfl⟩
  poison := of_grows .poison fun _ => ⟨_, _, rfl⟩
  setType pos ty := of_grows (.setType pos ty) fun _ => ⟨_, _, rfl⟩
  capture key name := of_grows (.capture key name) fun _ => ⟨_, _, rfl⟩

/-- Expressions in which all functions are known are checked to the end. -/
def exprLaw (names : NameTable) {resolve : Resolver} (hresolve : resolve.Completes known) : ExprLaw names resolve (· ∈ known) where
  toLaw := law
  enterBlock := enterBlock
  signatureOf? := signatureOf? hresolve
  closure := closure hresolve

end Completes

/-- A check of a body that gives a type gives a signature, and reports at most that there is no type. -/
theorem resolveWithin_run {nesting : Nat} {key : FunctionKey} {f : FunctionDef} {mid : State} {ty : Ty}
    (hrun : (expr names (resolveWithin names nesting) (some ⟨key, f.scope.length⟩) f.body).run
      { s with
        table := s.table.enterScope f.bodyScope
        typing := { s.typing with functions := s.typing.functions.setProgress key .active } } = .ok (ty, mid))
    (hleave : mid.table.leave = .ok s.table) :
    ∃ signature s', (resolveWithin names (nesting + 1) key f).run s = .ok (signature, s') ∧
      ∀ i ∈ s'.journal.issues, i ∈ mid.journal.issues ∨
        i = (TypeError.undetermined f.name).toIssue names (some f.pos) := by
  have hscope := inScope_run (·.enterScope f.bodyScope) (s := { s with
    typing := { s.typing with functions := s.typing.functions.setProgress key .active } }) hrun hleave
  rw [resolveWithin, run_bind_eq (show (get : Step State).run s = .ok (s, s) from rfl),
    run_bind_eq (show (modifyTyping _).run s = .ok ((), _) from rfl), run_bind_eq hscope,
    run_bind_eq (show (get : Step State).run { mid with table := s.table } = .ok (_, _) from rfl)]
  simp only
  split
  · refine ⟨_, _, rfl, fun i hi => ?_⟩
    rwa [Journal.issues_note, Journal.issues_report, List.mem_append, List.mem_singleton] at hi
  · refine ⟨_, _, rfl, fun i hi => ?_⟩
    rw [Journal.issues_note] at hi
    exact .inl hi

/-- What is asked of known functions: in their bodies, too, only known functions are defined. -/
def Closed (known : List FunctionDef) : Prop :=
  ∀ f ∈ known, ∀ P : FunctionDef → Prop, (∀ g ∈ known, P g) → f.body.Obeys (.defining P) f.inside

section Bodies

variable (names) (hclosed : Closed known)
include hclosed

theorem resolveWithin_completes (nesting : Nat) : (resolveWithin names nesting).Completes known := by
  induction nesting with
  | zero => exact fun _ f s _ _ => ⟨.provisional f, s, rfl, .refl s⟩
  | succ nesting ih =>
    intro key f s hs hpending
    have hbody := hclosed f (hs.known key f _ hpending) (· ∈ known) fun _ hg => hg
    obtain ⟨ty, mid, hrun, hg⟩ := (Completes.exprLaw names ih).expr (some ⟨key, f.scope.length⟩) f.body hbody _
      (hs.enterBody key f)
    have hleave : mid.table.leave = .ok s.table := by
      rw [hg.table]
      exact SymbolTable.leave_enterScope _ _
    obtain ⟨signature, s', hresolved, _⟩ := resolveWithin_run hrun hleave
    exact ⟨signature, s', hresolved, resolveWithin_grows _ key f s _ _ hpending hresolved⟩

theorem resolve_completes : (resolve names).Completes known := by
  intro key f s hs hpending
  unfold resolve
  rw [run_bind_eq (show (get : Step State).run s = .ok (s, s) from rfl)]
  exact resolveWithin_completes names hclosed s.typing.functions.length key f s hs hpending

theorem resolveOnce_completes (key : FunctionKey) : Completes known (resolveOnce names key) := by
  intro s hs
  unfold resolveOnce
  rw [run_bind_eq (show (get : Step State).run s = .ok (s, s) from rfl)]
  rcases hlookup : s.typing.functions.lookup key with _ | ⟨_ | f, _ | _ | signature⟩
  case some.some.pending =>
    obtain ⟨signature, s', hrun, hg⟩ := resolve_completes names hclosed key f s hs hlookup
    exact ⟨(), s', discard_run hrun, hg⟩
  all_goals exact ⟨(), s, rfl, .refl s⟩

theorem resolveAll_completes (keys : List FunctionKey) : Completes known (resolveAll names keys) := by
  induction keys with
  | nil => exact Completes.law.pure _
  | cons key keys ih => exact .bind (resolveOnce_completes names hclosed key) fun _ => ih

theorem entryPoint_completes (name : Ident) (expected : FunctionType) :
    Completes known (entryPoint names name expected) :=
  (Completes.exprLaw names (resolve_completes names hclosed)).entryPoint name expected

/-- An item is checked to the end. Only the type of the name that it assigns is set in the table. -/
theorem exists_item (hs : s.Gathers known) {i : Item} (h : i.Obeys (.defining (· ∈ known))) :
    ∃ s', (item names i).run s = .ok ((), s') ∧ s.Follows s' := by
  cases i with
  | function f pos =>
    obtain ⟨_, s', hrun, hg⟩ := resolveOnce_completes names hclosed f.key s hs
    exact ⟨s', hrun, hg.follows⟩
  | assignment name value pos =>
    obtain ⟨ty, mid, hrun, hg⟩ := (Completes.exprLaw names (resolve_completes names hclosed)).expr none value h.2 s hs
    rw [item, run_bind_eq hrun]
    split
    · exact ⟨_, rfl, hg.follows.trans ⟨mid.table.sameBlocks_setTypeIn rootBlock name ty, .refl _, .refl _⟩⟩
    · exact ⟨mid, rfl, hg.follows⟩

theorem exists_items (hs : s.Gathers known) {is : List Item} (h : Program.Obeys (.defining (· ∈ known)) is) :
    ∃ s', (items names is).run s = .ok ((), s') ∧ s.Follows s' := by
  induction is generalizing s with
  | nil => exact ⟨s, rfl, .refl s⟩
  | cons i is ih =>
    obtain ⟨hitem, hitems⟩ := List.forall_mem_cons.1 h
    obtain ⟨mid, hrun, hfollows⟩ := exists_item names hclosed hs hitem
    obtain ⟨s', hrun', hfollows'⟩ := ih (hs.follow hfollows) hitems
    exact ⟨s', by rw [items, run_bind_eq hrun]; exact hrun', hfollows.trans hfollows'⟩

end Bodies

/-- What is collected before a check: the functions of the program, beside those that are known. -/
theorem State.Gathers.addDefinitions (hs : s.Gathers known) (definitions : List FunctionDef) :
    State.Gathers (definitions ++ known) { s with typing := definitions.foldl Typing.addDefinition s.typing } where
  framed := hs.framed
  present f hf := by
    show ∃ info, (definitions.foldl Typing.addDefinition s.typing).functions.lookup f.key = some info
    rw [Typing.functions_addDefinitions]
    rcases FunctionTable.lookup_foldl_insert FunctionDef.key (fun f => ⟨some f, .pending⟩) definitions
      s.typing.functions f.key with ⟨_, _, _, hfound⟩ | ⟨hnone, hfound⟩
    · exact ⟨_, hfound⟩
    · rw [hfound]
      rcases List.mem_append.1 hf with hf | hf
      · exact absurd rfl (hnone f hf)
      · exact hs.present f hf
  known key f progress hlookup := by
    rw [Typing.functions_addDefinitions] at hlookup
    rcases FunctionTable.lookup_foldl_insert FunctionDef.key (fun f => ⟨some f, .pending⟩) definitions
      s.typing.functions key with ⟨g, hg, _, hfound⟩ | ⟨_, hfound⟩
    · rw [hfound] at hlookup
      cases hlookup
      exact List.mem_append_left _ hg
    · rw [hfound] at hlookup
      exact List.mem_append_right _ (hs.known key f progress hlookup)

theorem gathers_nil (hframed : s.table.Framed) (hbuiltins : s.typing.BuiltinsOnly) : s.Gathers [] where
  framed := hframed
  present := List.forall_mem_nil _
  known key f progress hlookup := by cases hbuiltins key _ hlookup

/-- A state in which a program can be checked: the functions that are known are collected with those in their bodies. -/
def State.Ready (s : State) : Prop :=
  ∃ known, s.Gathers known ∧ Closed known

theorem State.ready_of_builtinsOnly (hframed : s.table.Framed) (hbuiltins : s.typing.BuiltinsOnly) : s.Ready :=
  ⟨[], gathers_nil hframed hbuiltins, List.forall_mem_nil _⟩

/-- A program is checked to the end if all of its functions are collected, and then the next one can be. -/
theorem exists_program (names : NameTable) {program : Program} (hs : s.Ready) (hcollects : program.Collects) :
    ∃ s', (Check.program names program).run s = .ok ((), s') ∧ s.table.SameBlocks s'.table ∧
      s.journal.GainsErrors s'.journal ∧ s'.Ready := by
  obtain ⟨known, hs, hclosed⟩ := hs
  let definitions := program.flatMap Item.definitions
  have hclosed' : Closed (definitions ++ known) := by
    intro f hf P hP
    rw [List.forall_mem_append] at hP
    rcases List.mem_append.1 hf with hf | hf
    · exact Program.bodies_obey (hcollects P hP.1) f (Program.definitions_subset _ hf)
    · exact hclosed f hf P hP.2
  have hobeys : program.Obeys (.defining (· ∈ definitions ++ known)) :=
    hcollects _ fun f hf => List.mem_append_left _ hf
  have hcollect : (modifyTyping fun t => definitions.foldl Typing.addDefinition t).run s = .ok ((), _) := rfl
  have hstart := hs.addDefinitions definitions
  obtain ⟨mid, hitems, hfollows⟩ := exists_items names hclosed' hstart hobeys
  have hmid := hstart.follow hfollows
  obtain ⟨_, last, hkeys, hg⟩ := resolveAll_completes names hclosed' (mid.typing.functions.map Prod.fst) mid hmid
  have hlast := hfollows.trans hg.follows
  unfold Check.program
  rw [run_bind_eq hcollect, run_bind_eq hitems, run_bind_eq (show (get : Step State).run mid = .ok (mid, mid) from rfl),
    run_bind_eq hkeys]
  refine ⟨_, rfl, hlast.blocks, hlast.journal.trans (.note _ _ _ _), definitions ++ known, ?_, hclosed'⟩
  exact hmid.follow (hg.follows.trans ⟨.refl _, .note _ _ _ _, .refl _⟩)

end Check
end ToneScript
