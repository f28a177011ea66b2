import Mathlib.Data.List.Perm.Subperm
import ToneScript.Proofs.Typing.Once
import ToneScript.Proofs.Typing.Program

/-! The check of functions. A function is turned to where it is defined, and the functions in it while its body is being
checked. By induction on how deep functions may nest, all functions of a program are turned to, in the order of the
text. -/
namespace ToneScript

/-- What is found to be waiting after something else has been noted for a function. -/
theorem FunctionTable.lookup_setProgress_pending {t : FunctionTable} {key key' : FunctionKey} {progress : Progress}
    (hprogress : progress ≠ .pending) (f : FunctionDef) :
    (t.setProgress key progress).lookup key' = some ⟨some f, .pending⟩ ↔
      key ≠ key' ∧ t.lookup key' = some ⟨some f, .pending⟩ := by
  constructor
  · intro h
    rcases of_setProgress h with ⟨_, heq, _⟩ | hother
    · exact absurd heq.symm hprogress
    · exact hother
  · rintro ⟨hne, h⟩
    rw [lookup_setProgress, if_neg hne, h]

/-- Parameters keep their names when something is noted for a function. -/
theorem FunctionTable.spelled_setProgress {names : NameTable} {t : FunctionTable} {key : FunctionKey}
    {progress : Progress} (h : ∀ key info, t.lookup key = some info → info.Spelled names)
    (hprogress : ∀ signature, progress = .resolved signature → signature.Spelled names) :
    ∀ key' info, (t.setProgress key progress).lookup key' = some info → info.Spelled names := by
  intro key' info hlookup
  rw [lookup_setProgress] at hlookup
  split at hlookup
  · obtain ⟨old, hold, rfl⟩ := Option.map_eq_some_iff.1 hlookup
    exact ⟨(h key' old hold).definition, hprogress⟩
  · exact h key' info hlookup

namespace Check

variable {α : Type} {names : NameTable} {T : SymbolTable} {constants : List (Ident × Value)} {frame? : Option Frame}
  {scope : List BlockKey} {lo hi : Nat} {f : FunctionDef} {due rest fs : List FunctionDef} {places : List Place}
  {s s' mid : State}

namespace State.Due

/-- The function that is due next is waiting. -/
theorem lookup_head (h : s.Due names T frame? scope (f.functions ++ rest)) :
    s.typing.functions.lookup f.key = some ⟨some f, .pending⟩ := by
  refine (h.pending f.key f).2 ⟨List.mem_append_left _ ?_, rfl⟩
  rw [FunctionDef.functions_eq]
  exact List.mem_cons_self

/-- No more functions are waiting than there are. -/
theorem length_le (h : s.Due names T frame? scope due) : due.length ≤ s.typing.functions.length := by
  have hsub : due.map FunctionDef.key ⊆ s.typing.functions.map Prod.fst := by
    intro key hkey
    obtain ⟨f, hf, rfl⟩ := List.mem_map.1 hkey
    exact List.mem_map.2 ⟨_, mem_of_lookup ((h.pending f.key f).2 ⟨hf, rfl⟩), rfl⟩
  have hlength := (List.Nodup.subperm h.distinct hsub).length_le
  rwa [List.length_map, List.length_map] at hlength

/-- A step that changes no more of the table than what types names have. -/
theorem retable (h : mid.Due names T frame? scope due) (htyping : s'.typing = mid.typing)
    (hlater : T.Later UInt64.size s'.table) (hframe : s'.table.frame = mid.table.frame) (hframed : s'.table.Framed) :
    s'.Due names T frame? scope due where
  later := hlater
  frame := hframe.trans h.frame
  framed := hframed
  pending := htyping ▸ h.pending
  distinct := h.distinct
  declared := h.declared
  outside := h.outside
  uncaptured := htyping ▸ h.uncaptured
  spelled := htyping ▸ h.spelled

/-- In the body of the function that is due next, those in its body are. -/
theorem enterBody (h : s.Due names T frame? scope (f.functions ++ rest)) (hscope : f.scope = scope.reverse) :
    State.Due names T (some ⟨f.key, f.scope.length⟩) (f.argsKey :: scope) (f.body.functions ++ rest)
      { s with
        table := s.table.enterScope f.bodyScope
        typing := { s.typing with functions := s.typing.functions.setProgress f.key .active } } := by
  have hall : f.functions ++ rest = f :: (f.body.functions ++ rest) := by
    rw [FunctionDef.functions_eq, List.cons_append]
  rw [hall] at h
  obtain ⟨hfirst, hdistinct⟩ := List.nodup_cons.1 h.distinct
  have hother (g : FunctionDef) (hg : g ∈ f.body.functions ++ rest) : f.key ≠ g.key := fun heq =>
    hfirst (List.mem_map.2 ⟨g, hg, heq.symm⟩)
  constructor
  case later => exact ⟨h.later.kept, h.later.added⟩
  case frame =>
    rw [SymbolTable.frame_enterScope, FunctionDef.bodyScope, hscope, List.reverse_append, List.reverse_reverse]
    rfl
  case framed => exact SymbolTable.framed_enterScope _ (bodyScope_ne_nil f)
  case pending =>
    intro key g
    rw [FunctionTable.lookup_setProgress_pending (by nofun), h.pending]
    constructor
    · rintro ⟨hne, hg, rfl⟩
      rcases List.mem_cons.1 hg with rfl | hg
      · exact absurd rfl hne
      · exact ⟨hg, rfl⟩
    · rintro ⟨hg, rfl⟩
      exact ⟨hother g hg, List.mem_cons_of_mem _ hg, rfl⟩
  case distinct => exact hdistinct
  case declared => exact fun g hg => h.declared g (List.mem_cons_of_mem _ hg)
  case outside =>
    rintro g hg _ ⟨⟩
    exact hother g hg
  case uncaptured => exact fun g hg => h.uncaptured g (List.mem_cons_of_mem _ hg)
  case spelled => exact FunctionTable.spelled_setProgress h.spelled (by nofun)

/-- After the body of a function has been checked. -/
theorem leaveBody (h : s.Due names T frame? scope (f.functions ++ rest))
    (hmid : mid.Due names T (some ⟨f.key, f.scope.length⟩) (f.argsKey :: scope) rest) (htable : s'.table = s.table)
    {signature : Signature} (hspelled : signature.Spelled names)
    (hfunctions : s'.typing.functions = mid.typing.functions.setProgress f.key (.resolved signature))
    (hcaptures : s'.typing.captures = mid.typing.captures) : s'.Due names T frame? scope rest := by
  have hother (g : FunctionDef) (hg : g ∈ rest) : f.key ≠ g.key := hmid.outside g hg _ rfl
  constructor
  case later => exact htable ▸ h.later
  case frame => exact htable ▸ h.frame
  case framed => exact htable ▸ h.framed
  case pending =>
    intro key g
    rw [hfunctions, FunctionTable.lookup_setProgress_pending (by nofun), hmid.pending]
    constructor
    · exact fun hwaiting => hwaiting.2
    · rintro ⟨hg, rfl⟩
      exact ⟨hother g hg, hg, rfl⟩
  case distinct => exact hmid.distinct
  case declared => exact hmid.declared
  case outside => exact fun g hg => h.outside g (List.mem_append_right _ hg)
  case uncaptured =>
    intro g hg
    rw [Typing.capturesOf, hcaptures]
    exact hmid.uncaptured g hg
  case spelled =>
    rw [hfunctions]
    refine FunctionTable.spelled_setProgress hmid.spelled ?_
    rintro _ ⟨⟩
    exact hspelled

end State.Due

/-- A resolver by which a function is turned to once and the functions in it are, unless these are too many. -/
def Resolver.Once (names : NameTable) (T : SymbolTable) (constants : List (Ident × Value)) (limit : Nat)
    (resolve : Resolver) (observe : Observer) : Prop :=
  ∀ frame? scope lo hi f, f.Placed constants T scope lo hi → f.functions.length ≤ limit →
    Goes names T frame? scope hi f.functions f.places (fun s => .entered f.key .pending :: observe f.key f s)
      (resolve f.key f) fun _ => True

namespace Goes

variable {P : α → Prop} {events : State → List Event} {resolve : Resolver} {observe : Observer}

theorem discarded {x : Step α} (h : Goes names T frame? scope hi fs places events x P) :
    Goes names T frame? scope hi fs places events (discard x) fun _ => True := by
  intro s rest u s' hs hrest hrun
  obtain ⟨a, hrun⟩ := discard_ok hrun
  obtain ⟨hs', hpasses, _⟩ := h s rest a s' hs hrest hrun
  exact ⟨hs', hpasses, trivial⟩

/-- A step that turns to a function if this is waiting. -/
theorem turn {x y : Step α}
    (hy : Goes names T frame? scope hi f.functions places (fun s => .entered f.key .pending :: observe f.key f s) y P)
    (hx : ∀ s, s.typing.functions.lookup f.key = some ⟨some f, .pending⟩ → x.run s = y.run s) :
    Goes names T frame? scope hi f.functions places (turnEvents observe f.key) x P := by
  intro s rest a s' hs hrest hrun
  have hpending := hs.lookup_head
  have hevents : turnEvents observe f.key s = .entered f.key .pending :: observe f.key f s := by
    rw [turnEvents, hpending]
  rw [hevents]
  rw [hx s hpending] at hrun
  exact hy s rest a s' hs hrest hrun

/-- A step in a block that is entered before it and left after it. -/
theorem enterBlock {x : Step α} {key : BlockKey} (hgrows : Grows x)
    (hx : Goes names T frame? (key :: scope) hi fs places events x P) :
    Goes names T frame? scope hi fs places (fun s => events { s with table := s.table.enterBlock key })
      (inScope (·.enterBlock key) x) P := by
  intro s rest a s' hs hrest hrun
  obtain ⟨mid, table, hstep, hleave, rfl⟩ := inScope_ok hrun
  let entered : State := { s with table := s.table.enterBlock key }
  have hframed : entered.table.Framed := hs.framed.enterBlock key
  have hframe : entered.table.frame = key :: scope := by
    rw [← hs.frame]
    exact SymbolTable.frame_enterBlock hs.framed key
  have hentered : entered.Due names T frame? (key :: scope) (fs ++ rest) :=
    { hs with later := ⟨hs.later.kept, hs.later.added⟩, frame := hframe, framed := hframed }
  obtain ⟨hmid, hpasses, ha⟩ := hx entered rest a mid hentered hrest hstep
  have htable : table = s.table := by
    rw [(hgrows entered a mid hframed hstep).table] at hleave
    exact (Except.ok.inj hleave).symm.trans (Except.ok.inj (SymbolTable.leave_enterBlock_self hs.framed key))
  subst htable
  exact ⟨{ hmid with later := hs.later, frame := hs.frame, framed := hs.framed },
    ⟨hpasses.entered, hpasses.checked, hpasses.finished, hpasses.captured, hpasses.kept, hpasses.reported⟩, ha⟩

variable {limit : Nat}

mutual

/-- The functions in an expression are turned to, in the order of the text. -/
theorem expr (hproper : ∀ key name d, T.find? key name = some d → d.Proper key) (hgrows : resolve.Grows)
    (hresolve : resolve.Once names T constants limit observe) (frame? : Option Frame) (e : Expr)
    {scope : List BlockKey} {lo hi : Nat} (hplaced : e.Placed constants T scope lo hi)
    (hlimit : e.functions.length ≤ limit) :
    Goes names T frame? scope hi e.functions e.places (exprEvents names resolve observe frame? e)
      (expr names resolve frame? e) fun _ => True := by
  cases e with
  | span compiled tree =>
    rw [Check.expr, exprEvents, Expr.places, Expr.functions]
    exact arithmetic hproper resolve observe tree hplaced.2.2
  | conditional c t e pos =>
    obtain ⟨m, n, hc, ht, he⟩ := hplaced
    have hbefore := (Expr.Placed.inOrder t ht).2.2
    have hafter := (Expr.Placed.inOrder e he).2.2
    have hle₁ := (Expr.Placed.inOrder t ht).1
    have hle₂ := (Expr.Placed.inOrder e he).1
    rw [Expr.functions, List.append_assoc, List.length_append, List.length_append] at hlimit
    rw [Check.expr, exprEvents, Expr.places, Expr.functions, List.append_assoc]
    have hcondition := expr hproper hgrows hresolve frame? c hc (by omega)
    have hthen := expr hproper hgrows hresolve frame? t ht (by omega)
    have helse := expr hproper hgrows hresolve frame? e he (by omega)
    have hbetween : ∀ f ∈ t.functions ++ e.functions, m ≤ f.argsKey.toNat :=
      List.forall_mem_append.2 ⟨fun f hf => (hbefore f hf).1, fun f hf => Nat.le_trans hle₁ (hafter f hf).1⟩
    refine bind hcondition (fun ty _ => after (expect .condition .boolean ty c.pos (.head [])) fun _ _ => ?_)
      (Nat.le_trans hle₁ hle₂) hbetween
    refine bind hthen (fun thenType _ => last helse fun elseType _ => ?_) hle₂ fun f hf => (hafter f hf).1
    rw [← List.append_nil (e.pos.places _)]
    exact reported e.pos _ (.head _) (typed pos _)
  | block key items pos =>
    rw [Expr.functions] at hlimit
    rw [Check.expr, exprEvents, Expr.places, Expr.functions]
    have hitems := entries hproper hgrows hresolve frame? items hplaced.2 hlimit
    exact finish (enterBlock (Grows.entries names hgrows frame? items) hitems) fun _ _ => typed _ _
  | number | boolean | var | prefixed | binary | call => cases hplaced

theorem entries (hproper : ∀ key name d, T.find? key name = some d → d.Proper key) (hgrows : resolve.Grows)
    (hresolve : resolve.Once names T constants limit observe) (frame? : Option Frame) (items : List BlockEntry)
    {scope : List BlockKey} {lo hi : Nat} (hplaced : BlockEntry.AllPlaced constants T scope lo hi items)
    (hlimit : (BlockEntry.functionsOfAll items).length ≤ limit) :
    Goes names T frame? scope hi (BlockEntry.functionsOfAll items) (BlockEntry.placesOfAll items)
      (entriesEvents names resolve observe frame? items) (entries names resolve frame? items) fun _ => True := by
  cases items with
  | nil =>
    rw [Check.entries, entriesEvents, BlockEntry.placesOfAll, BlockEntry.functionsOfAll]
    exact pure trivial
  | cons item items =>
    obtain ⟨m, hitem, hitems⟩ := hplaced
    obtain ⟨hle, _, hafter⟩ := BlockEntry.AllPlaced.inOrder items hitems
    rw [BlockEntry.functionsOfAll, List.length_append] at hlimit
    rw [Check.entries, entriesEvents, BlockEntry.placesOfAll, BlockEntry.functionsOfAll]
    have hfirst := entry hproper hgrows hresolve frame? item hitem (by omega)
    have hrest := entries hproper hgrows hresolve frame? items hitems (by omega)
    exact bind hfirst (fun _ _ => hrest) hle fun f hf => (hafter f hf).1

theorem entry (hproper : ∀ key name d, T.find? key name = some d → d.Proper key) (hgrows : resolve.Grows)
    (hresolve : resolve.Once names T constants limit observe) (frame? : Option Frame) (item : BlockEntry)
    {scope : List BlockKey} {lo hi : Nat} (hplaced : item.Placed constants T scope lo hi)
    (hlimit : item.functions.length ≤ limit) :
    Goes names T frame? scope hi item.functions item.places (entryEvents names resolve observe frame? item)
      (entry names resolve frame? item) fun _ => True := by
  cases item with
  | closure f pos =>
    rw [BlockEntry.functions] at hlimit
    rw [BlockEntry.places, BlockEntry.functions]
    have hturned := discarded (hresolve frame? scope lo hi f hplaced hlimit)
    refine turn (finish hturned fun _ _ => setType pos (.function f.name)) fun s hpending => ?_
    unfold Check.entry
    rw [run_bind_eq (show (get : Step State).run s = .ok (s, s) from rfl)]
    simp only [hpending]
  | operator op value guard? pos =>
    obtain ⟨_, m, hvalue, hguard⟩ := hplaced
    obtain ⟨hle, _, hafter⟩ := Expr.OptionPlaced.inOrder guard? hguard
    rw [BlockEntry.functions, List.length_append] at hlimit
    rw [BlockEntry.places, BlockEntry.functions]
    unfold Check.entry entryEvents
    have hfirst := expr hproper hgrows hresolve frame? value hvalue (by omega)
    refine guarded (reportAt pos _ (.head _)) (bind hfirst (fun ty _ =>
      after (expect .blockEntry .number ty value.pos (.head _)) fun _ _ => ?_) hle fun f hf => (hafter f hf).1)
    cases guard? with
    | none =>
      rw [Expr.placesOfOption, Expr.functionsOfOption]
      exact pure trivial
    | some guard =>
      rw [Expr.functionsOfOption] at hlimit ⊢
      rw [Expr.placesOfOption]
      have hcondition := expr hproper hgrows hresolve frame? guard hguard (by omega)
      exact last hcondition fun ty _ => expect .guard .boolean ty guard.pos (.head _)

end

end Goes

section Bodies

variable (hproper : ∀ key name d, T.find? key name = some d → d.Proper key)
include hproper

/-- By induction on how deep functions may nest: while the body of a function is being checked, the functions in it are
turned to and no others, since those that are called are not waiting. -/
theorem resolveWithin_once (nesting : Nat) :
    (resolveWithin names nesting).Once names T constants nesting (bodyEvents names nesting) := by
  induction nesting with
  | zero =>
    intro frame? scope lo hi f _ hlimit
    rw [FunctionDef.functions_eq, List.length_cons] at hlimit
    omega
  | succ nesting ih =>
    intro frame? scope lo hi f hplaced hlimit s rest signature s' hs hrest hrun
    obtain ⟨_, hscope, _, _, _, _, hbody⟩ := FunctionDef.placed_iff.1 hplaced
    have hpending := hs.lookup_head
    have hlimit' : f.body.functions.length ≤ nesting := by
      rw [FunctionDef.functions_eq, List.length_cons] at hlimit
      omega
    obtain ⟨ty, mid, hexpr, hsignature, _, hfunctions, _, _, _, _, hcaptures, hissues⟩ := resolveWithin_ok hrun
    -- While its body is being checked the function is not waiting, and one level less is enough for those in it.
    obtain ⟨hmid, hpasses, _⟩ := Goes.expr hproper (resolveWithin_grows nesting) ih _ f.body hbody hlimit' _ rest ty mid
      (hs.enterBody hscope) hrest hexpr
    have hspelled : signature.Spelled names := by
      rw [hsignature]
      exact Signature.spelled_of_type ((hs.spelled _ _ hpending).definition f rfl) rfl
    have htable : s'.table = s.table := (resolveWithin_grows _ _ _ _ _ _ hpending hrun).table
    have hafter (key : FunctionKey) : s'.typing.capturesOf key = mid.typing.capturesOf key := by
      rw [Typing.capturesOf, Typing.capturesOf, hcaptures]
    have hkeys : f.functions.map FunctionDef.key = f.key :: f.body.functions.map FunctionDef.key := by
      rw [FunctionDef.functions_eq, List.map_cons]
    have hevents : bodyEvents names (nesting + 1) f.key f s =
        .checked f.key s.typing s'.typing :: exprEvents names (resolveWithin names nesting) (bodyEvents names nesting)
          (some ⟨f.key, f.scope.length⟩) f.body
          { s with
            table := s.table.enterScope f.bodyScope
            typing := { s.typing with functions := s.typing.functions.setProgress f.key .active } } := by
      rw [bodyEvents, eventsAfter, hrun]
      rfl
    refine ⟨hs.leaveBody hmid htable hspelled hfunctions hcaptures, ?_, trivial⟩
    simp only [hevents]
    constructor
    case entered =>
      rw [FunctionDef.functions_eq, List.map_cons]
      exact congrArg ((f.key, Progress.pending) :: ·) hpasses.entered
    case checked =>
      rw [hkeys]
      exact congrArg (f.key :: ·) hpasses.checked
    case finished =>
      intro key hmem
      rcases List.mem_cons.1 hmem with heq | hmem
      · cases heq
      rcases List.mem_cons.1 hmem with heq | hmem
      · cases heq
      · exact hpasses.finished key hmem
    case captured =>
      intro key before after hmem
      rcases List.mem_cons.1 hmem with heq | hmem
      · cases heq
      rcases List.mem_cons.1 hmem with heq | hmem
      · cases heq
        refine ⟨hs.uncaptured f (List.mem_append_left _ ?_), rfl⟩
        rw [FunctionDef.functions_eq]
        exact List.mem_cons_self
      · rw [hafter]
        exact hpasses.captured key before after hmem
    case kept =>
      -- The body captures for the function itself, whose key is one of those that are left out here.
      intro key hkey hframe
      rw [hkeys, List.mem_cons, not_or] at hkey
      rw [hafter]
      refine hpasses.kept key hkey.2 ?_
      rintro _ ⟨⟩
      exact Ne.symm hkey.1
    case reported =>
      obtain ⟨issues, hbefore, hconfined⟩ := hpasses.reported
      rw [FunctionDef.places_eq]
      rcases hissues with hsame | hone
      · exact ⟨issues, hsame.trans hbefore, hconfined.widen (List.sublist_append_left _ _)⟩
      · refine ⟨issues ++ [(TypeError.undetermined f.name).toIssue names (some f.pos)], ?_, ?_⟩
        · rw [hone, hbefore, List.append_assoc]
        · exact hconfined.append (.single f.pos (List.mem_singleton_self _))

theorem resolve_once (limit : Nat) :
    (resolve names).Once names T constants limit (functionEvents names) := by
  intro frame? scope lo hi f hplaced _ s rest signature s' hs hrest hrun
  have hlength := hs.length_le
  rw [List.length_append] at hlength
  unfold resolve at hrun
  obtain ⟨s₀, s₁, hget, hrun⟩ := run_bind_ok hrun
  cases hget
  exact resolveWithin_once hproper s.typing.functions.length frame? scope lo hi f hplaced (by omega) s rest signature s'
    hs hrest hrun

/-- The functions in an item are turned to, in the order of the text. -/
theorem item_once {i : Item} {is : List Item} {u : Unit} (hplaced : i.Placed constants T lo hi)
    (hs : s.Due names T none [rootBlock] (i.functions ++ rest)) (hrest : ∀ f ∈ rest, hi ≤ f.argsKey.toNat)
    (hplain : s.typing.functions.Plain) (hawaits : s.Awaits (i :: is)) (h : (item names i).run s = .ok (u, s')) :
    s'.Due names T none [rootBlock] rest ∧ s.Passes none i.functions i.places (itemEvents names i s) s' := by
  have hevolves := (item_evolves hs.framed hplain hawaits h).1
  cases i with
  | function f pos =>
    have hitem : Goes names T none [rootBlock] hi f.functions f.places (turnEvents (functionEvents names) f.key)
        (resolveOnce names f.key) fun _ => True := by
      refine Goes.turn (.discarded (resolve_once hproper _ none _ lo hi f hplaced (Nat.le_refl _))) fun s hpending => ?_
      unfold resolveOnce
      rw [run_bind_eq (show (get : Step State).run s = .ok (s, s) from rfl)]
      simp only [hpending]
    obtain ⟨hs', hpasses, _⟩ := hitem s rest u s' hs hrest h
    exact ⟨hs', hpasses⟩
  | assignment name value pos =>
    obtain ⟨m, d, hvalue, _, _, _, hm, hlt, _⟩ := hplaced
    have hle : m ≤ hi := by omega
    rw [item] at h
    obtain ⟨ty, mid, hexpr, hset⟩ := run_bind_ok h
    obtain ⟨hmid, hpasses, _⟩ := Goes.expr hproper resolve_grows (resolve_once hproper _) none value hvalue
      (Nat.le_refl _) s rest ty mid hs (fun f hf => Nat.le_trans hle (hrest f hf)) hexpr
    have hkept : s'.typing = mid.typing ∧ s'.journal = mid.journal ∧ s'.table.frame = mid.table.frame := by
      split at hset <;> cases hset
      · exact ⟨rfl, rfl, SymbolTable.frame_setTypeIn _ _ _ _⟩
      · exact ⟨rfl, rfl, rfl⟩
    obtain ⟨htyping, hjournal, hframe⟩ := hkept
    refine ⟨hmid.retable htyping (hs.later.trans (hevolves.table _)) hframe (hevolves.framed hs.framed), ?_⟩
    exact ⟨hpasses.entered, hpasses.checked, hpasses.finished, htyping ▸ hpasses.captured, htyping ▸ hpasses.kept,
      hjournal ▸ hpasses.reported⟩

/-- By induction on the items of a program, from the outermost level at the beginning to that at the end. -/
theorem items_once {is : List Item} {u : Unit} (hplaced : Item.AllPlaced constants T lo hi is)
    (hs : s.Due names T none [rootBlock] (Program.functions is)) (hplain : s.typing.functions.Plain)
    (hawaits : s.Awaits is) (h : (items names is).run s = .ok (u, s')) :
    s'.Due names T none [rootBlock] [] ∧
      s.Passes none (Program.functions is) (Program.places is) (itemsEvents names is s) s' := by
  induction is generalizing lo s with
  | nil =>
    cases h
    exact ⟨hs, .near (.refl _ _) (List.append_nil _).symm (.nil _)⟩
  | cons i is ih =>
    obtain ⟨m, hitem, hitems⟩ := hplaced
    have hfunctions : Program.functions (i :: is) = i.functions ++ Program.functions is := List.flatMap_cons
    have hplaces : Program.places (i :: is) = i.places ++ Program.places is := List.flatMap_cons
    rw [hfunctions] at hs
    rw [hfunctions, hplaces]
    rw [items] at h
    obtain ⟨⟨⟩, mid, hfirst, hrest⟩ := run_bind_ok h
    obtain ⟨hevolves, hawaits'⟩ := item_evolves hs.framed hplain hawaits hfirst
    -- Functions of later items open after the end of this one.
    obtain ⟨hmid, hpasses⟩ := item_once hproper hitem hs (fun f hf => ((Item.AllPlaced.inOrder hitems).2.2 f hf).1)
      hplain hawaits hfirst
    obtain ⟨hdone, hpasses'⟩ := ih hitems hmid (hevolves.functions.plain hplain) hawaits' hrest
    have hevents : itemsEvents names (i :: is) s = itemEvents names i s ++ itemsEvents names is mid := by
      rw [itemsEvents, eventsAfter, hfirst]
    rw [hevents]
    rw [← List.append_nil (i.functions ++ _)] at hs
    exact ⟨hdone, hpasses.trans hpasses' hs⟩

end Bodies

end Check
end ToneScript
