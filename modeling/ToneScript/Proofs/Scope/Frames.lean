import ToneScript.Proofs.Scope.Blocks
import ToneScript.Proofs.Scope.Lookup

/-! The symbol table as a stack of frames. A frame is a list of blocks; entering a block extends the top frame, entering a
chain of blocks puts a new frame on top, and leaving takes back the latest enter. The flat lists of a symbol table
represent such a stack after every sequence of actions. -/
namespace ToneScript

namespace Scoping

/-- The active blocks of a frame, innermost first. -/
structure Frame where
  blocks : List BlockKey
  ne_nil : blocks ≠ []

namespace Frame

/-- The frame of a chain of blocks, outermost first. -/
def ofChain (chain : List BlockKey) (h : chain ≠ []) : Frame :=
  ⟨chain.reverse, mt List.reverse_eq_nil_iff.1 h⟩

/-- A frame with one more block. -/
def enter (f : Frame) (key : BlockKey) : Frame :=
  ⟨key :: f.blocks, List.cons_ne_nil key f.blocks⟩

/-- The block that was entered last. -/
def innermost (f : Frame) : BlockKey :=
  f.blocks.head f.ne_nil

/-- The blocks of several frames. -/
def allBlocks (frames : List Frame) : List BlockKey :=
  frames.flatMap Frame.blocks

/-- How many blocks lie below each frame that stands on others. -/
def bases : List Frame → List Nat
  | [] => []
  | f :: below => (allBlocks (f :: below)).length :: bases below

end Frame

/-- A stack of frames. -/
structure Stack where
  top : Frame
  below : List Frame

namespace Stack

/-- The outermost block alone. -/
def outermost : Stack :=
  ⟨⟨[rootBlock], List.cons_ne_nil rootBlock []⟩, []⟩

/-- All frames, the top one first. -/
def frames (stack : Stack) : List Frame :=
  stack.top :: stack.below

/-- One more block in the top frame. -/
def enterBlock (stack : Stack) (key : BlockKey) : Stack :=
  ⟨stack.top.enter key, stack.below⟩

/-- A new frame on top. -/
def push (stack : Stack) (f : Frame) : Stack :=
  ⟨f, stack.frames⟩

theorem enterBlock_ne_push (stack : Stack) (key : BlockKey) (f : Frame) : stack.enterBlock key ≠ stack.push f := by
  intro h
  have hlength := congrArg (fun s => s.below.length) h
  simp only [enterBlock, push, frames, List.length_cons] at hlength
  omega

theorem length_below_lt (stack : Stack) :
    (Frame.allBlocks stack.below).length < (Frame.allBlocks stack.frames).length := by
  have htop := List.length_pos_iff.2 stack.top.ne_nil
  rw [frames, Frame.allBlocks, Frame.allBlocks, List.flatMap_cons, List.length_append]
  omega

end Stack

/-- What can be done to a symbol table. A chain that is entered is not empty. -/
inductive Action where
  | enterBlock (key : BlockKey)
  | enterScope (chain : List BlockKey) (ne_nil : chain ≠ [])
  | leave
  | declare (name : Ident) (pos : Position) (visibleFrom : UInt64) (ty? : Option Ty) (builtin : Bool)
  | setType (name : Ident) (pos : Position) (ty : Ty)

/-- Whether an action enters something. -/
def Action.IsEnter : Action → Prop
  | enterBlock _ | enterScope _ _ => True
  | leave | declare .. | setType .. => False

/-- Whether an action enters and leaves nothing. -/
def Action.IsDeclaring : Action → Prop
  | declare .. | setType .. => True
  | enterBlock _ | enterScope _ _ | leave => False

/-- Actions that leave what they enter and nothing else. -/
inductive Balanced : List Action → Prop
  | nil : Balanced []
  | declaring {action : Action} {rest : List Action} (declares : action.IsDeclaring) (balanced : Balanced rest) :
      Balanced (action :: rest)
  | within {enter : Action} {inner rest : List Action} (enters : enter.IsEnter) (inside : Balanced inner)
      (balanced : Balanced rest) : Balanced (enter :: inner ++ .leave :: rest)

end Scoping

/-- A stack of frames, the stacks before the enters that have not been left, the latest first, and the names that are
declared in each block. -/
structure Scoping where
  current : Scoping.Stack
  outstanding : List Scoping.Stack
  declared : BlockKey → Ident → Option Declaration

namespace Scoping

variable {s : Scoping} {stack : Stack} {outstanding : List Stack} {counts counts' : List Nat}

/-- The outermost block, with nothing entered and nothing declared. -/
def fresh : Scoping :=
  ⟨.outermost, [], fun _ _ => none⟩

/-- Declares a name in the innermost block, in place of an earlier declaration. -/
def put (s : Scoping) (name : Ident) (d : Declaration) : Scoping :=
  { s with
    declared := fun key other =>
      if s.current.top.innermost = key ∧ name = other then some d else s.declared key other }

/-- What an action does. Leaving with no enter outstanding does nothing. -/
def perform (s : Scoping) : Action → Scoping
  | .enterBlock key => { s with current := s.current.enterBlock key, outstanding := s.current :: s.outstanding }
  | .enterScope chain h =>
    { s with current := s.current.push (.ofChain chain h), outstanding := s.current :: s.outstanding }
  | .leave =>
    match s.outstanding with
    | [] => s
    | stack :: outstanding => { s with current := stack, outstanding }
  | .declare name pos visibleFrom ty? builtin =>
    s.put name { scope := s.current.top.blocks.reverse, name, pos, visibleFrom, ty?, builtin }
  | .setType name pos ty =>
    match s.declared s.current.top.innermost name with
    | some d => s.put name { d with ty? := some ty }
    | none =>
      s.put name
        { scope := s.current.top.blocks.reverse, name, pos, visibleFrom := pos.index, ty? := some ty, builtin := false }

/-- What several actions do, one after another. -/
def performAll (s : Scoping) (actions : List Action) : Scoping :=
  actions.foldl perform s

/-- The declaration of a name that the top frame shows: the first one that satisfies `p`, from the innermost block
outwards, and how many blocks are crossed to reach it. -/
structure Shows (s : Scoping) (p : Declaration → Prop) (name : Ident) (d : Declaration) (crossed : Nat) : Prop where
  found : ∃ key, s.current.top.blocks[crossed]? = some key ∧ s.declared key name = some d
  holds : p d
  first : ∀ i < crossed, ∀ key d', s.current.top.blocks[i]? = some key → s.declared key name = some d' → ¬p d'

/-- An enter remembers the stack that it starts from. -/
theorem outstanding_perform {enter : Action} (h : enter.IsEnter) (s : Scoping) :
    (s.perform enter).outstanding = s.current :: s.outstanding := by
  cases enter with
  | enterBlock key => rfl
  | enterScope chain hne => rfl
  | leave | declare | setType => cases h

theorem perform_declaring {action : Action} (h : action.IsDeclaring) (s : Scoping) :
    (s.perform action).current = s.current ∧ (s.perform action).outstanding = s.outstanding := by
  cases action with
  | enterBlock | enterScope | leave => cases h
  | declare => exact ⟨rfl, rfl⟩
  | setType name pos ty =>
    rw [perform]
    split <;> exact ⟨rfl, rfl⟩

/-- Leaving after balanced actions goes back to the stack before the enter. -/
theorem performAll_balanced {actions : List Action} (h : Balanced actions) (s : Scoping) :
    (s.performAll actions).current = s.current ∧ (s.performAll actions).outstanding = s.outstanding := by
  induction h generalizing s with
  | nil => exact ⟨rfl, rfl⟩
  | declaring declares _ ih =>
    obtain ⟨hcurrent, houtstanding⟩ := perform_declaring declares s
    obtain ⟨hrest, hrest'⟩ := ih (s.perform _)
    exact ⟨hrest.trans hcurrent, hrest'.trans houtstanding⟩
  | @within enter inner rest enters _ _ ihInner ih =>
    have hsplit : s.performAll (enter :: inner ++ .leave :: rest) =
        (((s.perform enter).performAll inner).perform .leave).performAll rest := by
      rw [performAll, List.foldl_append, List.foldl_cons, List.foldl_cons]
      rfl
    have hinner := (ihInner (s.perform enter)).2
    rw [outstanding_perform enters] at hinner
    have hleft : (((s.perform enter).performAll inner).perform .leave).current = s.current ∧
        (((s.perform enter).performAll inner).perform .leave).outstanding = s.outstanding := by
      rw [perform, hinner]
      exact ⟨rfl, rfl⟩
    obtain ⟨hrest, hrest'⟩ := ih (((s.perform enter).performAll inner).perform .leave)
    rw [hsplit]
    exact ⟨hrest.trans hleft.1, hrest'.trans hleft.2⟩

/-- Stacks that come from each other by an enter, and how many blocks each enter pushed. -/
inductive Entered : Stack → List Stack → List Nat → Prop
  | outermost : Entered .outermost [] []
  | block {stack : Stack} {outstanding : List Stack} {counts : List Nat} (key : BlockKey)
      (before : Entered stack outstanding counts) : Entered (stack.enterBlock key) (stack :: outstanding) (1 :: counts)
  | scope {stack : Stack} {outstanding : List Stack} {counts : List Nat} (chain : List BlockKey) (h : chain ≠ [])
      (before : Entered stack outstanding counts) :
      Entered (stack.push (.ofChain chain h)) (stack :: outstanding) (chain.length :: counts)

theorem Entered.unique (h : Entered stack outstanding counts) (h' : Entered stack outstanding counts') :
    counts = counts' := by
  induction h generalizing counts' with
  | outermost =>
    generalize Stack.outermost = current at h'
    cases h'
    rfl
  | @block stack outstanding counts key before ih =>
    generalize hcurrent : stack.enterBlock key = current at h'
    cases h' with
    | block key' before' => rw [ih before']
    | scope chain hne before' => exact absurd hcurrent (stack.enterBlock_ne_push key _)
  | @scope stack outstanding counts chain hne before ih =>
    generalize hcurrent : stack.push (.ofChain chain hne) = current at h'
    cases h' with
    | block key before' => exact absurd hcurrent.symm (stack.enterBlock_ne_push key _)
    | scope chain' hne' before' =>
      have hlength := congrArg (fun s => s.top.blocks.length) hcurrent
      simp only [Stack.push, Frame.ofChain, List.length_reverse] at hlength
      rw [ih before', hlength]

end Scoping

namespace SymbolTable

variable {t t' : SymbolTable} {s : Scoping} {name : Ident}

/-- What an action does to a symbol table. A table that cannot be left stays as it is. -/
def perform (t : SymbolTable) : Scoping.Action → SymbolTable
  | .enterBlock key => t.enterBlock key
  | .enterScope chain _ => t.enterScope chain
  | .leave =>
    match t.leave with
    | .ok t' => t'
    | .error _ => t
  | .declare name pos visibleFrom ty? builtin => t.declare name pos visibleFrom ty? builtin
  | .setType name pos ty => t.setType name pos ty

/-- What several actions do, one after another. -/
def performAll (t : SymbolTable) (actions : List Scoping.Action) : SymbolTable :=
  actions.foldl perform t

/-- The flat lists of a table stand for a stack of frames. -/
structure Represents (t : SymbolTable) (s : Scoping) : Prop where
  active : t.active = Scoping.Frame.allBlocks s.current.frames
  frames : t.frames = Scoping.Frame.bases s.current.below
  entered : Scoping.Entered s.current s.outstanding t.entered
  declared : ∀ key name, t.find? key name = s.declared key name

theorem represents_fresh : Represents {} .fresh where
  active := rfl
  frames := rfl
  entered := .outermost
  declared _ _ := rfl

namespace Represents

theorem active_eq (h : t.Represents s) :
    t.active = s.current.top.blocks ++ Scoping.Frame.allBlocks s.current.below := by
  rw [h.active, Scoping.Stack.frames, Scoping.Frame.allBlocks, List.flatMap_cons]
  rfl

theorem frameBase_eq (h : t.Represents s) : t.frameBase = (Scoping.Frame.allBlocks s.current.below).length := by
  rw [frameBase, h.frames]
  cases s.current.below with
  | nil => rfl
  | cons f below => rfl

theorem depth_eq (h : t.Represents s) : t.depth = s.current.top.blocks.length := by
  rw [depth, h.frameBase_eq, h.active_eq, List.length_append, Nat.add_sub_cancel]

/-- The current frame has a block, since no frame of a stack is empty. -/
theorem framed (h : t.Represents s) : t.Framed := by
  have htop := List.length_pos_iff.2 s.current.top.ne_nil
  rw [Framed, h.frameBase_eq, h.active_eq, List.length_append]
  omega

theorem frame_eq (h : t.Represents s) : t.frame = s.current.top.blocks := by
  rw [frame, h.depth_eq, h.active_eq, List.take_left]

theorem scope_eq (h : t.Represents s) : t.scope = s.current.top.blocks.reverse := by
  rw [scope, h.frame_eq]

theorem currentBlock_eq (h : t.Represents s) : t.currentBlock = s.current.top.innermost := by
  rw [currentBlock, h.active_eq, Scoping.Frame.innermost]
  generalize s.current.top = f
  obtain ⟨blocks, hne⟩ := f
  cases blocks with
  | nil => exact absurd rfl hne
  | cons key blocks => rfl

theorem isActive_iff (h : t.Represents s) (key : BlockKey) :
    t.isActive key = true ↔ ∃ f ∈ s.current.frames, key ∈ f.blocks := by
  rw [isActive, List.contains_iff_mem, h.active, Scoping.Frame.allBlocks, List.mem_flatMap]

theorem enterBlock (h : t.Represents s) (key : BlockKey) :
    (t.enterBlock key).Represents (s.perform (.enterBlock key)) where
  active := by rw [SymbolTable.enterBlock, h.active_eq]; rfl
  frames := h.frames
  entered := .block key h.entered
  declared := h.declared

theorem enterScope (h : t.Represents s) (chain : List BlockKey) (hne : chain ≠ []) :
    (t.enterScope chain).Represents (s.perform (.enterScope chain hne)) where
  active := by rw [SymbolTable.enterScope, h.active]; rfl
  frames := by rw [SymbolTable.enterScope, h.active, h.frames]; rfl
  entered := .scope chain hne h.entered
  declared := h.declared

theorem put (h : t.Represents s) {d : Declaration} (hname : d.name = name) :
    (t.put t.currentBlock d).Represents (s.put name d) where
  active := h.active
  frames := h.frames
  entered := h.entered
  declared key other := by rw [find?_put, h.currentBlock_eq, h.declared, hname]; rfl

theorem declare (h : t.Represents s) (name : Ident) (pos : Position) (visibleFrom : UInt64) (ty? : Option Ty)
    (builtin : Bool) : (t.declare name pos visibleFrom ty? builtin).Represents
      (s.perform (.declare name pos visibleFrom ty? builtin)) := by
  rw [SymbolTable.declare, declaration, h.scope_eq]
  exact h.put rfl

theorem setType (h : t.Represents s) (name : Ident) (pos : Position) (ty : Ty) :
    (t.setType name pos ty).Represents (s.perform (.setType name pos ty)) := by
  have hfind := h.declared t.currentBlock name
  rw [SymbolTable.setType, setTypeIn, Scoping.perform, ← h.currentBlock_eq, ← hfind]
  cases hdeclared : t.find? t.currentBlock name with
  | none => exact h.declare name pos pos.index (some ty) false
  | some d =>
    have hname : d.name = name := find?_name hdeclared
    exact h.put (d := { d with ty? := some ty }) hname

theorem leave (h : t.Represents s) :
    (s.outstanding = [] ∧ t.leave = .error .leftOutermost) ∨
      s.outstanding ≠ [] ∧ ∃ t', t.leave = .ok t' ∧ t'.Represents (s.perform .leave) := by
  obtain ⟨current, outstanding, declared⟩ := s
  obtain ⟨hactive, hframes, hentered, hdeclared⟩ := h
  rw [SymbolTable.leave, hframes]
  generalize t.entered = counts at hentered
  cases hentered with
  | outermost => exact .inl ⟨rfl, rfl⟩
  | @block stack outstanding counts key before =>
    have hdrop : t.active.drop 1 = Scoping.Frame.allBlocks stack.frames := by rw [hactive]; rfl
    refine .inr ⟨List.cons_ne_nil _ _, _, rfl, ⟨hdrop, ?_, before, hdeclared⟩⟩
    rw [hdrop]
    -- The top frame keeps a block, so the stack stays above the base of the frame.
    have hlt := stack.length_below_lt
    obtain ⟨top, below⟩ := stack
    cases below with
    | nil => rfl
    | cons f below => exact if_neg (Nat.not_le.2 hlt)
  | @scope stack outstanding counts chain hne before =>
    have hdrop : t.active.drop chain.length = Scoping.Frame.allBlocks stack.frames := by
      rw [hactive, ← List.length_reverse]
      exact List.drop_left
    refine .inr ⟨List.cons_ne_nil _ _, _, rfl, ⟨hdrop, ?_, before, hdeclared⟩⟩
    rw [hdrop]
    exact if_pos (Nat.le_refl _)

/-- An action keeps a table and a stack of frames in step. -/
theorem perform (h : t.Represents s) (action : Scoping.Action) : (t.perform action).Represents (s.perform action) := by
  cases action with
  | enterBlock key => exact h.enterBlock key
  | enterScope chain hne => exact h.enterScope chain hne
  | declare name pos visibleFrom ty? builtin => exact h.declare name pos visibleFrom ty? builtin
  | setType name pos ty => exact h.setType name pos ty
  | leave =>
    rw [SymbolTable.perform]
    rcases h.leave with ⟨hnone, herror⟩ | ⟨_, t', hok, hleft⟩
    · rw [herror, Scoping.perform, hnone]
      exact h
    · rw [hok]
      exact hleft

theorem performAll (h : t.Represents s) (actions : List Scoping.Action) :
    (t.performAll actions).Represents (s.performAll actions) := by
  induction actions generalizing t s with
  | nil => exact h
  | cons action actions ih => exact ih (h.perform action)

/-- Tables of one stack of frames have the same active blocks. -/
theorem unique {s' : Scoping} (h : t.Represents s) (h' : t'.Represents s') (hcurrent : s'.current = s.current)
    (houtstanding : s'.outstanding = s.outstanding) :
    t'.active = t.active ∧ t'.frames = t.frames ∧ t'.entered = t.entered := by
  have hentered := h'.entered
  rw [hcurrent, houtstanding] at hentered
  refine ⟨?_, ?_, hentered.unique h.entered⟩
  · rw [h'.active, h.active, hcurrent]
  · rw [h'.frames, h.frames, hcurrent]

end Represents

theorem findAlong?_eq_some_iff {p : Declaration → Bool} {blocks : List BlockKey} {d : Declaration} {crossed : Nat} :
    t.findAlong? p name blocks = some (d, crossed) ↔
      (∃ key, blocks[crossed]? = some key ∧ t.find? key name = some d) ∧ p d = true ∧
      ∀ i < crossed, ∀ key d', blocks[i]? = some key → t.find? key name = some d' → ¬p d' = true := by
  induction blocks generalizing crossed with
  | nil => simp [findAlong?]
  | cons key blocks ih =>
    rw [findAlong?]
    cases hfirst : (t.find? key name).filter p with
    | some found =>
      obtain ⟨hfind, hp⟩ := Option.filter_eq_some_iff.1 hfirst
      constructor
      · rintro ⟨⟩
        exact ⟨⟨key, rfl, hfind⟩, hp, fun i hi => absurd hi (Nat.not_lt_zero i)⟩
      · rintro ⟨⟨key', hkey', hfind'⟩, _, hbefore⟩
        cases crossed with
        | zero =>
          cases hkey'
          rw [hfind] at hfind'
          cases hfind'
          rfl
        | succ k => exact absurd hp (hbefore 0 (Nat.succ_pos k) key found rfl hfind)
    | none =>
      have hhidden : ∀ d', t.find? key name = some d' → ¬p d' = true := Option.filter_eq_none_iff.1 hfirst
      cases crossed with
      | zero =>
        constructor
        · intro h
          obtain ⟨_, _, heq⟩ := Option.map_eq_some_iff.1 h
          cases heq
        · rintro ⟨⟨key', hkey', hfind'⟩, hp, _⟩
          cases hkey'
          exact absurd hp (hhidden d hfind')
      | succ k =>
        refine Iff.trans (b := t.findAlong? p name blocks = some (d, k)) (by simp [Option.map_eq_some_iff]) (ih.trans ?_)
        refine and_congr Iff.rfl (and_congr Iff.rfl ⟨fun h i hi key' d' hkey' => ?_, fun h i hi => ?_⟩)
        · cases i with
          | zero =>
            cases hkey'
            exact hhidden d'
          | succ i => exact h i (Nat.lt_of_succ_lt_succ hi) key' d' hkey'
        · exact h (i + 1) (Nat.succ_lt_succ hi)

/-- A lookup consults the blocks of the top frame, from the innermost one outwards. -/
theorem Represents.findAlong?_iff (h : t.Represents s) {p : Declaration → Bool} {d : Declaration} {crossed : Nat} :
    t.findAlong? p name t.frame = some (d, crossed) ↔ s.Shows (p · = true) name d crossed := by
  rw [findAlong?_eq_some_iff, h.frame_eq]
  simp only [h.declared]
  exact ⟨fun ⟨hfound, hholds, hfirst⟩ => ⟨hfound, hholds, hfirst⟩,
    fun ⟨hfound, hholds, hfirst⟩ => ⟨hfound, hholds, hfirst⟩⟩

/-- After any actions on a fresh table, its flat lists represent a stack of frames. The blocks in scope, their number and the
innermost block are those of the top frame; a lookup consults the blocks of the top frame, from the innermost one
outwards, while a block is active if any frame holds it; the table can be left if an enter is outstanding, and then
what it represents is the stack before the latest such enter. So entering and leaving again, with balanced actions in
between, gives the active blocks back. -/
theorem represents_performAll (actions : List Scoping.Action) :
    let t := SymbolTable.performAll {} actions
    let s := Scoping.fresh.performAll actions
    t.Represents s ∧
    (t.scope = s.current.top.blocks.reverse ∧ t.depth = s.current.top.blocks.length ∧
      t.currentBlock = s.current.top.innermost) ∧
    (∀ name d crossed, t.lookup? name = some (d, crossed) ↔ s.Shows (fun _ => True) name d crossed) ∧
    (∀ name index d crossed, t.lookupBefore? name index = some (d, crossed) ↔
      s.Shows (fun d => d.builtin = true ∨ d.visibleFrom ≤ index) name d crossed) ∧
    (∀ key, t.isActive key = true ↔ ∃ f ∈ s.current.frames, key ∈ f.blocks) ∧
    (t.leave = .error .leftOutermost ↔ s.outstanding = []) ∧
    (s.outstanding = [] → t.perform .leave = t) ∧
    (∀ stack outstanding, s.outstanding = stack :: outstanding →
      ∃ t', t.leave = .ok t' ∧ t'.Represents ⟨stack, outstanding, s.declared⟩) ∧
    ∀ enter inner, enter.IsEnter → Scoping.Balanced inner →
      let t' := t.performAll (enter :: inner ++ [.leave])
      t'.active = t.active ∧ t'.frames = t.frames ∧ t'.entered = t.entered := by
  intro t s
  have h : t.Represents s := represents_fresh.performAll actions
  refine ⟨h, ⟨h.scope_eq, h.depth_eq, h.currentBlock_eq⟩, ?_, ?_, h.isActive_iff, ?_, ?_, ?_, ?_⟩
  · intro name d crossed
    rw [lookup?, h.findAlong?_iff]
    simp only
  · intro name index d crossed
    rw [lookupBefore?, h.findAlong?_iff]
    simp only [Declaration.visibleAt, Bool.or_eq_true, decide_eq_true_eq]
  · rcases h.leave with ⟨hnone, herror⟩ | ⟨hsome, t', hok, _⟩
    · exact iff_of_true herror hnone
    · rw [hok]
      refine iff_of_false (fun herror => ?_) hsome
      cases herror
  · intro hnone
    rcases h.leave with ⟨_, herror⟩ | ⟨hsome, _⟩
    · rw [SymbolTable.perform, herror]
    · exact absurd hnone hsome
  · intro stack outstanding hsome
    rcases h.leave with ⟨hnone, _⟩ | ⟨_, t', hok, hleft⟩
    · rw [hnone] at hsome
      cases hsome
    · rw [Scoping.perform, hsome] at hleft
      exact ⟨t', hok, hleft⟩
  · intro enter inner henter hinner
    have hbalanced : Scoping.Balanced (enter :: inner ++ [.leave]) := .within henter hinner .nil
    obtain ⟨hcurrent, houtstanding⟩ := Scoping.performAll_balanced hbalanced s
    exact h.unique (h.performAll _) hcurrent houtstanding

/-- Within a chain that a block of the caller entered, a block that enters a chain of its own. -/
theorem represents_performAll_nested :
    let enter : Scoping.Action := .enterBlock 40
    let inner : List Scoping.Action := [.enterScope [rootBlock, 50] (List.cons_ne_nil _ _), .leave]
    let t := SymbolTable.performAll {} [.enterBlock 10, .enterScope [rootBlock, 30] (List.cons_ne_nil _ _)]
    enter.IsEnter ∧ Scoping.Balanced inner ∧ t.scope = [rootBlock, 30] ∧ t.isActive 10 = true ∧
    (t.performAll (enter :: inner ++ [.leave])).active = t.active := by
  intro enter inner t
  have hchain : Scoping.Action.IsEnter (.enterScope [rootBlock, 50] (List.cons_ne_nil _ _)) := trivial
  have hinner : Scoping.Balanced inner := .within hchain .nil .nil
  obtain ⟨-, ⟨hscope, -⟩, -, -, hactive, -, -, -, hbalanced⟩ :=
    represents_performAll [.enterBlock 10, .enterScope [rootBlock, 30] (List.cons_ne_nil _ _)]
  have hcaller := (hactive 10).2 ⟨(Scoping.Stack.outermost.enterBlock 10).top, ?_, ?_⟩
  · exact ⟨trivial, hinner, hscope, hcaller, (hbalanced enter inner trivial hinner).1⟩
  · exact List.mem_cons_of_mem _ List.mem_cons_self
  · exact List.mem_cons_self

end SymbolTable
end ToneScript
