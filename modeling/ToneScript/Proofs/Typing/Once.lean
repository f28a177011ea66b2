import ToneScript.Proofs.Typing.Due

/-! Steps of a check that turn to certain functions. A check follows the text, and a function waits until it is turned to
where it is defined; a name refers to a function that opens before it, which is not waiting any more. Thus arithmetic
expressions turn to no function. -/
namespace ToneScript
namespace Check

variable {α β : Type}

section Steps

variable (names : NameTable) (T : SymbolTable)

/-- A step before an offset that turns to certain functions, where all that wait after them open from the offset on. -/
def Goes (frame? : Option Frame) (scope : List BlockKey) (hi : Nat) (fs : List FunctionDef) (places : List Place)
    (events : State → List Event) (x : Step α) (Q : α → Prop) : Prop :=
  ∀ s rest a s', s.Due names T frame? scope (fs ++ rest) → (∀ f ∈ rest, hi ≤ f.argsKey.toNat) →
    x.run s = .ok (a, s') → s'.Due names T frame? scope rest ∧ s.Passes frame? fs places (events s) s' ∧ Q a

/-- A step that reports nothing but some of the given errors, in order and at one position. -/
def Reports (pos : Position) (errors : List TypeError) (x : Step α) : Prop :=
  ∀ s a s', x.run s = .ok (a, s') → s'.table = s.table ∧ s'.typing = s.typing ∧
    ∃ issues, issues.Sublist (errors.map fun e => e.toIssue names (some pos)) ∧
      s'.journal.issues = s.journal.issues ++ issues

end Steps

variable {names : NameTable} {T : SymbolTable} {frame? : Option Frame} {scope : List BlockKey} {lo mid hi : Nat}
  {fs gs : List FunctionDef} {places places' : List Place} {events : State → List Event}

namespace Reports

variable {pos : Position} {errors errors' : List TypeError}

theorem pure (errors : List TypeError) (a : α) : Reports names pos errors (pure a : Step α) := by
  intro s _ s' h
  cases h
  exact ⟨rfl, rfl, [], List.nil_sublist _, (List.append_nil _).symm⟩

theorem bind {x : Step α} {f : α → Step β} (hx : Reports names pos errors x)
    (hf : ∀ a, Reports names pos errors' (f a)) : Reports names pos (errors ++ errors') (x >>= f) := by
  intro s b s' h
  obtain ⟨a, mid, hfirst, hrest⟩ := run_bind_ok h
  obtain ⟨htable, htyping, issues, hsub, hissues⟩ := hx s a mid hfirst
  obtain ⟨htable', htyping', issues', hsub', hissues'⟩ := hf a mid b s' hrest
  refine ⟨htable'.trans htable, htyping'.trans htyping, issues ++ issues', ?_, ?_⟩
  · rw [List.map_append]
    exact hsub.append hsub'
  · rw [hissues', hissues, List.append_assoc]

theorem reportAt (pos : Position) (e : TypeError) : Reports names pos [e] (reportAt names (some pos) e) := by
  intro s _ s' h
  cases h
  exact ⟨rfl, rfl, [e.toIssue names (some pos)], List.Sublist.refl _, Journal.issues_report _ _⟩

/-- An error that is reported only in some cases, before another step. -/
theorem guarded {p : Prop} [Decidable p] (e : TypeError) {x : Step α} (hx : Reports names pos errors x) :
    Reports names pos (e :: errors) (if p then (do Check.reportAt names (some pos) e; x) else x) := by
  split
  · exact (reportAt pos e).bind fun _ => hx
  · intro s a s' h
    obtain ⟨htable, htyping, issues, hsub, hissues⟩ := hx s a s' h
    exact ⟨htable, htyping, issues, hsub.cons _, hissues⟩

/-- Every missing parameter is reported at most once. -/
theorem checkMissing (callee : Ident) (pos : Position) (params : List (Ident × Ty)) (defaults : List (Option Number))
    (bound : List Bool) : Reports names pos (params.map fun p => .missingArgument callee p.1)
      (checkMissing names callee pos params defaults bound) := by
  induction params generalizing defaults bound with
  | nil => exact pure _ _
  | cons param params ih =>
    cases defaults with
    | nil => exact pure _ _
    | cons default? defaults =>
      cases bound with
      | nil => exact pure _ _
      | cons b bounds => exact guarded _ (ih defaults bounds)

end Reports

namespace Goes

variable {P : α → Prop} {Q : β → Prop}

/-- A step that turns to no function. -/
theorem near {x : Step α} (h : ∀ s a s', x.run s = .ok (a, s') → s.Near frame? s' ∧
      (∃ issues, s'.journal.issues = s.journal.issues ++ issues ∧ Issue.Confined places issues) ∧ P a) :
    Goes names T frame? scope hi [] places (fun _ => []) x P := by
  intro s rest a s' hs _ hrun
  obtain ⟨hnear, ⟨issues, hissues, hconfined⟩, ha⟩ := h s a s' hrun
  exact ⟨hs.near hnear, .near hnear hissues hconfined, ha⟩

/-- A step that turns to no function and reports nothing. -/
theorem silent {x : Step α} (h : ∀ s a s', x.run s = .ok (a, s') →
      s.Near frame? s' ∧ s'.journal.issues = s.journal.issues ∧ P a) :
    Goes names T frame? scope hi [] [] (fun _ => []) x P := by
  refine near fun s a s' hrun => ?_
  obtain ⟨hnear, hissues, ha⟩ := h s a s' hrun
  exact ⟨hnear, ⟨[], by rw [hissues, List.append_nil], .nil _⟩, ha⟩

theorem pure {a : α} (h : P a) : Goes names T frame? scope hi [] [] (fun _ => []) (pure a) P := by
  refine silent fun s _ s' hrun => ?_
  cases hrun
  exact ⟨.refl _ s, rfl, h⟩

/-- Two steps, of which the second one begins where the first one ends. -/
theorem bind {rest : α → State → List Event} {x : Step α} {f : α → Step β}
    (hx : Goes names T frame? scope mid fs places events x P)
    (hf : ∀ a, P a → Goes names T frame? scope hi gs places' (rest a) (f a) Q) (hle : mid ≤ hi)
    (hgs : ∀ g ∈ gs, mid ≤ g.argsKey.toNat) :
    Goes names T frame? scope hi (fs ++ gs) (places ++ places') (fun s => events s ++ eventsAfter x rest s)
      (x >>= f) Q := by
  intro s due b s' hs hdue hrun
  obtain ⟨a, s₁, hfirst, hsecond⟩ := run_bind_ok hrun
  have hs₁ := hs
  rw [List.append_assoc] at hs₁
  have hdue₁ : ∀ f ∈ gs ++ due, mid ≤ f.argsKey.toNat :=
    List.forall_mem_append.2 ⟨hgs, fun f hf => hle.trans (hdue f hf)⟩
  obtain ⟨hs₁, hpasses, ha⟩ := hx s (gs ++ due) a s₁ hs₁ hdue₁ hfirst
  obtain ⟨hs₂, hpasses', hb⟩ := hf a ha s₁ due b s' hs₁ hdue hsecond
  have hafter : eventsAfter x rest s = rest a s₁ := by rw [eventsAfter, hfirst]
  refine ⟨hs₂, ?_, hb⟩
  simp only [hafter]
  exact hpasses.trans hpasses' hs

/-- A step that turns to no function, before another one. -/
theorem after {rest : α → State → List Event} {x : Step α} {f : α → Step β}
    (hx : Goes names T frame? scope 0 [] places (fun _ => []) x P)
    (hf : ∀ a, P a → Goes names T frame? scope hi gs places' (rest a) (f a) Q) :
    Goes names T frame? scope hi gs (places ++ places') (eventsAfter x rest) (x >>= f) Q :=
  bind hx hf (Nat.zero_le _) fun _ _ => Nat.zero_le _

/-- A step that turns to no function, after another one. -/
theorem last {x : Step α} {f : α → Step β} (hx : Goes names T frame? scope hi fs places events x P)
    (hf : ∀ a, P a → Goes names T frame? scope hi [] places' (fun _ => []) (f a) Q) :
    Goes names T frame? scope hi fs (places ++ places') events (x >>= f) Q := by
  have hboth := bind hx hf (Nat.le_refl _) (List.forall_mem_nil _)
  intro s due b s' hs hdue hrun
  have hnone : eventsAfter x (fun _ _ => []) s = [] := by
    rw [eventsAfter]
    split <;> rfl
  have hdone := hboth s due b s' (by rwa [List.append_nil]) hdue hrun
  simpa only [List.append_nil, hnone] using hdone

/-- A step that turns to no function and reports nothing, after another one. -/
theorem finish {x : Step α} {f : α → Step β} (hx : Goes names T frame? scope hi fs places events x P)
    (hf : ∀ a, P a → Goes names T frame? scope hi [] [] (fun _ => []) (f a) Q) :
    Goes names T frame? scope hi fs places events (x >>= f) Q := by
  have hlast := last hx hf
  rwa [List.append_nil] at hlast

theorem widen {x : Step α} (h : Goes names T frame? scope hi fs places events x P) (hsub : places.Sublist places') :
    Goes names T frame? scope hi fs places' events x P := by
  intro s rest a s' hs hrest hrun
  obtain ⟨hs', hpasses, ha⟩ := h s rest a s' hs hrest hrun
  exact ⟨hs', hpasses.widen hsub, ha⟩

theorem of_reports {pos : Position} {errors : List TypeError} {words : List String} {x : Step α}
    (h : Reports names pos errors x) (hmessages : (errors.map (TypeError.message names)).Nodup)
    (hwords : ∀ e ∈ errors, e.word ∈ words) :
    Goes names T frame? scope hi [] (pos.places words) (fun _ => []) x fun _ => True := by
  refine near fun s a s' hrun => ?_
  obtain ⟨htable, htyping, issues, hsub, hissues⟩ := h s a s' hrun
  refine ⟨⟨htable, congrArg _ htyping, fun _ _ => ?_⟩, ⟨issues, hissues, .of_sublist hsub hmessages hwords⟩, trivial⟩
  rw [htyping]

/-- A step that is done only in some cases, before another one. -/
theorem guarded {p : Prop} [Decidable p] {x : Step Unit} {y : Step β}
    (hx : Goes names T frame? scope 0 [] places (fun _ => []) x fun _ => True)
    (hy : Goes names T frame? scope hi gs places' events y Q) :
    Goes names T frame? scope hi gs (places ++ places')
      (eventsAfter (if p then x else Pure.pure ()) fun _ => events) (if p then (do x; y) else y) Q := by
  split
  · exact after hx fun _ _ => hy
  · exact hy.widen (List.sublist_append_right _ _)

theorem setType (pos : Position) (ty : Ty) :
    Goes names T frame? scope hi [] [] (fun _ => []) (setType pos ty) fun _ => True := by
  refine silent fun s _ s' hrun => ?_
  cases hrun
  exact ⟨⟨rfl, rfl, fun _ _ => rfl⟩, rfl, trivial⟩

theorem poison : Goes names T frame? scope hi [] [] (fun _ => []) poison fun _ => True := by
  refine silent fun s _ s' hrun => ?_
  cases hrun
  exact ⟨⟨rfl, rfl, fun _ _ => rfl⟩, rfl, trivial⟩

theorem reportAt (pos : Position) (e : TypeError) {words : List String} (hword : e.word ∈ words) :
    Goes names T frame? scope hi [] (pos.places words) (fun _ => []) (reportAt names (some pos) e)
      fun _ => True := by
  exact of_reports (.reportAt pos e) (List.nodup_singleton _) (List.forall_mem_singleton.2 hword)

/-- A step before which an error may be reported. -/
theorem reported {p : Prop} [Decidable p] (pos : Position) (e : TypeError) {words : List String}
    (hword : e.word ∈ words) {x : Step α} (hx : Goes names T frame? scope hi [] places (fun _ => []) x P) :
    Goes names T frame? scope hi [] (pos.places words ++ places) (fun _ => [])
      (if p then (do Check.reportAt names (some pos) e; x) else x) P := by
  split
  · exact last (reportAt pos e hword) fun _ _ => hx
  · exact hx.widen (List.sublist_append_right _ _)

theorem expect (role : Role) (expected actual : Ty) (pos : Position) {words : List String}
    (hword : role.word ∈ words) :
    Goes names T frame? scope hi [] (pos.places words) (fun _ => [])
      (expect names role expected actual pos) fun _ => True := by
  unfold Check.expect
  split
  · exact reportAt pos (.mismatch role expected actual) hword
  · exact (pure trivial).widen (List.nil_sublist _)

theorem typed (pos : Position) (ty : Ty) :
    Goes names T frame? scope hi [] [] (fun _ => []) (do Check.setType pos ty; Pure.pure ty : Step Ty)
      fun _ => True :=
  finish (setType pos ty) fun _ _ => pure trivial

end Goes

/-- What a function captures is not captured by others. -/
theorem capture_near {frame : Frame} {name : Ident} {s s' : State} {u : Unit}
    (h : (capture frame.key name).run s = .ok (u, s')) : s.Near (some frame) s' ∧ s'.journal = s.journal := by
  cases h
  refine ⟨⟨rfl, ?_, fun key hkey => ?_⟩, rfl⟩
  · show Typing.functions (if _ then _ else _) = _
    split <;> rfl
  · have hother : frame.key ≠ key := hkey frame rfl
    show Typing.capturesOf (if _ then _ else _) key = _
    split
    · rfl
    · simp [Typing.capturesOf, List.filterMap_append, hother]

/-- A lookup records at most that the function whose body is being checked captures what is found. -/
theorem lookup?_near {name : Ident} {pos : Position} {s s' : State} {d? : Option Declaration}
    (h : (lookup? frame? name pos).run s = .ok (d?, s')) : s.Near frame? s' ∧ s'.journal = s.journal := by
  unfold lookup? at h
  obtain ⟨s₀, s₁, hget, h₁⟩ := run_bind_ok h
  cases hget
  simp only at h₁
  split at h₁
  · cases h₁
    exact ⟨.refl _ s, rfl⟩
  · split at h₁
    · split at h₁
      · obtain ⟨⟨⟩, s₂, hcapture, h₂⟩ := run_bind_ok h₁
        cases h₂
        exact capture_near hcapture
      · cases h₁
        exact ⟨.refl _ s, rfl⟩
    · cases h₁
      exact ⟨.refl _ s, rfl⟩

namespace Goes

theorem lookup? (name : Ident) (pos : Position) :
    Goes names T frame? scope hi [] [] (fun _ => []) (lookup? frame? name pos) fun _ => True := by
  refine silent fun s _ s' hrun => ?_
  obtain ⟨hnear, hjournal⟩ := lookup?_near hrun
  exact ⟨hnear, by rw [hjournal], trivial⟩

theorem variableType (name : Ident) (pos : Position) :
    Goes names T frame? scope hi [] (pos.places ["variable", "function"]) (fun _ => [])
      (variableType names frame? name pos) fun _ => True := by
  refine last (lookup? name pos) fun d? _ => ?_
  cases d? with
  | none => exact finish (reportAt pos _ (.head _)) fun _ _ => pure trivial
  | some d =>
    simp only
    split
    · exact (finish poison fun _ _ => pure trivial).widen (List.nil_sublist _)
    · exact finish (reportAt pos _ (.tail _ (.head _))) fun _ _ => pure trivial
    · exact (pure trivial).widen (List.nil_sublist _)

theorem binaryType (op : Operator) (pos : Position) (left right : Ty) (leftPos rightPos : Position) :
    Goes names T frame? scope hi []
      (leftPos.places ["left"] ++ (rightPos.places ["right"] ++ pos.places ["operands"])) (fun _ => [])
      (binaryType names op pos left right leftPos rightPos) fun _ => True := by
  have hoperands (expected ty : Ty) : Goes names T frame? scope hi []
      (leftPos.places ["left"] ++ (rightPos.places ["right"] ++ pos.places ["operands"])) (fun _ => []) (do
        Check.expect names (.leftOperand op) expected left leftPos
        Check.expect names (.rightOperand op) expected right rightPos
        return ty : Step Ty) fun _ => True :=
    last (expect _ _ _ _ (.head _)) fun _ _ => (finish (expect _ _ _ _ (.head _)) fun _ _ =>
      pure trivial).widen (List.sublist_append_left _ _)
  unfold Check.binaryType
  split
  · exact hoperands _ _
  split
  · have hsub : (pos.places ["operands"] ++ []).Sublist
        (leftPos.places ["left"] ++ (rightPos.places ["right"] ++ pos.places ["operands"])) := by
      rw [List.append_nil]
      exact (List.sublist_append_right _ _).trans (List.sublist_append_right _ _)
    exact (reported pos _ (.head _) (pure trivial)).widen hsub
  · exact hoperands _ _

/-- The three errors of an argument that changes a default are different ones. -/
theorem nodup_opAssign (names : NameTable) (callee name : Ident) (op : Operator) :
    (List.map (TypeError.message names)
      [.argumentTwice callee name, .noDefault callee name op, .cannotUpdate op]).Nodup := by
  have htwice : (TypeError.argumentTwice callee name).message names ≠ (TypeError.cannotUpdate op).message names :=
    TypeError.message_ne (show "argument" ≠ "operator" by decide)
  have hdefault : (TypeError.noDefault callee name op).message names ≠ (TypeError.cannotUpdate op).message names :=
    TypeError.message_ne (show "argument" ≠ "operator" by decide)
  have hfirst := TypeError.message_argumentTwice_ne names callee name op
  simp [hfirst, htwice, hdefault]

/-- How an argument that is given by name fits a signature. -/
theorem checkNamed (callee : Ident) (signature : Signature) (bound : List Bool) (name : Ident) (arg : Argument) :
    Goes names T frame? scope hi [] (arg.pos.places ["function", "argument", "variable", "operator"]) (fun _ => [])
      (checkNamed names frame? callee signature bound name arg) fun _ => True := by
  unfold Check.checkNamed
  split
  · exact finish (reportAt arg.pos _ (.head _)) fun _ _ => pure trivial
  rename_i i _
  have hwords : (arg.pos.places ["argument"] ++ arg.pos.places ["variable"]).Sublist
      (arg.pos.places ["function", "argument", "variable", "operator"]) :=
    List.Sublist.map (fun word => (arg.pos.index, word)) (by decide : ["argument", "variable"].Sublist _)
  have hplain {form : Step Unit} (hform : Goes names T frame? scope hi [] (arg.pos.places ["variable"]) (fun _ => [])
      form fun _ => True) : Goes names T frame? scope hi []
      (arg.pos.places ["function", "argument", "variable", "operator"]) (fun _ => []) (do
        if bound.getD i false then Check.reportAt names (some arg.pos) (.argumentTwice callee name)
        form
        return bound.set i true : Step (List Bool)) fun _ => True :=
    (reported arg.pos _ (.head _) (finish hform fun _ _ => pure trivial)).widen hwords
  cases arg with
  | assign other value pos | positional value pos => exact hplain ((pure trivial).widen (List.nil_sublist _))
  | shorthand other pos =>
    refine hplain (last (lookup? name pos) fun d? _ => ?_)
    cases d? with
    | none => exact reportAt pos _ (.head _)
    | some d =>
      simp only
      split
      · exact expect _ _ _ pos (.head _)
      · exact (pure trivial).widen (List.nil_sublist _)
  | opAssign other op value pos =>
    have hupdate : Reports names pos [.cannotUpdate op]
        (if (!op.isArithmetic) = true then Check.reportAt names (some pos) (.cannotUpdate op) else Pure.pure ()) := by
      split
      · exact .reportAt pos _
      · exact .pure _ _
    have hform : Reports names pos ([.noDefault callee name op, .cannotUpdate op] ++ []) (do
        checkForm names frame? callee signature name i (.opAssign other op value pos)
        return bound.set i true : Step (List Bool)) :=
      (Reports.guarded _ hupdate).bind fun _ => .pure _ _
    refine of_reports (Reports.guarded (.argumentTwice callee name) hform) (nodup_opAssign names callee name op) ?_
    simp [TypeError.word]

/-- A parameter that got no value is reported once, since the parameters have different names. -/
theorem checkMissing (callee : Ident) (pos : Position) {signature : Signature} (h : signature.Spelled names)
    (bound : List Bool) : Goes names T frame? scope hi [] (pos.places ["missing"]) (fun _ => [])
      (checkMissing names callee pos signature.type.args signature.defaults bound) fun _ => True := by
  refine of_reports (Reports.checkMissing callee pos _ _ bound) ?_ ?_
  · rw [List.map_map, List.Nodup, List.pairwise_map]
    refine (List.pairwise_map.1 h).imp fun hne heq => hne ?_
    exact TypeError.name_eq_of_message_missingArgument heq
  · intro e he
    obtain ⟨p, _, rfl⟩ := List.mem_map.1 he
    exact List.mem_singleton_self _

/-- The check of the value of an argument, before another step. -/
theorem argument {resolve : Resolver} {value : Expr} {rest : State → List Event} {x : Step β}
    (hvalue : Goes names T frame? scope hi [] value.places events (expr names resolve frame? value) fun _ => True)
    (role : Role) (hword : role.word ∈ ["argument"]) (hx : Goes names T frame? scope hi [] places rest x Q) :
    Goes names T frame? scope hi [] (value.places ++ (value.pos.places ["argument"] ++ places))
      (fun s => events s ++ eventsAfter (expr names resolve frame? value) (fun ty =>
        eventsAfter (Check.expect names role .number ty value.pos) fun _ => rest) s) (do
        let ty ← expr names resolve frame? value
        Check.expect names role .number ty value.pos
        x) Q :=
  bind hvalue (fun ty _ => after (expect role .number ty value.pos hword) fun _ _ => hx) (Nat.le_refl _)
    (List.forall_mem_nil _)

section Arguments

variable (site : CallSite) (count : Nat) {ordered : Step Unit} {named : Signature → List Bool → Step (List Bool)}
  {namedEvents : Signature → List Bool → State → List Event}
  (hordered : Goes names T frame? scope hi [] places events ordered fun _ => True)
  (hnamed : ∀ signature bound, Goes names T frame? scope hi [] places (namedEvents signature bound)
    (named signature bound) fun _ => True)
include hordered hnamed

theorem checkGiven (signature : Signature) :
    Goes names T frame? scope hi [] (site.pos.places ["too"] ++ places)
      (match site.style with
        | .ordered => eventsAfter (if signature.arity < count then
            Check.reportAt names (some site.pos) (.tooManyArguments site.callee signature.arity count)
          else Pure.pure ()) fun _ => events
        | .named => namedEvents signature (signature.type.args.map fun _ => false))
      (checkGiven names site count ordered named signature) fun _ => True := by
  unfold Check.checkGiven
  cases site.style with
  | ordered => exact guarded (reportAt site.pos _ (.head _)) (finish hordered fun _ _ => pure trivial)
  | named => exact (hnamed signature _).widen (List.sublist_append_right _ _)

/-- The check of a call once its function is known. -/
theorem checkCall (signature? : Option Signature) : (∀ signature ∈ signature?, signature.Spelled names) →
    Goes names T frame? scope hi [] (site.pos.places ["too"] ++ (places ++ site.pos.places ["missing"]))
      (match signature? with
        | none => fun _ => []
        | some signature => eventsAfter (if signature.failed then Check.poison else Pure.pure ()) fun _ =>
          match site.style with
          | .ordered => eventsAfter (if signature.arity < count then
              Check.reportAt names (some site.pos) (.tooManyArguments site.callee signature.arity count)
            else Pure.pure ()) fun _ => events
          | .named => namedEvents signature (signature.type.args.map fun _ => false))
      (checkCall names site count ordered named signature?) fun _ => True := by
  intro hspelled
  cases signature? with
  | none => exact (typed site.pos _).widen (List.nil_sublist _)
  | some signature =>
    have hfinish (bound : List Bool) : Goes names T frame? scope hi [] (site.pos.places ["missing"]) (fun _ => [])
        (finishCall names site signature bound) fun _ => True :=
      finish (checkMissing site.callee site.pos (hspelled signature rfl) bound) fun _ _ => typed site.pos _
    have hrest := guarded (p := signature.failed = true) poison
      (last (checkGiven site count hordered hnamed signature) fun bound _ => hfinish bound)
    rwa [List.nil_append, List.append_assoc] at hrest

end Arguments

section Calls

variable (hproper : ∀ key name d, T.find? key name = some d → d.Proper key)
include hproper

/-- The function that a call refers to is not one that opens later. -/
theorem lookup?_earlier {name : Ident} {pos : Position} (hpos : pos.index.toNat < hi) :
    Goes names T frame? scope hi [] [] (fun _ => []) (Check.lookup? frame? name pos)
      fun d? => ∀ d ∈ d?, d.Earlier T hi := by
  intro s rest d? s' hs hrest hrun
  obtain ⟨hs', hpasses, _⟩ := lookup? name pos s rest d? s' hs hrest hrun
  refine ⟨hs', hpasses, fun d hd => ?_⟩
  have hd? := (lookup?_ok hs.frame hrun).2
  rw [hd?] at hd
  obtain ⟨⟨_, crossed⟩, hfound, rfl⟩ := Option.map_eq_some_iff.1 hd
  exact hs.earlier hproper hpos hfound

omit hproper in
/-- A signature that is asked for can be given, or that of a function whose body is being checked is. -/
theorem signatureOf? {resolve : Resolver} {observe : Observer} {d : Declaration} (hd : d.Earlier T hi) :
    Goes names T frame? scope hi [] [] (signatureEvents observe d) (signatureOf? resolve d)
      fun signature? => ∀ signature ∈ signature?, signature.Spelled names := by
  intro s rest signature? s' hs hrest hrun
  -- What still waits opens later than the function that is asked for.
  have hnot := hs.not_pending hrest hd
  unfold Check.signatureOf? at hrun
  obtain ⟨s₀, s₁, hget, hrun⟩ := run_bind_ok hrun
  cases hget
  have hdone : signatureEvents observe d s = [] ∧ s' = s ∧ ∀ signature ∈ signature?, signature.Spelled names := by
    unfold signatureEvents
    rcases hlookup : s.typing.functions.lookup (d.block, d.name) with _ | ⟨_ | f, _ | _ | signature⟩
    case some.some.pending => exact absurd hlookup (hnot f)
    case some.some.active =>
      rw [hlookup] at hrun
      cases hrun
      refine ⟨rfl, rfl, ?_⟩
      rintro _ ⟨⟩
      exact Signature.spelled_of_type ((hs.spelled _ _ hlookup).definition f rfl) rfl
    case some.some.resolved | some.none.resolved =>
      rw [hlookup] at hrun
      cases hrun
      refine ⟨rfl, rfl, ?_⟩
      rintro _ ⟨⟩
      exact (hs.spelled _ _ hlookup).signature _ rfl
    case none | some.none.pending | some.none.active =>
      rw [hlookup] at hrun
      cases hrun
      exact ⟨rfl, rfl, nofun⟩
  obtain ⟨hevents, rfl, hspelled⟩ := hdone
  rw [hevents]
  exact ⟨hs, .near (.refl _ _) (List.append_nil _).symm (.nil _), hspelled⟩

theorem calleeSignature? {resolve : Resolver} {observe : Observer} {callee : Ident} {pos : Position}
    (hpos : pos.index.toNat < hi) :
    Goes names T frame? scope hi [] (pos.places ["function", ""]) (calleeEvents observe frame? callee pos)
      (calleeSignature? names resolve frame? callee pos)
      fun signature? => ∀ signature ∈ signature?, signature.Spelled names := by
  refine bind (lookup?_earlier hproper hpos) (fun d? hd => ?_) (Nat.le_refl _) (List.forall_mem_nil _)
  cases d? with
  | none => exact finish (reportAt pos _ (.head _)) fun _ _ => pure nofun
  | some d =>
    simp only
    split
    · exact (signatureOf? (hd d rfl)).widen (List.nil_sublist _)
    · exact finish (reportAt pos _ (.tail _ (.head _))) fun _ _ => pure nofun

end Calls

mutual

/-- No function is defined in an arithmetic expression, and none that its names refer to is still waiting. -/
theorem arithmetic (hproper : ∀ key name d, T.find? key name = some d → d.Proper key)
    {constants : List (Ident × Value)} (resolve : Resolver) (observe : Observer) (e : Expr)
    (h : e.Obeys (.named constants T lo hi) scope) :
    Goes names T frame? scope hi [] e.places (exprEvents names resolve observe frame? e)
      (expr names resolve frame? e) fun _ => True := by
  cases e with
  | span compiled tree =>
    rw [Check.expr, exprEvents, Expr.places]
    exact arithmetic hproper resolve observe tree h
  | number value pos | boolean value pos =>
    rw [Check.expr, exprEvents, Expr.places]
    exact typed _ _
  | var name pos =>
    rw [Check.expr, exprEvents, Expr.places]
    exact finish (variableType name pos) fun ty _ => typed _ ty
  | prefixed op operand pos =>
    rw [Check.expr, exprEvents, Expr.places]
    have hoperand (ty : Ty) : Goes names T frame? scope hi [] (operand.pos.places ["operand"]) (fun _ => [])
        (Check.expect names (.operand op) (if op = .not then .boolean else .number) ty operand.pos) fun _ => True :=
      expect _ _ _ _ (.head _)
    exact last (arithmetic hproper resolve observe operand h) fun ty _ =>
      finish (hoperand ty) fun _ _ => typed _ _
  | binary op left right pos =>
    rw [Check.expr, exprEvents, Expr.places]
    have hright := arithmetic hproper resolve observe right h.2
    have hrest (leftType : Ty) := last hright fun rightType _ =>
      finish (binaryType op pos leftType rightType left.pos right.pos) fun ty _ => typed pos ty
    exact bind (arithmetic hproper resolve observe left h.1) (fun leftType _ => hrest leftType) (Nat.le_refl _)
      (List.forall_mem_nil _)
  | call site args =>
    rw [expr_call_eq, exprEvents, Expr.places]
    have hordered := orderedArguments hproper resolve observe site.callee 0 args h.2
    have hnamed (signature : Signature) (bound : List Bool) :=
      namedArguments hproper resolve observe site.callee signature bound args h.2
    exact bind (calleeSignature? hproper h.1.1.2) (checkCall site args.length hordered hnamed) (Nat.le_refl _) (List.forall_mem_nil _)
  | block | conditional => exact h.1.elim

theorem orderedArguments (hproper : ∀ key name d, T.find? key name = some d → d.Proper key)
    {constants : List (Ident × Value)} (resolve : Resolver) (observe : Observer) (callee : Ident) (i : Nat)
    (args : List Argument) (h : Argument.AllObey (.named constants T lo hi) scope args) :
    Goes names T frame? scope hi [] (Argument.placesOfAll args)
      (orderedEvents names resolve observe frame? callee i args)
      (orderedArguments names resolve frame? callee i args) fun _ => True := by
  cases args with
  | nil =>
    rw [Check.orderedArguments, orderedEvents, Argument.placesOfAll]
    exact pure trivial
  | cons arg args =>
    have hrest := orderedArguments hproper resolve observe callee (i + 1) args h.2
    cases arg with
    | assign _ value pos | opAssign _ _ value pos =>
      rw [Check.orderedArguments, orderedEvents, Argument.placesOfAll, Argument.places]
      refine (argument (arithmetic hproper resolve observe value h.1) _ (.head _) hrest).widen ?_
      simp only [List.append_assoc]
      exact (List.Sublist.refl _).append ((List.Sublist.refl _).append (List.sublist_append_right _ _))
    | positional value pos =>
      rw [Check.orderedArguments, orderedEvents, Argument.placesOfAll, Argument.places, List.append_assoc]
      exact argument (arithmetic hproper resolve observe value h.1) _ (.head _) hrest
    | shorthand name pos =>
      rw [Check.orderedArguments, orderedEvents, Argument.placesOfAll]
      exact hrest.widen (List.sublist_append_right _ _)

theorem namedArguments (hproper : ∀ key name d, T.find? key name = some d → d.Proper key)
    {constants : List (Ident × Value)} (resolve : Resolver) (observe : Observer) (callee : Ident)
    (signature : Signature) (bound : List Bool) (args : List Argument)
    (h : Argument.AllObey (.named constants T lo hi) scope args) :
    Goes names T frame? scope hi [] (Argument.placesOfAll args)
      (namedEvents names resolve observe frame? callee signature bound args)
      (namedArguments names resolve frame? callee signature bound args) fun _ => True := by
  cases args with
  | nil =>
    rw [Check.namedArguments, namedEvents, Argument.placesOfAll]
    exact pure trivial
  | cons arg args =>
    have hrest (bound : List Bool) := namedArguments hproper resolve observe callee signature bound args h.2
    cases arg with
    | assign name value pos | opAssign name op value pos =>
      rw [Check.namedArguments, namedEvents, Argument.placesOfAll, Argument.places]
      simp only [List.append_assoc]
      exact argument (arithmetic hproper resolve observe value h.1) _ (.head _)
        (after (checkNamed callee signature bound name _) fun bound _ => hrest bound)
    | shorthand name pos =>
      rw [Check.namedArguments, namedEvents, Argument.placesOfAll, Argument.places]
      exact after (checkNamed callee signature bound name _) fun bound _ => hrest bound
    | positional value pos =>
      rw [Check.namedArguments, namedEvents, Argument.placesOfAll]
      exact (hrest bound).widen (List.sublist_append_right _ _)

end

end Goes

end Check
end ToneScript
