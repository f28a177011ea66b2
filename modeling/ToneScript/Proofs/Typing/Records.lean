import ToneScript.Proofs.Syntax.Nodes
import ToneScript.Proofs.Typing.Invariant

/-! The types that a check records. Every step records the types of the nodes that it goes through and of the functions
that it resolves on the way, and no others. -/
namespace ToneScript

namespace Node

variable (w : Elaboration)

/-- Whether a node had no type yet when it was checked. -/
def isProvisional : Node → Bool
  | expr scope e => e.isProvisional w scope
  | closure .. => false

/-- The type that a node gets: its own, unless it had none yet. -/
def annotation : Node → Ty
  | expr scope e => if e.isProvisional w scope then .indeterminate else e.ty w scope
  | closure f _ => .function f.name

/-- What is recorded of a node. -/
def record (n : Node) : UInt64 × Ty :=
  (n.pos.index, n.annotation w)

end Node

namespace Check

variable {w : Elaboration} {s s' s'' : State} {ns ms : List Node}

/-- The type of a node is recorded, and it is known unless the node had none yet. -/
def State.Annotates (w : Elaboration) (s : State) (n : Node) : Prop :=
  n.record w ∈ s.typing.types ∧ (n.annotation w).isDeterminate = !n.isProvisional w

/-- The types of the nodes of all functions with signatures are recorded. -/
def State.Recorded (w : Elaboration) (s : State) : Prop :=
  ∀ key f signature, s.typing.functions.lookup key = some ⟨some f, .resolved signature⟩ →
    ∀ n ∈ f.nodes, s.Annotates w n

theorem State.Recorded.same (h : s.Recorded w) (hfunctions : s'.typing.functions = s.typing.functions)
    (hkept : s.typing.types ⊆ s'.typing.types) : s'.Recorded w := by
  intro key f signature hlookup n hn
  rw [hfunctions] at hlookup
  exact (h key f signature hlookup n hn).imp_left (hkept ·)

/-- What is recorded between two states that go through some nodes. -/
structure State.Marks (w : Elaboration) (ns : List Node) (s s' : State) : Prop where
  kept : s.typing.types ⊆ s'.typing.types
  added : ∀ entry ∈ s'.typing.types, entry ∈ s.typing.types ∨
    ∃ n, (n ∈ ns ∨ ∃ f ∈ w.program.functions, n ∈ f.nodes) ∧ n.record w = entry
  marked : s.Recorded w → ∀ n ∈ ns, s'.Annotates w n
  recorded : s.Recorded w → s'.Recorded w

namespace State.Marks

theorem of_calm (h : s.Calm s') : s.Marks w [] s' where
  kept := by rw [h.types]; exact List.Subset.refl _
  added entry hentry := .inl (h.types ▸ hentry)
  marked _ := nofun
  recorded hrec := hrec.same h.functions (by rw [h.types]; exact List.Subset.refl _)

theorem refl (s : State) : s.Marks w [] s :=
  of_calm (.refl s)

theorem trans (h : s.Marks w ns s') (h' : s'.Marks w ms s'') : s.Marks w (ns ++ ms) s'' where
  kept := List.Subset.trans h.kept h'.kept
  added entry hentry := by
    rcases h'.added entry hentry with hold | ⟨n, hn, heq⟩
    · refine (h.added entry hold).imp_right fun ⟨n, hn, heq⟩ => ⟨n, ?_, heq⟩
      exact hn.imp_left (List.mem_append_left _)
    · exact .inr ⟨n, hn.imp_left (List.mem_append_right _), heq⟩
  marked hrec := by
    rw [List.forall_mem_append]
    exact ⟨fun n hn => (h.marked hrec n hn).imp_left (h'.kept ·), h'.marked (h.recorded hrec)⟩
  recorded := h'.recorded ∘ h.recorded

/-- Nothing is recorded before some nodes are gone through. -/
theorem after (h : s.Calm s') (h' : s'.Marks w ns s'') : s.Marks w ns s'' :=
  (of_calm h).trans h'

/-- The type of a node is recorded. -/
theorem setType {n : Node} {pos : Position} {ty : Ty} {u : Unit} (hpos : n.pos = pos) (hty : n.annotation w = ty)
    (hdet : ty.isDeterminate = !n.isProvisional w) (h : (Check.setType pos ty).run s = .ok (u, s')) :
    s.Marks w [n] s' := by
  have hrecord : n.record w = (pos.index, ty) := by rw [Node.record, hpos, hty]
  cases h
  constructor
  case kept => exact List.subset_cons_self _ _
  case added =>
    intro entry hentry
    rcases List.mem_cons.1 hentry with rfl | hold
    · exact .inr ⟨n, .inl List.mem_cons_self, hrecord⟩
    · exact .inl hold
  case marked =>
    intro _ m hm
    rw [List.mem_singleton.1 hm, State.Annotates, hrecord, hty]
    exact ⟨List.mem_cons_self, hdet⟩
  case recorded => exact fun hrec => hrec.same rfl (List.subset_cons_self _ _)

/-- The nodes of a function whose signature is known are gone through already. -/
theorem resolved (h : s.Marks w ns s') {key : FunctionKey} {f : FunctionDef} {signature : Signature}
    (hlookup : s'.typing.functions.lookup key = some ⟨some f, .resolved signature⟩) :
    s.Marks w (ns ++ f.nodes) s' where
  kept := h.kept
  added entry hentry := (h.added entry hentry).imp_right fun ⟨n, hn, heq⟩ =>
    ⟨n, hn.imp_left (List.mem_append_left _), heq⟩
  marked hrec := by
    rw [List.forall_mem_append]
    exact ⟨h.marked hrec, h.recorded hrec key f signature hlookup⟩
  recorded := h.recorded

/-- When the body of a function has been gone through, its signature gets known. -/
theorem resolve {f : FunctionDef} (hf : f ∈ w.program.functions) {key : FunctionKey} {progress : Progress}
    {signature : Signature} {table : SymbolTable} {mid : State}
    (h : State.Marks w f.nodes { s with
      table, typing := { s.typing with functions := s.typing.functions.setProgress key .active } } mid)
    (hlookup : mid.typing.functions.lookup key = some ⟨some f, progress⟩)
    (hfunctions : s'.typing.functions = mid.typing.functions.setProgress key (.resolved signature))
    (htypes : s'.typing.types = mid.typing.types) : s.Marks w [] s' where
  kept := htypes ▸ h.kept
  added entry hentry := by
    rw [htypes] at hentry
    refine (h.added entry hentry).imp_right fun ⟨n, hn, heq⟩ => ⟨n, .inr ?_, heq⟩
    exact hn.elim (⟨f, hf, ·⟩) id
  marked _ := nofun
  recorded hrec := by
    have hmid (n : Node) (hn : mid.Annotates w n) : s'.Annotates w n :=
      hn.imp_left fun hmem => by rwa [htypes]
    have hstart : State.Recorded w { s with
        table, typing := { s.typing with functions := s.typing.functions.setProgress key .active } } := by
      intro key' g signature' hkey'
      rcases FunctionTable.of_setProgress hkey' with ⟨_, hprogress, _⟩ | ⟨_, hold⟩
      · cases hprogress
      · exact hrec key' g signature' hold
    intro key' g signature' hkey'
    rw [hfunctions] at hkey'
    rcases FunctionTable.of_setProgress hkey' with ⟨rfl, _, old, hold⟩ | ⟨_, hold⟩
    · cases hlookup.symm.trans hold
      exact fun n hn => hmid n (h.marked hstart n hn)
    · exact fun n hn => hmid n (h.recorded hstart key' g signature' hold n hn)

end State.Marks
end Check
end ToneScript
