import ToneScript.Outline.OfTokens
import ToneScript.Proofs.Text.TokenOrder

/-! Where the parts of an outline stand. Definitions stand in the order of the text, and no two parts of
an outline share an offset; the names of one arithmetic expression are only known to stand within it. -/
namespace ToneScript

/-- Whether a position stands between two offsets. -/
def Position.Between (lo hi : Nat) (p : Position) : Prop :=
  lo ≤ p.index.toNat ∧ p.index.toNat < hi

mutual

/-- An outline of tokens between two offsets. -/
def Outline.Within (lo hi : Nat) : Outline → Prop
  | .conditional condition thenBranch elseBranch _ =>
    ∃ m n, condition.Within lo m ∧ thenBranch.Within m n ∧ elseBranch.Within n hi
  | .block entries _ pos =>
    lo ≤ pos.index.toNat ∧ EntryOutline.AllWithin (pos.index.toNat + 1) hi entries
  | .arithmetic terms _ => lo ≤ hi ∧ Term.AllWithin lo hi terms
  | .flawed _ => lo ≤ hi

/-- An entry between two offsets. -/
def EntryOutline.Within (lo hi : Nat) : EntryOutline → Prop
  | .operator _ value guard _ => ∃ m, value.Within lo m ∧ Outline.OptionWithin m hi guard
  | .closure definition _ => definition.Within lo hi
  | .flawed _ => lo ≤ hi

/-- Entries that follow each other between two offsets. -/
def EntryOutline.AllWithin (lo hi : Nat) : List EntryOutline → Prop
  | [] => lo ≤ hi
  | item :: items => ∃ m, item.Within lo m ∧ EntryOutline.AllWithin m hi items

/-- An outline that may be absent. -/
def Outline.OptionWithin (lo hi : Nat) : Option Outline → Prop
  | none => lo ≤ hi
  | some o => o.Within lo hi

/-- A definition between two offsets, no parameter of which is named twice if they are declared. -/
def FunctionOutline.Within (lo hi : Nat) : FunctionOutline → Prop
  | .defined h body =>
    lo ≤ h.opening.index.toNat ∧ (h.params.map Param.name).Nodup ∧
      body.Within (h.opening.index.toNat + 1) hi
  | .bodiless h _ => h.opening.Between lo hi
  | .flawed _ => lo ≤ hi

/-- A term between two offsets. -/
def Term.Within (lo hi : Nat) : Term → Prop
  | .name _ pos => pos.Between lo hi
  | .call _ args pos => pos.Between lo hi ∧ ArgumentOutline.AllWithin lo hi args
  | .const .. => True
  | .operator .. => True
  | .left _ => True
  | .right _ => True
  | .flawed _ => True

/-- Terms in any order between two offsets. -/
def Term.AllWithin (lo hi : Nat) : List Term → Prop
  | [] => True
  | t :: ts => t.Within lo hi ∧ Term.AllWithin lo hi ts

/-- An argument between two offsets. A name alone is its own value. -/
def ArgumentOutline.Within (lo hi : Nat) : ArgumentOutline → Prop
  | .given form terms _ pos =>
    pos.Between lo hi ∧ (∀ name, form = .shorthand name → terms = [.name name pos]) ∧
      Term.AllWithin lo hi terms
  | .missing _ => True

/-- Arguments in any order between two offsets. -/
def ArgumentOutline.AllWithin (lo hi : Nat) : List ArgumentOutline → Prop
  | [] => True
  | arg :: args => arg.Within lo hi ∧ ArgumentOutline.AllWithin lo hi args

end

/-- The outline of a definition at the outermost level. An assigned name can be used from the end of the
assignment on, and the semicolon stands between that end and what follows. -/
def ItemOutline.Within (lo hi : Nat) : ItemOutline → Prop
  | .function definition _ _ => definition.Within lo hi
  | .assignment _ value visibleFrom _ =>
    ∃ m, value.Within lo m ∧ m ≤ visibleFrom.toNat ∧ visibleFrom.toNat < hi
  | .flawed _ => lo ≤ hi

/-- Definitions that follow each other between two offsets. -/
def ItemOutline.AllWithin (lo hi : Nat) : List ItemOutline → Prop
  | [] => lo ≤ hi
  | item :: items => ∃ m, item.Within lo m ∧ ItemOutline.AllWithin m hi items


mutual

theorem Outline.Within.le {lo hi : Nat} (o : Outline) (h : o.Within lo hi) : lo ≤ hi := by
  cases o with
  | conditional condition thenBranch elseBranch pos =>
    obtain ⟨m, n, hcondition, hthen, helse⟩ := h
    have := Outline.Within.le condition hcondition
    have := Outline.Within.le thenBranch hthen
    have := Outline.Within.le elseBranch helse
    omega
  | block entries flaw? pos =>
    obtain ⟨hpos, hentries⟩ := h
    have := EntryOutline.AllWithin.le entries hentries
    omega
  | arithmetic terms pos => exact h.1
  | flawed e => exact h

theorem EntryOutline.Within.le {lo hi : Nat} (item : EntryOutline) (h : item.Within lo hi) :
    lo ≤ hi := by
  cases item with
  | operator op value guard pos =>
    obtain ⟨m, hvalue, hguard⟩ := h
    have := Outline.Within.le value hvalue
    have := Outline.OptionWithin.le guard hguard
    omega
  | closure definition pos => exact FunctionOutline.Within.le definition h
  | flawed e => exact h

theorem EntryOutline.AllWithin.le {lo hi : Nat} (items : List EntryOutline)
    (h : EntryOutline.AllWithin lo hi items) : lo ≤ hi := by
  cases items with
  | nil => exact h
  | cons item items =>
    obtain ⟨m, hitem, hitems⟩ := h
    have := EntryOutline.Within.le item hitem
    have := EntryOutline.AllWithin.le items hitems
    omega

theorem Outline.OptionWithin.le {lo hi : Nat} (o : Option Outline) (h : Outline.OptionWithin lo hi o) :
    lo ≤ hi := by
  cases o with
  | none => exact h
  | some o => exact Outline.Within.le o h

theorem FunctionOutline.Within.le {lo hi : Nat} (definition : FunctionOutline)
    (h : definition.Within lo hi) : lo ≤ hi := by
  cases definition with
  | defined header body =>
    obtain ⟨hopening, _, hbody⟩ := h
    have := Outline.Within.le body hbody
    omega
  | bodiless header e => exact Nat.le_trans h.1 (Nat.le_of_lt h.2)
  | flawed e => exact h

end

theorem Token.Ordered.between {lo hi : Nat} {t : Token} {ts : List Token}
    (h : Token.Ordered lo hi (t :: ts)) : t.pos.Between lo hi := by
  have := h.lt_limit (List.mem_cons_self)
  have := h.bounds (List.mem_cons_self)
  exact ⟨by unfold Token.offset at *; omega, by unfold Token.offset at *; omega⟩

section Params

variable {names : NameTable} {endPos : Position}

private theorem nodup_snoc {seen : List Param} (hseen : (seen.map Param.name).Nodup) (p : Param)
    (hnew : seen.find? (·.name == p.name) = none) : ((seen ++ [p]).map Param.name).Nodup := by
  have hfresh : p.name ∉ seen.map Param.name := by
    intro hmem
    obtain ⟨q, hq, hname⟩ := List.mem_map.1 hmem
    simpa [hname] using List.find?_eq_none.1 hnew q hq
  simp only [List.map_append, List.map_cons, List.map_nil]
  exact List.nodup_append.2 ⟨hseen, by simp, by grind⟩

/-- A parameter list is only extended by names that it does not hold yet. -/
theorem readParams_nodup {seen : List Param} {ts : List Token} {params : List Param} {n : Nat}
    (hseen : (seen.map Param.name).Nodup)
    (h : readParams names endPos seen ts = .ok (params, n)) : (params.map Param.name).Nodup := by
  fun_induction readParams names endPos seen ts generalizing params n with
  | case1 | case3 | case4 | case5 | case8 | case9 => cases h
  | case2 seen t ts _ =>
    cases h
    exact hseen
  | case6 seen t ts _ id _ hnew default? k _ seen' u us =>
    rename_i ih
    cases hrest : readParams names endPos seen' us with
    | error e => simp [hrest, Except.map] at h
    | ok result =>
      rw [hrest] at h
      cases h
      exact ih (nodup_snoc hseen ⟨id, default?, t.pos⟩ hnew) hrest
  | case7 seen t ts _ id _ hnew default? k _ seen' u us _ _ =>
    cases h
    exact nodup_snoc hseen ⟨id, default?, t.pos⟩ hnew

theorem readHeader_params {opening : Position} {ts : List Token} {h : FunctionHeader} {n : Nat}
    (hread : readHeader names endPos opening ts = .ok (h, n)) :
    h.opening = opening ∧ (h.params.map Param.name).Nodup := by
  unfold readHeader at hread
  split at hread
  · cases hread
  split at hread
  · rename_i t ts _ id _
    cases hparams : readParams names endPos [] ts with
    | error e => simp [hparams, Except.map] at hread
    | ok result =>
      rw [hparams] at hread
      cases hread
      exact ⟨rfl, readParams_nodup (by simp) hparams⟩
  · cases hread

end Params

theorem readForm_shorthand {ts : List Token} {id : Ident} (h : (readForm ts).1 = .shorthand id) :
    ∃ t, ts = [t] ∧ t.kind = .ident id ∧ (readForm ts).2 = 0 := by
  unfold readForm at h ⊢
  split at h
  · cases h
  rename_i t ts
  split at h
  · rename_i name hkind
    split at h
    · cases h
      exact ⟨t, rfl, hkind, rfl⟩
    split at h
    · cases h
    split at h
    · split at h <;> cases h
    · cases h
  · cases h

theorem EntryExtent.question_le {endPos : Position} {ts : List Token} {extent : EntryExtent} {q : Nat}
    (h : EntryExtent.of endPos ts = .ok extent) (hq : extent.question? = some q) :
    q ≤ extent.semicolon := by
  unfold EntryExtent.of at h
  simp only at h
  split at h
  · cases h
  · cases h
    simpa using (Option.filter_eq_some_iff.1 hq).2

variable (names : NameTable) (endPos : Position)

mutual

theorem Outline.within_ofTokens {lo hi : Nat} (ts : List Token) (h : Token.Ordered lo hi ts) :
    (Outline.ofTokens names endPos ts).Within lo hi := by
  unfold Outline.ofTokens
  match ts, h with
  | [], h => exact ⟨h.le, by simp [Term.AllWithin, Term.Within]⟩
  | t :: rest, h =>
    have hrest : Token.Ordered lo hi rest := h.drop 1
    simp only
    split
    · split
      · exact h.le
      rename_i colon _
      split
      · exact h.le
      rename_i n _
      obtain ⟨m, hcondition, hbranches⟩ := hrest.split colon
      have hbranches : Token.Ordered m hi (rest.drop (colon + 1)) := by
        rw [← List.drop_drop]
        exact hbranches.drop 1
      obtain ⟨m', hthen, helse⟩ := hbranches.split n
      have helse : Token.Ordered m' hi (rest.drop (colon + 1 + n + 1)) := by
        rw [← List.drop_drop, ← List.drop_drop]
        exact helse.drop 1
      exact ⟨m, m', Outline.within_ofTokens _ hcondition, Outline.within_ofTokens _ hthen,
        Outline.within_ofTokens _ helse⟩
    split
    · have htail := h.tail
      split
      · exact ⟨h.1, EntryOutline.allWithin_listOfTokens _ htail⟩
      · exact ⟨h.1, EntryOutline.allWithin_listOfTokens _ (htail.take _)⟩
    · exact ⟨h.le, Term.allWithin_listOfTokens false _ h⟩
termination_by 3 * ts.length + 2
decreasing_by
  all_goals
    simp only [List.length_take, List.length_drop, List.length_cons]
    omega

theorem EntryOutline.allWithin_listOfTokens {lo hi : Nat} (ts : List Token)
    (h : Token.Ordered lo hi ts) :
    EntryOutline.AllWithin lo hi (EntryOutline.listOfTokens names endPos ts) := by
  unfold EntryOutline.listOfTokens
  match ts, h with
  | [], h => exact h.le
  | t :: rest, h =>
    have hrest : Token.Ordered lo hi rest := h.drop 1
    simp only
    split
    · exact EntryOutline.allWithin_listOfTokens _ hrest
    · obtain ⟨m, hdefinition, hafter⟩ :=
        h.split ((Span.find? .semicolon (t :: rest)).getD (rest.length + 1))
      refine ⟨m, FunctionOutline.within_ofTokens _ hdefinition,
        EntryOutline.allWithin_listOfTokens _ ?_⟩
      have hdrop := hafter.drop 1
      rwa [List.drop_drop, List.drop_succ_cons] at hdrop
    · split
      · exact ⟨hi, h.le, Nat.le_refl hi⟩
      rename_i extent hextent
      obtain ⟨m, hvalue, hafter⟩ := hrest.split (extent.question?.getD extent.semicolon)
      cases hquestion : extent.question? with
      | none =>
        rw [hquestion] at hvalue hafter
        have hdrop := hafter.drop 1
        rw [List.drop_drop] at hdrop
        exact ⟨m, ⟨m, Outline.within_ofTokens _ hvalue, Nat.le_refl m⟩,
          EntryOutline.allWithin_listOfTokens _ hdrop⟩
      | some question =>
        rw [hquestion] at hvalue hafter
        have hle := EntryExtent.question_le hextent hquestion
        have hdrop := hafter.drop 1
        rw [List.drop_drop] at hdrop
        obtain ⟨m', hguard, hend⟩ := hdrop.split (extent.semicolon - (question + 1))
        have hend := hend.drop (extent.semicolon - question - (extent.semicolon - (question + 1)))
        have hcount : question + 1 + (extent.semicolon - (question + 1)
            + (extent.semicolon - question - (extent.semicolon - (question + 1))))
            = extent.semicolon + 1 := by omega
        rw [List.drop_drop, List.drop_drop, Option.getD_some, hcount] at hend
        exact ⟨m', ⟨m, Outline.within_ofTokens _ hvalue, Outline.within_ofTokens _ hguard⟩,
          EntryOutline.allWithin_listOfTokens _ hend⟩
    · exact ⟨hi, h.le, Nat.le_refl hi⟩
termination_by 3 * ts.length + 1
decreasing_by
  all_goals
    simp only [List.length_take, List.length_drop, List.length_cons]
    omega

theorem FunctionOutline.within_ofTokens {lo hi : Nat} (ts : List Token)
    (h : Token.Ordered lo hi ts) : (FunctionOutline.ofTokens names endPos ts).Within lo hi := by
  unfold FunctionOutline.ofTokens
  match ts, h with
  | [], h => exact h.le
  | t :: rest, h =>
    simp only
    split
    · split
      · exact h.le
      · rename_i header n hread
        obtain ⟨hopening, hparams⟩ := readHeader_params hread
        split
        · rw [FunctionOutline.Within, hopening]
          exact h.between
        · refine ⟨?_, hparams, ?_⟩
          · rw [hopening]
            exact h.1
          · rw [hopening]
            exact Outline.within_ofTokens _ (h.tail.drop n)
    · exact h.le
termination_by 3 * ts.length
decreasing_by
  simp only [List.length_drop, List.length_cons]
  omega

theorem Term.allWithin_listOfTokens {lo hi : Nat} (afterOperand : Bool) (ts : List Token)
    (h : Token.Ordered lo hi ts) :
    Term.AllWithin lo hi (Term.listOfTokens names endPos afterOperand ts) := by
  unfold Term.listOfTokens
  match ts, h with
  | [], h => trivial
  | t :: rest, h =>
    have hrest : Token.Ordered lo hi rest := h.drop 1
    simp only
    split
    · exact ⟨trivial, Term.allWithin_listOfTokens true _ hrest⟩
    · exact ⟨trivial, Term.allWithin_listOfTokens false _ hrest⟩
    · split
      · split
        · exact ⟨trivial, trivial⟩
        · rename_i close _
          exact ⟨⟨h.between, ArgumentOutline.allWithin_listOfTokens _ ((hrest.take close).drop 1)⟩,
            Term.allWithin_listOfTokens true _ (hrest.drop _)⟩
      · exact ⟨h.between, Term.allWithin_listOfTokens true _ hrest⟩
    · exact ⟨trivial, Term.allWithin_listOfTokens false _ hrest⟩
    · exact ⟨trivial, Term.allWithin_listOfTokens true _ hrest⟩
    · exact ⟨trivial, trivial⟩
    · exact Term.allWithin_listOfTokens afterOperand _ hrest
termination_by 3 * ts.length + 1
decreasing_by
  all_goals
    simp only [List.length_take, List.length_drop, List.length_cons]
    omega

theorem ArgumentOutline.allWithin_listOfTokens {lo hi : Nat} (ts : List Token)
    (h : Token.Ordered lo hi ts) :
    ArgumentOutline.AllWithin lo hi (ArgumentOutline.listOfTokens names endPos ts) := by
  unfold ArgumentOutline.listOfTokens
  match ts, h with
  | [], h => trivial
  | t :: rest, h =>
    have hrest : Token.Ordered lo hi rest := h.drop 1
    simp only
    split
    · exact ⟨trivial, trivial⟩
    · rename_i hstop
      have htokens := h.take ((Span.find? .comma (t :: rest)).getD (rest.length + 1))
      have hvalue := htokens.drop
        (readForm ((t :: rest).take ((Span.find? .comma (t :: rest)).getD (rest.length + 1)))).2
      refine ⟨⟨h.between, ?_, ?_⟩, ArgumentOutline.allWithin_listOfTokens _ (hrest.drop _)⟩
      · intro name hform
        obtain ⟨u, htake, hkind, hcount⟩ := readForm_shorthand hform
        have hu : u = t := by
          obtain ⟨stop, hsucc⟩ := Nat.exists_eq_succ_of_ne_zero hstop
          rw [hsucc, List.take_succ_cons] at htake
          exact (List.cons.inj htake).1.symm
        subst hu
        rw [hcount, htake]
        simp [Term.listOfTokens, hkind]
      · split
        · exact ⟨trivial, trivial⟩
        · exact Term.allWithin_listOfTokens false _ hvalue
termination_by 3 * ts.length + 2
decreasing_by
  all_goals
    simp only [List.length_take, List.length_drop, List.length_cons]
    omega

end

theorem ItemOutline.AllWithin.le {lo hi : Nat} {items : List ItemOutline}
    (h : ItemOutline.AllWithin lo hi items) : lo ≤ hi := by
  induction items generalizing lo with
  | nil => exact h
  | cons item items ih =>
    obtain ⟨m, hitem, hitems⟩ := h
    refine Nat.le_trans ?_ (ih hitems)
    cases item with
    | function definition _ _ => exact FunctionOutline.Within.le definition hitem
    | assignment _ value _ _ =>
      obtain ⟨n, hvalue, hn, hlt⟩ := hitem
      have := Outline.Within.le value hvalue
      omega
    | flawed e => exact hitem

/-- The end of an assignment is that of its last token, which stands before the semicolon. -/
private theorem assignment_end {lo hi stop : Nat} {t : Token} {ts : List Token} (hhi : hi < UInt64.size)
    (h : Token.Ordered lo hi ts) (hfind : Span.find? .semicolon ts = some stop)
    (hne : ts.take stop ≠ []) :
    ∃ m n, Token.Ordered lo m (ts.take stop) ∧ m < n ∧ Token.Ordered n hi (ts.drop (stop + 1)) ∧
      (((ts.take stop).getLastD t).pos.index
        + ((ts.take stop).getLastD t).lexeme.length.toUInt64).toNat = m := by
  obtain ⟨htake, hdrop⟩ := h.split_last stop hne
  rw [List.drop_eq_getElem_cons (Span.findFrom?_lt hfind)] at hdrop
  have hlast : (ts.take stop).getLastD t = (ts.take stop).getLast hne := by
    rw [List.getLastD_eq_getLast?, List.getLast?_eq_some_getLast hne, Option.getD_some]
  have hlimit := hdrop.le
  refine ⟨_, _, htake, Nat.lt_of_le_of_lt hdrop.1 hdrop.2.1, hdrop.2.2, ?_⟩
  rw [hlast]
  exact Token.toNat_limit (Nat.lt_of_le_of_lt hlimit hhi)

/-- The outlines of a source stand in the order of the text. -/
theorem ItemOutline.allWithin_listOfTokens {lo hi : Nat} (hhi : hi < UInt64.size) (ts : List Token)
    (h : Token.Ordered lo hi ts) :
    ItemOutline.AllWithin lo hi (ItemOutline.listOfTokens names endPos ts) := by
  fun_induction ItemOutline.listOfTokens names endPos ts generalizing lo with
  | case1 => exact h.le
  | case2 t rest _ ih => exact ih (h.drop 1)
  | case3 t rest _ _ n definition after unended? skip =>
    rename_i ih
    obtain ⟨m, hdefinition, hafter⟩ := h.split (n + 1)
    have hskip : Token.Ordered m hi (rest.drop skip) := by
      have hcases : skip = n + 1 ∨ skip = n := by
        unfold skip
        split <;> simp
      rw [List.drop_succ_cons] at hafter
      rcases hcases with hskip | hskip
      · rw [hskip, ← List.drop_drop]
        exact hafter.drop 1
      · rw [hskip]
        exact hafter
    rw [List.take_succ_cons] at hdefinition
    exact ⟨m, FunctionOutline.within_ofTokens names endPos _ hdefinition, ih hskip⟩
  | case4 => exact ⟨hi, h.le, Nat.le_refl hi⟩
  | case5 t rest hsemicolon _ semicolon? id hkind hequals stop hstop tokens last =>
    rename_i ih
    have hne : (t :: rest).take stop ≠ [] := by
      have hzero : stop ≠ 0 := by
        rintro rfl
        simp [semicolon?, Span.find?, Span.findFrom?, hsemicolon] at hstop
      simp [hzero]
    obtain ⟨m, n, hvalue, hlt, hafter, hend⟩ := assignment_end (t := t) hhi h hstop hne
    refine ⟨n, ⟨m, Outline.within_ofTokens names endPos _ (hvalue.drop 2), ?_, ?_⟩, ih hafter⟩
    · exact Nat.le_of_eq hend.symm
    · exact Nat.lt_of_le_of_lt (Nat.le_of_eq hend) hlt
  | case6 t rest _ _ semicolon? =>
    rename_i ih
    obtain ⟨m, hflawed, hafter⟩ := h.split (semicolon?.getD rest.length + 1)
    exact ⟨m, hflawed.le, ih hafter⟩

end ToneScript
