import ToneScript.Proofs.Outline.Extent
import ToneScript.Proofs.Syntax.Grammar

/-! Where tokens are cut into the parts of an outline, there stands what the grammar has between these parts: headers are
read up to their bracket, entries and assignments are cut out up to a semicolon, and conditionals at their `else`. The
parameters of a header are read in full if they are those of the grammar and have different names. -/
namespace ToneScript

variable (names : NameTable) (endPos : Position)

theorem readDefault_derived {name : Token} {id : Ident} (hname : name.kind = .ident id) {ts : List Token}
    {default? : Option Number} {n : Nat} (h : readDefault endPos ts = .ok (default?, n)) :
    Param.Derived (name :: ts.take n) ⟨id, default?, name.pos⟩ := by
  unfold readDefault at h
  split at h
  · rename_i equals ts
    split at h
    · rename_i hequals
      have hequals : equals.kind = .symbol .equals := of_decide_eq_true hequals
      generalize hsign : ts.head?.any (fun s => decide (s.kind = .operator .sub)) = negative at h
      cases negative with
      | true =>
        cases ts with
        | nil => cases hsign
        | cons minus ts =>
          cases ts with
          | nil => cases h
          | cons value ts =>
            simp only [if_true, List.drop_succ_cons, List.drop_zero] at h
            split at h
            · rename_i v hvalue
              cases h
              exact .negative hname hequals (of_decide_eq_true hsign) hvalue
            · cases h
      | false =>
        cases ts with
        | nil => cases h
        | cons value ts =>
          simp only [Bool.false_eq_true, if_false] at h
          split at h
          · rename_i v hvalue
            cases h
            exact .default hname hequals hvalue
          · cases h
    · cases h
      exact .required hname
  · cases h
    exact .required hname

/-- The parameters in front of a closing square bracket. -/
theorem readParams_derived {seen : List Param} {ts : List Token} {params : List Param} {n : Nat}
    (h : readParams names endPos seen ts = .ok (params, n)) :
    ∃ paramTokens closing rest new, params = seen ++ new ∧ ts = paramTokens ++ closing :: rest ∧
      n = paramTokens.length + 1 ∧ closing.kind = .symbol (.right .square) ∧
      Separated Param.Derived true paramTokens new := by
  fun_induction readParams names endPos seen ts generalizing params n with
  | case1 | case3 | case4 | case5 | case8 | case9 => cases h
  | case2 seen t ts hclosing =>
    cases h
    exact ⟨[], t, ts, [], (List.append_nil _).symm, rfl, rfl, of_decide_eq_true hclosing, .nil⟩
  | case6 seen t ts _ id hname _ default? k hdefault seen' u us hdrop hcomma =>
    rename_i ih
    cases hrest : readParams names endPos seen' us with
    | error e => simp [hrest, Except.map] at h
    | ok result =>
      obtain ⟨params', m⟩ := result
      rw [hrest] at h
      cases h
      obtain ⟨paramTokens, closing, rest, new, rfl, rfl, rfl, hclosing, hnew⟩ := ih hrest
      obtain ⟨hts, hlength⟩ := Span.eq_take_append_of_drop hdrop
      have hparam := readDefault_derived endPos hname hdefault
      refine ⟨(t :: ts.take k) ++ u :: paramTokens, closing, rest, ⟨id, default?, t.pos⟩ :: new, ?_, ?_, ?_,
        hclosing, .more hparam (of_decide_eq_true hcomma) hnew fun _ => rfl⟩
      · rw [List.append_assoc, List.singleton_append]
      · rw [List.append_assoc, List.cons_append, List.cons_append, ← hts]
      · rw [List.length_append, List.length_cons, List.length_cons, hlength]
        omega
  | case7 seen t ts _ id hname _ default? k hdefault seen' u us hdrop _ =>
    rename_i hclosing
    cases h
    obtain ⟨hts, hlength⟩ := Span.eq_take_append_of_drop hdrop
    refine ⟨t :: ts.take k, u, us, [⟨id, default?, t.pos⟩], rfl, ?_, ?_, of_decide_eq_true hclosing,
      .last (readDefault_derived endPos hname hdefault)⟩
    · rw [List.cons_append, ← hts]
    · rw [List.length_cons, hlength]

section Parameters

variable {seen : List Param} {rest : List Token}

variable (rest) in
/-- The default of a parameter ends where no equals sign follows its name. -/
theorem Param.Derived.readDefault_eq {ts : List Token} {p : Param} (h : Param.Derived ts p) {t : Token}
    (ht : t.isSymbol .equals = false) :
    ∃ name ds, ts = name :: ds ∧ name.kind = .ident p.name ∧ name.pos = p.pos ∧
      readDefault endPos (ds ++ t :: rest) = .ok (p.default?, ds.length) := by
  cases h with
  | @required name id hname => exact ⟨name, [], rfl, hname, rfl, by simp [readDefault, ht]⟩
  | @default name equals value id v hname hequals hvalue =>
    exact ⟨name, [equals, value], rfl, hname, rfl, by simp [readDefault, Token.isSymbol, hequals, hvalue]⟩
  | @negative name equals minus value id v hname hequals hminus hvalue =>
    exact ⟨name, [equals, minus, value], rfl, hname, rfl, by
      simp [readDefault, Token.isSymbol, hequals, hminus, hvalue]⟩

/-- A parameter whose name is new is read, and what follows its default decides on how the reading goes on. -/
theorem readParams_cons {name t : Token} {x : Ident} {default? : Option Number} {ds : List Token}
    (hname : name.kind = .ident x) (hnew : x ∉ seen.map Param.name)
    (hdefault : readDefault endPos (ds ++ t :: rest) = .ok (default?, ds.length)) :
    readParams names endPos seen (name :: (ds ++ t :: rest)) =
      if t.isSymbol .comma then
        (readParams names endPos (seen ++ [⟨x, default?, name.pos⟩]) rest).map
          fun (params, k) => (params, k + ds.length + 2)
      else if t.isSymbol (.right .square) then .ok (seen ++ [⟨x, default?, name.pos⟩], ds.length + 2)
      else .error (.located t.pos (.expectedParameterEnd (.ofToken t))) := by
  have hright : name.isSymbol (.right .square) = false := by simp [Token.isSymbol, hname]
  have hfind : seen.find? (·.name == x) = none := by
    rw [List.find?_eq_none]
    intro p hp heq
    exact hnew (beq_iff_eq.1 heq ▸ List.mem_map_of_mem hp)
  rw [readParams]
  simp only [hright, Bool.false_eq_true, if_false, hname, hfind, hdefault]
  split
  · rename_i heq
    simp at heq
  · rename_i u us heq
    rw [List.drop_left] at heq
    cases heq
    rfl

/-- Of parameters with different names each is new to those before it. -/
theorem Param.name_notMem {seen params : List Param} {p : Param}
    (hnodup : ((seen ++ p :: params).map Param.name).Nodup) : p.name ∉ seen.map Param.name := by
  intro hmem
  rw [List.map_append] at hnodup
  exact (List.nodup_append.1 hnodup).2.2 _ hmem _ List.mem_cons_self rfl

variable (rest) in
/-- The parameters of a function end at the bracket that closes its header. -/
theorem Separated.readParams_eq {ts : List Token} {params : List Param}
    (h : Separated Param.Derived true ts params) (hnodup : ((seen ++ params).map Param.name).Nodup)
    {closing : Token} (hclosing : closing.kind = .symbol (.right .square)) :
    readParams names endPos seen (ts ++ closing :: rest) = .ok (seen ++ params, ts.length + 1) := by
  have hright : closing.isSymbol (.right .square) = true := by rw [Token.isSymbol, hclosing, beq_self_eq_true]
  have hother : closing.isSymbol .comma = false ∧ closing.isSymbol .equals = false := by
    simp [Token.isSymbol, hclosing]
  induction h generalizing seen with
  | nil =>
    rw [List.nil_append, readParams, hright, if_pos rfl, List.append_nil]
    rfl
  | @last ts p member =>
    obtain ⟨name, ds, rfl, hname, hpos, hdefault⟩ := member.readDefault_eq endPos rest hother.2
    have hnew := Param.name_notMem hnodup
    rw [List.cons_append, readParams_cons names endPos hname hnew hdefault, hother.1, hright, hpos]
    rfl
  | @more ts us comma p params member hcomma hrest hlast ih =>
    have hmark : comma.isSymbol .comma = true := by rw [Token.isSymbol, hcomma, beq_self_eq_true]
    have hequals : comma.isSymbol .equals = false := by simp [Token.isSymbol, hcomma]
    obtain ⟨name, ds, rfl, hname, hpos, hdefault⟩ := member.readDefault_eq endPos (us ++ closing :: rest) hequals
    have hnew := Param.name_notMem hnodup
    have hnodup' : ((seen ++ [p] ++ params).map Param.name).Nodup := by
      rwa [List.append_assoc]
    rw [List.append_assoc, List.cons_append, List.cons_append, readParams_cons names endPos hname hnew hdefault, hmark,
      if_pos rfl, hpos, ih hnodup']
    simp [Except.map]
    omega

end Parameters

/-- The header after an opening square bracket. -/
theorem readHeader_derived {opening : Position} {ts : List Token} {header : FunctionHeader} {n : Nat}
    (h : readHeader names endPos opening ts = .ok (header, n)) :
    ∃ name paramTokens closing rest, ts = name :: (paramTokens ++ closing :: rest) ∧
      n = paramTokens.length + 2 ∧ name.kind = .ident header.name ∧ header.pos = name.pos ∧
      header.opening = opening ∧ closing.kind = .symbol (.right .square) ∧
      Separated Param.Derived true paramTokens header.params := by
  unfold readHeader at h
  split at h
  · cases h
  rename_i name ts
  split at h
  · rename_i id hname
    cases hparams : readParams names endPos [] ts with
    | error e => simp [hparams, Except.map] at h
    | ok result =>
      obtain ⟨params, m⟩ := result
      rw [hparams] at h
      cases h
      obtain ⟨paramTokens, closing, rest, new, rfl, rfl, rfl, hclosing, hnew⟩ :=
        readParams_derived names endPos hparams
      exact ⟨name, paramTokens, closing, rest, rfl, rfl, hname, rfl, rfl, hclosing, hnew⟩
  · cases h

/-- The form of an argument shows what stands before its value. -/
theorem SiteArgument.derived_of_form {l : Leniency} {t : Token} {ts : List Token} {form : ArgumentForm} {n : Nat}
    (hform : readForm (t :: ts) = (form, n)) {value : Compiled} (hvalue : Compiled.Derived l ((t :: ts).drop n) value) :
    SiteArgument.Derived l (t :: ts) (Resolution.argumentOf form value t.pos) := by
  unfold readForm at hform
  simp only at hform
  split at hform
  · rename_i id hname
    split at hform
    · cases hform
      exact .shorthand hname hvalue
    · rename_i u us
      split at hform
      · rename_i hequals
        cases hform
        exact .assign hname (of_decide_eq_true hequals) hvalue
      · split at hform
        · rename_i op hoperator
          split at hform
          · rename_i hequals
            cases hform
            cases us with
            | nil => cases hequals
            | cons equals us => exact .opAssign hname hoperator (of_decide_eq_true hequals) hvalue
          · cases hform
            exact .positional hvalue
        · cases hform
          exact .positional hvalue
  · cases hform
    exact .positional hvalue

/-- The search for the `else` of a conditional finds one. -/
theorem getElem?_of_findElse? {nesting : Nat} {ts : List Token} {i : Nat} (h : findElse? nesting ts = some i) :
    ∃ t, ts[i]? = some t ∧ t.kind = .symbol .kwElse := by
  fun_induction findElse? nesting ts generalizing i with
  | case1 | case2 => cases h
  | case3 nesting t ts _ close _ ih =>
    obtain ⟨j, hj, rfl⟩ := Option.map_eq_some_iff.1 h
    obtain ⟨u, hget, hu⟩ := ih hj
    rw [List.getElem?_drop, Nat.add_comm] at hget
    exact ⟨u, hget, hu⟩
  | case5 t ts _ _ helse =>
    cases h
    exact ⟨t, rfl, of_decide_eq_true helse⟩
  | case4 nesting t ts _ _ ih | case6 t ts _ _ _ nesting ih | case7 nesting t ts _ _ _ ih =>
    obtain ⟨j, hj, rfl⟩ := Option.map_eq_some_iff.1 h
    exact ih hj

/-- An entry of a block ends with a semicolon, and what stands between a question mark and that is its guard. -/
theorem EntryExtent.eq_append {ts : List Token} {extent : EntryExtent} (h : EntryExtent.of endPos ts = .ok extent) :
    ∃ semicolon, semicolon.kind = .symbol .semicolon ∧
      (extent.question? = none → ts = ts.take extent.semicolon ++ semicolon :: ts.drop (extent.semicolon + 1)) ∧
      ∀ q, extent.question? = some q → ∃ question, question.kind = .symbol .questionMark ∧
        ts = ts.take q ++ question :: ((ts.drop (q + 1)).take (extent.semicolon - (q + 1)) ++
          semicolon :: ts.drop (extent.semicolon + 1)) := by
  unfold of at h
  simp only at h
  split at h
  · cases h
  rename_i last hlast
  cases h
  obtain ⟨semicolon, hget, hsemicolon⟩ := Span.getElem?_of_find? hlast
  refine ⟨semicolon, hsemicolon, fun _ => Span.eq_append_of_getElem? hget, fun q hq => ?_⟩
  obtain ⟨hfind, hle⟩ := Option.filter_eq_some_iff.1 hq
  obtain ⟨question, hbefore, hquestion⟩ := Span.getElem?_of_find? hfind
  have hne : q ≠ last := by
    rintro rfl
    rw [hget] at hbefore
    cases hbefore
    rw [hsemicolon] at hquestion
    cases hquestion
  have hlt : q < last := Nat.lt_of_le_of_ne (of_decide_eq_true hle) hne
  have hcount : q + 1 + (last - (q + 1)) = last := by omega
  have hguard : (ts.drop (q + 1))[last - (q + 1)]? = some semicolon := by
    rw [List.getElem?_drop, hcount, hget]
  have hsplit := Span.eq_append_of_getElem? hguard
  rw [List.drop_drop, ← Nat.add_assoc, hcount] at hsplit
  refine ⟨question, hquestion, ?_⟩
  rw [← hsplit]
  exact Span.eq_append_of_getElem? hbefore

/-- An assignment that has an end: its name, an equals sign, its value and a semicolon. -/
theorem eq_append_assignment {name : Token} {rest : List Token} {id : Ident} {stop : Nat}
    (hname : name.kind = .ident id) (hequals : rest.head?.any (·.isSymbol .equals) = true)
    (hstop : Span.find? .semicolon (name :: rest) = some stop) :
    ∃ equals semicolon, equals.kind = .symbol .equals ∧ semicolon.kind = .symbol .semicolon ∧
      rest = equals :: (((name :: rest).take stop).drop 2 ++ semicolon :: rest.drop stop) := by
  obtain ⟨semicolon, hget, hsemicolon⟩ := Span.getElem?_of_find? hstop
  cases rest with
  | nil => cases hequals
  | cons equals us =>
    have hequals : equals.kind = .symbol .equals := of_decide_eq_true hequals
    match stop with
    | 0 =>
      cases hget
      rw [hname] at hsemicolon
      cases hsemicolon
    | 1 =>
      cases hget
      rw [hequals] at hsemicolon
      cases hsemicolon
    | n + 2 =>
      have hsplit : us = us.take n ++ semicolon :: us.drop (n + 1) := Span.eq_append_of_getElem? hget
      exact ⟨equals, semicolon, hequals, hsemicolon, congrArg (equals :: ·) hsplit⟩

theorem Outline.isBlock_ofTokens {ts : List Token} (h : ts.head?.any (·.isSymbol (.left .curly)) = true) :
    (Outline.ofTokens names endPos ts).isBlock = true := by
  cases ts with
  | nil => cases h
  | cons t rest =>
    have hcurly : t.isSymbol (.left .curly) = true := h
    have hif : t.isSymbol .kwIf = false := by
      rw [Token.isSymbol, of_decide_eq_true hcurly]
      rfl
    rw [Outline.ofTokens, hif, hcurly]
    simp only [Bool.false_eq_true, if_false, if_true]
    split <;> rfl

/-- A definition is cut out of the tokens with the whole of its block, or else up to a token that ends its body. -/
theorem functionLength_ends {opening : Token} {rest : List Token} {header : FunctionHeader} {n : Nat}
    (hopening : opening.kind = .symbol (.left .square))
    (hread : readHeader names endPos opening.pos (rest.take (functionLength opening rest)) = .ok (header, n)) :
    ((rest.take (functionLength opening rest)).drop n).head?.any (·.isSymbol (.left .curly)) = true ∨
      (rest.drop (functionLength opening rest)).head?.all endsBody = true := by
  generalize hlength : functionLength opening rest = length at hread ⊢
  obtain ⟨name, paramTokens, closing, body, htake, hn, hname, _, _, hclosing, hparams⟩ :=
    readHeader_derived names endPos hread
  -- The bracket that closes the header is the one that closes the first.
  have hmatch : Span.matching? (opening :: rest) = some n := by
    have hleft : name.isLeft = false := by rw [Token.isLeft, hname]
    have hright : name.isRight = false := by rw [Token.isRight, hname]
    have hbalanced : Span.Balanced (name :: paramTokens) :=
      .plain hleft hright (hparams.balanced fun _ _ => Param.Derived.balanced)
    have hrest : rest = (name :: paramTokens) ++ closing :: (body ++ rest.drop length) := by
      rw [← List.cons_append, ← List.append_assoc, List.cons_append, ← htake, List.take_append_drop]
    rw [hrest, Span.matching?_pair opening closing hopening hclosing hbalanced, hn]
    rfl
  rw [functionLength, hmatch] at hlength
  simp only at hlength
  split at hlength
  · rename_i hcurly
    split at hlength
    · right
      rw [← hlength, List.drop_length]
      rfl
    · rename_i last _
      left
      have hcount : length - n = last + 1 := by omega
      rw [List.drop_take, hcount, List.head?_take, if_neg (Nat.succ_ne_zero last)]
      exact hcurly
  · right
    cases hfind : Span.findFrom? endsBody 0 (rest.drop n) with
    | none =>
      rw [hfind, Option.getD_none] at hlength
      rw [← hlength, ← List.drop_drop, List.drop_length]
      rfl
    | some i =>
      obtain ⟨t, hget, ht⟩ := Span.getElem?_of_findFrom? hfind
      rw [hfind, Option.getD_some] at hlength
      rw [← hlength, ← List.drop_drop, List.head?_drop, hget]
      exact ht

end ToneScript
