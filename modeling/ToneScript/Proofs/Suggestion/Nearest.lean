import Mathlib.Data.List.Induction
import Mathlib.Data.String.Basic
import ToneScript.Proofs.Scope.Visibility
import ToneScript.Proofs.Suggestion.EditDistance
import ToneScript.Syntax.OfOutline

/-! The name that is suggested for one that is not found: of the other names that the use can see, and that are few enough
edits away, the least in order of those that the fewest edits lead to. -/
namespace ToneScript.Suggestion

open EditDistance

/-- Whether a text is the nearest to `input` of those that satisfy `p`: it is near, and not `input` itself, no other is
nearer, and none that is as near comes before it in order. -/
structure IsNearest (input : String) (limit : Nat) (p : String → Prop) (y : String) : Prop where
  candidate : p y
  other : y ≠ input
  near : distance input.toList y.toList < limit
  least (z : String) : p z → z ≠ input →
    distance input.toList y.toList < distance input.toList z.toList ∨
      distance input.toList y.toList = distance input.toList z.toList ∧ y ≤ z

/-- What the search has found among the texts that satisfy `p`, with its distance. -/
def Outcome (input : String) (limit : Nat) (p : String → Prop) : Option (Nat × String) → Prop
  | none => ∀ z, p z → z ≠ input → limit ≤ distance input.toList z.toList
  | some (d, y) => d = distance input.toList y.toList ∧ IsNearest input limit p y

variable {input y : String} {limit : Nat} {p : String → Prop} {best : Option (Nat × String)} {seen : List String}
  {last : String}

theorem IsNearest.unique (h : IsNearest input limit p y) {z : String} (h' : IsNearest input limit p z) : y = z := by
  rcases h.least z h'.candidate h'.other with hlt | ⟨heq, hyz⟩ <;>
    rcases h'.least y h.candidate h.other with hlt' | ⟨heq', hzy⟩
  case inr.inr => exact le_antisymm hyz hzy
  all_goals omega

theorem Outcome.le_limit (h : Outcome input limit p best) : best.elim limit Prod.fst ≤ limit := by
  cases best with
  | none => exact le_rfl
  | some best =>
    obtain ⟨heq, hbest⟩ := h
    exact heq.trans_le hbest.near.le

theorem Outcome.le_distance (h : Outcome input limit p best) {z : String} (hz : p z) (hother : z ≠ input) :
    best.elim limit Prod.fst ≤ distance input.toList z.toList := by
  cases best with
  | none => exact h z hz hother
  | some best =>
    obtain ⟨heq, hbest⟩ := h
    exact heq.trans_le ((hbest.least z hz hother).elim Nat.le_of_lt fun hsame => hsame.1.le)

/-- A text that is nearer than all before is kept. -/
theorem Outcome.keep (h : Outcome input limit (· ∈ seen) best) (hother : last ≠ input)
    (hnear : distance input.toList last.toList < best.elim limit Prod.fst) :
    Outcome input limit (· ∈ seen ++ [last]) (some (distance input.toList last.toList, last)) := by
  refine ⟨rfl, by simp, hother, hnear.trans_le h.le_limit, fun z hz hz' => ?_⟩
  rcases List.mem_append.1 hz with hz | hz
  · exact .inl (hnear.trans_le (h.le_distance hz hz'))
  · rw [List.mem_singleton.1 hz]
    exact .inr ⟨rfl, le_rfl⟩

/-- A text that is no nearer than one before, and comes after it, is passed over. -/
theorem Outcome.pass (h : Outcome input limit (· ∈ seen) best) (hlast : ∀ z ∈ seen, z ≤ last)
    (hfar : last ≠ input → best.elim limit Prod.fst ≤ distance input.toList last.toList) :
    Outcome input limit (· ∈ seen ++ [last]) best := by
  cases best with
  | none =>
    intro z hz hother
    rcases List.mem_append.1 hz with hz | hz
    · exact h z hz hother
    · cases List.mem_singleton.1 hz
      exact hfar hother
  | some best =>
    obtain ⟨d, y⟩ := best
    obtain ⟨rfl, hy⟩ := h
    refine ⟨rfl, List.mem_append_left _ hy.candidate, hy.other, hy.near, fun z hz hother => ?_⟩
    rcases List.mem_append.1 hz with hz | hz
    · exact hy.least z hz hother
    · cases List.mem_singleton.1 hz
      exact (hfar hother).lt_or_eq.imp_right fun hsame => ⟨hsame, hlast y hy.candidate⟩

/-- The search through candidates in order, by induction on them from the last. -/
theorem nearest?_outcome (input : String) (limit : Nat) (candidates : List String) (hsorted : candidates.Pairwise (· ≤ ·)) :
    ∃ best, Outcome input limit (· ∈ candidates) best ∧ nearest? input candidates limit = best.map Prod.snd := by
  refine ⟨_, ?_, rfl⟩
  induction candidates using List.reverseRecOn with
  | nil => exact fun z hz => absurd hz List.not_mem_nil
  | append_singleton seen last ih =>
    obtain ⟨hseen, -, hlast⟩ := List.pairwise_append.1 hsorted
    have hlast (z : String) (hz : z ∈ seen) : z ≤ last := hlast z hz last (List.mem_singleton_self last)
    rw [List.foldl_append, List.foldl_cons, List.foldl_nil]
    split
    case isTrue hinput => exact (ih hseen).pass hlast fun hother => absurd hinput hother
    case isFalse hother =>
      dsimp only
      split
      case isTrue hnear => exact (ih hseen).keep hother hnear
      case isFalse hfar => exact (ih hseen).pass hlast fun _ => not_lt.1 hfar

theorem nearest?_eq_some_iff {candidates : List String} (hsorted : candidates.Pairwise (· ≤ ·)) :
    nearest? input candidates limit = some y ↔ IsNearest input limit (· ∈ candidates) y := by
  obtain ⟨best, hbest, hnearest⟩ := nearest?_outcome input limit candidates hsorted
  rw [hnearest]
  cases best with
  | none =>
    refine iff_of_false nofun fun hy => ?_
    exact absurd hy.near (not_lt.2 (hbest y hy.candidate hy.other))
  | some best =>
    obtain ⟨-, hnear⟩ := hbest
    exact ⟨fun h => Option.some.inj h ▸ hnear, fun hy => congrArg some (hnear.unique hy)⟩

theorem nearest?_isSome_iff {candidates : List String} (hsorted : candidates.Pairwise (· ≤ ·)) :
    (nearest? input candidates limit).isSome ↔
      ∃ z ∈ candidates, z ≠ input ∧ distance input.toList z.toList < limit := by
  obtain ⟨best, hbest, hnearest⟩ := nearest?_outcome input limit candidates hsorted
  rw [hnearest]
  cases best with
  | none => exact iff_of_false nofun fun ⟨z, hz, hother, hnear⟩ => absurd hnear (not_lt.2 (hbest z hz hother))
  | some best =>
    obtain ⟨-, hnear⟩ := hbest
    exact iff_of_true rfl ⟨_, hnear.candidate, hnear.other, hnear.near⟩

/-- Whether another name that a use sees can be spelled with so few edits of the name used that it is close. -/
@[mk_iff]
structure Close (c : Resolution.Context) (t : SymbolTable) (id : Ident) (index : UInt64) (y : String) (edits : Nat) :
    Prop where
  sees : ∃ other, t.Sees index other ∧ c.names.name other = y
  other : y ≠ c.names.name id
  least : IsLeast {n | Edits n (c.names.name id).toList y.toList} edits
  close : edits ≤ if (c.names.name id).length ≤ 2 then 0 else if (c.names.name id).length ≤ 5 then 1 else 2

variable {c : Resolution.Context} {t : SymbolTable} {id : Ident} {index : UInt64}

/-- The names that are searched, in order. -/
theorem mem_candidates : y ∈ ((t.visibleNames index).map c.names.name).mergeSort (fun a b => decide (a ≤ b)) ↔
    ∃ other, t.Sees index other ∧ c.names.name other = y := by
  simp only [List.mem_mergeSort, List.mem_map, SymbolTable.mem_visibleNames]

theorem candidates_sorted (names : List String) : (names.mergeSort fun a b => decide (a ≤ b)).Pairwise (· ≤ ·) := by
  have htrans (x y z : String) (hxy : decide (x ≤ y) = true) (hyz : decide (y ≤ z) = true) : decide (x ≤ z) = true :=
    decide_eq_true ((of_decide_eq_true hxy).trans (of_decide_eq_true hyz))
  have htotal (x y : String) : (decide (x ≤ y) || decide (y ≤ x)) = true := by simpa using le_total x y
  exact (List.pairwise_mergeSort htrans htotal names).imp of_decide_eq_true

theorem suggest?_isSome_iff : (Resolution.suggest? c t id index).isSome ↔ ∃ y edits, Close c t id index y edits := by
  rw [Resolution.suggest?, nearest?_isSome_iff (candidates_sorted _)]
  simp only [mem_candidates]
  constructor
  · rintro ⟨y, hy, hother, hnear⟩
    exact ⟨y, _, hy, hother, isLeast_distance _ _, Nat.le_of_lt_succ hnear⟩
  · rintro ⟨y, edits, hy⟩
    refine ⟨y, hy.sees, hy.other, ?_⟩
    rw [isLeast_iff.1 hy.least]
    exact Nat.lt_succ_of_le hy.close

theorem suggest?_eq_some_iff : Resolution.suggest? c t id index = some y ↔
    ∃ edits, Close c t id index y edits ∧
      ∀ z edits', Close c t id index z edits' → edits < edits' ∨ edits = edits' ∧ y ≤ z := by
  rw [Resolution.suggest?, nearest?_eq_some_iff (candidates_sorted _)]
  constructor
  · intro h
    refine ⟨_, ⟨mem_candidates.1 h.candidate, h.other, isLeast_distance _ _, Nat.le_of_lt_succ h.near⟩, ?_⟩
    intro z edits hz
    rw [← isLeast_iff.1 hz.least]
    exact h.least z (mem_candidates.2 hz.sees) hz.other
  · rintro ⟨edits, hy, hleast⟩
    cases isLeast_iff.1 hy.least
    refine ⟨mem_candidates.2 hy.sees, hy.other, Nat.lt_succ_of_le hy.close, fun z hz hother => ?_⟩
    by_cases hnear : distance (c.names.name id).toList z.toList ≤ Resolution.suggestionLimit (c.names.name id)
    · exact hleast z _ ⟨mem_candidates.1 hz, hother, isLeast_distance _ _, hnear⟩
    · exact .inl (hy.close.trans_lt (not_le.1 hnear))

/-- A name is suggested for another one if one that is close to it can be seen, and it is the first in order of those that
the fewest edits lead to. The order of the declarations in the table has no part in it, and no name is suggested that is
declared further down only. -/
theorem suggestion_close (c : Resolution.Context) (t : SymbolTable) (id : Ident) (index : UInt64) :
    ((Resolution.suggest? c t id index).isSome ↔ ∃ y edits, Close c t id index y edits) ∧
      (∀ y, Resolution.suggest? c t id index = some y ↔ ∃ edits, Close c t id index y edits ∧
        ∀ z edits', Close c t id index z edits' → edits < edits' ∨ edits = edits' ∧ y ≤ z) ∧
      (∀ declarations, declarations.Perm t.declarations →
        Resolution.suggest? c { t with declarations } id index = Resolution.suggest? c t id index) ∧
      (∀ y, Resolution.suggest? c t id index = some y → ∃ key ∈ t.frame, ∃ d, (key, d) ∈ t.declarations ∧
        c.names.name d.name = y ∧ (d.builtin = true ∨ d.visibleFrom ≤ index)) ∧
      ∀ similar?, (SyntaxError.Cause.undefinedVariable (c.names.name id) similar?).notes =
          similar?.toList.map ("did you mean `" ++ · ++ "`?") ∧
        (SyntaxError.Cause.undefinedFunction (c.names.name id) similar?).notes =
          similar?.toList.map ("did you mean `" ++ · ++ "`?") := by
  refine ⟨suggest?_isSome_iff, fun y => suggest?_eq_some_iff, fun declarations hperm => ?_, fun y hy => ?_, ?_⟩
  · have hsees (name : Ident) : SymbolTable.Sees { t with declarations } index name ↔ t.Sees index name := by
      simp only [SymbolTable.Sees, SymbolTable.frame, SymbolTable.depth, SymbolTable.frameBase, hperm.mem_iff]
    have hclose (y : String) (edits : Nat) :
        Close c { t with declarations } id index y edits ↔ Close c t id index y edits := by
      simp only [close_iff, hsees]
    ext y
    simp only [suggest?_eq_some_iff, hclose]
  · obtain ⟨edits, hclose, -⟩ := suggest?_eq_some_iff.1 hy
    obtain ⟨other, ⟨key, hkey, d, hmem, rfl, hvisible⟩, rfl⟩ := hclose.sees
    exact ⟨key, hkey, d, hmem, rfl, by simpa [Declaration.visibleAt] using hvisible⟩
  · have htext (y : String) : "did you mean " ++ SyntaxError.Cause.quote y ++ "?" = "did you mean `" ++ y ++ "`?" :=
      String.ext (by simp [SyntaxError.Cause.quote])
    exact fun similar? => ⟨List.map_congr_left fun y _ => htext y, List.map_congr_left fun y _ => htext y⟩

end ToneScript.Suggestion
