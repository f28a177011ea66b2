import Mathlib.Data.Fintype.EquivFin
import ToneScript.Log.Logger
import ToneScript.Proofs.Scope.Lookup

/-! Which records a logger accepts after a history of changes to its levels. A logger tests records twice, against its
own level and against its filter; the main statements say when the filter alone decides, and what a new configuration
leaves of the changes before it. -/
namespace ToneScript.Log

namespace Level

theorem le_iff_rank {a b : Level} : a ≤ b ↔ a.rank ≤ b.rank := Iff.rfl

theorem lt_iff_rank {a b : Level} : a < b ↔ a.rank < b.rank := Iff.rfl

theorem rank_injective {a b : Level} (h : a.rank = b.rank) : a = b := by
  have hsome : some a = some b := by rw [← ofRank?_rank a, h, ofRank?_rank]
  exact Option.some.inj hsome

theorem rank_lower (a b : Level) : (a.lower b).rank = min a.rank b.rank := by
  unfold lower
  by_cases h : b < a
  · have hlt := lt_iff_rank.1 h
    rw [if_pos h]
    omega
  · have hge := mt lt_iff_rank.2 h
    rw [if_neg h]
    omega

/-- The higher of two levels. -/
def higher (a b : Level) : Level :=
  if a < b then b else a

theorem rank_higher (a b : Level) : (a.higher b).rank = max a.rank b.rank := by
  unfold higher
  by_cases h : a < b
  · have hlt := lt_iff_rank.1 h
    rw [if_pos h]
    omega
  · have hge := mt lt_iff_rank.2 h
    rw [if_neg h]
    omega

theorem higher_eq_right {a b : Level} (h : a ≤ b) : a.higher b = b := by
  have hle := le_iff_rank.1 h
  apply rank_injective
  rw [rank_higher]
  omega

/-- Levels with the same levels above them are the same. -/
theorem eq_of_le_iff {a b : Level} (h : ∀ level, a ≤ level ↔ b ≤ level) : a = b := by
  have hab := le_iff_rank.1 ((h b).2 (le_iff_rank.2 (Nat.le_refl _)))
  have hba := le_iff_rank.1 ((h a).1 (le_iff_rank.2 (Nat.le_refl _)))
  exact rank_injective (Nat.le_antisymm hab hba)

end Level

namespace Filter

/-- Whether an item of a filter text sets the default. -/
def setsFallback (item : List Char) : Bool :=
  (Text.cut? '=' item).any (·.1 == ['*'])

/-- Whether a filter text sets the default. -/
def givesFallback (spec : String) : Bool :=
  (Text.fields ',' spec.toList).any setsFallback

/-- An item sets the default of a filter, or an override that depends on the overrides before it only. -/
theorem applyItem_cases (item : List Char) :
    (∃ level, setsFallback item = true ∧ ∀ f : Filter, f.applyItem item = { f with fallback := level }) ∨
      setsFallback item = false ∧ ((∀ f : Filter, f.applyItem item = f) ∨
        ∃ module level, ∀ f : Filter, f.applyItem item = f.override module level) := by
  unfold applyItem setsFallback
  cases hcut : Text.cut? '=' item with
  | some parts =>
    obtain ⟨module, level⟩ := parts
    by_cases hstar : module = ['*']
    · left
      exact ⟨.ofName (String.ofList level), by simp [hstar], by simp [hstar]⟩
    · right
      refine ⟨by simp [hstar], .inr ⟨String.ofList module, .ofName (String.ofList level), by simp [hstar]⟩⟩
  | none =>
    right
    refine ⟨rfl, ?_⟩
    by_cases hempty : item = []
    · exact .inl (by simp [hempty])
    · exact .inr ⟨String.ofList item, .trace, by simp [hempty]⟩

/-- The overrides that items lead to do not depend on the default, and the default only where no item sets it. -/
theorem foldl_applyItem (items : List (List Char)) {f g : Filter} (h : f.overrides = g.overrides) :
    (items.foldl applyItem f).overrides = (items.foldl applyItem g).overrides ∧
      (items.foldl applyItem f).fallback =
        if items.any setsFallback then (items.foldl applyItem g).fallback else f.fallback := by
  induction items generalizing f g with
  | nil => exact ⟨h, rfl⟩
  | cons item items ih =>
    rw [List.foldl_cons, List.foldl_cons, List.any_cons]
    rcases applyItem_cases item with ⟨level, hsets, happly⟩ | ⟨hsets, hkeeps | ⟨module, level, happly⟩⟩
    · -- From here on the two defaults are the same.
      have hnext := ih (f := { f with fallback := level }) (g := { g with fallback := level }) h
      have hsame := ih (f := { g with fallback := level }) (g := { g with fallback := level }) rfl
      rw [happly, happly, hsets, Bool.true_or, if_pos rfl]
      refine ⟨hnext.1, ?_⟩
      rw [hnext.2, hsame.2]
      split <;> simp
    · rw [hkeeps, hkeeps, hsets, Bool.false_or]
      exact ih h
    · have hoverrides : (f.override module level).overrides = (g.override module level).overrides := by
        unfold override
        rw [h]
      rw [happly, happly, hsets, Bool.false_or]
      exact ih hoverrides

/-- The overrides of a filter text do not depend on the filter that reads it. -/
theorem overrides_parse (f g : Filter) (spec : String) : (f.parse spec).overrides = (g.parse spec).overrides :=
  (foldl_applyItem (Text.fields ',' spec.toList) (f := { f with overrides := [] }) (g := { g with overrides := [] }) rfl).1

/-- The default stays unless a filter text sets it. -/
theorem fallback_parse (f g : Filter) (spec : String) :
    (f.parse spec).fallback = if givesFallback spec then (g.parse spec).fallback else f.fallback :=
  (foldl_applyItem (Text.fields ',' spec.toList) (f := { f with overrides := [] }) (g := { g with overrides := [] }) rfl).2

/-- Whether each module has at most one override. -/
def Distinct (f : Filter) : Prop :=
  (f.overrides.map Prod.fst).Nodup

theorem Distinct.override {f : Filter} (h : f.Distinct) (module : String) (level : Level) :
    (f.override module level).Distinct := by
  unfold Distinct Filter.override
  rw [List.map_cons, List.nodup_cons]
  constructor
  · intro hmem
    obtain ⟨entry, hentry, heq⟩ := List.mem_map.1 hmem
    have hne := (List.mem_filter.1 hentry).2
    rw [heq, bne_self_eq_false] at hne
    cases hne
  · have hsublist : ((f.overrides.filter (·.1 != module)).map Prod.fst).Sublist (f.overrides.map Prod.fst) :=
      (List.filter_sublist (l := f.overrides)).map Prod.fst
    exact hsublist.nodup h

theorem distinct_parse (f : Filter) (spec : String) : (f.parse spec).Distinct := by
  have hitems : ∀ (items : List (List Char)) (g : Filter), g.Distinct → (items.foldl applyItem g).Distinct := by
    intro items
    induction items with
    | nil => exact fun g h => h
    | cons item items ih =>
      intro g h
      apply ih
      rcases applyItem_cases item with ⟨level, _, happly⟩ | ⟨_, hkeeps | ⟨module, level, happly⟩⟩
      · rw [happly]
        exact h
      · rw [hkeeps]
        exact h
      · rw [happly]
        exact h.override module level
  exact hitems _ _ List.nodup_nil

/-- Where the overrides are distinct, each of them is found. -/
theorem Distinct.lookup {f : Filter} (h : f.Distinct) {entry : String × Level} (hentry : entry ∈ f.overrides) :
    f.overrides.lookup entry.1 = some entry.2 := by
  obtain ⟨fallback, overrides⟩ := f
  unfold Distinct at h
  simp only at h hentry ⊢
  induction overrides with
  | nil => cases hentry
  | cons other overrides ih =>
    rw [List.map_cons, List.nodup_cons] at h
    rcases List.mem_cons.1 hentry with rfl | hmem
    · exact List.lookup_cons_self
    · have hne : entry.1 ≠ other.1 := by
        intro heq
        apply h.1
        rw [← heq]
        exact List.mem_map_of_mem hmem
      rw [List.lookup_cons, beq_false_of_ne hne]
      exact ih h.2 hmem

/-- The threshold of a module is that of an override or the default. -/
theorem threshold_cases (f : Filter) (module : String) :
    (∃ level, f.overrides.lookup module = some level ∧ f.threshold module = level) ∨
      f.overrides.lookup module = none ∧ f.threshold module = f.fallback := by
  unfold threshold
  cases f.overrides.lookup module with
  | some level => exact .inl ⟨level, rfl, rfl⟩
  | none => exact .inr ⟨rfl, rfl⟩

theorem rank_foldl_lower (overrides : List (String × Level)) (least : Level) :
    (overrides.foldl (fun least entry => least.lower entry.2) least).rank ≤ least.rank ∧
      ∀ entry ∈ overrides, (overrides.foldl (fun least entry => least.lower entry.2) least).rank ≤ entry.2.rank := by
  induction overrides generalizing least with
  | nil => simp
  | cons entry overrides ih =>
    have hnext := ih (least.lower entry.2)
    have hlower := least.rank_lower entry.2
    rw [List.foldl_cons]
    constructor
    · omega
    · intro other hother
      rcases List.mem_cons.1 hother with rfl | hmem
      · omega
      · exact hnext.2 other hmem

/-- The lowest threshold of any module bounds the threshold of each. -/
theorem minLevel_le_threshold (f : Filter) (module : String) : f.minLevel ≤ f.threshold module := by
  have hbound := rank_foldl_lower f.overrides f.fallback
  rw [Level.le_iff_rank]
  unfold minLevel
  rcases f.threshold_cases module with ⟨level, hlookup, heq⟩ | ⟨_, heq⟩
  · have hmem := hbound.2 _ (mem_of_lookup hlookup)
    rw [heq]
    exact hmem
  · rw [heq]
    exact hbound.1

/-- Some module has no override. -/
theorem exists_threshold_eq_fallback (f g : Filter) :
    ∃ module, f.threshold module = f.fallback ∧ g.threshold module = g.fallback := by
  obtain ⟨module, hmodule⟩ :=
    Infinite.exists_notMem_finset ((f.overrides ++ g.overrides).map (·.1.toList)).toFinset
  have hnone (overrides : List (String × Level)) (hsubset : overrides ⊆ f.overrides ++ g.overrides) :
      overrides.lookup (String.ofList module) = none := by
    cases hlookup : overrides.lookup (String.ofList module) with
    | none => rfl
    | some level =>
      have hmem := hsubset (mem_of_lookup hlookup)
      have hlist := List.mem_map_of_mem (f := fun entry : String × Level => entry.1.toList) hmem
      rw [String.toList_ofList] at hlist
      exact absurd (List.mem_toFinset.2 hlist) hmodule
  refine ⟨String.ofList module, ?_, ?_⟩
  · unfold threshold
    rw [hnone f.overrides (List.subset_append_left _ _)]
    rfl
  · unfold threshold
    rw [hnone g.overrides (List.subset_append_right _ _)]
    rfl

end Filter

namespace Logger

/-- A change to the levels of a logger. -/
inductive Change where
  /-- A new configuration, and whether its log file could be opened. -/
  | configure (c : Config) (opened : Bool)
  | level (level : Level)
  | filter (spec : String)

/-- Makes a change. -/
def apply (l : Logger) : Change → Logger
  | .configure c opened => l.configure c opened
  | .level level => l.setLevel level
  | .filter spec => l.setFilter spec

/-- A new logger after changes, from the first to the last. -/
def after (changes : List Change) : Logger :=
  changes.foldl apply {}

theorem after_concat (changes : List Change) (change : Change) :
    after (changes ++ [change]) = (after changes).apply change := by
  unfold after
  rw [List.foldl_append]
  rfl

/-- The lowest level of the records of a module that a logger accepts. -/
def threshold (l : Logger) (module : String) : Level :=
  l.level.higher (l.filter.threshold module)

theorem accepts_iff (l : Logger) (level : Level) (module : String) :
    l.accepts level module = true ↔ l.threshold module ≤ level := by
  have hrank := Level.rank_higher l.level (l.filter.threshold module)
  unfold accepts Filter.passes threshold
  rw [Bool.and_eq_true, decide_eq_true_iff, decide_eq_true_iff, Level.le_iff_rank, Level.le_iff_rank,
    Level.le_iff_rank]
  omega

/-- Loggers that accept the same records of a module have the same threshold for it. -/
theorem accepts_eq_iff (l l' : Logger) (module : String) :
    (∀ level, l.accepts level module = l'.accepts level module) ↔ l.threshold module = l'.threshold module := by
  constructor
  · intro h
    apply Level.eq_of_le_iff
    intro level
    rw [← accepts_iff, ← accepts_iff, h level]
  · intro h level
    rw [Bool.eq_iff_iff, accepts_iff, accepts_iff, h]

/-! ### The quick test and the filter -/

/-- The level that a change sets whatever the overrides are. -/
def Change.plainLevel? : Change → Option Level
  | .configure c _ => if c.filter = "" then some c.level else none
  | .level given => some given
  | .filter _ => none

/-- A change sets the level of the logger and the default of its filter to the same, and keeps the overrides, or it
leaves no level below that of the logger. -/
theorem apply_cases (l : Logger) (change : Change) :
    (∃ level, change.plainLevel? = some level ∧ (l.apply change).level = level ∧
        (l.apply change).filter = { l.filter with fallback := level }) ∨
      change.plainLevel? = none ∧ (l.apply change).level = (l.apply change).filter.minLevel ∧
        (l.apply change).filter.Distinct := by
  cases change with
  | level level => exact .inl ⟨level, rfl, rfl, rfl⟩
  | filter spec => exact .inr ⟨rfl, rfl, l.filter.distinct_parse spec⟩
  | configure c opened =>
    unfold Change.plainLevel? apply configure configureLevels
    by_cases hempty : c.filter = ""
    · left
      exact ⟨c.level, by simp [hempty], by simp [hempty], by simp [hempty]⟩
    · right
      have hdistinct := l.filter.distinct_parse c.filter
      simp only [hempty, if_false, true_and]
      split
      · exact hdistinct
      · exact hdistinct

theorem distinct_after (changes : List Change) : (after changes).filter.Distinct := by
  induction changes using List.reverseRecOn with
  | nil => exact List.nodup_nil
  | append_singleton changes change ih =>
    rw [after_concat]
    rcases apply_cases (after changes) change with ⟨level, _, _, hfilter⟩ | ⟨_, _, hdistinct⟩
    · rw [hfilter]
      exact ih
    · exact hdistinct

/-- Where no module has a threshold below the level of a logger, the filter alone decides. -/
theorem accepts_eq_passes {l : Logger} {module : String} (h : l.level ≤ l.filter.threshold module) (level : Level) :
    l.accepts level module = l.filter.passes level module := by
  have hle := Level.le_iff_rank.1 h
  unfold accepts Filter.passes
  rw [Bool.eq_iff_iff, Bool.and_eq_true, decide_eq_true_iff, decide_eq_true_iff, Level.le_iff_rank, Level.le_iff_rank]
  omega

/-- The filter alone decides which records a logger accepts, unless the last change set a level and gave no filter
text, and an override of an earlier text lies below that level. -/
theorem accepts_eq_passes_iff (changes : List Change) :
    (∀ level module, (after changes).accepts level module = (after changes).filter.passes level module) ↔
      ∀ level ∈ changes.getLast?.bind Change.plainLevel?,
        ∀ entry ∈ (after changes).filter.overrides, level ≤ entry.2 := by
  cases changes using List.reverseRecOn with
  | nil =>
    constructor
    · intro _ level hlevel
      cases hlevel
    · intro _ level module
      exact accepts_eq_passes (Level.le_iff_rank.2 (Nat.le_refl _)) level
  | append_singleton changes change =>
    have hdistinct := distinct_after (changes ++ [change])
    rw [List.getLast?_concat, Option.bind_some]
    rw [after_concat] at hdistinct ⊢
    rcases apply_cases (after changes) change with ⟨plain, hplain, hlevel, hfilter⟩ | ⟨hplain, hlevel, _⟩
    · rw [hplain]
      constructor
      · -- A record of the level of an override passes the filter.
        intro h level hlevel' entry hentry
        cases hlevel'
        have hlookup := hdistinct.lookup hentry
        have haccepts := h entry.2 entry.1
        unfold accepts Filter.passes Filter.threshold at haccepts
        rw [hlookup, Option.getD_some, hlevel, decide_eq_true (Level.le_iff_rank.2 (Nat.le_refl _)),
          Bool.and_true] at haccepts
        exact of_decide_eq_true haccepts
      · intro h level module
        apply accepts_eq_passes
        rw [hlevel]
        rcases ((after changes).apply change).filter.threshold_cases module with ⟨own, hlookup, heq⟩ | ⟨_, heq⟩
        · rw [heq]
          exact h plain rfl (module, own) (mem_of_lookup hlookup)
        · rw [heq, hfilter]
          exact Level.le_iff_rank.2 (Nat.le_refl _)
    · rw [hplain]
      constructor
      · intro _ level hlevel'
        cases hlevel'
      · intro _ level module
        apply accepts_eq_passes
        rw [hlevel]
        exact Filter.minLevel_le_threshold _ module

/-- A level set after a filter text hides what the text lets through. -/
theorem exists_accepts_ne_passes :
    ∃ changes level module, (after changes).accepts level module ≠ (after changes).filter.passes level module :=
  ⟨[.filter "types=trace", .level .error], .trace, "types", by decide +kernel⟩

/-! ### What a configuration leaves of the past -/

/-- Without a filter text a configuration keeps the overrides, as far as they are above its level. -/
theorem threshold_configure_plain (l : Logger) {c : Config} (h : c.filter = "") (opened : Bool) (module : String) :
    (l.configure c opened).threshold module = c.level.higher ((l.filter.overrides.lookup module).getD c.level) := by
  unfold threshold configure configureLevels Filter.threshold
  simp [h]

/-- With a filter text a configuration keeps a default that the text does not set, as far as it is below its level. -/
theorem threshold_configure_filter (l : Logger) {c : Config} (h : c.filter ≠ "") (opened : Bool) (module : String) :
    (l.configure c opened).threshold module =
      { l.filter.parse c.filter with
        fallback := (l.filter.parse c.filter).fallback.lower c.level : Filter }.threshold module := by
  have hfilter : (l.configure c opened).filter =
      { l.filter.parse c.filter with fallback := (l.filter.parse c.filter).fallback.lower c.level } := by
    unfold configure configureLevels Level.lower
    simp only [h, if_false]
    split <;> rfl
  have hlevel : (l.configure c opened).level = (l.configure c opened).filter.minLevel := by
    unfold configure configureLevels
    simp only [h, if_false]
  have hle := Filter.minLevel_le_threshold (l.configure c opened).filter module
  unfold threshold
  rw [hlevel, Level.higher_eq_right hle, hfilter]

/-- Levels that are raised to a floor are the same where those above the floor are. -/
theorem higher_getD_eq_iff (floor : Level) (own own' : Option Level) :
    floor.higher (own.getD floor) = floor.higher (own'.getD floor) ↔
      ∀ level, floor < level → (own = some level ↔ own' = some level) := by
  have hraised (own : Option Level) (level : Level) (hlevel : floor < level) :
      floor.higher (own.getD floor) = level ↔ own = some level := by
    have hrank := Level.rank_higher floor (own.getD floor)
    have hlt := Level.lt_iff_rank.1 hlevel
    constructor
    · intro heq
      cases own with
      | none =>
        rw [heq, Option.getD_none] at hrank
        omega
      | some given =>
        rw [heq, Option.getD_some] at hrank
        rw [Level.rank_injective (a := given) (b := level) (by omega)]
    · intro heq
      rw [heq, Option.getD_some] at hrank ⊢
      exact Level.rank_injective (by omega)
  constructor
  · intro h level hlevel
    rw [← hraised own level hlevel, ← hraised own' level hlevel, h]
  · intro h
    have hfloor (own : Option Level) : ¬floor < floor.higher (own.getD floor) → floor.higher (own.getD floor) = floor := by
      intro hnot
      have hrank := Level.rank_higher floor (own.getD floor)
      have hle := mt Level.lt_iff_rank.2 hnot
      exact Level.rank_injective (by omega)
    by_cases hown : floor < floor.higher (own.getD floor)
    · exact ((hraised own' _ hown).2 ((h _ hown).1 ((hraised own _ hown).1 rfl))).symm
    · by_cases hown' : floor < floor.higher (own'.getD floor)
      · exact (hraised own _ hown').2 ((h _ hown').2 ((hraised own' _ hown').1 rfl))
      · rw [hfloor own hown, hfloor own' hown']

/-- A new configuration forgets the past but for two things. Without a filter text it keeps the overrides above its
level. With a text that does not set the default it keeps a default below its level. -/
theorem accepts_configure_iff (past past' : List Change) (c : Config) (opened opened' : Bool) :
    (∀ level module, ((after past).configure c opened).accepts level module =
        ((after past').configure c opened').accepts level module) ↔
      if c.filter = "" then
        ∀ module level, c.level < level →
          ((after past).filter.overrides.lookup module = some level ↔
            (after past').filter.overrides.lookup module = some level)
      else
        Filter.givesFallback c.filter = true ∨
          (after past).filter.fallback.lower c.level = (after past').filter.fallback.lower c.level := by
  have hthresholds : (∀ level module, ((after past).configure c opened).accepts level module =
        ((after past').configure c opened').accepts level module) ↔
      ∀ module, ((after past).configure c opened).threshold module =
        ((after past').configure c opened').threshold module := by
    simp only [← accepts_eq_iff]
    exact forall_comm
  rw [hthresholds]
  by_cases hempty : c.filter = ""
  · rw [if_pos hempty]
    simp only [threshold_configure_plain _ hempty, higher_getD_eq_iff]
  · have hoverrides := Filter.overrides_parse (after past).filter (after past').filter c.filter
    have hfallback := Filter.fallback_parse (after past).filter (after past').filter c.filter
    rw [if_neg hempty]
    simp only [threshold_configure_filter _ hempty]
    constructor
    · intro h
      by_cases hgives : Filter.givesFallback c.filter = true
      · exact .inl hgives
      · -- A module without an override shows the default.
        right
        obtain ⟨module, hmodule, hmodule'⟩ := Filter.exists_threshold_eq_fallback
          { (after past).filter.parse c.filter with
            fallback := ((after past).filter.parse c.filter).fallback.lower c.level }
          { (after past').filter.parse c.filter with
            fallback := ((after past').filter.parse c.filter).fallback.lower c.level }
        have hsame := h module
        have hkept := Filter.fallback_parse (after past').filter (after past').filter c.filter
        rw [hmodule, hmodule'] at hsame
        rw [if_neg hgives] at hfallback hkept
        rwa [← hfallback, ← hkept]
    · intro h module
      have hlower : ((after past).filter.parse c.filter).fallback.lower c.level =
          ((after past').filter.parse c.filter).fallback.lower c.level := by
        by_cases hgives : Filter.givesFallback c.filter = true
        · rw [hfallback, if_pos hgives]
        · have hkept := Filter.fallback_parse (after past').filter (after past').filter c.filter
          rw [if_neg hgives] at hfallback hkept
          rw [hfallback, hkept]
          exact h.resolve_left hgives
      unfold Filter.threshold
      rw [hoverrides, hlower]

/-- An override that an earlier filter text gave outlives a configuration without one. -/
theorem exists_accepts_configure_ne :
    ∃ past past' c level module, ((after past).configure c true).accepts level module ≠
      ((after past').configure c true).accepts level module :=
  ⟨[.filter "parser=error"], [], {}, .info, "parser", by decide +kernel⟩

end Logger
end ToneScript.Log
