import GajaeCode.LineDiffRounds

/-! # The search of the native line diff ends

The rounds assembled: from the seed of `diff_tokens` to a complete chain.  The
first round is special, because the source does not set its bounds for the seed:
when the seed has already used up one text, one of the two diagonals is tried in
vain.
-/
namespace GajaeCode
namespace NativeLineDiff

section Search
variable {α : Type} {oldToks newToks : List α} {comps : List Comp} {e : Nat} {d : Int}
variable [DecidableEq α]
variable {s : SearchState}

omit [DecidableEq α] in
/-- After as many edits as there are tokens the final diagonal would have to hold
a path that is not at the end of both texts. -/
theorem not_round_of_maxEdit {lo hi : Int} (he : e = oldToks.length + newToks.length) :
    ¬ Round oldToks newToks e lo hi s := by
  intro h
  have hlo := h.lo_target
  have hhi := h.hi_target
  obtain ⟨p, x, y, _, hon⟩ := h.paths ((oldToks.length : Int) - newToks.length)
    ⟨by omega, by omega, by omega⟩
  have hx := hon.x_le
  have hy := hon.y_le
  have hedits := hon.edits
  exact hon.unfinished (by omega)

/-- From any round on, the outer loop ends with a complete chain. -/
theorem Round.outer {lo hi : Int} (rounds : Nat) (h : Round oldToks newToks e lo hi s)
    (hrounds : e + rounds = oldToks.length + newToks.length) :
    (outerLoop oldToks newToks rounds s (e + 1)).Complete oldToks newToks := by
  induction rounds generalizing e s lo hi with
  | zero => exact absurd h (not_round_of_maxEdit (by omega))
  | succ rounds ih =>
    obtain ⟨last, comps, hround, hwalk⟩ | ⟨s', hround, hnext⟩ := h.next
    · exact ⟨last, comps, by rw [outerLoop, hround], hwalk⟩
    · obtain ⟨last, comps, houter, hwalk⟩ := ih hnext (by omega)
      exact ⟨last, comps, by rw [outerLoop, hround]; exact houter, hwalk⟩

theorem stepDiag_of_basePath_eq_none
    (h : basePath oldToks newToks s.comps (s.best (d - 1)) (s.best (d + 1)) d = none) :
    stepDiag oldToks newToks s d = .running
      { s with best := Function.update (Function.update s.best (d - 1) none) d none } := by
  have hup : Function.update s.best (d - 1) none (d + 1) = s.best (d + 1) :=
    Function.update_of_ne (by omega) _ _
  rw [stepDiag]
  simp only [hup, h]

section Seed
variable {seed : PathNode} {x y : Nat}

/-- The state before the first round. -/
def seedState (comps : List Comp) (seed : PathNode) : SearchState :=
  { comps, best := Function.update (fun _ => none) 0 (some seed), minDiag := none, maxDiag := none }

theorem seedState_best_zero (comps : List Comp) (seed : PathNode) :
    (seedState comps seed).best 0 = some seed := by
  simp [seedState]

theorem seedState_best_of_ne {c : Int} (comps : List Comp) (seed : PathNode) (hc : c ≠ 0) :
    (seedState comps seed).best c = none := by
  simp [seedState, Function.update_of_ne hc]

section
variable (hon : OnDiag oldToks newToks comps 0 0 seed x y)
include hon

section
omit [DecidableEq α]

theorem round_zero (hx : x < oldToks.length) (hy : y < newToks.length) :
    Round oldToks newToks 0 0 0 (seedState comps seed) := by
  have hzero : ∀ c, Visited 0 0 0 c → c = 0 := by
    rintro c ⟨h₁, h₂, _⟩
    omega
  have hbest := seedState_best_zero comps seed
  refine ⟨by omega, by omega, by omega, by omega, by omega, ?_, ?_, Or.inl ⟨rfl, rfl, ?_⟩,
    Or.inl ⟨rfl, rfl, ?_⟩, Or.inl rfl, Or.inl rfl⟩
  · intro c hc
    obtain rfl := hzero c hc
    exact ⟨seed, x, y, hbest, hon⟩
  · intro c hc
    exact seedState_best_of_ne comps seed (by omega)
  · intro c hc hdone
    obtain rfl := hzero c hc
    have := (hon.newDone_iff hbest).mp hdone
    omega
  · intro c hc hdone
    obtain rfl := hzero c hc
    have := (hon.oldDone_iff hbest).mp hdone
    omega

theorem seed_neighbours_one (hx : x < oldToks.length) :
    Neighbours oldToks newToks comps (seedState comps seed).best 0 1 := by
  have hbest := seedState_best_zero comps seed
  refine ⟨?_, ?_, Or.inr ⟨seed, x, y, hbest, hon, hx⟩⟩
  · intro p hp
    obtain rfl : seed = p := Option.some.inj (hbest.symm.trans hp)
    exact ⟨x, y, hon⟩
  · intro p hp
    rw [seedState_best_of_ne comps seed (by omega)] at hp
    cases hp

theorem seed_neighbours_neg_one (hy : y < newToks.length) :
    Neighbours oldToks newToks comps (seedState comps seed).best 0 (-1) := by
  have hbest := seedState_best_zero comps seed
  refine ⟨?_, ?_, Or.inl ⟨seed, x, y, hbest, hon, hy⟩⟩
  · intro p hp
    rw [seedState_best_of_ne comps seed (by omega)] at hp
    cases hp
  · intro p hp
    obtain rfl : seed = p := Option.some.inj (hbest.symm.trans hp)
    exact ⟨x, y, hon⟩

end

/-- The new text is a beginning of the old one: the first round has diagonal 1
only.  The bounds of the source do not know this yet; diagonal -1 is tried and
has nothing to extend. -/
theorem round_one_of_newDone (hx : x < oldToks.length) (hy : y = newToks.length) :
    (round oldToks newToks (seedState comps seed) 1).Complete oldToks newToks ∨
    ∃ s', round oldToks newToks (seedState comps seed) 1 = .running s' ∧
      Round oldToks newToks 1 1 1 s' := by
  have hbest := seedState_best_zero comps seed
  have hother := fun c => seedState_best_of_ne (c := c) comps seed
  have hbase : basePath oldToks newToks comps ((seedState comps seed).best (-1 - 1))
      ((seedState comps seed).best (-1 + 1)) (-1) = none := by
    have hfilter := (show OnDiag oldToks newToks comps 0 (-1 + 1) seed x y from hon).filter_add
    rw [if_neg (by omega)] at hfilter
    have hzero : (seedState comps seed).best (-1 + 1) = some seed := hbest
    rw [basePath, hother (-1 - 1) (by omega), hzero]
    simp only [hfilter, Option.filter_none]
  have hfirst := stepDiag_of_basePath_eq_none (s := seedState comps seed) hbase
  have hsame : Function.update (Function.update (seedState comps seed).best (-1 - 1) none) (-1)
      none = (seedState comps seed).best := by
    rw [show (none : Option PathNode) = (seedState comps seed).best (-1 - 1) from
      (hother _ (by omega)).symm, Function.update_eq_self, hother (-1 - 1) (by omega),
      show (none : Option PathNode) = (seedState comps seed).best (-1) from
        (hother _ (by omega)).symm, Function.update_eq_self]
  rw [hsame] at hfirst
  have hround : ∀ r, stepDiag oldToks newToks (seedState comps seed) 1 = r →
      round oldToks newToks (seedState comps seed) 1 = r := by
    intro r hstep
    have htwo : round oldToks newToks (seedState comps seed) 1 =
        innerLoop oldToks newToks 2 (seedState comps seed) (-1) := rfl
    rw [htwo, innerLoop, hfirst]
    simp only [innerLoop]
    split
    · next heq => exact heq.symm.trans hstep
    · next heq => exact heq.symm.trans hstep
  obtain ⟨last, comps', hstep, hwalk⟩ | ⟨more, path, x', y', hon', hstep, hnew, _⟩ :=
    stepDiag_spec (s := seedState comps seed) (seed_neighbours_one hon hx)
  · exact Or.inl ⟨last, comps', hround _ hstep, hwalk⟩
  · have hy' : y' = newToks.length :=
      hnew ((show OnDiag oldToks newToks comps 0 (1 - 1) seed x y from hon).newDone_iff hbest
        |>.mpr hy)
    have hx' : ¬ x' = oldToks.length := fun hx' => hon'.unfinished ⟨hx', hy'⟩
    have hx'le := hon'.x_le
    have hdiag := hon'.diag
    refine Or.inr ⟨_, hround _ hstep, ?_⟩
    have hone : ∀ c, Visited 1 1 1 c → c = 1 := by
      rintro c ⟨h₁, h₂, _⟩
      omega
    have hself := setBest_self (seedState comps seed).best 1 path
    refine ⟨by omega, by omega, by omega, by omega, by omega, ?_, ?_, Or.inr ⟨1, ?_, ?_, ?_, ?_⟩,
      Or.inl ⟨?_, rfl, ?_⟩, Or.inr (by omega), Or.inl rfl⟩
    · intro c hc
      obtain rfl := hone c hc
      exact ⟨path, x', y', hself, hon'⟩
    · intro c hc
      by_cases heq : c = 1 - 1
      · omega
      · exact (setBest_of_ne path (by omega) heq).trans (hother c (by omega))
    · rw [if_pos hy']
      rfl
    · exact ⟨by omega, by omega, by omega⟩
    · exact (hon'.newDone_iff hself).mpr hy'
    · intro c hc _
      exact Int.le_of_eq (hone c hc)
    · exact if_neg hx'
    · intro c hc hdone
      obtain rfl := hone c hc
      exact hx' ((hon'.oldDone_iff hself).mp hdone)

/-- The old text is a beginning of the new one: the first round has diagonal -1
only, and diagonal 1 finds nothing to extend. -/
theorem round_one_of_oldDone (hx : x = oldToks.length) (hy : y < newToks.length) :
    (round oldToks newToks (seedState comps seed) 1).Complete oldToks newToks ∨
    ∃ s', round oldToks newToks (seedState comps seed) 1 = .running s' ∧
      Round oldToks newToks 1 (-1) (-1) s' := by
  have hbest := seedState_best_zero comps seed
  have hother := fun c => seedState_best_of_ne (c := c) comps seed
  have htwo : round oldToks newToks (seedState comps seed) 1 =
      innerLoop oldToks newToks 2 (seedState comps seed) (-1) := rfl
  obtain ⟨last, comps', hstep, hwalk⟩ | ⟨more, path, x', y', hon', hstep, _, hold⟩ :=
    stepDiag_spec (s := seedState comps seed) (seed_neighbours_neg_one hon hy)
  · exact Or.inl ⟨last, comps', by rw [htwo, innerLoop, hstep], hwalk⟩
  · have hx' : x' = oldToks.length :=
      hold ((show OnDiag oldToks newToks comps 0 (-1 + 1) seed x y from hon).oldDone_iff hbest
        |>.mpr hx)
    have hy' : ¬ y' = newToks.length := fun hy' => hon'.unfinished ⟨hx', hy'⟩
    have hy'le := hon'.y_le
    have hdiag := hon'.diag
    obtain ⟨s₁, hrun, hcomps, hset, hmin, hmax⟩ : ∃ s₁,
        stepDiag oldToks newToks (seedState comps seed) (-1) = .running s₁ ∧
        s₁.comps = (seedState comps seed).comps ++ more ∧
        s₁.best = setBest (seedState comps seed).best (-1) path ∧
        s₁.minDiag = none ∧ s₁.maxDiag = some (-1 - 1) :=
      ⟨_, hstep, rfl, rfl, if_neg hy', if_pos hx'⟩
    have hbase : basePath oldToks newToks s₁.comps (s₁.best (1 - 1)) (s₁.best (1 + 1)) 1 = none := by
      have hfilter := (show OnDiag oldToks newToks comps 0 (1 - 1) seed x y from hon).filter_remove
      rw [if_neg (by omega)] at hfilter
      have hzero : s₁.best (1 - 1) = some seed := by
        rw [hset, setBest_of_ne path (by omega) (by omega)]
        exact hbest
      have hnone : s₁.best (1 + 1) = none := by
        rw [hset, setBest_of_ne path (by omega) (by omega), hother _ (by omega)]
      rw [basePath, hzero, hnone]
      simp only [hfilter, Option.filter_none]
    have hlast : innerLoop oldToks newToks 1 s₁ (-1 + 2) = .running
        { s₁ with best := Function.update (Function.update s₁.best (1 - 1) none) 1 none } := by
      rw [show (-1 : Int) + 2 = 1 from rfl, innerLoop, stepDiag_of_basePath_eq_none hbase]
      rfl
    refine Or.inr ⟨_, by rw [htwo, innerLoop, hrun]; exact hlast, ?_⟩
    have hone : ∀ c, Visited 1 (-1) (-1) c → c = -1 := by
      rintro c ⟨h₁, h₂, _⟩
      omega
    -- the two slots cleared by diagonal 1 are not on the round's diagonals
    have hclear : ∀ c : Int, c ≠ 0 → c ≠ 1 →
        Function.update (Function.update s₁.best (1 - 1) none) 1 none c = s₁.best c := by
      intro c hc hc'
      rw [Function.update_of_ne hc', Function.update_of_ne (by omega)]
    have hself : Function.update (Function.update s₁.best (1 - 1) none) 1 none (-1) =
        some path := by
      rw [hclear (-1) (by omega) (by omega), hset, setBest_self]
    rw [← hcomps] at hon'
    refine ⟨by omega, by omega, by omega, by omega, by omega, ?_, ?_, Or.inl ⟨hmin, rfl, ?_⟩,
      Or.inr ⟨-1, hmax, ?_, ?_, ?_⟩, Or.inl rfl, Or.inr (by omega)⟩
    · intro c hc
      obtain rfl := hone c hc
      exact ⟨path, x', y', hself, hon'⟩
    · intro c hc
      refine (hclear c (by omega) (by omega)).trans ?_
      rw [hset]
      by_cases heq : c = -1 - 1
      · subst heq
        exact (Function.update_of_ne (by omega) _ _).trans (Function.update_self _ _ _)
      · exact (setBest_of_ne path (by omega) heq).trans (hother c (by omega))
    · intro c hc hdone
      obtain rfl := hone c hc
      exact hy' ((hon'.newDone_iff hself).mp hdone)
    · exact ⟨by omega, by omega, by omega⟩
    · exact (hon'.oldDone_iff hself).mpr hx'
    · intro c hc _
      exact Int.le_of_eq (hone c hc).symm

/-- The outer loop ends with a complete chain from the seed on. -/
theorem outerLoop_seed : (outerLoop oldToks newToks (newToks.length + oldToks.length)
    (seedState comps seed) 1).Complete oldToks newToks := by
  have hxle := hon.x_le
  have hyle := hon.y_le
  have hun := hon.unfinished
  -- after a first round on one diagonal the invariant holds
  have hrest : ∀ lo hi, ((round oldToks newToks (seedState comps seed) 1).Complete oldToks newToks ∨
      ∃ s', round oldToks newToks (seedState comps seed) 1 = .running s' ∧
        Round oldToks newToks 1 lo hi s') →
      (outerLoop oldToks newToks (newToks.length + oldToks.length)
        (seedState comps seed) 1).Complete oldToks newToks := by
    intro lo hi hfirst
    obtain ⟨rounds, hrounds⟩ : ∃ rounds, newToks.length + oldToks.length = rounds + 1 :=
      ⟨newToks.length + oldToks.length - 1, by omega⟩
    rw [hrounds, outerLoop]
    obtain ⟨last, comps', hround, hwalk⟩ | ⟨s', hround, hnext⟩ := hfirst
    · exact ⟨last, comps', by rw [hround], hwalk⟩
    · rw [hround]
      exact hnext.outer rounds (by omega)
  by_cases hx : x < oldToks.length
  · by_cases hy : y < newToks.length
    · exact (round_zero hon hx hy).outer _ (by omega)
    · exact hrest 1 1 (round_one_of_newDone hon hx (by omega))
  · exact hrest (-1) (-1) (round_one_of_oldDone hon (by omega) (by omega))

end

end Seed

/-- **The search always ends with a complete chain**, for any two token lists. -/
theorem search_finishes (oldToks newToks : List α) :
    (search oldToks newToks).Complete oldToks newToks := by
  obtain ⟨more, k, hcomps, hold, hnew, hx, hy, hwalk⟩ :=
    extractCommon_walk (d := 0) ⟨-1, none⟩ (.start : Walk oldToks newToks [] none 0 0) rfl rfl
      (Nat.zero_le _) (Nat.zero_le _)
  simp only [Nat.zero_add, List.nil_append] at hcomps hold hnew hx hy hwalk
  rw [search]
  simp only [hcomps, hold, hnew]
  by_cases hend : k = oldToks.length ∧ k = newToks.length
  · rw [if_pos (by simp only [Bool.and_eq_true, decide_eq_true_eq]; omega)]
    refine ⟨_, _, rfl, ?_⟩
    rwa [← hend.1, ← hend.2]
  · rw [if_neg (by simp only [Bool.and_eq_true, decide_eq_true_eq]; omega)]
    exact outerLoop_seed (x := k) (y := k) ⟨hold, by omega, hx, hy, Nat.zero_le _, hend, hwalk⟩

end Search

/-- **The native line diff is a correct edit script.**  For every two strings the
parts that are not added spell the old one and the parts that are not removed the
new one, and the search never falls through, whatever the token lists. -/
theorem diffLines_edit_script (oldStr newStr : Bytes) :
    (oldValues (diffLines oldStr newStr) = oldStr ∧ newValues (diffLines oldStr newStr) = newStr) ∧
    ∀ (oldToks newToks : List Bytes) (s : SearchState), search oldToks newToks ≠ .running s := by
  refine ⟨?_, ?_⟩
  · obtain ⟨last, comps, hsearch, hwalk⟩ := search_finishes (tokens oldStr) (tokens newStr)
    have hspec := buildValues_spec hwalk
    rw [flatten_tokens, flatten_tokens] at hspec
    rw [diffLines, diffTokens, hsearch]
    exact hspec
  · intro oldToks newToks s hrun
    obtain ⟨last, comps, hsearch, _⟩ := search_finishes oldToks newToks
    rw [hsearch] at hrun
    cases hrun

/-- One line replaced, with a line kept on either side. -/
example : diffLines [0x61, 0x0a, 0x62, 0x0a, 0x63] [0x61, 0x0a, 0x78, 0x0a, 0x63] =
    [⟨false, false, [0x61, 0x0a]⟩, ⟨false, true, [0x62, 0x0a]⟩, ⟨true, false, [0x78, 0x0a]⟩,
      ⟨false, false, [0x63]⟩] := by
  decide

end NativeLineDiff
end GajaeCode
