import GajaeCode.NativeLineDiff

/-! # The rounds of the native line diff

Two things could go wrong in the search of `crates/pi-natives/src/linediff.rs`.
The best paths are overwritten in place, and one is taken out of its slot while
the round is still running; and once a path has used up one of the two texts, the
diagonals beyond it are no longer visited.  The invariant of a round (`Round`)
says that what is still visited is there, that it has come as far as its edits
allow, and that the final diagonal is never cut off.
-/
namespace GajaeCode
open Option
namespace NativeLineDiff

section Search
variable {α : Type} {oldToks newToks : List α} {comps : List Comp} {e : Nat} {d : Int}
variable {p : PathNode} {best : Int → Option PathNode} {x y : Nat}

/-- A path on diagonal `d` that has consumed `x` old and `y` new tokens, at least
`e` together, and is not at the end of both texts. -/
structure OnDiag (oldToks newToks : List α) (comps : List Comp) (e : Nat) (d : Int)
    (p : PathNode) (x y : Nat) : Prop where
  oldPos : p.oldPos + 1 = x
  diag : (x : Int) - y = d
  x_le : x ≤ oldToks.length
  y_le : y ≤ newToks.length
  edits : e ≤ x + y
  unfinished : ¬ (x = oldToks.length ∧ y = newToks.length)
  walk : Walk oldToks newToks comps p.last x y

theorem OnDiag.append (h : OnDiag oldToks newToks comps e d p x y) (more : List Comp) :
    OnDiag oldToks newToks (comps ++ more) e d p x y :=
  { h with walk := h.walk.append more }

/-- The search is over, with a chain that uses up both texts. -/
def Outcome.Complete (oldToks newToks : List α) (outcome : Outcome) : Prop :=
  ∃ last comps, outcome = .finished last comps ∧
    Walk oldToks newToks comps last oldToks.length newToks.length

/-- A base path: like `OnDiag`, and possibly finished. -/
structure Extended (oldToks newToks : List α) (comps : List Comp) (e : Nat) (d : Int)
    (p : PathNode) (x y : Nat) : Prop where
  oldPos : p.oldPos + 1 = x
  diag : (x : Int) - y = d
  x_le : x ≤ oldToks.length
  y_le : y ≤ newToks.length
  edits : e ≤ x + y
  walk : Walk oldToks newToks comps p.last x y

theorem OnDiag.remove (h : OnDiag oldToks newToks comps e (d - 1) p x y) (hx : x < oldToks.length) :
    ∃ c path, addToPath comps p false true 1 = (comps ++ [c], path) ∧
      Extended oldToks newToks (comps ++ [c]) (e + 1) d path (x + 1) y := by
  obtain ⟨c, hcomps, hwalk⟩ := addToPath_removed h.walk
  have hpos := h.oldPos
  have hdiag := h.diag
  have hedits := h.edits
  refine ⟨c, (addToPath comps p false true 1).2, Prod.ext hcomps rfl, ?_, ?_, hx, h.y_le, ?_, hwalk⟩
  · simp only [addToPath]
    omega
  · omega
  · omega

theorem OnDiag.add (h : OnDiag oldToks newToks comps e (d + 1) p x y) (hy : y < newToks.length) :
    ∃ c path, addToPath comps p true false 0 = (comps ++ [c], path) ∧
      Extended oldToks newToks (comps ++ [c]) (e + 1) d path x (y + 1) := by
  obtain ⟨c, hcomps, hwalk⟩ := addToPath_added h.walk
  have hpos := h.oldPos
  have hdiag := h.diag
  have hedits := h.edits
  refine ⟨c, (addToPath comps p true false 0).2, Prod.ext hcomps rfl, ?_, ?_, h.x_le, hy, ?_, hwalk⟩
  · simp only [addToPath]
    omega
  · omega
  · omega

/-- The diagonal's path has used up the new text. -/
def NewDone (newToks : List α) (best : Int → Option PathNode) (c : Int) : Prop :=
  ∃ p, best c = some p ∧ p.oldPos + 1 - c = newToks.length

/-- The diagonal's path has used up the old text. -/
def OldDone (oldToks : List α) (best : Int → Option PathNode) (c : Int) : Prop :=
  ∃ p, best c = some p ∧ p.oldPos + 1 = oldToks.length

/-- What the two neighbours of a diagonal give: every path there is sound, and
one of them can be extended. -/
structure Neighbours (oldToks newToks : List α) (comps : List Comp) (best : Int → Option PathNode)
    (e : Nat) (d : Int) : Prop where
  remove : ∀ p, best (d - 1) = some p → ∃ x y, OnDiag oldToks newToks comps e (d - 1) p x y
  add : ∀ p, best (d + 1) = some p → ∃ x y, OnDiag oldToks newToks comps e (d + 1) p x y
  extends_ : (∃ p x y, best (d + 1) = some p ∧
      OnDiag oldToks newToks comps e (d + 1) p x y ∧ y < newToks.length) ∨
    ∃ p x y, best (d - 1) = some p ∧ OnDiag oldToks newToks comps e (d - 1) p x y ∧
      x < oldToks.length

/-- A path can be extended downwards while the old text lasts. -/
theorem OnDiag.filter_remove (h : OnDiag oldToks newToks comps e (d - 1) p x y) :
    (some p).filter (fun rp => rp.oldPos + 1 < (oldToks.length : Int)) =
      if x < oldToks.length then some p else none := by
  have hpos := h.oldPos
  rw [filter_some]
  by_cases hx : x < oldToks.length
  · rw [if_pos hx, if_pos (by simp only [decide_eq_true_eq]; omega)]
  · rw [if_neg hx, if_neg (by simp only [decide_eq_true_eq]; omega)]

/-- A path can be extended upwards while the new text lasts. -/
theorem OnDiag.filter_add (h : OnDiag oldToks newToks comps e (d + 1) p x y) :
    (some p).filter (fun ap => 0 ≤ ap.oldPos - d && ap.oldPos - d < (newToks.length : Int)) =
      if y < newToks.length then some p else none := by
  have hpos := h.oldPos
  have hdiag := h.diag
  rw [filter_some]
  by_cases hy : y < newToks.length
  · rw [if_pos hy, if_pos (by simp only [Bool.and_eq_true, decide_eq_true_eq]; omega)]
  · rw [if_neg hy, if_neg (by simp only [Bool.and_eq_true, decide_eq_true_eq]; omega)]

theorem OnDiag.newDone_iff (h : OnDiag oldToks newToks comps e d p x y) (hp : best d = some p) :
    NewDone newToks best d ↔ y = newToks.length := by
  have hpos := h.oldPos
  have hdiag := h.diag
  constructor
  · rintro ⟨p', hp', hdone⟩
    obtain rfl : p = p' := some.inj (hp.symm.trans hp')
    omega
  · intro hy
    exact ⟨p, hp, by omega⟩

theorem OnDiag.oldDone_iff (h : OnDiag oldToks newToks comps e d p x y) (hp : best d = some p) :
    OldDone oldToks best d ↔ x = oldToks.length := by
  have hpos := h.oldPos
  constructor
  · rintro ⟨p', hp', hdone⟩
    obtain rfl : p = p' := some.inj (hp.symm.trans hp')
    omega
  · intro hx
    exact ⟨p, hp, by omega⟩

/-- The base path of a diagonal.  A neighbour that has used up a text passes this
on: from below when it is done with the new text, from above when it is done with
the old text. -/
theorem basePath_spec (h : Neighbours oldToks newToks comps best e d) :
    ∃ c path x y, basePath oldToks newToks comps (best (d - 1)) (best (d + 1)) d =
        some (comps ++ [c], path) ∧ Extended oldToks newToks (comps ++ [c]) (e + 1) d path x y ∧
      (NewDone newToks best (d - 1) → y = newToks.length) ∧
      (OldDone oldToks best (d + 1) → x = oldToks.length) := by
  unfold basePath
  cases hr : best (d - 1) with
  | none =>
    have hnot : ¬ NewDone newToks best (d - 1) := by
      rintro ⟨p, hp, _⟩
      rw [hr] at hp
      cases hp
    obtain ⟨ap, x, y, ha, hon, hy⟩ | ⟨rp, x, y, hrp, _⟩ := h.extends_
    · obtain ⟨c, path, hadd, hext⟩ := hon.add hy
      refine ⟨c, path, x, y + 1, ?_, hext, fun hdone => absurd hdone hnot, ?_⟩
      · simp only [ha, hon.filter_add, if_pos hy, filter_none, hadd]
      · exact (hon.oldDone_iff ha).mp
    · rw [hr] at hrp
      cases hrp
  | some rp =>
    obtain ⟨xr, yr, hron⟩ := h.remove rp hr
    have hrdiag := hron.diag
    have hrpos := hron.oldPos
    have hry := hron.y_le
    have hrx := hron.x_le
    have hrun := hron.unfinished
    cases ha : best (d + 1) with
    | none =>
      have hnot : ¬ OldDone oldToks best (d + 1) := by
        rintro ⟨p, hp, _⟩
        rw [ha] at hp
        cases hp
      obtain ⟨ap, x, y, hap, _⟩ | ⟨rp', x, y, hrp, hon, hx⟩ := h.extends_
      · rw [ha] at hap
        cases hap
      · obtain rfl : rp = rp' := some.inj (hr.symm.trans hrp)
        obtain ⟨c, path, hremove, hext⟩ := hon.remove hx
        refine ⟨c, path, x + 1, y, ?_, hext, ?_, fun hdone => absurd hdone hnot⟩
        · simp only [hon.filter_remove, if_pos hx, filter_none, hremove]
        · exact (hon.newDone_iff hr).mp
    | some ap =>
      obtain ⟨xa, ya, haon⟩ := h.add ap ha
      have hadiag := haon.diag
      have hapos := haon.oldPos
      have hay := haon.y_le
      have hax := haon.x_le
      have haun := haon.unfinished
      rw [hron.newDone_iff hr, haon.oldDone_iff ha]
      simp only [hron.filter_remove, haon.filter_add]
      by_cases hx : xr < oldToks.length
      · obtain ⟨c, path, hremove, hext⟩ := hron.remove hx
        by_cases hy : ya < newToks.length
        · obtain ⟨c', path', hadd, hext'⟩ := haon.add hy
          simp only [if_pos hx, if_pos hy]
          by_cases hlt : rp.oldPos < ap.oldPos
          · rw [if_pos hlt, hadd]
            exact ⟨c', path', xa, ya + 1, rfl, hext', by omega, by omega⟩
          · rw [if_neg hlt, hremove]
            exact ⟨c, path, xr + 1, yr, rfl, hext, by omega, by omega⟩
        · simp only [if_pos hx, if_neg hy, hremove]
          exact ⟨c, path, xr + 1, yr, rfl, hext, by omega, by omega⟩
      · have hy : ya < newToks.length := by
          obtain ⟨ap', x, y, hap, hon, hy⟩ | ⟨rp', x, y, hrp, hon, hx'⟩ := h.extends_
          · obtain rfl : ap = ap' := some.inj (ha.symm.trans hap)
            have := hon.diag
            have := hon.oldPos
            omega
          · obtain rfl : rp = rp' := some.inj (hr.symm.trans hrp)
            have := hon.oldPos
            omega
        obtain ⟨c', path', hadd, hext'⟩ := haon.add hy
        simp only [if_neg hx, if_pos hy, hadd]
        exact ⟨c', path', xa, ya + 1, rfl, hext', by omega, by omega⟩

variable [DecidableEq α]

/-- One diagonal whose neighbours can be extended: the search ends with a complete
chain, or the diagonal has its path and the bounds are moved when a text is used
up. -/
theorem stepDiag_spec {s : SearchState} (h : Neighbours oldToks newToks s.comps s.best e d) :
    (stepDiag oldToks newToks s d).Complete oldToks newToks ∨
    ∃ more path x y, OnDiag oldToks newToks (s.comps ++ more) (e + 1) d path x y ∧
      stepDiag oldToks newToks s d = .running
        { comps := s.comps ++ more
          best := Function.update (Function.update s.best (d - 1) none) d (some path)
          minDiag := if y = newToks.length then some (s.minDiag.elim (d + 1) (max · (d + 1)))
            else s.minDiag
          maxDiag := if x = oldToks.length then some (s.maxDiag.elim (d - 1) (min · (d - 1)))
            else s.maxDiag } ∧
      (NewDone newToks s.best (d - 1) → y = newToks.length) ∧
      (OldDone oldToks s.best (d + 1) → x = oldToks.length) := by
  obtain ⟨c, path, x, y, hbase, hext, hnew, hold⟩ := basePath_spec h
  have hdiag := hext.diag
  have hpos := hext.oldPos
  have hedits := hext.edits
  have hup : Function.update s.best (d - 1) none (d + 1) = s.best (d + 1) :=
    Function.update_of_ne (by omega) _ _
  obtain ⟨more, k, hcomps, hold', hnew', hxk, hyk, hwalk⟩ :=
    extractCommon_walk (d := d) path hext.walk hpos (by omega) hext.x_le hext.y_le
  have hstep : stepDiag oldToks newToks s d =
      if (decide ((oldToks.length : Int) ≤ (x + k : Nat)) &&
          decide ((newToks.length : Int) ≤ (y + k : Nat))) = true then
        .finished (extractCommon oldToks newToks (s.comps ++ [c]) path d).2.1.last
          (s.comps ++ [c] ++ more)
      else .running
        { comps := s.comps ++ [c] ++ more
          best := Function.update (Function.update s.best (d - 1) none) d
            (some (extractCommon oldToks newToks (s.comps ++ [c]) path d).2.1)
          minDiag := if decide ((newToks.length : Int) ≤ (y + k : Nat)) = true then
            some (s.minDiag.elim (d + 1) (max · (d + 1))) else s.minDiag
          maxDiag := if decide ((oldToks.length : Int) ≤ (x + k : Nat)) = true then
            some (s.maxDiag.elim (d - 1) (min · (d - 1))) else s.maxDiag } := by
    rw [stepDiag]
    simp only [hup, hbase, hcomps, hold', hnew']
  by_cases hend : x + k = oldToks.length ∧ y + k = newToks.length
  · refine Or.inl ⟨_, _, hstep.trans (if_pos ?_), ?_⟩
    · simp only [Bool.and_eq_true, decide_eq_true_eq]
      omega
    · rwa [hend.1, hend.2] at hwalk
  · refine Or.inr ⟨[c] ++ more, _, x + k, y + k, ⟨hold', by omega, hxk, hyk, by omega, hend, ?_⟩,
      hstep.trans ((if_neg ?_).trans ?_), ?_, ?_⟩
    · rwa [← List.append_assoc]
    · simp only [Bool.and_eq_true, decide_eq_true_eq]
      omega
    · have hn : (decide ((newToks.length : Int) ≤ (y + k : Nat)) = true) =
          (y + k = newToks.length) := by
        rw [decide_eq_true_eq, eq_iff_iff]
        omega
      have ho : (decide ((oldToks.length : Int) ≤ (x + k : Nat)) = true) =
          (x + k = oldToks.length) := by
        rw [decide_eq_true_eq, eq_iff_iff]
        omega
      simp only [hn, ho, List.append_assoc]
    · intro hdone
      have := hnew hdone
      omega
    · intro hdone
      have := hold hdone
      omega

/-! ## One round -/

def Visited (e : Nat) (lo hi c : Int) : Prop := lo ≤ c ∧ c ≤ hi ∧ (c - e) % 2 = 0

/-- **After round `e`**, on the diagonals from `lo` to `hi`.  Each has its path,
and beyond the reach of `e` edits there is none.  A bound stands right next to
the innermost diagonal that has used up its text; the final diagonal lies inside. -/
structure Round (oldToks newToks : List α) (e : Nat) (lo hi : Int) (s : SearchState) : Prop where
  lo_ge : -(e : Int) ≤ lo
  hi_le : hi ≤ e
  lo_le_hi : lo ≤ hi
  lo_parity : (lo - e) % 2 = 0
  hi_parity : (hi - e) % 2 = 0
  paths : ∀ c, Visited e lo hi c →
    ∃ p x y, s.best c = some p ∧ OnDiag oldToks newToks s.comps e c p x y
  outside : ∀ c : Int, c < -(e : Int) ∨ (e : Int) < c → s.best c = none
  minDiag : (s.minDiag = none ∧ lo = -(e : Int) ∧
      ∀ c, Visited e lo hi c → ¬ NewDone newToks s.best c) ∨
    ∃ k, s.minDiag = some (k + 1) ∧ Visited e lo hi k ∧ NewDone newToks s.best k ∧
      ∀ c, Visited e lo hi c → NewDone newToks s.best c → c ≤ k
  maxDiag : (s.maxDiag = none ∧ hi = (e : Int) ∧
      ∀ c, Visited e lo hi c → ¬ OldDone oldToks s.best c) ∨
    ∃ k, s.maxDiag = some (k - 1) ∧ Visited e lo hi k ∧ OldDone oldToks s.best k ∧
      ∀ c, Visited e lo hi c → OldDone oldToks s.best c → k ≤ c
  lo_target : lo = -(e : Int) ∨ lo ≤ (oldToks.length : Int) - newToks.length
  hi_target : hi = (e : Int) ∨ (oldToks.length : Int) - newToks.length ≤ hi

/-- The bounds of the next round. -/
def nextLo (s : SearchState) (e : Nat) : Int := s.minDiag.elim (-(e : Int)) (max · (-(e : Int)))

def nextHi (s : SearchState) (e : Nat) : Int := s.maxDiag.elim (e : Int) (min · (e : Int))

/-- The diagonals of the next round, up to one of them. -/
abbrev Ahead (s : SearchState) (e : Nat) : Int → Int → Prop := Visited (e + 1) (nextLo s (e + 1))

/-- What the lower bound of the next round owes to the round before: no bound
yet, or the diagonal below it is done with the new text. -/
structure LowFrontier (oldToks newToks : List α) (e : Nat) (lo hi : Int) (s : SearchState) :
    Prop where
  ge : -((e + 1 : Nat) : Int) ≤ nextLo s (e + 1)
  le : nextLo s (e + 1) ≤ ((e + 1 : Nat) : Int)
  parity : (nextLo s (e + 1) - (e + 1 : Nat)) % 2 = 0
  cases : (s.minDiag = none ∧ nextLo s (e + 1) = -((e + 1 : Nat) : Int) ∧ lo = -(e : Int)) ∨
    (s.minDiag = some (nextLo s (e + 1)) ∧ Visited e lo hi (nextLo s (e + 1) - 1) ∧
      NewDone newToks s.best (nextLo s (e + 1) - 1))
  above : ∀ c, Visited e lo hi c → NewDone newToks s.best c → c < nextLo s (e + 1)
  target : nextLo s (e + 1) = -((e + 1 : Nat) : Int) ∨
    nextLo s (e + 1) ≤ (oldToks.length : Int) - newToks.length

/-- The same for the upper bound and the old text. -/
structure HighFrontier (oldToks newToks : List α) (e : Nat) (lo hi : Int) (s : SearchState) :
    Prop where
  ge : -((e + 1 : Nat) : Int) ≤ nextHi s (e + 1)
  le : nextHi s (e + 1) ≤ ((e + 1 : Nat) : Int)
  parity : (nextHi s (e + 1) - (e + 1 : Nat)) % 2 = 0
  cases : (s.maxDiag = none ∧ nextHi s (e + 1) = ((e + 1 : Nat) : Int) ∧ hi = (e : Int)) ∨
    (s.maxDiag = some (nextHi s (e + 1)) ∧ Visited e lo hi (nextHi s (e + 1) + 1) ∧
      OldDone oldToks s.best (nextHi s (e + 1) + 1))
  below : ∀ c, Visited e lo hi c → OldDone oldToks s.best c → nextHi s (e + 1) < c
  target : nextHi s (e + 1) = ((e + 1 : Nat) : Int) ∨
    (oldToks.length : Int) - newToks.length ≤ nextHi s (e + 1)

section Frontier
variable {s : SearchState} {lo hi : Int}

section
variable (h : Round oldToks newToks e lo hi s)
include h

section
omit [DecidableEq α]

/-- A path done with the new text is below the final diagonal. -/
theorem Round.lt_target {k : Int} (hk : Visited e lo hi k) (hdone : NewDone newToks s.best k) :
    k < (oldToks.length : Int) - newToks.length := by
  obtain ⟨p, x, y, hp, hon⟩ := h.paths k hk
  have hy := (hon.newDone_iff hp).mp hdone
  have hx := hon.x_le
  have hdiag := hon.diag
  have hun := hon.unfinished
  omega

theorem Round.target_lt {k : Int} (hk : Visited e lo hi k) (hdone : OldDone oldToks s.best k) :
    (oldToks.length : Int) - newToks.length < k := by
  obtain ⟨p, x, y, hp, hon⟩ := h.paths k hk
  have hx := (hon.oldDone_iff hp).mp hdone
  have hy := hon.y_le
  have hdiag := hon.diag
  have hun := hon.unfinished
  omega

theorem Round.lowFrontier : LowFrontier oldToks newToks e lo hi s := by
  have hge := h.lo_ge
  have hle := h.hi_le
  obtain ⟨hmin, hlo, hnone⟩ | ⟨k, hmin, hvis, hdone, hlast⟩ := h.minDiag
  · have hl : nextLo s (e + 1) = -((e + 1 : Nat) : Int) := by simp [nextLo, hmin]
    exact ⟨by omega, by omega, by omega, Or.inl ⟨hmin, hl, hlo⟩,
      fun c hc hcdone => absurd hcdone (hnone c hc), Or.inl hl⟩
  · have htarget := h.lt_target hvis hdone
    obtain ⟨hk₁, hk₂, hk₃⟩ := hvis
    have hl : nextLo s (e + 1) = k + 1 := by
      simp only [nextLo, hmin, elim_some]
      omega
    refine ⟨by omega, by omega, by omega, Or.inr ?_, ?_, Or.inr (by omega)⟩
    · rw [hl, hmin, Int.add_sub_cancel]
      exact ⟨rfl, ⟨hk₁, hk₂, hk₃⟩, hdone⟩
    · intro c hc hcdone
      have := hlast c hc hcdone
      omega

theorem Round.highFrontier : HighFrontier oldToks newToks e lo hi s := by
  have hge := h.lo_ge
  have hle := h.hi_le
  obtain ⟨hmax, hhi, hnone⟩ | ⟨k, hmax, hvis, hdone, hfirst⟩ := h.maxDiag
  · have hh : nextHi s (e + 1) = ((e + 1 : Nat) : Int) := by simp [nextHi, hmax]
    exact ⟨by omega, by omega, by omega, Or.inl ⟨hmax, hh, hhi⟩,
      fun c hc hcdone => absurd hcdone (hnone c hc), Or.inl hh⟩
  · have htarget := h.target_lt hvis hdone
    obtain ⟨hk₁, hk₂, hk₃⟩ := hvis
    have hh : nextHi s (e + 1) = k - 1 := by
      simp only [nextHi, hmax, elim_some]
      omega
    refine ⟨by omega, by omega, by omega, Or.inr ?_, ?_, Or.inr (by omega)⟩
    · rw [hh, hmax, Int.sub_add_cancel]
      exact ⟨rfl, ⟨hk₁, hk₂, hk₃⟩, hdone⟩
    · intro c hc hcdone
      have := hfirst c hc hcdone
      omega

/-- **Every diagonal of the next round has a neighbour to start from.** -/
theorem Round.neighbours {d : Int} (hd : Ahead s e (nextHi s (e + 1)) d) :
    Neighbours oldToks newToks s.comps s.best e d := by
  have hlow := h.lowFrontier
  have hhigh := h.highFrontier
  have hlop := h.lo_parity
  have hhip := h.hi_parity
  have hle := h.lo_le_hi
  obtain ⟨hd₁, hd₂, hd₃⟩ := hd
  -- the next range is at most one wider on either side
  have hwide : lo - 1 ≤ nextLo s (e + 1) := by
    obtain ⟨_, hl, hlo⟩ | ⟨_, ⟨hv, _⟩, _⟩ := hlow.cases <;> omega
  have hwide' : nextHi s (e + 1) ≤ hi + 1 := by
    obtain ⟨_, hh, hhi⟩ | ⟨_, ⟨_, hv, _⟩, _⟩ := hhigh.cases <;> omega
  refine ⟨?_, ?_, ?_⟩
  · intro p hp
    by_cases hin : lo ≤ d - 1
    · obtain ⟨p', x, y, hp', hon⟩ := h.paths (d - 1) ⟨hin, by omega, by omega⟩
      obtain rfl : p = p' := some.inj (hp.symm.trans hp')
      exact ⟨x, y, hon⟩
    · -- then `d - 1` is out of reach of `e` edits
      obtain ⟨_, hl, hlo⟩ | ⟨_, ⟨hv, _⟩, _⟩ := hlow.cases
      · rw [h.outside (d - 1) (Or.inl (by omega))] at hp
        cases hp
      · omega
  · intro p hp
    by_cases hin : d + 1 ≤ hi
    · obtain ⟨p', x, y, hp', hon⟩ := h.paths (d + 1) ⟨by omega, hin, by omega⟩
      obtain rfl : p = p' := some.inj (hp.symm.trans hp')
      exact ⟨x, y, hon⟩
    · obtain ⟨_, hh, hhi⟩ | ⟨_, ⟨_, hv, _⟩, _⟩ := hhigh.cases
      · rw [h.outside (d + 1) (Or.inr (by omega))] at hp
        cases hp
      · omega
  · by_cases hin : d + 1 ≤ hi
    · have hvis : Visited e lo hi (d + 1) := ⟨by omega, hin, by omega⟩
      obtain ⟨p, x, y, hp, hon⟩ := h.paths (d + 1) hvis
      refine Or.inl ⟨p, x, y, hp, hon, Nat.lt_of_le_of_ne hon.y_le ?_⟩
      intro hy
      have := hlow.above (d + 1) hvis ((hon.newDone_iff hp).mpr hy)
      omega
    · have hvis : Visited e lo hi (d - 1) := ⟨by omega, by omega, by omega⟩
      obtain ⟨p, x, y, hp, hon⟩ := h.paths (d - 1) hvis
      refine Or.inr ⟨p, x, y, hp, hon, Nat.lt_of_le_of_ne hon.x_le ?_⟩
      intro hx
      have := hhigh.below (d - 1) hvis ((hon.oldDone_iff hp).mpr hx)
      omega

end

end

end Frontier

/-- **Inside round `e + 1`**, before diagonal `d`: the round's paths behind it,
the previous round's paths ahead of it. -/
structure Inner (oldToks newToks : List α) (e : Nat) (s₀ : SearchState) (d : Int)
    (s : SearchState) : Prop where
  comps : ∃ more, s.comps = s₀.comps ++ more
  ahead : ∀ c, d - 1 ≤ c → (c - e) % 2 = 0 → s.best c = s₀.best c
  paths : ∀ c, Ahead s₀ e (d - 1) c →
    ∃ p x y, s.best c = some p ∧ OnDiag oldToks newToks s.comps (e + 1) c p x y
  outside : ∀ c : Int, c < -((e + 1 : Nat) : Int) ∨ ((e + 1 : Nat) : Int) < c → s.best c = none
  minDiag : (s.minDiag = s₀.minDiag ∧
      ∀ c, Ahead s₀ e (d - 1) c → ¬ NewDone newToks s.best c) ∨
    ∃ k, s.minDiag = some (k + 1) ∧ Ahead s₀ e (d - 1) k ∧
      NewDone newToks s.best k ∧
      ∀ c, Ahead s₀ e (d - 1) c → NewDone newToks s.best c → c ≤ k
  maxDiag : (s.maxDiag = s₀.maxDiag ∧
      ∀ c, Ahead s₀ e (d - 1) c → ¬ OldDone oldToks s.best c) ∨
    ∃ k, s.maxDiag = some (k - 1) ∧ Ahead s₀ e (d - 1) k ∧
      OldDone oldToks s.best k ∧
      ∀ c, Ahead s₀ e (d - 1) c → OldDone oldToks s.best c → k ≤ c
  loDone : s₀.minDiag = some (nextLo s₀ (e + 1)) → nextLo s₀ (e + 1) < d →
    NewDone newToks s.best (nextLo s₀ (e + 1))
  hiDone : s₀.maxDiag = some (nextHi s₀ (e + 1)) → nextHi s₀ (e + 1) < d →
    OldDone oldToks s.best (nextHi s₀ (e + 1))

section Inner
variable {s s₀ : SearchState} {lo hi : Int}
variable {best : Int → Option PathNode}
variable {best' : Int → Option PathNode} {c : Int}

omit [DecidableEq α] in
theorem Round.inner (h : Round oldToks newToks e lo hi s) :
    Inner oldToks newToks e s (nextLo s (e + 1)) s := by
  have hnot : ∀ c, ¬ Ahead s e (nextLo s (e + 1) - 1) c := by
    rintro c ⟨h₁, h₂, _⟩
    omega
  have hhigh := h.highFrontier
  have hlow := h.lowFrontier
  refine ⟨⟨[], (List.append_nil _).symm⟩, fun _ _ _ => rfl, fun c hc => absurd hc (hnot c), ?_,
    Or.inl ⟨rfl, fun c hc => absurd hc (hnot c)⟩, Or.inl ⟨rfl, fun c hc => absurd hc (hnot c)⟩,
    fun _ hlt => absurd hlt (by omega), ?_⟩
  · intro c hc
    exact h.outside c (by omega)
  · intro hmax hlt
    -- the bounds never cross
    have h₁ := hlow.target
    have h₂ := hhigh.target
    have h₃ := hlow.le
    have h₄ := hhigh.ge
    omega

/-- The best paths after diagonal `d`. -/
def setBest (best : Int → Option PathNode) (d : Int) (path : PathNode) : Int → Option PathNode :=
  Function.update (Function.update best (d - 1) none) d (some path)

theorem setBest_self (best : Int → Option PathNode) (d : Int) (path : PathNode) :
    setBest best d path d = some path := Function.update_self _ _ _

theorem setBest_of_ne {d : Int} (path : PathNode) (hc : c ≠ d) (hc' : c ≠ d - 1) :
    setBest best d path c = best c := by
  rw [setBest, Function.update_of_ne hc, Function.update_of_ne hc']

section
omit [DecidableEq α]

theorem visited_setBest {lo d : Int} (path : PathNode) (hd : (d - (e + 1 : Nat)) % 2 = 0)
    (hc : Visited (e + 1) lo (d + 2 - 1) c) :
    c = d ∨ (Visited (e + 1) lo (d - 1) c ∧ setBest best d path c = best c) := by
  obtain ⟨h₁, h₂, h₃⟩ := hc
  by_cases heq : c = d
  · exact Or.inl heq
  · have hne : c ≠ d - 1 := by omega
    exact Or.inr ⟨⟨h₁, by omega, h₃⟩, setBest_of_ne path heq hne⟩

theorem newDone_congr (h : best' c = best c) :
    NewDone newToks best' c ↔ NewDone newToks best c := by
  rw [NewDone, NewDone, h]

theorem oldDone_congr (h : best' c = best c) :
    OldDone oldToks best' c ↔ OldDone oldToks best c := by
  rw [OldDone, OldDone, h]

end

section
variable (hround : Round oldToks newToks e lo hi s₀) (h : Inner oldToks newToks e s₀ d s)
variable {now : Option Int} {path : PathNode}
include hround h

section
omit [DecidableEq α]

/-- The neighbours of `d` are still those of the previous round. -/
theorem Inner.neighbours (hd : Ahead s₀ e (nextHi s₀ (e + 1)) d) :
    s.best (d - 1) = s₀.best (d - 1) ∧ s.best (d + 1) = s₀.best (d + 1) ∧
      Neighbours oldToks newToks s.comps s.best e d := by
  have hn := hround.neighbours hd
  obtain ⟨_, _, hpar⟩ := hd
  have hleft := h.ahead (d - 1) (by omega) (by omega)
  have hright := h.ahead (d + 1) (by omega) (by omega)
  obtain ⟨more, hcomps⟩ := h.comps
  refine ⟨hleft, hright, ?_, ?_, ?_⟩
  · intro p hp
    obtain ⟨x, y, hon⟩ := hn.remove p (hleft ▸ hp)
    exact ⟨x, y, hcomps ▸ hon.append more⟩
  · intro p hp
    obtain ⟨x, y, hon⟩ := hn.add p (hright ▸ hp)
    exact ⟨x, y, hcomps ▸ hon.append more⟩
  · obtain ⟨p, x, y, hp, hon, hy⟩ | ⟨p, x, y, hp, hon, hx⟩ := hn.extends_
    · exact Or.inl ⟨p, x, y, hright ▸ hp, hcomps ▸ hon.append more, hy⟩
    · exact Or.inr ⟨p, x, y, hleft ▸ hp, hcomps ▸ hon.append more, hx⟩

theorem Inner.minDiag_step (hd : nextLo s₀ (e + 1) ≤ d) (hpar : (d - (e + 1 : Nat)) % 2 = 0)
    {x y : Nat} {comps : List Comp} (hon : OnDiag oldToks newToks comps (e + 1) d path x y)
    (hnow : now = if y = newToks.length then some (s.minDiag.elim (d + 1) (max · (d + 1))) else
      s.minDiag) : (now = s₀.minDiag ∧ ∀ c, Ahead s₀ e (d + 2 - 1) c →
        ¬ NewDone newToks (setBest s.best d path) c) ∨
      ∃ k, now = some (k + 1) ∧ Ahead s₀ e (d + 2 - 1) k ∧
        NewDone newToks (setBest s.best d path) k ∧
        ∀ c, Ahead s₀ e (d + 2 - 1) c →
          NewDone newToks (setBest s.best d path) c → c ≤ k := by
  have hself := hon.newDone_iff (setBest_self s.best d path)
  have hvis : Ahead s₀ e (d + 2 - 1) d := ⟨hd, by omega, hpar⟩
  by_cases hy : y = newToks.length
  · -- the bound moves to `d + 1`: it was at most that
    refine Or.inr ⟨d, ?_, hvis, hself.mpr hy, ?_⟩
    · rw [hnow, if_pos hy]
      obtain ⟨hsame, _⟩ | ⟨k, hk, ⟨_, hkd, _⟩, _⟩ := h.minDiag
      · rw [hsame]
        obtain ⟨hnone, _⟩ | ⟨hsome, _⟩ := hround.lowFrontier.cases
        · rw [hnone]
          rfl
        · rw [hsome, elim_some, some.injEq]
          omega
      · rw [hk, elim_some, some.injEq]
        omega
    · rintro c ⟨_, hc, hcpar⟩ _
      omega
  · rw [hnow, if_neg hy]
    obtain ⟨hsame, hnone⟩ | ⟨k, hk, ⟨hk₁, hk₂, hk₃⟩, hdone, hlast⟩ := h.minDiag
    · refine Or.inl ⟨hsame, ?_⟩
      intro c hc hcdone
      rcases visited_setBest path hpar hc with rfl | ⟨hcvis, hsetc⟩
      · exact hy (hself.mp hcdone)
      · exact hnone c hcvis ((newDone_congr hsetc).mp hcdone)
    · refine Or.inr ⟨k, hk, ⟨hk₁, by omega, hk₃⟩, ?_, ?_⟩
      · exact (newDone_congr (setBest_of_ne path (by omega) (by omega))).mpr hdone
      · intro c hc hcdone
        rcases visited_setBest path hpar hc with rfl | ⟨hcvis, hsetc⟩
        · exact absurd (hself.mp hcdone) hy
        · exact hlast c hcvis ((newDone_congr hsetc).mp hcdone)

theorem Inner.maxDiag_step (hd : Ahead s₀ e (nextHi s₀ (e + 1)) d)
    {x y : Nat} {comps : List Comp} (hon : OnDiag oldToks newToks comps (e + 1) d path x y)
    (hnow : now = if x = oldToks.length then some (s.maxDiag.elim (d - 1) (min · (d - 1))) else
      s.maxDiag) : (now = s₀.maxDiag ∧ ∀ c, Ahead s₀ e (d + 2 - 1) c →
        ¬ OldDone oldToks (setBest s.best d path) c) ∨
      ∃ k, now = some (k - 1) ∧ Ahead s₀ e (d + 2 - 1) k ∧
        OldDone oldToks (setBest s.best d path) k ∧
        ∀ c, Ahead s₀ e (d + 2 - 1) c →
          OldDone oldToks (setBest s.best d path) c → k ≤ c := by
  have hself := hon.oldDone_iff (setBest_self s.best d path)
  obtain ⟨hd₁, hd₂, hpar⟩ := hd
  have hvis : Ahead s₀ e (d + 2 - 1) d := ⟨hd₁, by omega, hpar⟩
  obtain ⟨hsame, hnone⟩ | ⟨k, hk, ⟨hk₁, hk₂, hk₃⟩, hdone, hfirst⟩ := h.maxDiag
  · by_cases hx : x = oldToks.length
    · -- the first diagonal of the round that is done with the old text
      refine Or.inr ⟨d, ?_, hvis, hself.mpr hx, ?_⟩
      · rw [hnow, if_pos hx, hsame]
        obtain ⟨hmax, _⟩ | ⟨hmax, _⟩ := hround.highFrontier.cases
        · rw [hmax]
          rfl
        · rw [hmax, elim_some, some.injEq]
          omega
      · intro c hc hcdone
        rcases visited_setBest path hpar hc with rfl | ⟨hcvis, hsetc⟩
        · exact Int.le_refl _
        · exact absurd ((oldDone_congr hsetc).mp hcdone) (hnone c hcvis)
    · refine Or.inl ⟨by rw [hnow, if_neg hx, hsame], ?_⟩
      intro c hc hcdone
      rcases visited_setBest path hpar hc with rfl | ⟨hcvis, hsetc⟩
      · exact hx (hself.mp hcdone)
      · exact hnone c hcvis ((oldDone_congr hsetc).mp hcdone)
  · refine Or.inr ⟨k, ?_, ⟨hk₁, by omega, hk₃⟩, ?_, ?_⟩
    · rw [hnow, hk]
      split
      · rw [elim_some, some.injEq]
        omega
      · rfl
    · exact (oldDone_congr (setBest_of_ne path (by omega) (by omega))).mpr hdone
    · intro c hc hcdone
      rcases visited_setBest path hpar hc with rfl | ⟨hcvis, hsetc⟩
      · omega
      · exact hfirst c hcvis ((oldDone_congr hsetc).mp hcdone)

end

end

/-- **One diagonal of a round**: a complete chain, or the invariant two
diagonals further. -/
theorem Inner.step (hround : Round oldToks newToks e lo hi s₀) (h : Inner oldToks newToks e s₀ d s)
    (hd : Ahead s₀ e (nextHi s₀ (e + 1)) d) :
    (stepDiag oldToks newToks s d).Complete oldToks newToks ∨
    ∃ s', stepDiag oldToks newToks s d = .running s' ∧ Inner oldToks newToks e s₀ (d + 2) s' := by
  obtain ⟨hleft, hright, hn⟩ := h.neighbours hround hd
  obtain hfin | ⟨more, path, x, y, hon, hstep, hnew, hold⟩ := stepDiag_spec hn
  · exact Or.inl hfin
  refine Or.inr ⟨_, hstep, ?_⟩
  have hlow := hround.lowFrontier
  have hhigh := hround.highFrontier
  have hmin := h.minDiag_step hround hd.1 hd.2.2 hon rfl
  have hmax := h.maxDiag_step hround hd hon rfl
  obtain ⟨hd₁, hd₂, hpar⟩ := hd
  have hlop := hlow.parity
  have hhip := hhigh.parity
  have hlo := hlow.ge
  have hhi := hhigh.le
  refine ⟨?_, ?_, ?_, ?_, hmin, hmax, ?_, ?_⟩
  · obtain ⟨before, hbefore⟩ := h.comps
    exact ⟨before ++ more, by rw [hbefore, List.append_assoc]⟩
  · intro c hc hcpar
    exact (setBest_of_ne path (by omega) (by omega)).trans (h.ahead c (by omega) hcpar)
  · intro c hc
    rcases visited_setBest path hpar hc with rfl | ⟨hcvis, hsetc⟩
    · exact ⟨path, x, y, setBest_self s.best c path, hon⟩
    · obtain ⟨p, x', y', hp, hon'⟩ := h.paths c hcvis
      exact ⟨p, x', y', hsetc.trans hp, hon'.append more⟩
  · intro c hc
    by_cases heq : c = d - 1
    · subst heq
      exact (Function.update_of_ne (by omega) _ _).trans (Function.update_self _ _ _)
    · exact (setBest_of_ne path (by omega) heq).trans (h.outside c hc)
  · intro hsome hlt
    by_cases heq : nextLo s₀ (e + 1) = d
    · obtain ⟨hnone, _⟩ | ⟨_, _, hdone⟩ := hlow.cases
      · rw [hnone] at hsome
        cases hsome
      · rw [heq] at hdone ⊢
        exact (hon.newDone_iff (setBest_self s.best d path)).mpr
          (hnew ((newDone_congr hleft).mpr hdone))
    · exact (newDone_congr (setBest_of_ne path heq (by omega))).mpr (h.loDone hsome (by omega))
  · intro hsome hlt
    have heq : nextHi s₀ (e + 1) = d := by omega
    obtain ⟨hnone, _⟩ | ⟨_, _, hdone⟩ := hhigh.cases
    · rw [hnone] at hsome
      cases hsome
    · rw [heq] at hdone ⊢
      exact (hon.oldDone_iff (setBest_self s.best d path)).mpr
        (hold ((oldDone_congr hright).mpr hdone))

/-- The inner loop, from diagonal `d` to the upper bound. -/
theorem Inner.loop (hround : Round oldToks newToks e lo hi s₀) (count : Nat)
    (h : Inner oldToks newToks e s₀ d s) (hd : nextLo s₀ (e + 1) ≤ d)
    (hpar : (d - (e + 1 : Nat)) % 2 = 0) (hcount : d + 2 * count = nextHi s₀ (e + 1) + 2) :
    (innerLoop oldToks newToks count s d).Complete oldToks newToks ∨
    ∃ s', innerLoop oldToks newToks count s d = .running s' ∧
      Inner oldToks newToks e s₀ (nextHi s₀ (e + 1) + 2) s' := by
  induction count generalizing d s with
  | zero =>
    obtain rfl : d = nextHi s₀ (e + 1) + 2 := by omega
    exact Or.inr ⟨s, rfl, h⟩
  | succ count ih =>
    obtain ⟨last, comps, hstep, hwalk⟩ | ⟨s', hstep, hinner⟩ :=
      h.step hround ⟨hd, by omega, hpar⟩
    · exact Or.inl ⟨last, comps, by rw [innerLoop, hstep], hwalk⟩
    · rw [innerLoop, hstep]
      exact ih hinner (by omega) (by omega) (by omega)

omit [DecidableEq α] in
/-- Behind the upper bound the inner invariant is the invariant of the round. -/
theorem Inner.round (hround : Round oldToks newToks e lo hi s₀)
    (h : Inner oldToks newToks e s₀ (nextHi s₀ (e + 1) + 2) s) :
    Round oldToks newToks (e + 1) (nextLo s₀ (e + 1)) (nextHi s₀ (e + 1)) s := by
  have hlow := hround.lowFrontier
  have hhigh := hround.highFrontier
  have hlop := hlow.parity
  have hhip := hhigh.parity
  have hle : nextLo s₀ (e + 1) ≤ nextHi s₀ (e + 1) := by
    have h₁ := hlow.target
    have h₂ := hhigh.target
    have h₃ := hlow.le
    have h₄ := hhigh.ge
    omega
  have hvis : ∀ c, Ahead s₀ e (nextHi s₀ (e + 1)) c ↔
      Ahead s₀ e (nextHi s₀ (e + 1) + 2 - 1) c := by
    intro c
    constructor
    · rintro ⟨h₁, h₂, h₃⟩
      exact ⟨h₁, by omega, h₃⟩
    · rintro ⟨h₁, h₂, h₃⟩
      exact ⟨h₁, by omega, h₃⟩
  refine ⟨hlow.ge, hhigh.le, hle, hlop, hhip, fun c hc => h.paths c ((hvis c).mp hc),
    h.outside, ?_, ?_, hlow.target, hhigh.target⟩
  · obtain ⟨hsame, hnone⟩ | ⟨k, hk, hkvis, hdone, hlast⟩ := h.minDiag
    · obtain ⟨hmin, hl, _⟩ | ⟨hmin, _⟩ := hlow.cases
      · exact Or.inl ⟨hsame.trans hmin, hl, fun c hc => hnone c ((hvis c).mp hc)⟩
      · exact absurd (h.loDone hmin (by omega))
          (hnone _ ((hvis _).mp ⟨Int.le_refl _, hle, hlop⟩))
    · exact Or.inr ⟨k, hk, (hvis k).mpr hkvis, hdone, fun c hc => hlast c ((hvis c).mp hc)⟩
  · obtain ⟨hsame, hnone⟩ | ⟨k, hk, hkvis, hdone, hfirst⟩ := h.maxDiag
    · obtain ⟨hmax, hh, _⟩ | ⟨hmax, _⟩ := hhigh.cases
      · exact Or.inl ⟨hsame.trans hmax, hh, fun c hc => hnone c ((hvis c).mp hc)⟩
      · exact absurd (h.hiDone hmax (by omega))
          (hnone _ ((hvis _).mp ⟨hle, Int.le_refl _, hhip⟩))
    · exact Or.inr ⟨k, hk, (hvis k).mpr hkvis, hdone, fun c hc => hfirst c ((hvis c).mp hc)⟩

/-- **One round** leads to the next one, or to a complete chain. -/
theorem Round.next (h : Round oldToks newToks e lo hi s) :
    (round oldToks newToks s (e + 1)).Complete oldToks newToks ∨
    ∃ s', round oldToks newToks s (e + 1) = .running s' ∧
      Round oldToks newToks (e + 1) (nextLo s (e + 1)) (nextHi s (e + 1)) s' := by
  have hlow := h.lowFrontier
  have hhigh := h.highFrontier
  have hlop := hlow.parity
  have hhip := hhigh.parity
  have hround : round oldToks newToks s (e + 1) = innerLoop oldToks newToks
      ((nextHi s (e + 1) - nextLo s (e + 1)) / 2 + 1).toNat s (nextLo s (e + 1)) := rfl
  rw [hround]
  obtain hfin | ⟨s', hloop, hinner⟩ := h.inner.loop h
    ((nextHi s (e + 1) - nextLo s (e + 1)) / 2 + 1).toNat (Int.le_refl _) hlop (by
      have h₁ := hlow.target
      have h₂ := hhigh.target
      have h₃ := hlow.le
      have h₄ := hhigh.ge
      omega)
  · exact Or.inl hfin
  · exact Or.inr ⟨s', hloop, hinner.round h⟩

end Inner

end Search
end NativeLineDiff
end GajaeCode
