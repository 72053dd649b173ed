import Mathlib.Order.WellFounded

/-! # Runs that end

The run of a partial step from a state: it ends where the step is not defined.  A run ends
exactly when, from some point on, each of its steps decreases a measure in a well-founded
order, whatever the steps before that point have done (`ends_iff`).  So a run that never
ends takes a step that does not decrease the measure again and again.
-/
namespace GajaeCode.EndingRuns
open Option

variable {σ : Type*} (step : σ → Option σ)

/-- The state after so many steps, if the run has not ended before. -/
def after (s : σ) : Nat → Option σ
  | 0 => some s
  | n + 1 => (after s n).bind step

def Ends (s : σ) : Prop := ∃ n, after step s n = none

variable {step}

theorem after_succ (s : σ) (n : Nat) : after step s (n + 1) = (step s).bind (after step · n) := by
  induction n with
  | zero =>
    show (some s).bind step = (step s).bind some
    rw [bind_some, bind_fun_some]
  | succ n ih =>
    show (after step s (n + 1)).bind step = (step s).bind fun t => (after step t n).bind step
    rw [ih, bind_assoc]

theorem after_add (s : σ) (n k : Nat) :
    after step s (n + k) = (after step s n).bind (after step · k) := by
  induction k with
  | zero => exact (bind_fun_some _).symm
  | succ k ih =>
    show (after step s (n + k)).bind step =
      (after step s n).bind fun t => (after step t k).bind step
    rw [ih, bind_assoc]

/-- Runs of a step that is simulated step by step correspond state by state. -/
theorem after_map {τ : Type*} {concrete : τ → Option τ} {abstraction : σ → τ}
    (hstep : ∀ s, concrete (abstraction s) = (step s).map abstraction) (s : σ) (n : Nat) :
    after concrete (abstraction s) n = (after step s n).map abstraction := by
  induction n with
  | zero => rfl
  | succ n ih =>
    show (after concrete (abstraction s) n).bind concrete =
      ((after step s n).bind step).map abstraction
    rw [ih]
    cases after step s n with
    | none => rfl
    | some t => exact hstep t

section
variable {μ : Type*} {r : μ → μ → Prop} (hr : WellFounded r) (measure : σ → μ)
include hr measure

theorem ends_of_decreasing {s : σ}
    (hdecreases : ∀ n t u, after step s n = some t → step t = some u → r (measure u) (measure t)) :
    Ends step s := by
  induction hm : measure s using hr.induction generalizing s with
  | _ m ih =>
    cases hs : step s with
    | none => exact ⟨1, hs⟩
    | some u =>
      have hfirst : r (measure u) m := hm ▸ hdecreases 0 s u rfl hs
      have hrest : ∀ n t v, after step u n = some t → step t = some v →
          r (measure v) (measure t) := by
        intro n t v ht
        refine hdecreases (n + 1) t v ?_
        rw [after_succ, hs]
        exact ht
      obtain ⟨n, hn⟩ := ih (measure u) hfirst hrest rfl
      refine ⟨n + 1, ?_⟩
      rw [after_succ, hs]
      exact hn

theorem ends_iff {decreasing : σ → Prop}
    (hdecreasing : ∀ t u, step t = some u → decreasing t → r (measure u) (measure t)) (s : σ) :
    Ends step s ↔
      ∃ n, ∀ k t, n ≤ k → after step s k = some t → (step t).isSome = true → decreasing t := by
  constructor
  · rintro ⟨n, hn⟩
    refine ⟨n, fun k t hk ht => ?_⟩
    obtain ⟨j, rfl⟩ := Nat.exists_eq_add_of_le hk
    rw [after_add, hn] at ht
    cases ht
  · rintro ⟨n, hlate⟩
    cases hn : after step s n with
    | none => exact ⟨n, hn⟩
    | some t =>
      have hends : Ends step t := by
        refine ends_of_decreasing hr measure fun k u v hu hv => hdecreasing u v hv ?_
        refine hlate (n + k) u (Nat.le_add_right ..) ?_ (hv ▸ rfl)
        rw [after_add, hn]
        exact hu
      obtain ⟨k, hk⟩ := hends
      refine ⟨n + k, ?_⟩
      rw [after_add, hn]
      exact hk

end

end GajaeCode.EndingRuns
