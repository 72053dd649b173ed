import GajaeCode.JsString

/-! # The fallback chain controller

A chain lists model selectors in order of preference; the controller keeps the
position in it and charges every upstream request, to the current entry and to the
chain as a whole.  The chain-wide charge is meant to stay within `maxAttempts` for
each entry.  A request is charged either when it starts or, if nobody announced its
start, when it fails; only the first of the two charges looks at the limit before it
is made.
-/
namespace GajaeCode

/-- Why an attempt failed. -/
inductive FallbackTriggerClass where
  | rateLimit | quota | auth | server | unknown | other
  deriving DecidableEq

/-- A failed attempt, as the controller remembers it. -/
structure FallbackFailure where
  selector : JsString
  triggerClass : FallbackTriggerClass
  reason : JsString
  deriving DecidableEq

/-- An entry that auth-aware resolution passed over. -/
structure FallbackSkip where
  selector : JsString
  reason : JsString
  deriving DecidableEq

/-- What to do after a failed attempt. -/
inductive FallbackFailureResult where
  | retry | advance | exhausted
  deriving DecidableEq

/-- The controller: the chain's selectors, the limit, and the state of the turn. -/
structure FallbackChainController where
  entries : List JsString
  maxAttempts : Nat
  activeIndex : Nat
  attemptsUsed : Nat
  tried : List FallbackFailure
  attemptStarted : Bool
  totalAttemptsUsed : Nat
  skips : List FallbackSkip
  exhaustedForTurn : Bool
  deriving DecidableEq

namespace FallbackChainController

def create (entries : List JsString) (maxAttempts : Int) :
    Except JsString FallbackChainController :=
  if maxAttempts < 1 then
    .error (js "fallback.maxAttempts must be a positive integer")
  else
    .ok {
      entries
      maxAttempts := maxAttempts.toNat
      activeIndex := 0
      attemptsUsed := 0
      tried := []
      attemptStarted := false
      totalAttemptsUsed := 0
      skips := []
      exhaustedForTurn := entries.length == 0 }

variable (c : FallbackChainController)

/-- `this.maxAttempts * this.chain.entries.length`. -/
def budget : Nat := c.maxAttempts * c.entries.length

def isExhausted : Bool := c.exhaustedForTurn

/-- The selector at the current position, if there is one. -/
def currentSelector : Option JsString := c.entries[c.activeIndex]?

/-- The current selector where the source tests `if (selector)`: the empty string is
as good as none. -/
def truthySelector : Option JsString := c.currentSelector.filter (fun s => !s.isEmpty)

/-- Give up on the chain: past the last entry, exhausted. -/
def exhaust : FallbackChainController :=
  { c with activeIndex := c.entries.length, exhaustedForTurn := true }

def advance : Bool × FallbackChainController :=
  if c.exhaustedForTurn then (false, c)
  else
    let next := { c with
      activeIndex := c.activeIndex + 1, attemptsUsed := 0, attemptStarted := false }
    if c.entries.length ≤ next.activeIndex then
      (false, { next with exhaustedForTurn := true })
    else (true, next)

def onResolutionSkip (reason : JsString) : Bool × FallbackChainController :=
  match c.truthySelector with
  | some selector => advance { c with skips := c.skips ++ [⟨selector, reason⟩] }
  | none => c.advance

/-- Charge an upstream request at its transport boundary. -/
def onAttemptStarted : FallbackChainController :=
  if c.truthySelector = none ∨ c.exhaustedForTurn then c
  else if c.budget ≤ c.totalAttemptsUsed then c.exhaust
  else { c with
    attemptsUsed := c.attemptsUsed + 1
    totalAttemptsUsed := c.totalAttemptsUsed + 1
    attemptStarted := true }

/-- Take the started request out of the accounts.  The source's `Math.max(0, n - 1)`
is the subtraction of `Nat`. -/
def discardStartedAttempt : FallbackChainController :=
  if c.attemptStarted then
    { c with
      attemptsUsed := c.attemptsUsed - 1
      totalAttemptsUsed := c.totalAttemptsUsed - 1
      attemptStarted := false }
  else c

/-- A new request with a fresh budget; the position in the chain stays. -/
def resetAttemptBudget : FallbackChainController :=
  { c with attemptsUsed := 0, totalAttemptsUsed := 0, tried := [], attemptStarted := false }

/-- Take over the position that auth-aware resolution found. -/
def seedResolution (activeIndex : Int) (skips : List FallbackSkip) : FallbackChainController :=
  let index := (min (max 0 activeIndex) c.entries.length).toNat
  { c with
    activeIndex := index
    skips := skips
    attemptsUsed := 0
    totalAttemptsUsed := 0
    attemptStarted := false
    exhaustedForTurn := decide (c.entries.length ≤ index) }

/-- The charge of a failed attempt whose start nobody announced. -/
def chargeFailure : FallbackChainController :=
  if c.attemptStarted then c
  else { c with
    attemptsUsed := c.attemptsUsed + 1, totalAttemptsUsed := c.totalAttemptsUsed + 1 }

/-- Charge the failed attempt, if its start was not charged, and remember it. -/
def recordFailure (failure : FallbackFailure) : FallbackChainController :=
  { c.chargeFailure with attemptStarted := false, tried := c.tried ++ [failure] }

def onAttemptFailure (triggerClass : FallbackTriggerClass) (reason : JsString) :
    FallbackFailureResult × FallbackChainController :=
  match c.truthySelector with
  | none => (.exhausted, c)
  | some selector =>
    if c.exhaustedForTurn then (.exhausted, c)
    else
      let charged := c.recordFailure ⟨selector, triggerClass, reason⟩
      if charged.budget ≤ charged.totalAttemptsUsed then (.exhausted, charged.exhaust)
      else if charged.attemptsUsed < charged.maxAttempts then (.retry, charged)
      else
        let (moved, next) := charged.advance
        (if moved then .advance else .exhausted, next)

/-- Go back to the entry just left, when a rotated credential permits a retry. -/
def restorePreviousEntryForRetry : Bool × FallbackChainController :=
  if c.activeIndex = 0 ∨ c.exhaustedForTurn ∨ c.budget ≤ c.totalAttemptsUsed then (false, c)
  else
    (true, { c with
      activeIndex := c.activeIndex - 1
      attemptsUsed := 0
      exhaustedForTurn := false
      attemptStarted := false })

def resetSticky : FallbackChainController :=
  { c with
    activeIndex := 0
    attemptsUsed := 0
    totalAttemptsUsed := 0
    tried := []
    skips := []
    exhaustedForTurn := c.entries.length == 0
    attemptStarted := false }

def resetForNewTurn : FallbackChainController := c.resetSticky

/-- The public operations that change the controller. -/
inductive Op where
  | onResolutionSkip (reason : JsString)
  | onAttemptStarted
  | discardStartedAttempt
  | resetAttemptBudget
  | seedResolution (activeIndex : Int) (skips : List FallbackSkip)
  | onAttemptFailure (triggerClass : FallbackTriggerClass) (reason : JsString)
  | advance
  | restorePreviousEntryForRetry
  | resetForNewTurn
  | resetSticky

/-- One call, with its result dropped. -/
def step : Op → FallbackChainController
  | .onResolutionSkip reason => (c.onResolutionSkip reason).2
  | .onAttemptStarted => c.onAttemptStarted
  | .discardStartedAttempt => c.discardStartedAttempt
  | .resetAttemptBudget => c.resetAttemptBudget
  | .seedResolution activeIndex skips => c.seedResolution activeIndex skips
  | .onAttemptFailure triggerClass reason => (c.onAttemptFailure triggerClass reason).2
  | .advance => c.advance.2
  | .restorePreviousEntryForRetry => c.restorePreviousEntryForRetry.2
  | .resetForNewTurn => c.resetForNewTurn
  | .resetSticky => c.resetSticky

/-- The state after a sequence of calls. -/
def run (ops : List Op) : FallbackChainController := ops.foldl step c

/-- The operations that may bring an exhausted controller back. -/
def Op.Revives : Op → Prop
  | .seedResolution _ _ | .resetForNewTurn | .resetSticky => True
  | _ => False

/-- A failure is reported for a request that was never announced, to a chain that
has no budget left and was not told so. -/
def Overcharges : Op → Prop
  | .onAttemptFailure _ _ =>
      c.truthySelector ≠ none ∧ c.exhaustedForTurn = false ∧ c.attemptStarted = false ∧
        c.budget ≤ c.totalAttemptsUsed
  | _ => False

/-- No call of the run overcharges the state it finds. -/
def ChargesWithinBudget : List Op → FallbackChainController → Prop
  | [], _ => True
  | op :: ops, c => ¬ c.Overcharges op ∧ ChargesWithinBudget ops (c.step op)

section Frame
variable (triggerClass : FallbackTriggerClass) (reason : JsString)

variable {c}

/-- The chain and the limit are fixed for the controller's life. -/
theorem advance_frame : c.advance.2.entries = c.entries ∧ c.advance.2.maxAttempts = c.maxAttempts ∧
    c.advance.2.totalAttemptsUsed = c.totalAttemptsUsed := by
  simp only [advance]
  split_ifs <;> simp

theorem onResolutionSkip_frame : (c.onResolutionSkip reason).2.entries = c.entries ∧
    (c.onResolutionSkip reason).2.maxAttempts = c.maxAttempts ∧
    (c.onResolutionSkip reason).2.totalAttemptsUsed = c.totalAttemptsUsed := by
  unfold onResolutionSkip
  split
  · exact advance_frame
  · exact advance_frame

theorem recordFailure_frame (failure : FallbackFailure) :
    (c.recordFailure failure).entries = c.entries ∧
    (c.recordFailure failure).maxAttempts = c.maxAttempts ∧
    (c.recordFailure failure).activeIndex = c.activeIndex ∧
    (c.recordFailure failure).exhaustedForTurn = c.exhaustedForTurn := by
  simp only [recordFailure, chargeFailure]
  split_ifs <;> simp

/-- A failure is not looked at when there is nothing to fail: no selector, or the
chain is exhausted. -/
theorem onAttemptFailure_ignored (h : c.truthySelector = none ∨ c.exhaustedForTurn = true) :
    c.onAttemptFailure triggerClass reason = (.exhausted, c) := by
  unfold onAttemptFailure
  rcases h with h | h
  · rw [h]
  · split
    · rfl
    · rw [if_pos h]

/-- A failure that is looked at ends in one of three ways, each from the charged
state. -/
theorem onAttemptFailure_cases (hsel : c.truthySelector ≠ none) (hex : c.exhaustedForTurn = false) :
    ∃ failure : FallbackFailure,
      (c.onAttemptFailure triggerClass reason).2 = (c.recordFailure failure).exhaust ∨
      (c.onAttemptFailure triggerClass reason).2 = c.recordFailure failure ∨
      (c.onAttemptFailure triggerClass reason).2 = (c.recordFailure failure).advance.2 := by
  obtain ⟨selector, hselector⟩ := Option.ne_none_iff_exists'.mp hsel
  refine ⟨⟨selector, triggerClass, reason⟩, ?_⟩
  simp only [onAttemptFailure, hselector, hex, Bool.false_eq_true, if_false]
  by_cases hfull : (c.recordFailure ⟨selector, triggerClass, reason⟩).budget ≤
      (c.recordFailure ⟨selector, triggerClass, reason⟩).totalAttemptsUsed
  · rw [if_pos hfull]
    exact .inl rfl
  · rw [if_neg hfull]
    split_ifs
    · exact .inr (.inl rfl)
    · exact .inr (.inr rfl)
    · exact .inr (.inr rfl)

theorem onAttemptFailure_frame : (c.onAttemptFailure triggerClass reason).2.entries = c.entries ∧
      (c.onAttemptFailure triggerClass reason).2.maxAttempts = c.maxAttempts := by
  by_cases h : c.truthySelector = none ∨ c.exhaustedForTurn = true
  · rw [onAttemptFailure_ignored triggerClass reason h]
    exact ⟨rfl, rfl⟩
  · rw [not_or, Bool.not_eq_true] at h
    obtain ⟨failure, hend⟩ := onAttemptFailure_cases triggerClass reason h.1 h.2
    obtain ⟨hentries, hmax, -, -⟩ := recordFailure_frame (c := c) failure
    rcases hend with hend | hend | hend <;> rw [hend]
    · exact ⟨hentries, hmax⟩
    · exact ⟨hentries, hmax⟩
    · exact ⟨advance_frame.1.trans hentries, advance_frame.2.1.trans hmax⟩

theorem step_frame (op : Op) :
    (c.step op).entries = c.entries ∧ (c.step op).maxAttempts = c.maxAttempts := by
  cases op with
  | onResolutionSkip reason =>
    exact ⟨(onResolutionSkip_frame reason).1, (onResolutionSkip_frame reason).2.1⟩
  | onAttemptFailure triggerClass reason => exact onAttemptFailure_frame triggerClass reason
  | advance => exact ⟨advance_frame.1, advance_frame.2.1⟩
  | onAttemptStarted =>
    simp only [step, onAttemptStarted]
    split_ifs <;> exact ⟨rfl, rfl⟩
  | discardStartedAttempt =>
    simp only [step, discardStartedAttempt]
    split_ifs <;> exact ⟨rfl, rfl⟩
  | restorePreviousEntryForRetry =>
    simp only [step, restorePreviousEntryForRetry]
    split_ifs <;> exact ⟨rfl, rfl⟩
  | resetAttemptBudget | seedResolution | resetForNewTurn | resetSticky => exact ⟨rfl, rfl⟩

@[simp] theorem step_budget (op : Op) : (c.step op).budget = c.budget := by
  rw [budget, (step_frame op).1, (step_frame op).2, budget]

end Frame

/-! ## Exhausted means past the last entry -/

/-- The flag agrees with the position. -/
def Positioned : Prop := c.exhaustedForTurn = true ↔ c.entries.length ≤ c.activeIndex

section Positioned

variable {c}

theorem positioned_exhaust : c.exhaust.Positioned := by
  simp [Positioned, exhaust]

theorem positioned_advance (h : c.Positioned) : c.advance.2.Positioned := by
  simp only [advance]
  split_ifs with hex hlast
  · exact h
  · simpa [Positioned] using hlast
  · simpa [Positioned, hex] using hlast

theorem positioned_onAttemptFailure (triggerClass : FallbackTriggerClass) (reason : JsString)
    (h : c.Positioned) : (c.onAttemptFailure triggerClass reason).2.Positioned := by
  by_cases hno : c.truthySelector = none ∨ c.exhaustedForTurn = true
  · rw [onAttemptFailure_ignored triggerClass reason hno]
    exact h
  · rw [not_or, Bool.not_eq_true] at hno
    obtain ⟨failure, hend⟩ := onAttemptFailure_cases triggerClass reason hno.1 hno.2
    obtain ⟨hentries, -, hindex, hex⟩ := recordFailure_frame (c := c) failure
    have hcharged : (c.recordFailure failure).Positioned := by
      rw [Positioned, hentries, hindex, hex]
      exact h
    rcases hend with hend | hend | hend <;> rw [hend]
    · exact positioned_exhaust
    · exact hcharged
    · exact positioned_advance hcharged

theorem positioned_resetSticky : c.resetSticky.Positioned := by
  simp [Positioned, resetSticky]

/-- Every operation keeps the flag in agreement with the position. -/
theorem positioned_step (op : Op) (h : c.Positioned) : (c.step op).Positioned := by
  cases op with
  | onResolutionSkip reason =>
    simp only [step, onResolutionSkip]
    split
    · exact positioned_advance h
    · exact positioned_advance h
  | onAttemptFailure triggerClass reason => exact positioned_onAttemptFailure _ _ h
  | advance => exact positioned_advance h
  | onAttemptStarted =>
    simp only [step, onAttemptStarted]
    split_ifs
    · exact h
    · exact positioned_exhaust
    · exact h
  | discardStartedAttempt =>
    simp only [step, discardStartedAttempt]
    split_ifs <;> exact h
  | restorePreviousEntryForRetry =>
    simp only [step, restorePreviousEntryForRetry]
    split_ifs with hno
    · exact h
    · -- not exhausted, so the position is inside the chain and so is the one before it
      simp only [not_or] at hno
      have hin : ¬ c.entries.length ≤ c.activeIndex := fun hle => hno.2.1 (h.mpr hle)
      simp only [Positioned, Bool.false_eq_true, false_iff]
      omega
  | resetAttemptBudget => exact h
  | seedResolution activeIndex skips => simp [step, Positioned, seedResolution]
  | resetForNewTurn | resetSticky => exact positioned_resetSticky

theorem positioned_run (ops : List Op) (h : c.Positioned) : (c.run ops).Positioned := by
  induction ops generalizing c with
  | nil => exact h
  | cons op ops ih => exact ih (positioned_step op h)

end Positioned

section Exhausted

variable {c}

theorem advance_exhausted (h : c.exhaustedForTurn = true) :
    c.advance.2.exhaustedForTurn = true := by
  rw [advance, if_pos h]
  exact h

/-- Of the operations that do not revive it, none brings an exhausted controller back. -/
theorem exhausted_step {op : Op} (hop : ¬ op.Revives) (h : c.exhaustedForTurn = true) :
    (c.step op).exhaustedForTurn = true := by
  cases op with
  | onResolutionSkip reason =>
    simp only [step, onResolutionSkip]
    split
    · exact advance_exhausted h
    · exact advance_exhausted h
  | onAttemptFailure triggerClass reason =>
    rw [step, onAttemptFailure_ignored _ _ (.inr h)]
    exact h
  | advance => exact advance_exhausted h
  | onAttemptStarted =>
    rw [step, onAttemptStarted, if_pos (.inr h)]
    exact h
  | discardStartedAttempt =>
    simp only [step, discardStartedAttempt]
    split_ifs <;> exact h
  | restorePreviousEntryForRetry =>
    rw [step, restorePreviousEntryForRetry, if_pos (.inr (.inl h))]
    exact h
  | resetAttemptBudget => exact h
  | seedResolution | resetForNewTurn | resetSticky => exact absurd trivial hop

theorem exhausted_run {ops : List Op} (hops : ∀ op ∈ ops, ¬ op.Revives)
    (h : c.exhaustedForTurn = true) : (c.run ops).exhaustedForTurn = true := by
  induction ops generalizing c with
  | nil => exact h
  | cons op ops ih =>
    exact ih (fun o ho => hops o (List.mem_cons_of_mem _ ho))
      (exhausted_step (hops op List.mem_cons_self) h)

end Exhausted

/-! ## The budget -/

/-- The chain-wide charge is within the limit. -/
def WithinBudget : Prop := c.totalAttemptsUsed ≤ c.budget

section Budget

variable {c}

theorem recordFailure_total (failure : FallbackFailure) :
    (c.recordFailure failure).totalAttemptsUsed =
      if c.attemptStarted then c.totalAttemptsUsed else c.totalAttemptsUsed + 1 := by
  simp only [recordFailure, chargeFailure]
  split_ifs <;> rfl

/-- A failure that is looked at leaves exactly the charged total. -/
theorem onAttemptFailure_total (triggerClass : FallbackTriggerClass) (reason : JsString)
    (hsel : c.truthySelector ≠ none) (hex : c.exhaustedForTurn = false) :
    (c.onAttemptFailure triggerClass reason).2.totalAttemptsUsed =
      if c.attemptStarted then c.totalAttemptsUsed else c.totalAttemptsUsed + 1 := by
  obtain ⟨failure, hend⟩ := onAttemptFailure_cases triggerClass reason hsel hex
  rw [← recordFailure_total failure]
  rcases hend with hend | hend | hend <;> rw [hend]
  · rfl
  · exact advance_frame.2.2

theorem withinBudget_onAttemptFailure (triggerClass : FallbackTriggerClass) (reason : JsString)
    (h : c.WithinBudget) : (c.step (.onAttemptFailure triggerClass reason)).WithinBudget ↔
      ¬ c.Overcharges (.onAttemptFailure triggerClass reason) := by
  rw [WithinBudget, step_budget]
  rw [WithinBudget] at h
  by_cases hno : c.truthySelector = none ∨ c.exhaustedForTurn = true
  · rw [step, onAttemptFailure_ignored _ _ hno]
    refine iff_of_true h ?_
    rintro ⟨hsel, hex, -⟩
    rcases hno with hno | hno
    · exact hsel hno
    · rw [hex] at hno
      exact absurd hno (by decide)
  · rw [not_or, Bool.not_eq_true] at hno
    rw [step, onAttemptFailure_total _ _ hno.1 hno.2]
    simp only [Overcharges, hno.2]
    by_cases hstarted : c.attemptStarted = true
    · simp [hstarted, h]
    · rw [if_neg hstarted, Bool.not_eq_true] at *
      simp only [hstarted, true_and]
      constructor
      · intro hle hover
        omega
      · intro hover
        have : ¬ c.budget ≤ c.totalAttemptsUsed := fun hle => hover ⟨hno.1, hle⟩
        omega

/-- **One step.**  From a state within budget a call leads out of it exactly when it
overcharges. -/
theorem withinBudget_step (op : Op) (h : c.WithinBudget) :
    (c.step op).WithinBudget ↔ ¬ c.Overcharges op := by
  cases op with
  | onAttemptFailure triggerClass reason =>
    exact withinBudget_onAttemptFailure triggerClass reason h
  | onAttemptStarted =>
    refine iff_of_true ?_ id
    simp only [step, onAttemptStarted]
    split_ifs with hno hfull
    · exact h
    · exact h
    · exact Nat.lt_of_not_le hfull
  | onResolutionSkip reason =>
    refine iff_of_true ?_ id
    rw [WithinBudget, step_budget, step, (onResolutionSkip_frame reason).2.2]
    exact h
  | advance =>
    refine iff_of_true ?_ id
    rw [WithinBudget, step_budget, step, advance_frame.2.2]
    exact h
  | discardStartedAttempt =>
    refine iff_of_true ?_ id
    simp only [step, discardStartedAttempt]
    split_ifs
    · exact le_trans (Nat.sub_le _ _) h
    · exact h
  | restorePreviousEntryForRetry =>
    refine iff_of_true ?_ id
    simp only [step, restorePreviousEntryForRetry]
    split_ifs <;> exact h
  | resetAttemptBudget | seedResolution | resetForNewTurn | resetSticky =>
    exact iff_of_true (Nat.zero_le _) id

/-- Along a run that starts within budget, every state is within budget exactly when no
call overcharges. -/
theorem withinBudget_run_iff (ops : List Op) (h : c.WithinBudget) :
    (∀ pre, pre <+: ops → (c.run pre).WithinBudget) ↔ ChargesWithinBudget ops c := by
  induction ops generalizing c with
  | nil =>
    refine iff_of_true (fun pre hpre => ?_) trivial
    rw [List.prefix_nil.mp hpre]
    exact h
  | cons op ops ih =>
    rw [ChargesWithinBudget, ← withinBudget_step op h]
    constructor
    · intro hall
      have hfirst : (c.step op).WithinBudget :=
        hall [op] (List.prefix_cons_inj op |>.mpr List.nil_prefix)
      refine ⟨hfirst, (ih hfirst).mp (fun pre hpre => ?_)⟩
      exact hall (op :: pre) ((List.prefix_cons_inj op).mpr hpre)
    · rintro ⟨hfirst, hrest⟩ pre hpre
      cases pre with
      | nil => exact h
      | cons o pre =>
        obtain ⟨rfl, hrestPre⟩ := List.cons_prefix_cons.mp hpre
        exact (ih hfirst).mpr hrest pre hrestPre

end Budget

/-- What the controller promises of a run: in every state it passes through, the charge
is within the budget and the flag says that the position is past the last entry; and
from a state in which it is exhausted it stays so until it is revived. -/
structure StaysWithinBudget (ops : List Op) : Prop where
  budget : ∀ pre, pre <+: ops →
    (c.run pre).totalAttemptsUsed ≤ c.maxAttempts * c.entries.length
  exhausted_iff : ∀ pre, pre <+: ops →
    ((c.run pre).isExhausted = true ↔ c.entries.length ≤ (c.run pre).activeIndex)
  stays_exhausted : ∀ pre mid, pre ++ mid <+: ops → (c.run pre).isExhausted = true →
    (∀ op ∈ mid, ¬ op.Revives) → (c.run (pre ++ mid)).isExhausted = true

theorem run_frame (ops : List Op) :
    (c.run ops).entries = c.entries ∧ (c.run ops).maxAttempts = c.maxAttempts := by
  induction ops generalizing c with
  | nil => exact ⟨rfl, rfl⟩
  | cons op ops ih =>
    obtain ⟨hentries, hmax⟩ := ih (c.step op)
    exact ⟨hentries.trans (step_frame op).1, hmax.trans (step_frame op).2⟩

theorem run_append (pre mid : List Op) : c.run (pre ++ mid) = (c.run pre).run mid :=
  List.foldl_append

theorem create_ok {entries : List JsString} {maxAttempts : Int} {c : FallbackChainController}
    (h : create entries maxAttempts = .ok c) :
    c.entries = entries ∧ c.Positioned ∧ c.WithinBudget := by
  unfold create at h
  split_ifs at h
  obtain rfl := Except.ok.inj h
  exact ⟨rfl, by simp [Positioned], Nat.zero_le _⟩

/-- **The budget holds exactly while no failure overcharges.**  For every chain, every
accepted `maxAttempts` and every sequence of public calls: the controller keeps its
promises in every state of the run if and only if no `onAttemptFailure` of the run
meets a chain that is not exhausted, has no announced attempt and has spent its
budget. -/
theorem staysWithinBudget_iff {entries : List JsString} {maxAttempts : Int}
    {c : FallbackChainController} (hc : create entries maxAttempts = .ok c) (ops : List Op) :
    c.StaysWithinBudget ops ↔ ChargesWithinBudget ops c := by
  obtain ⟨-, hpos, hbudget⟩ := create_ok hc
  have hwithin : ∀ pre, (c.run pre).WithinBudget ↔
      (c.run pre).totalAttemptsUsed ≤ c.maxAttempts * c.entries.length := by
    intro pre
    rw [WithinBudget, FallbackChainController.budget, (c.run_frame pre).1, (c.run_frame pre).2]
  constructor
  · intro h
    apply (withinBudget_run_iff ops hbudget).mp
    exact fun pre hpre => (hwithin pre).mpr (h.budget pre hpre)
  · intro h
    refine ⟨fun pre hpre => ?_, fun pre _ => ?_, fun pre mid _ hex hmid => ?_⟩
    · exact (hwithin pre).mp ((withinBudget_run_iff ops hbudget).mpr h pre hpre)
    · rw [← (c.run_frame pre).1]
      exact positioned_run pre hpos
    · rw [run_append]
      exact exhausted_run hmid hex

def twoEntries : FallbackChainController :=
  { entries := [js "a", js "b"], maxAttempts := 1, activeIndex := 0, attemptsUsed := 0
    tried := [], attemptStarted := false, totalAttemptsUsed := 0, skips := []
    exhaustedForTurn := false }

/-- Announced attempts and their failures, a skipped entry and a new turn: nothing here
overcharges. -/
theorem staysWithinBudget_iff_announced : create [js "a", js "b"] 1 = .ok twoEntries ∧
      twoEntries.StaysWithinBudget [.onAttemptStarted, .onAttemptFailure .quota (js "429"),
        .onAttemptStarted, .onAttemptFailure .server (js "500"), .advance, .resetForNewTurn,
        .onResolutionSkip (js "auth"), .onAttemptFailure .server (js "500")] := by
  have hcreate : create [js "a", js "b"] 1 = .ok twoEntries := rfl
  refine ⟨hcreate, (staysWithinBudget_iff hcreate _).mpr ?_⟩
  simp only [ChargesWithinBudget, Overcharges]
  decide

/-- Two announced attempts spend the budget, `advance` forgets that one is under way,
and its failure is charged again: three of two. -/
theorem unannounced_failure_overcharges : create [js "a", js "b"] 1 = .ok twoEntries ∧
      (twoEntries.run [.onAttemptStarted, .onAttemptStarted, .advance,
        .onAttemptFailure .server (js "500")]).totalAttemptsUsed = 3 ∧
      ¬ twoEntries.StaysWithinBudget [.onAttemptStarted, .onAttemptStarted, .advance,
        .onAttemptFailure .server (js "500")] := by
  refine ⟨rfl, by decide, fun h => ?_⟩
  exact absurd (h.budget _ List.prefix_rfl) (by decide)

end FallbackChainController
end GajaeCode
