import Mathlib.Data.List.Basic

/-! # Runs of a machine

A machine is a function `step` that takes one operation in one state.  A run is a list of
operations.  An operation may be one that must not be taken in the state it is taken in;
`Meets` says that none of a run is, and `Throughout` that all states a run goes through
have a property.

The rules: what every step keeps, a run keeps (`run_induction`); what every step keeps
under a condition, the runs whose steps meet it have throughout
(`throughout_of_meets`); and where the condition is exact for a step it is exact for
runs (`throughout_iff_meets`).
-/
namespace GajaeCode
namespace Runs
variable {S O : Type} (step : S → O → S)
variable {ops : List O} {s : S} {Q : S → O → Prop}

def run (s : S) (ops : List O) : S := ops.foldl step s

/-- Every operation is taken in a state in which it may be. -/
def Meets (P : S → O → Prop) : S → List O → Prop
  | _, [] => True
  | s, o :: ops => P s o ∧ Meets P (step s o) ops

/-- All states of a run, the first and the last among them, are in `I`. -/
def Throughout (I : S → Prop) : S → List O → Prop
  | s, [] => I s
  | s, o :: ops => I s ∧ Throughout I (step s o) ops

@[simp] theorem run_nil (s : S) : run step s [] = s := rfl

@[simp] theorem run_cons (s : S) (o : O) (ops : List O) :
    run step s (o :: ops) = run step (step s o) ops := rfl

theorem run_append (s : S) (ops ops' : List O) :
    run step s (ops ++ ops') = run step (run step s ops) ops' :=
  List.foldl_append

variable {step} {P : S → O → Prop} {I J : S → Prop}

theorem meets_append {ops' : List O} :
    Meets step P s (ops ++ ops') ↔ Meets step P s ops ∧ Meets step P (run step s ops) ops' := by
  induction ops generalizing s with
  | nil => simp [Meets]
  | cons o ops ih => rw [List.cons_append, Meets, Meets, ih, run_cons, and_assoc]

/-- **What every step keeps, a run keeps.** -/
theorem run_induction (hstep : ∀ s o, J s → J (step s o)) (h : J s) (ops : List O) :
    J (run step s ops) := by
  induction ops generalizing s with
  | nil => exact h
  | cons o ops ih => exact ih (hstep s o h)

theorem meets_and (hP : Meets step P s ops) (hQ : Meets step Q s ops) :
    Meets step (fun s o => P s o ∧ Q s o) s ops := by
  induction ops generalizing s with
  | nil => trivial
  | cons o ops ih => exact ⟨⟨hP.1, hQ.1⟩, ih hP.2 hQ.2⟩

theorem Meets.imp (h : Meets step P s ops) (hPQ : ∀ s, ∀ o ∈ ops, P s o → Q s o) :
    Meets step Q s ops := by
  induction ops generalizing s with
  | nil => trivial
  | cons o ops ih =>
    exact ⟨hPQ s o List.mem_cons_self h.1, ih h.2 fun s o' ho' => hPQ s o' (.tail o ho')⟩

instance [∀ s o, Decidable (P s o)] (s : S) (ops : List O) : Decidable (Meets step P s ops) :=
  match ops with
  | [] => .isTrue trivial
  | _ :: ops => @instDecidableAnd _ _ _ (instDecidableMeets _ ops)

theorem Throughout.mono {J : S → Prop} (h : Throughout step I s ops) (hIJ : ∀ s, I s → J s) :
    Throughout step J s ops := by
  induction ops generalizing s with
  | nil => exact hIJ s h
  | cons o ops ih => exact ⟨hIJ s h.1, ih h.2⟩

theorem Throughout.first (h : Throughout step I s ops) : I s := by
  cases ops with
  | nil => exact h
  | cons o ops => exact h.1

/-- All states of a run are the last states of the runs it begins with. -/
theorem throughout_iff : Throughout step I s ops ↔ ∀ ops', ops' <+: ops → I (run step s ops') := by
  induction ops generalizing s with
  | nil =>
    refine ⟨fun h ops' hops' => ?_, fun h => h [] List.nil_prefix⟩
    rw [List.prefix_nil.mp hops']
    exact h
  | cons o ops ih =>
    rw [Throughout, ih]
    constructor
    · rintro ⟨hs, hrest⟩ ops' hops'
      cases ops' with
      | nil => exact hs
      | cons o' ops' =>
        obtain ⟨rfl, hrests⟩ := List.cons_prefix_cons.mp hops'
        exact hrest ops' hrests
    · intro h
      exact ⟨h [] List.nil_prefix, fun ops' hops' =>
        h (o :: ops') (List.cons_prefix_cons.mpr ⟨rfl, hops'⟩)⟩

/-- **The runs whose steps meet the condition have what every such step keeps.** -/
theorem throughout_of_meets (hstep : ∀ s o, I s → P s o → I (step s o)) (h : I s)
    (hmeets : Meets step P s ops) : Throughout step I s ops := by
  induction ops generalizing s with
  | nil => exact h
  | cons o ops ih => exact ⟨h, ih (hstep s o h hmeets.1) hmeets.2⟩

/-- **A condition that is exact for a step is exact for runs**, of those whose operations are
legal.  `J` holds anyway. -/
theorem throughout_iff_meets_of_legal {L : S → O → Prop} (hJ : ∀ s o, J s → L s o → J (step s o))
    (hstep : ∀ s o, J s → L s o → I s → (I (step s o) ↔ P s o)) (hs : J s) (h : I s)
    (hlegal : Meets step L s ops) : Throughout step I s ops ↔ Meets step P s ops := by
  induction ops generalizing s with
  | nil => exact ⟨fun _ => trivial, fun _ => h⟩
  | cons o ops ih =>
    obtain ⟨hL, hlegal⟩ := hlegal
    rw [Throughout, Meets]
    constructor
    · rintro ⟨-, hrest⟩
      have hnext : I (step s o) := hrest.first
      exact ⟨(hstep s o hs hL h).mp hnext, (ih (hJ s o hs hL) hnext hlegal).mp hrest⟩
    · rintro ⟨hP, hrest⟩
      have hnext : I (step s o) := (hstep s o hs hL h).mpr hP
      exact ⟨h, (ih (hJ s o hs hL) hnext hlegal).mpr hrest⟩

theorem meets_true : Meets step (fun _ _ => True) s ops := by
  induction ops generalizing s with
  | nil => trivial
  | cons o ops ih => exact ⟨trivial, ih⟩

theorem throughout_iff_meets (hJ : ∀ s o, J s → J (step s o))
    (hstep : ∀ s o, J s → I s → (I (step s o) ↔ P s o)) (hs : J s) (h : I s) :
    Throughout step I s ops ↔ Meets step P s ops :=
  throughout_iff_meets_of_legal (fun s o hs _ => hJ s o hs) (fun s o hs _ h => hstep s o hs h)
    hs h meets_true

/-- Conditions that agree on legal steps agree on legal runs. -/
theorem meets_iff_meets_of_legal {L : S → O → Prop} (hJ : ∀ s o, J s → L s o → J (step s o))
    (hstep : ∀ s o, J s → L s o → (Q s o ↔ P s o)) (hs : J s) (hlegal : Meets step L s ops) :
    Meets step Q s ops ↔ Meets step P s ops := by
  induction ops generalizing s with
  | nil => exact Iff.rfl
  | cons o ops ih =>
    obtain ⟨hL, hlegal⟩ := hlegal
    exact and_congr (hstep s o hs hL) (ih (hJ s o hs hL) hlegal)

end Runs
end GajaeCode
