import Mathlib.Data.List.Basic

/-! # Machines that read a stream

A consumer has a state and takes something off the front of what it has, putting something
out, or waits for more.  When more input never changes a step that can be taken
(`Consumer.stable`), what is put out, the state and what is pending do not depend on how the
stream is cut (`Consumer.feedAll_eq`).
-/
namespace GajaeCode

/-- A machine with states `σ` that reads `α`s and writes `ω`s. -/
structure Consumer (σ α ω : Type) where
  step : σ → List α → Option (σ × List ω × List α)
  /-- A step takes something off. -/
  shorter : ∀ s text s' out rest, step s text = some (s', out, rest) → rest.length < text.length
  /-- A step that can be taken stays the same if more follows. -/
  stable : ∀ s text s' out rest, step s text = some (s', out, rest) →
    ∀ more, step s (text ++ more) = some (s', out, rest ++ more)

namespace Consumer
variable {σ α ω : Type} (c : Consumer σ α ω)
variable {text : List α} {s : σ}

def runFrom : Nat → σ → List α → σ × List ω × List α
  | 0, s, text => (s, [], text)
  | fuel + 1, s, text =>
    match c.step s text with
    | none => (s, [], text)
    | some (s', out, rest) =>
      let (s'', outs, pending) := runFrom fuel s' rest
      (s'', out ++ outs, pending)

/-- The state after all steps that can be taken, what they put out, and what is pending. -/
def run (s : σ) (text : List α) : σ × List ω × List α := c.runFrom text.length s text

variable {c}

theorem runFrom_none (h : c.step s text = none) (fuel : Nat) :
    c.runFrom fuel s text = (s, [], text) := by
  cases fuel with
  | zero => rfl
  | succ fuel => rw [runFrom, h]

theorem runFrom_eq {fuel : Nat} (h : text.length ≤ fuel) :
    c.runFrom fuel s text = c.run s text := by
  induction hn : text.length using Nat.strongRecOn generalizing fuel s text with
  | _ n ih =>
    cases hstep : c.step s text with
    | none => rw [run, runFrom_none hstep, runFrom_none hstep]
    | some next =>
      obtain ⟨s', out, rest⟩ := next
      have hlt := c.shorter _ _ _ _ _ hstep
      obtain ⟨fuel, rfl⟩ : ∃ f, fuel = f + 1 := ⟨fuel - 1, by omega⟩
      obtain ⟨m, hm⟩ : ∃ m, text.length = m + 1 := ⟨text.length - 1, by omega⟩
      have hfuel : rest.length ≤ fuel := by omega
      have hrest : rest.length ≤ m := by omega
      rw [run, hm, runFrom, runFrom, hstep]
      dsimp only
      rw [ih rest.length (by omega) hfuel rfl, ih rest.length (by omega) hrest rfl]

theorem run_none (h : c.step s text = none) : c.run s text = (s, [], text) := runFrom_none h _

theorem run_some {s' : σ} {rest : List α} {out : List ω} (h : c.step s text = some (s', out, rest))
    : c.run s text = ((c.run s' rest).1, out ++ (c.run s' rest).2.1, (c.run s' rest).2.2) := by
  have hlt := c.shorter _ _ _ _ _ h
  obtain ⟨n, hn⟩ : ∃ n, text.length = n + 1 := ⟨text.length - 1, by omega⟩
  have hrest : rest.length ≤ n := by omega
  rw [run, hn, runFrom, h]
  dsimp only
  rw [runFrom_eq hrest]

theorem run_induction {I : σ → List α → Prop} (waits : ∀ s text, c.step s text = none → I s text)
    (takes : ∀ s text s' out rest, c.step s text = some (s', out, rest) → I s' rest → I s text)
    (s : σ) (text : List α) : I s text := by
  induction hn : text.length using Nat.strongRecOn generalizing s text with
  | _ n ih =>
    cases h : c.step s text with
    | none => exact waits s text h
    | some next =>
      obtain ⟨s', out, rest⟩ := next
      exact takes s text s' out rest h (ih rest.length (hn ▸ c.shorter _ _ _ _ _ h) s' rest rfl)

theorem step_pending (s : σ) (text : List α) :
    c.step (c.run s text).1 (c.run s text).2.2 = none := by
  induction s, text using run_induction (c := c) with
  | waits s text h => rw [run_none h]; exact h
  | takes s text s' out rest h ih => rw [run_some h]; exact ih

/-- **A cut does not matter**: the run goes on from the state at the cut, with what was
pending there before what follows. -/
theorem run_append (s : σ) (text more : List α) : c.run s (text ++ more) =
      ((c.run (c.run s text).1 ((c.run s text).2.2 ++ more)).1,
        (c.run s text).2.1 ++ (c.run (c.run s text).1 ((c.run s text).2.2 ++ more)).2.1,
        (c.run (c.run s text).1 ((c.run s text).2.2 ++ more)).2.2) := by
  induction s, text using run_induction (c := c) with
  | waits s text h => rw [run_none h]; rfl
  | takes s text s' out rest h ih =>
    rw [run_some h, run_some (c.stable _ _ _ _ _ h more), ih]
    simp only [List.append_assoc]

variable (c)

/-- Reading a stream in chunks: what is pending goes before the next chunk. -/
def feedAll : σ → List α → List (List α) → σ × List ω × List α
  | s, pending, [] => (s, [], pending)
  | s, pending, chunk :: chunks =>
    let (s', out, pending') := c.run s (pending ++ chunk)
    let (s'', outs, pending'') := feedAll s' pending' chunks
    (s'', out ++ outs, pending'')

variable {c}

/-- **Chunks do not matter**: reading them one at a time is reading the stream at once. -/
theorem feedAll_eq {pending : List α} (hwaits : c.step s pending = none) (chunks : List (List α)) :
    c.feedAll s pending chunks = c.run s (pending ++ chunks.flatten) := by
  induction chunks generalizing s pending with
  | nil => rw [feedAll, List.flatten_nil, List.append_nil, run_none hwaits]
  | cons chunk chunks ih =>
    rw [feedAll, List.flatten_cons, ← List.append_assoc, run_append s (pending ++ chunk)]
    dsimp only
    rw [ih (step_pending _ _)]

end Consumer
end GajaeCode
