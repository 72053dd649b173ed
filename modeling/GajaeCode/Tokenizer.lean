import Mathlib.Data.List.Infix

/-! # Tokens of a stream, and markers in it

A tokenizer takes the first token off what it has, or waits for more.  More input never changes
a token that has been taken (`Tokenizer.stable`), so the tokens of a stream and what is pending
at its end do not depend on how the stream is cut (`Tokenizer.run_append`).

`splitFirst` looks for the first occurrence of a marker.
-/
namespace GajaeCode
open List

structure Tokenizer (α : Type) where
  next : List α → Option (List α × List α)
  /-- What is taken off is a token and the rest. -/
  split : ∀ text token rest, next text = some (token, rest) →
    token ≠ [] ∧ token ++ rest = text
  /-- A token that is taken stays the same if more follows. -/
  stable : ∀ text token rest, next text = some (token, rest) →
    ∀ more, next (text ++ more) = some (token, rest ++ more)
  /-- What waits for more is not cut before its end. -/
  whole : ∀ text more token rest, next text = none → next (text ++ more) = some (token, rest) →
    text.length ≤ token.length

namespace Tokenizer
variable {α : Type} (t : Tokenizer α)
variable {text : List α}

def runFrom : Nat → List α → List (List α) × List α
  | 0, text => ([], text)
  | fuel + 1, text =>
    match t.next text with
    | none => ([], text)
    | some (token, rest) =>
      let out := runFrom fuel rest
      (token :: out.1, out.2)

/-- The tokens of a text, and what is pending. -/
def run (text : List α) : List (List α) × List α := t.runFrom text.length text

variable {t}

theorem length_lt {token rest : List α} (h : t.next text = some (token, rest)) :
    rest.length < text.length := by
  obtain ⟨hne, rfl⟩ := t.split text token rest h
  have hpos := length_pos_of_ne_nil hne
  rw [length_append]
  omega

theorem next_nil : t.next [] = none := by
  cases hnext : t.next [] with
  | none => rfl
  | some out => exact absurd (length_lt hnext) (Nat.not_lt_zero _)

theorem runFrom_eq {fuel : Nat} (h : text.length ≤ fuel) : t.runFrom fuel text = t.run text := by
  induction hn : text.length using Nat.strong_induction_on generalizing fuel text with
  | _ n ih =>
    rw [run, hn]
    cases hnext : t.next text with
    | none =>
      cases fuel <;> cases n <;> simp [runFrom, hnext]
    | some out =>
      obtain ⟨token, rest⟩ := out
      have hlt := length_lt hnext
      obtain ⟨fuel, rfl⟩ : ∃ f, fuel = f + 1 := ⟨fuel - 1, by omega⟩
      obtain ⟨n, rfl⟩ : ∃ m, n = m + 1 := ⟨n - 1, by omega⟩
      have hle : rest.length ≤ n := by omega
      rw [runFrom, runFrom, hnext]
      dsimp only
      rw [ih rest.length (by omega) (show rest.length ≤ fuel by omega) rfl,
        ih rest.length (by omega) hle rfl]

theorem run_none (h : t.next text = none) : t.run text = ([], text) := by
  rw [run]
  cases text.length with
  | zero => rfl
  | succ n => rw [runFrom, h]

theorem run_some {token rest : List α} (h : t.next text = some (token, rest)) :
    t.run text = (token :: (t.run rest).1, (t.run rest).2) := by
  have hlt := length_lt h
  obtain ⟨n, hn⟩ : ∃ n, text.length = n + 1 := ⟨text.length - 1, by omega⟩
  rw [run, hn, runFrom, h]
  dsimp only
  rw [runFrom_eq (show rest.length ≤ n by omega)]

theorem run_induction {I : List α → Prop} (waits : ∀ text, t.next text = none → I text)
    (takes : ∀ text token rest, t.next text = some (token, rest) → I rest → I text)
    (text : List α) : I text := by
  induction hn : text.length using Nat.strong_induction_on generalizing text with
  | _ n ih =>
    cases hnext : t.next text with
    | none => exact waits text hnext
    | some out =>
      obtain ⟨token, rest⟩ := out
      exact takes text token rest hnext (ih rest.length (hn ▸ length_lt hnext) rest rfl)

theorem next_pending (text : List α) : t.next (t.run text).2 = none := by
  induction text using run_induction (t := t) with
  | waits text h => rw [run_none h]; exact h
  | takes text token rest h ih => rw [run_some h]; exact ih

theorem flatten_run (text : List α) : (t.run text).1.flatten ++ (t.run text).2 = text := by
  induction text using run_induction (t := t) with
  | waits text h => rw [run_none h]; rfl
  | takes text token rest h ih =>
    rw [run_some h, flatten_cons, append_assoc, ih]
    exact (t.split text token rest h).2

/-- **A cut does not matter**: what is pending at the cut is read on with what follows. -/
theorem run_append (text more : List α) : t.run (text ++ more) =
    ((t.run text).1 ++ (t.run ((t.run text).2 ++ more)).1, (t.run ((t.run text).2 ++ more)).2) := by
  induction text using run_induction (t := t) with
  | waits text h => rw [run_none h]; rfl
  | takes text token rest h ih =>
    rw [run_some h, run_some (t.stable text token rest h more), ih]
    rfl

/-- A text that waits goes on to wait, or its first token goes at least to its end. -/
theorem next_append (h : t.next text = none) (more : List α) : t.next (text ++ more) = none ∨
      ∃ front back, more = front ++ back ∧ t.next (text ++ more) = some (text ++ front, back) := by
  cases hnext : t.next (text ++ more) with
  | none => exact .inl rfl
  | some out =>
    obtain ⟨token, rest⟩ := out
    have hle := t.whole text more token rest h hnext
    obtain ⟨-, hsplit⟩ := t.split _ token rest hnext
    obtain ⟨front, rfl⟩ : text <+: token :=
      prefix_of_prefix_length_le (prefix_append _ _) ⟨rest, hsplit⟩ hle
    rw [append_assoc] at hsplit
    exact .inr ⟨front, rest, (append_cancel_left hsplit).symm, rfl⟩

end Tokenizer

/-! ## Markers -/

section Markers
variable {α : Type} [DecidableEq α]
variable {text before after : List α}

/-- What stands before the first occurrence of a marker, and what behind it. -/
def splitFirst (marker : List α) : List α → Option (List α × List α)
  | [] => if marker = [] then some ([], []) else none
  | u :: text =>
    if marker <+: u :: text then some ([], (u :: text).drop marker.length)
    else (splitFirst marker text).map fun (before, after) => (u :: before, after)

variable {marker : List α}

theorem splitFirst_eq_none : splitFirst marker text = none ↔ ¬ marker <:+: text := by
  induction text with
  | nil =>
    rw [splitFirst, infix_nil]
    by_cases h : marker = [] <;> simp [h]
  | cons u text ih =>
    rw [splitFirst, infix_cons_iff]
    by_cases h : marker <+: u :: text
    · simp [h]
    · simp [h, ih]

omit [DecidableEq α] in
/-- A marker that begins before the first occurrence ends before it does. -/
theorem occurs_before_of_head (hne : before ≠ []) (htext : text = before ++ (marker ++ after))
    (h : marker <+: text) : marker <+: before ++ marker.dropLast := by
  have hpos := length_pos_of_ne_nil hne
  refine prefix_of_prefix_length_le h ?_ ?_
  · rw [htext, prefix_append_right_inj]
    exact (List.dropLast_prefix marker).trans (prefix_append _ _)
  · rw [length_append, length_dropLast]
    omega

/-- The first occurrence: the marker ends at no place before. -/
theorem splitFirst_eq_some (hne : marker ≠ []) : splitFirst marker text = some (before, after) ↔
      text = before ++ (marker ++ after) ∧ ¬ marker <:+: before ++ marker.dropLast := by
  have hshort : ¬ marker <:+: marker.dropLast := fun hoccurs => by
    have hle := hoccurs.length_le
    have hpos := length_pos_of_ne_nil hne
    rw [length_dropLast] at hle
    omega
  induction text generalizing before with
  | nil =>
    rw [splitFirst, if_neg hne]
    simp [hne]
  | cons u text ih =>
    rw [splitFirst]
    by_cases hhead : marker <+: u :: text
    · rw [if_pos hhead]
      obtain ⟨rest, hrest⟩ := hhead
      rw [← hrest, drop_left]
      constructor
      · intro h
        obtain ⟨rfl, rfl⟩ := Prod.mk.inj (Option.some.inj h)
        exact ⟨rfl, hshort⟩
      · rintro ⟨htext, hfirst⟩
        have hnil : before = [] := by
          by_contra hbefore
          exact hfirst (occurs_before_of_head hbefore htext (prefix_append _ _)).isInfix
        rw [hnil, nil_append] at htext
        rw [hnil, append_cancel_left htext]
    · rw [if_neg hhead]
      cases before with
      | nil =>
        constructor
        · intro h
          obtain ⟨out, -, hout⟩ := Option.map_eq_some_iff.mp h
          exact absurd (Prod.mk.inj hout).1 (cons_ne_nil _ _)
        · rintro ⟨htext, -⟩
          exact absurd ⟨after, htext.symm⟩ hhead
      | cons v before =>
        constructor
        · intro h
          obtain ⟨out, hout, heq⟩ := Option.map_eq_some_iff.mp h
          obtain ⟨hbefore, rfl⟩ := Prod.mk.inj heq
          obtain ⟨rfl, rfl⟩ := List.cons.inj hbefore
          obtain ⟨htext, hfirst⟩ := ih.mp hout
          refine ⟨congrArg _ htext, fun hoccurs => ?_⟩
          rcases infix_cons_iff.mp hoccurs with hpre | hoccurs
          · refine hhead (hpre.trans ?_)
            rw [htext]
            refine cons_prefix_cons.mpr ⟨rfl, (prefix_append_right_inj _).mpr ?_⟩
            exact (List.dropLast_prefix marker).trans (prefix_append _ _)
          · exact hfirst hoccurs
        · rintro ⟨htext, hfirst⟩
          obtain ⟨rfl, htail⟩ := List.cons.inj htext
          have hout := ih.mpr ⟨htail, fun hoccurs => hfirst (infix_cons hoccurs)⟩
          rw [hout]
          rfl

/-- A marker that has been found stays the first one if more follows. -/
theorem splitFirst_append (hne : marker ≠ []) (h : splitFirst marker text = some (before, after))
    (more : List α) : splitFirst marker (text ++ more) = some (before, after ++ more) := by
  obtain ⟨rfl, hfirst⟩ := (splitFirst_eq_some hne).mp h
  refine (splitFirst_eq_some hne).mpr ⟨?_, hfirst⟩
  simp only [append_assoc]

/-- Where a marker is found in a text, a front of the text does not have it, or has it there. -/
theorem splitFirst_front (hne : marker ≠ []) {front back before after : List α}
    (h : splitFirst marker (front ++ back) = some (before, after)) :
    splitFirst marker front = none ∨
      ∃ after', splitFirst marker front = some (before, after') ∧ after = after' ++ back := by
  cases hfront : splitFirst marker front with
  | none => exact .inl rfl
  | some out =>
    have happend := (splitFirst_append hne hfront back).symm.trans h
    obtain ⟨rfl, rfl⟩ := Prod.mk.inj (Option.some.inj happend)
    exact .inr ⟨_, rfl, rfl⟩

theorem splitFirst_drop (hne : marker ≠ []) {front text before after : List α}
    (h : splitFirst marker (front ++ text) = some (front ++ before, after)) :
    splitFirst marker text = some (before, after) := by
  obtain ⟨htext, hfirst⟩ := (splitFirst_eq_some hne).mp h
  rw [append_assoc] at htext hfirst
  refine (splitFirst_eq_some hne).mpr ⟨append_cancel_left htext, fun hoccurs => ?_⟩
  exact hfirst (hoccurs.trans (suffix_append _ _).isInfix)

theorem length_lt_of_splitFirst (hne : marker ≠ []) {more : List α}
    (hnone : splitFirst marker text = none)
    (h : splitFirst marker (text ++ more) = some (before, after)) :
    text.length < before.length + marker.length := by
  obtain ⟨htext, -⟩ := (splitFirst_eq_some hne).mp h
  by_contra hle
  refine splitFirst_eq_none.mp hnone ?_
  have hpre : before ++ marker <+: text := by
    refine prefix_of_prefix_length_le ?_ (prefix_append text more) ?_
    · rw [htext, ← append_assoc]
      exact prefix_append _ _
    · rw [length_append]
      omega
  exact (suffix_append before marker).isInfix.trans hpre.isInfix

end Markers
end GajaeCode
