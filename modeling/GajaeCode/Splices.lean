import Mathlib.Data.List.Flatten
import Mathlib.Data.List.Forall2
import Mathlib.Data.List.Induction
import Mathlib.Data.List.Sort

/-! # Edits of a list by position

Two general facts about editing a list in place.

*Bottom-up splices are simultaneous* (`foldl_splice`): when elements are replaced
one position after another, from the highest position down, every replacement
reads the element the list had at the start, and the result is the list with all
its elements replaced at once.  The invariant is that everything below the
current position is untouched (`foldl_splice_append`).

*Re-emission keeps a subsequence* (`sublistForall₂_of_emits`): if the output is
produced position by position, and the surviving positions are distributed over
the positions of the output in increasing order, each among what is emitted
where it is assigned, then the survivors are a subsequence of the output.
-/
namespace GajaeCode.Splices
open scoped List

section Splice
variable {α : Type}
variable {xs : List α} {i : Nat}

/-- `xs.splice(i, 1, ...r)`. -/
def splice (xs : List α) (i : Nat) (r : List α) : List α := xs.take i ++ r ++ xs.drop (i + 1)

/-- A splice leaves everything after its position alone. -/
theorem splice_append (hi : i < xs.length) (r t : List α) :
    splice (xs ++ t) i r = splice xs i r ++ t := by
  have htake : (xs ++ t).take i = xs.take i := List.take_append_of_le_length hi.le
  have hdrop : (xs ++ t).drop (i + 1) = xs.drop (i + 1) ++ t := List.drop_append_of_le_length hi
  rw [splice, htake, hdrop, splice, List.append_assoc, List.append_assoc, List.append_assoc]

theorem length_splice_ge (hi : i < xs.length) (r : List α) : i ≤ (splice xs i r).length := by
  simp only [splice, List.length_append, List.length_take, List.length_drop]
  omega

variable (f : Nat → α → List α) (d : α)

/-- One step of a bottom-up pass: the element at `i` becomes `f i` of it. -/
def spliceAt (xs : List α) (i : Nat) : List α := splice xs i (f i (xs.getD i d))

theorem spliceAt_append (hi : i < xs.length) (t : List α) :
    spliceAt f d (xs ++ t) i = spliceAt f d xs i ++ t := by
  have hget : (xs ++ t).getD i d = xs.getD i d := by
    simp only [List.getD_eq_getElem?_getD, List.getElem?_append_left hi]
  rw [spliceAt, hget, splice_append hi, spliceAt]

/-- A pass over decreasing positions below the end of `xs` leaves what follows
`xs` alone. -/
theorem foldl_splice_append (is : List Nat) (xs t : List α) (hdec : is.Pairwise (· > ·))
    (hlt : ∀ i ∈ is, i < xs.length) :
    is.foldl (spliceAt f d) (xs ++ t) = is.foldl (spliceAt f d) xs ++ t := by
  induction is generalizing xs with
  | nil => rfl
  | cons i is ih =>
    have hi : i < xs.length := hlt i List.mem_cons_self
    obtain ⟨hbelow, hdec'⟩ := List.pairwise_cons.mp hdec
    rw [List.foldl_cons, List.foldl_cons, spliceAt_append f d hi]
    refine ih (spliceAt f d xs i) hdec' fun j hj => ?_
    exact lt_of_lt_of_le (hbelow j hj) (length_splice_ge hi _)

/-- **Bottom-up splices are simultaneous.** -/
theorem foldl_splice (is : List Nat) (xs : List α) (hdec : is.Pairwise (· > ·))
    (hlt : ∀ i ∈ is, i < xs.length) : is.foldl (spliceAt f d) xs =
      xs.zipIdx.flatMap fun p => if p.2 ∈ is then f p.2 p.1 else [p.1] := by
  induction xs using List.reverseRecOn generalizing is with
  | nil =>
    cases is with
    | nil => rfl
    | cons i is => exact absurd (hlt i List.mem_cons_self) (by simp)
  | append_singleton xs x ih =>
    rw [List.zipIdx_append, List.flatMap_append]
    by_cases hlast : ∃ is', is = xs.length :: is'
    · -- the highest position is the last element
      obtain ⟨is', rfl⟩ := hlast
      obtain ⟨hbelow, hdec'⟩ := List.pairwise_cons.mp hdec
      have hstep : spliceAt f d (xs ++ [x]) xs.length = xs ++ f xs.length x := by
        simp [spliceAt, splice]
      rw [List.foldl_cons, hstep, foldl_splice_append f d is' xs _ hdec' hbelow,
        ih is' hdec' hbelow]
      refine congrArg₂ (· ++ ·) ?_ (by simp)
      refine List.flatMap_congr fun p hp => ?_
      have hp2 : p.2 < xs.length := by simpa using List.snd_lt_of_mem_zipIdx hp
      have hne : p.2 ≠ xs.length := by omega
      simp [hne]
    · -- the last element is no position
      have hbelow : ∀ i ∈ is, i < xs.length := by
        intro i hi
        have hle : i < xs.length + 1 := by simpa using hlt i hi
        rcases Nat.lt_or_ge i xs.length with h | h
        · exact h
        · have hieq : i = xs.length := by omega
          subst hieq
          cases is with
          | nil => simp at hi
          | cons j is =>
            rcases List.mem_cons.mp hi with rfl | hi
            · exact absurd ⟨is, rfl⟩ hlast
            · have hj := (List.pairwise_cons.mp hdec).1 _ hi
              have := hlt j List.mem_cons_self
              simp at this
              omega
      have hnot : xs.length ∉ is := fun h => absurd (hbelow _ h) (lt_irrefl _)
      rw [foldl_splice_append f d is xs [x] hdec hbelow, ih is hdec hbelow]
      simp [hnot]

end Splice

section Emits
variable {α β γ : Type}

/-- An increasing list of numbers inside another is a subsequence of it. -/
theorem sublist_of_subset_of_increasing {l₁ l₂ : List Nat} (h₁ : l₁.Pairwise (· < ·))
    (h₂ : l₂.Pairwise (· < ·)) (hsub : l₁ ⊆ l₂) : l₁ <+ l₂ := by
  have hnodup : l₁.Nodup := h₁.imp (fun h => Nat.ne_of_lt h)
  exact List.sublist_of_subperm_of_pairwise (List.subperm_of_subset hnodup hsub) h₁ h₂

theorem sublistForall₂_append {R : β → α → Prop} {l₁ l₂ : List β} {m₁ m₂ : List α}
    (h₁ : List.SublistForall₂ R l₁ m₁) (h₂ : List.SublistForall₂ R l₂ m₂) :
    List.SublistForall₂ R (l₁ ++ l₂) (m₁ ++ m₂) := by
  obtain ⟨k₁, hk₁, hsub₁⟩ := List.sublistForall₂_iff.mp h₁
  obtain ⟨k₂, hk₂, hsub₂⟩ := List.sublistForall₂_iff.mp h₂
  exact List.sublistForall₂_iff.mpr ⟨k₁ ++ k₂, List.rel_append hk₁ hk₂, hsub₁.append hsub₂⟩

theorem sublistForall₂_flatMap {R : β → α → Prop} {ks : List γ} {f : γ → List β} {g : γ → List α}
    (h : ∀ k ∈ ks, List.SublistForall₂ R (f k) (g k)) :
    List.SublistForall₂ R (ks.flatMap f) (ks.flatMap g) := by
  induction ks with
  | nil => exact .nil
  | cons k ks ih =>
    exact sublistForall₂_append (h k List.mem_cons_self)
      (ih fun k' hk' => h k' (List.mem_cons_of_mem _ hk'))

/-- What is found in a list that is found in another one is found in that. -/
theorem sublistForall₂_trans {R : β → α → Prop} {S : α → γ → Prop} {T : β → γ → Prop}
    (hcomp : ∀ b a c, R b a → S a c → T b c) {l : List β} {m : List α} {n : List γ}
    (h₁ : List.SublistForall₂ R l m) (h₂ : List.SublistForall₂ S m n) :
    List.SublistForall₂ T l n := by
  induction h₂ generalizing l with
  | nil =>
    cases h₁
    exact .nil
  | cons hS _ ih =>
    cases h₁ with
    | nil => exact .nil
    | cons hR h₁ => exact .cons (hcomp _ _ _ hR hS) (ih h₁)
    | cons_right h₁ => exact .cons_right (ih h₁)
  | cons_right _ ih => exact .cons_right (ih h₁)

theorem sublistForall₂_mono {R : β → α → Prop} {l l' : List β} {m m' : List α} (hl : l' <+ l)
    (h : List.SublistForall₂ R l m) (hm : m <+ m') : List.SublistForall₂ R l' m' := by
  have hleft : List.SublistForall₂ Eq l' l := hl.sublistForall₂
  have hright : List.SublistForall₂ Eq m m' := hm.sublistForall₂
  exact sublistForall₂_trans (fun _ _ _ heq hR => heq ▸ hR) hleft
    (sublistForall₂_trans (fun _ _ _ hR heq => heq ▸ hR) h hright)

theorem map_sublist_of_sublistForall₂ {f : β → α} {l : List β} {m : List α}
    (h : List.SublistForall₂ (fun b a => f b = a) l m) : l.map f <+ m := by
  obtain ⟨k, hk, hsub⟩ := List.sublistForall₂_iff.mp (List.sublistForall₂_map_left_iff.mpr h)
  rw [List.forall₂_eq_eq_eq] at hk
  exact hk ▸ hsub

/-- **Re-emission keeps a subsequence.**  `emitted b` is what the output has at
position `b`; `assigned b` are the surviving positions that are to be found
there. -/
theorem sublistForall₂_of_emits {R : Nat → α → Prop} {positions : List Nat}
    {emitted : Nat → List α} {survivors : List Nat} (assigned : Nat → List Nat)
    (hemits : ∀ b ∈ positions, List.SublistForall₂ R (assigned b) (emitted b))
    (hordered : (positions.flatMap assigned).Pairwise (· < ·))
    (hsurvivors : survivors.Pairwise (· < ·))
    (hcover : ∀ i ∈ survivors, ∃ b ∈ positions, i ∈ assigned b) :
    List.SublistForall₂ R survivors (positions.flatMap emitted) := by
  have hsub : survivors <+ positions.flatMap assigned :=
    sublist_of_subset_of_increasing hsurvivors hordered fun i hi => List.mem_flatMap.mpr (hcover i hi)
  exact sublistForall₂_mono hsub (sublistForall₂_flatMap hemits) (List.Sublist.refl _)

end Emits
end GajaeCode.Splices
