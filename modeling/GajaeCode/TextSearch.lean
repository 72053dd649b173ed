import Mathlib.Data.List.Infix

/-! # Occurrences of a word

Finding a word in a text from the left, and splitting a text at the occurrences found that
way: the search goes on behind each occurrence, so the occurrences a text is split at never
overlap.  The word occurs elsewhere as well exactly when one of its borders is completed by
what follows (`existsUnique_standsAt_iff`).

Words and texts are lists over any type with decidable equality.
-/
namespace GajaeCode.TextSearch
open List

variable {α : Type}

def StandsAt (word text : List α) (i : Nat) : Prop := word <+: text.drop i

/-- A non-empty prefix of the word, not all of it, that the word ends with too. -/
def IsBorder (word : List α) (n : Nat) : Prop :=
  0 < n ∧ n < word.length ∧ word.take n = word.drop (word.length - n)

/-- Somewhere an occurrence ends with the beginning of another one. -/
def RunsOn (word text : List α) : Prop :=
  ∃ before after n, text = before ++ (word ++ after) ∧ IsBorder word n ∧ word.drop n <+: after

theorem StandsAt.append {word before after : List α} :
    StandsAt word (before ++ (word ++ after)) before.length := by
  rw [StandsAt, drop_left]
  exact prefix_append ..

theorem StandsAt.eq_append {word text : List α} {i : Nat} (h : StandsAt word text i) :
    text = text.take i ++ (word ++ text.drop (i + word.length)) :=
  calc text = text.take i ++ text.drop i := (take_append_drop i text).symm
    _ = text.take i ++ (word ++ (text.drop i).drop word.length) := by
      rw [← prefix_append_drop h]
    _ = text.take i ++ (word ++ text.drop (i + word.length)) := by rw [drop_drop]

/-- What begins inside a word is its end and what follows it. -/
theorem prefix_append_iff {word front after : List α} (hle : front.length ≤ word.length) :
    word <+: front ++ after ↔ word.take front.length = front ∧ word.drop front.length <+: after := by
  constructor
  · intro h
    have htake : word.take front.length = front := by
      have hfront : front <+: word :=
        prefix_of_prefix_length_le (prefix_append ..) h hle
      exact (prefix_iff_eq_take.mp hfront).symm
    refine ⟨htake, ?_⟩
    rw [← take_append_drop front.length word, htake] at h
    rw [prefix_append_right_inj] at h
    exact h
  · rintro ⟨htake, hdrop⟩
    rw [← take_append_drop front.length word, htake]
    exact (prefix_append_right_inj front).mpr hdrop

/-- An occurrence that begins inside another one makes the first run on. -/
theorem StandsAt.runsOn {word text : List α} {i j : Nat} (hi : StandsAt word text i)
    (hj : StandsAt word text j) (hlt : i < j) (hinside : j < i + word.length) :
    RunsOn word text := by
  obtain ⟨k, rfl⟩ := Nat.exists_eq_add_of_le hlt.le
  have hdrop : text.drop (i + k) = word.drop k ++ text.drop (i + word.length) := by
    rw [← drop_drop, ← drop_drop]
    conv_lhs => rw [prefix_append_drop hi]
    exact drop_append_of_le_length (by omega)
  have hlength : (word.drop k).length = word.length - k := length_drop
  rw [StandsAt, hdrop, prefix_append_iff (by omega), hlength] at hj
  refine ⟨text.take i, text.drop (i + word.length), word.length - k, hi.eq_append,
    ⟨by omega, by omega, ?_⟩, hj.2⟩
  rw [hj.1]
  congr 1
  omega

theorem RunsOn.exists_standsAt {word text : List α} (h : RunsOn word text) :
    ∃ i j, i < j ∧ StandsAt word text i ∧ StandsAt word text j := by
  obtain ⟨before, after, n, rfl, ⟨hpos, hlt, hborder⟩, hafter⟩ := h
  refine ⟨before.length, before.length + (word.length - n), by omega, .append, ?_⟩
  have hlength : (word.drop (word.length - n)).length = n := by
    rw [length_drop]
    omega
  rw [StandsAt, ← drop_drop, drop_left,
    drop_append_of_le_length (by omega), prefix_append_iff (by omega), hlength]
  exact ⟨hborder, hafter⟩

section Search
variable [DecidableEq α]

/-- The text before the first occurrence of the word, and the text after it. -/
def findSplit (word : List α) : List α → Option (List α × List α)
  | [] => if word = [] then some ([], []) else none
  | u :: text =>
      if word <+: u :: text then some ([], (u :: text).drop word.length)
      else (findSplit word text).map fun p => (u :: p.1, p.2)

/-- What a search finds: the first occurrence, with what is around it. -/
theorem findSplit_eq_some {word text before after : List α}
    (h : findSplit word text = some (before, after)) :
    text = before ++ (word ++ after) ∧ ∀ i < before.length, ¬ StandsAt word text i := by
  induction text generalizing before with
  | nil =>
    rw [findSplit] at h
    split_ifs at h with hword
    cases h
    simp [hword]
  | cons u text ih =>
    rw [findSplit] at h
    split_ifs at h with hhere
    · cases h
      exact ⟨prefix_append_drop hhere, fun i hi => absurd hi (Nat.not_lt_zero i)⟩
    · obtain ⟨⟨front, rest⟩, hfound, heq⟩ := Option.map_eq_some_iff.mp h
      cases heq
      obtain ⟨htext, hfirst⟩ := ih hfound
      refine ⟨by rw [htext]; rfl, fun i hi => ?_⟩
      cases i with
      | zero => exact hhere
      | succ i => exact hfirst i (Nat.lt_of_succ_lt_succ hi)

theorem not_standsAt_of_findSplit {word text : List α} (hword : word ≠ [])
    (h : findSplit word text = none) (i : Nat) : ¬ StandsAt word text i := by
  induction text generalizing i with
  | nil =>
    rw [StandsAt, drop_nil, prefix_nil]
    exact hword
  | cons u text ih =>
    rw [findSplit] at h
    split_ifs at h with hhere
    cases i with
    | zero => exact hhere
    | succ i => exact ih (Option.map_eq_none_iff.mp h) i

/-- The pieces between the occurrences, at most so many of which are looked for. -/
def piecesUpTo (word : List α) : Nat → List α → List (List α)
  | 0, text => [text]
  | bound + 1, text =>
      match findSplit word text with
      | none => [text]
      | some (before, after) => before :: piecesUpTo word bound after

/-- The text split at the word, which is not empty. -/
def pieces (word text : List α) : List (List α) := piecesUpTo word text.length text

/-- How often the text is split. -/
def splitCount (word text : List α) : Nat := (pieces word text).length - 1

theorem piecesUpTo_ne_nil (word : List α) (bound : Nat) (text : List α) :
    piecesUpTo word bound text ≠ [] := by
  cases bound with
  | zero => exact cons_ne_nil _ _
  | succ bound =>
    rw [piecesUpTo]
    split
    · exact cons_ne_nil _ _
    · exact cons_ne_nil _ _

section
variable {word text before after : List α} (hword : word ≠ [])
    (h : findSplit word text = some (before, after))
include hword h

/-- It is split once when the word does not occur behind its first occurrence. -/
theorem splitCount_le_one_iff : splitCount word text ≤ 1 ↔ findSplit word after = none := by
  have hpos : 0 < word.length := length_pos_of_ne_nil hword
  have hlength : text.length = before.length + (word.length + after.length) := by
    rw [(findSplit_eq_some h).1, length_append, length_append]
  obtain ⟨bound, hbound⟩ : ∃ bound, text.length = bound + 1 := ⟨text.length - 1, by omega⟩
  have hcount : splitCount word text = (piecesUpTo word bound after).length := by
    rw [splitCount, pieces, hbound, piecesUpTo, h, length_cons, Nat.add_sub_cancel]
  rw [hcount]
  cases bound with
  | zero =>
    obtain rfl : after = [] := length_eq_zero_iff.mp (by omega)
    rw [findSplit, if_neg hword]
    simp [piecesUpTo]
  | succ bound =>
    rw [piecesUpTo]
    cases hafter : findSplit word after with
    | none => simp
    | some p =>
      have hrest := length_pos_of_ne_nil (piecesUpTo_ne_nil word bound p.2)
      simp only [length_cons, reduceCtorEq, iff_false]
      omega

/-- Split at most once, the word has one occurrence only if it does not run on. -/
theorem existsUnique_standsAt_iff (honce : splitCount word text ≤ 1) :
    (∃! i, StandsAt word text i) ↔ ¬ RunsOn word text := by
  obtain ⟨htext, hfirst⟩ := findSplit_eq_some h
  have hfound : StandsAt word text before.length := htext ▸ .append
  constructor
  · rintro ⟨i, -, hunique⟩ hruns
    obtain ⟨j, k, hlt, hj, hk⟩ := hruns.exists_standsAt
    exact hlt.ne ((hunique j hj).trans (hunique k hk).symm)
  · intro hruns
    refine ⟨before.length, hfound, fun j hj => ?_⟩
    have hge : before.length ≤ j := Nat.le_of_not_lt fun hlt => hfirst j hlt hj
    rcases Nat.lt_or_ge j (before.length + word.length) with hinside | hbehind
    · by_contra hne
      exact hruns (hfound.runsOn hj (by omega) hinside)
    · -- Behind the first occurrence there is none.
      have hnone := not_standsAt_of_findSplit hword ((splitCount_le_one_iff hword h).mp honce)
      refine absurd ?_ (hnone (j - (before.length + word.length)))
      have hafter : text.drop (before.length + word.length) = after := by
        rw [htext, ← drop_drop, drop_left, drop_left]
      rw [StandsAt, ← hafter, drop_drop, Nat.add_sub_cancel' hbehind]
      exact hj

end

end Search

end GajaeCode.TextSearch
