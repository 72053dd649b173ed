import Mathlib.Data.List.Basic

/-! # The line tokenizer of the native diff

`tokenize_ranges` of `crates/pi-natives/src/linediff.rs`.  A string is cut into
lines, each with its separator (`\n` or `\r\n`) at its end, as byte ranges into
the string.  Every cut is next to an ASCII byte, so the ranges are slices of
characters.
-/
namespace GajaeCode
open List
namespace NativeLineDiff

abbrev Bytes := List UInt8

/-- A half-open byte range. -/
abbrev Range := Nat × Nat

/-- `&value[s..e]`. -/
def slice (value : Bytes) (r : Range) : Bytes := (value.drop r.1).take (r.2 - r.1)

/-- The `while` loop of the tokenizer, on the bytes from `i` on: contents and
separators in turn.  `last` is the start of the current content. -/
def splitLoop : (rest : Bytes) → (i last : Nat) → List Range
  | [], i, last => [(last, i)]
  | [b], i, last =>
      if b = 0x0a then (last, i) :: (i, i + 1) :: splitLoop [] (i + 1) (i + 1)
      else splitLoop [] (i + 1) last
  | b :: b' :: rest, i, last =>
      if b = 0x0a then (last, i) :: (i, i + 1) :: splitLoop (b' :: rest) (i + 1) (i + 1)
      else if b = 0x0d && b' = 0x0a then
        (last, i) :: (i, i + 2) :: splitLoop rest (i + 2) (i + 2)
      else splitLoop (b' :: rest) (i + 1) last

def dropFinalEmpty (split : List Range) : List Range :=
  match split.getLast? with
  | some (s, e) => if s = e then split.dropLast else split
  | none => split

/-- One round of the merging loop: a piece at an odd index is a separator and is
joined to the piece before it. -/
def mergeStep (ret : List Range) (piece : Range × Nat) : List Range :=
  if piece.2 % 2 = 1 then
    match ret.getLast? with
    | some last => ret.dropLast ++ [(last.1, piece.1.2)]
    | none => ret ++ [piece.1]
  else ret ++ [piece.1]

def tokenizeRanges (value : Bytes) : List Range :=
  ((dropFinalEmpty (splitLoop value 0 0)).zipIdx.foldl mergeStep []).filter (fun r => r.1 ≠ r.2)

def tokens (value : Bytes) : List Bytes := (tokenizeRanges value).map (slice value)

/-! ## The ranges cover the string -/

/-- Ranges that follow each other without a gap from `a` to `b`. -/
inductive Contiguous : Nat → List Range → Nat → Prop
  | nil (a : Nat) : Contiguous a [] a
  | cons {a m b : Nat} {rs : List Range} (h : a ≤ m) (hrs : Contiguous m rs b) :
      Contiguous a ((a, m) :: rs) b

namespace Contiguous
variable {a b c : Nat} {rs rs' : List Range} {r : Range}

theorem le (h : Contiguous a rs b) : a ≤ b := by
  induction h with
  | nil a => exact Nat.le_refl a
  | cons h _ ih => exact Nat.le_trans h ih

theorem append (h : Contiguous a rs b) (h' : Contiguous b rs' c) : Contiguous a (rs ++ rs') c := by
  induction h with
  | nil a => exact h'
  | cons hle _ ih => exact .cons hle (ih h')

theorem of_concat (h : Contiguous a (rs ++ [r]) b) : Contiguous a rs r.1 ∧ r.1 ≤ r.2 ∧ r.2 = b := by
  induction rs generalizing a with
  | nil =>
    cases h with
    | cons hle htail =>
      cases htail
      exact ⟨.nil _, hle, rfl⟩
  | cons r' rs ih =>
    cases h with
    | cons hle htail =>
      obtain ⟨hrs, hr⟩ := ih htail
      exact ⟨.cons hle hrs, hr⟩

theorem concat (h : Contiguous a rs b) (hle : b ≤ c) : Contiguous a (rs ++ [(b, c)]) c :=
  h.append (.cons hle (.nil c))

theorem filter (h : Contiguous a rs b) : Contiguous a (rs.filter (fun r => r.1 ≠ r.2)) b := by
  induction h with
  | nil a => exact .nil a
  | @cons a m b rs hle _ ih =>
    by_cases heq : a = m
    · subst heq
      simpa using ih
    · rw [filter_cons_of_pos (by simpa using heq)]
      exact .cons hle ih

theorem flatten_slices {value : Bytes} (h : Contiguous a rs b) :
    (rs.map (slice value)).flatten = slice value (a, b) := by
  induction h with
  | nil a => simp [slice]
  | @cons a m b rs hle htail ih =>
    have hmb := htail.le
    rw [map_cons, flatten_cons, ih]
    simp only [slice]
    rw [show b - a = (m - a) + (b - m) by omega, take_add, drop_drop, show a + (m - a) = m by omega]

end Contiguous

theorem splitLoop_contiguous (rest : Bytes) {i last : Nat} (h : last ≤ i) :
    Contiguous last (splitLoop rest i last) (i + rest.length) := by
  induction rest, i, last using splitLoop.induct with
  | case1 i last => exact .cons h (.nil _)
  | case2 i last ih =>
    rw [splitLoop, if_pos rfl]
    exact .cons h (.cons (Nat.le_succ i) (ih (Nat.le_refl _)))
  | case3 b i last hb ih =>
    rw [splitLoop, if_neg hb]
    exact ih (Nat.le_succ_of_le h)
  | case4 b' rest i last ih =>
    rw [splitLoop, if_pos rfl, length_cons, Nat.add_comm (b' :: rest).length, ← Nat.add_assoc]
    exact .cons h (.cons (Nat.le_succ i) (ih (Nat.le_refl _)))
  | case5 b b' rest i last hb hcr ih =>
    rw [splitLoop, if_neg hb, if_pos hcr, length_cons, length_cons,
      show i + (rest.length + 1 + 1) = i + 2 + rest.length by omega]
    exact .cons h (.cons (Nat.le_add_right i 2) (ih (Nat.le_refl _)))
  | case6 b b' rest i last hb hcr ih =>
    rw [splitLoop, if_neg hb, if_neg hcr, length_cons, Nat.add_comm (b' :: rest).length,
      ← Nat.add_assoc]
    exact ih (Nat.le_succ_of_le h)

theorem dropFinalEmpty_contiguous {split : List Range} {a b : Nat} (h : Contiguous a split b) :
    Contiguous a (dropFinalEmpty split) b := by
  unfold dropFinalEmpty
  split
  · rename_i s e hlast
    split
    · rename_i heq
      obtain ⟨init, rfl⟩ := getLast?_eq_some_iff.mp hlast
      obtain ⟨hinit, _, hend⟩ := h.of_concat
      rw [dropLast_concat]
      simp only at hinit hend
      rwa [← hend, ← heq]
    · exact h
  · exact h

theorem mergeStep_contiguous {ret : List Range} {a b c : Nat} (h : Contiguous a ret b)
    (hle : b ≤ c) (idx : Nat) : Contiguous a (mergeStep ret ((b, c), idx)) c := by
  unfold mergeStep
  split
  · split
    · rename_i last hlast
      obtain ⟨init, rfl⟩ := getLast?_eq_some_iff.mp hlast
      obtain ⟨hinit, hlast, hend⟩ := h.of_concat
      rw [dropLast_concat]
      exact hinit.concat (by simp only; omega)
    · exact h.concat hle
  · exact h.concat hle

theorem foldl_mergeStep_contiguous {split ret : List Range} {a b c : Nat}
    (h : Contiguous a ret b) (hsplit : Contiguous b split c) (idx : Nat) :
    Contiguous a ((split.zipIdx idx).foldl mergeStep ret) c := by
  induction hsplit generalizing ret idx with
  | nil b => exact h
  | @cons b m c split hle _ ih =>
    rw [zipIdx_cons, foldl_cons]
    exact ih (mergeStep_contiguous h hle idx) (idx + 1)

/-- The ranges of a string cover it from its first byte to its last. -/
theorem tokenizeRanges_contiguous (value : Bytes) :
    Contiguous 0 (tokenizeRanges value) value.length := by
  have hsplit := dropFinalEmpty_contiguous (splitLoop_contiguous value (Nat.le_refl 0))
  rw [Nat.zero_add] at hsplit
  exact (foldl_mergeStep_contiguous (.nil 0) hsplit 0).filter

/-- **The tokens spell the string.** -/
theorem flatten_tokens (value : Bytes) : (tokens value).flatten = value := by
  rw [tokens, (tokenizeRanges_contiguous value).flatten_slices, slice]
  simp

/-- Two lines and a rest: a carriage return alone is content. -/
example : tokenizeRanges [0x61, 0x0d, 0x0a, 0x0d, 0x0a, 0x62, 0x0d] = [(0, 3), (3, 5), (5, 7)] := by
  decide

end NativeLineDiff
end GajaeCode
