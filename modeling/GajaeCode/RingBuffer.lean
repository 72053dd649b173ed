import Mathlib.Data.Nat.ModEq
import Mathlib.Data.List.Rotate

/-! # The ring buffer

`packages/utils/src/ring.ts`: a queue with two ends in an array of fixed length, in which the
elements stand from `head` on and wrap around at the end.

A place of the array that holds no element is `none`.  The buffer acts as a list of at most
`capacity` elements (`ring_is_bounded`).
-/
namespace GajaeCode
open List Nat

/-- `#buf`, `#head`, `#size`. -/
structure RingBuffer (α : Type) (capacity : Nat) where
  buf : List (Option α)
  head : Nat
  size : Nat

namespace RingBuffer
variable {α : Type} {capacity : Nat}

def new : RingBuffer α capacity := ⟨replicate capacity none, 0, 0⟩

section Operations
variable (r : RingBuffer α capacity)

def push (item : α) : RingBuffer α capacity × Option α :=
  let idx := (r.head + r.size) % capacity
  let overwritten := if r.size = capacity then r.buf.getD idx none else none
  let r' : RingBuffer α capacity := { r with buf := r.buf.set idx (some item) }
  if r.size = capacity then ({ r' with head := (r.head + 1) % capacity }, overwritten)
  else ({ r' with size := r.size + 1 }, overwritten)

def shift : RingBuffer α capacity × Option α :=
  if r.size = 0 then (r, none)
  else
    ({ r with
        buf := r.buf.set r.head none
        head := (r.head + 1) % capacity
        size := r.size - 1 }, r.buf.getD r.head none)

def pop : RingBuffer α capacity × Option α :=
  if r.size = 0 then (r, none)
  else
    let idx := (r.head + r.size - 1) % capacity
    ({ r with buf := r.buf.set idx none, size := r.size - 1 }, r.buf.getD idx none)

def unshift (item : α) : RingBuffer α capacity × Option α :=
  let head := (r.head + capacity - 1) % capacity
  let overwritten := if r.size = capacity then r.buf.getD head none else none
  ({ r with
      buf := r.buf.set head (some item)
      head
      size := if r.size < capacity then r.size + 1 else r.size }, overwritten)

/-- `at(index)`: a negative index counts from the end. -/
def atIndex (index : Int) : Option α :=
  let index := if index < 0 then index + r.size else index
  if index < 0 ∨ index ≥ r.size then none
  else r.buf.getD ((r.head + index.toNat) % capacity) none

def clear : RingBuffer α capacity :=
  { r with buf := r.buf.map fun _ => none, head := 0, size := 0 }

/-- `[Symbol.iterator]` -/
def iterator : List (Option α) :=
  (range r.size).map fun i => r.buf.getD ((r.head + i) % capacity) none

def toArray : List (Option α) :=
  if r.head + r.size ≤ capacity then (r.buf.drop r.head).take r.size
  else
    (r.buf.take capacity).drop r.head ++ r.buf.take ((r.head + r.size) % capacity)

end Operations

inductive Operation (α : Type) where
  | push (item : α)
  | pop
  | shift
  | unshift (item : α)
  | clear

/-- The buffer after an operation, and what the operation returns. -/
def apply (r : RingBuffer α capacity) : Operation α → RingBuffer α capacity × Option α
  | .push item => r.push item
  | .pop => r.pop
  | .shift => r.shift
  | .unshift item => r.unshift item
  | .clear => (r.clear, none)

/-- A full list loses its element at the other end. -/
def bounded (capacity : Nat) (l : List α) : Operation α → List α × Option α
  | .push item => if l.length = capacity then (l.tail ++ [item], l.head?) else (l ++ [item], none)
  | .pop => (l.dropLast, l.getLast?)
  | .shift => (l.tail, l.head?)
  | .unshift item =>
    if l.length = capacity then (item :: l.dropLast, l.getLast?) else (item :: l, none)
  | .clear => ([], none)

/-- The element at an index, where a negative one counts from the end. -/
def elementAt (l : List α) (index : Int) : Option α :=
  if 0 ≤ index then l[index.toNat]?
  else if 0 ≤ index + l.length then l[(index + l.length).toNat]?
  else none

/-- The state after some operations, and what they have returned. -/
def results {S O R : Type} (step : S → O → S × R) : S → List O → S × List R
  | s, [] => (s, [])
  | s, o :: os =>
    let (s, returned) := step s o
    let (s, rest) := results step s os
    (s, returned :: rest)

/-- What stands `i` places behind the head. -/
def slot (r : RingBuffer α capacity) (i : Nat) : Option α :=
  r.buf.getD ((r.head + i) % capacity) none

/-- The buffer holds the elements of a list. -/
structure Holds (r : RingBuffer α capacity) (l : List α) : Prop where
  length_buf : r.buf.length = capacity
  head_lt : r.head < capacity
  size_eq : r.size = l.length
  size_le : r.size ≤ capacity
  slot_eq : ∀ i < r.size, r.slot i = l[i]?

section Places
variable {r : RingBuffer α capacity} {l : List α}

theorem place_inj {head capacity i j : Nat} (hi : i < capacity) (hj : j < capacity)
    (h : (head + i) % capacity = (head + j) % capacity) : i = j := by
  have hmod : i ≡ j [MOD capacity] := Nat.ModEq.add_left_cancel' head h
  rwa [Nat.ModEq, mod_eq_of_lt hi, mod_eq_of_lt hj] at hmod

/-- The slots of a buffer that has been written to at one place. -/
theorem slot_set (h : r.Holds l) (size : Nat) {k : Nat} (hk : k < capacity) (value : Option α)
    {i : Nat} (hi : i < capacity) :
    (⟨r.buf.set ((r.head + k) % capacity) value, r.head, size⟩ : RingBuffer α capacity).slot i =
      if i = k then value else r.slot i := by
  have hlt : (r.head + k) % capacity < r.buf.length := by
    rw [h.length_buf]
    exact mod_lt _ (zero_lt_of_lt hi)
  unfold slot
  dsimp only
  rw [getD_eq_getElem?_getD, getElem?_set]
  split_ifs with hplace hki hki
  · rfl
  · exact absurd (place_inj hk hi hplace).symm hki
  · rw [hki] at hplace
    exact absurd rfl hplace
  · exact (getD_eq_getElem?_getD ..).symm

/-- **One write**: a place is written to, and the head is moved on. -/
theorem Holds.write (h : r.Holds l) (l' : List α) (k d : Nat) (value : Option α)
    (hk : k < capacity) (hle : l'.length ≤ capacity)
    (hslots : ∀ i < l'.length,
      (if (d + i) % capacity = k then value else r.slot ((d + i) % capacity)) = l'[i]?) :
    (⟨r.buf.set ((r.head + k) % capacity) value, (r.head + d) % capacity, l'.length⟩ :
      RingBuffer α capacity).Holds l' := by
  have hpos : 0 < capacity := zero_lt_of_lt hk
  refine ⟨length_set.trans h.length_buf, mod_lt _ hpos, rfl, hle, fun i hi => ?_⟩
  rw [← hslots i hi, ← slot_set h r.size hk value (mod_lt _ hpos)]
  unfold slot
  rw [mod_add_mod, add_mod_mod, add_assoc]

end Places

/-! ## Each operation -/

section Step
variable {r : RingBuffer α capacity} {l : List α} (h : r.Holds l)
include h

theorem head_eq : (r.head + 0) % capacity = r.head := mod_eq_of_lt h.head_lt

theorem getD_head (hne : r.size ≠ 0) : r.buf.getD r.head none = l.head? := by
  have hslot := h.slot_eq 0 (Nat.pos_of_ne_zero hne)
  rwa [slot, head_eq h, ← head?_eq_getElem?] at hslot

theorem getD_last (hne : r.size ≠ 0) :
    r.buf.getD ((r.head + (r.size - 1)) % capacity) none = l.getLast? := by
  have hslot := h.slot_eq (r.size - 1) (by omega)
  rwa [slot, h.size_eq, ← getLast?_eq_getElem?, ← h.size_eq] at hslot

theorem push_room (item : α) (hroom : r.size < capacity) :
    (r.push item).1.Holds (l ++ [item]) ∧ (r.push item).2 = none := by
  have hsize := h.size_eq
  unfold push
  dsimp only
  rw [if_neg hroom.ne, if_neg hroom.ne]
  refine ⟨?_, rfl⟩
  have hlength : (l ++ [item]).length = r.size + 1 := by
    rw [length_append, length_singleton, hsize]
  have hwrite := h.write (l ++ [item]) r.size 0 (some item) hroom
    (by omega) fun i hi => ?_
  · rwa [head_eq h, hlength] at hwrite
  · rw [zero_add, mod_eq_of_lt (by omega)]
    split_ifs with hlast
    · rw [hlast, hsize, getElem?_concat_length]
    · rw [h.slot_eq i (by omega), getElem?_append_left (by omega)]

/-- At a full buffer it takes the place of the oldest element. -/
theorem push_full (item : α) (hfull : r.size = capacity) :
    r.push item = ((r.shift.1.push item).1, r.shift.2) := by
  have hhead := h.head_lt
  have hidx : (r.head + r.size) % capacity = r.head := by
    rw [hfull, add_mod_right, mod_eq_of_lt hhead]
  have hidx' : ((r.head + 1) % capacity + (r.size - 1)) % capacity = r.head := by
    rw [Nat.mod_add_mod, Nat.add_assoc, Nat.add_sub_cancel' (by omega), hidx]
  unfold push shift
  rw [if_neg (by omega : r.size ≠ 0)]
  dsimp only
  rw [if_pos hfull, if_pos hfull, if_neg (by omega), hidx, hidx', set_set,
    Nat.sub_add_cancel (by omega)]

theorem holds_shift : r.shift.1.Holds l.tail ∧ r.shift.2 = l.head? := by
  have hsize := h.size_eq
  have hle := h.size_le
  unfold shift
  by_cases hempty : r.size = 0
  · rw [if_pos hempty]
    obtain rfl := length_eq_zero_iff.mp (hsize ▸ hempty)
    exact ⟨h, rfl⟩
  · rw [if_neg hempty]
    refine ⟨?_, getD_head h hempty⟩
    have hwrite := h.write l.tail 0 1 none (by omega)
      (by rw [length_tail]; omega) fun i hi => ?_
    · rwa [head_eq h, length_tail, ← hsize] at hwrite
    · rw [length_tail] at hi
      rw [mod_eq_of_lt (by omega), if_neg (by omega), h.slot_eq _ (by omega), getElem?_tail,
        add_comm]

theorem holds_pop : r.pop.1.Holds l.dropLast ∧ r.pop.2 = l.getLast? := by
  have hsize := h.size_eq
  have hle := h.size_le
  unfold pop
  by_cases hempty : r.size = 0
  · rw [if_pos hempty]
    obtain rfl := length_eq_zero_iff.mp (hsize ▸ hempty)
    exact ⟨h, rfl⟩
  · rw [if_neg hempty, Nat.add_sub_assoc (Nat.one_le_iff_ne_zero.mpr hempty)]
    refine ⟨?_, getD_last h hempty⟩
    have hwrite := h.write l.dropLast (r.size - 1) 0 none (by omega)
      (by rw [length_dropLast]; omega) fun i hi => ?_
    · rwa [head_eq h, length_dropLast, ← hsize] at hwrite
    · rw [length_dropLast] at hi
      rw [zero_add, mod_eq_of_lt (by omega), if_neg (by omega), h.slot_eq _ (by omega),
        getElem?_dropLast, if_pos hi]

theorem unshift_room (item : α) (hroom : r.size < capacity) :
    (r.unshift item).1.Holds (item :: l) ∧ (r.unshift item).2 = none := by
  have hsize := h.size_eq
  unfold unshift
  dsimp only
  rw [Nat.add_sub_assoc (by omega : 1 ≤ capacity), if_neg hroom.ne, if_pos hroom, hsize]
  have hlength : (item :: l).length ≤ capacity := by
    rw [length_cons]
    omega
  refine ⟨h.write (item :: l) (capacity - 1) (capacity - 1) (some item) (by omega) hlength
    fun i hi => ?_, rfl⟩
  rw [length_cons] at hi
  cases i with
  | zero => rw [add_zero, mod_eq_of_lt (by omega), if_pos rfl, getElem?_cons_zero]
  | succ i =>
    rw [show capacity - 1 + (i + 1) = i + capacity by omega, add_mod_right,
      mod_eq_of_lt (by omega), if_neg (by omega), h.slot_eq i (by omega), getElem?_cons_succ]

/-- At a full buffer it takes the place of the newest element. -/
theorem unshift_full (item : α) (hfull : r.size = capacity) :
    r.unshift item = ((r.pop.1.unshift item).1, r.pop.2) := by
  have hhead := h.head_lt
  unfold unshift pop
  rw [if_neg (by omega : r.size ≠ 0)]
  dsimp only
  rw [hfull, if_pos rfl, if_neg (lt_irrefl _), if_pos (by omega), set_set,
    Nat.sub_add_cancel (by omega)]

/-- **Every operation** acts as on the list. -/
theorem holds_apply (o : Operation α) : (r.apply o).1.Holds (bounded capacity l o).1 ∧
    (r.apply o).2 = (bounded capacity l o).2 := by
  have hsize := h.size_eq
  have hle := h.size_le
  have hhead := h.head_lt
  cases o with
  | pop => exact holds_pop h
  | shift => exact holds_shift h
  | push item =>
    unfold bounded apply
    dsimp only
    by_cases hfull : r.size = capacity
    · obtain ⟨hshift, hreturned⟩ := holds_shift h
      have hlength := hshift.size_eq
      rw [length_tail] at hlength
      rw [push_full h item hfull, if_pos (by omega)]
      exact ⟨(push_room hshift item (by omega)).1, hreturned⟩
    · rw [if_neg (by omega)]
      exact push_room h item (by omega)
  | unshift item =>
    unfold bounded apply
    dsimp only
    by_cases hfull : r.size = capacity
    · obtain ⟨hpop, hreturned⟩ := holds_pop h
      have hlength := hpop.size_eq
      rw [length_dropLast] at hlength
      rw [unshift_full h item hfull, if_pos (by omega)]
      exact ⟨(unshift_room hpop item (by omega)).1, hreturned⟩
    · rw [if_neg (by omega)]
      exact unshift_room h item (by omega)
  | clear =>
    refine ⟨⟨?_, zero_lt_of_lt hhead, rfl, zero_le _, nofun⟩, rfl⟩
    exact (length_map _).trans h.length_buf

theorem atIndex_eq (index : Int) : r.atIndex index = elementAt l index := by
  have hsize := h.size_eq
  have hread : ∀ i : Int, (if i < 0 ∨ i ≥ r.size then none else r.slot i.toNat) =
      if 0 ≤ i then l[i.toNat]? else none := by
    intro i
    by_cases hneg : i < 0
    · rw [if_pos (.inl hneg), if_neg (by omega)]
    · rw [if_pos (by omega : 0 ≤ i)]
      split_ifs with hout
      · exact (getElem?_eq_none (by omega)).symm
      · exact h.slot_eq _ (by omega)
  unfold atIndex elementAt
  by_cases hneg : index < 0
  · rw [if_pos hneg, if_neg (by omega : ¬ 0 ≤ index), ← hsize]
    exact hread _
  · rw [if_neg hneg, if_pos (by omega : 0 ≤ index)]
    exact (hread index).trans (if_pos (by omega))

theorem iterator_eq : r.iterator = l.map some := by
  have hsize := h.size_eq
  refine ext_getElem? fun i => ?_
  show ((range r.size).map r.slot)[i]? = _
  rw [getElem?_map, getElem?_map]
  by_cases hi : i < r.size
  · rw [getElem?_range hi, Option.map_some, h.slot_eq i hi, getElem?_eq_getElem (by omega)]
    rfl
  · rw [getElem?_eq_none (by rw [length_range]; omega), getElem?_eq_none (by omega)]
    rfl

theorem toArray_eq : r.toArray = l.map some := by
  have hsize := h.size_eq
  have hle := h.size_le
  have hhead := h.head_lt
  have hbuf := h.length_buf
  -- either way the array is turned so that the head comes first
  have hturn : r.toArray = (r.buf.rotate r.head).take r.size := by
    unfold toArray
    rw [rotate_eq_drop_append_take (by omega), take_append, length_drop]
    by_cases hfits : r.head + r.size ≤ capacity
    · rw [if_pos hfits, show r.size - (r.buf.length - r.head) = 0 by omega, take_zero, append_nil]
    · rw [if_neg hfits, take_of_length_le hbuf.le, take_of_length_le (l := r.buf.drop r.head)
        (by rw [length_drop]; omega), take_take, mod_eq_sub_mod (by omega),
        mod_eq_of_lt (by omega), min_eq_left (by omega)]
      congr 2
      omega
  rw [hturn]
  refine ext_getElem? fun i => ?_
  rw [getElem?_take, getElem?_map]
  by_cases hi : i < r.size
  · have hslot := h.slot_eq i hi
    have hplace : (r.head + i) % capacity < r.buf.length := by
      rw [hbuf]
      exact mod_lt _ (by omega)
    rw [slot, getD_eq_getElem?_getD, getElem?_eq_getElem hplace, Option.getD_some] at hslot
    rw [if_pos hi, getElem?_rotate (by omega), hbuf, add_comm i, getElem?_eq_getElem hplace,
      hslot, getElem?_eq_getElem (l := l) (by omega)]
    rfl
  · rw [if_neg hi, getElem?_eq_none (by omega)]
    rfl

end Step

theorem holds_results {r : RingBuffer α capacity} {l : List α} (h : r.Holds l)
    (os : List (Operation α)) :
    (results apply r os).1.Holds (results (bounded capacity) l os).1 ∧
      (results apply r os).2 = (results (bounded capacity) l os).2 := by
  induction os generalizing r l with
  | nil => exact ⟨h, rfl⟩
  | cons o os ih =>
    obtain ⟨hholds, hreturned⟩ := holds_apply h o
    obtain ⟨hrun, hrest⟩ := ih hholds
    exact ⟨hrun, congrArg₂ cons hreturned hrest⟩

/-- After the operations on a new buffer the length, the elements at all indices, the iteration
and the array are those of a list of at most `capacity` elements, and every operation has returned
what it returns on the list. -/
def ActsAsList (capacity : Nat) (os : List (Operation α)) : Prop :=
  let r := results apply (new : RingBuffer α capacity) os
  let l := results (bounded capacity) [] os
  l.1.length ≤ capacity ∧ r.1.size = l.1.length ∧
    (∀ index, r.1.atIndex index = elementAt l.1 index) ∧ r.1.iterator = l.1.map some ∧
    r.1.toArray = l.1.map some ∧ r.2 = l.2

/-- **The ring buffer is a bounded deque.** -/
theorem ring_is_bounded (h : 1 ≤ capacity) (os : List (Operation α)) : ActsAsList capacity os := by
  have hnew : (new : RingBuffer α capacity).Holds [] :=
    ⟨length_replicate, h, rfl, zero_le _, nofun⟩
  obtain ⟨hholds, hreturned⟩ := holds_results hnew os
  have hle := hholds.size_le
  rw [hholds.size_eq] at hle
  exact ⟨hle, hholds.size_eq, atIndex_eq hholds, iterator_eq hholds, toArray_eq hholds, hreturned⟩

/-- Both ends wrap around: `4` drops `1`, `0` drops `4` and `9` drops `3`. -/
theorem ring_is_bounded_three : (results apply (new : RingBuffer Nat 3)
    [.push 1, .push 2, .push 3, .push 4, .unshift 0, .unshift 9, .pop, .push 7]).1.toArray =
      [some 9, some 0, some 7] :=
  (ring_is_bounded (by decide) _).2.2.2.2.1

end RingBuffer
end GajaeCode
