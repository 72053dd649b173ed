import Mathlib.Data.List.Range

/-! # Edit distance, by rows and by bit columns

The Levenshtein distance of two sequences is the last cell of a table; cell `(i, j)` is the
distance of the first `i` symbols of one from the first `j` of the other (`cell`).  Two ways to
fill the table are developed here, over any symbols and any word width.

*By rows*: `row` computes row `i + 1` from row `i`, left to right.

*By columns of bits*: neighbouring cells differ by at most one, so a column is its first cell
and a bit vector for the rises and one for the falls (`Encodes`).  `advance` computes the next
column's with one addition: its carry into bit `i` is set exactly when row `i` falls
(`carry_iff`), because both obey the same recurrence.
-/
namespace GajaeCode.EditDistance

section Table
variable {α : Type} [DecidableEq α] (p t : Nat → α)

/-- Cell `(i, j)` of the table: the distance of `p 0 … p (i-1)` from
`t 0 … t (j-1)`. -/
def cell : Nat → Nat → Nat
  | 0, j => j
  | i + 1, 0 => i + 1
  | i + 1, j + 1 =>
      min (min (cell i (j + 1) + 1) (cell (i + 1) j + 1))
        (cell i j + if p i = t j then 0 else 1)

@[simp] theorem cell_zero_left (j : Nat) : cell p t 0 j = j := by rw [cell]

@[simp] theorem cell_zero_right (i : Nat) : cell p t i 0 = i := by cases i <;> rw [cell]

theorem cell_succ (i j : Nat) : cell p t (i + 1) (j + 1) =
      min (min (cell p t i (j + 1) + 1) (cell p t (i + 1) j + 1))
        (cell p t i j + if p i = t j then 0 else 1) := by
  rw [cell]

end Table

section Rows
variable {α : Type} [DecidableEq α]

/-- One row of the table after its first cell.  `above` is the row above, from
the cell diagonally before the next one; `left` is the cell just written. -/
def row (x : α) : List α → List Nat → Nat → List Nat
  | y :: ys, diagonal :: up :: above, left =>
      let current := min (min (up + 1) (left + 1)) (diagonal + if x = y then 0 else 1)
      current :: row x ys (up :: above) current
  | _, _, _ => []

/-- The cells `(i, j), (i, j + 1), …` of row `i`, `n + 1` of them. -/
def cellsFrom (p t : Nat → α) (i j n : Nat) : List Nat :=
  (List.range (n + 1)).map (fun k => cell p t i (j + k))

theorem cellsFrom_succ (p t : Nat → α) (i j n : Nat) :
    cellsFrom p t i j (n + 1) = cell p t i j :: cellsFrom p t i (j + 1) n := by
  rw [cellsFrom, List.range_succ_eq_map, List.map_cons, List.map_map, cellsFrom]
  refine congrArg₂ List.cons rfl (List.map_congr_left fun k _ => ?_)
  show cell p t i (j + (k + 1)) = cell p t i (j + 1 + k)
  rw [Nat.add_assoc, Nat.add_comm 1 k]

/-- **The row recurrence**: from row `i`, `row` computes row `i + 1`. -/
theorem row_eq (p t : Nat → α) (i : Nat) (ys : List α) (j : Nat)
    (hys : ∀ k (h : k < ys.length), t (j + k) = ys[k]) :
    cell p t (i + 1) j :: row (p i) ys (cellsFrom p t i j ys.length) (cell p t (i + 1) j) =
      cellsFrom p t (i + 1) j ys.length := by
  induction ys generalizing j with
  | nil => rfl
  | cons y ys ih =>
    have hy : t j = y := hys 0 (by simp)
    have hrest : ∀ k (h : k < ys.length), t (j + 1 + k) = ys[k] := by
      intro k hk
      have := hys (k + 1) (by simpa using hk)
      rwa [← Nat.add_assoc, Nat.add_right_comm] at this
    have hcell : min (min (cell p t i (j + 1) + 1) (cell p t (i + 1) j + 1))
        (cell p t i j + if p i = y then 0 else 1) = cell p t (i + 1) (j + 1) := by
      rw [cell_succ, hy]
    rw [List.length_cons, cellsFrom_succ, cellsFrom_succ, ← ih (j + 1) hrest]
    refine congrArg₂ List.cons rfl ?_
    cases ys with
    | nil => exact congrArg (fun c => [c]) hcell
    | cons y' ys => simp only [List.length_cons, cellsFrom_succ, row, hcell]

end Rows

/-! ## Columns of bits -/

section Columns
variable {w : Nat}
variable {active : BitVec w} {i : Nat}

/-- Bits `pv` and `mv` describe the steps of a column: bit `i` of `pv` is a rise
from row `i` to row `i + 1`, bit `i` of `mv` a fall, neither bit no change. -/
def Encodes (m : Nat) (pv mv : BitVec w) (col : Nat → Nat) : Prop :=
  ∀ i < m,
    (pv.getLsbD i = true ∧ mv.getLsbD i = false ∧ col (i + 1) = col i + 1) ∨
    (pv.getLsbD i = false ∧ mv.getLsbD i = true ∧ col (i + 1) + 1 = col i) ∨
    (pv.getLsbD i = false ∧ mv.getLsbD i = false ∧ col (i + 1) = col i)

/-- `col'` is the column after `col`, for a symbol that matches the pattern at
the bits of `eq`. -/
structure NextColumn (m : Nat) (eq : BitVec w) (col col' : Nat → Nat) : Prop where
  top : col' 0 = col 0 + 1
  step : ∀ i < m, col' (i + 1) =
    min (min (col' i + 1) (col (i + 1) + 1)) (col i + if eq.getLsbD i = true then 0 else 1)

/-- The horizontal vector of Myers' algorithm: bit `i` is set where row `i + 1`
can be reached from the old column without a vertical step of its own. -/
def horizontal (eq pv : BitVec w) : BitVec w := (((eq &&& pv) + pv) ^^^ pv) ||| eq

theorem carry_succ_eq (eq pv : BitVec w) (i : Nat) : BitVec.carry (i + 1) (eq &&& pv) pv false =
      (pv.getLsbD i && (eq.getLsbD i || BitVec.carry i (eq &&& pv) pv false)) := by
  rw [BitVec.carry_succ, BitVec.getLsbD_and]
  cases eq.getLsbD i <;> cases pv.getLsbD i <;>
    cases BitVec.carry i (eq &&& pv) pv false <;> rfl

theorem horizontal_getLsbD (eq pv : BitVec w) (h : i < w) : (horizontal eq pv).getLsbD i =
      (eq.getLsbD i || BitVec.carry i (eq &&& pv) pv false) := by
  rw [horizontal, BitVec.getLsbD_or, BitVec.getLsbD_xor, BitVec.getLsbD_add h, BitVec.getLsbD_and]
  cases eq.getLsbD i <;> cases pv.getLsbD i <;>
    cases BitVec.carry i (eq &&& pv) pv false <;> rfl

variable {m : Nat} {eq pv mv : BitVec w} {col col' : Nat → Nat}

/-- **The carry is the fall.**  Between two neighbouring columns every row rises
by one, stays, or falls by one, and it falls exactly where the carry is set. -/
theorem carry_iff (henc : Encodes m pv mv col) (hnext : NextColumn m eq col col') : ∀ i ≤ m,
      (BitVec.carry i (eq &&& pv) pv false = true ∧ col' i + 1 = col i) ∨
      (BitVec.carry i (eq &&& pv) pv false = false ∧ (col' i = col i ∨ col' i = col i + 1)) := by
  intro i hi
  induction i with
  | zero => exact Or.inr ⟨BitVec.carry_zero, Or.inr hnext.top⟩
  | succ i ih =>
    have hstep := hnext.step i hi
    rw [carry_succ_eq]
    rcases henc i hi with ⟨hp, _, hcol⟩ | ⟨hp, _, hcol⟩ | ⟨hp, _, hcol⟩ <;>
      rcases ih (by omega) with ⟨hc, hrow⟩ | ⟨hc, hrow⟩ <;>
        cases heq : eq.getLsbD i <;> simp only [hp, hc, heq] at hstep ⊢ <;> simp at hstep ⊢ <;> omega

/-- Bits `ph` and `mh` describe a row's change between two columns. -/
def Changes (ph mh : Bool) (old new : Nat) : Prop :=
  (ph = true ∧ mh = false ∧ new = old + 1) ∨ (ph = false ∧ mh = true ∧ new + 1 = old) ∨
    (ph = false ∧ mh = false ∧ new = old)

/-- Rows that rise from the old column to the new one. -/
def rises (eq pv mv : BitVec w) : BitVec w := mv ||| ~~~(horizontal eq pv ||| pv)

/-- Rows that fall from the old column to the new one. -/
def falls (eq pv : BitVec w) : BitVec w := pv &&& horizontal eq pv

/-- Bit `i` of `rises` and `falls` is the change of row `i + 1`. -/
theorem changes_row (hm : m ≤ w) (henc : Encodes m pv mv col) (hnext : NextColumn m eq col col')
    (hi : i < m) :
    Changes ((rises eq pv mv).getLsbD i) ((falls eq pv).getLsbD i) (col (i + 1)) (col' (i + 1)) := by
  have hw : i < w := by omega
  have hstep := hnext.step i hi
  have hcarry := carry_iff henc hnext i (by omega)
  simp only [Changes, rises, falls, BitVec.getLsbD_or, BitVec.getLsbD_and, BitVec.getLsbD_not, hw,
    decide_true, Bool.true_and, horizontal_getLsbD eq pv hw]
  rcases henc i hi with ⟨hp, hv, hcol⟩ | ⟨hp, hv, hcol⟩ | ⟨hp, hv, hcol⟩ <;>
    rcases hcarry with ⟨hc, hrow⟩ | ⟨hc, hrow⟩ <;>
      cases heq : eq.getLsbD i <;> simp only [hp, hv, hc, heq] at hstep ⊢ <;>
        simp at hstep ⊢ <;> omega

theorem changes_shifted (hm : m ≤ w) (hactive : ∀ i < m, active.getLsbD i = true)
    (henc : Encodes m pv mv col) (hnext : NextColumn m eq col col') (hi : i < m) :
    Changes ((((rises eq pv mv <<< 1) ||| 1#w) &&& active).getLsbD i)
      (((falls eq pv <<< 1) &&& active).getLsbD i) (col i) (col' i) := by
  have hw : i < w := by omega
  simp only [BitVec.getLsbD_and, BitVec.getLsbD_or, BitVec.getLsbD_shiftLeft, hactive i hi, hw,
    decide_true, Bool.and_true, Bool.true_and]
  cases i with
  | zero =>
    refine Or.inl ⟨?_, ?_, hnext.top⟩
    · simp [hw]
    · simp
  | succ i =>
    have hrow := changes_row hm henc hnext (show i < m by omega)
    simpa [BitVec.getLsbD_one] using hrow

/-- The vectors of the next column. -/
def advance (active eq pv mv : BitVec w) : BitVec w × BitVec w :=
  let xv := eq ||| mv
  let ph := ((rises eq pv mv <<< 1) ||| 1#w) &&& active
  let mh := (falls eq pv <<< 1) &&& active
  ((mh ||| ~~~(xv ||| ph)) &&& active, (ph &&& xv) &&& active)

/-- **One column**: `advance` turns the encoding of a column into the encoding of
the next. -/
theorem advance_encodes (hm : m ≤ w) (hactive : ∀ i < m, active.getLsbD i = true)
    (henc : Encodes m pv mv col) (hnext : NextColumn m eq col col') :
    Encodes m (advance active eq pv mv).1 (advance active eq pv mv).2 col' := by
  intro i hi
  have hw : i < w := by omega
  have hstep := hnext.step i hi
  have hshift := changes_shifted hm hactive henc hnext hi
  generalize hph : ((rises eq pv mv <<< 1) ||| 1#w) &&& active = ph at hshift
  generalize hmh : (falls eq pv <<< 1) &&& active = mh at hshift
  simp only [advance, hph, hmh, BitVec.getLsbD_and, BitVec.getLsbD_or, BitVec.getLsbD_not, hw,
    hactive i hi, decide_true, Bool.true_and, Bool.and_true]
  rcases henc i hi with ⟨_, hv, hcol⟩ | ⟨_, hv, hcol⟩ | ⟨_, hv, hcol⟩ <;>
    rcases hshift with ⟨hp, hf, hrow⟩ | ⟨hp, hf, hrow⟩ | ⟨hp, hf, hrow⟩ <;>
      cases heq : eq.getLsbD i <;> simp only [hp, hf, hv, heq] at hstep ⊢ <;>
        simp at hstep ⊢ <;> omega

end Columns
end GajaeCode.EditDistance
