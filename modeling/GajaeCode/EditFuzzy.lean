import GajaeCode.EditDistance
import GajaeCode.JsString

/-! # The distances behind fuzzy edit matching

`crates/pi-natives/src/edit_fuzzy.rs`.  A pattern of up to 128 UTF-16 units is compared by
Myers' bit-parallel automaton (`MyersPattern`), a longer one by the two-row table
(`levenshteinDp`); `FuzzyPattern.new` picks one from the length alone, and a match score must
not depend on the choice.

It does not: with `j` units of the text read, the automaton's vectors encode column `j` of the
distance table and its score is the last cell of that column (`MyersPattern.Tracks`), so a
decrement never finds the score at zero.  Scores are `f64`; their arithmetic is a parameter
(`oneMinusRatio`).
-/
namespace GajaeCode.EditFuzzy
open EditDistance List Option

/-- One iteration of the outer loop of `levenshtein_dp`: row `i` from row
`i - 1`. -/
def dpRow (b : List UInt16) (prev : List Nat) (aCode : UInt16 × Nat) : List Nat :=
  (aCode.2 + 1) :: row aCode.1 b prev (aCode.2 + 1)

/-- `levenshtein_dp`; `levenshteinDistance` of `edit/modes/replace.ts` is the
same loop. -/
def levenshteinDp (a b : List UInt16) : Nat :=
  if a == b then 0
  else if a.length == 0 then b.length
  else if b.length == 0 then a.length
  else (a.zipIdx.foldl (dpRow b) (range (b.length + 1))).getD b.length 0

/-- The units of a string as a total function; only positions below its length
are ever compared. -/
def unitAt (s : List UInt16) (i : Nat) : UInt16 := s.getD i 0

/-- Cell `(i, j)` of the table of two strings. -/
def distanceCell (a b : List UInt16) (i j : Nat) : Nat := cell (unitAt a) (unitAt b) i j

theorem range_eq_cellsFrom (p t : Nat → UInt16) (n : Nat) :
    range (n + 1) = cellsFrom p t 0 0 n := by
  simp [cellsFrom]

/-- The table loop: after the units `done`, `prev` is row `done.length`. -/
theorem dpRow_foldl (a b : List UInt16) (done todo : List UInt16) (h : a = done ++ todo) :
    (todo.zipIdx done.length).foldl (dpRow b)
        (cellsFrom (unitAt a) (unitAt b) done.length 0 b.length) =
      cellsFrom (unitAt a) (unitAt b) a.length 0 b.length := by
  induction todo generalizing done with
  | nil =>
    rw [append_nil] at h
    rw [zipIdx_nil, foldl_nil, h]
  | cons x todo ih =>
    have hx : unitAt a done.length = x := by
      simp [unitAt, h]
    have hrow := row_eq (unitAt a) (unitAt b) done.length b 0 (by
      intro k hk
      simp [unitAt, hk])
    rw [cell_zero_right, hx] at hrow
    rw [zipIdx_cons, foldl_cons, dpRow, hrow]
    have := ih (done ++ [x]) (by simpa using h)
    simpa using this

/-- **The table loop computes the last cell.** -/
theorem levenshteinDp_eq_cell {a b : List UInt16} (hab : a ≠ b) (ha : a ≠ []) (hb : b ≠ []) :
    levenshteinDp a b = distanceCell a b a.length b.length := by
  have hfold := dpRow_foldl a b [] a rfl
  rw [length_nil, ← range_eq_cellsFrom] at hfold
  rw [levenshteinDp, if_neg (by simpa using hab), if_neg (by simpa using ha),
    if_neg (by simpa using hb), hfold, distanceCell]
  simp [cellsFrom]

structure MyersPattern where
  units : List UInt16
  masks : UInt16 → Option (BitVec 128)
  highBit : BitVec 128
  activeBits : BitVec 128

namespace MyersPattern
variable {text : List UInt16} {unit : UInt16} {i : Nat}

/-- `*masks.entry(unit).or_insert(0) |= 1u128 << idx`. -/
def insertMask (masks : UInt16 → Option (BitVec 128)) (unit : UInt16 × Nat) :
    UInt16 → Option (BitVec 128) :=
  fun u => if u = unit.1 then some ((masks u).getD 0 ||| (1#128 <<< unit.2)) else masks u

/-- `MyersPattern::new`. -/
def new (units : List UInt16) : MyersPattern :=
  let masks := units.zipIdx.foldl insertMask (fun _ => none)
  let len := units.length
  if len == 0 then
    { units := [], masks, highBit := 0, activeBits := 0 }
  else
    let activeBits := if len == 128 then BitVec.allOnes 128 else (1#128 <<< len) - 1
    { units, masks, highBit := 1#128 <<< (len - 1), activeBits }

/-- The loop variables of `distance`. -/
structure State where
  score : Nat
  pv : BitVec 128
  mv : BitVec 128

/-- One text unit.  `none` is an underflow of `score -= 1`. -/
def readUnit (self : MyersPattern) (s : State) (unit : UInt16) : Option State :=
  let eq := (self.masks unit).getD 0
  let xv := eq ||| s.mv
  let xh := (((eq &&& s.pv) + s.pv) ^^^ s.pv) ||| eq
  let ph := s.mv ||| ~~~(xh ||| s.pv)
  let mh := s.pv &&& xh
  let score :=
    if (ph &&& self.highBit) != 0 then some (s.score + 1)
    else if (mh &&& self.highBit) != 0 then
      if s.score = 0 then none else some (s.score - 1)
    else some s.score
  let ph := ((ph <<< 1) ||| 1) &&& self.activeBits
  let mh := (mh <<< 1) &&& self.activeBits
  score.map fun score =>
    { score, pv := (mh ||| ~~~(xv ||| ph)) &&& self.activeBits, mv := (ph &&& xv) &&& self.activeBits }

/-- `MyersPattern::distance`. -/
def distance (self : MyersPattern) (text : List UInt16) : Option Nat :=
  if self.units == text then some 0
  else
    let patternLen := self.units.length
    if patternLen == 0 then some text.length
    else if text.isEmpty then some patternLen
    else if patternLen > 128 then some (levenshteinDp self.units text)
    else (text.foldlM self.readUnit ⟨patternLen, self.activeBits, 0⟩).map (·.score)

theorem insertMask_getLsbD (masks : UInt16 → Option (BitVec 128)) (unit u : UInt16) {k : Nat}
    (hi : i < 128) : ((insertMask masks (unit, k) u).getD 0).getLsbD i =
      (((masks u).getD 0).getLsbD i || (decide (u = unit) && decide (i = k))) := by
  unfold insertMask
  split
  case isTrue hu =>
    simp only [getD_some, BitVec.getLsbD_or, BitVec.getLsbD_shiftLeft, BitVec.getLsbD_one,
      hu, hi, decide_true, Bool.true_and]
    congr 1
    rw [Bool.eq_iff_iff]
    simp only [Bool.and_eq_true, Bool.not_eq_true', decide_eq_false_iff_not, decide_eq_true_eq]
    omega
  case isFalse hu => simp [hu]

/-- Bit `i` of a unit's mask says that the pattern has the unit at `i`. -/
theorem masks_getLsbD (units : List UInt16) (u : UInt16) (hi : i < units.length)
    (hlen : units.length ≤ 128) :
    ((((new units).masks u).getD 0).getLsbD i = true) ↔ unitAt units i = u := by
  have hfold : ∀ (todo : List UInt16) (k : Nat) (masks : UInt16 → Option (BitVec 128)),
      (((todo.zipIdx k).foldl insertMask masks u).getD 0).getLsbD i =
        (((masks u).getD 0).getLsbD i || (decide (k ≤ i) && decide (todo[i - k]? = some u))) := by
    intro todo
    induction todo with
    | nil => intro k masks; simp
    | cons x todo ih =>
      intro k masks
      rw [zipIdx_cons, foldl_cons, ih, insertMask_getLsbD _ _ _ (by omega), Bool.or_assoc]
      congr 1
      rw [Bool.eq_iff_iff]
      rcases Nat.lt_trichotomy i k with h | h | h
      · simp [show ¬ k ≤ i by omega, show ¬ k + 1 ≤ i by omega, show i ≠ k by omega]
      · subst h
        simp only [decide_true, Bool.and_true, Nat.not_succ_le_self, decide_false, Bool.false_and,
          Bool.or_false, Nat.le_refl, Bool.true_and, Nat.sub_self, getElem?_cons_zero,
          some.injEq, decide_eq_true_eq]
        exact eq_comm
      · obtain ⟨d, rfl⟩ : ∃ d, i = k + 1 + d := ⟨i - (k + 1), by omega⟩
        simp [show k + 1 + d - k = d + 1 by omega, show k + 1 + d ≠ k by omega,
          show k ≤ k + 1 + d by omega]
  have hmasks : (new units).masks = units.zipIdx.foldl insertMask (fun _ => none) := by
    unfold new
    dsimp only
    split <;> rfl
  rw [hmasks, hfold units 0]
  simp [unitAt, hi]

variable {units : List UInt16}

theorem new_units (hpos : 0 < units.length) : (new units).units = units := by
  unfold new
  rw [if_neg (by simp; exact ne_nil_of_length_pos hpos)]

theorem new_highBit (hpos : 0 < units.length) :
    (new units).highBit = 1#128 <<< (units.length - 1) := by
  unfold new
  rw [if_neg (by simp; exact ne_nil_of_length_pos hpos)]

theorem activeBits_getLsbD (hlen : units.length ≤ 128) (hi : i < units.length) :
    (new units).activeBits.getLsbD i = true := by
  unfold new
  rw [if_neg (by simp; rintro rfl; simp at hi)]
  dsimp only
  split
  case isTrue => simp only [BitVec.getLsbD_allOnes, decide_eq_true_eq]; omega
  case isFalse h =>
    have hlt : units.length < 128 := by
      have : units.length ≠ 128 := by simpa using h
      omega
    have hpow : 2 ^ units.length < 2 ^ 128 := Nat.pow_lt_pow_right (by decide) hlt
    have hval : ((1#128 <<< units.length) - 1).toNat = 2 ^ units.length - 1 := by
      have hone : (1#128 <<< units.length).toNat = 2 ^ units.length := by
        rw [BitVec.toNat_shiftLeft, Nat.shiftLeft_eq, BitVec.toNat_ofNat,
          Nat.mod_eq_of_lt (by decide : 1 < 2 ^ 128), Nat.one_mul, Nat.mod_eq_of_lt hpow]
      have hpos : 0 < 2 ^ units.length := Nat.two_pow_pos _
      rw [BitVec.toNat_sub, hone]
      simp
      omega
    rw [BitVec.getLsbD, hval, Nat.testBit_two_pow_sub_one]
    simpa using hi

/-- The test of the high bit reads the last bit of the pattern. -/
theorem and_highBit (v : BitVec 128) {k : Nat} (hk : k < 128) :
    ((v &&& (1#128 <<< k)) != 0) = v.getLsbD k := by
  rw [Bool.eq_iff_iff]
  constructor
  · intro h
    by_contra hbit
    apply (bne_iff_ne.mp h)
    refine BitVec.eq_of_getLsbD_eq fun i hi => ?_
    by_cases hik : i = k
    · subst hik
      simp [Bool.not_eq_true _ ▸ hbit]
    · simp only [BitVec.getLsbD_and, BitVec.getLsbD_shiftLeft, BitVec.getLsbD_one]
      simp
      omega
  · intro hbit
    apply bne_iff_ne.mpr
    intro hzero
    have hk' := congrArg (fun x => x.getLsbD k) hzero
    simp only [BitVec.getLsbD_and, hbit, BitVec.getLsbD_shiftLeft, BitVec.getLsbD_one] at hk'
    simp [hk] at hk'

/-- With `j` units of the text read, the state is column `j` of the table. -/
structure Tracks (units text : List UInt16) (j : Nat) (s : State) : Prop where
  score : s.score = distanceCell units text units.length j
  column : Encodes units.length s.pv s.mv (fun i => distanceCell units text i j)

theorem tracks_start (text : List UInt16) (hlen : units.length ≤ 128) :
    Tracks units text 0 ⟨units.length, (new units).activeBits, 0⟩ := by
  constructor
  · simp [distanceCell]
  · intro i hi
    refine Or.inl ⟨activeBits_getLsbD hlen hi, by simp, ?_⟩
    simp [distanceCell]

theorem nextColumn_distanceCell {j : Nat} (hlen : units.length ≤ 128) (hunit : unitAt text j = unit)
    : NextColumn units.length (((new units).masks unit).getD 0)
      (fun i => distanceCell units text i j) (fun i => distanceCell units text i (j + 1)) := by
  constructor
  · simp [distanceCell]
  · intro i hi
    simp only [masks_getLsbD units unit hi hlen, distanceCell, cell_succ, hunit]

/-- **One unit of the text** moves the state to the next column, without an
underflow of the score. -/
theorem readUnit_tracks {j : Nat} {s : State} (hpos : 0 < units.length) (hlen : units.length ≤ 128)
    (hunit : unitAt text j = unit) (htracks : Tracks units text j s) :
    ∃ s', (new units).readUnit s unit = some s' ∧ Tracks units text (j + 1) s' := by
  have hnext := nextColumn_distanceCell hlen hunit
  have hcolumn := advance_encodes hlen (fun i => activeBits_getLsbD hlen) htracks.column hnext
  -- the last row's change decides the score
  have hlast := changes_row hlen htracks.column hnext (show units.length - 1 < units.length by omega)
  have hm : units.length - 1 + 1 = units.length := by omega
  have hscore := htracks.score
  simp only [hm] at hlast
  unfold readUnit
  simp only [new_highBit hpos, and_highBit _ (show units.length - 1 < 128 by omega)]
  generalize heq : ((new units).masks unit).getD 0 = eq at hlast hcolumn
  change Changes ((s.mv ||| ~~~(((((eq &&& s.pv) + s.pv) ^^^ s.pv) ||| eq) ||| s.pv)).getLsbD
      (units.length - 1))
    ((s.pv &&& ((((eq &&& s.pv) + s.pv) ^^^ s.pv) ||| eq)).getLsbD (units.length - 1)) _ _ at hlast
  rcases hlast with ⟨hp, _, hcell⟩ | ⟨hp, hf, hcell⟩ | ⟨hp, hf, hcell⟩
  · simp only [hp, if_true, map_some]
    exact ⟨_, rfl, by rw [hscore, hcell], hcolumn⟩
  · have hne : s.score ≠ 0 := by omega
    simp only [hp, hf, Bool.false_eq_true, if_false, if_true, hne, map_some]
    exact ⟨_, rfl, by dsimp only; omega, hcolumn⟩
  · simp only [hp, hf, Bool.false_eq_true, if_false, map_some]
    exact ⟨_, rfl, by rw [hscore, hcell], hcolumn⟩

/-- **The whole text.** -/
theorem foldlM_tracks (hpos : 0 < units.length) (hlen : units.length ≤ 128)
    (done todo : List UInt16) (h : text = done ++ todo) (s : State)
    (htracks : Tracks units text done.length s) :
    ∃ s', todo.foldlM (new units).readUnit s = some s' ∧ Tracks units text text.length s' := by
  induction todo generalizing done s with
  | nil =>
    rw [append_nil] at h
    exact ⟨s, rfl, h ▸ htracks⟩
  | cons unit todo ih =>
    have hunit : unitAt text done.length = unit := by
      simp [unitAt, h]
    obtain ⟨s₁, hread, htracks₁⟩ := readUnit_tracks hpos hlen hunit htracks
    obtain ⟨s', hrest, hend⟩ := ih (done ++ [unit]) (by simpa using h) s₁ (by simpa using htracks₁)
    refine ⟨s', ?_, hend⟩
    rw [foldlM_cons, hread]
    exact hrest

/-- **The automaton computes the table's distance**, for every pattern it is
built for. -/
theorem distance_new (text : List UInt16) (hpos : 0 < units.length) (hlen : units.length ≤ 128) :
    (new units).distance text = some (levenshteinDp units text) := by
  have hne : units ≠ [] := ne_nil_of_length_pos hpos
  unfold distance
  rw [new_units hpos]
  by_cases hsame : units = text
  · simp [hsame, levenshteinDp]
  · rw [if_neg (by simpa using hsame)]
    dsimp only
    rw [if_neg (by simpa using hne)]
    cases text with
    | nil => simp [levenshteinDp, hne]
    | cons unit text =>
      rw [if_neg (by simp), if_neg (by omega),
        levenshteinDp_eq_cell hsame hne (cons_ne_nil unit text)]
      obtain ⟨s', hfold, hend⟩ := foldlM_tracks hpos hlen [] (unit :: text) rfl _
        (tracks_start (unit :: text) hlen)
      rw [hfold, map_some, hend.score]
      rfl

end MyersPattern

section Similarity
variable {F : Type} (one : F) (oneMinusRatio : Nat → Nat → F)

/-- `similarity_dp`, with `1.0` and `1.0 - (distance as f64) / (max_len as f64)`
as parameters; also `similarity` of `edit/modes/replace.ts`. -/
def similarityDp (a b : List UInt16) : F :=
  if a.isEmpty && b.isEmpty then one
  else
    let maxLen := max a.length b.length
    if maxLen == 0 then one
    else oneMinusRatio (levenshteinDp a b) maxLen

/-- `MyersPattern::similarity`. -/
def MyersPattern.similarity (self : MyersPattern) (text : List UInt16) : Option F :=
  if self.units.isEmpty && text.isEmpty then some one
  else
    let maxLen := max self.units.length text.length
    if maxLen == 0 then some one
    else (self.distance text).map fun distance => oneMinusRatio distance maxLen

inductive FuzzyPattern where
  | myers (pattern : MyersPattern)
  | dp (units : List UInt16)

/-- `FuzzyPattern::new`. -/
def FuzzyPattern.new (units : List UInt16) : FuzzyPattern :=
  if units.isEmpty || units.length > 128 then .dp units else .myers (MyersPattern.new units)

/-- `FuzzyPattern::similarity`; `none` is a panic. -/
def FuzzyPattern.similarity (self : FuzzyPattern) (text : List UInt16) : Option F :=
  match self with
  | .myers pattern => pattern.similarity one oneMinusRatio text
  | .dp units => some (similarityDp one oneMinusRatio units text)

theorem MyersPattern.similarity_new {units : List UInt16} (text : List UInt16)
    (hpos : 0 < units.length) (hlen : units.length ≤ 128) :
    (MyersPattern.new units).similarity one oneMinusRatio text =
      some (similarityDp one oneMinusRatio units text) := by
  unfold MyersPattern.similarity similarityDp
  rw [MyersPattern.new_units hpos, MyersPattern.distance_new text hpos hlen]
  dsimp only [map_some]
  split
  · rfl
  · split <;> rfl

/-- **Similarity is the table's**, whichever algorithm the pattern uses. -/
theorem FuzzyPattern.similarity_new (units text : List UInt16) :
    (FuzzyPattern.new units).similarity one oneMinusRatio text =
      some (similarityDp one oneMinusRatio units text) := by
  unfold FuzzyPattern.new
  split
  case isTrue => rfl
  case isFalse h =>
    simp only [Bool.or_eq_true, decide_eq_true_eq, not_or, Nat.not_lt] at h
    refine MyersPattern.similarity_new one oneMinusRatio text ?_ h.2
    exact length_pos_iff.mpr (by simpa using h.1)

end Similarity

/-- **Bit-parallel distance is the plain one.**  For every pattern the automaton
is built for and every text, it returns (its score never underflows) what the
table returns; so a pattern's similarity is the same under either algorithm. -/
theorem myers_distance_eq_levenshteinDp (units text : List UInt16) (hpos : 1 ≤ units.length)
    (hlen : units.length ≤ 128) :
    (MyersPattern.new units).distance text = some (levenshteinDp units text) ∧
      ∀ {F : Type} (one : F) (oneMinusRatio : Nat → Nat → F),
        (FuzzyPattern.myers (MyersPattern.new units)).similarity one oneMinusRatio text =
          (FuzzyPattern.dp units).similarity one oneMinusRatio text := by
  refine ⟨MyersPattern.distance_new text hpos hlen, ?_⟩
  intro F one oneMinusRatio
  exact MyersPattern.similarity_new one oneMinusRatio text hpos hlen

theorem myers_distance_kitten : (MyersPattern.new (js "kitten")).distance (js "sitting") = some 3 ∧
      levenshteinDp (js "kitten") (js "sitting") = 3 := by
  have hdp : levenshteinDp (js "kitten") (js "sitting") = 3 := by decide
  have h := myers_distance_eq_levenshteinDp (js "kitten") (js "sitting") (by decide) (by decide)
  exact ⟨hdp ▸ h.1, hdp⟩

end GajaeCode.EditFuzzy
