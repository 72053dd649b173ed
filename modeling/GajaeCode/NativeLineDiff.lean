import GajaeCode.LineTokenizer
import Mathlib.Data.Int.Init

/-! # The native line diff

`diff_tokens` and `diff_lines` of `crates/pi-natives/src/linediff.rs`: Myers'
greedy diff over line tokens.  A path stands on diagonal `d` when it has consumed
`d` more old tokens than new ones.  Round `e` extends, for every other diagonal,
the better of its two neighbours by one edit and then along all equal tokens.

The components of a path are shared through parent links in one growing vector.
The second half of the module says what such a chain describes (`Walk`) and that
reading a complete one back gives an edit script of the two texts.
-/
namespace GajaeCode
open List
namespace NativeLineDiff

/-- `PathNode`.  `oldPos` is the index of the last old token consumed, -1 at the
start; `last` is the index of the last component. -/
structure PathNode where
  oldPos : Int
  last : Option Nat
deriving DecidableEq

/-- `Comp`: a run of edits of one kind, and the component before it. -/
structure Comp where
  count : Nat
  added : Bool
  removed : Bool
  prev : Option Nat
deriving DecidableEq

structure LineDiffPart where
  added : Bool
  removed : Bool
  value : Bytes
deriving DecidableEq

/-- `add_to_path`: a component of the same kind is replaced by a longer one. -/
def addToPath (comps : List Comp) (path : PathNode) (added removed : Bool) (oldPosInc : Int) :
    List Comp × PathNode :=
  let merged : Option Comp :=
    match path.last.bind (fun li => comps[li]?) with
    | some c =>
        if c.added = added && c.removed = removed then
          some { count := c.count + 1, added, removed, prev := c.prev }
        else none
    | none => none
  let comp := merged.getD { count := 1, added, removed, prev := path.last }
  (comps ++ [comp], { oldPos := path.oldPos + oldPosInc, last := some comps.length })

section Tokens
variable {α : Type} [DecidableEq α]

/-- The `while` loop of `extract_common`, on the tokens behind the two positions. -/
def commonRun : List α → List α → Nat
  | a :: as, b :: bs => if a = b then commonRun as bs + 1 else 0
  | _, _ => 0

/-- `extract_common`; the last component of the result is the new position. -/
def extractCommon (oldToks newToks : List α) (comps : List Comp) (path : PathNode)
    (diagonal : Int) : List Comp × PathNode × Int :=
  let newPos := path.oldPos - diagonal
  let common := commonRun (oldToks.drop (path.oldPos + 1).toNat) (newToks.drop (newPos + 1).toNat)
  if 0 < common then
    (comps ++ [{ count := common, added := false, removed := false, prev := path.last }],
      { oldPos := path.oldPos + common, last := some comps.length }, newPos + common)
  else (comps, path, newPos)

/-- The `while let` loop of `build_values`: the components from the last to the
first.  Links lead to smaller indices, so the length of the vector is enough. -/
def chainFrom (comps : List Comp) : Nat → Option Nat → List Comp
  | 0, _ => []
  | _, none => []
  | fuel + 1, some ci =>
      match comps[ci]? with
      | none => []
      | some c => c :: chainFrom comps fuel c.prev

/-- The state of the second loop of `build_values`. -/
structure BuildState where
  parts : List LineDiffPart
  newPos : Nat
  oldPos : Nat

/-- One round of that loop. -/
def buildStep (oldToks newToks : List Bytes) (s : BuildState) (c : Comp) : BuildState :=
  if c.removed then
    { parts := s.parts ++ [⟨c.added, c.removed, ((oldToks.drop s.oldPos).take c.count).flatten⟩]
      newPos := s.newPos
      oldPos := s.oldPos + c.count }
  else
    { parts := s.parts ++ [⟨c.added, c.removed, ((newToks.drop s.newPos).take c.count).flatten⟩]
      newPos := s.newPos + c.count
      oldPos := if c.added then s.oldPos else s.oldPos + c.count }

def buildValues (last : Option Nat) (comps : List Comp) (oldToks newToks : List Bytes) :
    List LineDiffPart :=
  ((chainFrom comps comps.length last).reverse.foldl (buildStep oldToks newToks) ⟨[], 0, 0⟩).parts

/-- The local variables of `diff_tokens`.  `best` is indexed by diagonals; the
vector has room for the diagonals up to `max_edit + 2` on either side and the
search reads none beyond `max_edit + 1`.  `none` for `minDiag` and `maxDiag`
stands for `isize::MIN` and `isize::MAX`, beyond every diagonal. -/
structure SearchState where
  comps : List Comp
  best : Int → Option PathNode
  minDiag : Option Int
  maxDiag : Option Int

/-- What one diagonal, one round or the whole search leads to. -/
inductive Outcome where
  | finished (last : Option Nat) (comps : List Comp)
  | running (s : SearchState)

variable (oldToks newToks : List α)

/-- The choice of the base path: `none` when neither neighbour can be extended. -/
def basePath (comps : List Comp) (removePath addPath : Option PathNode) (diag : Int) :
    Option (List Comp × PathNode) :=
  let canAdd := addPath.filter
    (fun ap => 0 ≤ ap.oldPos - diag && ap.oldPos - diag < (newToks.length : Int))
  let canRemove := removePath.filter (fun rp => rp.oldPos + 1 < (oldToks.length : Int))
  match canRemove, canAdd with
  | none, none => none
  | none, some ap => some (addToPath comps ap true false 0)
  | some rp, none => some (addToPath comps rp false true 1)
  | some rp, some ap =>
      if rp.oldPos < ap.oldPos then some (addToPath comps ap true false 0)
      else some (addToPath comps rp false true 1)

/-- The body of the inner loop. -/
def stepDiag (s : SearchState) (diag : Int) : Outcome :=
  let removePath := s.best (diag - 1)
  let best := Function.update s.best (diag - 1) none
  let addPath := best (diag + 1)
  match basePath oldToks newToks s.comps removePath addPath diag with
  | none => .running { s with best := Function.update best diag none }
  | some (comps, path) =>
      let (comps, path, newPos) := extractCommon oldToks newToks comps path diag
      let oldDone : Bool := (oldToks.length : Int) ≤ path.oldPos + 1
      let newDone : Bool := (newToks.length : Int) ≤ newPos + 1
      if oldDone && newDone then .finished path.last comps
      else .running
        { comps
          best := Function.update best diag (some path)
          minDiag := if newDone then some (s.minDiag.elim (diag + 1) (max · (diag + 1)))
            else s.minDiag
          maxDiag := if oldDone then some (s.maxDiag.elim (diag - 1) (min · (diag - 1)))
            else s.maxDiag }

/-- The inner loop: `count` diagonals from `diag` on, two apart. -/
def innerLoop : (count : Nat) → SearchState → (diag : Int) → Outcome
  | 0, s, _ => .running s
  | count + 1, s, diag =>
      match stepDiag oldToks newToks s diag with
      | .finished last comps => .finished last comps
      | .running s' => innerLoop count s' (diag + 2)

/-- One round of the outer loop.  The bounds are fixed before the inner loop. -/
def round (s : SearchState) (editLength : Nat) : Outcome :=
  let lo : Int := s.minDiag.elim (-editLength) (max · (-editLength))
  let hi : Int := s.maxDiag.elim editLength (min · editLength)
  innerLoop oldToks newToks ((hi - lo) / 2 + 1).toNat s lo

/-- The outer loop; `rounds` are left, the next has the given edit length. -/
def outerLoop : (rounds : Nat) → SearchState → (editLength : Nat) → Outcome
  | 0, s, _ => .running s
  | rounds + 1, s, editLength =>
      match round oldToks newToks s editLength with
      | .finished last comps => .finished last comps
      | .running s' => outerLoop rounds s' (editLength + 1)

/-- The search of `diff_tokens`; still running after the last round is the
fall-through of the source. -/
def search : Outcome :=
  let (comps, seed, newPos) := extractCommon oldToks newToks [] ⟨-1, none⟩ 0
  if (oldToks.length : Int) ≤ seed.oldPos + 1 && (newToks.length : Int) ≤ newPos + 1 then
    .finished seed.last comps
  else
    outerLoop oldToks newToks (newToks.length + oldToks.length)
      { comps, best := Function.update (fun _ => none) 0 (some seed), minDiag := none,
        maxDiag := none } 1

end Tokens

def diffTokens (oldToks newToks : List Bytes) : List LineDiffPart :=
  match search oldToks newToks with
  | .finished last comps => buildValues last comps oldToks newToks
  | .running _ => []

def diffLines (oldStr newStr : Bytes) : List LineDiffPart :=
  diffTokens (tokens oldStr) (tokens newStr)

/-! ## What a chain of components describes -/

section Walk
variable {α : Type}
variable {path : PathNode} {last : Option Nat} {x y : Nat}

/-- The step a component takes, in tokens consumed of the old and the new text. -/
inductive CompStep (oldToks newToks : List α) : Comp → (x y x' y' : Nat) → Prop
  | removed {n : Nat} {prev : Option Nat} {x y : Nat} :
      CompStep oldToks newToks ⟨n, false, true, prev⟩ x y (x + n) y
  | added {n : Nat} {prev : Option Nat} {x y : Nat} :
      CompStep oldToks newToks ⟨n, true, false, prev⟩ x y x (y + n)
  | common {n : Nat} {prev : Option Nat} {x y : Nat}
      (h : (oldToks.drop x).take n = (newToks.drop y).take n) :
      CompStep oldToks newToks ⟨n, false, false, prev⟩ x y (x + n) (y + n)

/-- The chain that ends at `last` consumes `x` old and `y` new tokens, and every
link leads to a smaller index. -/
inductive Walk (oldToks newToks : List α) (comps : List Comp) : Option Nat → Nat → Nat → Prop
  | start : Walk oldToks newToks comps none 0 0
  | step {i : Nat} {c : Comp} {x y x' y' : Nat} (hget : comps[i]? = some c)
      (hprev : ∀ j, c.prev = some j → j < i) (hwalk : Walk oldToks newToks comps c.prev x y)
      (hstep : CompStep oldToks newToks c x y x' y') : Walk oldToks newToks comps (some i) x' y'

variable {oldToks newToks : List α} {comps : List Comp}

theorem Walk.append (h : Walk oldToks newToks comps last x y) (more : List Comp) :
    Walk oldToks newToks (comps ++ more) last x y := by
  induction h with
  | start => exact .start
  | step hget hprev _ hstep ih =>
    obtain ⟨hlt, _⟩ := List.getElem?_eq_some_iff.mp hget
    refine .step ?_ hprev ih hstep
    rwa [List.getElem?_append_left hlt]

theorem Walk.last_lt {i : Nat} (h : Walk oldToks newToks comps (some i) x y) :
    i < comps.length := by
  cases h with
  | step hget _ _ _ => exact (List.getElem?_eq_some_iff.mp hget).1

/-- A chain grows by a new component at the end of the vector. -/
theorem Walk.push {x' y' : Nat} {c : Comp} (h : Walk oldToks newToks comps last x y)
    (hprev : c.prev = last) (hstep : CompStep oldToks newToks c x y x' y') :
    Walk oldToks newToks (comps ++ [c]) (some comps.length) x' y' := by
  refine .step (c := c) ?_ ?_ (hprev ▸ h.append [c]) hstep
  · rw [getElem?_append_right (Nat.le_refl _), Nat.sub_self]
    rfl
  · rintro j hj
    rw [hprev] at hj
    subst hj
    exact h.last_lt

/-- One edit at the end of a chain: `dx` old tokens and `dy` new ones. -/
theorem addToPath_walk (added removed : Bool) (inc : Int)
    (h : Walk oldToks newToks comps path.last x y) (dx dy : Nat)
    (hstep : ∀ n prev x y, CompStep oldToks newToks ⟨n, added, removed, prev⟩ x y (x + n * dx) (y +
      n * dy))
    (hinv : ∀ c x y x' y', c.added = added → c.removed = removed → CompStep oldToks newToks c x y
      x' y' → x' = x + c.count * dx ∧ y' = y + c.count * dy) :
    ∃ c, (addToPath comps path added removed inc).1 = comps ++ [c] ∧
      Walk oldToks newToks (comps ++ [c]) (addToPath comps path added removed inc).2.last
        (x + dx) (y + dy) := by
  refine ⟨_, rfl, ?_⟩
  obtain ⟨oldPos, last⟩ := path
  cases h with
  | start =>
    have hone := hstep 1 none 0 0
    simp only [Nat.one_mul] at hone
    exact Walk.start.push rfl hone
  | @step i c x₀ y₀ _ _ hget hprev hwalk hc =>
    simp only [addToPath, Option.bind_some, hget]
    by_cases hsame : (c.added = added && c.removed = removed) = true
    · -- the new component replaces the last one and keeps its link
      rw [if_pos hsame]
      rw [Bool.and_eq_true, decide_eq_true_eq, decide_eq_true_eq] at hsame
      obtain ⟨hx, hy⟩ := hinv c _ _ _ _ hsame.1 hsame.2 hc
      have hlonger := hstep (c.count + 1) c.prev x₀ y₀
      rw [show x₀ + (c.count + 1) * dx = x + dx by rw [hx, Nat.succ_mul]; omega,
        show y₀ + (c.count + 1) * dy = y + dy by rw [hy, Nat.succ_mul]; omega] at hlonger
      exact hwalk.push rfl hlonger
    · rw [if_neg hsame]
      have hone := hstep 1 (some i) x y
      simp only [Nat.one_mul] at hone
      exact (Walk.step hget hprev hwalk hc).push rfl hone

theorem addToPath_removed (h : Walk oldToks newToks comps path.last x y) :
    ∃ c, (addToPath comps path false true 1).1 = comps ++ [c] ∧
      Walk oldToks newToks (comps ++ [c]) (addToPath comps path false true 1).2.last (x + 1) y := by
  apply addToPath_walk false true 1 h 1 0
  · intro n prev x y
    rw [Nat.mul_one, Nat.mul_zero]
    exact .removed
  · rintro c x y x' y' hadded hremoved hc
    cases hc with
    | removed => exact ⟨by simp, by simp⟩
    | added => cases hadded
    | common => cases hremoved

theorem addToPath_added (h : Walk oldToks newToks comps path.last x y) :
    ∃ c, (addToPath comps path true false 0).1 = comps ++ [c] ∧
      Walk oldToks newToks (comps ++ [c]) (addToPath comps path true false 0).2.last x (y + 1) := by
  apply addToPath_walk true false 0 h 0 1
  · intro n prev x y
    rw [Nat.mul_one, Nat.mul_zero]
    exact .added
  · rintro c x y x' y' hadded hremoved hc
    cases hc with
    | removed => cases hadded
    | added => exact ⟨by simp, by simp⟩
    | common => cases hadded

theorem commonRun_spec [DecidableEq α] (as bs : List α) :
    commonRun as bs ≤ as.length ∧ commonRun as bs ≤ bs.length ∧
      as.take (commonRun as bs) = bs.take (commonRun as bs) := by
  induction as, bs using commonRun.induct with
  | case1 a as bs ih =>
    obtain ⟨ha, hb, htake⟩ := ih
    rw [commonRun, if_pos rfl]
    simp [ha, hb, htake]
  | case2 a as b bs hne =>
    rw [commonRun, if_neg hne]
    simp
  | case3 as bs hnot =>
    rw [commonRun]
    · simp
    · exact hnot

/-- Extending a path along the equal tokens keeps its diagonal. -/
theorem extractCommon_walk [DecidableEq α] (path : PathNode) {d : Int}
    (h : Walk oldToks newToks comps path.last x y) (hx : path.oldPos + 1 = x)
    (hy : path.oldPos + 1 - d = y) (hxlen : x ≤ oldToks.length) (hylen : y ≤ newToks.length) :
    ∃ more k, (extractCommon oldToks newToks comps path d).1 = comps ++ more ∧
      (extractCommon oldToks newToks comps path d).2.1.oldPos + 1 = (x + k : Nat) ∧
      (extractCommon oldToks newToks comps path d).2.2 + 1 = (y + k : Nat) ∧
      x + k ≤ oldToks.length ∧ y + k ≤ newToks.length ∧ Walk oldToks newToks (comps ++ more)
        (extractCommon oldToks newToks comps path d).2.1.last (x + k) (y + k) := by
  have hdropx : (path.oldPos + 1).toNat = x := by omega
  have hdropy : (path.oldPos - d + 1).toNat = y := by omega
  obtain ⟨hlex, hley, htake⟩ := commonRun_spec (oldToks.drop x) (newToks.drop y)
  rw [length_drop] at hlex hley
  unfold extractCommon
  simp only [hdropx, hdropy]
  by_cases hpos : 0 < commonRun (oldToks.drop x) (newToks.drop y)
  · rw [if_pos hpos]
    refine ⟨_, commonRun (oldToks.drop x) (newToks.drop y), rfl, ?_, ?_, ?_, ?_, ?_⟩
    · simp only
      omega
    · simp only
      omega
    · omega
    · omega
    · exact h.push rfl (.common htake)
  · rw [if_neg hpos]
    exact ⟨[], 0, (append_nil _).symm, by simpa using hx, by simp only; omega, by omega,
      by omega, by simpa using h⟩

end Walk

def oldValues (parts : List LineDiffPart) : Bytes :=
  parts.flatMap (fun part => if part.added then [] else part.value)

def newValues (parts : List LineDiffPart) : Bytes :=
  parts.flatMap (fun part => if part.removed then [] else part.value)

section Build
variable {oldToks newToks : List Bytes} {comps : List Comp}
variable {last : Option Nat}

/-- The parts built so far spell the tokens consumed so far. -/
structure Spells (oldToks newToks : List Bytes) (x y : Nat) (s : BuildState) : Prop where
  oldPos : s.oldPos = x
  newPos : s.newPos = y
  oldValues : NativeLineDiff.oldValues s.parts = (oldToks.take x).flatten
  newValues : NativeLineDiff.newValues s.parts = (newToks.take y).flatten

theorem oldValues_concat (parts : List LineDiffPart) (part : LineDiffPart) :
    oldValues (parts ++ [part]) = oldValues parts ++ if part.added then [] else part.value := by
  simp [oldValues]

theorem newValues_concat (parts : List LineDiffPart) (part : LineDiffPart) :
    newValues (parts ++ [part]) = newValues parts ++ if part.removed then [] else part.value := by
  simp [newValues]

theorem flatten_take_add (toks : List Bytes) (x n : Nat) :
    (toks.take (x + n)).flatten = (toks.take x).flatten ++ ((toks.drop x).take n).flatten := by
  rw [take_add, flatten_append]

theorem Spells.buildStep {s : BuildState} {c : Comp} {x y x' y' : Nat}
    (h : Spells oldToks newToks x y s) (hstep : CompStep oldToks newToks c x y x' y') :
    Spells oldToks newToks x' y' (buildStep oldToks newToks s c) := by
  obtain ⟨parts, newPos, oldPos⟩ := s
  obtain ⟨rfl, rfl, hold, hnew⟩ := h
  simp only at hold hnew
  cases hstep with
  | removed =>
    refine ⟨rfl, rfl, ?_, ?_⟩
    · rw [flatten_take_add, ← hold]
      exact oldValues_concat _ _
    · rw [← hnew]
      exact (newValues_concat _ _).trans (append_nil _)
  | added =>
    refine ⟨rfl, rfl, ?_, ?_⟩
    · rw [← hold]
      exact (oldValues_concat _ _).trans (append_nil _)
    · rw [flatten_take_add, ← hnew]
      exact newValues_concat _ _
  | common heq =>
    refine ⟨rfl, rfl, ?_, ?_⟩
    · rw [flatten_take_add, heq, ← hold]
      exact oldValues_concat _ _
    · rw [flatten_take_add, ← hnew]
      exact newValues_concat _ _

theorem Walk.spells {x y : Nat} (h : Walk oldToks newToks comps last x y) (fuel : Nat)
    (hfuel : ∀ i, last = some i → i < fuel) :
    Spells oldToks newToks x y ((chainFrom comps fuel last).reverse.foldl
      (NativeLineDiff.buildStep oldToks newToks) ⟨[], 0, 0⟩) := by
  induction h generalizing fuel with
  | start =>
    cases fuel <;> exact ⟨rfl, rfl, rfl, rfl⟩
  | @step i c x y x' y' hget hprev _ hstep ih =>
    have hlt := hfuel i rfl
    obtain ⟨fuel, rfl⟩ : ∃ k, fuel = k + 1 := ⟨fuel - 1, by omega⟩
    rw [chainFrom, hget]
    simp only [reverse_cons, foldl_append, foldl_cons, foldl_nil]
    refine (ih fuel ?_).buildStep hstep
    intro j hj
    have := hprev j hj
    omega

/-- **A complete chain gives a correct edit script.** -/
theorem buildValues_spec (h : Walk oldToks newToks comps last oldToks.length newToks.length) :
    oldValues (buildValues last comps oldToks newToks) = oldToks.flatten ∧
      newValues (buildValues last comps oldToks newToks) = newToks.flatten := by
  have hspells := h.spells comps.length (by
    rintro i rfl
    exact h.last_lt)
  refine ⟨?_, ?_⟩
  · have := hspells.oldValues
    rwa [take_length] at this
  · have := hspells.newValues
    rwa [take_length] at this

end Build

end NativeLineDiff
end GajaeCode
