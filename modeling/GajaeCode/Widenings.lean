import GajaeCode.HashlineEdits
import GajaeCode.Splices

/-! # Widened replacements

Absorbing boundary duplicates deletes file lines the caller never named and relies on a payload
to emit them again.  This module says when that is safe, over `Widening`s: the replacements of
a batch with the lines they are widened over.

A text of the payload stands in for the line, or lines, it was matched with
(`Widening.repeats`).  The lines the caller does not delete, the *survivors*, are put back
(`PutsBack`) if they can be found in file order among the lines that stay and those stand-ins,
each used once; then they are a subsequence of the output (`Widened.survivors_sublist`).

Where every replacement inserts at its first line, only two things can go wrong: two blocks of
a payload that overlap stand in for too few lines, and of two replacements at one line the one
that emits the lines below may come first.  `Harmless` says that neither happens.  Then every
survivor is assigned to the line that emits it, itself or the first line of a replacement, and
the assignment is increasing (`Widened.assigned_lt`).
-/
namespace GajaeCode
open JsString Splices List
variable {counts : List Nat} {line : Nat}

/-- A replacement with the number of lines it is widened over on either side, its texts and
the lines they are inserted at. -/
structure Widening where
  start : Nat
  last : Nat
  prefixCount : Nat
  suffixCount : Nat
  payload : List JsString
  anchors : List Nat
deriving DecidableEq

namespace Widening

/-- The file lines that the text at `o` of the payload repeats.  Where the blocks above and
below overlap there are two of them, but the text is emitted once. -/
def repeats (w : Widening) (o : Nat) : List Nat :=
  (if o < w.prefixCount then [w.start - w.prefixCount + o] else []) ++
    if w.payload.length ≤ o + w.suffixCount then
      [w.last + 1 + (o + w.suffixCount - w.payload.length)]
    else []

/-- What the texts inserted at a line repeat. -/
def copiesAt (w : Widening) (line : Nat) : List (List Nat) :=
  (w.anchors.zipIdx.filter fun p => p.1 = line).map fun p => w.repeats p.2

/-- What the texts repeat, in order. -/
def copies (w : Widening) : List (List Nat) := (List.range w.payload.length).map w.repeats

/-- The line is widened over from below. -/
def Above (w : Widening) (line : Nat) : Prop := w.start - w.prefixCount ≤ line ∧ line < w.start

/-- The line is widened over from above. -/
def Below (w : Widening) (line : Nat) : Prop := w.last < line ∧ line ≤ w.last + w.suffixCount

instance (w : Widening) (line : Nat) : Decidable (w.Above line) :=
  inferInstanceAs (Decidable (_ ∧ _))

instance (w : Widening) (line : Nat) : Decidable (w.Below line) :=
  inferInstanceAs (Decidable (_ ∧ _))

/-- What the code makes sure of for every replacement it widens. -/
structure Fits (fileLines : List JsString) (target : Nat → Prop) (deleted : Nat → Bool)
    (w : Widening) : Prop where
  start_le : w.start ≤ w.last
  covered : ∀ line, w.start ≤ line → line ≤ w.last → deleted line = true
  above_lt : w.prefixCount < w.start
  above_len : w.prefixCount ≤ w.payload.length
  above_text : ∀ o < w.prefixCount,
    some (lineAt fileLines (w.start - w.prefixCount + o)) = w.payload[o]?
  above_free : ∀ line, w.Above line → ¬ target line
  below_le : w.last + w.suffixCount ≤ fileLines.length
  below_len : w.suffixCount ≤ w.payload.length
  below_text : ∀ o < w.suffixCount,
    some (lineAt fileLines (w.last + 1 + o)) = w.payload[w.payload.length - w.suffixCount + o]?
  below_free : ∀ line, w.Below line → ¬ target line
  anchors_len : w.anchors.length = w.payload.length

variable {fileLines : List JsString} {target : Nat → Prop} {deleted : Nat → Bool} {w : Widening}

theorem Fits.found_above (h : w.Fits fileLines target deleted) :
    SublistForall₂ (· ∈ ·) (range' (w.start - w.prefixCount) w.prefixCount)
      (w.copies.take w.prefixCount) := by
  have hlen := h.above_len
  refine sublistForall₂_iff.mpr ⟨_, forall₂_iff_get.mpr ⟨by simp [copies]; omega, ?_⟩,
    Sublist.refl _⟩
  intro o h₁ h₂
  have ho : o < w.prefixCount := by simpa using h₁
  simp [copies, repeats, ho]

theorem Fits.found_below (h : w.Fits fileLines target deleted) :
    SublistForall₂ (· ∈ ·) (range' (w.last + 1) w.suffixCount)
      (w.copies.drop (w.payload.length - w.suffixCount)) := by
  have hlen := h.below_len
  refine sublistForall₂_iff.mpr ⟨_, forall₂_iff_get.mpr ⟨by simp [copies]; omega, ?_⟩,
    Sublist.refl _⟩
  intro o h₁ h₂
  have hle : w.payload.length ≤ w.payload.length - w.suffixCount + o + w.suffixCount := by omega
  have heq : w.payload.length - w.suffixCount + o + w.suffixCount - w.payload.length = o := by omega
  simp [copies, repeats, hle, heq]

theorem Fits.copiesAt_start (h : w.Fits fileLines target deleted)
    (hplaced : ∀ a ∈ w.anchors, a = w.start) : w.copiesAt w.start = w.copies := by
  have hall : (w.anchors.zipIdx.filter fun p => p.1 = w.start) = w.anchors.zipIdx :=
    filter_eq_self.mpr fun p hp => by simpa using hplaced p.1 (fst_mem_of_mem_zipIdx hp)
  have hindex : w.anchors.zipIdx.map Prod.snd = List.range w.payload.length := by
    rw [zipIdx_map_snd, h.anchors_len, range_eq_range']
  rw [copiesAt, hall, copies, ← hindex, map_map]
  rfl

/-- The texts that repeat a line are that line. -/
theorem Fits.text_of_repeats (h : w.Fits fileLines target deleted) {o line : Nat}
    {text : JsString} (htext : w.payload[o]? = some text) (hline : line ∈ w.repeats o) :
    lineAt fileLines line = text := by
  rw [repeats, mem_append] at hline
  rcases hline with hline | hline
  · split at hline
    · rw [mem_singleton.mp hline]
      exact some.inj ((h.above_text o ‹_›).trans htext)
    · exact absurd hline not_mem_nil
  · split at hline
    · have hlt : o < w.payload.length := (List.getElem?_eq_some_iff.mp htext).1
      have hlen := h.below_len
      have hbelow := h.below_text (o + w.suffixCount - w.payload.length) (by omega)
      rw [show w.payload.length - w.suffixCount + (o + w.suffixCount - w.payload.length) = o by
        omega, htext] at hbelow
      rw [mem_singleton.mp hline]
      exact some.inj hbelow
    · exact absurd hline not_mem_nil

end Widening

/-- The largest of some counts, 0 if there are none. -/
def widest (counts : List Nat) : Nat := counts.foldr max 0

theorem le_widest {k : Nat} (h : k ∈ counts) : k ≤ widest counts := by
  induction counts with
  | nil => exact absurd h not_mem_nil
  | cons c counts ih =>
    rw [widest, foldr_cons]
    rcases mem_cons.mp h with rfl | h
    · exact le_max_left _ _
    · exact le_trans (ih h) (le_max_right _ _)

theorem widest_mem (h : 0 < widest counts) : widest counts ∈ counts := by
  induction counts with
  | nil => exact absurd h (lt_irrefl _)
  | cons c counts ih =>
    have hcons : widest (c :: counts) = max c (widest counts) := rfl
    rw [hcons] at h ⊢
    rcases Nat.le_total (widest counts) c with hle | hle
    · rw [max_eq_left hle]
      exact mem_cons_self
    · rw [max_eq_right hle] at h ⊢
      exact mem_cons_of_mem _ (ih h)

variable (ws : List Widening)

def widestAbove (line : Nat) : Nat :=
  widest ((ws.filter fun w => w.start = line).map Widening.prefixCount)

def widestBelow (line : Nat) : Nat :=
  widest ((ws.filter fun w => w.last = line).map Widening.suffixCount)

/-- `x` emits the lines above and `y` the lines below, in this order: `x` comes
before `y`, or they are one replacement whose payload has room for both blocks. -/
def EmitsInOrder (x y : Widening) : Prop :=
  [x, y] <+ ws ∨ (x = y ∧ x.prefixCount + x.suffixCount ≤ x.payload.length)

instance (ws : List Widening) (x y : Widening) : Decidable (EmitsInOrder ws x y) :=
  inferInstanceAs (Decidable (_ ∨ _))

/-- `y` emits every line that is widened over below its last line, and what is
widened over above its first line is emitted before. -/
def EmitsBelow (y : Widening) : Prop :=
  y.suffixCount = widestBelow ws y.last ∧
    (widestAbove ws y.start = 0 ∨
      ∃ x ∈ ws, x.start = y.start ∧ x.prefixCount = widestAbove ws y.start ∧ EmitsInOrder ws x y)

instance (ws : List Widening) (y : Widening) : Decidable (EmitsBelow ws y) :=
  inferInstanceAs (Decidable (_ ∧ _))

/-- Wherever lines below a replacement are widened over, some replacement ending there emits
them all, after the lines above it. -/
def Harmless : Prop :=
  ∀ w ∈ ws, 0 < w.suffixCount → ∃ y ∈ ws, y.last = w.last ∧ EmitsBelow ws y

instance (ws : List Widening) : Decidable (Harmless ws) :=
  inferInstanceAs (Decidable (∀ _ ∈ _, _))

/-- Every replacement inserts at its first line. -/
def WellPlaced : Prop := ∀ w ∈ ws, ∀ a ∈ w.anchors, a = w.start

instance (ws : List Widening) : Decidable (WellPlaced ws) :=
  inferInstanceAs (Decidable (∀ _ ∈ _, ∀ _ ∈ _, _))

/-! ## Putting survivors back -/

variable (deleted : Nat → Bool)

/-- The lines that are gone when the replacements are widened. -/
def removed (line : Nat) : Bool :=
  deleted line || ws.any fun w => decide (w.Above line ∨ w.Below line)

theorem removed_eq_true {ws : List Widening} {deleted : Nat → Bool} : removed ws deleted line = true ↔
    deleted line = true ∨ ∃ w ∈ ws, w.Above line ∨ w.Below line := by
  simp [removed]

/-- What can be found in the output, line by line: the file lines a text repeats, and the
lines that stay. -/
def offered (n : Nat) : List (List Nat) :=
  (range' 1 n).flatMap fun line =>
    (ws.flatMap fun w => w.copiesAt line) ++ if removed ws deleted line then [] else [[line]]

/-- **No widening loses a line**: the lines the caller does not delete are found in file
order among what is offered, each at a place of its own. -/
def PutsBack (n : Nat) : Prop :=
  SublistForall₂ (· ∈ ·) ((range' 1 n).filter fun line => !deleted line) (offered ws deleted n)

/-! ## Where a survivor is emitted -/

/-- The replacement that emits the lines below an end line. -/
def emitterBelow (line : Nat) : Option Widening :=
  ws.find? fun y => y.last = line ∧ EmitsBelow ws y

/-- The replacement at a start line that emits lines below its last line. -/
def emitterAt (line : Nat) : Option Widening :=
  ws.find? fun y => y.start = line ∧ 0 < y.suffixCount ∧ emitterBelow ws y.last = some y

/-- The lines above that are found at a start line. -/
def assignedAbove (line : Nat) : List Nat :=
  List.range' (line - widestAbove ws line) (widestAbove ws line)

/-- The lines below that are found at a start line; lines another replacement
emits from below are left to it. -/
def assignedBelow (line : Nat) : List Nat :=
  match emitterAt ws line with
  | none => []
  | some y => (List.range' (y.last + 1) y.suffixCount).filter fun l => ¬ ∃ w ∈ ws, w.Above l

/-- The survivors found at a line. -/
def assigned (line : Nat) : List Nat :=
  assignedAbove ws line ++ (if deleted line then [] else [line]) ++ assignedBelow ws line

theorem emitterBelow_spec {ws : List Widening} {y : Widening} (h : emitterBelow ws line = some y) :
    y ∈ ws ∧ y.last = line ∧ EmitsBelow ws y := by
  have hprop := find?_some h
  rw [decide_eq_true_eq] at hprop
  exact ⟨mem_of_find?_eq_some h, hprop⟩

theorem emitterAt_spec {ws : List Widening} {y : Widening} (h : emitterAt ws line = some y) :
    y ∈ ws ∧ y.start = line ∧ 0 < y.suffixCount ∧ emitterBelow ws y.last = some y := by
  have hprop := find?_some h
  rw [decide_eq_true_eq] at hprop
  exact ⟨mem_of_find?_eq_some h, hprop⟩

section Assigned
variable {ws : List Widening} {fileLines : List JsString} {target : Nat → Prop}
  {deleted deleted' : Nat → Bool} {line b : Nat}

theorem exists_of_widestAbove_pos (h : 0 < widestAbove ws line) :
    ∃ w ∈ ws, w.start = line ∧ w.prefixCount = widestAbove ws line := by
  obtain ⟨w, hw, hcount⟩ := mem_map.mp (widest_mem h)
  obtain ⟨hmem, hstart⟩ := mem_filter.mp hw
  exact ⟨w, hmem, of_decide_eq_true hstart, hcount⟩

theorem le_widestAbove {w : Widening} (hw : w ∈ ws) : w.prefixCount ≤ widestAbove ws w.start :=
  le_widest (mem_map_of_mem (mem_filter.mpr ⟨hw, by simp⟩))

theorem le_widestBelow {w : Widening} (hw : w ∈ ws) : w.suffixCount ≤ widestBelow ws w.last :=
  le_widest (mem_map_of_mem (mem_filter.mpr ⟨hw, by simp⟩))

theorem widestAbove_le (hfits : ∀ w ∈ ws, w.Fits fileLines target deleted) (line : Nat) :
    widestAbove ws line ≤ line := by
  rcases Nat.eq_zero_or_pos (widestAbove ws line) with h | h
  · omega
  · obtain ⟨w, hw, hstart, hcount⟩ := exists_of_widestAbove_pos h
    have := (hfits w hw).above_lt
    omega

theorem mem_assignedAbove (hfits : ∀ w ∈ ws, w.Fits fileLines target deleted) {l : Nat} :
    l ∈ assignedAbove ws line ↔ ∃ w ∈ ws, w.start = line ∧ w.Above l := by
  have hle := widestAbove_le hfits line
  rw [assignedAbove, mem_range'_1]
  constructor
  · intro h
    obtain ⟨w, hw, hstart, hcount⟩ := exists_of_widestAbove_pos (show 0 < widestAbove ws line by omega)
    exact ⟨w, hw, hstart, by unfold Widening.Above; omega⟩
  · rintro ⟨w, hw, rfl, habove⟩
    have := le_widestAbove hw
    unfold Widening.Above at habove
    omega

theorem mem_assignedBelow {l : Nat} : l ∈ assignedBelow ws line ↔
      ∃ y, emitterAt ws line = some y ∧ y.Below l ∧ ¬ ∃ w ∈ ws, w.Above l := by
  unfold assignedBelow
  split
  case h_1 hnone => simp [hnone]
  case h_2 y hsome =>
    rw [mem_filter, mem_range'_1, decide_eq_true_eq, hsome]
    constructor
    · rintro ⟨hrange, hfree⟩
      exact ⟨y, rfl, by unfold Widening.Below; omega, hfree⟩
    · rintro ⟨y', hy', hbelow, hfree⟩
      obtain rfl := some.inj hy'
      unfold Widening.Below at hbelow
      exact ⟨by omega, hfree⟩

theorem mem_assigned (hfits : ∀ w ∈ ws, w.Fits fileLines target deleted) {l : Nat} :
    l ∈ assigned ws deleted' line ↔
      (∃ w ∈ ws, w.start = line ∧ w.Above l) ∨ (l = line ∧ deleted' line = false) ∨
        ∃ y, emitterAt ws line = some y ∧ y.Below l ∧ ¬ ∃ w ∈ ws, w.Above l := by
  rw [assigned, mem_append, mem_append, mem_assignedAbove hfits, mem_assignedBelow, or_assoc]
  refine or_congr_right (or_congr_left ?_)
  cases deleted' line <;> simp

/-- The assumptions of the assignment: the widenings fit, deleted lines are
targets, and the code deletes exactly the caller's lines and the widened ones. -/
structure Widened (ws : List Widening) (fileLines : List JsString) (target : Nat → Prop)
    (deleted deleted' : Nat → Bool) : Prop where
  fits : ∀ w ∈ ws, w.Fits fileLines target deleted
  target_of_deleted : ∀ line, deleted line = true → target line
  deleted_iff : ∀ line,
    deleted' line = true ↔ deleted line = true ∨ ∃ w ∈ ws, w.Above line ∨ w.Below line

variable (hw : Widened ws fileLines target deleted deleted')
include hw

theorem Widened.target_of_covered {w : Widening} (hmem : w ∈ ws) (h₁ : w.start ≤ line)
    (h₂ : line ≤ w.last) : target line :=
  hw.target_of_deleted line ((hw.fits w hmem).covered line h₁ h₂)

/-- Two replacements that both widen downwards and of which one starts inside the
other end at the same line. -/
theorem Widened.last_eq {y z : Widening} (hy : y ∈ ws) (hz : z ∈ ws) (hyq : 0 < y.suffixCount)
    (hzq : 0 < z.suffixCount) (hle : y.start ≤ z.start) (hin : z.start ≤ y.last) :
    y.last = z.last := by
  have hz_le := (hw.fits z hz).start_le
  rcases Nat.lt_trichotomy y.last z.last with h | h | h
  · -- the line below `y` is covered by `z`
    have := (hw.fits y hy).below_free (y.last + 1) ⟨by omega, by omega⟩
    exact absurd (hw.target_of_covered hz (by omega) (by omega)) this
  · exact h
  · have := (hw.fits z hz).below_free (z.last + 1) ⟨by omega, by omega⟩
    exact absurd (hw.target_of_covered hy (by omega) (by omega)) this

/-- **The assignment is increasing.** -/
theorem Widened.assigned_lt {c l m : Nat} (hbc : b < c) (hl : l ∈ assigned ws deleted' b)
    (hm : m ∈ assigned ws deleted' c) : l < m := by
  rw [mem_assigned hw.fits] at hl hm
  -- a line below a replacement at `b` and a start line `c`
  have hpast : ∀ {y : Widening}, emitterAt ws b = some y → target c →
      (c ≤ y.last ∧ 0 < y.suffixCount) ∨ y.last + y.suffixCount < c := by
    intro y hy htarget
    obtain ⟨hmem, _, hq, _⟩ := emitterAt_spec hy
    by_contra hnot
    exact (hw.fits y hmem).below_free c ⟨by omega, by omega⟩ htarget
  rcases hm with ⟨z, hz, hzstart, hzabove⟩ | ⟨rfl, hkept⟩ | ⟨z, hz, hzbelow, hzfree⟩
  · -- `m` is above a replacement `z` at `c`
    have hfree : ∀ line, m ≤ line → line < c → ¬ target line := by
      intro line h₁ h₂
      exact (hw.fits z hz).above_free line ⟨by unfold Widening.Above at hzabove; omega, by omega⟩
    have hmc : m < c := by unfold Widening.Above at hzabove; omega
    have htc : target c := hw.target_of_covered hz (by omega) (by have := (hw.fits z hz).start_le; omega)
    rcases hl with ⟨w, hwmem, hwstart, hwabove⟩ | ⟨rfl, hkept⟩ | ⟨y, hy, hybelow, hyfree⟩
    · have htb : target b :=
        hw.target_of_covered hwmem (by omega) (by have := (hw.fits w hwmem).start_le; omega)
      have hlb : l < b := by unfold Widening.Above at hwabove; omega
      by_contra hnot
      exact hfree b (by omega) hbc htb
    · by_contra hnot
      have habove : z.Above l := ⟨by unfold Widening.Above at hzabove; omega, by omega⟩
      have := (hw.deleted_iff l).mpr (Or.inr ⟨z, hz, Or.inl habove⟩)
      simp [this] at hkept
    · obtain ⟨hmem, hstart, _, _⟩ := emitterAt_spec hy
      rcases hpast hy htc with ⟨hin, _⟩ | hpast
      · exact absurd (hw.target_of_covered hmem (show y.start ≤ c - 1 by omega) (by omega))
          (hfree (c - 1) (by omega) (by omega))
      · by_contra hnot
        refine hyfree ⟨z, hz, ?_, ?_⟩
        · unfold Widening.Above at hzabove
          omega
        · unfold Widening.Below at hybelow
          omega
  · -- `m` is a line the code keeps
    rcases hl with ⟨w, hwmem, hwstart, hwabove⟩ | ⟨rfl, _⟩ | ⟨y, hy, hybelow, hyfree⟩
    · unfold Widening.Above at hwabove
      omega
    · exact hbc
    · obtain ⟨hmem, hstart, _, _⟩ := emitterAt_spec hy
      have hnotdel : ¬ deleted' m = true := by simp [hkept]
      by_contra hnot
      refine hnotdel ((hw.deleted_iff m).mpr ?_)
      by_cases hin : m ≤ y.last
      · exact Or.inl ((hw.fits y hmem).covered m (by omega) hin)
      · refine Or.inr ⟨y, hmem, Or.inr ⟨by omega, ?_⟩⟩
        unfold Widening.Below at hybelow
        omega
  · -- `m` is below a replacement `z` at `c`
    obtain ⟨hzmem, hzstart, hzq, hzemit⟩ := emitterAt_spec hz
    have hzle := (hw.fits z hzmem).start_le
    have hmc : c < m := by unfold Widening.Below at hzbelow; omega
    rcases hl with ⟨w, hwmem, hwstart, hwabove⟩ | ⟨rfl, _⟩ | ⟨y, hy, hybelow, hyfree⟩
    · unfold Widening.Above at hwabove
      omega
    · omega
    · obtain ⟨hmem, hstart, hyq, hyemit⟩ := emitterAt_spec hy
      rcases hpast hy (hw.target_of_covered hzmem (by omega) (by omega)) with ⟨hin, _⟩ | hpast
      · -- both end at one line, which has one emitter
        have hlast := hw.last_eq hmem hzmem hyq hzq (by omega) (by omega)
        rw [hlast, hzemit] at hyemit
        obtain rfl := some.inj hyemit
        omega
      · unfold Widening.Below at hybelow
        omega

theorem Widened.assigned_pairwise (b : Nat) : (assigned ws deleted' b).Pairwise (· < ·) := by
  have habove : ∀ l ∈ assignedAbove ws b, l < b := by
    intro l hl
    obtain ⟨w, _, rfl, h⟩ := (mem_assignedAbove hw.fits).mp hl
    exact h.2
  have hbelow : ∀ l ∈ assignedBelow ws b, b < l := by
    intro l hl
    obtain ⟨y, hy, h, _⟩ := mem_assignedBelow.mp hl
    obtain ⟨hmem, rfl, _, _⟩ := emitterAt_spec hy
    exact lt_of_le_of_lt (hw.fits y hmem).start_le h.1
  have hself : ∀ l ∈ (if deleted' b then [] else [b]), l = b := by
    intro l hl
    cases hdel : deleted' b <;> simp_all
  have hbelowPairwise : (assignedBelow ws b).Pairwise (· < ·) := by
    unfold assignedBelow
    split
    · exact List.Pairwise.nil
    · exact List.Pairwise.filter _ pairwise_lt_range'
  unfold assigned
  rw [pairwise_append, pairwise_append]
  refine ⟨⟨pairwise_lt_range', ?_, ?_⟩, hbelowPairwise, ?_⟩
  · cases deleted' b <;> simp
  · intro l hl m hm
    rw [hself m hm]
    exact habove l hl
  · intro l hl m hm
    have hlt := hbelow m hm
    rcases mem_append.mp hl with hl | hl
    · exact lt_trans (habove l hl) hlt
    · rw [hself l hl]
      exact hlt

/-- **Every survivor is assigned to a line.** -/
theorem Widened.exists_assigned (hharmless : Harmless ws) (hline : 1 ≤ line)
    (hle : line ≤ fileLines.length) (hkept : deleted line = false) :
    ∃ b, 1 ≤ b ∧ b ≤ fileLines.length ∧ line ∈ assigned ws deleted' b := by
  have hrange : ∀ w ∈ ws, 1 ≤ w.start ∧ w.start ≤ fileLines.length := by
    intro w hmem
    have h₁ := (hw.fits w hmem).above_lt
    have h₂ := (hw.fits w hmem).start_le
    have h₃ := (hw.fits w hmem).below_le
    omega
  by_cases habove : ∃ w ∈ ws, w.Above line
  · obtain ⟨w, hmem, h⟩ := habove
    exact ⟨w.start, (hrange w hmem).1, (hrange w hmem).2,
      (mem_assigned hw.fits).mpr (Or.inl ⟨w, hmem, rfl, h⟩)⟩
  by_cases hbelow : ∃ w ∈ ws, w.Below line
  · obtain ⟨w, hmem, hb⟩ := hbelow
    have hwq : 0 < w.suffixCount := by
      unfold Widening.Below at hb
      omega
    -- the emitter of the lines below `w.last`
    obtain ⟨y, hy⟩ : ∃ y, emitterBelow ws w.last = some y := by
      obtain ⟨y, hy, hlast, hemits⟩ := hharmless w hmem hwq
      exact Option.isSome_iff_exists.mp (find?_isSome.mpr ⟨y, hy, decide_eq_true ⟨hlast, hemits⟩⟩)
    obtain ⟨hymem, hylast, hyemits⟩ := emitterBelow_spec hy
    have hycount : w.suffixCount ≤ y.suffixCount := by
      rw [hyemits.1, hylast]
      exact le_widestBelow hmem
    obtain ⟨z, hz⟩ : ∃ z, emitterAt ws y.start = some z :=
      Option.isSome_iff_exists.mp
        (find?_isSome.mpr ⟨y, hymem, decide_eq_true ⟨rfl, by omega, hylast ▸ hy⟩⟩)
    obtain ⟨hzmem, hzstart, hzq, hzemit⟩ := emitterAt_spec hz
    have hlast : y.last = z.last := hw.last_eq hymem hzmem (by omega) hzq (by omega)
      (by have := (hw.fits y hymem).start_le; omega)
    have hyz : y = z := by
      rw [← hlast, hylast, hy] at hzemit
      exact some.inj hzemit
    subst hyz
    refine ⟨y.start, (hrange y hymem).1, (hrange y hymem).2,
      (mem_assigned hw.fits).mpr (Or.inr (Or.inr ⟨y, hz, ?_, habove⟩))⟩
    unfold Widening.Below at hb ⊢
    omega
  · have hnot : deleted' line = false := by
      rw [← Bool.not_eq_true, hw.deleted_iff]
      rintro (h | ⟨w, hmem, h | h⟩)
      · simp [h] at hkept
      · exact habove ⟨w, hmem, h⟩
      · exact hbelow ⟨w, hmem, h⟩
    exact ⟨line, hline, hle, (mem_assigned hw.fits).mpr (Or.inr (Or.inl ⟨rfl, hnot⟩))⟩

theorem Widened.found_assignedAbove {x : Widening} (hx : x ∈ ws)
    (hcount : x.prefixCount = widestAbove ws x.start) :
    SublistForall₂ (· ∈ ·) (assignedAbove ws x.start) (x.copies.take x.prefixCount) := by
  rw [assignedAbove, ← hcount]
  exact (hw.fits x hx).found_above

theorem Widened.found_assignedBelow {y : Widening} (hy : emitterAt ws b = some y) :
    SublistForall₂ (· ∈ ·) (assignedBelow ws b)
      (y.copies.drop (y.payload.length - y.suffixCount)) := by
  have hfound := (hw.fits y (emitterAt_spec hy).1).found_below
  unfold assignedBelow
  rw [hy]
  exact sublistForall₂_mono filter_sublist hfound (Sublist.refl _)

/-- **What is assigned to a line is found there.** -/
theorem Widened.found_assigned (hplaced : WellPlaced ws) :
    SublistForall₂ (· ∈ ·) (assigned ws deleted' b)
      ((ws.flatMap fun w => w.copiesAt b) ++ if deleted' b then [] else [[b]]) := by
  -- a start line is deleted, so everything is found among the inserted texts
  have hstart : ∀ w ∈ ws, w.start = b → deleted' b = true := by
    rintro w hmem rfl
    exact (hw.deleted_iff _).mpr
      (Or.inl ((hw.fits w hmem).covered _ le_rfl (hw.fits w hmem).start_le))
  have hcopies : ∀ l, l <+ ws → (∀ w ∈ l, w.start = b) →
      l.flatMap Widening.copies <+ ws.flatMap fun w => w.copiesAt b := by
    intro l hl hb
    refine Sublist.trans ?_ (hl.flatMap _)
    refine Sublist.flatMap_right _ fun w hmem => ?_
    have hat := (hw.fits w (hl.subset hmem)).copiesAt_start (hplaced w (hl.subset hmem))
    rw [← hb w hmem, hat]
  have hone : ∀ w ∈ ws, w.start = b → w.copies <+ ws.flatMap fun w => w.copiesAt b := by
    intro w hmem hb
    simpa using hcopies [w] (singleton_sublist.mpr hmem) (by simpa using hb)
  have hsuffices : ∀ w ∈ ws, w.start = b →
      SublistForall₂ (· ∈ ·) (assignedAbove ws b ++ assignedBelow ws b)
        (ws.flatMap fun w => w.copiesAt b) →
      SublistForall₂ (· ∈ ·) (assigned ws deleted' b)
        ((ws.flatMap fun w => w.copiesAt b) ++ if deleted' b then [] else [[b]]) := by
    intro w hmem hb h
    simpa [assigned, hstart w hmem hb] using h
  cases hy : emitterAt ws b with
  | none =>
    have hnobelow : assignedBelow ws b = [] := by
      rw [assignedBelow, hy]
    rcases Nat.eq_zero_or_pos (widestAbove ws b) with hzero | hpos
    · have hnoabove : assignedAbove ws b = [] := by
        rw [assignedAbove, hzero]
        rfl
      rw [assigned, hnoabove, hnobelow, nil_append, append_nil]
      refine sublistForall₂_mono (Sublist.refl _) ?_ (sublist_append_right _ _)
      cases deleted' b
      · exact .cons (mem_singleton_self b) .nil
      · exact .nil
    · obtain ⟨x, hx, hxb, hcount⟩ := exists_of_widestAbove_pos hpos
      refine hsuffices x hx hxb ?_
      subst hxb
      rw [hnobelow, append_nil]
      exact sublistForall₂_mono (Sublist.refl _) (hw.found_assignedAbove hx hcount)
        ((take_sublist _ _).trans (hone x hx rfl))
  | some y =>
    obtain ⟨hymem, hyb, hyq, hyemit⟩ := emitterAt_spec hy
    refine hsuffices y hymem hyb ?_
    have hbelow := hw.found_assignedBelow hy
    obtain ⟨_, _, _, horder⟩ := emitterBelow_spec hyemit
    rcases horder with hzero | ⟨x, hx, hxy, hcount, horder⟩
    · have hnoabove : assignedAbove ws b = [] := by
        rw [assignedAbove, ← hyb, hzero]
        rfl
      rw [hnoabove, nil_append]
      exact sublistForall₂_mono (Sublist.refl _) hbelow
        ((drop_sublist _ _).trans (hone y hymem hyb))
    · have hxb : x.start = b := hxy.trans hyb
      have habove : SublistForall₂ (· ∈ ·) (assignedAbove ws b) (x.copies.take x.prefixCount) := by
        rw [← hxb]
        exact hw.found_assignedAbove hx (hcount.trans (by rw [hxy]))
      have hboth := sublistForall₂_append habove hbelow
      refine sublistForall₂_mono (Sublist.refl _) hboth ?_
      rcases horder with hbefore | ⟨rfl, hroom⟩
      · -- the payload of `x` comes before the payload of `y`
        have hcopied : x.copies ++ y.copies <+ ws.flatMap fun w => w.copiesAt b := by
          simpa using hcopies [x, y] hbefore (by simp [hxb, hyb])
        exact ((take_sublist _ _).append (drop_sublist _ _)).trans hcopied
      · -- one payload with room for both blocks
        refine Sublist.trans ?_ (hone x hx hxb)
        conv_rhs => rw [← take_append_drop x.prefixCount x.copies]
        exact Sublist.append (Sublist.refl _) (drop_sublist_drop_left _ (by omega))

end Assigned

section PutsBack
variable {ws : List Widening} {fileLines : List JsString} {deleted : Nat → Bool}

/-- **Harmless widenings put every survivor back.** -/
theorem putsBack_of_harmless {target : Nat → Prop}
    (hw : Widened ws fileLines target deleted (removed ws deleted)) (hplaced : WellPlaced ws)
    (hharmless : Harmless ws) : PutsBack ws deleted fileLines.length := by
  have hincreasing : (range' 1 fileLines.length).Pairwise (· < ·) := pairwise_lt_range'
  refine sublistForall₂_of_emits (assigned ws (removed ws deleted))
    (fun b _ => hw.found_assigned hplaced) ?_ (hincreasing.filter _) ?_
  · rw [pairwise_flatMap]
    refine ⟨fun b _ => hw.assigned_pairwise b, ?_⟩
    exact hincreasing.imp fun hbc l hl m hm => hw.assigned_lt hbc hl hm
  · intro line hline
    obtain ⟨hmem, hkept⟩ := mem_filter.mp hline
    rw [mem_range'_1] at hmem
    obtain ⟨b, h₁, h₂, hassigned⟩ :=
      hw.exists_assigned hharmless hmem.1 (by omega) (by simpa using hkept)
    exact ⟨b, mem_range'_1.mpr ⟨h₁, by omega⟩, hassigned⟩

/-- **Survivors that are put back are in the output**, where the texts inserted at a line
contain those of the widenings. -/
theorem PutsBack.survivors_sublist {inserted : Nat → List JsString}
    (h : PutsBack ws deleted fileLines.length)
    (hinserted : ∀ b, SublistForall₂ (fun lines text => ∀ line ∈ lines, lineAt fileLines line = text)
      (ws.flatMap fun w => w.copiesAt b) (inserted b)) :
    ((range' 1 fileLines.length).filter fun line => !deleted line).map (lineAt fileLines) <+
      (range' 1 fileLines.length).flatMap fun line =>
        inserted line ++ if removed ws deleted line then [] else [lineAt fileLines line] := by
  refine map_sublist_of_sublistForall₂ (sublistForall₂_trans (fun _ _ _ hmem htext => htext _ hmem)
    h (sublistForall₂_flatMap fun b _ => sublistForall₂_append (hinserted b) ?_))
  cases removed ws deleted b
  · exact .cons (by simp) .nil
  · exact .nil

end PutsBack
end GajaeCode
