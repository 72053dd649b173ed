import Mathlib.Data.List.Flatten
import Mathlib.Data.List.Pairwise
import Mathlib.Data.List.Infix

/-! # Splices, applied from the last to the first

A list of splices that do not overlap is applied in reverse order, so that the places of the
splices that are still to come stay where they are.  What is meant is one simultaneous
substitution.  The two agree as long as no splice reaches behind the end of the list where a
later one has put something (`applyLastFirst_eq_substitute_iff`): there the places of the
splices are places in what later ones have added.
-/
namespace GajaeCode.RangeSplices
open List
variable {place : Nat}

variable {α : Type}

/-- Some elements from a place on are replaced by others. -/
structure Splice (α : Type) where
  start : Nat
  removed : Nat
  inserted : List α

/-- One splice.  What lies behind the end of the list is cut off. -/
def Splice.apply (s : Splice α) (l : List α) : List α :=
  l.take s.start ++ (s.inserted ++ l.drop (s.start + s.removed))

def applyLastFirst (splices : List (Splice α)) (l : List α) : List α :=
  splices.foldr Splice.apply l

/-- The substitution of all ranges at once, from a place on. -/
def substitute (l : List α) : Nat → List (Splice α) → List α
  | place, [] => l.drop place
  | place, s :: rest =>
      (l.drop place).take (s.start - place) ++
        (s.inserted ++ substitute l (s.start + s.removed) rest)

/-- The splices stand behind the place and behind each other. -/
def Ordered : Nat → List (Splice α) → Prop
  | _, [] => True
  | place, s :: rest => place ≤ s.start ∧ Ordered (s.start + s.removed) rest

def added (splices : List (Splice α)) : List α := splices.flatMap Splice.inserted

/-- No splice reaches behind the end of a list of the length, unless nothing is put in after it
or it does nothing: it puts in nothing and its place is behind what is put in after it. -/
def Fits (length : Nat) : List (Splice α) → Prop
  | [] => True
  | s :: rest =>
      Fits length rest ∧
        (s.start + s.removed ≤ length ∨ added rest = [] ∨
          s.inserted = [] ∧ length < s.start ∧
            (s.removed = 0 ∨ length + (added rest).length ≤ s.start))

/-- No element is put in by two splices. -/
def Fresh (splices : List (Splice α)) : Prop :=
  splices.Pairwise fun s t => ∀ u ∈ s.inserted, u ∉ t.inserted

theorem Ordered.mono {place' : Nat} (hle : place ≤ place') :
    ∀ {splices : List (Splice α)}, Ordered place' splices → Ordered place splices
  | [], _ => trivial
  | _ :: _, h => ⟨hle.trans h.1, h.2⟩

variable {splices : List (Splice α)}

theorem take_applyLastFirst {l : List α} (hplace : place ≤ l.length) (h : Ordered place splices) :
    (applyLastFirst splices l).take place = l.take place := by
  induction splices with
  | nil => rfl
  | cons s rest ih =>
    have hrest : (applyLastFirst rest l).take place = l.take place :=
      ih (h.2.mono (h.1.trans (Nat.le_add_right ..)))
    have hlength : place ≤ (applyLastFirst rest l).length := by
      have := congrArg length hrest
      rw [length_take, length_take] at this
      omega
    have hkept : place ≤ ((applyLastFirst rest l).take s.start).length := by
      rw [length_take]
      exact Nat.le_min.mpr ⟨h.1, hlength⟩
    show (Splice.apply s (applyLastFirst rest l)).take place = l.take place
    rw [Splice.apply, take_append_of_le_length hkept, take_take, Nat.min_eq_left h.1,
      hrest]

section
variable {l : List α} (hplace : l.length ≤ place) (h : Ordered place splices)
include hplace h

theorem applyLastFirst_overflow : ∃ overflow, applyLastFirst splices l = l ++ overflow ∧
      overflow.length ≤ (added splices).length ∧ ∀ u ∈ overflow, u ∈ added splices := by
  induction splices generalizing place with
  | nil => exact ⟨[], (append_nil l).symm, le_rfl, fun u hu => hu⟩
  | cons s rest ih =>
    obtain ⟨overflow, heq, hlength, hmem⟩ :=
      ih (hplace.trans (h.1.trans (Nat.le_add_right ..))) h.2
    have hstart : l.length ≤ s.start := hplace.trans h.1
    refine ⟨overflow.take (s.start - l.length) ++
      (s.inserted ++ overflow.drop (s.start + s.removed - l.length)), ?_, ?_, ?_⟩
    · show Splice.apply s (applyLastFirst rest l) = _
      rw [heq, Splice.apply, take_append, drop_append, take_of_length_le hstart,
        drop_of_length_le (by omega), nil_append, append_assoc]
    · rw [added, flatMap_cons, length_append, length_append, length_append,
        length_take, length_drop]
      rw [added] at hlength
      omega
    · intro u hu
      rw [added, flatMap_cons, mem_append]
      rw [mem_append, mem_append] at hu
      rcases hu with hu | hu | hu
      · exact .inr (hmem u (mem_of_mem_take hu))
      · exact .inl hu
      · exact .inr (hmem u (mem_of_mem_drop hu))

theorem substitute_overflow : substitute l place splices = added splices := by
  induction splices generalizing place with
  | nil => exact drop_of_length_le hplace
  | cons s rest ih =>
    rw [substitute, drop_of_length_le hplace, take_nil, nil_append,
      ih (hplace.trans (h.1.trans (Nat.le_add_right ..))) h.2]
    rfl

end

theorem fits_of_added_eq_nil {length : Nat} (h : added splices = []) : Fits length splices := by
  induction splices with
  | nil => trivial
  | cons s rest ih =>
    rw [added, flatMap_cons, append_eq_nil_iff] at h
    exact ⟨ih h.2, .inr (.inl h.2)⟩

/-! ## One substitution -/

/-- A splice that stays within the list leaves what is behind it to the splices after it. -/
theorem drop_apply_of_fits {l : List α} {s : Splice α} {rest : List (Splice α)}
    (hplace : place ≤ s.start) (hfits : s.start + s.removed ≤ l.length)
    (h : Ordered (s.start + s.removed) rest) : (s.apply (applyLastFirst rest l)).drop place =
      (l.drop place).take (s.start - place) ++
        (s.inserted ++ (applyLastFirst rest l).drop (s.start + s.removed)) := by
  have hkept : (applyLastFirst rest l).take s.start = l.take s.start :=
    take_applyLastFirst (by omega) (h.mono (Nat.le_add_right ..))
  have hlength : place ≤ (l.take s.start).length := by
    rw [length_take]
    omega
  rw [Splice.apply, hkept, drop_append_of_le_length hlength, drop_take]

/-- What is taken from a list and put back in order is the list itself, if nothing gets lost. -/
theorem take_append_drop_add {l : List α} {n removed : Nat} (h : removed = 0 ∨ l.length ≤ n) :
    l.take n ++ l.drop (n + removed) = l := by
  rcases h with rfl | hle
  · exact take_append_drop n l
  · rw [take_of_length_le hle, drop_of_length_le (by omega), append_nil]

/-- Only if nothing gets lost and nothing comes in between. -/
theorem take_append_drop_eq_iff {overflow inserted later : List α} {n removed : Nat}
    (hn : 0 < n) (hlater : later ≠ []) (hle : overflow.length ≤ later.length)
    (hfresh : ∀ u ∈ inserted, u ∉ overflow) :
    overflow.take n ++ (inserted ++ overflow.drop (n + removed)) = inserted ++ later ↔
      overflow = later ∧ inserted = [] ∧ (removed = 0 ∨ later.length ≤ n) := by
  have hpos : 0 < later.length := length_pos_of_ne_nil hlater
  constructor
  · intro heq
    have hlengths := congrArg length heq
    simp only [length_append, length_take, length_drop] at hlengths
    have hkept : removed = 0 ∨ overflow.length ≤ n := by omega
    have hinserted : inserted = [] := by
      -- Otherwise the first element would come from both.
      cases inserted with
      | nil => rfl
      | cons u us =>
        cases overflow with
        | nil => simp only [length_nil] at hlengths; omega
        | cons v vs =>
          obtain ⟨k, rfl⟩ : ∃ k, n = k + 1 := ⟨n - 1, by omega⟩
          have huv : v = u := (cons.inj heq).1
          exact absurd (huv ▸ mem_cons_self) (hfresh u mem_cons_self)
    subst hinserted
    rw [nil_append, nil_append, take_append_drop_add hkept] at heq
    subst heq
    exact ⟨rfl, rfl, hkept⟩
  · rintro ⟨rfl, rfl, hkept⟩
    exact take_append_drop_add hkept

/-- Behind the end, nothing but a splice that does nothing leaves alone what is there. -/
theorem drop_apply_overflow_iff {l overflow later : List α} {s : Splice α}
    (hplace : place ≤ s.start) (hlength : place ≤ l.length) (hend : l.length < s.start + s.removed)
    (hlater : later ≠ []) (hle : overflow.length ≤ later.length)
    (hfresh : ∀ u ∈ s.inserted, u ∉ overflow) : (s.apply (l ++ overflow)).drop place =
        (l.drop place).take (s.start - place) ++ (s.inserted ++ later) ↔
      overflow = later ∧ s.inserted = [] ∧ l.length < s.start ∧
        (s.removed = 0 ∨ l.length + later.length ≤ s.start) := by
  have hpos : 0 < later.length := length_pos_of_ne_nil hlater
  rcases Nat.lt_or_ge l.length s.start with hbehind | hwithin
  · obtain ⟨n, hn⟩ : ∃ n, s.start = l.length + n := ⟨s.start - l.length, by omega⟩
    have happly : s.apply (l ++ overflow) =
        l ++ (overflow.take n ++ (s.inserted ++ overflow.drop (n + s.removed))) := by
      rw [Splice.apply, hn, take_length_add_append, Nat.add_assoc,
        drop_length_add_append, append_assoc]
    have hwhole : (l.drop place).take (s.start - place) = l.drop place := by
      apply take_of_length_le
      rw [length_drop]
      omega
    rw [happly, drop_append_of_le_length hlength, hwhole, append_cancel_left_eq,
      take_append_drop_eq_iff (by omega) hlater hle hfresh]
    constructor
    · rintro ⟨hoverflow, hinserted, hkept⟩
      exact ⟨hoverflow, hinserted, hbehind, by omega⟩
    · rintro ⟨hoverflow, hinserted, -, hkept⟩
      exact ⟨hoverflow, hinserted, by omega⟩
  · refine ⟨fun heq => ?_, fun h => absurd h.2.2.1 (by omega)⟩
    -- It removes some of what is there.
    have hlengths := congrArg length heq
    simp only [Splice.apply, length_append, length_take, length_drop] at hlengths
    omega

/-- **One substitution.**  Splices in order that put in different elements, applied from the
last to the first, make the substitution exactly when they fit the list. -/
theorem applyLastFirst_eq_substitute_iff {l : List α} (hfresh : Fresh splices)
    (hplace : place ≤ l.length) (h : Ordered place splices) :
    (applyLastFirst splices l).drop place = substitute l place splices ↔ Fits l.length splices := by
  induction splices generalizing place with
  | nil => exact ⟨fun _ => trivial, fun _ => rfl⟩
  | cons s rest ih =>
    have hfreshRest := (pairwise_cons.mp hfresh).2
    show (s.apply (applyLastFirst rest l)).drop place = _ ↔ _
    rw [substitute, Fits]
    rcases Nat.lt_or_ge l.length (s.start + s.removed) with hend | hwithin
    · obtain ⟨overflow, heq, hle, hmem⟩ := applyLastFirst_overflow hend.le h.2
      have hlast := ih hfreshRest le_rfl (h.2.mono hend.le)
      rw [substitute_overflow le_rfl (h.2.mono hend.le), heq, drop_left] at hlast
      rw [heq, substitute_overflow hend.le h.2]
      by_cases hadded : added rest = []
      · obtain rfl : overflow = [] := by
          rw [hadded] at hle
          exact length_eq_zero_iff.mp (Nat.le_zero.mp hle)
        refine ⟨fun _ => ⟨fits_of_added_eq_nil hadded, .inr (.inl hadded)⟩, fun _ => ?_⟩
        have hkept : place ≤ (l.take s.start).length := by
          rw [length_take]
          exact Nat.le_min.mpr ⟨h.1, hplace⟩
        rw [Splice.apply, append_nil, hadded, drop_of_length_le hend.le,
          drop_append_of_le_length hkept, drop_take]
      · have hdisjoint : ∀ u ∈ s.inserted, u ∉ overflow := by
          intro u hu hmemu
          obtain ⟨t, ht, hut⟩ := mem_flatMap.mp (hmem u hmemu)
          exact (pairwise_cons.mp hfresh).1 t ht u hu hut
        rw [drop_apply_overflow_iff h.1 hplace hend hadded hle hdisjoint, hlast]
        constructor
        · rintro ⟨hrest, hnothing⟩
          exact ⟨hrest, .inr (.inr hnothing)⟩
        · rintro ⟨hrest, hfits | hnone | hnothing⟩
          · exact absurd hfits (Nat.not_le.mpr hend)
          · exact absurd hnone hadded
          · exact ⟨hrest, hnothing⟩
    · rw [drop_apply_of_fits h.1 hwithin h.2, append_cancel_left_eq,
        append_cancel_left_eq, ih hfreshRest hwithin h.2]
      exact ⟨fun hrest => ⟨hrest, .inl hwithin⟩, fun hboth => hboth.1⟩

section Renaming
variable {β : Type} (f : α → β)

/-- The splice with its elements renamed. -/
def Splice.map (s : Splice α) : Splice β := ⟨s.start, s.removed, s.inserted.map f⟩

theorem added_map (splices : List (Splice α)) :
    added (splices.map (Splice.map f)) = (added splices).map f := by
  rw [added, added, flatMap_map, map_flatMap]
  rfl

theorem ordered_map {place : Nat} {splices : List (Splice α)} :
    Ordered place (splices.map (Splice.map f)) ↔ Ordered place splices := by
  induction splices generalizing place with
  | nil => rfl
  | cons s rest ih => exact and_congr Iff.rfl ih

theorem fits_map {length : Nat} {splices : List (Splice α)} :
    Fits length (splices.map (Splice.map f)) ↔ Fits length splices := by
  induction splices with
  | nil => rfl
  | cons s rest ih =>
    rw [map_cons, Fits, Fits, ih, added_map, length_map, map_eq_nil_iff]
    simp only [Splice.map, map_eq_nil_iff]

theorem applyLastFirst_map (splices : List (Splice α)) (l : List α) :
    applyLastFirst (splices.map (Splice.map f)) (l.map f) = (applyLastFirst splices l).map f := by
  induction splices with
  | nil => rfl
  | cons s rest ih =>
    show (s.map f).apply (applyLastFirst (rest.map (Splice.map f)) (l.map f)) =
      (s.apply (applyLastFirst rest l)).map f
    rw [ih, Splice.apply, Splice.apply, map_append, map_append, map_take,
      map_drop]
    rfl

theorem substitute_map (l : List α) (place : Nat) (splices : List (Splice α)) :
    substitute (l.map f) place (splices.map (Splice.map f)) =
      (substitute l place splices).map f := by
  induction splices generalizing place with
  | nil => exact map_drop.symm
  | cons s rest ih =>
    rw [map_cons, substitute, substitute, map_append, map_append, map_take,
      map_drop]
    exact congrArg _ (congrArg _ (ih _))

end Renaming

end GajaeCode.RangeSplices
