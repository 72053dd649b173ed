import Mathlib.Data.List.TakeWhile

/-! # Paired delimiters

What a global replacement finds that looks for `width` delimiter elements, a body without
delimiter elements and without breaks, and `width` delimiter elements again: from the left,
and without overlaps.  A list is cut into such pairs and the elements between them.

The rules: `openAt_eq_some` says what a pair is, `segments_append` where a list may be cut
in two, and `segments_flatMap` what happens to the pairs under a substitution.
-/
namespace GajaeCode
open List Option

/-- A run of `width` elements, and the elements that no body goes across. -/
structure Delimiter (α : Type) where
  unit : α
  width : Nat
  isBreak : α → Bool
  width_pos : 0 < width
  unit_not_break : isBreak unit = false

namespace Delimiter

/-- A pair by its body, or an element outside of all pairs. -/
inductive Segment (α : Type) where
  | plain (a : α)
  | pair (body : List α)

variable {α β : Type} [DecidableEq α] [DecidableEq β] (d : Delimiter α)

def inBody (a : α) : Bool := a ≠ d.unit && !d.isBreak a

/-- What follows `n` delimiter elements. -/
def strip : Nat → List α → Option (List α)
  | 0, text => some text
  | _ + 1, [] => none
  | n + 1, a :: text => if a = d.unit then strip n text else none

/-- The body of the pair that begins here, and what follows it. -/
def openAt (text : List α) : Option (List α × List α) :=
  (d.strip d.width text).bind fun inner =>
    if inner.takeWhile d.inBody = [] then none
    else (d.strip d.width (inner.dropWhile d.inBody)).map fun after =>
      (inner.takeWhile d.inBody, after)

def segmentsFrom : Nat → List α → List (Segment α)
  | 0, _ | _ + 1, [] => []
  | fuel + 1, a :: text =>
    match d.openAt (a :: text) with
    | some (body, after) => .pair body :: segmentsFrom fuel after
    | none => .plain a :: segmentsFrom fuel text

/-- The pairs of a list, and the elements between them. -/
def segments (text : List α) : List (Segment α) := d.segmentsFrom text.length text

def Segment.body? : Segment α → Option (List α)
  | .plain _ => none
  | .pair body => some body

def bodies (text : List α) : List (List α) := (d.segments text).filterMap Segment.body?

/-- The piece of the list that a segment stands for. -/
def source : Segment α → List α
  | .plain a => [a]
  | .pair body => List.replicate d.width d.unit ++ body ++ List.replicate d.width d.unit

theorem strip_eq_some {n : Nat} {text after : List α} :
    d.strip n text = some after ↔ text = replicate n d.unit ++ after := by
  induction n generalizing text with
  | zero => simp [strip]
  | succ n ih =>
    cases text with
    | nil => simp [strip, replicate_succ]
    | cons a text =>
      rw [strip, replicate_succ, cons_append, List.cons.injEq]
      by_cases ha : a = d.unit
      · simp [ha, ih]
      · simp [ha]

variable {text : List α}

/-- Without a delimiter element at the head there is nothing to strip. -/
theorem strip_eq_none (h : text.head? ≠ some d.unit) : d.strip d.width text = none := by
  obtain ⟨n, hn⟩ : ∃ n, d.width = n + 1 := ⟨d.width - 1, by have := d.width_pos; omega⟩
  rw [hn]
  cases text with
  | nil => rfl
  | cons a text =>
    have ha : a ≠ d.unit := fun heq => h (heq ▸ rfl)
    rw [strip, if_neg ha]

theorem openAt_eq_none (h : text.head? ≠ some d.unit) : d.openAt text = none := by
  rw [openAt, d.strip_eq_none h]
  rfl

section
variable {text body after : List α} (h : d.openAt text = some (body, after))
include h

/-- **A pair.** -/
theorem openAt_eq_some :
    text = d.source (.pair body) ++ after ∧ body ≠ [] ∧ ∀ a ∈ body, d.inBody a = true := by
  rw [openAt, bind_eq_some_iff] at h
  obtain ⟨inner, hinner, h⟩ := h
  split_ifs at h with hempty
  obtain ⟨after', hafter, heq⟩ := map_eq_some_iff.mp h
  obtain ⟨rfl, rfl⟩ := Prod.mk.injEq .. ▸ heq
  have hsplit : inner = inner.takeWhile d.inBody ++ inner.dropWhile d.inBody :=
    takeWhile_append_dropWhile.symm
  rw [d.strip_eq_some.mp hafter] at hsplit
  refine ⟨?_, hempty, fun a ha => mem_takeWhile_imp ha⟩
  rw [d.strip_eq_some.mp hinner, source, append_assoc, append_assoc]
  exact congrArg _ hsplit

theorem length_of_openAt : after.length < text.length := by
  obtain ⟨rfl, hne, -⟩ := d.openAt_eq_some h
  have hpos := length_pos_iff.mpr hne
  simp only [source, length_append]
  omega

end

/-! ## Cutting a list -/

theorem segmentsFrom_eq {fuel fuel' : Nat} (h : text.length ≤ fuel)
    (h' : text.length ≤ fuel') : d.segmentsFrom fuel text = d.segmentsFrom fuel' text := by
  induction fuel generalizing fuel' text with
  | zero =>
    obtain rfl := length_eq_zero_iff.mp (Nat.le_zero.mp h)
    cases fuel' <;> rfl
  | succ fuel ih =>
    cases text with
    | nil => cases fuel' <;> rfl
    | cons a text =>
      rw [length_cons] at h h'
      obtain ⟨fuel', rfl⟩ : ∃ k, fuel' = k + 1 := ⟨fuel' - 1, by omega⟩
      rw [segmentsFrom, segmentsFrom]
      cases hopen : d.openAt (a :: text) with
      | none => exact congrArg _ (ih (by omega) (by omega))
      | some found =>
        have hlt := d.length_of_openAt hopen
        rw [length_cons] at hlt
        exact congrArg _ (ih (by omega) (by omega))

@[simp] theorem segments_nil : d.segments [] = [] := rfl

theorem segments_of_openAt {text body after : List α} (h : d.openAt text = some (body, after)) :
    d.segments text = .pair body :: d.segments after := by
  cases text with
  | nil =>
    have := d.length_of_openAt h
    simp at this
  | cons a text =>
    have hlt := d.length_of_openAt h
    rw [length_cons] at hlt
    rw [segments, length_cons, segmentsFrom, h]
    exact congrArg _ (d.segmentsFrom_eq (by omega) (Nat.le_refl _))

theorem segments_cons {a : α} (h : d.openAt (a :: text) = none) :
    d.segments (a :: text) = .plain a :: d.segments text := by
  rw [segments, length_cons, segmentsFrom, h]
  rfl

theorem segments_induction {I : List α → Prop} (nil : I [])
    (plain : ∀ a text, d.openAt (a :: text) = none → I text → I (a :: text))
    (pair : ∀ text body after, d.openAt text = some (body, after) → I after → I text)
    (text : List α) : I text := by
  induction hn : text.length using Nat.strongRecOn generalizing text with
  | ind n ih =>
    subst hn
    cases hopen : d.openAt text with
    | some found =>
      exact pair text found.1 found.2 hopen (ih _ (d.length_of_openAt hopen) _ rfl)
    | none =>
      cases text with
      | nil => exact nil
      | cons a text => exact plain a text hopen (ih _ (Nat.lt_succ_self _) _ rfl)

theorem flatMap_source (text : List α) : (d.segments text).flatMap d.source = text := by
  induction text using d.segments_induction with
  | nil => rfl
  | plain a text hopen ih => rw [d.segments_cons hopen, flatMap_cons, ih]; rfl
  | pair text body after hopen ih =>
    rw [d.segments_of_openAt hopen, flatMap_cons, ih]
    exact (d.openAt_eq_some hopen).1.symm

theorem mem_of_mem_segments {segment : Segment α}
    (h : segment ∈ d.segments text) : ∀ a ∈ d.source segment, a ∈ text := by
  intro a ha
  rw [← d.flatMap_source text]
  exact mem_flatMap.mpr ⟨segment, h, ha⟩

theorem inBody_of_mem {text body : List α} (h : .pair body ∈ d.segments text) :
    ∀ a ∈ body, d.inBody a = true := by
  induction text using d.segments_induction with
  | nil => cases h
  | plain a text hopen ih =>
    rw [d.segments_cons hopen, mem_cons] at h
    rcases h with h | h
    · cases h
    · exact ih h
  | pair text body' after hopen ih =>
    rw [d.segments_of_openAt hopen, mem_cons] at h
    rcases h with h | h
    · obtain rfl := Segment.pair.inj h
      exact (d.openAt_eq_some hopen).2.2
    · exact ih h

theorem strip_append {n : Nat} {text tail : List α} (h : tail.head? ≠ some d.unit) :
    d.strip n (text ++ tail) = (d.strip n text).map (· ++ tail) := by
  induction n generalizing text with
  | zero => rfl
  | succ n ih =>
    cases text with
    | nil =>
      cases tail with
      | nil => rfl
      | cons b tail =>
        have hb : b ≠ d.unit := fun heq => h (heq ▸ rfl)
        simp [strip, hb]
    | cons a text =>
      rw [cons_append, strip, strip]
      split_ifs
      · exact ih
      · rfl

section
variable {tail : List α} (h : (tail.dropWhile d.inBody).head? ≠ some d.unit)
include h

/-- A pair does not reach into a tail where no delimiter follows the first elements that a
body may have. -/
theorem openAt_append {text : List α} :
    d.openAt (text ++ tail) = (d.openAt text).map fun found => (found.1, found.2 ++ tail) := by
  have hhead : tail.head? ≠ some d.unit := by
    cases tail with
    | nil => exact nofun
    | cons b tail =>
      intro hb
      obtain rfl : b = d.unit := some.inj hb
      simp [inBody] at h
  have hdrop : d.strip d.width (tail.dropWhile d.inBody) = none := d.strip_eq_none h
  have hnil : d.strip d.width [] = none := d.strip_eq_none (by simp)
  rw [openAt, d.strip_append hhead, openAt]
  cases d.strip d.width text with
  | none => rfl
  | some inner =>
    simp only [map_some, bind_some]
    by_cases hall : ∀ a ∈ inner, d.inBody a = true
    · rw [dropWhile_append_of_pos hall, takeWhile_append_of_pos hall,
        takeWhile_eq_self_iff.mpr hall, dropWhile_eq_nil_iff.mpr hall, hdrop, hnil]
      split_ifs <;> rfl
    · obtain ⟨b, hb, hstop⟩ : ∃ b ∈ inner, ¬ d.inBody b = true := by
        simpa only [not_forall, exists_prop] using hall
      have htake : (inner ++ tail).takeWhile d.inBody = inner.takeWhile d.inBody := by
        rw [takeWhile_append, if_neg]
        intro hlength
        have hself := Sublist.eq_of_length (takeWhile_sublist d.inBody) hlength
        exact hstop (takeWhile_eq_self_iff.mp hself b hb)
      have hne : inner.dropWhile d.inBody ≠ [] :=
        fun hnil => hstop (dropWhile_eq_nil_iff.mp hnil b hb)
      have hdropAppend : (inner ++ tail).dropWhile d.inBody = inner.dropWhile d.inBody ++ tail := by
        rw [dropWhile_append, if_neg]
        simpa using hne
      rw [htake, hdropAppend, d.strip_append hhead]
      split_ifs
      · rfl
      · cases d.strip d.width (inner.dropWhile d.inBody) <;> rfl

/-- **Where a list may be cut in two.** -/
theorem segments_append {text : List α} :
    d.segments (text ++ tail) = d.segments text ++ d.segments tail := by
  induction text using d.segments_induction with
  | nil => rfl
  | plain a text hopen ih =>
    have hopen' : d.openAt (a :: (text ++ tail)) = none := by
      rw [← cons_append, d.openAt_append h, hopen]
      rfl
    rw [cons_append, d.segments_cons hopen', d.segments_cons hopen, ih, cons_append]
  | pair text body after hopen ih =>
    have hopen' : d.openAt (text ++ tail) = some (body, after ++ tail) := by
      rw [d.openAt_append h, hopen]
      rfl
    rw [d.segments_of_openAt hopen', d.segments_of_openAt hopen, ih, cons_append]

end

/-- Elements other than the delimiter's stay out of pairs that begin after them. -/
theorem segments_plain_append {front : List α} (h : d.unit ∉ front) (text : List α) :
    d.segments (front ++ text) = front.map .plain ++ d.segments text := by
  induction front with
  | nil => rfl
  | cons a front ih =>
    have hne : a ≠ d.unit := fun heq => h (heq ▸ mem_cons_self)
    have hopen : d.openAt (a :: (front ++ text)) = none :=
      d.openAt_eq_none fun hhead => hne (some.inj hhead)
    rw [cons_append, d.segments_cons hopen, ih fun hmem => h (.tail a hmem)]
    rfl

theorem segments_plain (h : d.unit ∉ text) : d.segments text = text.map .plain := by
  simpa using d.segments_plain_append h []

theorem segments_append_plain {text back : List α} (h : d.unit ∉ back) :
    d.segments (text ++ back) = d.segments text ++ back.map .plain := by
  rw [d.segments_append, d.segments_plain h]
  intro hhead
  exact h ((dropWhile_sublist d.inBody).mem (mem_of_mem_head? hhead))

theorem segments_break {a : α} (ha : d.isBreak a = true) (text rest : List α) :
    d.segments (text ++ a :: rest) = d.segments text ++ .plain a :: d.segments rest := by
  have hne : a ≠ d.unit := by
    rintro rfl
    rw [d.unit_not_break] at ha
    cases ha
  have hopen : d.openAt (a :: rest) = none :=
    d.openAt_eq_none fun hhead => hne (some.inj hhead)
  rw [d.segments_append, d.segments_cons hopen]
  rw [dropWhile_cons_of_neg (by simp [inBody, ha])]
  exact fun hhead => hne (some.inj hhead)

/-! ## Substitution -/

/-- What a segment becomes under a substitution of lists for elements. -/
def substitute (f : α → List β) : Segment α → List (Segment β)
  | .plain a => (f a).map .plain
  | .pair body => [.pair (body.flatMap f)]

/-- A substitution of lists for elements under which delimiters stay delimiters, breaks
stay breaks, and what a body may have becomes something that a body may have. -/
structure Substitution (d : Delimiter α) (d' : Delimiter β) (f : α → List β) : Prop where
  width : d'.width = d.width
  unit : f d.unit = [d'.unit]
  body : ∀ a, d.inBody a = true → f a ≠ [] ∧ ∀ b ∈ f a, d'.inBody b = true
  breaks : ∀ a, d.isBreak a = true → ∃ b, f a = [b] ∧ d'.isBreak b = true

section
variable {d} {d' : Delimiter β} {f : α → List β} (h : Substitution d d' f)
include h

theorem Substitution.cons (a : α) : ∃ b bs, f a = b :: bs ∧ (b = d'.unit ↔ a = d.unit) ∧
    d'.inBody b = d.inBody a := by
  by_cases ha : d.inBody a = true
  · obtain ⟨hne, hall⟩ := h.body a ha
    obtain ⟨b, bs, heq⟩ := exists_cons_of_ne_nil hne
    have hb : d'.inBody b = true := hall b (heq ▸ mem_cons_self)
    refine ⟨b, bs, heq, ⟨?_, ?_⟩, hb.trans ha.symm⟩
    · rintro rfl
      simp [inBody] at hb
    · rintro rfl
      simp [inBody] at ha
  · by_cases hunit : a = d.unit
    · subst hunit
      exact ⟨d'.unit, [], h.unit, by simp, by simp [inBody]⟩
    · have hbreak : d.isBreak a = true := by simpa [inBody, hunit] using ha
      obtain ⟨b, heq, hb⟩ := h.breaks a hbreak
      refine ⟨b, [], heq, ⟨?_, fun ha => absurd ha hunit⟩, ?_⟩
      · rintro rfl
        rw [d'.unit_not_break] at hb
        cases hb
      · simp [inBody, hb, hbreak]

theorem Substitution.strip (n : Nat) (text : List α) :
    d'.strip n (text.flatMap f) = (d.strip n text).map (flatMap f) := by
  induction n generalizing text with
  | zero => rfl
  | succ n ih =>
    cases text with
    | nil => rfl
    | cons a text =>
      rw [Delimiter.strip]
      split_ifs with ha
      · rw [ha, flatMap_cons, h.unit, singleton_append, Delimiter.strip, if_pos rfl, ih]
      · obtain ⟨b, bs, heq, hunit, -⟩ := h.cons a
        rw [flatMap_cons, heq, cons_append, Delimiter.strip, if_neg fun hb => ha (hunit.mp hb)]
        rfl

theorem Substitution.takeWhile (text : List α) :
    (text.flatMap f).takeWhile d'.inBody = (text.takeWhile d.inBody).flatMap f ∧
      (text.flatMap f).dropWhile d'.inBody = (text.dropWhile d.inBody).flatMap f := by
  induction text with
  | nil => exact ⟨rfl, rfl⟩
  | cons a text ih =>
    by_cases ha : d.inBody a = true
    · have hall := (h.body a ha).2
      rw [flatMap_cons, takeWhile_append_of_pos hall, dropWhile_append_of_pos hall,
        takeWhile_cons_of_pos ha, dropWhile_cons_of_pos ha, ih.1, ih.2]
      exact ⟨rfl, rfl⟩
    · obtain ⟨b, bs, heq, -, hb⟩ := h.cons a
      have hb' : ¬ d'.inBody b = true := by rwa [hb]
      rw [takeWhile_cons_of_neg ha, dropWhile_cons_of_neg ha, flatMap_cons, heq,
        cons_append, takeWhile_cons_of_neg hb', dropWhile_cons_of_neg hb']
      exact ⟨rfl, rfl⟩

theorem Substitution.openAt (text : List α) : d'.openAt (text.flatMap f) =
    (d.openAt text).map fun found => (found.1.flatMap f, found.2.flatMap f) := by
  rw [Delimiter.openAt, h.width, h.strip, Delimiter.openAt]
  cases d.strip d.width text with
  | none => rfl
  | some inner =>
    simp only [map_some, bind_some]
    obtain ⟨htake, hdrop⟩ := h.takeWhile inner
    rw [htake, hdrop, h.strip]
    have hnil : (inner.takeWhile d.inBody).flatMap f = [] ↔ inner.takeWhile d.inBody = [] := by
      refine ⟨fun hnil => ?_, fun hnil => by rw [hnil]; rfl⟩
      cases hinner : inner.takeWhile d.inBody with
      | nil => rfl
      | cons a body =>
        obtain ⟨b, bs, heq, -⟩ := h.cons a
        rw [hinner, flatMap_cons, heq] at hnil
        cases hnil
    by_cases hempty : inner.takeWhile d.inBody = []
    · rw [if_pos (hnil.mpr hempty), if_pos hempty]
      rfl
    · rw [if_neg (hnil.not.mpr hempty), if_neg hempty]
      cases d.strip d.width (inner.dropWhile d.inBody) <;> rfl

/-- **The pairs are the same after a substitution.** -/
theorem Substitution.segments (text : List α) :
    d'.segments (text.flatMap f) = (d.segments text).flatMap (substitute f) := by
  induction text using d.segments_induction with
  | nil => rfl
  | plain a text hopen ih =>
    rw [d.segments_cons hopen, flatMap_cons, flatMap_cons, ← ih, substitute]
    by_cases ha : a = d.unit
    · have hopen' : d'.openAt ((a :: text).flatMap f) = none := by
        rw [h.openAt, hopen]
        rfl
      subst ha
      rw [flatMap_cons, h.unit, singleton_append] at hopen'
      rw [h.unit, singleton_append, d'.segments_cons hopen']
      rfl
    · refine d'.segments_plain_append (fun hmem => ?_) _
      by_cases hbreak : d.isBreak a = true
      · obtain ⟨b, heq, hb⟩ := h.breaks a hbreak
        rw [heq, mem_singleton] at hmem
        rw [← hmem, d'.unit_not_break] at hb
        cases hb
      · have hbody := (h.body a (by simp [inBody, ha, hbreak])).2 _ hmem
        simp [inBody] at hbody
  | pair text body after hopen ih =>
    have hopen' : d'.openAt (text.flatMap f) = some (body.flatMap f, after.flatMap f) := by
      rw [h.openAt, hopen]
      rfl
    rw [d.segments_of_openAt hopen, d'.segments_of_openAt hopen', ih, flatMap_cons]
    rfl

end

end Delimiter
end GajaeCode
