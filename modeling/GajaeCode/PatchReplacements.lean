import GajaeCode.PatchMatchers
import GajaeCode.RangeSplices

/-! # Applying replacements

`applyReplacements` of `packages/coding-agent/src/edit/modes/patch.ts` splices the replacements
that `computeReplacements` has accepted into the lines, from the last to the first.  They are
sorted and do not overlap, so this is one simultaneous substitution as long as they fit the
file.  They need not: behind the last line the search for characters finds a line of white
space in an empty text, and two replacements there run into each other.
-/
namespace GajaeCode.PatchEdit
open JsString FuzzySearch RangeSplices List
variable {replacements : List Replacement}

/-- `result.splice(start, deleteCount, ...items)`. -/
def splice {α : Type} (result : List α) (start deleteCount : Nat) (items : List α) : List α :=
  result.take start ++ (items ++ result.drop (start + deleteCount))

def applyReplacements {α : Type} (lines : List α) (replacements : List (Splice α)) : List α :=
  replacements.reverse.foldl
    (fun result r => splice (splice result r.start r.removed []) r.start 0 r.inserted) lines

def Replacement.toSplice (r : Replacement) : Splice JsString :=
  ⟨r.startIndex, r.oldLen, r.newLines⟩

/-- Where a line of the result comes from: a line of the file, or a line of a replacement. -/
inductive Origin where
  | file (index : Nat)
  | replacement (number index : Nat)
deriving DecidableEq

def traced (origin : Nat → Origin) (lines : List JsString) : List (JsString × Origin) :=
  lines.mapIdx fun i line => (line, origin i)

/-- The replacements from a number on, with the origins of their lines. -/
def tracedReplacements : (number : Nat) → List Replacement → List (Splice (JsString × Origin))
  | _, [] => []
  | number, r :: rest =>
      ⟨r.startIndex, r.oldLen, traced (.replacement number) r.newLines⟩ ::
        tracedReplacements (number + 1) rest

/-- The replacements are applied as one substitution: every range is replaced by its lines, and
all other lines stay in order, each of them the line that it was. -/
def AppliedAtOnce (lines : List JsString) (replacements : List Replacement) : Prop :=
  applyReplacements (traced .file lines) (tracedReplacements 0 replacements) =
    substitute (traced .file lines) 0 (tracedReplacements 0 replacements)

/-- The replacements fit the file: one that is followed by new lines does not reach behind its
end, or does nothing there. -/
def FitFile (lines : List JsString) (replacements : List Replacement) : Prop :=
  Fits lines.length (replacements.map Replacement.toSplice)

theorem splice_splice_eq_apply {α : Type} (result : List α) (s : Splice α) :
    splice (splice result s.start s.removed []) s.start 0 s.inserted = s.apply result := by
  have hremoved : splice result s.start s.removed [] =
      result.take s.start ++ result.drop (s.start + s.removed) := rfl
  rw [hremoved, splice, Splice.apply, Nat.add_zero]
  rcases Nat.lt_or_ge result.length s.start with hbehind | hwithin
  · rw [take_of_length_le hbehind.le, drop_of_length_le (by omega), append_nil,
      take_of_length_le hbehind.le, drop_of_length_le hbehind.le]
  · have hlength : (result.take s.start).length = s.start := by
      rw [length_take, Nat.min_eq_left hwithin]
    rw [take_left' hlength, drop_left' hlength]

theorem applyReplacements_eq {α : Type} (lines : List α) (replacements : List (Splice α)) :
    applyReplacements lines replacements = applyLastFirst replacements lines := by
  rw [applyReplacements, foldl_reverse]
  simp only [splice_splice_eq_apply]
  rfl

theorem map_traced (origin : Nat → Origin) (lines : List JsString) :
    (traced origin lines).map Prod.fst = lines := by
  apply ext_getElem?
  intro i
  rw [traced, getElem?_map, getElem?_mapIdx, Option.map_map]
  exact Option.map_id'

theorem mem_traced {origin : Nat → Origin} {lines : List JsString} {line : JsString × Origin}
    (h : line ∈ traced origin lines) : ∃ i, line.2 = origin i := by
  obtain ⟨i, hi, rfl⟩ := mem_mapIdx.mp h
  exact ⟨i, rfl⟩

theorem map_tracedReplacements (number : Nat) (replacements : List Replacement) :
    (tracedReplacements number replacements).map (Splice.map Prod.fst) =
      replacements.map Replacement.toSplice := by
  induction replacements generalizing number with
  | nil => rfl
  | cons r rest ih =>
    rw [tracedReplacements, map_cons, map_cons, ih, Splice.map, map_traced]
    rfl

theorem number_le_of_mem {number : Nat} {s : Splice (JsString × Origin)}
    (hs : s ∈ tracedReplacements number replacements) {line : JsString × Origin}
    (hline : line ∈ s.inserted) : ∃ k i, number ≤ k ∧ line.2 = .replacement k i := by
  induction replacements generalizing number with
  | nil => cases hs
  | cons r rest ih =>
    rcases mem_cons.mp hs with rfl | hrest
    · obtain ⟨i, hi⟩ := mem_traced hline
      exact ⟨number, i, le_rfl, hi⟩
    · obtain ⟨k, i, hk, hline⟩ := ih hrest
      exact ⟨k, i, Nat.le_of_succ_le hk, hline⟩

/-- No two replacements have a line of the same origin. -/
theorem fresh_tracedReplacements (number : Nat) (replacements : List Replacement) :
    Fresh (tracedReplacements number replacements) := by
  induction replacements generalizing number with
  | nil => exact List.Pairwise.nil
  | cons r rest ih =>
    refine pairwise_cons.mpr ⟨fun s hs line hline hmem => ?_, ih (number + 1)⟩
    obtain ⟨i, hi⟩ := mem_traced hline
    obtain ⟨k, j, hk, hj⟩ := number_le_of_mem hs hmem
    cases hi.symm.trans hj
    exact absurd hk (by omega)

/-! ## Accepted replacements -/

/-- The replacements that are accepted stand behind each other. -/
theorem ordered_of_firstOverlap (h : firstOverlap replacements = none) :
    Ordered 0 (replacements.map Replacement.toSplice) := by
  have hfrom : ∀ (place : Nat) (r : Replacement) (rest : List Replacement),
      firstOverlap (r :: rest) = none → place ≤ r.startIndex →
        Ordered place ((r :: rest).map Replacement.toSplice) := by
    intro place r rest hrest hplace
    induction rest generalizing place r with
    | nil => exact ⟨hplace, trivial⟩
    | cons next rest ih =>
      rw [firstOverlap] at hrest
      split_ifs at hrest with hoverlap
      exact ⟨hplace, ih _ next hrest (Nat.le_of_not_lt hoverlap)⟩
  cases replacements with
  | nil => trivial
  | cons r rest => exact hfrom 0 r rest h (Nat.zero_le _)

theorem appliedAtOnce_iff_fitFile {lines : List JsString} (h : firstOverlap replacements = none) :
    AppliedAtOnce lines replacements ↔ FitFile lines replacements := by
  have hordered : Ordered 0 (tracedReplacements 0 replacements) := by
    rw [← ordered_map Prod.fst, map_tracedReplacements]
    exact ordered_of_firstOverlap h
  have hlength : (traced .file lines).length = lines.length := length_mapIdx
  rw [AppliedAtOnce, FitFile, applyReplacements_eq, ← map_tracedReplacements 0, fits_map, ← hlength]
  exact applyLastFirst_eq_substitute_iff (fresh_tracedReplacements 0 replacements)
    (Nat.zero_le _) hordered

theorem AppliedAtOnce.text {lines : List JsString} (h : AppliedAtOnce lines replacements) :
    applyReplacements lines (replacements.map Replacement.toSplice) =
      substitute lines 0 (replacements.map Replacement.toSplice) := by
  rw [AppliedAtOnce, applyReplacements_eq] at h
  have htext := congrArg (map Prod.fst) h
  rw [← applyLastFirst_map, ← substitute_map, map_traced, map_tracedReplacements] at htext
  rw [applyReplacements_eq, htext]

/-- Replacements at one index stay in the order of their hunks: the sort is stable. -/
theorem filter_insertionSort (replacements : List Replacement) (index : Nat) :
    (replacements.insertionSort fun a b => a.startIndex ≤ b.startIndex).filter
        (fun r => r.startIndex = index) = replacements.filter fun r => r.startIndex = index := by
  have hsorted : (replacements.filter fun r => r.startIndex = index).Pairwise
      fun a b => a.startIndex ≤ b.startIndex := by
    refine pairwise_of_forall_mem_list fun a ha b hb => ?_
    have hindex : a.startIndex = index ∧ b.startIndex = index := by
      simp only [mem_filter, decide_eq_true_eq] at ha hb
      exact ⟨ha.2, hb.2⟩
    omega
  have hsublist := (sublist_insertionSort hsorted filter_sublist).filter
    fun r => decide (r.startIndex = index)
  have hlength := ((perm_insertionSort (fun a b : Replacement => a.startIndex ≤ b.startIndex)
    replacements).filter fun r => decide (r.startIndex = index)).length_eq
  rw [filter_filter] at hsublist
  simp only [Bool.and_self] at hsublist
  exact (hsublist.eq_of_length hlength.symm).symm

/-- **Accepted replacements are one substitution** exactly when they fit the file, in their
lines and in where these come from, with those at one index in the order of their hunks. -/
theorem replacements_applied_at_once_iff (m : Matchers) (lines : List JsString)
    (hunks : List DiffHunk) (allowFuzzy : Bool) {replacements : List Replacement}
    {warnings : List Nat}
    (h : computeReplacements m lines hunks allowFuzzy = .ok (replacements, warnings)) :
    (AppliedAtOnce lines replacements ∧
        applyReplacements lines (replacements.map Replacement.toSplice) =
          substitute lines 0 (replacements.map Replacement.toSplice) ∧
        ∀ s, computeHunks m lines allowFuzzy hunks ⟨[], [], 0⟩ = .ok s → ∀ index,
          replacements.filter (fun r => r.startIndex = index) =
            s.replacements.filter fun r => r.startIndex = index) ↔ FitFile lines replacements := by
  rw [computeReplacements] at h
  cases hhunks : computeHunks m lines allowFuzzy hunks ⟨[], [], 0⟩ with
  | error e =>
    rw [hhunks] at h
    cases h
  | ok s =>
    rw [hhunks] at h
    dsimp only at h
    cases hoverlap : firstOverlap
        (s.replacements.insertionSort fun a b => a.startIndex ≤ b.startIndex) with
    | some pair =>
      rw [hoverlap] at h
      cases h
    | none =>
      rw [hoverlap] at h
      cases h
      rw [← appliedAtOnce_iff_fitFile hoverlap]
      refine ⟨fun hall => hall.1, fun honce => ⟨honce, honce.text, fun t ht index => ?_⟩⟩
      cases ht
      exact filter_insertionSort s.replacements index

/-- A hunk that keeps a line and puts one behind it. -/
def addBehind (kept new : String) : DiffHunk where
  changeContext := none
  oldStartLine := none
  newStartLine := none
  hasContextLines := true
  oldLines := [js kept]
  newLines := [js kept, js new]
  isEndOfFile := false

/-- A hunk that puts a line at the start of the file. -/
def insertFirst (line : String) : DiffHunk where
  changeContext := none
  oldStartLine := some 1
  newStartLine := none
  hasContextLines := false
  oldLines := []
  newLines := [js line]
  isEndOfFile := false

/-- Two insertions at one index, and a replacement of the line there. -/
def replacementsAtStart : List Replacement :=
  [⟨0, 0, [js "x"]⟩, ⟨0, 0, [js "y"]⟩, ⟨0, 1, [js "a", js "z"]⟩]

theorem replacements_applied_at_once_iff_start :
    AppliedAtOnce [js "a", js "b"] replacementsAtStart ∧
      substitute [js "a", js "b"] 0 (replacementsAtStart.map Replacement.toSplice) =
        [js "x", js "y", js "a", js "z", js "b"] := by
  have hhunks : computeReplacements asciiMatchers [js "a", js "b"]
      [insertFirst "x", insertFirst "y", addBehind "a" "z"] false =
        .ok (replacementsAtStart, []) := rfl
  refine ⟨((replacements_applied_at_once_iff _ _ _ _ hhunks).mpr ?_).1, rfl⟩
  exact ⟨⟨⟨trivial, .inl (by decide)⟩, .inl (by decide)⟩, .inl (by decide)⟩

/-- The replacements of two hunks that keep a line of two spaces behind the last line. -/
def replacementsBehind : List Replacement :=
  [⟨0, 1, [js "a", js "x"]⟩, ⟨1, 1, [js "  ", js "y"]⟩, ⟨2, 1, [js "  ", js "z"]⟩]

/-- They are accepted, and one line of the last one is lost. -/
theorem replacements_behind_lose_a_line :
    computeReplacements (sourceMatchers rationalPatchScores {} id) [js "a"]
        [addBehind "a" "x", addBehind "  " "y", addBehind "  " "z"] true =
      .ok (replacementsBehind, []) ∧
    ¬ AppliedAtOnce [js "a"] replacementsBehind ∧
    applyReplacements [js "a"] (replacementsBehind.map Replacement.toSplice) =
      [js "a", js "x", js "  ", js "y", js "z"] ∧
    substitute [js "a"] 0 (replacementsBehind.map Replacement.toSplice) =
      [js "a", js "x", js "  ", js "y", js "  ", js "z"] := by
  have happlied : applyReplacements [js "a"] (replacementsBehind.map Replacement.toSplice) =
      [js "a", js "x", js "  ", js "y", js "z"] := rfl
  have hmeant : substitute [js "a"] 0 (replacementsBehind.map Replacement.toSplice) =
      [js "a", js "x", js "  ", js "y", js "  ", js "z"] := rfl
  refine ⟨by with_unfolding_all rfl, fun honce => ?_, happlied, hmeant⟩
  have htext := honce.text
  rw [happlied, hmeant] at htext
  exact absurd (congrArg length htext) (by decide)

end GajaeCode.PatchEdit
