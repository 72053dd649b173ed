import GajaeCode.FuzzySearch
import GajaeCode.TextSearch

/-! # Finding the text to replace

`findMatch` of `packages/coding-agent/src/edit/modes/replace.ts`: the exact text if it is
there, else the best window of lines.  An exact match is meant to be the only one; what is
counted are the occurrences the content is split at, which do not overlap, while the previews
are of every occurrence.
-/
namespace GajaeCode.PatchEdit
open JsString FuzzySearch TextSearch List

/-- The rest of what `findMatch` does with scores. -/
structure MatchScores (F : Type) extends ScoreOps F where
  sub : F → F → F
  defaultFuzzyThreshold : F
  dominantFuzzyMinConfidence : F
  dominantFuzzyDelta : F

def rationalMatchScores : MatchScores ℚ where
  toScoreOps := rationalScores
  sub := (· - ·)
  defaultFuzzyThreshold := 19 / 20
  dominantFuzzyMinConfidence := 97 / 100
  dominantFuzzyDelta := 8 / 100

structure MatchOutcome (F : Type) where
  matched : Option (FuzzyMatch F) := none
  closest : Option (FuzzyMatch F) := none
  occurrences : Option Nat := none
  occurrenceLines : List Nat := []
  occurrencePreviews : List JsString := []
  fuzzyMatches : Option Nat := none
  dominantFuzzy : Bool := false

/-- `content.indexOf(target, searchStart)`. -/
def indexOf (content target : JsString) (searchStart : Nat) : Option Nat :=
  (findSplit target (content.drop searchStart)).map fun p => searchStart + p.1.length

/-- The line on which the index is: `content.slice(0, index).split("\n").length`. -/
def lineNumberAt (content : JsString) (index : Nat) : Nat := (lines (content.take index)).length

def occurrencePreviewContext : Nat := 5

def occurrencePreviewMaxLen : Nat := 80

def formatPreviewWindow (lines : List JsString) (centerIndex context maxLen : Nat) : JsString :=
  let start := centerIndex - context
  let stop := min lines.length (centerIndex + context + 1)
  unlines (((lines.take stop).drop start).mapIdx fun index line =>
    let truncated := if maxLen < line.length then line.take (maxLen - 1) ++ [0x2026] else line
    js "  " ++ (ofNat (start + index + 1) ++ (js " | " ++ truncated)))

/-- The loop over the occurrences that are shown, at most so many: here the search goes on
one unit behind the last one. -/
def shownOccurrences (content target : JsString) : Nat → (searchStart : Nat) → List Nat
  | 0, _ => []
  | more + 1, searchStart =>
      match indexOf content target searchStart with
      | none => []
      | some index => index :: shownOccurrences content target more (index + 1)

section Match
variable {F : Type} (o : MatchScores F)

def findExactMatchOutcome (content target : JsString) : Option (MatchOutcome F) :=
  match indexOf content target 0 with
  | none => none
  | some exactIndex =>
      let occurrences := splitCount target content
      if 1 < occurrences then
        let shown := (shownOccurrences content target maxRecordedMatches 0).map
          (lineNumberAt content)
        some {
          occurrences := some occurrences
          occurrenceLines := shown
          occurrencePreviews := shown.map fun lineNumber =>
            formatPreviewWindow (lines content) (lineNumber - 1) occurrencePreviewContext
              occurrencePreviewMaxLen }
      else
        some { matched := some ⟨target, exactIndex, lineNumberAt content exactIndex, o.one⟩ }

/-- `findMatch`.  `findBestFuzzyMatchNative` is there once the native module is loaded. -/
def findMatch
    (findBestFuzzyMatchNative : Option (JsString → JsString → F → BestFuzzyMatchResult F))
    (content target : JsString) (allowFuzzy : Bool) (threshold : Option F) : MatchOutcome F :=
  if target.length = 0 then {}
  else
    match findExactMatchOutcome o content target with
    | some exactMatch => exactMatch
    | none =>
      let threshold := threshold.getD o.defaultFuzzyThreshold
      let findBest := findBestFuzzyMatchNative.getD (findBestFuzzyMatch o.toScoreOps)
      let ⟨best, aboveThresholdCount, secondBestScore⟩ := findBest content target threshold
      match best with
      | none => {}
      | some best =>
        let closest : MatchOutcome F :=
          { closest := some best, fuzzyMatches := some aboveThresholdCount }
        if allowFuzzy && o.ge best.confidence threshold then
          if aboveThresholdCount = 1 then { matched := some best, closest := some best }
          else if aboveThresholdCount > 1 ∧
              o.ge best.confidence o.dominantFuzzyMinConfidence = true ∧
              o.ge (o.sub best.confidence secondBestScore) o.dominantFuzzyDelta = true then
            { matched := some best, closest := some best,
              fuzzyMatches := some aboveThresholdCount, dominantFuzzy := true }
          else closest
        else closest

/-- An exact match: the target itself, where it stands, with full confidence. -/
def IsExact (content target : JsString) (m : FuzzyMatch F) : Prop :=
  m.confidence = o.one ∧ m.actualText = target ∧ StandsAt target content m.startIndex

variable {o}

theorem findExactMatchOutcome_eq_none {content target : JsString} :
    findExactMatchOutcome o content target = none ↔ findSplit target content = none := by
  rw [findExactMatchOutcome, indexOf, drop_zero]
  cases findSplit target content with
  | none => exact ⟨fun _ => rfl, fun _ => rfl⟩
  | some p =>
    dsimp only [Option.map_some]
    split_ifs <;> simp

/-- A match of the exact search is the first occurrence, and the content is split there
only. -/
theorem findExactMatchOutcome_matched {content target : JsString} {outcome : MatchOutcome F}
    {m : FuzzyMatch F} (h : findExactMatchOutcome o content target = some outcome)
    (hm : outcome.matched = some m) :
    ∃ before after, findSplit target content = some (before, after) ∧
      splitCount target content ≤ 1 := by
  rw [findExactMatchOutcome, indexOf, drop_zero] at h
  cases hfound : findSplit target content with
  | none =>
    rw [hfound] at h
    cases h
  | some p =>
    rw [hfound] at h
    dsimp only [Option.map_some] at h
    split_ifs at h with hmany
    · cases h
      cases hm
    · exact ⟨p.1, p.2, rfl, Nat.le_of_not_lt hmany⟩

/-- An exact match is of the only occurrence unless the target runs on: unless one of its
borders is completed by the text behind an occurrence. -/
theorem exact_match_unique_iff
    (findBestFuzzyMatchNative : Option (JsString → JsString → F → BestFuzzyMatchResult F))
    (content target : JsString) (allowFuzzy : Bool) (threshold : Option F) {m : FuzzyMatch F}
    (hmatch : (findMatch o findBestFuzzyMatchNative content target allowFuzzy
      threshold).matched = some m) (hexact : IsExact o content target m) :
    (∃! i, StandsAt target content i) ↔ ¬ RunsOn target content := by
  rw [findMatch] at hmatch
  by_cases hempty : target.length = 0
  · rw [if_pos hempty] at hmatch
    cases hmatch
  rw [if_neg hempty] at hmatch
  have htarget : target ≠ [] := fun h => hempty (h ▸ rfl)
  cases houtcome : findExactMatchOutcome o content target with
  | none =>
    -- The exact search fails only where there is no occurrence.
    have hnone := findExactMatchOutcome_eq_none.mp houtcome
    exact absurd hexact.2.2 (not_standsAt_of_findSplit htarget hnone m.startIndex)
  | some outcome =>
    rw [houtcome] at hmatch
    obtain ⟨before, after, hfound, honce⟩ := findExactMatchOutcome_matched houtcome hmatch
    exact existsUnique_standsAt_iff htarget hfound honce

end Match

/-- `aba` begins as it ends, and stands in `cabac` once. -/
theorem exact_match_unique_iff_border : ∃! i, StandsAt (js "aba") (js "cabac") i := by
  refine (exact_match_unique_iff (o := rationalMatchScores) (m := ⟨js "aba", 1, 1, 1⟩) none
    (js "cabac") (js "aba") true none rfl ⟨rfl, rfl, by unfold StandsAt; decide⟩).mpr ?_
  rintro ⟨before, after, n, htext, ⟨hpos, hlt, hborder⟩, hrun⟩
  change n < 3 at hlt
  have hlength := congrArg length htext
  have hafter := hrun.length_le
  rw [length_append, length_append] at hlength
  change 5 = before.length + (3 + after.length) at hlength
  obtain rfl | rfl : n = 1 ∨ n = 2 := by omega
  · change 2 ≤ after.length at hafter
    obtain rfl := length_eq_zero_iff.mp (show before.length = 0 by omega)
    have hhead : some 0x63 = some (0x61 : CodeUnit) := congrArg head? htext
    exact absurd hhead (by decide)
  · exact absurd hborder (by decide)

/-- Of three equal lines two are found at their first place, though they stand at a second
one. -/
theorem exact_match_of_equal_lines :
    (findMatch rationalMatchScores none (js "x\nx\nx") (js "x\nx") false none).matched =
        some ⟨js "x\nx", 0, 1, 1⟩ ∧
      IsExact rationalMatchScores (js "x\nx\nx") (js "x\nx") ⟨js "x\nx", 0, 1, 1⟩ ∧
      ¬ ∃! i, StandsAt (js "x\nx") (js "x\nx\nx") i := by
  have hfirst : StandsAt (js "x\nx") (js "x\nx\nx") 0 := by
    unfold StandsAt
    decide
  have hsecond : StandsAt (js "x\nx") (js "x\nx\nx") 2 := by
    unfold StandsAt
    decide
  refine ⟨rfl, ⟨rfl, rfl, hfirst⟩, ?_⟩
  rintro ⟨i, -, hunique⟩
  exact absurd ((hunique 0 hfirst).trans (hunique 2 hsecond).symm) (by decide)

end GajaeCode.PatchEdit
