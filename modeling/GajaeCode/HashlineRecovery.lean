import GajaeCode.DiffString
import GajaeCode.FileReadCache
import GajaeCode.HashlineApply
import GajaeCode.HashlineParser

/-! # Recovery from stale anchors

`packages/coding-agent/src/hashline/recovery.ts`.  When the anchors of a batch do
not match the file, the batch is replayed on the snapshot the model was shown and
the result merged onto the current text.  Before that every anchored line must be
vouched for by the snapshot.

The check is written a second time here, and it does not know the filler hash of
a range's interior: `validateHashlineAnchors` skips it, recovery compares it with
the hash of a line.  No line has that hash.
-/
namespace GajaeCode
open JsString

/-- What the recovery takes from the `diff` package: a line diff, and replaying
on a third text the patch between two texts (`structuredPatch` and then
`applyPatch` without fuzz), which may not apply. -/
structure DiffPackage where
  diffLines : JsString → JsString → List DiffLinePart
  replayPatch : (previousText newText currentText : JsString) → Option JsString

def hashlineRecoveryWarning : JsString :=
  js "Recovered from stale anchors using a previous read snapshot (file changed externally " ++
    js "between read and edit)."

structure HashlineRecoveryResult where
  lines : JsString
  firstChangedLine : Option Nat
  warnings : List JsString
deriving DecidableEq

def collectEditAnchors (edits : List HashlineEdit) : List Anchor :=
  edits.flatMap (fun edit =>
    match edit with
    | .delete anchor _ _ => [anchor]
    | .insert (.beforeAnchor anchor) _ _ _ | .insert (.afterAnchor anchor) _ _ _ => [anchor]
    | .insert _ _ _ _ => [])

/-- The snapshot laid over the current text. -/
def overlaySnapshot (snapshot : LineMap) (currentText : JsString) : JsString :=
  let overlaid := lines currentText
  let maxCachedLine := snapshot.entries.foldl (fun m e => max m e.1) 0
  let padded := overlaid ++ List.replicate (maxCachedLine - overlaid.length) []
  unlines (snapshot.entries.foldl (fun ls e => ls.set (e.1 - 1) e.2) padded)

section Recovery
variable (xxHash32 : List UInt8 → UInt32)

/-- The loop of the precondition: every anchored line is in the snapshot, and
its content hashes to the anchor's hash. -/
def anchorsVouchedFor (snapshot : LineMap) (anchors : List Anchor) : Bool :=
  anchors.all (fun anchor =>
    (snapshot.get anchor.line).any
      (fun cachedLine => computeLineHash xxHash32 anchor.line cachedLine = anchor.hash))

variable (diffPackage : DiffPackage)

/-- `tryRecoverHashlineWithCache` after the lookup.  `none` is `null`. -/
def recoverFromSnapshot (snapshot : LineMap) (currentText : JsString)
    (edits : List HashlineEdit) (options : HashlineApplyOptions) :
    Except HashlineError (Option HashlineRecoveryResult) :=
  if snapshot.entries.length = 0 then .ok none
  else if !anchorsVouchedFor xxHash32 snapshot (collectEditAnchors edits) then .ok none
  else
    let previousText := overlaySnapshot snapshot currentText
    if previousText = currentText then .ok none
    else
      match applyHashlineEdits xxHash32 previousText edits options with
      | .error (.mismatch _ _) => .ok none
      | .error err => .error err
      | .ok applied =>
          if applied.lines = previousText then .ok none
          else
            match diffPackage.replayPatch previousText applied.lines currentText with
            | none => .ok none
            | some merged =>
                if merged = currentText then .ok none
                else
                  let mergedDiff := generateDiffString diffPackage.diffLines currentText merged 4
                  .ok (some
                    { lines := merged
                      firstChangedLine := mergedDiff.firstChangedLine.or applied.firstChangedLine
                      warnings :=
                        if mergedDiff.firstChangedLine.isSome then
                          hashlineRecoveryWarning :: applied.warnings
                        else applied.warnings })

/-- `tryRecoverHashlineWithCache`.  The lookup makes the path the most recent one. -/
def tryRecoverHashlineWithCache (cache : FileReadCache) (absolutePath currentText : JsString)
    (edits : List HashlineEdit) (options : HashlineApplyOptions) :
    Except HashlineError (Option HashlineRecoveryResult) × FileReadCache :=
  (match cache.peek absolutePath with
    | none => .ok none
    | some snapshot =>
        recoverFromSnapshot xxHash32 diffPackage snapshot currentText edits options,
    cache.touch absolutePath)

end Recovery

/-! ## Which anchors the two checks accept -/

section Vouched
variable {xxHash32 : List UInt8 → UInt32} {snapshot : LineMap} {edits : List HashlineEdit}
variable {fileLines : List JsString} {anchor : Anchor}

theorem collectEditAnchors_eq (edits : List HashlineEdit) :
    collectEditAnchors edits = edits.flatMap getHashlineEditAnchors := rfl

/-- The snapshot holds every anchored line. -/
def Covers (snapshot : LineMap) (edits : List HashlineEdit) : Prop :=
  ∀ anchor ∈ collectEditAnchors edits, ∃ content, snapshot.get anchor.line = some content

/-- A file in which the snapshot's lines stand at their numbers. -/
def HasSnapshotLines (fileLines : List JsString) (snapshot : LineMap) : Prop :=
  ∀ line content, 1 ≤ line → snapshot.get line = some content →
    fileLines[line - 1]? = some content

def HashMatches (xxHash32 : List UInt8 → UInt32) (snapshot : LineMap) (anchor : Anchor) : Prop :=
  ∃ content, snapshot.get anchor.line = some content ∧
    computeLineHash xxHash32 anchor.line content = anchor.hash

theorem anchorsVouchedFor_eq_true {anchors : List Anchor} :
    anchorsVouchedFor xxHash32 snapshot anchors = true ↔
      ∀ anchor ∈ anchors, HashMatches xxHash32 snapshot anchor := by
  simp only [anchorsVouchedFor, List.all_eq_true, Option.any_eq_true, decide_eq_true_eq,
    HashMatches]

theorem computeLineHash_ne_rangeInteriorHash (idx : Nat) (line : JsString) :
    computeLineHash xxHash32 idx line ≠ rangeInteriorHash := by
  intro heq
  have hmem : rangeInteriorHash ∈ hlBigrams := heq ▸ computeLineHash_mem xxHash32 idx line
  exact absurd (letter_of_mem_hlBigrams hmem (u := 0x2a) (by decide)) (by decide)

theorem not_hashMatches_interior (h : anchor.hash = rangeInteriorHash) :
    ¬ HashMatches xxHash32 snapshot anchor := by
  rintro ⟨content, _, hhash⟩
  exact computeLineHash_ne_rangeInteriorHash anchor.line content (hhash.trans h)

/-- On a file with the snapshot's lines, the direct check accepts a covered
anchor when its hash is the filler or matches the snapshot. -/
theorem anchorValid_iff (hfile : HasSnapshotLines fileLines snapshot) (hline : 1 ≤ anchor.line)
    (hcovered : ∃ content, snapshot.get anchor.line = some content) :
    AnchorValid xxHash32 fileLines anchor ↔
      (anchor.hash = rangeInteriorHash ∨ HashMatches xxHash32 snapshot anchor) := by
  obtain ⟨content, hcontent⟩ := hcovered
  obtain ⟨hlt, hget⟩ := List.getElem?_eq_some_iff.mp (hfile _ _ hline hcontent)
  have hat : lineAt fileLines anchor.line = content := by
    rw [lineAt, List.getD_eq_getElem _ _ hlt, hget]
  have hmatches : HashMatches xxHash32 snapshot anchor ↔
      computeLineHash xxHash32 anchor.line content = anchor.hash := by
    constructor
    · rintro ⟨content', hcontent', hhash⟩
      obtain rfl : content = content' := some.inj (hcontent.symm.trans hcontent')
      exact hhash
    · exact fun hhash => ⟨content, hcontent, hhash⟩
  rw [AnchorValid, hat, hmatches]
  constructor
  · exact fun h => h.2
  · exact fun h => ⟨⟨hline, by omega⟩, h⟩

/-- The two checks of a parsed batch, anchor by anchor. -/
theorem validateHashlineAnchors_iff_of_parsed {diff : JsString}
    (hparse : parseHashline xxHash32 diff = .ok edits) (hcovers : Covers snapshot edits)
    (hfile : HasSnapshotLines fileLines snapshot) :
    validateHashlineAnchors xxHash32 edits fileLines = .ok [] ↔ ∀ anchor ∈ collectEditAnchors edits,
        anchor.hash = rangeInteriorHash ∨ HashMatches xxHash32 snapshot anchor := by
  have hanchors := parseHashline_anchors hparse
  have hsame : ∀ anchor ∈ collectEditAnchors edits, (AnchorValid xxHash32 fileLines anchor ↔
      (anchor.hash = rangeInteriorHash ∨ HashMatches xxHash32 snapshot anchor)) := by
    intro anchor hanchor
    obtain ⟨edit, hedit, hmem⟩ := List.mem_flatMap.mp (collectEditAnchors_eq edits ▸ hanchor)
    exact anchorValid_iff hfile (hanchors edit hedit anchor hmem).1 (hcovers anchor hanchor)
  rw [validateHashlineAnchors, checkAnchors_eq_ok_nil, ← collectEditAnchors_eq]
  constructor
  · intro h anchor hanchor
    exact (hsame anchor hanchor).mp (h anchor hanchor)
  · intro h anchor hanchor
    exact (hsame anchor hanchor).mpr (h anchor hanchor)

/-- **When recovery and validation agree.**  For every parsed batch, every
snapshot that covers its anchors and every file with the snapshot's lines: the
precondition of recovery and the direct check accept the same batches exactly
when the batch has no interior anchor, or some other anchor fails in both. -/
theorem recovery_agrees_iff (xxHash32 : List UInt8 → UInt32) (diff : JsString)
    (edits : List HashlineEdit) (hparse : parseHashline xxHash32 diff = .ok edits)
    (snapshot : LineMap) (hcovers : Covers snapshot edits) (fileLines : List JsString)
    (hfile : HasSnapshotLines fileLines snapshot) :
    (anchorsVouchedFor xxHash32 snapshot (collectEditAnchors edits) = true ↔
      validateHashlineAnchors xxHash32 edits fileLines = .ok []) ↔
    ((∀ anchor ∈ collectEditAnchors edits, anchor.hash ≠ rangeInteriorHash) ∨
      ∃ anchor ∈ collectEditAnchors edits,
        anchor.hash ≠ rangeInteriorHash ∧ ¬ HashMatches xxHash32 snapshot anchor) := by
  rw [anchorsVouchedFor_eq_true, validateHashlineAnchors_iff_of_parsed hparse hcovers hfile]
  constructor
  · intro hagree
    by_cases hends : ∃ anchor ∈ collectEditAnchors edits,
        anchor.hash ≠ rangeInteriorHash ∧ ¬ HashMatches xxHash32 snapshot anchor
    · exact Or.inr hends
    · -- all the ends match, so validation passes; recovery must then pass too
      refine Or.inl fun anchor hanchor hinterior => ?_
      have hvalid : ∀ anchor ∈ collectEditAnchors edits,
          anchor.hash = rangeInteriorHash ∨ HashMatches xxHash32 snapshot anchor := by
        intro anchor hanchor
        by_contra hnot
        exact hends ⟨anchor, hanchor, fun h => hnot (Or.inl h), fun h => hnot (Or.inr h)⟩
      exact not_hashMatches_interior hinterior (hagree.mpr hvalid anchor hanchor)
  · rintro (hnone | ⟨anchor, hanchor, hne, hnot⟩)
    · constructor
      · exact fun h anchor hanchor => Or.inr (h anchor hanchor)
      · intro h anchor hanchor
        rcases h anchor hanchor with hinterior | hmatch
        · exact absurd hinterior (hnone anchor hanchor)
        · exact hmatch
    · constructor
      · exact fun h => absurd (h anchor hanchor) hnot
      · intro h
        rcases h anchor hanchor with hinterior | hmatch
        · exact absurd hinterior hne
        · exact absurd hmatch hnot

end Vouched

/-- `≔1hs..3ni` with one payload line. -/
def threeLineDiff : JsString := js "≔1hs..3ni\nX"

def threeLineEdits : List HashlineEdit :=
  [.insert (.beforeAnchor ⟨1, js "hs"⟩) (js "X") 1 0, .delete ⟨1, js "hs"⟩ 1 1,
   .delete ⟨2, js "**"⟩ 1 2, .delete ⟨3, js "ni"⟩ 1 3]

/-- The three lines `a`, `b`, `c` as the model was shown them. -/
def threeLineSnapshot : LineMap := ⟨[(1, js "a"), (2, js "b"), (3, js "c")], by decide⟩

theorem parseHashline_threeLineDiff :
    parseHashline Xxh32.xxh32 threeLineDiff = .ok threeLineEdits := by decide

theorem covers_threeLineSnapshot : Covers threeLineSnapshot threeLineEdits := by
  have hall : (collectEditAnchors threeLineEdits).all
      (fun anchor => (threeLineSnapshot.get anchor.line).isSome) = true := by decide
  intro anchor hanchor
  exact Option.isSome_iff_exists.mp (List.all_eq_true.mp hall anchor hanchor)

theorem hasSnapshotLines_three : HasSnapshotLines [js "a", js "b", js "c"] threeLineSnapshot := by
  intro line content hline hget
  match line, hline with
  | 1, _ | 2, _ | 3, _ => exact hget
  | n + 4, _ => simp [LineMap.get, threeLineSnapshot, List.lookup_cons] at hget

/-- The batch passes validation on the very lines of the snapshot, and recovery
refuses it. -/
theorem recovery_refuses_vouched_range :
    ¬ ∀ (diff : JsString) (edits : List HashlineEdit) (snapshot : LineMap)
        (fileLines : List JsString), parseHashline Xxh32.xxh32 diff = .ok edits →
      Covers snapshot edits → HasSnapshotLines fileLines snapshot →
      (anchorsVouchedFor Xxh32.xxh32 snapshot (collectEditAnchors edits) = true ↔
        validateHashlineAnchors Xxh32.xxh32 edits fileLines = .ok []) := by
  intro hclaim
  have hagree := hclaim threeLineDiff threeLineEdits threeLineSnapshot
    [js "a", js "b", js "c"] parseHashline_threeLineDiff covers_threeLineSnapshot
    hasSnapshotLines_three
  have hvalid : validateHashlineAnchors Xxh32.xxh32 threeLineEdits
      [js "a", js "b", js "c"] = .ok [] := by decide +kernel
  have hvouch : anchorsVouchedFor Xxh32.xxh32 threeLineSnapshot
      (collectEditAnchors threeLineEdits) = false := by decide +kernel
  rw [hagree.mpr hvalid] at hvouch
  exact absurd hvouch (by decide)

/-- The exact condition, at this batch: its second anchor is an interior one and
its ends match, so the two checks disagree. -/
theorem recovery_agrees_iff_threeLine :
    ¬ (anchorsVouchedFor Xxh32.xxh32 threeLineSnapshot (collectEditAnchors threeLineEdits) = true ↔
      validateHashlineAnchors Xxh32.xxh32 threeLineEdits [js "a", js "b", js "c"] = .ok []) := by
  rw [recovery_agrees_iff Xxh32.xxh32 threeLineDiff threeLineEdits parseHashline_threeLineDiff
    threeLineSnapshot covers_threeLineSnapshot _ hasSnapshotLines_three]
  rintro (hnone | ⟨anchor, hanchor, hne, hnot⟩)
  · exact hnone ⟨2, js "**"⟩ (by decide) rfl
  · have hall : (collectEditAnchors threeLineEdits).all (fun anchor =>
        anchor.hash = rangeInteriorHash || anchorsVouchedFor Xxh32.xxh32 threeLineSnapshot
          [anchor]) = true := by decide +kernel
    have hthis := List.all_eq_true.mp hall anchor hanchor
    rw [Bool.or_eq_true, decide_eq_true_eq] at hthis
    rcases hthis with hinterior | hvouch
    · exact hne hinterior
    · exact hnot (anchorsVouchedFor_eq_true.mp hvouch anchor List.mem_cons_self)

end GajaeCode
