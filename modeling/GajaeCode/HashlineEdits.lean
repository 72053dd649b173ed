import GajaeCode.HashlineHash

/-! # Hashline edits and their anchors

`packages/coding-agent/src/hashline/{types,constants,anchors}.ts` and the anchor
check of `apply.ts`.  An edit inserts one line at a cursor or deletes one line;
a line is named by its number and the hash of its content.  Every anchor is
checked before anything is applied: a line number outside the file is an error
at once, stale hashes are collected and reported together.
-/
namespace GajaeCode
open JsString

/-- `Anchor`.  The field `contentHint` is set and read nowhere. -/
structure Anchor where
  line : Nat
  hash : JsString
deriving DecidableEq

inductive HashlineCursor where
  | bof
  | eof
  | beforeAnchor (anchor : Anchor)
  | afterAnchor (anchor : Anchor)
deriving DecidableEq

/-- `HashlineEdit`.  `lineNum` is the line of the diff the edit comes from; the
field `oldAssertion` is set and read nowhere. -/
inductive HashlineEdit where
  | insert (cursor : HashlineCursor) (text : JsString) (lineNum index : Nat)
  | delete (anchor : Anchor) (lineNum index : Nat)
deriving DecidableEq

structure HashMismatch where
  line : Nat
  expected : JsString
  actual : JsString
deriving DecidableEq

/-- What the edit functions throw: an `Error` with its message, or a
`HashlineMismatchError`. -/
inductive HashlineError where
  | error (message : JsString)
  | mismatch (mismatches : List HashMismatch) (fileLines : List JsString)
deriving DecidableEq

def rangeInteriorHash : JsString := js "**"

structure HashlineApplyOptions where
  autoDropPureInsertDuplicates : Bool
deriving DecidableEq

def getHashlineEditAnchors : HashlineEdit → List Anchor
  | .delete anchor _ _ => [anchor]
  | .insert (.beforeAnchor anchor) _ _ _ => [anchor]
  | .insert (.afterAnchor anchor) _ _ _ => [anchor]
  | .insert _ _ _ _ => []

/-- `fileLines[line - 1] ?? ""`, for a line number from 1. -/
def lineAt (fileLines : List JsString) (line : Nat) : JsString := fileLines.getD (line - 1) []

/-- The message for a line number outside the file. -/
def lineMissing (line fileLength : Nat) : JsString :=
  js "Line " ++ ofNat line ++ js " does not exist (file has " ++ ofNat fileLength ++ js " lines)"

section Validate
variable (xxHash32 : List UInt8 → UInt32)

/-- `validateLineRef`; the result is what it throws, if anything. -/
def validateLineRef (ref : Anchor) (fileLines : List JsString) : Except HashlineError Unit :=
  if ref.line < 1 || ref.line > fileLines.length then
    .error (.error (lineMissing ref.line fileLines.length))
  else
    let actualHash := computeLineHash xxHash32 ref.line (lineAt fileLines ref.line)
    if actualHash ≠ ref.hash then
      .error (.mismatch [⟨ref.line, ref.hash, actualHash⟩] fileLines)
    else .ok ()

/-- The check of one anchor in `validateHashlineAnchors`: the mismatch it adds. -/
def checkAnchor (fileLines : List JsString) (anchor : Anchor) :
    Except HashlineError (List HashMismatch) :=
  if anchor.line < 1 || anchor.line > fileLines.length then
    .error (.error (lineMissing anchor.line fileLines.length))
  else if anchor.hash = rangeInteriorHash then .ok []
  else
    let actualHash := computeLineHash xxHash32 anchor.line (lineAt fileLines anchor.line)
    if actualHash = anchor.hash then .ok []
    else .ok [⟨anchor.line, anchor.hash, actualHash⟩]

/-- The two loops of `validateHashlineAnchors`, over all anchors in order. -/
def checkAnchors (fileLines : List JsString) :
    List Anchor → Except HashlineError (List HashMismatch)
  | [] => .ok []
  | anchor :: anchors => do
      let here ← checkAnchor xxHash32 fileLines anchor
      let rest ← checkAnchors fileLines anchors
      pure (here ++ rest)

def validateHashlineAnchors (edits : List HashlineEdit) (fileLines : List JsString) :
    Except HashlineError (List HashMismatch) :=
  checkAnchors xxHash32 fileLines (edits.flatMap getHashlineEditAnchors)

/-- An anchor that passes: its line exists, and its hash is the line's or the
filler of a range's interior. -/
def AnchorValid (fileLines : List JsString) (anchor : Anchor) : Prop :=
  (1 ≤ anchor.line ∧ anchor.line ≤ fileLines.length) ∧
    (anchor.hash = rangeInteriorHash ∨
      computeLineHash xxHash32 anchor.line (lineAt fileLines anchor.line) = anchor.hash)

/-- All anchors of a batch pass. -/
def AnchorsValid (edits : List HashlineEdit) (fileLines : List JsString) : Prop :=
  ∀ edit ∈ edits, ∀ anchor ∈ getHashlineEditAnchors edit, AnchorValid xxHash32 fileLines anchor

variable {xxHash32} {fileLines : List JsString}

theorem checkAnchor_eq_ok_nil {anchor : Anchor} :
    checkAnchor xxHash32 fileLines anchor = .ok [] ↔ AnchorValid xxHash32 fileLines anchor := by
  unfold checkAnchor AnchorValid
  by_cases hrange : anchor.line < 1 ∨ anchor.line > fileLines.length
  · rw [if_pos (by simpa using hrange)]
    constructor
    · intro h
      cases h
    · rintro ⟨⟨h₁, h₂⟩, _⟩
      omega
  · have hin : 1 ≤ anchor.line ∧ anchor.line ≤ fileLines.length := by omega
    rw [if_neg (by simpa using hrange)]
    by_cases hint : anchor.hash = rangeInteriorHash
    · simp [hint, hin]
    · rw [if_neg hint]
      by_cases hhash : computeLineHash xxHash32 anchor.line
          (lineAt fileLines anchor.line) = anchor.hash
      · simp [hhash, hin]
      · simp [hhash, hint]

theorem checkAnchors_eq_ok_nil {anchors : List Anchor} :
    checkAnchors xxHash32 fileLines anchors = .ok [] ↔
      ∀ anchor ∈ anchors, AnchorValid xxHash32 fileLines anchor := by
  induction anchors with
  | nil => simp [checkAnchors]
  | cons anchor anchors ih =>
    rw [List.forall_mem_cons, ← ih, ← checkAnchor_eq_ok_nil, checkAnchors]
    cases checkAnchor xxHash32 fileLines anchor with
    | error e => simp [bind, Except.bind]
    | ok here =>
      cases checkAnchors xxHash32 fileLines anchors with
      | error e => simp [bind, Except.bind]
      | ok rest => simp [bind, Except.bind, pure, Except.pure]

/-- **No mismatch** means that every anchor of the batch is valid. -/
theorem validateHashlineAnchors_eq_ok_nil {edits : List HashlineEdit} :
    validateHashlineAnchors xxHash32 edits fileLines = .ok [] ↔
      AnchorsValid xxHash32 edits fileLines := by
  rw [validateHashlineAnchors, checkAnchors_eq_ok_nil]
  constructor
  · intro h edit hedit anchor hanchor
    exact h anchor (List.mem_flatMap.mpr ⟨edit, hedit, hanchor⟩)
  · intro h anchor hanchor
    obtain ⟨edit, hedit, hmem⟩ := List.mem_flatMap.mp hanchor
    exact h edit hedit anchor hmem

theorem validateLineRef_eq_ok {ref : Anchor} (hline : 1 ≤ ref.line ∧ ref.line ≤ fileLines.length)
    (hhash : computeLineHash xxHash32 ref.line (lineAt fileLines ref.line) = ref.hash) :
    validateLineRef xxHash32 ref fileLines = .ok () := by
  have hin : ¬ (ref.line < 1 ∨ ref.line > fileLines.length) := by omega
  rw [validateLineRef, if_neg (by simpa using hin)]
  simp [hhash]

end Validate
end GajaeCode
