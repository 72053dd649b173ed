import GajaeCode.HashlineEdits

/-! # Boundary duplicates

The first half of `packages/coding-agent/src/hashline/apply.ts`.  A model that
replaces lines 5–7 often repeats line 4 or line 8 in its payload.
`absorbReplacementBoundaryDuplicates` looks for such repetitions: where the
payload of a replacement starts with the lines above it, or ends with the lines
below it, the deletion is widened over them; where the payload of a pure insert
repeats its neighbours, the repeated payload lines are dropped.

The batch is read from left to right in segments (`segments`): a replacement, a
run of inserts at one cursor, or a single edit.
-/
namespace GajaeCode
open JsString List

/-- `STRUCTURAL_CLOSING_BOUNDARY_RE`, `/^\s*[\])}]+[;,]?\s*$/`. -/
def isStructuralClosingBoundaryLine (line : JsString) : Bool :=
  let isCloser := fun u : CodeUnit => u == 0x005d || u == 0x0029 || u == 0x007d
  let body := line.dropWhile isWhitespace
  let rest :=
    match body.dropWhile isCloser with
    | [] => []
    | u :: tail => if u == 0x003b || u == 0x002c then tail else u :: tail
  !(body.takeWhile isCloser).isEmpty && rest.all isWhitespace

structure DelimiterBalance where
  paren : Int
  bracket : Int
  brace : Int
deriving DecidableEq

def zeroDelimiterBalance : DelimiterBalance := ⟨0, 0, 0⟩

/-- The `switch` of `computeDelimiterBalance`.  It runs over code points; the
delimiters are single units that no surrogate equals. -/
def countDelimiter (balance : DelimiterBalance) (u : CodeUnit) : DelimiterBalance :=
  if u = 0x0028 then { balance with paren := balance.paren + 1 }
  else if u = 0x0029 then { balance with paren := balance.paren - 1 }
  else if u = 0x005b then { balance with bracket := balance.bracket + 1 }
  else if u = 0x005d then { balance with bracket := balance.bracket - 1 }
  else if u = 0x007b then { balance with brace := balance.brace + 1 }
  else if u = 0x007d then { balance with brace := balance.brace - 1 }
  else balance

def computeDelimiterBalance (lines : List JsString) : DelimiterBalance :=
  lines.foldl (fun balance line => line.foldl countDelimiter balance) zeroDelimiterBalance

def shouldDropSingleStructuralBoundary (fullPayload keptPayload : List JsString)
    (expectedBalance : DelimiterBalance) : Bool :=
  computeDelimiterBalance keptPayload == expectedBalance &&
    computeDelimiterBalance fullPayload != expectedBalance

/-- `for (let count = max; count >= 2; count--) if (matches(count)) return count;
return 0;` -/
def largestCount (matches_ : Nat → Bool) : Nat → Nat
  | 0 => 0
  | 1 => 0
  | count + 2 => if matches_ (count + 2) then count + 2 else largestCount matches_ (count + 1)

variable (fileLines : List JsString)

/-- The inner loop of the block searches: `count` lines of the file from `fileStart`
are the payload lines from `payloadStart`. -/
def blockMatches (fileStart : Nat) (payload : List JsString) (payloadStart count : Nat) : Bool :=
  (List.range count).all fun offset =>
    fileLines[fileStart + offset]? == payload[payloadStart + offset]?

def countMatchingPrefixBlock (startLine : Nat) (replacement : List JsString) : Nat :=
  largestCount (fun count => blockMatches fileLines (startLine - count - 1) replacement 0 count)
    (min replacement.length (startLine - 1))

def countMatchingSuffixBlock (endLine : Nat) (replacement : List JsString) : Nat :=
  largestCount
    (fun count => blockMatches fileLines endLine replacement (replacement.length - count) count)
    (min replacement.length (fileLines.length - endLine))

def countMatchingSingleStructuralPrefixBoundary (startLine : Nat)
    (replacement : List JsString) (expectedBalance : DelimiterBalance) : Nat :=
  match replacement with
  | [] => 0
  | line :: kept =>
      if startLine ≤ 1 then 0
      else if !isStructuralClosingBoundaryLine line then 0
      else if fileLines[startLine - 2]? ≠ some line then 0
      else if shouldDropSingleStructuralBoundary replacement kept expectedBalance then 1
      else 0

def countMatchingSingleStructuralSuffixBoundary (endLine : Nat)
    (replacement : List JsString) (expectedBalance : DelimiterBalance) : Nat :=
  match replacement.getLast? with
  | none => 0
  | some line =>
      if endLine ≥ fileLines.length then 0
      else if !isStructuralClosingBoundaryLine line then 0
      else if fileLines[endLine]? ≠ some line then 0
      else if shouldDropSingleStructuralBoundary replacement replacement.dropLast expectedBalance
      then 1
      else 0

def getAnchorTargetLine : HashlineEdit → Option Nat
  | .delete anchor _ _ => some anchor.line
  | .insert (.beforeAnchor anchor) _ _ _ => some anchor.line
  | .insert (.afterAnchor anchor) _ _ _ => some anchor.line
  | .insert _ _ _ _ => none

def collectAnchorTargetLines (edits : List HashlineEdit) : List Nat :=
  edits.filterMap getAnchorTargetLine

def insertText? : HashlineEdit → Option JsString
  | .insert _ text _ _ => some text
  | .delete _ _ _ => none

def deleteAnchor? : HashlineEdit → Option Anchor
  | .insert _ _ _ _ => none
  | .delete anchor _ _ => some anchor

/-- `HashlineReplacementGroup`; `edits` are the edits from `startIndex` to
`endIndex`. -/
structure HashlineReplacementGroup where
  edits : List HashlineEdit
  sourceLineNum : Nat
  replacement : List JsString
  deletes : List Anchor

/-- An insert of a replacement: before an anchor, from the given diff line. -/
def isReplacementInsert (sourceLineNum : Nat) : HashlineEdit → Bool
  | .insert (.beforeAnchor _) _ lineNum _ => lineNum == sourceLineNum
  | _ => false

def isDeleteFrom (sourceLineNum : Nat) : HashlineEdit → Bool
  | .delete _ lineNum _ => lineNum == sourceLineNum
  | .insert _ _ _ _ => false

/-- `findReplacementGroup`, for the edits from `startIndex` on. -/
def findReplacementGroup (edits : List HashlineEdit) : Option HashlineReplacementGroup :=
  match edits with
  | .insert (.beforeAnchor cursorAnchor) _ sourceLineNum _ :: _ =>
      let inserts := edits.takeWhile (isReplacementInsert sourceLineNum)
      let deleteEdits :=
        (edits.dropWhile (isReplacementInsert sourceLineNum)).takeWhile (isDeleteFrom sourceLineNum)
      let deletes := deleteEdits.filterMap deleteAnchor?
      match deletes with
      | [] => none
      | first :: _ =>
          if deletes.zipIdx.all (fun (anchor, offset) => anchor.line == first.line + offset) &&
              cursorAnchor.line == first.line then
            some ⟨inserts ++ deleteEdits, sourceLineNum, inserts.filterMap insertText?, deletes⟩
          else none
  | _ => none

structure HashlinePureInsertGroup where
  edits : List HashlineEdit
  sourceLineNum : Nat
  cursor : HashlineCursor
  payload : List JsString

/-- An insert at the given cursor from the given diff line.  `cursorMatches`
compares kind, line and hash. -/
def isInsertAt (cursor : HashlineCursor) (sourceLineNum : Nat) : HashlineEdit → Bool
  | .insert cursor' _ lineNum _ => lineNum == sourceLineNum && cursor' == cursor
  | .delete _ _ _ => false

/-- `findPureInsertGroup`, for the edits from `startIndex` on. -/
def findPureInsertGroup (edits : List HashlineEdit) : Option HashlinePureInsertGroup :=
  match edits with
  | .insert cursor _ sourceLineNum _ :: _ =>
      let inserts := edits.takeWhile (isInsertAt cursor sourceLineNum)
      let followedByDelete :=
        match edits.dropWhile (isInsertAt cursor sourceLineNum) with
        | next :: _ => isDeleteFrom sourceLineNum next
        | [] => false
      if followedByDelete then none
      else some ⟨inserts, sourceLineNum, cursor, inserts.filterMap insertText?⟩
  | _ => none

/-- What the loop of `absorbReplacementBoundaryDuplicates` finds at an index. -/
inductive Segment where
  | replacement (group : HashlineReplacementGroup)
  | pureInsert (group : HashlinePureInsertGroup)
  | single (edit : HashlineEdit)

def Segment.edits : Segment → List HashlineEdit
  | .replacement group => group.edits
  | .pureInsert group => group.edits
  | .single edit => [edit]

def nextSegment (edit : HashlineEdit) (rest : List HashlineEdit) : Segment :=
  match findReplacementGroup (edit :: rest) with
  | some group => .replacement group
  | none =>
      match findPureInsertGroup (edit :: rest) with
      | some group => .pureInsert group
      | none => .single edit

/-- The segments the loop visits; `fuel` bounds their number. -/
def segmentsFrom : Nat → List HashlineEdit → List Segment
  | 0, _ => []
  | _ + 1, [] => []
  | fuel + 1, edit :: rest =>
      let segment := nextSegment edit rest
      segment :: segmentsFrom fuel ((edit :: rest).drop segment.edits.length)

def segments (edits : List HashlineEdit) : List Segment := segmentsFrom edits.length edits

/-- `pureInsertNeighborhood`: the number of file lines above the insertion point
(`aboveEndIdx + 1`), and `belowStartIdx`. -/
def pureInsertNeighborhood (cursor : HashlineCursor) (fileLines : List JsString) : Nat × Nat :=
  match cursor with
  | .bof => (0, 0)
  | .eof => (fileLines.length, fileLines.length)
  | .beforeAnchor anchor => (anchor.line - 1, anchor.line - 1)
  | .afterAnchor anchor => (anchor.line, anchor.line)

/-- `PureInsertAbsorbResult`; the file ranges are 1-indexed and inclusive. -/
structure PureInsertAbsorbResult where
  keptPayload : List JsString
  absorbedLeading : Nat
  absorbedTrailing : Nat
  leadingFileRange : Option (Nat × Nat)
  trailingFileRange : Option (Nat × Nat)

/-- The leading half of `tryAbsorbPureInsertGroup`. -/
def countAbsorbedLeading (group : HashlinePureInsertGroup) (fileLines : List JsString)
    (aboveCount : Nat) (allowGenericBoundaryAbsorb : Bool) : Nat :=
  let payload := group.payload
  let block :=
    if allowGenericBoundaryAbsorb then
      largestCount (fun count => blockMatches fileLines (aboveCount - count) payload 0 count)
        (min payload.length aboveCount)
    else 0
  if block ≠ 0 then block
  else
    match payload with
    | [] => 0
    | first :: kept =>
        let echoes := aboveCount > 0 && fileLines[aboveCount - 1]? == some first
        let isAfter := match group.cursor with | .afterAnchor _ => true | _ => false
        if allowGenericBoundaryAbsorb && isAfter && !isStructuralClosingBoundaryLine first &&
            echoes then 1
        else if isStructuralClosingBoundaryLine first && echoes &&
            shouldDropSingleStructuralBoundary payload kept zeroDelimiterBalance then 1
        else 0

/-- The trailing half of `tryAbsorbPureInsertGroup`, after `absorbedLeading`. -/
def countAbsorbedTrailing (group : HashlinePureInsertGroup) (fileLines : List JsString)
    (belowStartIdx absorbedLeading : Nat) (allowGenericBoundaryAbsorb : Bool) : Nat :=
  let payload := group.payload
  let remainingPayload := payload.drop absorbedLeading
  let block :=
    if allowGenericBoundaryAbsorb then
      largestCount
        (fun count => blockMatches fileLines belowStartIdx payload (payload.length - count) count)
        (min remainingPayload.length (fileLines.length - belowStartIdx))
    else 0
  if block ≠ 0 then block
  else
    match remainingPayload.getLast? with
    | none => 0
    | some last =>
        let echoes := belowStartIdx < fileLines.length && fileLines[belowStartIdx]? == some last
        let isBefore := match group.cursor with | .beforeAnchor _ => true | _ => false
        if isBefore && allowGenericBoundaryAbsorb && !isStructuralClosingBoundaryLine last &&
            echoes then 1
        else if isStructuralClosingBoundaryLine last && echoes &&
            shouldDropSingleStructuralBoundary remainingPayload remainingPayload.dropLast
              zeroDelimiterBalance then 1
        else 0

def tryAbsorbPureInsertGroup (group : HashlinePureInsertGroup) (fileLines : List JsString)
    (allowGenericBoundaryAbsorb : Bool) : PureInsertAbsorbResult :=
  let payload := group.payload
  if payload.length = 0 then ⟨payload, 0, 0, none, none⟩
  else
    let (aboveCount, belowStartIdx) := pureInsertNeighborhood group.cursor fileLines
    let leading := countAbsorbedLeading group fileLines aboveCount allowGenericBoundaryAbsorb
    let trailing :=
      countAbsorbedTrailing group fileLines belowStartIdx leading allowGenericBoundaryAbsorb
    if leading = 0 && trailing = 0 then ⟨payload, 0, 0, none, none⟩
    else
      { keptPayload := (payload.take (payload.length - trailing)).drop leading
        absorbedLeading := leading
        absorbedTrailing := trailing
        leadingFileRange :=
          if leading > 0 then some (aboveCount - leading + 1, aboveCount) else none
        trailingFileRange :=
          if trailing > 0 then some (belowStartIdx + 1, belowStartIdx + trailing) else none }

/-! ## The loop -/

/-- The keys of `emittedAbsorbKeys`. -/
inductive AbsorbKey where
  | insertLeading (first last : Nat)
  | insertTrailing (first last : Nat)
  | above (first last : Nat)
  | below (first last : Nat)
deriving DecidableEq

/-- The variables of `absorbReplacementBoundaryDuplicates`. -/
structure AbsorbState where
  nextSyntheticIndex : Nat
  absorbed : List HashlineEdit
  warnings : List JsString
  emittedAbsorbKeys : List AbsorbKey

/-- `if (!emittedAbsorbKeys.has(key)) { emittedAbsorbKeys.add(key); warnings.push(…); }` -/
def AbsorbState.warnOnce (s : AbsorbState) (key : AbsorbKey) (warning : JsString) : AbsorbState :=
  if key ∈ s.emittedAbsorbKeys then s
  else { s with emittedAbsorbKeys := key :: s.emittedAbsorbKeys, warnings := s.warnings ++ [warning] }

/-- `${first}..${last}` in a warning. -/
def fileRange (first last : Nat) : JsString := ofNat first ++ js ".." ++ ofNat last

/-- The warning for payload lines dropped from an insert. -/
def droppedWarning (count sourceLineNum first last : Nat) (place side : JsString) : JsString :=
  js "Auto-dropped " ++ ofNat count ++ js " duplicate line(s) at the " ++ place ++
    js " of insert at line " ++ ofNat sourceLineNum ++ js " (file lines " ++ fileRange first last ++
    js " already match the payload's " ++ side ++ js " lines)."

/-- The warning for file lines a replacement was widened over. -/
def absorbedWarning (count sourceLineNum first last : Nat) (place side : JsString) : JsString :=
  js "Auto-absorbed " ++ ofNat count ++ js " duplicate line(s) " ++ place ++
    js " replacement at line " ++ ofNat sourceLineNum ++ js " (file lines " ++
    fileRange first last ++ js " matched the payload's " ++ side ++
    js " lines; widened the deletion to absorb them)."

section Absorb
variable (xxHash32 : List UInt8 → UInt32)

def deleteEditForAutoAbsorbedLine (line sourceLineNum index : Nat) (fileLines : List JsString) :
    HashlineEdit :=
  .delete ⟨line, computeLineHash xxHash32 line (lineAt fileLines line)⟩ sourceLineNum index

/-- The synthetic deletes of `count` lines from `first` on. -/
def AbsorbState.deleteRange (s : AbsorbState) (first count sourceLineNum : Nat)
    (fileLines : List JsString) : AbsorbState :=
  { s with
    nextSyntheticIndex := s.nextSyntheticIndex + count
    absorbed := s.absorbed ++ (List.range count).map fun offset =>
      deleteEditForAutoAbsorbedLine xxHash32 (first + offset) sourceLineNum
        (s.nextSyntheticIndex + offset) fileLines }

def HashlineReplacementGroup.startLine (group : HashlineReplacementGroup) : Nat :=
  (group.deletes.head?.map Anchor.line).getD 0

def HashlineReplacementGroup.endLine (group : HashlineReplacementGroup) : Nat :=
  (group.deletes.getLast?.map Anchor.line).getD 0

/-- `prefixCount` and `suffixCount` of a replacement. -/
def boundaryCounts (fileLines : List JsString) (group : HashlineReplacementGroup) : Nat × Nat :=
  let deletedBalance :=
    computeDelimiterBalance (group.deletes.map fun anchor => lineAt fileLines anchor.line)
  let prefixBlock := countMatchingPrefixBlock fileLines group.startLine group.replacement
  let suffixBlock := countMatchingSuffixBlock fileLines group.endLine group.replacement
  (if prefixBlock ≠ 0 then prefixBlock
    else countMatchingSingleStructuralPrefixBoundary fileLines group.startLine group.replacement
      deletedBalance,
   if suffixBlock ≠ 0 then suffixBlock
    else countMatchingSingleStructuralSuffixBoundary fileLines group.endLine group.replacement
      deletedBalance)

/-- `hasExternalTargets(contiguousRange(first, count), allTargetLines)`. -/
def hasExternalTargets (first count : Nat) (allTargetLines : List Nat) : Bool :=
  (List.range count).any fun offset => (first + offset) ∈ allTargetLines

/-- `safePrefixCount` and `safeSuffixCount` of a replacement. -/
def safeCounts (fileLines : List JsString) (allTargetLines : List Nat)
    (group : HashlineReplacementGroup) : Nat × Nat :=
  let (prefixCount, suffixCount) := boundaryCounts fileLines group
  (if hasExternalTargets (group.startLine - prefixCount) prefixCount allTargetLines then 0
    else prefixCount,
   if hasExternalTargets (group.endLine + 1) suffixCount allTargetLines then 0 else suffixCount)

def absorbReplacement (fileLines : List JsString) (allTargetLines : List Nat) (s : AbsorbState)
    (group : HashlineReplacementGroup) : AbsorbState :=
  let startLine := group.startLine
  let endLine := group.endLine
  let (safePrefixCount, safeSuffixCount) := safeCounts fileLines allTargetLines group
  let s :=
    if safePrefixCount > 0 then
      let absorbStart := startLine - safePrefixCount
      s.warnOnce (.above absorbStart (startLine - 1))
        (absorbedWarning safePrefixCount group.sourceLineNum absorbStart (startLine - 1)
          (js "above") (js "leading"))
    else s
  let s :=
    if safeSuffixCount > 0 then
      let absorbEnd := endLine + safeSuffixCount
      s.warnOnce (.below (endLine + 1) absorbEnd)
        (absorbedWarning safeSuffixCount group.sourceLineNum (endLine + 1) absorbEnd
          (js "below") (js "trailing"))
    else s
  let s := s.deleteRange xxHash32 (startLine - safePrefixCount) safePrefixCount
    group.sourceLineNum fileLines
  let s := { s with absorbed := s.absorbed ++ group.edits }
  s.deleteRange xxHash32 (endLine + 1) safeSuffixCount group.sourceLineNum fileLines

/-- The loop body for a run of inserts. -/
def absorbPureInsert (fileLines : List JsString) (options : HashlineApplyOptions)
    (s : AbsorbState) (group : HashlinePureInsertGroup) : AbsorbState :=
  let result := tryAbsorbPureInsertGroup group fileLines options.autoDropPureInsertDuplicates
  if result.absorbedLeading > 0 || result.absorbedTrailing > 0 then
    let s :=
      match result.leadingFileRange with
      | some (first, last) =>
          s.warnOnce (.insertLeading first last)
            (droppedWarning result.absorbedLeading group.sourceLineNum first last (js "start")
              (js "leading"))
      | none => s
    let s :=
      match result.trailingFileRange with
      | some (first, last) =>
          s.warnOnce (.insertTrailing first last)
            (droppedWarning result.absorbedTrailing group.sourceLineNum first last (js "end")
              (js "trailing"))
      | none => s
    { s with
      nextSyntheticIndex := s.nextSyntheticIndex + result.keptPayload.length
      absorbed := s.absorbed ++ result.keptPayload.mapIdx fun i text =>
        .insert group.cursor text group.sourceLineNum (s.nextSyntheticIndex + i) }
  else { s with absorbed := s.absorbed ++ group.edits }

/-- The loop body. -/
def absorbSegment (fileLines : List JsString) (allTargetLines : List Nat)
    (options : HashlineApplyOptions) (s : AbsorbState) : Segment → AbsorbState
  | .replacement group => absorbReplacement xxHash32 fileLines allTargetLines s group
  | .pureInsert group => absorbPureInsert fileLines options s group
  | .single edit => { s with absorbed := s.absorbed ++ [edit] }

/-- `absorbReplacementBoundaryDuplicates`: the edits and the warnings. -/
def absorbReplacementBoundaryDuplicates (edits : List HashlineEdit) (fileLines : List JsString)
    (options : HashlineApplyOptions) : List HashlineEdit × List JsString :=
  let final := (segments edits).foldl
    (absorbSegment xxHash32 fileLines (collectAnchorTargetLines edits) options)
    ⟨edits.length, [], [], []⟩
  (final.absorbed, final.warnings)

end Absorb

theorem takeWhile_append_takeWhile_isPrefix (p q : HashlineEdit → Bool)
    (edits : List HashlineEdit) :
    edits.takeWhile p ++ (edits.dropWhile p).takeWhile q <+: edits := by
  refine ⟨(edits.dropWhile p).dropWhile q, ?_⟩
  rw [append_assoc, takeWhile_append_dropWhile, takeWhile_append_dropWhile]

/-- What a replacement group is: inserts before its first line, then deletes of
consecutive lines, all at the head of the edits. -/
theorem findReplacementGroup_spec {edits : List HashlineEdit} {group : HashlineReplacementGroup}
    (h : findReplacementGroup edits = some group) : group.edits <+: edits ∧
      ∃ inserts deleteEdits first rest, group.edits = inserts ++ deleteEdits ∧ inserts ≠ [] ∧
        (∀ edit ∈ inserts, isReplacementInsert group.sourceLineNum edit = true) ∧
        (∀ edit ∈ deleteEdits, isDeleteFrom group.sourceLineNum edit = true) ∧
        group.replacement = inserts.filterMap insertText? ∧
        group.deletes = deleteEdits.filterMap deleteAnchor? ∧ group.deletes = first :: rest ∧
        ∀ p ∈ group.deletes.zipIdx, p.1.line = first.line + p.2 := by
  unfold findReplacementGroup at h
  split at h
  case h_2 => cases h
  case h_1 cursorAnchor text sourceLineNum index tail =>
    dsimp only at h
    split at h
    case h_1 => cases h
    case h_2 first rest hdeletes =>
      split at h
      case isFalse => cases h
      case isTrue hcond =>
        cases h
        rw [Bool.and_eq_true, all_eq_true] at hcond
        refine ⟨takeWhile_append_takeWhile_isPrefix _ _ _, _, _, first, rest, rfl, ?_, ?_, ?_, rfl,
          rfl, hdeletes, ?_⟩
        · rw [takeWhile_cons_of_pos (by simp [isReplacementInsert])]
          exact cons_ne_nil _ _
        · intro edit hedit
          exact mem_takeWhile_imp hedit
        · intro edit hedit
          exact mem_takeWhile_imp hedit
        · intro p hp
          simpa using hcond.1 p hp

theorem findPureInsertGroup_spec {edits : List HashlineEdit} {group : HashlinePureInsertGroup}
    (h : findPureInsertGroup edits = some group) : group.edits <+: edits ∧ group.edits ≠ [] ∧
      (∀ edit ∈ group.edits, isInsertAt group.cursor group.sourceLineNum edit = true) := by
  unfold findPureInsertGroup at h
  split at h
  case h_2 => cases h
  case h_1 cursor text sourceLineNum index tail =>
    dsimp only at h
    generalize hnext : (match dropWhile (isInsertAt cursor sourceLineNum) _ with
      | next :: _ => isDeleteFrom sourceLineNum next
      | [] => false) = followed at h
    cases followed with
    | true => cases h
    | false =>
      cases h
      refine ⟨List.takeWhile_prefix _, ?_, ?_⟩
      · rw [takeWhile_cons_of_pos (by simp [isInsertAt])]
        exact cons_ne_nil _ _
      · intro edit hedit
        exact mem_takeWhile_imp hedit

theorem nextSegment_edits (edit : HashlineEdit) (rest : List HashlineEdit) :
    (nextSegment edit rest).edits <+: edit :: rest ∧ (nextSegment edit rest).edits ≠ [] := by
  unfold nextSegment
  split
  case h_1 group hgroup =>
    obtain ⟨hinitial, inserts, deleteEdits, _, _, hedits, hne, _⟩ := findReplacementGroup_spec hgroup
    refine ⟨hinitial, ?_⟩
    simp [Segment.edits, hedits, hne]
  case h_2 =>
    split
    case h_1 group hgroup =>
      obtain ⟨hinitial, hne, _⟩ := findPureInsertGroup_spec hgroup
      exact ⟨hinitial, hne⟩
    case h_2 => exact ⟨⟨rest, rfl⟩, cons_ne_nil _ _⟩

theorem segmentsFrom_flatMap (fuel : Nat) (edits : List HashlineEdit) (h : edits.length ≤ fuel) :
    (segmentsFrom fuel edits).flatMap Segment.edits = edits := by
  induction fuel generalizing edits with
  | zero =>
    obtain rfl : edits = [] := length_eq_zero_iff.mp (Nat.le_zero.mp h)
    rfl
  | succ fuel ih =>
    cases edits with
    | nil => rfl
    | cons edit rest =>
      obtain ⟨⟨suffix, hsuffix⟩, hne⟩ := nextSegment_edits edit rest
      have hpos : 0 < (nextSegment edit rest).edits.length := length_pos_iff.mpr hne
      have hdrop : (edit :: rest).drop (nextSegment edit rest).edits.length = suffix := by
        rw [← hsuffix, drop_left]
      have hlen : suffix.length ≤ fuel := by
        have := congrArg length hsuffix
        simp only [length_append, length_cons] at this h
        omega
      rw [segmentsFrom, flatMap_cons, hdrop, ih suffix hlen]
      exact hsuffix

/-- **The segments of a batch are the batch.** -/
theorem segments_flatMap (edits : List HashlineEdit) :
    (segments edits).flatMap Segment.edits = edits :=
  segmentsFrom_flatMap edits.length edits le_rfl

/-! ## Without a warning nothing is absorbed -/

theorem AbsorbState.warnOnce_warnings {s : AbsorbState} {key : AbsorbKey} {warning : JsString}
    (hkeys : s.warnings = [] → s.emittedAbsorbKeys = []) :
    (s.warnOnce key warning).warnings ≠ [] := by
  unfold warnOnce
  split
  case isTrue hmem =>
    intro hnil
    rw [hkeys hnil] at hmem
    exact absurd hmem not_mem_nil
  case isFalse => simp

section Quiet
variable {xxHash32 : List UInt8 → UInt32} {fileLines : List JsString} {allTargetLines : List Nat}
  {options : HashlineApplyOptions}
variable {s : AbsorbState}

theorem AbsorbState.deleteRange_zero (s : AbsorbState) (first sourceLineNum : Nat) :
    s.deleteRange xxHash32 first 0 sourceLineNum fileLines = s := by
  simp [deleteRange]

theorem absorbReplacement_quiet (hkeys : s.warnings = [] → s.emittedAbsorbKeys = [])
    (group : HashlineReplacementGroup) :
    ((absorbReplacement xxHash32 fileLines allTargetLines s group).warnings ≠ []) ∨
      absorbReplacement xxHash32 fileLines allTargetLines s group =
        { s with absorbed := s.absorbed ++ group.edits } := by
  unfold absorbReplacement
  obtain ⟨p, q⟩ := safeCounts fileLines allTargetLines group
  dsimp only
  rcases Nat.eq_zero_or_pos p with rfl | hp <;> rcases Nat.eq_zero_or_pos q with rfl | hq
  · right
    simp [AbsorbState.deleteRange_zero]
  · left
    simp only [hq, Nat.lt_irrefl, if_true, if_false, gt_iff_lt]
    exact AbsorbState.warnOnce_warnings hkeys
  · left
    simp only [hp, Nat.lt_irrefl, if_true, if_false, gt_iff_lt]
    exact AbsorbState.warnOnce_warnings hkeys
  · left
    simp only [hp, hq, if_true]
    exact AbsorbState.warnOnce_warnings fun h => absurd h (AbsorbState.warnOnce_warnings hkeys)

theorem tryAbsorbPureInsertGroup_ranges (group : HashlinePureInsertGroup)
    (fileLines : List JsString) (allow : Bool) :
    let result := tryAbsorbPureInsertGroup group fileLines allow
    (0 < result.absorbedLeading → result.leadingFileRange.isSome) ∧
      (0 < result.absorbedTrailing → result.trailingFileRange.isSome) := by
  unfold tryAbsorbPureInsertGroup
  dsimp only
  split
  · simp
  · split
    · simp
    · constructor
      · intro h
        simp only [gt_iff_lt] at h ⊢
        simp [h]
      · intro h
        simp only [gt_iff_lt] at h ⊢
        simp [h]

theorem absorbPureInsert_quiet (hkeys : s.warnings = [] → s.emittedAbsorbKeys = [])
    (group : HashlinePureInsertGroup) :
    ((absorbPureInsert fileLines options s group).warnings ≠ []) ∨
      absorbPureInsert fileLines options s group =
        { s with absorbed := s.absorbed ++ group.edits } := by
  obtain ⟨hlead, htrail⟩ :=
    tryAbsorbPureInsertGroup_ranges group fileLines options.autoDropPureInsertDuplicates
  unfold absorbPureInsert
  dsimp only
  generalize tryAbsorbPureInsertGroup group fileLines options.autoDropPureInsertDuplicates = result
    at hlead htrail
  split
  case isFalse => exact Or.inr rfl
  case isTrue habsorbs =>
    left
    rw [Bool.or_eq_true, decide_eq_true_eq, decide_eq_true_eq] at habsorbs
    -- whichever end is absorbed has its file range, and with it a warning
    have hwarned : ∀ {s : AbsorbState}, (s.warnings = [] → s.emittedAbsorbKeys = []) →
        0 < result.absorbedTrailing ∨ s.warnings ≠ [] →
        (match result.trailingFileRange with
          | some (first, last) =>
              s.warnOnce (.insertTrailing first last)
                (droppedWarning result.absorbedTrailing group.sourceLineNum first last (js "end")
                  (js "trailing"))
          | none => s).warnings ≠ [] := by
      intro s hkeys h
      split
      case h_1 => exact AbsorbState.warnOnce_warnings hkeys
      case h_2 hnone =>
        rcases h with h | h
        · exact absurd (htrail h) (by simp [hnone])
        · exact h
    refine hwarned ?_ ?_
    · split
      case h_1 => exact fun h => absurd h (AbsorbState.warnOnce_warnings hkeys)
      case h_2 => exact hkeys
    · rcases habsorbs with h | h
      · right
        split
        case h_1 => exact AbsorbState.warnOnce_warnings hkeys
        case h_2 hnone => exact absurd (hlead h) (by simp [hnone])
      · exact Or.inl h

theorem absorbSegment_quiet (hkeys : s.warnings = [] → s.emittedAbsorbKeys = []) (segment : Segment)
    : ((absorbSegment xxHash32 fileLines allTargetLines options s segment).warnings ≠ []) ∨
      absorbSegment xxHash32 fileLines allTargetLines options s segment =
        { s with absorbed := s.absorbed ++ segment.edits } := by
  cases segment with
  | replacement group => exact absorbReplacement_quiet hkeys group
  | pureInsert group => exact absorbPureInsert_quiet hkeys group
  | single edit => exact Or.inr rfl

/-- A run of segments that ends without a warning copies them all. -/
theorem foldl_absorbSegment_quiet (xxHash32 : List UInt8 → UInt32) (fileLines : List JsString)
    (allTargetLines : List Nat) (options : HashlineApplyOptions) (segs : List Segment)
    (s : AbsorbState) (hkeys : s.warnings = [] → s.emittedAbsorbKeys = []) :
    ((segs.foldl (absorbSegment xxHash32 fileLines allTargetLines options) s).warnings ≠ []) ∨
      segs.foldl (absorbSegment xxHash32 fileLines allTargetLines options) s =
        { s with absorbed := s.absorbed ++ segs.flatMap Segment.edits } := by
  induction segs generalizing s with
  | nil => exact Or.inr (by simp)
  | cons segment segs ih =>
    rw [foldl_cons]
    rcases absorbSegment_quiet hkeys segment with hwarn | hcopy
    · -- warnings are never taken back
      rcases ih _ (fun h => absurd h hwarn) with h | h
      · exact Or.inl h
      · exact Or.inl (by rw [h]; exact hwarn)
    · rw [hcopy]
      refine (ih { s with absorbed := s.absorbed ++ segment.edits } hkeys).imp_right fun h => ?_
      rw [h, flatMap_cons, append_assoc]

/-- **Without a warning the batch is applied as it is.** -/
theorem absorb_of_warnings_nil {edits : List HashlineEdit}
    (h : (absorbReplacementBoundaryDuplicates xxHash32 edits fileLines options).2 = []) :
    (absorbReplacementBoundaryDuplicates xxHash32 edits fileLines options).1 = edits := by
  unfold absorbReplacementBoundaryDuplicates at h ⊢
  dsimp only at h ⊢
  rcases foldl_absorbSegment_quiet xxHash32 fileLines (collectAnchorTargetLines edits) options
    (segments edits) ⟨edits.length, [], [], []⟩ (fun _ => rfl) with hwarn | hcopy
  · exact absurd h hwarn
  · rw [hcopy, segments_flatMap, nil_append]

end Quiet
end GajaeCode
