import GajaeCode.HashlineApply
import GajaeCode.Widenings

/-! # No line is lost when boundary duplicates are absorbed

The batch `applyHashlineEdits` splices is the caller's batch with some deletes
added and some inserts dropped.  This module reads off what was added — the
widenings of `Widenings` — and concludes that every file line the caller does not
delete is still in the output, in order, whenever the widenings are harmless and
an insert at either end of the file does not replace the last line left.
-/
namespace GajaeCode
open JsString Splices List Bool

section Output
variable (xxHash32 : List UInt8 → UInt32) (fileLines : List JsString) (allTargetLines : List Nat)
  (options : HashlineApplyOptions)

/-- The synthetic deletes of `count` lines from `first` on. -/
def deleteEdits (first count sourceLineNum index : Nat) : List HashlineEdit :=
  (List.range count).map fun offset =>
    deleteEditForAutoAbsorbedLine xxHash32 (first + offset) sourceLineNum (index + offset) fileLines

/-- What `absorbSegment` adds to the batch, with synthetic indices from `index` on. -/
def segmentOutput (index : Nat) : Segment → List HashlineEdit
  | .replacement group =>
      let (safePrefixCount, safeSuffixCount) := safeCounts fileLines allTargetLines group
      deleteEdits xxHash32 fileLines (group.startLine - safePrefixCount) safePrefixCount
          group.sourceLineNum index ++
        group.edits ++
        deleteEdits xxHash32 fileLines (group.endLine + 1) safeSuffixCount group.sourceLineNum
          (index + safePrefixCount)
  | .pureInsert group =>
      let result := tryAbsorbPureInsertGroup group fileLines options.autoDropPureInsertDuplicates
      if result.absorbedLeading > 0 || result.absorbedTrailing > 0 then
        result.keptPayload.mapIdx fun i text =>
          .insert group.cursor text group.sourceLineNum (index + i)
      else group.edits
  | .single edit => [edit]

variable {xxHash32 fileLines allTargetLines options}

@[simp] theorem AbsorbState.warnOnce_absorbed (s : AbsorbState) (key : AbsorbKey)
    (warning : JsString) : (s.warnOnce key warning).absorbed = s.absorbed := by
  unfold warnOnce
  split <;> rfl

@[simp] theorem AbsorbState.warnOnce_nextSyntheticIndex (s : AbsorbState) (key : AbsorbKey)
    (warning : JsString) : (s.warnOnce key warning).nextSyntheticIndex = s.nextSyntheticIndex := by
  unfold warnOnce
  split <;> rfl

theorem absorbSegment_absorbed (s : AbsorbState) (segment : Segment) :
    (absorbSegment xxHash32 fileLines allTargetLines options s segment).absorbed = s.absorbed ++
        segmentOutput xxHash32 fileLines allTargetLines options s.nextSyntheticIndex segment := by
  cases segment with
  | single edit => rfl
  | pureInsert group =>
    simp only [absorbSegment, absorbPureInsert, segmentOutput]
    split
    case isFalse => rfl
    case isTrue =>
      dsimp only
      split <;> split <;> simp
  | replacement group =>
    simp only [absorbSegment, absorbReplacement, segmentOutput, AbsorbState.deleteRange, deleteEdits]
    split <;> split <;> simp

def eraseIndex : HashlineEdit → HashlineEdit
  | .insert cursor text lineNum _ => .insert cursor text lineNum 0
  | .delete anchor lineNum _ => .delete anchor lineNum 0

theorem eraseIndex_segmentOutput (index : Nat) (segment : Segment) :
    (segmentOutput xxHash32 fileLines allTargetLines options index segment).map eraseIndex =
      (segmentOutput xxHash32 fileLines allTargetLines options 0 segment).map eraseIndex := by
  cases segment with
  | single edit => rfl
  | pureInsert group =>
    simp only [segmentOutput]
    split
    · refine ext_getElem? fun i => ?_
      simp [eraseIndex, Function.comp_def]
    · rfl
  | replacement group =>
    simp [segmentOutput, deleteEdits, deleteEditForAutoAbsorbedLine, eraseIndex, Function.comp_def]

/-- **The absorbed batch**, up to indices: the outputs of its segments. -/
theorem eraseIndex_foldl_absorbSegment (segs : List Segment) (s : AbsorbState) :
    (segs.foldl (absorbSegment xxHash32 fileLines allTargetLines options) s).absorbed.map eraseIndex =
      s.absorbed.map eraseIndex ++ segs.flatMap fun segment =>
        (segmentOutput xxHash32 fileLines allTargetLines options 0 segment).map eraseIndex := by
  induction segs generalizing s with
  | nil => simp
  | cons segment segs ih =>
    rw [foldl_cons, ih, absorbSegment_absorbed, map_append, eraseIndex_segmentOutput,
      flatMap_cons, append_assoc]

end Output
section Groups
variable {edits : List HashlineEdit} {group : HashlineReplacementGroup}
variable {segment : Segment}

theorem exists_nextSegment {fuel : Nat} (h : segment ∈ segmentsFrom fuel edits) :
    ∃ edit rest, segment = nextSegment edit rest := by
  induction fuel generalizing edits with
  | zero => exact absurd h not_mem_nil
  | succ fuel ih =>
    cases edits with
    | nil => exact absurd h not_mem_nil
    | cons edit rest =>
      rw [segmentsFrom] at h
      rcases mem_cons.mp h with rfl | h
      · exact ⟨edit, rest, rfl⟩
      · exact ih h

theorem findReplacementGroup_of_mem (h : Segment.replacement group ∈ segments edits) :
    ∃ rest, findReplacementGroup rest = some group := by
  obtain ⟨edit, rest, hnext⟩ := exists_nextSegment h
  refine ⟨edit :: rest, ?_⟩
  unfold nextSegment at hnext
  split at hnext
  case h_1 group' hgroup => exact (Segment.replacement.inj hnext) ▸ hgroup
  case h_2 =>
    split at hnext
    · cases hnext
    · cases hnext

/-- The line and the text of an insert before an anchor. -/
def placedText? : HashlineEdit → Option (Nat × JsString)
  | .insert (.beforeAnchor anchor) text _ _ => some (anchor.line, text)
  | _ => none

/-- The texts of a replacement, each with the line it is inserted at. -/
def placedTexts (group : HashlineReplacementGroup) : List (Nat × JsString) :=
  group.edits.filterMap placedText?

/-- A replacement inserts before anchors and deletes, nothing else. -/
theorem kind_of_mem_group (h : Segment.replacement group ∈ segments edits) {edit : HashlineEdit}
    (hedit : edit ∈ group.edits) : isReplacementInsert group.sourceLineNum edit = true ∨
      isDeleteFrom group.sourceLineNum edit = true := by
  obtain ⟨rest, hfind⟩ := findReplacementGroup_of_mem h
  obtain ⟨_, inserts, deletes', _, _, hedits, _, hinserts, hdeletes, _⟩ :=
    findReplacementGroup_spec hfind
  rw [hedits] at hedit
  exact (mem_append.mp hedit).imp (hinserts edit) (hdeletes edit)

theorem map_placedTexts (h : Segment.replacement group ∈ segments edits) :
    (placedTexts group).map Prod.snd = group.replacement := by
  obtain ⟨rest, hfind⟩ := findReplacementGroup_of_mem h
  obtain ⟨_, inserts, deletes', _, _, hedits, _, hinserts, hdeletes, hreplacement, _⟩ :=
    findReplacementGroup_spec hfind
  have hnone : deletes'.filterMap placedText? = [] := by
    rw [filterMap_eq_nil_iff]
    intro e he
    have hkind := hdeletes e he
    cases e with
    | insert _ _ _ _ => cases hkind
    | delete _ _ _ => rfl
  rw [placedTexts, hedits, filterMap_append, hnone, append_nil, hreplacement, map_filterMap]
  refine filterMap_congr fun e he => ?_
  have hkind := hinserts e he
  cases e with
  | delete _ _ _ => cases hkind
  | insert cursor text lineNum index =>
    cases cursor with
    | beforeAnchor anchor => rfl
    | _ => cases hkind

/-- **What a replacement inserts before a line**, widened or not. -/
theorem insertedBefore_segmentOutput (xxHash32 : List UInt8 → UInt32) (fileLines : List JsString)
    (allTargetLines : List Nat) (options : HashlineApplyOptions)
    (h : Segment.replacement group ∈ segments edits) (line : Nat) :
    ((segmentOutput xxHash32 fileLines allTargetLines options 0 (.replacement group)).filterMap
        fun edit => insertedBefore? line (normalizeCursor xxHash32 fileLines edit)) =
      ((placedTexts group).filter fun p => p.1 = line).map Prod.snd := by
  have hsynthetic : ∀ first count index,
      (deleteEdits xxHash32 fileLines first count group.sourceLineNum index).filterMap
        (fun edit => insertedBefore? line (normalizeCursor xxHash32 fileLines edit)) = [] := by
    intro first count index
    rw [filterMap_eq_nil_iff]
    intro e he
    obtain ⟨offset, _, rfl⟩ := mem_map.mp he
    rfl
  rw [segmentOutput]
  simp only [filterMap_append, hsynthetic, nil_append, append_nil]
  rw [placedTexts, filter_filterMap, map_filterMap]
  refine filterMap_congr fun edit hedit => ?_
  have hkind := kind_of_mem_group h hedit
  cases edit with
  | delete anchor lineNum index => rfl
  | insert cursor text lineNum index =>
    cases cursor with
    | beforeAnchor anchor =>
      by_cases hline : anchor.line = line <;>
        simp [normalizeCursor, insertedBefore?, placedText?, Option.filter, hline]
    | _ => rcases hkind with hkind | hkind <;> cases hkind

theorem findPureInsertGroup_of_mem {group : HashlinePureInsertGroup}
    (h : Segment.pureInsert group ∈ segments edits) :
    ∃ rest, findPureInsertGroup rest = some group := by
  obtain ⟨edit, rest, hnext⟩ := exists_nextSegment h
  refine ⟨edit :: rest, ?_⟩
  unfold nextSegment at hnext
  split at hnext
  · cases hnext
  · split at hnext
    case h_1 group' hgroup => exact (Segment.pureInsert.inj hnext) ▸ hgroup
    case h_2 => cases hnext

theorem mem_edits_of_mem_segment (h : segment ∈ segments edits) {edit : HashlineEdit}
    (hedit : edit ∈ segment.edits) : edit ∈ edits := by
  rw [← segments_flatMap edits]
  exact mem_flatMap.mpr ⟨segment, h, hedit⟩

section
variable (h : Segment.replacement group ∈ segments edits)
include h

theorem line_of_mem_deletes :
    0 < group.deletes.length ∧ group.endLine + 1 = group.startLine + group.deletes.length ∧
      ∀ i (hi : i < group.deletes.length), group.deletes[i].line = group.startLine + i := by
  obtain ⟨rest, hfind⟩ := findReplacementGroup_of_mem h
  obtain ⟨_, _, _, first, tail, _, _, _, _, _, _, hdeletes, hlines⟩ := findReplacementGroup_spec hfind
  have hstart : group.startLine = first.line := by
    simp [HashlineReplacementGroup.startLine, hdeletes]
  have hline : ∀ i (hi : i < group.deletes.length),
      group.deletes[i].line = group.startLine + i := by
    intro i hi
    have hmem : (group.deletes[i], i) ∈ group.deletes.zipIdx := by
      rw [mk_mem_zipIdx_iff_getElem?]
      exact getElem?_eq_getElem hi
    rw [hstart]
    exact hlines _ hmem
  have hpos : 0 < group.deletes.length := by
    rw [hdeletes]
    exact Nat.succ_pos _
  refine ⟨hpos, ?_, hline⟩
  have hlast : group.deletes.getLast? = some group.deletes[group.deletes.length - 1] := by
    rw [getLast?_eq_getElem?]
    exact getElem?_eq_getElem (by omega)
  have hend : group.endLine = group.startLine + (group.deletes.length - 1) := by
    rw [HashlineReplacementGroup.endLine, hlast]
    exact hline _ _
  omega

theorem exists_delete_of_mem_deletes {anchor : Anchor} (hanchor : anchor ∈ group.deletes) :
    ∃ lineNum index, HashlineEdit.delete anchor lineNum index ∈ edits := by
  obtain ⟨rest, hfind⟩ := findReplacementGroup_of_mem h
  obtain ⟨_, _, deleteEdits, _, _, hedits, _, _, _, _, hdeletes, _⟩ :=
    findReplacementGroup_spec hfind
  rw [hdeletes] at hanchor
  obtain ⟨edit, hedit, hanchor⟩ := mem_filterMap.mp hanchor
  cases edit with
  | insert cursor text lineNum index => cases hanchor
  | delete anchor' lineNum index =>
    cases hanchor
    refine ⟨lineNum, index, mem_edits_of_mem_segment h ?_⟩
    rw [Segment.edits, hedits]
    exact mem_append_right _ hedit

theorem deletedIn_of_mem_group {line : Nat} (h₁ : group.startLine ≤ line)
    (h₂ : line ≤ group.endLine) : deletedIn edits line = true := by
  obtain ⟨_, hend, hline⟩ := line_of_mem_deletes h
  have hi : line - group.startLine < group.deletes.length := by omega
  obtain ⟨lineNum, index, hmem⟩ := exists_delete_of_mem_deletes h (getElem_mem hi)
  refine any_eq_true.mpr ⟨_, hmem, ?_⟩
  simp only [deletesLine, hline _ hi, beq_iff_eq]
  omega

end

/-! ## Texts at the two ends

Absorption may drop texts of a group of inserts, but it moves none.  So of the texts at
cursors of a kind it leaves a subsequence. -/

/-- The text of an insert at a cursor of a kind. -/
def textAt? (kind : HashlineCursor → Bool) : HashlineEdit → Option JsString
  | .insert cursor text _ _ => if kind cursor then some text else none
  | .delete _ _ _ => none

def isStartCursor : HashlineCursor → Bool
  | .bof => true
  | _ => false

/-- A cursor at the end of the file or after its last line. -/
def isEndCursor (lineCount : Nat) : HashlineCursor → Bool
  | .eof => true
  | .afterAnchor anchor => anchor.line ≥ lineCount
  | _ => false

/-- The text of an insert at the end of the file or after its last line. -/
def endText? (lineCount : Nat) : HashlineEdit → Option JsString := textAt? (isEndCursor lineCount)

section Texts
variable (kind : HashlineCursor → Bool)

theorem textAt?_eraseIndex (edit : HashlineEdit) :
    textAt? kind (eraseIndex edit) = textAt? kind edit := by
  cases edit <;> rfl

theorem filterMap_textAt?_of_group {rest : List HashlineEdit} {group : HashlinePureInsertGroup}
    (h : findPureInsertGroup rest = some group) :
    group.edits.filterMap (textAt? kind) = if kind group.cursor then group.payload else [] := by
  have hpayload : group.payload = group.edits.filterMap insertText? := by
    unfold findPureInsertGroup at h
    split at h
    case h_2 => cases h
    case h_1 cursor text sourceLineNum index tail =>
      obtain ⟨-, hgroup⟩ := Option.ite_none_left_eq_some.mp h
      cases hgroup
      rfl
  rw [hpayload]
  have hinserts := (findPureInsertGroup_spec h).2.2
  generalize group.edits = es at hinserts
  induction es with
  | nil => simp
  | cons e es ih =>
    have hrest := ih fun e' he' => hinserts e' (mem_cons_of_mem _ he')
    have he := hinserts e mem_cons_self
    cases e with
    | delete anchor lineNum index => cases he
    | insert cursor text lineNum index =>
      have hcursor : cursor = group.cursor := beq_iff_eq.mp (and_eq_true_iff.mp he).2
      rw [filterMap_cons, textAt?, hrest, hcursor]
      split <;> simp_all [insertText?]

theorem keptPayload_sublist (group : HashlinePureInsertGroup) (fileLines : List JsString)
    (allow : Bool) : (tryAbsorbPureInsertGroup group fileLines allow).keptPayload <+ group.payload := by
  unfold tryAbsorbPureInsertGroup
  dsimp only
  split
  · exact Sublist.refl _
  · split
    · exact Sublist.refl _
    · exact (drop_sublist _ _).trans (take_sublist _ _)

theorem textsAt_absorbed (xxHash32 : List UInt8 → UInt32) (edits : List HashlineEdit)
    (fileLines : List JsString) (options : HashlineApplyOptions) :
    (absorbReplacementBoundaryDuplicates xxHash32 edits fileLines options).1.filterMap
      (textAt? kind) <+ edits.filterMap (textAt? kind) := by
  have herase : ∀ es : List HashlineEdit, es.filterMap (textAt? kind) =
      (es.map eraseIndex).filterMap (textAt? kind) := by
    intro es
    rw [filterMap_map]
    exact filterMap_congr fun edit _ => (textAt?_eraseIndex kind edit).symm
  rw [herase (absorbReplacementBoundaryDuplicates _ _ _ _).1, absorbReplacementBoundaryDuplicates,
    eraseIndex_foldl_absorbSegment, map_nil, nil_append, filterMap_flatMap]
  conv_rhs => rw [← segments_flatMap edits, filterMap_flatMap]
  refine Sublist.flatMap_right _ fun segment hmem => ?_
  rw [← herase]
  cases segment with
  | single edit => exact Sublist.refl _
  | replacement group =>
    have hdeletes : ∀ first count lineNum index, (deleteEdits xxHash32 fileLines first count lineNum
        index).filterMap (textAt? kind) = [] := by
      intro first count lineNum index
      rw [deleteEdits, filterMap_map]
      exact filterMap_eq_nil_iff.mpr fun _ _ => rfl
    simp only [segmentOutput, Segment.edits, filterMap_append, hdeletes, nil_append, append_nil]
    exact Sublist.refl _
  | pureInsert group =>
    obtain ⟨rest, hfind⟩ := findPureInsertGroup_of_mem hmem
    simp only [segmentOutput, Segment.edits]
    split
    case isFalse => exact Sublist.refl _
    case isTrue =>
      have htexts : ∀ kept : List JsString, (kept.mapIdx fun i text =>
          HashlineEdit.insert group.cursor text group.sourceLineNum (0 + i)).filterMap
            (textAt? kind) = if kind group.cursor then kept else [] := by
        intro kept
        rw [mapIdx_eq_zipIdx_map, filterMap_map]
        simp only [Function.comp_def, textAt?]
        split <;> simp [filterMap_eq_map']
      rw [htexts, filterMap_textAt?_of_group kind hfind]
      split
      · exact keptPayload_sublist _ _ _
      · exact Sublist.refl _

end Texts

section Ends
variable {xxHash32 : List UInt8 → UInt32} {fileLines : List JsString}

theorem eofText?_normalizeCursor (edit : HashlineEdit) :
    eofText? (normalizeCursor xxHash32 fileLines edit) = endText? fileLines.length edit := by
  cases edit with
  | delete anchor lineNum index => rfl
  | insert cursor text lineNum index =>
    cases cursor with
    | afterAnchor anchor =>
      simp only [normalizeCursor, endText?, textAt?, isEndCursor, decide_eq_true_eq]
      split <;> rfl
    | _ => rfl

theorem bofText?_normalizeCursor_eq (edit : HashlineEdit) :
    bofText? (normalizeCursor xxHash32 fileLines edit) = bofText? edit := by
  cases edit with
  | delete anchor lineNum index => rfl
  | insert cursor text lineNum index =>
    cases cursor with
    | afterAnchor anchor =>
      simp only [normalizeCursor]
      split <;> rfl
    | _ => rfl

end Ends

/-! ## What the counts guarantee -/

theorem largestCount_spec (matches_ : Nat → Bool) (max : Nat) : largestCount matches_ max ≤ max ∧
      (largestCount matches_ max = 0 ∨
        (2 ≤ largestCount matches_ max ∧ matches_ (largestCount matches_ max) = true)) := by
  induction max using largestCount.induct matches_ with
  | case1 | case2 => simp [largestCount]
  | case3 count hmatch =>
    rw [largestCount, if_pos hmatch]
    exact ⟨le_rfl, Or.inr ⟨by omega, hmatch⟩⟩
  | case4 count hmatch ih =>
    rw [largestCount, if_neg hmatch]
    exact ⟨by omega, ih.2⟩

theorem blockMatches_getElem? {fileLines payload : List JsString} {fileStart payloadStart count : Nat}
    (h : blockMatches fileLines fileStart payload payloadStart count = true) {o : Nat}
    (ho : o < count) : fileLines[fileStart + o]? = payload[payloadStart + o]? := by
  have := all_eq_true.mp h o (mem_range.mpr ho)
  exact beq_iff_eq.mp this

/-- A number of file lines ending before line `start` that head a payload; a
single one is structural. -/
structure HeadsPayload (fileLines : List JsString) (start : Nat) (payload : List JsString)
    (count : Nat) : Prop where
  le_length : count ≤ payload.length
  le_start : count ≤ start - 1
  text : ∀ o < count, fileLines[start - count - 1 + o]? = payload[o]?
  structural : count = 1 → ∃ line kept, payload = line :: kept ∧
    isStructuralClosingBoundaryLine line = true

/-- A number of file lines after line `last` that end a payload; a single one is
structural. -/
structure EndsPayload (fileLines : List JsString) (last : Nat) (payload : List JsString)
    (count : Nat) : Prop where
  le_length : count ≤ payload.length
  le_file : count ≤ fileLines.length - last
  text : ∀ o < count, fileLines[last + o]? = payload[payload.length - count + o]?
  structural : count = 1 → ∃ line, payload.getLast? = some line ∧
    isStructuralClosingBoundaryLine line = true

section
variable (fileLines : List JsString)
include fileLines

theorem HeadsPayload.zero (start : Nat) (payload : List JsString) :
    HeadsPayload fileLines start payload 0 :=
  ⟨by omega, by omega, fun o ho => absurd ho (by omega), fun h => absurd h (by omega)⟩

theorem EndsPayload.zero (last : Nat) (payload : List JsString) :
    EndsPayload fileLines last payload 0 :=
  ⟨by omega, by omega, fun o ho => absurd ho (by omega), fun h => absurd h (by omega)⟩

theorem headsPayload_block (start : Nat) (payload : List JsString) :
    HeadsPayload fileLines start payload (countMatchingPrefixBlock fileLines start payload) := by
  obtain ⟨hle, hcases⟩ := largestCount_spec
    (fun count => blockMatches fileLines (start - count - 1) payload 0 count)
    (min payload.length (start - 1))
  change countMatchingPrefixBlock fileLines start payload ≤ _ at hle
  rcases hcases with hzero | ⟨htwo, hmatch⟩
  · rw [countMatchingPrefixBlock, hzero]
    exact HeadsPayload.zero fileLines start payload
  · refine ⟨by omega, by omega, fun o ho => ?_, fun h => ?_⟩
    · have hline := blockMatches_getElem? hmatch ho
      rw [Nat.zero_add] at hline
      exact hline
    · rw [countMatchingPrefixBlock] at h
      omega

theorem endsPayload_block (last : Nat) (payload : List JsString) :
    EndsPayload fileLines last payload (countMatchingSuffixBlock fileLines last payload) := by
  obtain ⟨hle, hcases⟩ := largestCount_spec
    (fun count => blockMatches fileLines last payload (payload.length - count) count)
    (min payload.length (fileLines.length - last))
  change countMatchingSuffixBlock fileLines last payload ≤ _ at hle
  rcases hcases with hzero | ⟨htwo, hmatch⟩
  · rw [countMatchingSuffixBlock, hzero]
    exact EndsPayload.zero fileLines last payload
  · refine ⟨by omega, by omega, fun o ho => blockMatches_getElem? hmatch ho, fun h => ?_⟩
    rw [countMatchingSuffixBlock] at h
    omega

theorem headsPayload_single (start : Nat) (payload : List JsString) (balance : DelimiterBalance) :
    HeadsPayload fileLines start payload
      (countMatchingSingleStructuralPrefixBoundary fileLines start payload balance) := by
  unfold countMatchingSingleStructuralPrefixBoundary
  split
  · exact HeadsPayload.zero _ _ _
  · rename_i line kept
    split_ifs with hstart hstructural hline hdrop
    · exact HeadsPayload.zero _ _ _
    · exact HeadsPayload.zero _ _ _
    · exact HeadsPayload.zero _ _ _
    · refine ⟨by simp, by omega, fun o ho => ?_, fun _ => ⟨line, kept, rfl, by simpa using hstructural⟩⟩
      obtain rfl : o = 0 := by omega
      simpa [show start - 1 - 1 = start - 2 by omega] using hline
    · exact HeadsPayload.zero _ _ _

theorem endsPayload_single (last : Nat) (payload : List JsString) (balance : DelimiterBalance) :
    EndsPayload fileLines last payload
      (countMatchingSingleStructuralSuffixBoundary fileLines last payload balance) := by
  unfold countMatchingSingleStructuralSuffixBoundary
  split
  · exact EndsPayload.zero _ _ _
  · rename_i line hlast
    have hlength : 0 < payload.length := by
      rw [length_pos_iff]
      rintro rfl
      simp at hlast
    split_ifs with hend hstructural hline hdrop
    · exact EndsPayload.zero _ _ _
    · exact EndsPayload.zero _ _ _
    · exact EndsPayload.zero _ _ _
    · refine ⟨by omega, by omega, fun o ho => ?_, fun _ => ⟨line, hlast, by simpa using hstructural⟩⟩
      obtain rfl : o = 0 := by omega
      rw [getLast?_eq_getElem?] at hlast
      simpa [hlast] using hline
    · exact EndsPayload.zero _ _ _

/-- **What the counts of a replacement guarantee**: the lines widened over are the
ends of its payload and no targets of the batch. -/
theorem safeCounts_spec (allTargetLines : List Nat) (group : HashlineReplacementGroup) :
    (HeadsPayload fileLines group.startLine group.replacement
        (safeCounts fileLines allTargetLines group).1 ∧
      ∀ line, group.startLine - (safeCounts fileLines allTargetLines group).1 ≤ line →
        line < group.startLine → line ∉ allTargetLines) ∧
    (EndsPayload fileLines group.endLine group.replacement
        (safeCounts fileLines allTargetLines group).2 ∧ ∀ line, group.endLine < line →
        line ≤ group.endLine + (safeCounts fileLines allTargetLines group).2 →
        line ∉ allTargetLines) := by
  have hcounts : HeadsPayload fileLines group.startLine group.replacement
        (boundaryCounts fileLines group).1 ∧
      EndsPayload fileLines group.endLine group.replacement (boundaryCounts fileLines group).2 := by
    unfold boundaryCounts
    constructor
    · dsimp only
      split
      · exact headsPayload_block _ _ _
      · exact headsPayload_single _ _ _ _
    · dsimp only
      split
      · exact endsPayload_block _ _ _
      · exact endsPayload_single _ _ _ _
  have hfree : ∀ {first count : Nat}, ¬ hasExternalTargets first count allTargetLines = true →
      ∀ line, first ≤ line → line < first + count → line ∉ allTargetLines := by
    intro first count hnone line h₁ h₂ hmem
    refine hnone (any_eq_true.mpr ⟨line - first, mem_range.mpr (by omega), ?_⟩)
    rw [Nat.add_sub_cancel' h₁]
    exact decide_eq_true hmem
  unfold safeCounts
  generalize boundaryCounts fileLines group = counts at hcounts
  obtain ⟨prefixCount, suffixCount⟩ := counts
  dsimp only at hcounts ⊢
  constructor
  · split
    case isTrue => exact ⟨HeadsPayload.zero _ _ _, fun line h₁ h₂ => absurd h₁ (by omega)⟩
    case isFalse hnone =>
      have := hcounts.1.le_start
      exact ⟨hcounts.1, fun line h₁ h₂ => hfree hnone line h₁ (by omega)⟩
  · split
    case isTrue => exact ⟨EndsPayload.zero _ _ _, fun line h₁ h₂ => absurd h₁ (by omega)⟩
    case isFalse hnone =>
      exact ⟨hcounts.2, fun line h₁ h₂ => hfree hnone line (by omega) (by omega)⟩

end

end Groups
/-- The widening of a segment: a replacement that is widened on some side. -/
def segmentWidening (fileLines : List JsString) (allTargetLines : List Nat) :
    Segment → Option Widening
  | .replacement group =>
      let (safePrefixCount, safeSuffixCount) := safeCounts fileLines allTargetLines group
      if safePrefixCount = 0 ∧ safeSuffixCount = 0 then none
      else some ⟨group.startLine, group.endLine, safePrefixCount, safeSuffixCount,
        group.replacement, (placedTexts group).map Prod.fst⟩
  | _ => none

/-- The widened replacements of a batch, in batch order. -/
def widenings (edits : List HashlineEdit) (fileLines : List JsString) : List Widening :=
  (segments edits).filterMap (segmentWidening fileLines (collectAnchorTargetLines edits))

section Batch
variable {xxHash32 : List UInt8 → UInt32} {edits : List HashlineEdit} {fileLines : List JsString}
  {options : HashlineApplyOptions}
variable {w : Widening}
variable {text : JsString} {segment : Segment} {sourceLineNum line : Nat}

theorem exists_group_of_mem_widenings (hw : w ∈ widenings edits fileLines) :
    ∃ group, Segment.replacement group ∈ segments edits ∧
      safeCounts fileLines (collectAnchorTargetLines edits) group = (w.prefixCount, w.suffixCount) ∧
      (w.prefixCount, w.suffixCount) ≠ (0, 0) ∧
      w.start = group.startLine ∧ w.last = group.endLine ∧ w.payload = group.replacement ∧
      w.anchors = (placedTexts group).map Prod.fst := by
  obtain ⟨segment, hmem, hsome⟩ := mem_filterMap.mp hw
  cases segment with
  | single edit | pureInsert group => cases hsome
  | replacement group =>
    rw [segmentWidening] at hsome
    generalize hcounts : safeCounts fileLines (collectAnchorTargetLines edits) group = counts at hsome
    obtain ⟨p, q⟩ := counts
    dsimp only at hsome
    split at hsome
    case isTrue => cases hsome
    case isFalse hne =>
      cases hsome
      refine ⟨group, hmem, hcounts, ?_, rfl, rfl, rfl, rfl⟩
      simpa using hne

theorem mem_collectAnchorTargetLines_of_deletedIn (h : deletedIn edits line = true) :
    line ∈ collectAnchorTargetLines edits := by
  obtain ⟨edit, hedit, hdeletes⟩ := any_eq_true.mp h
  cases edit with
  | insert cursor text lineNum index => simp [deletesLine] at hdeletes
  | delete anchor lineNum index =>
    refine mem_filterMap.mpr ⟨_, hedit, ?_⟩
    simpa [getAnchorTargetLine, deletesLine] using hdeletes

theorem some_lineAt (h₁ : 1 ≤ line) (h₂ : line ≤ fileLines.length) :
    some (lineAt fileLines line) = fileLines[line - 1]? := by
  rw [lineAt, getD_eq_getElem?_getD, getElem?_eq_getElem (by omega), Option.getD_some]

theorem fits_of_mem_widenings
    (hvalid : AnchorsValid xxHash32 edits fileLines) (hw : w ∈ widenings edits fileLines) :
    w.Fits fileLines (· ∈ collectAnchorTargetLines edits) (deletedIn edits) := by
  obtain ⟨group, hgroup, hcounts, -, hstart, hlast, hpayload, hanchors⟩ :=
    exists_group_of_mem_widenings hw
  obtain ⟨⟨hheads, habove⟩, ⟨hends, hbelow⟩⟩ :=
    safeCounts_spec fileLines (collectAnchorTargetLines edits) group
  rw [hcounts] at hheads habove hends hbelow
  rw [← hstart, ← hpayload] at hheads
  rw [← hlast, ← hpayload] at hends
  dsimp only at hheads habove hends hbelow
  obtain ⟨hpos, hend, hline⟩ := line_of_mem_deletes hgroup
  -- the first and the last line are lines of the file
  have hinFile : ∀ i (hi : i < group.deletes.length),
      1 ≤ group.deletes[i].line ∧ group.deletes[i].line ≤ fileLines.length := by
    intro i hi
    obtain ⟨lineNum, index, hmem⟩ := exists_delete_of_mem_deletes hgroup (getElem_mem hi)
    exact (hvalid _ hmem _ mem_cons_self).1
  have hfirst := hinFile 0 hpos
  have hfinal := hinFile (group.deletes.length - 1) (by omega)
  rw [hline] at hfirst hfinal
  have hp := hheads.le_start
  have hq := hends.le_file
  constructor
  case start_le => omega
  case covered =>
    intro line h₁ h₂
    exact deletedIn_of_mem_group hgroup (by omega) (by omega)
  case above_lt => omega
  case above_len => exact hheads.le_length
  case above_text =>
    intro o ho
    rw [some_lineAt (by omega) (by omega), ← hheads.text o ho]
    congr 1
    omega
  case above_free =>
    intro line hline'
    exact habove line (by have := hline'.1; omega) (by have := hline'.2; omega)
  case below_le => omega
  case below_len => exact hends.le_length
  case below_text =>
    intro o ho
    rw [some_lineAt (by omega) (by omega), ← hends.text o ho]
    congr 1
    omega
  case below_free =>
    intro line hline'
    exact hbelow line (by have := hline'.1; omega) (by have := hline'.2; omega)
  case anchors_len => rw [hanchors, hpayload, ← map_placedTexts hgroup, length_map, length_map]

/-! ## What the widened batch deletes and inserts -/

theorem any_deleteEdits (first count sourceLineNum index line : Nat) :
    (deleteEdits xxHash32 fileLines first count sourceLineNum index).any (deletesLine line) = true ↔
      first ≤ line ∧ line < first + count := by
  rw [deleteEdits, any_map, any_eq_true]
  constructor
  · rintro ⟨offset, hoffset, h⟩
    have hlt := mem_range.mp hoffset
    simp only [Function.comp, deleteEditForAutoAbsorbedLine, deletesLine, beq_iff_eq] at h
    omega
  · rintro ⟨h₁, h₂⟩
    refine ⟨line - first, mem_range.mpr (by omega), ?_⟩
    simp only [Function.comp, deleteEditForAutoAbsorbedLine, deletesLine, beq_iff_eq]
    omega

theorem any_deletesLine_of_isInsertAt {cursor : HashlineCursor} {es : List HashlineEdit}
    (h : ∀ edit ∈ es, isInsertAt cursor sourceLineNum edit = true) (line : Nat) :
    es.any (deletesLine line) = false := by
  rw [any_eq_false]
  intro edit hedit
  cases edit with
  | insert cursor' text lineNum index => simp [deletesLine]
  | delete anchor lineNum index => exact absurd (h _ hedit) (by simp [isInsertAt])

theorem segmentOutput_deletes (hmem : segment ∈ segments edits) (index line : Nat) :
    (segmentOutput xxHash32 fileLines (collectAnchorTargetLines edits) options index segment).any
        (deletesLine line) = true ↔ segment.edits.any (deletesLine line) = true ∨
        ∃ w, segmentWidening fileLines (collectAnchorTargetLines edits) segment = some w ∧
          (w.Above line ∨ w.Below line) := by
  cases segment with
  | single edit => simp [segmentOutput, Segment.edits, segmentWidening]
  | pureInsert group =>
    obtain ⟨rest, hfind⟩ := findPureInsertGroup_of_mem hmem
    have hnone := any_deletesLine_of_isInsertAt (findPureInsertGroup_spec hfind).2.2 line
    simp only [segmentOutput, Segment.edits, segmentWidening, hnone]
    split
    · simp [deletesLine, any_eq_true]
    · simp [hnone]
  | replacement group =>
    have hle := (safeCounts_spec fileLines (collectAnchorTargetLines edits) group).1.1.le_start
    simp only [segmentOutput, Segment.edits, segmentWidening, any_append, or_eq_true,
      any_deleteEdits]
    generalize safeCounts fileLines (collectAnchorTargetLines edits) group = counts at hle
    obtain ⟨p, q⟩ := counts
    dsimp only at hle ⊢
    constructor
    · rintro ((h | h) | h)
      · refine Or.inr ⟨_, if_neg (by omega), Or.inl ⟨h.1, ?_⟩⟩
        dsimp only
        omega
      · exact Or.inl h
      · refine Or.inr ⟨_, if_neg (by omega), Or.inr ⟨?_, ?_⟩⟩ <;> dsimp only <;> omega
    · rintro (h | ⟨w, hw, h⟩)
      · exact Or.inl (Or.inr h)
      · split at hw
        case isTrue => cases hw
        case isFalse =>
          cases hw
          rcases h with h | h
          · refine Or.inl (Or.inl ⟨h.1, ?_⟩)
            have := h.2
            dsimp only at this
            omega
          · have h₁ := h.1
            have h₂ := h.2
            dsimp only at h₁ h₂
            exact Or.inr (by omega)

theorem deletesLine_eraseIndex (line : Nat) (edit : HashlineEdit) :
    deletesLine line (eraseIndex edit) = deletesLine line edit := by
  cases edit <;> rfl

/-- **The widened batch deletes** the caller's lines and the widened ones. -/
theorem deletedIn_normalizedEdits (line : Nat) :
    deletedIn (normalizedEdits xxHash32 edits fileLines options) line = true ↔
      deletedIn edits line = true ∨
        ∃ w ∈ widenings edits fileLines, w.Above line ∨ w.Below line := by
  have herase : ∀ es : List HashlineEdit,
      es.any (deletesLine line) = (es.map eraseIndex).any (deletesLine line) := by
    intro es
    rw [any_map]
    congr 1
    funext edit
    exact (deletesLine_eraseIndex line edit).symm
  rw [normalizedEdits, deletedIn_normalizeCursor, deletedIn, herase,
    absorbReplacementBoundaryDuplicates, eraseIndex_foldl_absorbSegment, map_nil,
    nil_append, any_flatMap, any_eq_true]
  have hbatch : deletedIn edits line = true ↔
      ∃ segment ∈ segments edits, segment.edits.any (deletesLine line) = true := by
    conv_lhs => rw [deletedIn, ← segments_flatMap edits, any_flatMap, any_eq_true]
  rw [hbatch]
  constructor
  · rintro ⟨segment, hmem, h⟩
    rw [← herase, segmentOutput_deletes hmem] at h
    rcases h with h | ⟨w, hw, h⟩
    · exact Or.inl ⟨segment, hmem, h⟩
    · exact Or.inr ⟨w, mem_filterMap.mpr ⟨segment, hmem, hw⟩, h⟩
  · rintro (⟨segment, hmem, h⟩ | ⟨w, hw, h⟩)
    · exact ⟨segment, hmem, by rw [← herase, segmentOutput_deletes hmem]; exact Or.inl h⟩
    · obtain ⟨segment, hmem, hw⟩ := mem_filterMap.mp hw
      refine ⟨segment, hmem, ?_⟩
      rw [← herase, segmentOutput_deletes hmem]
      exact Or.inr ⟨w, hw, h⟩

theorem deletedIn_normalizedEdits_eq : deletedIn (normalizedEdits xxHash32 edits fileLines options) =
    removed (widenings edits fileLines) (deletedIn edits) := by
  funext line
  rw [Bool.eq_iff_iff, deletedIn_normalizedEdits, removed_eq_true]

theorem widened_widenings (hvalid : AnchorsValid xxHash32 edits fileLines) :
    Widened (widenings edits fileLines) fileLines (· ∈ collectAnchorTargetLines edits)
      (deletedIn edits) (removed (widenings edits fileLines) (deletedIn edits)) where
  fits _ hw := fits_of_mem_widenings hvalid hw
  target_of_deleted _ h := mem_collectAnchorTargetLines_of_deletedIn h
  deleted_iff _ := removed_eq_true

theorem insertedBefore?_eraseIndex (line : Nat) (edit : HashlineEdit) :
    insertedBefore? line (normalizeCursor xxHash32 fileLines (eraseIndex edit)) =
      insertedBefore? line (normalizeCursor xxHash32 fileLines edit) := by
  cases edit with
  | delete anchor lineNum index => rfl
  | insert cursor text lineNum index =>
    cases cursor with
    | afterAnchor anchor =>
      simp only [eraseIndex, normalizeCursor]
      split <;> rfl
    | _ => rfl

/-- **The widened batch inserts**, before a line, what its segments insert there. -/
theorem insertedBefore_normalizedEdits (line : Nat) :
    insertedBefore (normalizedEdits xxHash32 edits fileLines options) line =
      (segments edits).flatMap fun segment =>
        (segmentOutput xxHash32 fileLines (collectAnchorTargetLines edits) options 0
          segment).filterMap fun edit =>
            insertedBefore? line (normalizeCursor xxHash32 fileLines edit) := by
  have herase : ∀ es : List HashlineEdit,
      (es.filterMap fun edit => insertedBefore? line (normalizeCursor xxHash32 fileLines edit)) =
        (es.map eraseIndex).filterMap fun edit =>
          insertedBefore? line (normalizeCursor xxHash32 fileLines edit) := by
    intro es
    rw [filterMap_map]
    refine filterMap_congr fun edit _ => ?_
    exact (insertedBefore?_eraseIndex line edit).symm
  rw [insertedBefore, normalizedEdits, filterMap_map]
  change filterMap (fun edit =>
    insertedBefore? line (normalizeCursor xxHash32 fileLines edit)) _ = _
  rw [herase, absorbReplacementBoundaryDuplicates, eraseIndex_foldl_absorbSegment, map_nil,
    nil_append, filterMap_flatMap]
  refine flatMap_congr fun segment _ => ?_
  exact (herase _).symm

/-- **What a widening's texts repeat is inserted** where they are anchored. -/
theorem copiesAt_found (hvalid : AnchorsValid xxHash32 edits fileLines)
    (hmem : segment ∈ segments edits)
    (hw : segmentWidening fileLines (collectAnchorTargetLines edits) segment = some w)
    (line : Nat) :
    SublistForall₂ (fun repeated text => ∀ l ∈ repeated, lineAt fileLines l = text)
      (w.copiesAt line)
      ((segmentOutput xxHash32 fileLines (collectAnchorTargetLines edits) options 0
        segment).filterMap fun edit =>
          insertedBefore? line (normalizeCursor xxHash32 fileLines edit)) := by
  have hfits := fits_of_mem_widenings hvalid (mem_filterMap.mpr ⟨segment, hmem, hw⟩)
  cases segment with
  | single edit | pureInsert group => cases hw
  | replacement group =>
    have hpayload : w.payload = group.replacement ∧
        w.anchors = (placedTexts group).map Prod.fst := by
      rw [segmentWidening] at hw
      dsimp only at hw
      split at hw <;> cases hw
      exact ⟨rfl, rfl⟩
    rw [insertedBefore_segmentOutput _ _ _ _ hmem, Widening.copiesAt, hpayload.2, zipIdx_map,
      filter_map, map_map]
    conv in ((placedTexts group).filter _).map _ => rw [← zipIdx_map_fst 0 (placedTexts group)]
    rw [filter_map, map_map]
    refine sublistForall₂_iff.mpr ⟨_, forall₂_map_left_iff.mpr (forall₂_map_right_iff.mpr
      (forall₂_same.mpr fun p hp l hl => ?_)), Sublist.refl _⟩
    have hget := mem_zipIdx_iff_getElem?.mp (mem_filter.mp hp).1
    refine hfits.text_of_repeats (o := p.2) ?_ hl
    rw [hpayload.1, ← map_placedTexts hmem, getElem?_map, hget]
    rfl

theorem flatMap_filterMap_segments (f : Segment → Option Widening)
    (g : Widening → List (List Nat)) (segs : List Segment) :
    (segs.filterMap f).flatMap g = segs.flatMap fun segment => ((f segment).map g).getD [] := by
  induction segs with
  | nil => rfl
  | cons segment segs ih =>
    rw [filterMap_cons, flatMap_cons, ← ih]
    cases f segment with
    | none | some w => rfl

/-- The texts inserted at a line contain those of the widenings. -/
theorem widenings_found (hvalid : AnchorsValid xxHash32 edits fileLines) (line : Nat) :
    SublistForall₂ (fun repeated text => ∀ l ∈ repeated, lineAt fileLines l = text)
      ((widenings edits fileLines).flatMap fun w => w.copiesAt line)
      (insertedBefore (normalizedEdits xxHash32 edits fileLines options) line) := by
  rw [insertedBefore_normalizedEdits, widenings, flatMap_filterMap_segments]
  refine sublistForall₂_flatMap fun segment hsegment => ?_
  cases hw : segmentWidening fileLines (collectAnchorTargetLines edits) segment with
  | none => exact .nil
  | some w => exact copiesAt_found hvalid hsegment hw line

/-! ## Survivors -/

/-- The file lines no edit of the batch deletes, in order. -/
def survivors (edits : List HashlineEdit) (fileLines : List JsString) : List JsString :=
  (fileLines.zipIdx.filter fun p => !deletedIn edits (p.2 + 1)).map Prod.fst

theorem zipIdx_eq_map_lineAt (fileLines : List JsString) : fileLines.zipIdx =
      (range' 1 fileLines.length).map fun line => (lineAt fileLines line, line - 1) := by
  refine ext_getElem (by simp) ?_
  intro i h₁ h₂
  have hi : i < fileLines.length := by simpa using h₁
  simp [lineAt, hi]

theorem survivors_eq (edits : List HashlineEdit) (fileLines : List JsString) :
    survivors edits fileLines =
      ((range' 1 fileLines.length).filter fun line => !deletedIn edits line).map
        (lineAt fileLines) := by
  rw [survivors, zipIdx_eq_map_lineAt, filter_map, map_map]
  refine congrArg (map _) (filter_congr fun line hline => ?_)
  have := (mem_range'_1.mp hline).1
  simp only [Function.comp]
  rw [Nat.sub_add_cancel this]

theorem simultaneous_eq (inserted : Nat → List JsString) (deleted : Nat → Bool)
    (fileLines : List JsString) : simultaneous inserted deleted fileLines =
      (range' 1 fileLines.length).flatMap fun line =>
        inserted line ++ if deleted line then [] else [lineAt fileLines line] := by
  rw [simultaneous, zipIdx_eq_map_lineAt, flatMap_map]
  refine flatMap_congr fun line hline => ?_
  have := (mem_range'_1.mp hline).1
  dsimp only
  rw [Nat.sub_add_cancel this]

theorem getHashlineEditAnchors_eraseIndex (edit : HashlineEdit) :
    getHashlineEditAnchors (eraseIndex edit) = getHashlineEditAnchors edit := by
  cases edit with
  | delete anchor lineNum index => rfl
  | insert cursor text lineNum index => cases cursor <;> rfl

theorem anchorValid_deleteEdits {first count index : Nat} (hfirst : 1 ≤ first ∨ count = 0)
    (hlast : first + count ≤ fileLines.length + 1) {edit : HashlineEdit}
    (hedit : edit ∈ deleteEdits xxHash32 fileLines first count sourceLineNum index) :
    ∀ anchor ∈ getHashlineEditAnchors edit, AnchorValid xxHash32 fileLines anchor := by
  obtain ⟨offset, hoffset, rfl⟩ := mem_map.mp hedit
  have hlt := mem_range.mp hoffset
  intro anchor hanchor
  obtain rfl := mem_singleton.mp hanchor
  exact ⟨⟨by dsimp only; omega, by dsimp only; omega⟩, Or.inr rfl⟩

theorem anchorValid_absorbed (options : HashlineApplyOptions)
    (hvalid : AnchorsValid xxHash32 edits fileLines) : AnchorsValid xxHash32
      (absorbReplacementBoundaryDuplicates xxHash32 edits fileLines options).1 fileLines := by
  intro edit hedit
  -- the edit, up to its index, comes from a segment
  have herased : eraseIndex edit ∈ (segments edits).flatMap fun segment =>
      (segmentOutput xxHash32 fileLines (collectAnchorTargetLines edits) options 0 segment).map
        eraseIndex := by
    have := mem_map_of_mem (f := eraseIndex) hedit
    rwa [absorbReplacementBoundaryDuplicates, eraseIndex_foldl_absorbSegment, map_nil,
      nil_append] at this
  obtain ⟨segment, hmem, houtput⟩ := mem_flatMap.mp herased
  obtain ⟨edit', hedit', heq⟩ := mem_map.mp houtput
  rw [← getHashlineEditAnchors_eraseIndex, ← heq, getHashlineEditAnchors_eraseIndex]
  have hsegment : AnchorsValid xxHash32 segment.edits fileLines :=
    fun e he => hvalid e (mem_edits_of_mem_segment hmem he)
  cases segment with
  | single e => exact hsegment edit' hedit'
  | pureInsert group =>
    obtain ⟨rest, hfind⟩ := findPureInsertGroup_of_mem hmem
    obtain ⟨_, hne, hinserts⟩ := findPureInsertGroup_spec hfind
    simp only [segmentOutput] at hedit'
    split at hedit'
    case isFalse => exact hsegment edit' hedit'
    case isTrue =>
      -- the kept inserts have the cursor of the group
      obtain ⟨i, hi, rfl⟩ := mem_mapIdx.mp hedit'
      obtain ⟨e, es, hes⟩ := exists_cons_of_ne_nil hne
      have hkind := hinserts e (hes ▸ mem_cons_self)
      have he := hsegment e (by rw [Segment.edits, hes]; exact mem_cons_self)
      cases e with
      | delete anchor lineNum index => cases hkind
      | insert cursor text lineNum index =>
        simp only [isInsertAt, and_eq_true, beq_iff_eq] at hkind
        rw [hkind.2] at he
        cases hcursor : group.cursor with
        | bof => intro anchor hanchor; cases hanchor
        | eof => intro anchor hanchor; cases hanchor
        | beforeAnchor anchor | afterAnchor anchor => rw [hcursor] at he; exact he
  | replacement group =>
    obtain ⟨⟨hheads, _⟩, ⟨hends, _⟩⟩ :=
      safeCounts_spec fileLines (collectAnchorTargetLines edits) group
    obtain ⟨hpos, hend, hline⟩ := line_of_mem_deletes hmem
    have hlast : group.endLine ≤ fileLines.length := by
      obtain ⟨lineNum, index, hdelete⟩ := exists_delete_of_mem_deletes hmem
        (getElem_mem (show group.deletes.length - 1 < group.deletes.length by omega))
      have := (hvalid _ hdelete _ mem_cons_self).1.2
      rw [hline] at this
      omega
    have hp := hheads.le_start
    have hq := hends.le_file
    rw [segmentOutput] at hedit'
    dsimp only at hedit'
    rcases mem_append.mp hedit' with hedit' | hedit'
    · rcases mem_append.mp hedit' with hedit' | hedit'
      · exact anchorValid_deleteEdits (by omega) (by omega) hedit'
      · exact hsegment edit' hedit'
    · exact anchorValid_deleteEdits (by omega) (by omega) hedit'

/-- **The anchored edits keep every survivor**, when the widenings put them back. -/
theorem survivors_sublist_anchored (hvalid : AnchorsValid xxHash32 edits fileLines)
    (hputs : PutsBack (widenings edits fileLines) (deletedIn edits) fileLines.length) :
    survivors edits fileLines <+
      (applyAnchored fileLines (normalizedEdits xxHash32 edits fileLines options)).fileLines := by
  have hin := inFile_normalizeCursor (anchorValid_absorbed options hvalid)
  rw [survivors_eq, normalizedEdits, applyAnchored_fileLines hin, simultaneous_eq,
    ← normalizedEdits, deletedIn_normalizedEdits_eq]
  exact hputs.survivors_sublist (widenings_found hvalid)

/-! ## Inserts at either end of the file -/

theorem isStructuralClosingBoundaryLine_nil : isStructuralClosingBoundaryLine [] = false := rfl

/-- A batch that leaves a single empty line widens nothing: one absorbed line is
structural, and more than one are more than one survivor. -/
theorem widenings_eq_nil_of_survivors
    (hvalid : AnchorsValid xxHash32 edits fileLines)
    (hsurvivors : survivors edits fileLines = [[]]) : widenings edits fileLines = [] := by
  rw [eq_nil_iff_forall_not_mem]
  intro w hw
  have hfits := fits_of_mem_widenings hvalid hw
  obtain ⟨group, hgroup, hcounts, hne, hstart, hlast, hpayload, _⟩ :=
    exists_group_of_mem_widenings hw
  obtain ⟨⟨hheads, _⟩, ⟨hends, _⟩⟩ :=
    safeCounts_spec fileLines (collectAnchorTargetLines edits) group
  rw [hcounts, ← hpayload] at hheads hends
  dsimp only at hheads hends
  have hcover := hfits.start_le
  have habove_lt := hfits.above_lt
  have hbelow_le := hfits.below_le
  -- a line that is no target survives
  have hmem : ∀ line, 1 ≤ line → line ≤ fileLines.length → line ∉ collectAnchorTargetLines edits →
      line ∈ (range' 1 fileLines.length).filter fun l => !deletedIn edits l := by
    intro line h₁ h₂ hfree
    refine mem_filter.mpr ⟨mem_range'_1.mpr ⟨h₁, by omega⟩, ?_⟩
    cases hdel : deletedIn edits line with
    | false => rfl
    | true => exact absurd (mem_collectAnchorTargetLines_of_deletedIn hdel) hfree
  rw [survivors_eq] at hsurvivors
  obtain ⟨only, honly⟩ : ∃ only,
      ((range' 1 fileLines.length).filter fun l => !deletedIn edits l) = [only] := by
    have := congrArg length hsurvivors
    rw [length_map] at this
    exact length_eq_one_iff.mp this
  rw [honly] at hsurvivors hmem
  have hempty : lineAt fileLines only = [] := by simpa using hsurvivors
  rcases Nat.eq_zero_or_pos w.prefixCount with hp | hp
  · -- widened below only
    have hq : 0 < w.suffixCount := by
      rcases Nat.eq_zero_or_pos w.suffixCount with hq | hq
      · simp [hp, hq] at hne
      · exact hq
    have hfirst := mem_singleton.mp
      (hmem (w.last + 1) (by omega) (by omega) (hfits.below_free _ ⟨by omega, by omega⟩))
    have hone : w.suffixCount = 1 := by
      by_contra hcount
      have hsecond := mem_singleton.mp
        (hmem (w.last + 2) (by omega) (by omega) (hfits.below_free _ ⟨by omega, by omega⟩))
      omega
    obtain ⟨line, hline, hstructural⟩ := hends.structural hone
    have htext := hfits.below_text 0 (by omega)
    simp only [hone, Nat.add_zero, hfirst, hempty] at htext
    rw [← getLast?_eq_getElem?, hline] at htext
    obtain rfl := some.inj htext
    exact absurd hstructural (by rw [isStructuralClosingBoundaryLine_nil]; decide)
  · have hfirst := mem_singleton.mp
      (hmem (w.start - 1) (by omega) (by omega) (hfits.above_free _ ⟨by omega, by omega⟩))
    have hone : w.prefixCount = 1 := by
      by_contra hcount
      have hsecond := mem_singleton.mp
        (hmem (w.start - 2) (by omega) (by omega) (hfits.above_free _ ⟨by omega, by omega⟩))
      omega
    obtain ⟨line, kept, hline, hstructural⟩ := hheads.structural hone
    have htext := hfits.above_text 0 (by omega)
    rw [hone, Nat.add_zero, hfirst, hempty, hline] at htext
    obtain rfl : [] = line := by simpa using htext
    exact absurd hstructural (by rw [isStructuralClosingBoundaryLine_nil]; decide)

/-- Whether a normalized edit inserts at a line. -/
def isAnchoredInsert (edit : HashlineEdit) : Bool := isAnchorEdit edit && (insertText? edit).isSome

theorem length_flatMap_range (f g : Nat → List JsString) (l : List Nat) :
    (l.flatMap fun line => f line ++ g line).length = (l.flatMap f).length + (l.flatMap g).length := by
  induction l with
  | nil => rfl
  | cons line l ih =>
    simp only [flatMap_cons, length_append] at ih ⊢
    omega

theorem flatMap_kept (deleted : Nat → Bool) (fileLines : List JsString) (l : List Nat) :
    (l.flatMap fun line => if deleted line then [] else [lineAt fileLines line]) =
      (l.filter fun line => !deleted line).map (lineAt fileLines) := by
  induction l with
  | nil => rfl
  | cons line l ih =>
    rw [flatMap_cons, ih, filter_cons]
    cases deleted line <;> simp

/-- If the anchored edits leave only the surviving empty line, none of them
inserts. -/
theorem no_anchoredInsert_of_buffer
    (hvalid : AnchorsValid xxHash32 edits fileLines) (hsurvivors : survivors edits fileLines = [[]])
    (hbuffer : (applyAnchored fileLines
      (normalizedEdits xxHash32 edits fileLines options)).fileLines = [[]]) :
    ∀ edit ∈ normalizedEdits xxHash32 edits fileLines options, isAnchoredInsert edit = false := by
  have hnone := widenings_eq_nil_of_survivors hvalid hsurvivors
  have hdeleted : deletedIn (normalizedEdits xxHash32 edits fileLines options) =
      deletedIn edits := by
    funext line
    rw [Bool.eq_iff_iff, deletedIn_normalizedEdits, hnone]
    simp
  have hin : InFile fileLines (normalizedEdits xxHash32 edits fileLines options) :=
    inFile_normalizeCursor (anchorValid_absorbed options hvalid)
  rw [applyAnchored_fileLines hin, simultaneous_eq, hdeleted] at hbuffer
  rw [survivors_eq, ← flatMap_kept] at hsurvivors
  have hinserted : (range' 1 fileLines.length).flatMap
      (insertedBefore (normalizedEdits xxHash32 edits fileLines options)) = [] := by
    have hlength := congrArg length hbuffer
    rw [length_flatMap_range, hsurvivors] at hlength
    exact length_eq_zero_iff.mp (by simpa using hlength)
  intro edit hedit
  rw [← not_eq_true]
  intro hinsert
  rw [isAnchoredInsert, and_eq_true] at hinsert
  obtain ⟨h₁, h₂⟩ := hin edit hedit hinsert.1
  obtain ⟨text, htext⟩ := Option.isSome_iff_exists.mp hinsert.2
  have hat : insertedBefore? (bucketLine edit) edit = some text := by
    rw [← insertText?_of_bucketLine h₁, if_pos ⟨hinsert.1, rfl⟩, htext]
  have hmem : text ∈ (range' 1 fileLines.length).flatMap
      (insertedBefore (normalizedEdits xxHash32 edits fileLines options)) :=
    mem_flatMap.mpr ⟨bucketLine edit, mem_range'_1.mpr ⟨h₁, by omega⟩,
      mem_filterMap.mpr ⟨edit, hedit, hat⟩⟩
  rw [hinserted] at hmem
  exact absurd hmem not_mem_nil

theorem sublist_take_append_drop (l inserted : List JsString) (k : Nat) :
    l <+ l.take k ++ inserted ++ l.drop k := by
  conv_lhs => rw [← take_append_drop k l]
  exact Sublist.append (sublist_append_left _ _) (Sublist.refl _)

/-- Inserts at either end keep a subsequence, unless they replace a single empty
line that belongs to it. -/
theorem sublist_insertAtEnd {s buffer : List JsString} (bofLines eofLines : List JsString)
    (hsub : s <+ buffer) (hbuffer : s = [[]] → buffer = [[]] → bofLines = [] ∧ eofLines = []) :
    s <+ (insertAtEnd (insertAtStart buffer bofLines) eofLines).1 := by
  rcases eq_nil_or_concat s with rfl | hne
  · exact nil_sublist _
  have hne : s ≠ [] := by
    obtain ⟨init, last, rfl⟩ := hne
    simp
  by_cases hsingle : buffer = [[]]
  · subst hsingle
    have hs : s = [[]] := hsub.eq_of_length_le (length_pos_iff.mpr hne)
    obtain ⟨rfl, rfl⟩ := hbuffer hs rfl
    exact hsub
  have hstart : s <+ insertAtStart buffer bofLines ∧ insertAtStart buffer bofLines ≠ [[]] := by
    unfold insertAtStart
    by_cases hbof : bofLines = []
    · simpa [hbof] using ⟨hsub, hsingle⟩
    · rw [if_neg (by simpa using hbof), if_neg hsingle]
      refine ⟨hsub.trans (sublist_append_right _ _), fun h => ?_⟩
      -- the buffer is not empty because it contains a survivor
      have hpos := length_pos_iff.mpr hne
      have hle := hsub.length_le
      have hbofpos := length_pos_iff.mpr hbof
      have hlength := congrArg length h
      rw [length_append, length_singleton] at hlength
      omega
  obtain ⟨hstart, hstarted⟩ := hstart
  generalize insertAtStart buffer bofLines = started at hstart hstarted
  unfold insertAtEnd
  split_ifs
  · exact hstart
  · exact hstart.trans (sublist_take_append_drop _ _ _)

theorem applyNormalized_eq (fileLines : List JsString) (edits : List HashlineEdit) :
    (applyNormalized fileLines edits).fileLines =
      (insertAtEnd (insertAtStart (applyAnchored fileLines edits).fileLines
        (edits.filterMap bofText?)) (edits.filterMap eofText?)).1 := rfl

theorem sublist_lines_unlines {s buffer : List JsString} (hsub : s <+ buffer)
    (hs : ∀ line ∈ s, LF ∉ line) : s <+ lines (unlines buffer) := by
  rcases eq_nil_or_concat buffer with rfl | hne
  · rw [sublist_nil.mp hsub]
    exact nil_sublist _
  have hne : buffer ≠ [] := by
    obtain ⟨init, last, rfl⟩ := hne
    simp
  rw [lines_unlines_flatMap hne]
  have hsame : s = s.flatMap lines := by
    conv_lhs => rw [← flatMap_singleton' s]
    exact flatMap_congr fun line hline => (lines_of_not_mem (hs line hline)).symm
  rw [hsame]
  exact hsub.flatMap _

theorem LF_not_mem_of_mem_survivors {line : JsString} (h : line ∈ survivors edits (lines text)) :
    LF ∉ line := by
  obtain ⟨p, hp, rfl⟩ := mem_map.mp h
  exact LF_not_mem_of_mem_lines (fst_mem_of_mem_zipIdx (mem_filter.mp hp).1)

/-- When the output of a batch keeps every survivor: the lines that are widened over are put
back, and an insert at either end of the file does not replace a surviving empty line that is
all that is left. -/
structure KeepsSurvivors (xxHash32 : List UInt8 → UInt32) (edits : List HashlineEdit)
    (fileLines : List JsString) (options : HashlineApplyOptions) : Prop where
  putsBack : PutsBack (widenings edits fileLines) (deletedIn edits) fileLines.length
  buffer : survivors edits fileLines = [[]] →
    (∀ edit ∈ normalizedEdits xxHash32 edits fileLines options, isAnchoredInsert edit = false) →
    ∀ edit ∈ normalizedEdits xxHash32 edits fileLines options,
      bofText? edit = none ∧ eofText? edit = none

/-- **Survivors are kept.** -/
theorem survivors_sublist_lines
    (hvalid : validateHashlineAnchors xxHash32 edits (lines text) = .ok [])
    (hkeeps : KeepsSurvivors xxHash32 edits (lines text) options) : survivors edits (lines text) <+
      lines (unlines (applyNormalized (lines text)
        (normalizedEdits xxHash32 edits (lines text) options)).fileLines) := by
  have hvalid' := validateHashlineAnchors_eq_ok_nil.mp hvalid
  refine sublist_lines_unlines ?_ fun line hline => LF_not_mem_of_mem_survivors hline
  rw [applyNormalized_eq]
  refine sublist_insertAtEnd _ _ (survivors_sublist_anchored hvalid' hkeeps.putsBack) ?_
  intro hsurvivors hbuffer
  have hnone := hkeeps.buffer hsurvivors (no_anchoredInsert_of_buffer hvalid' hsurvivors hbuffer)
  exact ⟨filterMap_eq_nil_iff.mpr fun edit hedit => (hnone edit hedit).1,
    filterMap_eq_nil_iff.mpr fun edit hedit => (hnone edit hedit).2⟩

/-! ## A batch of one replacement

For a single replacement the condition is exact: two overlapping blocks leave
fewer lines than survive. -/

section Single
variable {group : HashlineReplacementGroup} (hsegments : segments edits = [.replacement group])
include hsegments

theorem no_end_inserts_of_single (xxHash32 : List UInt8 → UInt32) (fileLines : List JsString)
    (options : HashlineApplyOptions) : ∀ edit ∈ normalizedEdits xxHash32 edits fileLines options,
      bofText? edit = none ∧ eofText? edit = none := by
  intro edit hedit
  obtain ⟨edit', hedit', rfl⟩ := mem_map.mp hedit
  obtain ⟨rest, hfind⟩ := findReplacementGroup_of_mem
    (show Segment.replacement group ∈ segments edits by simp [hsegments])
  obtain ⟨_, inserts, deletes', _, _, hedits, _, hinserts, hdeletes, _⟩ :=
    findReplacementGroup_spec hfind
  -- deletes and inserts before an anchor only
  have hnone {kind : HashlineCursor → Bool} (hkind : ∀ anchor, kind (.beforeAnchor anchor) = false) :
      textAt? kind edit' = none := by
    have htexts : edits.filterMap (textAt? kind) = [] := by
      rw [← segments_flatMap edits, hsegments, flatMap_cons, flatMap_nil, append_nil, Segment.edits,
        hedits, filterMap_eq_nil_iff]
      intro e he
      cases e with
      | delete _ _ _ => rfl
      | insert cursor text lineNum index =>
        rcases mem_append.mp he with he | he
        · have hat := hinserts _ he
          cases cursor with
          | beforeAnchor anchor => simp [textAt?, hkind]
          | _ => cases hat
        · cases hdeletes _ he
    have hsub := textsAt_absorbed kind xxHash32 edits fileLines options
    rw [htexts, sublist_nil] at hsub
    exact filterMap_eq_nil_iff.mp hsub edit' hedit'
  have hbof : bofText? edit' = textAt? isStartCursor edit' := by
    cases edit' with
    | delete _ _ _ => rfl
    | insert cursor _ _ _ => cases cursor <;> rfl
  rw [bofText?_normalizeCursor_eq, eofText?_normalizeCursor, hbof]
  exact ⟨hnone fun _ => rfl, hnone fun _ => rfl⟩

theorem insertedBefore_single (hplaced : WellPlaced (widenings edits fileLines))
    (hw : w ∈ widenings edits fileLines) (line : Nat) :
    insertedBefore (normalizedEdits xxHash32 edits fileLines options) line =
      if line = w.start then w.payload else [] := by
  obtain ⟨group', hgroup, _, _, _, _, hpayload, hanchors⟩ := exists_group_of_mem_widenings hw
  obtain rfl : group' = group := by simpa [hsegments] using hgroup
  rw [insertedBefore_normalizedEdits, hsegments]
  simp only [flatMap_cons, flatMap_nil, append_nil]
  rw [insertedBefore_segmentOutput _ _ _ _ hgroup, hpayload, ← map_placedTexts hgroup]
  have hat : ∀ p ∈ placedTexts group', p.1 = w.start := by
    intro p hp
    exact hplaced w hw _ (hanchors ▸ mem_map_of_mem hp)
  split
  case isTrue hline =>
    rw [filter_eq_self.mpr fun p hp => by simpa [hline] using hat p hp]
  case isFalse hline =>
    rw [filter_eq_nil_iff.mpr fun p hp => by simpa [hat p hp, eq_comm] using hline]
    rfl

theorem flatMap_insertedBefore_single (xxHash32 : List UInt8 → UInt32)
    (options : HashlineApplyOptions) (hplaced : WellPlaced (widenings edits fileLines))
    (hw : w ∈ widenings edits fileLines) (l : List Nat) (hl : l.Nodup) :
    ((l.flatMap (insertedBefore (normalizedEdits xxHash32 edits fileLines options))).length ≤
        w.payload.length) ∧
      ∀ text ∈ l.flatMap (insertedBefore (normalizedEdits xxHash32 edits fileLines options)),
        text ∈ w.payload := by
  induction l with
  | nil => simp
  | cons line l ih =>
    obtain ⟨hnot, hl⟩ := nodup_cons.mp hl
    obtain ⟨hlength, hmem⟩ := ih hl
    rw [flatMap_cons, insertedBefore_single hsegments hplaced hw]
    by_cases hline : line = w.start
    · -- the other lines get nothing
      have hrest : l.flatMap
          (insertedBefore (normalizedEdits xxHash32 edits fileLines options)) = [] := by
        rw [flatMap_eq_nil_iff]
        intro other hother
        rw [insertedBefore_single hsegments hplaced hw, if_neg]
        rintro rfl
        exact hnot (hline ▸ hother)
      rw [if_pos hline, hrest, append_nil]
      exact ⟨le_rfl, fun _ h => h⟩
    · rw [if_neg hline, nil_append]
      exact ⟨hlength, hmem⟩

end Single

theorem length_kept_add_le (options : HashlineApplyOptions)
    (hvalid : AnchorsValid xxHash32 edits fileLines) (hw : w ∈ widenings edits fileLines) :
    ((range' 1 fileLines.length).filter fun line =>
        !deletedIn (normalizedEdits xxHash32 edits fileLines options) line).length +
        w.prefixCount + w.suffixCount ≤ (survivors edits fileLines).length := by
  have hfits := fits_of_mem_widenings hvalid hw
  have hcover := hfits.start_le
  have habove_lt := hfits.above_lt
  have hbelow_le := hfits.below_le
  have hkept : ∀ line, deletedIn (normalizedEdits xxHash32 edits fileLines options) line = false →
      ¬ w.Above line ∧ ¬ w.Below line ∧ deletedIn edits line = false := by
    intro line h
    rw [← not_eq_true, deletedIn_normalizedEdits] at h
    refine ⟨fun ha => h (Or.inr ⟨w, hw, Or.inl ha⟩), fun hb => h (Or.inr ⟨w, hw, Or.inr hb⟩), ?_⟩
    rw [← not_eq_true]
    exact fun hd => h (Or.inl hd)
  have hfree : ∀ line, w.Above line ∨ w.Below line → deletedIn edits line = false := by
    intro line h
    rw [← not_eq_true]
    intro hdel
    have htarget := mem_collectAnchorTargetLines_of_deletedIn hdel
    rcases h with h | h
    · exact hfits.above_free line h htarget
    · exact hfits.below_free line h htarget
  -- the kept lines and the two widened blocks are disjoint parts of the survivors
  have hnodup : (((range' 1 fileLines.length).filter fun line =>
      !deletedIn (normalizedEdits xxHash32 edits fileLines options) line) ++
      range' (w.start - w.prefixCount) w.prefixCount ++
      range' (w.last + 1) w.suffixCount).Nodup := by
    rw [nodup_append, nodup_append]
    refine ⟨⟨Nodup.filter _ nodup_range', nodup_range', ?_⟩, nodup_range', ?_⟩
    · rintro a ha b hb rfl
      have hk := (hkept a (by simpa using (mem_filter.mp ha).2)).1
      rw [mem_range'_1] at hb
      exact hk ⟨hb.1, by omega⟩
    · rintro a ha b hb rfl
      rw [mem_range'_1] at hb
      rcases mem_append.mp ha with ha | ha
      · have hk := (hkept a (by simpa using (mem_filter.mp ha).2)).2.1
        exact hk ⟨by omega, by omega⟩
      · rw [mem_range'_1] at ha
        omega
  have hsubset : (((range' 1 fileLines.length).filter fun line =>
      !deletedIn (normalizedEdits xxHash32 edits fileLines options) line) ++
      range' (w.start - w.prefixCount) w.prefixCount ++
      range' (w.last + 1) w.suffixCount) ⊆
      (range' 1 fileLines.length).filter fun line => !deletedIn edits line := by
    intro line hline
    rw [mem_filter, mem_range'_1, not_eq_true']
    rcases mem_append.mp hline with hline | hline
    · rcases mem_append.mp hline with hline | hline
      · obtain ⟨hrange, hdel⟩ := mem_filter.mp hline
        exact ⟨mem_range'_1.mp hrange, (hkept line (by simpa using hdel)).2.2⟩
      · rw [mem_range'_1] at hline
        exact ⟨by omega, hfree line (Or.inl ⟨hline.1, by omega⟩)⟩
    · rw [mem_range'_1] at hline
      exact ⟨by omega, hfree line (Or.inr ⟨by omega, by omega⟩)⟩
  have hlength := (subperm_of_subset hnodup hsubset).length_le
  rw [survivors_eq, length_map]
  simpa [Nat.add_assoc] using hlength

theorem LF_not_mem_lineAt (text : JsString) (line : Nat) : LF ∉ lineAt (lines text) line := by
  rw [lineAt, getD_eq_getElem?_getD]
  cases hget : (lines text)[line - 1]? with
  | none => exact not_mem_nil
  | some l => exact LF_not_mem_of_mem_lines (mem_of_getElem? hget)

/-- Overlapping blocks of a single replacement lose a line. -/
theorem not_sublist_of_overlap {group : HashlineReplacementGroup}
    (hsegments : segments edits = [.replacement group])
    (hvalid : AnchorsValid xxHash32 edits (lines text))
    (hplaced : WellPlaced (widenings edits (lines text)))
    (hw : w ∈ widenings edits (lines text)) (hp : 0 < w.prefixCount) (hq : 0 < w.suffixCount)
    (hoverlap : w.payload.length < w.prefixCount + w.suffixCount) :
    ¬ survivors edits (lines text) <+ lines (unlines (applyNormalized (lines text)
        (normalizedEdits xxHash32 edits (lines text) options)).fileLines) := by
  have hnone := no_end_inserts_of_single hsegments xxHash32 (lines text) options
  have hin : InFile (lines text) (normalizedEdits xxHash32 edits (lines text) options) :=
    inFile_normalizeCursor (anchorValid_absorbed options hvalid)
  rw [applyNormalized_fileLines (filterMap_eq_nil_iff.mpr fun edit hedit => (hnone edit hedit).1)
    (filterMap_eq_nil_iff.mpr fun edit hedit => (hnone edit hedit).2),
    applyAnchored_fileLines hin, simultaneous_eq]
  have hfits := fits_of_mem_widenings hvalid hw
  obtain ⟨hinserted, hfromPayload⟩ := flatMap_insertedBefore_single hsegments xxHash32 options
    hplaced hw _ (nodup_range' (s := 1) (n := (lines text).length))
  have hkept := length_kept_add_le options hvalid hw
  have hlength := length_flatMap_range
    (insertedBefore (normalizedEdits xxHash32 edits (lines text) options))
    (fun line => if deletedIn (normalizedEdits xxHash32 edits (lines text) options) line then []
      else [lineAt (lines text) line]) (range' 1 (lines text).length)
  rw [flatMap_kept, length_map] at hlength
  -- every payload line matches a file line, so no line of the buffer has a newline
  have hpayloadLF : ∀ line ∈ w.payload, LF ∉ line := by
    intro line hline
    obtain ⟨i, hi, rfl⟩ := mem_iff_getElem.mp hline
    by_cases hhead : i < w.prefixCount
    · have htext := hfits.above_text i hhead
      rw [getElem?_eq_getElem hi] at htext
      rw [← some.inj htext]
      exact LF_not_mem_lineAt text _
    · have htail : w.payload.length - w.suffixCount + (i - (w.payload.length - w.suffixCount)) = i := by
        omega
      have htext := hfits.below_text (i - (w.payload.length - w.suffixCount)) (by omega)
      rw [htail, getElem?_eq_getElem hi] at htext
      rw [← some.inj htext]
      exact LF_not_mem_lineAt text _
  intro hsub
  have hsublen := hsub.length_le
  generalize hbuffer : ((range' 1 (lines text).length).flatMap fun line =>
    insertedBefore (normalizedEdits xxHash32 edits (lines text) options) line ++
      if deletedIn (normalizedEdits xxHash32 edits (lines text) options) line then []
      else [lineAt (lines text) line]) = buffer at hlength hsublen
  have hbufferLF : ∀ line ∈ buffer, LF ∉ line := by
    intro line hline
    rw [← hbuffer] at hline
    obtain ⟨b, hb, hline⟩ := mem_flatMap.mp hline
    rcases mem_append.mp hline with hline | hline
    · exact hpayloadLF line (hfromPayload line (mem_flatMap.mpr ⟨b, hb, hline⟩))
    · split at hline
      · exact absurd hline not_mem_nil
      · rw [mem_singleton.mp hline]
        exact LF_not_mem_lineAt text _
  rcases eq_nil_or_concat buffer with rfl | hbufferNe
  · have hone : (lines (unlines [])).length = 1 := rfl
    omega
  · rw [lines_unlines (by obtain ⟨init, last, rfl⟩ := hbufferNe; simp) hbufferLF] at hsublen
    omega

/-- **No line is lost under boundary absorption**, exactly when it is safe.  For
every text and batch with valid anchors, if `KeepsSurvivors` holds then the lines
the caller does not delete are a subsequence of the output lines.  Where every
replacement inserts at its first line, harmless widenings are enough for it; and for
such a batch of one replacement this happens only if the widening is harmless. -/
theorem applyHashlineEdits_keeps_survivors (xxHash32 : List UInt8 → UInt32) (text : JsString)
    (edits : List HashlineEdit) (options : HashlineApplyOptions)
    (hvalid : validateHashlineAnchors xxHash32 edits (lines text) = .ok []) :
    ∃ result, applyHashlineEdits xxHash32 text edits options = .ok result ∧
      (KeepsSurvivors xxHash32 edits (lines text) options →
        survivors edits (lines text) <+ lines result.lines) ∧
      (WellPlaced (widenings edits (lines text)) → Harmless (widenings edits (lines text)) →
        PutsBack (widenings edits (lines text)) (deletedIn edits) (lines text).length) ∧
      ∀ group, segments edits = [.replacement group] → WellPlaced (widenings edits (lines text)) →
        (survivors edits (lines text) <+ lines result.lines ↔
          Harmless (widenings edits (lines text))) := by
  have hvalid' := validateHashlineAnchors_eq_ok_nil.mp hvalid
  have hputs := putsBack_of_harmless (widened_widenings hvalid')
  rcases eq_nil_or_concat edits with rfl | hne
  · refine ⟨⟨text, none, []⟩, rfl, fun _ => ?_, hputs, fun group hgroup => ?_⟩
    · have hall : survivors [] (lines text) = lines text := by
        simp [survivors, deletedIn, zipIdx_map_fst]
      rw [hall]
    · cases hgroup
  have hne : edits ≠ [] := by
    obtain ⟨init, last, rfl⟩ := hne
    simp
  refine ⟨_, applyHashlineEdits_of_valid options hvalid hne,
    fun hkeeps => survivors_sublist_lines hvalid hkeeps, hputs, ?_⟩
  intro group hsegments hplaced
  constructor
  · -- a widening that is not harmless overlaps with itself
    intro hsub w hw hq
    refine ⟨w, hw, rfl, ?_⟩
    have hws : widenings edits (lines text) = [w] := by
      rw [widenings, hsegments, filterMap_cons, filterMap_nil] at hw ⊢
      split at hw
      · exact absurd hw not_mem_nil
      · rename_i w' hw'
        rw [mem_singleton.mp hw]
    have habove : widestAbove (widenings edits (lines text)) w.start = w.prefixCount := by
      simp [hws, widestAbove, widest]
    have hbelow : widestBelow (widenings edits (lines text)) w.last = w.suffixCount := by
      simp [hws, widestBelow, widest]
    refine ⟨hbelow.symm, ?_⟩
    rw [habove]
    rcases Nat.eq_zero_or_pos w.prefixCount with hp | hp
    · exact Or.inl hp
    · refine Or.inr ⟨w, hw, rfl, rfl, Or.inr ⟨rfl, ?_⟩⟩
      by_contra hoverlap
      exact not_sublist_of_overlap hsegments hvalid' hplaced hw hp hq (by omega) hsub
  · intro hharmless
    refine survivors_sublist_lines hvalid ⟨hputs hplaced hharmless, fun _ _ => ?_⟩
    exact no_end_inserts_of_single hsegments xxHash32 (lines text) options

end Batch

/-- The edits of `≔3nz` with the payload `a`, `b`. -/
def overlapEdits : List HashlineEdit :=
  [.insert (.beforeAnchor ⟨3, js "nz"⟩) (js "a") 1 0,
    .insert (.beforeAnchor ⟨3, js "nz"⟩) (js "b") 1 1, .delete ⟨3, js "nz"⟩ 1 2]

/-- Replacing `X` by `a`, `b` between two copies of `a`, `b` absorbs both copies
with one payload: of four surviving lines two are left. -/
theorem absorption_loses_lines :
    validateHashlineAnchors Xxh32.xxh32 overlapEdits (lines (js "a\nb\nX\na\nb")) = .ok [] ∧
      survivors overlapEdits (lines (js "a\nb\nX\na\nb")) = [js "a", js "b", js "a", js "b"] ∧
      ∃ result,
        applyHashlineEdits Xxh32.xxh32 (js "a\nb\nX\na\nb") overlapEdits ⟨false⟩ = .ok result ∧
        lines result.lines = [js "a", js "b"] ∧
        ¬ survivors overlapEdits (lines (js "a\nb\nX\na\nb")) <+ lines result.lines := by
  have hvalid : validateHashlineAnchors Xxh32.xxh32 overlapEdits
      (lines (js "a\nb\nX\na\nb")) = .ok [] := by decide +kernel
  have hsurvivors : survivors overlapEdits (lines (js "a\nb\nX\na\nb")) =
      [js "a", js "b", js "a", js "b"] := by decide
  refine ⟨hvalid, hsurvivors, _, applyHashlineEdits_of_valid ⟨false⟩ hvalid (by decide), ?_⟩
  have hlines : lines (unlines (applyNormalized (lines (js "a\nb\nX\na\nb"))
      (normalizedEdits Xxh32.xxh32 overlapEdits (lines (js "a\nb\nX\na\nb"))
        ⟨false⟩)).fileLines) = [js "a", js "b"] := by decide
  refine ⟨hlines, fun hsub => ?_⟩
  have := hsub.length_le
  rw [hsurvivors] at this
  simp only [hlines] at this
  exact absurd this (by decide)

/-- The edits of `≔3nz` with the payload `a`, `b`, `Y`. -/
def widenedEdits : List HashlineEdit :=
  [.insert (.beforeAnchor ⟨3, js "nz"⟩) (js "a") 1 0,
    .insert (.beforeAnchor ⟨3, js "nz"⟩) (js "b") 1 1,
    .insert (.beforeAnchor ⟨3, js "nz"⟩) (js "Y") 1 2, .delete ⟨3, js "nz"⟩ 1 3]

theorem applyHashlineEdits_keeps_survivors_widened : ∃ result,
      applyHashlineEdits Xxh32.xxh32 (js "a\nb\nX\nc") widenedEdits ⟨false⟩ = .ok result ∧
      survivors widenedEdits (lines (js "a\nb\nX\nc")) <+ lines result.lines := by
  obtain ⟨result, hresult, hkeeps, hputs, _⟩ :=
    applyHashlineEdits_keeps_survivors Xxh32.xxh32 (js "a\nb\nX\nc") widenedEdits ⟨false⟩
      (by decide +kernel)
  refine ⟨result, hresult, hkeeps ⟨hputs (by decide) (by decide), fun hsurvivors => ?_⟩⟩
  exact absurd hsurvivors (by decide)

end GajaeCode
