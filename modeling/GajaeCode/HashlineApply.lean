import GajaeCode.HashlineAbsorb
import GajaeCode.Splices

/-! # Applying a batch of hashline edits

The second half of `packages/coding-agent/src/hashline/apply.ts`.  After the
anchors are checked and boundary duplicates absorbed, every insert after a line
becomes an insert before the next one, the edits are bucketed by line and the
buckets are spliced into the file from the bottom up; inserts at the beginning
and the end of the file come last.

The purpose of all this is that the edits of a batch apply *simultaneously*: line
numbers mean lines of the file as the model read it (`simultaneous`).
-/
namespace GajaeCode
open JsString Splices List

/-- `HashlineApplyResult`.  `noopEdits` is never set. -/
structure HashlineApplyResult where
  lines : JsString
  firstChangedLine : Option Nat
  warnings : List JsString
deriving DecidableEq

/-- `insertAtStart`.  `lineOrigins` is left out: it is written and never read. -/
def insertAtStart (fileLines lines : List JsString) : List JsString :=
  if lines.length = 0 then fileLines
  else if fileLines = [[]] then lines
  else lines ++ fileLines

/-- `insertAtEnd`: the file lines and the line reported as changed. -/
def insertAtEnd (fileLines lines : List JsString) : List JsString × Option Nat :=
  if lines.length = 0 then (fileLines, none)
  else if fileLines = [[]] then (lines, some 1)
  else
    let hasTrailingNewline := fileLines.getLast? == some []
    let insertIndex := if hasTrailingNewline then fileLines.length - 1 else fileLines.length
    (fileLines.take insertIndex ++ lines ++ fileLines.drop insertIndex, some (insertIndex + 1))

/-- An edit with its place in the normalized batch. -/
abbrev IndexedEdit := HashlineEdit × Nat

/-- The line a normalized edit is bucketed under. -/
def bucketLine : HashlineEdit → Nat
  | .delete anchor _ _ => anchor.line
  | .insert (.beforeAnchor anchor) _ _ _ => anchor.line
  | .insert _ _ _ _ => 0

/-- `byLine.get(line)?.push(entry)`, or a new bucket at the end of the map. -/
def addToBucket (byLine : List (Nat × List IndexedEdit)) (entry : IndexedEdit) :
    List (Nat × List IndexedEdit) :=
  let line := bucketLine entry.1
  if line ∈ byLine.map Prod.fst then
    byLine.map fun p => if p.1 = line then (p.1, p.2 ++ [entry]) else p
  else byLine ++ [(line, [entry])]

/-- `bucketAnchorEditsByLine`: a map in insertion order. -/
def bucketAnchorEditsByLine (edits : List IndexedEdit) : List (Nat × List IndexedEdit) :=
  edits.foldl addToBucket []

/-- The lines of the file while buckets are applied, and the first one changed. -/
structure ApplyState where
  fileLines : List JsString
  firstChangedLine : Option Nat

def trackFirstChanged (firstChangedLine : Option Nat) (line : Nat) : Option Nat :=
  match firstChangedLine with
  | none => some line
  | some first => if line < first then some line else some first

/-- The loop body over the lines of the buckets.  A splice at index `line - 1`;
line 0 has no bucket because every anchor names a line of the file. -/
def applyBucket (byLine : List (Nat × List IndexedEdit)) (s : ApplyState) (line : Nat) :
    ApplyState :=
  match byLine.lookup line with
  | none => s
  | some bucket =>
      let bucket := bucket.insertionSort (fun a b => a.2 ≤ b.2)
      let idx := line - 1
      let currentLine := s.fileLines.getD idx []
      let beforeLines := bucket.filterMap fun entry => insertText? entry.1
      let deleteLine := bucket.any fun entry => (deleteAnchor? entry.1).isSome
      if beforeLines.length = 0 && !deleteLine then s
      else
        let replacement := if deleteLine then beforeLines else beforeLines ++ [currentLine]
        { fileLines := splice s.fileLines idx replacement
          firstChangedLine := trackFirstChanged s.firstChangedLine line }

section Apply
variable (xxHash32 : List UInt8 → UInt32)

/-- The rewriting of an `after_anchor` cursor. -/
def normalizeCursor (fileLines : List JsString) : HashlineEdit → HashlineEdit
  | .insert (.afterAnchor anchor) text lineNum index =>
      if anchor.line ≥ fileLines.length then .insert .eof text lineNum index
      else
        let nextLineNum := anchor.line + 1
        let hash := computeLineHash xxHash32 nextLineNum (lineAt fileLines nextLineNum)
        .insert (.beforeAnchor ⟨nextLineNum, hash⟩) text lineNum index
  | edit => edit

/-- The text of an insert at the beginning of the file. -/
def bofText? : HashlineEdit → Option JsString
  | .insert .bof text _ _ => some text
  | _ => none

/-- The text of an insert at the end of the file. -/
def eofText? : HashlineEdit → Option JsString
  | .insert .eof text _ _ => some text
  | _ => none

/-- Whether an edit goes to a bucket. -/
def isAnchorEdit (edit : HashlineEdit) : Bool :=
  (bofText? edit).isNone && (eofText? edit).isNone

/-- The anchored edits applied bottom-up. -/
def applyAnchored (fileLines : List JsString) (edits : List HashlineEdit) : ApplyState :=
  let byLine := bucketAnchorEditsByLine (edits.zipIdx.filter fun entry => isAnchorEdit entry.1)
  let keys := (byLine.map Prod.fst).insertionSort (fun a b => a ≥ b)
  keys.foldl (applyBucket byLine) ⟨fileLines, none⟩

/-- The lines after all inserts, and the first line changed. -/
def applyNormalized (fileLines : List JsString) (edits : List HashlineEdit) : ApplyState :=
  let anchored := applyAnchored fileLines edits
  let bofLines := edits.filterMap bofText?
  let eofLines := edits.filterMap eofText?
  let started := insertAtStart anchored.fileLines bofLines
  let first :=
    if bofLines.length > 0 then trackFirstChanged anchored.firstChangedLine 1
    else anchored.firstChangedLine
  let (ended, eofChangedLine) := insertAtEnd started eofLines
  ⟨ended, match eofChangedLine with | some line => trackFirstChanged first line | none => first⟩

/-- The batch after absorption and cursor rewriting. -/
def normalizedEdits (edits : List HashlineEdit) (fileLines : List JsString)
    (options : HashlineApplyOptions) : List HashlineEdit :=
  (absorbReplacementBoundaryDuplicates xxHash32 edits fileLines options).1.map
    (normalizeCursor xxHash32 fileLines)

def applyHashlineEdits (text : JsString) (edits : List HashlineEdit)
    (options : HashlineApplyOptions) : Except HashlineError HashlineApplyResult :=
  if edits.length = 0 then .ok ⟨text, none, []⟩
  else
    let fileLines := lines text
    match validateHashlineAnchors xxHash32 edits fileLines with
    | .error e => .error e
    | .ok (mismatch :: mismatches) => .error (.mismatch (mismatch :: mismatches) fileLines)
    | .ok [] =>
        let final := applyNormalized fileLines (normalizedEdits xxHash32 edits fileLines options)
        .ok ⟨unlines final.fileLines, final.firstChangedLine,
          (absorbReplacementBoundaryDuplicates xxHash32 edits fileLines options).2⟩

end Apply

/-! ## What a bucket holds -/

section Buckets
variable {line : Nat}

theorem lookup_map_append (byLine : List (Nat × List IndexedEdit)) (entry : IndexedEdit)
    (key line : Nat) :
    (byLine.map fun p => if p.1 = key then (p.1, p.2 ++ [entry]) else p).lookup line =
      (byLine.lookup line).map fun bucket => if line = key then bucket ++ [entry] else bucket := by
  induction byLine with
  | nil => rfl
  | cons p byLine ih =>
    obtain ⟨key', bucket⟩ := p
    by_cases hline : line = key'
    · subst hline
      by_cases hkey : line = key <;> simp [hkey]
    · have hbeq : (line == key') = false := beq_eq_false_iff_ne.mpr hline
      rw [map_cons]
      dsimp only
      split <;> simp only [lookup_cons, hbeq, ih]

/-- **The buckets of a list of entries**: one for every line with an entry, holding
that line's entries in order. -/
theorem bucketAnchorEditsByLine_spec (entries : List IndexedEdit) :
    ((bucketAnchorEditsByLine entries).map Prod.fst).Nodup ∧
      (∀ line, line ∈ (bucketAnchorEditsByLine entries).map Prod.fst ↔
        ∃ entry ∈ entries, bucketLine entry.1 = line) ∧
      ∀ line ∈ (bucketAnchorEditsByLine entries).map Prod.fst,
        (bucketAnchorEditsByLine entries).lookup line =
          some (entries.filter fun entry => bucketLine entry.1 = line) := by
  induction entries using reverseRecOn with
  | nil => simp [bucketAnchorEditsByLine]
  | append_singleton entries entry ih =>
    obtain ⟨hnodup, hkeys, hlookup⟩ := ih
    have hstep : bucketAnchorEditsByLine (entries ++ [entry]) =
        addToBucket (bucketAnchorEditsByLine entries) entry := by
      simp [bucketAnchorEditsByLine, foldl_append]
    rw [hstep]
    generalize bucketAnchorEditsByLine entries = byLine at *
    unfold addToBucket
    dsimp only
    by_cases hmem : bucketLine entry.1 ∈ byLine.map Prod.fst
    · -- the bucket exists and grows
      have hfst : (byLine.map fun p =>
          if p.1 = bucketLine entry.1 then (p.1, p.2 ++ [entry]) else p).map Prod.fst =
          byLine.map Prod.fst := by
        rw [map_map]
        refine map_congr_left fun p _ => ?_
        simp only [Function.comp]
        split <;> rfl
      rw [if_pos hmem, hfst]
      refine ⟨hnodup, ?_, ?_⟩
      · intro line
        rw [hkeys]
        constructor
        · rintro ⟨e, he, hline⟩
          exact ⟨e, mem_append_left _ he, hline⟩
        · rintro ⟨e, he, hline⟩
          rcases mem_append.mp he with he | he
          · exact ⟨e, he, hline⟩
          · obtain rfl : e = entry := by simpa using he
            exact hline ▸ (hkeys _).mp hmem
      · intro line hline
        rw [lookup_map_append, hlookup line hline, Option.map_some, filter_append]
        by_cases hkey : line = bucketLine entry.1
        · subst hkey
          simp
        · simp [hkey, Ne.symm hkey]
    · -- a new bucket
      rw [if_neg hmem]
      refine ⟨?_, ?_, ?_⟩
      · rw [map_append, nodup_append]
        refine ⟨hnodup, by simp, ?_⟩
        intro a ha b hb
        obtain rfl : b = bucketLine entry.1 := by simpa using hb
        exact fun h => hmem (h ▸ ha)
      · intro line
        rw [map_append, mem_append, hkeys]
        constructor
        · rintro (⟨e, he, hline⟩ | h)
          · exact ⟨e, mem_append_left _ he, hline⟩
          · have hline : line = bucketLine entry.1 := by simpa using h
            exact ⟨entry, by simp, hline.symm⟩
        · rintro ⟨e, he, hline⟩
          rcases mem_append.mp he with he | he
          · exact Or.inl ⟨e, he, hline⟩
          · obtain rfl : e = entry := by simpa using he
            exact Or.inr (by simp [hline])
      · intro line hline
        rw [lookup_append, filter_append]
        rw [map_append, mem_append] at hline
        rcases hline with hline | hline
        · have hne : bucketLine entry.1 ≠ line := fun h => hmem (h ▸ hline)
          simp [hlookup line hline, hne]
        · obtain rfl : line = bucketLine entry.1 := by simpa using hline
          have hnone : byLine.lookup (bucketLine entry.1) = none := by
            rw [lookup_eq_none_iff]
            intro p hp
            simp only [bne_iff_ne]
            exact fun h => hmem (h ▸ mem_map_of_mem hp)
          have hempty : entries.filter (fun e => bucketLine e.1 = bucketLine entry.1) = [] := by
            rw [filter_eq_nil_iff]
            intro e he
            simp only [decide_eq_true_eq]
            exact fun h => hmem ((hkeys _).mpr ⟨e, he, h⟩)
          simp [hnone, hempty]

/-- The text a normalized edit inserts before a line. -/
def insertedBefore? (line : Nat) : HashlineEdit → Option JsString
  | .insert (.beforeAnchor anchor) text _ _ => if anchor.line = line then some text else none
  | _ => none

/-- The texts normalized edits insert before a line, in batch order. -/
def insertedBefore (edits : List HashlineEdit) (line : Nat) : List JsString :=
  edits.filterMap (insertedBefore? line)

def deletesLine (line : Nat) : HashlineEdit → Bool
  | .delete anchor _ _ => anchor.line == line
  | .insert _ _ _ _ => false

/-- Whether an edit of the batch deletes a line. -/
def deletedIn (edits : List HashlineEdit) (line : Nat) : Bool := edits.any (deletesLine line)

/-- **Simultaneous application**: before every line the texts inserted there, then
the line itself unless it is deleted. -/
def simultaneous (inserted : Nat → List JsString) (deleted : Nat → Bool)
    (fileLines : List JsString) : List JsString :=
  fileLines.zipIdx.flatMap fun p =>
    inserted (p.2 + 1) ++ if deleted (p.2 + 1) then [] else [p.1]

variable {edits : List HashlineEdit}

/-- The entries `applyAnchored` buckets. -/
def anchorEntries (edits : List HashlineEdit) : List IndexedEdit :=
  edits.zipIdx.filter fun entry => isAnchorEdit entry.1

theorem insertText?_of_bucketLine {edit : HashlineEdit} (hline : 1 ≤ line) :
    (if isAnchorEdit edit = true ∧ bucketLine edit = line then insertText? edit else none) =
      insertedBefore? line edit := by
  cases edit with
  | delete anchor lineNum index => simp [insertText?, insertedBefore?]
  | insert cursor text lineNum index =>
    cases cursor with
    | bof => simp [isAnchorEdit, bofText?, insertedBefore?]
    | eof => simp [isAnchorEdit, eofText?, insertedBefore?]
    | beforeAnchor anchor =>
      simp [isAnchorEdit, bofText?, eofText?, bucketLine, insertText?, insertedBefore?]
    | afterAnchor anchor =>
      have : ¬ (0 = line) := by omega
      simp [bucketLine, insertedBefore?, this]

/-- A bucket's texts are the texts inserted before its line. -/
theorem bucket_beforeLines (hline : 1 ≤ line) :
    ((anchorEntries edits).filter fun entry => bucketLine entry.1 = line).filterMap
      (fun entry => insertText? entry.1) = insertedBefore edits line := by
  have hfst : insertedBefore edits line =
      edits.zipIdx.filterMap fun entry => insertedBefore? line entry.1 := by
    conv_lhs => rw [insertedBefore, ← zipIdx_map_fst 0 edits, filterMap_map]
    rfl
  rw [hfst, anchorEntries, filter_filter, filterMap_filter]
  refine filterMap_congr fun entry _ => ?_
  rw [← insertText?_of_bucketLine hline]
  simp only [Bool.and_eq_true, decide_eq_true_eq, and_comm]

theorem bucket_deleteLine (edits : List HashlineEdit) (line : Nat) :
    (((anchorEntries edits).filter fun entry => bucketLine entry.1 = line).any
      fun entry => (deleteAnchor? entry.1).isSome) = deletedIn edits line := by
  rw [Bool.eq_iff_iff, any_eq_true, deletedIn, any_eq_true]
  constructor
  · rintro ⟨⟨edit, idx⟩, hentry, hdelete⟩
    obtain ⟨hmem, hline⟩ := mem_filter.mp hentry
    have hedit : edit ∈ edits := fst_mem_of_mem_zipIdx (mem_filter.mp hmem).1
    cases edit with
    | insert cursor text lineNum index => simp [deleteAnchor?] at hdelete
    | delete anchor lineNum index =>
      have hline' : anchor.line = line := of_decide_eq_true hline
      exact ⟨_, hedit, by simpa [deletesLine] using hline'⟩
  · rintro ⟨edit, hedit, hdelete⟩
    cases edit with
    | insert cursor text lineNum index => simp [deletesLine] at hdelete
    | delete anchor lineNum index =>
      obtain ⟨idx, hidx⟩ : ∃ idx, (HashlineEdit.delete anchor lineNum index, idx) ∈ edits.zipIdx := by
        rw [← zipIdx_map_fst 0 edits, mem_map] at hedit
        obtain ⟨⟨e, idx⟩, hmem, rfl⟩ := hedit
        exact ⟨idx, hmem⟩
      refine ⟨_, mem_filter.mpr ⟨mem_filter.mpr ⟨hidx, ?_⟩, ?_⟩, rfl⟩
      · simp [isAnchorEdit, bofText?, eofText?]
      · exact decide_eq_true (by simpa [deletesLine, bucketLine] using hdelete)

/-! ## The bottom-up pass -/

def lineImage (edits : List HashlineEdit) (i : Nat) (x : JsString) : List JsString :=
  insertedBefore edits (i + 1) ++ if deletedIn edits (i + 1) then [] else [x]

theorem zipIdx_pairwise_snd (l : List HashlineEdit) (k : Nat) :
    (l.zipIdx k).Pairwise (fun a b => a.2 ≤ b.2) := by
  rw [← pairwise_map (f := Prod.snd) (R := (· ≤ ·)), zipIdx_map_snd]
  exact pairwise_le_range'

theorem applyBucket_eq {s : ApplyState}
    (hmem : line ∈ (bucketAnchorEditsByLine (anchorEntries edits)).map Prod.fst) (hline : 1 ≤ line)
    : (applyBucket (bucketAnchorEditsByLine (anchorEntries edits)) s line).fileLines =
      spliceAt (lineImage edits) [] s.fileLines (line - 1) := by
  obtain ⟨_, hkeys, hlookup⟩ := bucketAnchorEditsByLine_spec (anchorEntries edits)
  have hsorted : ((anchorEntries edits).filter fun entry => bucketLine entry.1 = line).insertionSort
      (fun a b => a.2 ≤ b.2) =
      (anchorEntries edits).filter fun entry => bucketLine entry.1 = line :=
    List.Pairwise.insertionSort_eq (((zipIdx_pairwise_snd edits 0).filter _).filter _)
  unfold applyBucket
  rw [hlookup line hmem]
  dsimp only
  rw [hsorted, bucket_beforeLines hline, bucket_deleteLine]
  have hback : line - 1 + 1 = line := by omega
  split
  case isTrue hnothing =>
    -- a bucket is never empty, and every entry inserts or deletes
    exfalso
    rw [Bool.and_eq_true, decide_eq_true_eq, length_eq_zero_iff, Bool.not_eq_true'] at hnothing
    obtain ⟨⟨edit, idx⟩, hentry, hbucket⟩ := (hkeys line).mp hmem
    obtain ⟨hzip, hanchor⟩ := mem_filter.mp hentry
    have hedit : edit ∈ edits := fst_mem_of_mem_zipIdx hzip
    cases edit with
    | delete anchor lineNum index =>
      have : deletedIn edits line = true :=
        any_eq_true.mpr ⟨_, hedit, by simpa [deletesLine, bucketLine] using hbucket⟩
      simp [this] at hnothing
    | insert cursor text lineNum index =>
      have htext : insertedBefore? line (.insert cursor text lineNum index) = some text := by
        rw [← insertText?_of_bucketLine hline, if_pos ⟨hanchor, hbucket⟩]
        rfl
      have : text ∈ insertedBefore edits line := mem_filterMap.mpr ⟨_, hedit, htext⟩
      simp [hnothing.1] at this
  case isFalse =>
    unfold spliceAt lineImage
    rw [hback]
    cases deletedIn edits line <;> simp

theorem nothing_of_not_mem_keys
    (hnot : line ∉ (bucketAnchorEditsByLine (anchorEntries edits)).map Prod.fst) (hline : 1 ≤ line)
    : insertedBefore edits line = [] ∧ deletedIn edits line = false := by
  have hempty : ((anchorEntries edits).filter fun entry => bucketLine entry.1 = line) = [] := by
    rw [filter_eq_nil_iff]
    intro entry hentry hbucket
    exact hnot (((bucketAnchorEditsByLine_spec _).2.1 line).mpr
      ⟨entry, hentry, of_decide_eq_true hbucket⟩)
  rw [← bucket_beforeLines hline, ← bucket_deleteLine, hempty]
  exact ⟨rfl, rfl⟩

/-- A normalized edit that is anchored names a line of the file. -/
def InFile (fileLines : List JsString) (edits : List HashlineEdit) : Prop :=
  ∀ edit ∈ edits, isAnchorEdit edit = true →
    1 ≤ bucketLine edit ∧ bucketLine edit ≤ fileLines.length

/-- **The bottom-up pass is the simultaneous application.** -/
theorem applyAnchored_fileLines {fileLines : List JsString} (hin : InFile fileLines edits) :
    (applyAnchored fileLines edits).fileLines =
      simultaneous (insertedBefore edits) (deletedIn edits) fileLines := by
  obtain ⟨hnodup, hkeys, _⟩ := bucketAnchorEditsByLine_spec (anchorEntries edits)
  have hkeyRange : ∀ line ∈ (bucketAnchorEditsByLine (anchorEntries edits)).map Prod.fst,
      1 ≤ line ∧ line ≤ fileLines.length := by
    intro line hline
    obtain ⟨⟨edit, idx⟩, hentry, rfl⟩ := (hkeys line).mp hline
    obtain ⟨hzip, hanchor⟩ := mem_filter.mp hentry
    exact hin edit (fst_mem_of_mem_zipIdx hzip) hanchor
  unfold applyAnchored
  change (foldl (applyBucket (bucketAnchorEditsByLine (anchorEntries edits))) _
    (((bucketAnchorEditsByLine (anchorEntries edits)).map Prod.fst).insertionSort
      (fun a b => a ≥ b))).fileLines = _
  generalize hsort : ((bucketAnchorEditsByLine (anchorEntries edits)).map Prod.fst).insertionSort
    (fun a b => a ≥ b) = keys
  have hmem : ∀ line, line ∈ keys ↔
      line ∈ (bucketAnchorEditsByLine (anchorEntries edits)).map Prod.fst := by
    intro line
    rw [← hsort, mem_insertionSort]
  have hdec : keys.Pairwise (· > ·) := by
    have hge : keys.Pairwise (· ≥ ·) := by
      rw [← hsort]
      exact pairwise_insertionSort _ _
    have hne : keys.Pairwise (· ≠ ·) := by
      rw [← hsort]
      exact (perm_insertionSort _ _).nodup_iff.mpr hnodup
    exact (hge.and hne).imp fun h => lt_of_le_of_ne h.1 (Ne.symm h.2)
  -- every bucket is a splice of the line below its number
  have hfold : ∀ (ks : List Nat) (s : ApplyState), (∀ line ∈ ks, line ∈ keys) →
      (ks.foldl (applyBucket (bucketAnchorEditsByLine (anchorEntries edits))) s).fileLines =
        (ks.map (· - 1)).foldl (spliceAt (lineImage edits) []) s.fileLines := by
    intro ks
    induction ks with
    | nil => intro s _; rfl
    | cons line ks ih =>
      intro s hks
      have hline := (hmem line).mp (hks line mem_cons_self)
      rw [foldl_cons, ih _ fun l hl => hks l (mem_cons_of_mem _ hl), map_cons,
        foldl_cons, applyBucket_eq hline (hkeyRange line hline).1]
  rw [hfold keys _ fun _ h => h, foldl_splice, simultaneous]
  · refine flatMap_congr fun p _ => ?_
    by_cases hkey : p.2 + 1 ∈ keys
    · have hidx : p.2 ∈ keys.map (· - 1) := mem_map.mpr ⟨_, hkey, rfl⟩
      rw [if_pos hidx, lineImage]
    · have hidx : p.2 ∉ keys.map (· - 1) := by
        intro h
        obtain ⟨line, hline, hp⟩ := mem_map.mp h
        have := (hkeyRange line ((hmem line).mp hline)).1
        exact hkey ((show line = p.2 + 1 by omega) ▸ hline)
      obtain ⟨hinserted, hdeleted⟩ := nothing_of_not_mem_keys (mt (hmem _).mpr hkey) (by omega)
      rw [if_neg hidx, hinserted, hdeleted]
      rfl
  · rw [pairwise_map]
    refine hdec.imp_of_mem fun ha hb hab => ?_
    have h₁ := hkeyRange _ ((hmem _).mp ha)
    have h₂ := hkeyRange _ ((hmem _).mp hb)
    omega
  · intro i hi
    obtain ⟨line, hline, rfl⟩ := mem_map.mp hi
    have := hkeyRange line ((hmem line).mp hline)
    dsimp only
    omega

end Buckets

/-! ## Batches of anchored edits -/

section Anchored
variable {xxHash32 : List UInt8 → UInt32} {fileLines : List JsString} {edits : List HashlineEdit}
variable {edit : HashlineEdit} {text : JsString}

/-- The text an edit inserts before a line or after the line before it. -/
def insertedAt? (line : Nat) : HashlineEdit → Option JsString
  | .insert (.beforeAnchor anchor) text _ _ => if anchor.line = line then some text else none
  | .insert (.afterAnchor anchor) text _ _ => if anchor.line + 1 = line then some text else none
  | _ => none

/-- The texts a batch inserts before a line or after the line before it, in batch
order. -/
def insertedAt (edits : List HashlineEdit) (line : Nat) : List JsString :=
  edits.filterMap (insertedAt? line)

/-- Deletes, inserts before a line, and inserts after a line that is not the last
of `lineCount`. -/
def IsLineEdit (lineCount : Nat) : HashlineEdit → Prop
  | .delete _ _ _ => True
  | .insert (.beforeAnchor _) _ _ _ => True
  | .insert (.afterAnchor anchor) _ _ _ => anchor.line < lineCount
  | .insert _ _ _ _ => False

/-- The place in the file an edit is about: the line it deletes or inserts
before. -/
def editPlace : HashlineEdit → Option Nat
  | .delete anchor _ _ => some anchor.line
  | .insert (.beforeAnchor anchor) _ _ _ => some anchor.line
  | .insert (.afterAnchor anchor) _ _ _ => some (anchor.line + 1)
  | .insert _ _ _ _ => none

theorem insertedBefore?_normalizeCursor (hkind : IsLineEdit fileLines.length edit) (line : Nat) :
    insertedBefore? line (normalizeCursor xxHash32 fileLines edit) = insertedAt? line edit := by
  cases edit with
  | delete anchor lineNum index => rfl
  | insert cursor text lineNum index =>
    cases cursor with
    | bof | eof | beforeAnchor anchor => rfl
    | afterAnchor anchor =>
      have hlast : ¬ anchor.line ≥ fileLines.length := Nat.not_le.mpr hkind
      simp only [normalizeCursor, if_neg hlast, insertedBefore?, insertedAt?]

theorem insertedBefore_normalizeCursor (hkind : ∀ edit ∈ edits, IsLineEdit fileLines.length edit)
    (line : Nat) :
    insertedBefore (edits.map (normalizeCursor xxHash32 fileLines)) line = insertedAt edits line := by
  rw [insertedBefore, filterMap_map, insertedAt]
  refine filterMap_congr fun edit hedit => ?_
  exact insertedBefore?_normalizeCursor (hkind edit hedit) line

theorem deletesLine_normalizeCursor (line : Nat) (edit : HashlineEdit) :
    deletesLine line (normalizeCursor xxHash32 fileLines edit) = deletesLine line edit := by
  cases edit with
  | delete anchor lineNum index => rfl
  | insert cursor text lineNum index =>
    cases cursor with
    | afterAnchor anchor =>
      simp only [normalizeCursor]
      split <;> rfl
    | _ => rfl

theorem deletedIn_normalizeCursor (edits : List HashlineEdit) (line : Nat) :
    deletedIn (edits.map (normalizeCursor xxHash32 fileLines)) line = deletedIn edits line := by
  rw [deletedIn, any_map, deletedIn]
  congr 1
  funext edit
  exact deletesLine_normalizeCursor line edit

/-- Valid anchors stay inside the file when cursors are rewritten. -/
theorem inFile_normalizeCursor (hvalid : AnchorsValid xxHash32 edits fileLines) :
    InFile fileLines (edits.map (normalizeCursor xxHash32 fileLines)) := by
  intro edit' hedit' hanchor
  obtain ⟨edit, hedit, rfl⟩ := mem_map.mp hedit'
  have hrange : ∀ anchor ∈ getHashlineEditAnchors edit,
      1 ≤ anchor.line ∧ anchor.line ≤ fileLines.length :=
    fun anchor h => (hvalid edit hedit anchor h).1
  cases edit with
  | delete anchor lineNum index => exact hrange anchor mem_cons_self
  | insert cursor text lineNum index =>
    cases cursor with
    | bof => exact absurd hanchor (by simp [normalizeCursor, isAnchorEdit, bofText?])
    | eof => exact absurd hanchor (by simp [normalizeCursor, isAnchorEdit, eofText?])
    | beforeAnchor anchor => exact hrange anchor mem_cons_self
    | afterAnchor anchor =>
      have hline := hrange anchor mem_cons_self
      by_cases hlast : anchor.line ≥ fileLines.length
      · exact absurd hanchor (by simp [normalizeCursor, hlast, isAnchorEdit, eofText?])
      · simp only [normalizeCursor, if_neg hlast, bucketLine]
        omega

theorem bofText?_normalizeCursor (hkind : IsLineEdit fileLines.length edit) :
    bofText? (normalizeCursor xxHash32 fileLines edit) = none ∧
      eofText? (normalizeCursor xxHash32 fileLines edit) = none := by
  cases edit with
  | delete anchor lineNum index => exact ⟨rfl, rfl⟩
  | insert cursor text lineNum index =>
    cases cursor with
    | bof | eof => exact absurd hkind (by simp [IsLineEdit])
    | beforeAnchor anchor => exact ⟨rfl, rfl⟩
    | afterAnchor anchor =>
      have hlast : ¬ anchor.line ≥ fileLines.length := Nat.not_le.mpr hkind
      simp only [normalizeCursor, if_neg hlast]
      exact ⟨rfl, rfl⟩

/-- Without inserts at either end the anchored edits are all there is. -/
theorem applyNormalized_fileLines (hbof : edits.filterMap bofText? = [])
    (heof : edits.filterMap eofText? = []) :
    (applyNormalized fileLines edits).fileLines = (applyAnchored fileLines edits).fileLines := by
  unfold applyNormalized
  rw [hbof, heof]
  rfl

theorem applyHashlineEdits_of_valid (options : HashlineApplyOptions)
    (hvalid : validateHashlineAnchors xxHash32 edits (lines text) = .ok []) (hne : edits ≠ []) :
    applyHashlineEdits xxHash32 text edits options = .ok ⟨unlines (applyNormalized (lines text)
          (normalizedEdits xxHash32 edits (lines text) options)).fileLines,
        (applyNormalized (lines text)
          (normalizedEdits xxHash32 edits (lines text) options)).firstChangedLine,
        (absorbReplacementBoundaryDuplicates xxHash32 edits (lines text) options).2⟩ := by
  unfold applyHashlineEdits
  rw [if_neg (by simpa using hne)]
  dsimp only
  rw [hvalid]

theorem simultaneous_nil (fileLines : List JsString) :
    simultaneous (insertedAt []) (deletedIn []) fileLines = fileLines := by
  unfold simultaneous
  simp only [insertedAt, deletedIn, filterMap_nil, any_nil, nil_append,
    Bool.false_eq_true, if_false]
  rw [← map_eq_flatMap, zipIdx_map_fst]

/-- A batch of line edits without a warning is applied simultaneously. -/
theorem applyHashlineEdits_lineEdits (options : HashlineApplyOptions)
    (hkind : ∀ edit ∈ edits, IsLineEdit (lines text).length edit)
    (hvalid : validateHashlineAnchors xxHash32 edits (lines text) = .ok []) :
    ∃ result, applyHashlineEdits xxHash32 text edits options = .ok result ∧ (result.warnings = [] →
        result.lines = unlines (simultaneous (insertedAt edits) (deletedIn edits) (lines text))) := by
  rcases eq_nil_or_concat edits with rfl | hne
  · refine ⟨_, rfl, fun _ => ?_⟩
    rw [simultaneous_nil, unlines_lines]
  have hne : edits ≠ [] := by
    obtain ⟨init, last, rfl⟩ := hne
    simp
  refine ⟨_, applyHashlineEdits_of_valid options hvalid hne, fun hquiet => ?_⟩
  have hnormalized : normalizedEdits xxHash32 edits (lines text) options =
      edits.map (normalizeCursor xxHash32 (lines text)) := by
    rw [normalizedEdits, absorb_of_warnings_nil hquiet]
  have hnone : ∀ edit ∈ edits.map (normalizeCursor xxHash32 (lines text)),
      bofText? edit = none ∧ eofText? edit = none := by
    intro edit' hedit'
    obtain ⟨edit, hedit, rfl⟩ := mem_map.mp hedit'
    exact bofText?_normalizeCursor (hkind edit hedit)
  have hin := inFile_normalizeCursor (validateHashlineAnchors_eq_ok_nil.mp hvalid)
  dsimp only
  rw [hnormalized, applyNormalized_fileLines (filterMap_eq_nil_iff.mpr fun e h => (hnone e h).1)
    (filterMap_eq_nil_iff.mpr fun e h => (hnone e h).2), applyAnchored_fileLines hin,
    funext (insertedBefore_normalizeCursor hkind), funext (deletedIn_normalizeCursor edits)]

/-- What is inserted at a line and whether it is deleted depends on the edits at
that place only. -/
theorem insertedAt_filter (edits : List HashlineEdit) (line : Nat) :
    insertedAt (edits.filter fun edit => editPlace edit = some line) line = insertedAt edits line := by
  rw [insertedAt, filterMap_filter, insertedAt]
  refine filterMap_congr fun edit _ => ?_
  cases edit with
  | delete anchor lineNum index => simp [insertedAt?]
  | insert cursor text lineNum index => cases cursor <;> simp [insertedAt?, editPlace]

theorem deletedIn_filter (edits : List HashlineEdit) (line : Nat) :
    deletedIn (edits.filter fun edit => editPlace edit = some line) line = deletedIn edits line := by
  rw [deletedIn, any_filter, deletedIn]
  congr 1
  funext edit
  cases edit with
  | delete anchor lineNum index => simp [deletesLine, editPlace]
  | insert cursor text lineNum index => simp [deletesLine]

/-- **Anchored edits apply simultaneously.**  A batch of deletes and inserts at
lines whose anchors are valid is applied; without an absorption warning the
output is, line by line, what is inserted there followed by the line unless it is
deleted.  Another batch with the same edits at every place, in whatever order the
places come, gives the same output. -/
theorem applyHashlineEdits_simultaneous (xxHash32 : List UInt8 → UInt32) (text : JsString)
    (edits : List HashlineEdit) (options : HashlineApplyOptions)
    (hkind : ∀ edit ∈ edits, IsLineEdit (lines text).length edit)
    (hvalid : validateHashlineAnchors xxHash32 edits (lines text) = .ok []) :
    ∃ result, applyHashlineEdits xxHash32 text edits options = .ok result ∧ (result.warnings = [] →
        result.lines = unlines (simultaneous (insertedAt edits) (deletedIn edits) (lines text)) ∧
        ∀ edits', (∀ place, (edits'.filter fun edit => editPlace edit = place) =
            edits.filter fun edit => editPlace edit = place) →
          ∃ result', applyHashlineEdits xxHash32 text edits' options = .ok result' ∧
            (result'.warnings = [] → result'.lines = result.lines)) := by
  obtain ⟨result, hresult, hlines⟩ := applyHashlineEdits_lineEdits options hkind hvalid
  refine ⟨result, hresult, fun hquiet => ⟨hlines hquiet, ?_⟩⟩
  intro edits' hplaces
  have hmem : ∀ edit ∈ edits', edit ∈ edits := by
    intro edit hedit
    have hfilter : edit ∈ edits'.filter fun e => editPlace e = editPlace edit :=
      mem_filter.mpr ⟨hedit, by simp⟩
    rw [hplaces] at hfilter
    exact (mem_filter.mp hfilter).1
  have hvalid' : validateHashlineAnchors xxHash32 edits' (lines text) = .ok [] :=
    validateHashlineAnchors_eq_ok_nil.mpr fun edit hedit =>
      validateHashlineAnchors_eq_ok_nil.mp hvalid edit (hmem edit hedit)
  obtain ⟨result', hresult', hlines'⟩ :=
    applyHashlineEdits_lineEdits options (fun edit hedit => hkind edit (hmem edit hedit)) hvalid'
  refine ⟨result', hresult', fun hquiet' => ?_⟩
  have hinserted : insertedAt edits' = insertedAt edits := by
    funext line
    rw [← insertedAt_filter, hplaces, insertedAt_filter]
  have hdeleted : deletedIn edits' = deletedIn edits := by
    funext line
    rw [← deletedIn_filter, hplaces, deletedIn_filter]
  rw [hlines' hquiet', hlines hquiet, hinserted, hdeleted]

/-- A batch on the lines `a`, `b`, `c`: an insert after line 1, line 2 deleted, and
an insert before it. -/
def sampleEdits : List HashlineEdit :=
  [.insert (.afterAnchor ⟨1, js "hs"⟩) (js "Y") 1 0, .delete ⟨2, js "yo"⟩ 3 1,
    .insert (.beforeAnchor ⟨2, js "yo"⟩) (js "X") 4 2]

theorem applyHashlineEdits_simultaneous_sample :
    ∃ result, applyHashlineEdits Xxh32.xxh32 (js "a\nb\nc") sampleEdits ⟨false⟩ = .ok result ∧
      result.warnings = [] ∧ result.lines = js "a\nY\nX\nc" := by
  have hkind : ∀ edit ∈ sampleEdits, IsLineEdit (lines (js "a\nb\nc")).length edit := by
    have hlength : (lines (js "a\nb\nc")).length = 3 := by decide
    simp [sampleEdits, IsLineEdit, hlength]
  obtain ⟨result, hresult, h⟩ :=
    applyHashlineEdits_simultaneous Xxh32.xxh32 (js "a\nb\nc") sampleEdits ⟨false⟩ hkind
      (by decide +kernel)
  have hquiet : (applyHashlineEdits Xxh32.xxh32 (js "a\nb\nc") sampleEdits ⟨false⟩).map
      HashlineApplyResult.warnings = .ok [] := by decide +kernel
  rw [hresult] at hquiet
  obtain hquiet := Except.ok.inj hquiet
  refine ⟨result, hresult, hquiet, ?_⟩
  rw [(h hquiet).1]
  decide

end Anchored
end GajaeCode
