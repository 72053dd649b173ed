import GajaeCode.HashlineEdits

/-! # The hashline parser

`packages/coding-agent/src/hashline/parser.ts`.  A diff is a list of operations,
each on a line of its own with its payload on the lines below: `«A` and `»A`
insert before and after an anchor, `≔A..B` replaces a range.  A range is expanded
into one deletion per line.  Only its two ends carry the hashes the caller wrote;
the lines between get the filler `RANGE_INTERIOR_HASH`.
-/
namespace GajaeCode
open JsString List
variable {lineNum : Nat}
variable {edit : HashlineEdit} {anchor : Anchor} {raw : JsString}

def beginPatchMarker : JsString := js "*** Begin Patch"

def endPatchMarker : JsString := js "*** End Patch"

def abortMarker : JsString := js "*** Abort"

def abortWarning : JsString :=
  js "Tool stream truncated mid-call due to detected output corruption. " ++
    js "Applied ops above are valid. Re-issue any remaining edits."

/-! ## Regular expressions

Each expression of the source is matched from left to right: neighbouring classes
are disjoint wherever the matcher could give a unit back. -/

/-- `.`, which stops at a line terminator. -/
def isDot (u : CodeUnit) : Bool := !(u == LF || u == CR || u == 0x2028 || u == 0x2029)

/-- `[a-z]`. -/
def isLower (u : CodeUnit) : Bool := 0x0061 ≤ u && u ≤ 0x007a

/-- `[>+\-*]`. -/
def isDecoration (u : CodeUnit) : Bool := u == 0x003e || u == 0x002b || u == 0x002d || u == 0x002a

/-- `(?:\|(.*))?\s*$`: no match, a match without the body, or one with it. -/
def bodyTail : JsString → Option (Option JsString)
  | 0x007c :: rest =>
      if (rest.dropWhile isDot).all isWhitespace then some (some (rest.takeWhile isDot)) else none
  | rest => if rest.all isWhitespace then some none else none

/-- `LID_CAPTURE_RE`, `^\s*[>+\-*]*\s*([1-9]\d*)([a-z]{2})(?:\|.*)?\s*$`, and its
two groups. -/
def lidCapture (raw : JsString) : Option (JsString × JsString) :=
  let body := trimStart ((trimStart raw).dropWhile isDecoration)
  let digits := body.takeWhile isDigit
  match digits, body.dropWhile isDigit with
  | first :: _, h₁ :: h₂ :: rest =>
      if first ≠ 0x0030 && isLower h₁ && isLower h₂ && (bodyTail rest).isSome then
        some (digits, [h₁, h₂])
      else none
  | _, _ => none

/-- `INSERT_BEFORE_OP_RE` and `INSERT_AFTER_OP_RE`, `^OP\s*([^|\s]+)(?:\|(.*))?\s*$`. -/
def insertOpCapture (op : CodeUnit) : JsString → Option (JsString × Option JsString)
  | [] => none
  | first :: rest =>
      let isTarget (u : CodeUnit) : Bool := u ≠ 0x007c && !isWhitespace u
      let target := (trimStart rest).takeWhile isTarget
      if first ≠ op || target.isEmpty then none
      else (bodyTail ((trimStart rest).dropWhile isTarget)).map (fun body => (target, body))

/-- `REPLACE_OP_RE`, `^≔\s*([^\s+<\-=]\S*)\s*$`. -/
def replaceOpCapture : JsString → Option JsString
  | [] => none
  | first :: rest =>
      let range := (trimStart rest).takeWhile (fun u => !isWhitespace u)
      if first ≠ hlOpReplace then none
      else
        match range with
        | [] => none
        | u :: _ =>
            if u = 0x002b || u = 0x003c || u = 0x002d || u = 0x003d then none
            else if ((trimStart rest).dropWhile (fun u => !isWhitespace u)).all isWhitespace then
              some range
            else none

def describeAnchorExamples (linePrefix : JsString) : JsString :=
  js "\"" ++ linePrefix ++ js "sr\", \"" ++ linePrefix ++ js "ab\", \"" ++ linePrefix ++ js "th\""

/-- The start of every message of the parser. -/
def atLine (lineNum : Nat) (message : JsString) : HashlineError :=
  .error (js "line " ++ ofNat lineNum ++ js ": " ++ message)

/-- `parseLid`.  Line numbers are exact here; from 2^53 on the source rounds
them, far beyond any file. -/
def parseLid (raw : JsString) (lineNum : Nat) : Except HashlineError Anchor :=
  match lidCapture raw with
  | none => .error (atLine lineNum (js "expected a full anchor such as " ++
      describeAnchorExamples (js "119") ++ js "; got " ++ jsonStringify raw ++ js "."))
  | some (line, hash) => .ok ⟨parseNat line, hash⟩

structure ParsedRange where
  start : Anchor
  «end» : Anchor
deriving DecidableEq

/-- `raw.split("..")`. -/
def splitDots : JsString → List JsString
  | [] => [[]]
  | [u] => [[u]]
  | u :: v :: rest =>
      if u = 0x002e && v = 0x002e then [] :: splitDots rest
      else (splitDots (v :: rest)).modifyHead (u :: ·)

/-- `parseRange`.  A text without `..` is its own only piece. -/
def parseRange (raw : JsString) (lineNum : Nat) : Except HashlineError ParsedRange :=
  match splitDots raw with
  | [_] => do
      let start ← parseLid raw lineNum
      pure ⟨start, start⟩
  | [startRaw, endRaw] =>
      if startRaw.isEmpty || endRaw.isEmpty then .error notTwoAnchors
      else do
        let start ← parseLid startRaw lineNum
        let «end» ← parseLid endRaw lineNum
        if «end».line < start.line then
          .error (atLine lineNum (js "range " ++ startRaw ++ js ".." ++ endRaw ++
            js " ends before it starts."))
        else if «end».line = start.line && «end».hash ≠ start.hash then
          .error (atLine lineNum (js "range " ++ startRaw ++ js ".." ++ endRaw ++
            js " uses two different hashes for the same line."))
        else pure ⟨start, «end»⟩
  | _ => .error notTwoAnchors
where
  notTwoAnchors : HashlineError :=
    atLine lineNum (js "range must include exactly two full anchors separated by \"..\". " ++
      js "For a one-line edit, repeat the same anchor on both sides.")

/-- The anchor `expandRange` makes for one line of the range. -/
def rangeAnchor (range : ParsedRange) (line : Nat) : Anchor :=
  ⟨line, if line = range.start.line then range.start.hash
    else if line = range.end.line then range.end.hash else rangeInteriorHash⟩

def expandRange (range : ParsedRange) : List Anchor :=
  (List.range' range.start.line (range.end.line + 1 - range.start.line)).map (rangeAnchor range)

/-- `"before" | "after"`. -/
inductive InsertKind where
  | before
  | after
deriving DecidableEq

def parseInsertTarget (raw : JsString) (lineNum : Nat) (kind : InsertKind) :
    Except HashlineError HashlineCursor :=
  if raw = js "BOF" then .ok .bof
  else if raw = js "EOF" then .ok .eof
  else do
    let anchor ← parseLid raw lineNum
    match kind with
    | .before => pure (.beforeAnchor anchor)
    | .after => pure (.afterAnchor anchor)

/-! ## Operations and the loop -/

def isEnvelopeOrAbortMarkerLine (line : JsString) : Bool :=
  trimEnd line = beginPatchMarker || trimEnd line = endPatchMarker || trimEnd line = abortMarker

/-- `HL_OP_CHARS.includes(first)`. -/
def isOpChar (u : CodeUnit) : Bool :=
  u == hlOpInsertBefore || u == hlOpInsertAfter || u == hlOpReplace

def isPayloadTerminatorLine (line : JsString) : Bool :=
  line.head?.any (fun first => first == hlFilePrefix || isOpChar first) ||
    isEnvelopeOrAbortMarkerLine line

/-- `collectPayload`, on the lines below the operation. -/
def collectPayload (following : List JsString) (opLineNum : Nat) (requirePayload : Bool) :
    Except HashlineError (List JsString) :=
  let payload := following.takeWhile (fun line => !isPayloadTerminatorLine line)
  if payload.isEmpty && requirePayload then
    .error (atLine opLineNum
      (js "« and » operations require at least one verbatim payload line."))
  else .ok payload

/-- `pushInsert` for every text, in order. -/
def insertEdits (cursor : HashlineCursor) (texts : List JsString) (lineNum editIndex : Nat) :
    List HashlineEdit :=
  texts.mapIdx (fun k text => .insert cursor text lineNum (editIndex + k))

def rangeDeletes (anchors : List Anchor) (lineNum editIndex : Nat) : List HashlineEdit :=
  anchors.mapIdx (fun k anchor => .delete anchor lineNum (editIndex + k))

section Parse
variable (xxHash32 : List UInt8 → UInt32)

def resolveInlineInsertBody (cursor : HashlineCursor) (body : Option JsString) :
    Option JsString :=
  match cursor, body with
  | _, none => none
  | .beforeAnchor anchor, some body | .afterAnchor anchor, some body =>
      if computeLineHash xxHash32 anchor.line body = anchor.hash then none else some body
  | _, some body => some body

/-- An insert operation: its edits, and how many payload lines it took. -/
def parseInsertOp (kind : InsertKind) (target : JsString) (body : Option JsString)
    (lineNum editIndex : Nat) (following : List JsString) :
    Except HashlineError (List HashlineEdit × Nat) := do
  let cursor ← parseInsertTarget target lineNum kind
  let inlineBody := resolveInlineInsertBody xxHash32 cursor body
  let payload ← collectPayload following lineNum inlineBody.isNone
  pure (insertEdits cursor (inlineBody.toList ++ payload) lineNum editIndex, payload.length)

def parseReplaceOp (token : JsString) (lineNum editIndex : Nat) (following : List JsString) :
    Except HashlineError (List HashlineEdit × Nat) := do
  let range ← parseRange token lineNum
  let payload ← collectPayload following lineNum false
  pure (insertEdits (.beforeAnchor range.start) payload lineNum editIndex ++
    rangeDeletes (expandRange range) lineNum (editIndex + payload.length), payload.length)

/-- One operation line: the three expressions in the source's order. -/
def parseOp (line : JsString) (lineNum editIndex : Nat) (following : List JsString) :
    Except HashlineError (List HashlineEdit × Nat) :=
  match insertOpCapture hlOpInsertBefore line with
  | some (target, body) =>
      parseInsertOp xxHash32 .before target body lineNum editIndex following
  | none =>
    match insertOpCapture hlOpInsertAfter line with
    | some (target, body) =>
        parseInsertOp xxHash32 .after target body lineNum editIndex following
    | none =>
      match replaceOpCapture line with
      | some token => parseReplaceOp token lineNum editIndex following
      | none =>
          if isPayloadTerminatorLine line ||
              line.head?.any (fun u => u == 0x002d || u == 0x0040 || u == 0x00b6) then
            .error (atLine lineNum (js "unrecognized op. Use «ANCHOR (insert before), " ++
              js "»ANCHOR (insert after), or ≔A..B (replace/delete). Got " ++
              jsonStringify line ++ js "."))
          else
            .error (atLine lineNum (js "payload line has no preceding «, », or ≔ operation. Got " ++
              jsonStringify line ++ js "."))

structure ParsedHashline where
  edits : List HashlineEdit
  warnings : List JsString
deriving DecidableEq

/-- The loop over the lines.  `skip` counts the payload lines the last operation
took: the source moves its index past them. -/
def parseLines : List JsString → (lineNum skip editIndex : Nat) →
    Except HashlineError ParsedHashline
  | [], _, _, _ => .ok ⟨[], []⟩
  | _ :: rest, lineNum, skip + 1, editIndex => parseLines rest (lineNum + 1) skip editIndex
  | line :: rest, lineNum, 0, editIndex =>
      if (trim line).isEmpty then parseLines rest (lineNum + 1) 0 editIndex
      else if line = endPatchMarker then .ok ⟨[], []⟩
      else if line = abortMarker then .ok ⟨[], [abortWarning]⟩
      else if line = beginPatchMarker then parseLines rest (lineNum + 1) 0 editIndex
      else do
        let (edits, taken) ← parseOp xxHash32 line lineNum editIndex rest
        let parsed ← parseLines rest (lineNum + 1) taken (editIndex + edits.length)
        pure ⟨edits ++ parsed.edits, parsed.warnings⟩

/-- A line without the carriage return before its line feed. -/
def dropCR (line : JsString) : JsString :=
  if line.getLast? = some CR then line.dropLast else line

/-- `text.split(/\r?\n/)`: the last piece has no line feed and keeps its `\r`. -/
def splitLines (text : JsString) : List JsString :=
  (lines text).dropLast.map dropCR ++ (lines text).getLast?.toList

def parseHashlineWithWarnings (diff : JsString) : Except HashlineError ParsedHashline :=
  let pieces := splitLines diff
  let pieces := if diff.getLast? = some LF && pieces.getLast? = some [] then pieces.dropLast
    else pieces
  parseLines xxHash32 pieces 1 0 0

def parseHashline (diff : JsString) : Except HashlineError (List HashlineEdit) := do
  let parsed ← parseHashlineWithWarnings xxHash32 diff
  pure parsed.edits

end Parse

/-! ## The anchors of a parsed batch -/

/-- The hash of an anchor the caller wrote: two lower-case letters. -/
def IsLidHash (hash : JsString) : Prop :=
  ∃ u v, hash = [u, v] ∧ isLower u = true ∧ isLower v = true

/-- What the parser lets through as an anchor. -/
def IsParsedAnchor (anchor : Anchor) : Prop :=
  1 ≤ anchor.line ∧ (IsLidHash anchor.hash ∨ anchor.hash = rangeInteriorHash)

theorem parseNat_pos {first : CodeUnit} {digits : JsString} (hdigit : isDigit first = true)
    (hfirst : first ≠ 0x0030) : 1 ≤ parseNat (first :: digits) := by
  have hmono : ∀ (ds : JsString) (acc : Nat), 1 ≤ acc →
      1 ≤ ds.foldl (fun acc u => acc * 10 + digitValue u) acc := by
    intro ds
    induction ds with
    | nil => exact fun acc h => h
    | cons d ds ih =>
      intro acc hacc
      exact ih (acc * 10 + digitValue d) (by omega)
  have hval : 1 ≤ digitValue first := by
    have hne : first.toNat ≠ 48 := fun h => hfirst (UInt16.toNat_inj.mp h)
    simp only [isDigit, Bool.and_eq_true, decide_eq_true_eq, UInt16.le_iff_toNat_le,
      UInt16.reduceToNat] at hdigit
    unfold digitValue
    omega
  rw [parseNat, takeWhile_cons_of_pos hdigit, foldl_cons]
  exact hmono _ _ (by omega)

theorem parseLid_spec (h : parseLid raw lineNum = .ok anchor) :
    1 ≤ anchor.line ∧ IsLidHash anchor.hash := by
  unfold parseLid at h
  split at h
  · cases h
  · rename_i line hash hcapture
    cases h
    unfold lidCapture at hcapture
    simp only at hcapture
    split at hcapture
    · rename_i first tail h₁ h₂ rest hdigits hrest
      split at hcapture
      · rename_i hcond
        cases hcapture
        simp only [Bool.and_eq_true, decide_eq_true_eq] at hcond
        obtain ⟨⟨⟨hfirst, hlow₁⟩, hlow₂⟩, _⟩ := hcond
        have hdigit : isDigit first = true := by
          have hmem : first ∈ (trimStart ((trimStart raw).dropWhile isDecoration)).takeWhile
              isDigit := hdigits ▸ mem_cons_self
          exact mem_takeWhile_imp hmem
        rw [hdigits]
        exact ⟨parseNat_pos hdigit hfirst, h₁, h₂, rfl, hlow₁, hlow₂⟩
      · cases hcapture
    · cases hcapture

theorem bind_eq_ok {α β : Type} {x : Except HashlineError α} {f : α → Except HashlineError β}
    {b : β} (h : x >>= f = .ok b) : ∃ a, x = .ok a ∧ f a = .ok b := by
  cases x with
  | error e => cases h
  | ok a => exact ⟨a, rfl, h⟩

theorem parseRange_spec {range : ParsedRange} (h : parseRange raw lineNum = .ok range) :
    (1 ≤ range.start.line ∧ IsLidHash range.start.hash) ∧
      IsLidHash range.end.hash ∧ range.start.line ≤ range.end.line := by
  unfold parseRange at h
  split at h
  · obtain ⟨start, hstart, h⟩ := bind_eq_ok h
    cases h
    have hlid := parseLid_spec hstart
    exact ⟨hlid, hlid.2, Nat.le_refl _⟩
  · split at h
    · cases h
    · obtain ⟨start, hstart, h⟩ := bind_eq_ok h
      obtain ⟨finish, hfinish, h⟩ := bind_eq_ok h
      split at h
      · cases h
      · split at h
        · cases h
        · cases h
          exact ⟨parseLid_spec hstart, (parseLid_spec hfinish).2, by simp only; omega⟩
  · cases h

/-- Every line of an expanded range carries a hash of one of its ends, or the
filler when it lies strictly between them. -/
theorem expandRange_spec {range : ParsedRange} (h : anchor ∈ expandRange range) :
    range.start.line ≤ anchor.line ∧ (anchor.hash = range.start.hash ∨
      anchor.hash = range.end.hash ∨ (anchor.hash = rangeInteriorHash ∧
        range.start.line < anchor.line ∧ anchor.line < range.end.line)) := by
  obtain ⟨line, hline, rfl⟩ := mem_map.mp h
  obtain ⟨hlo, hhi⟩ := mem_range'_1.mp hline
  refine ⟨hlo, ?_⟩
  unfold rangeAnchor
  by_cases hs : line = range.start.line
  · exact Or.inl (if_pos hs)
  · by_cases he : line = range.end.line
    · exact Or.inr (Or.inl (by simp only; rw [if_neg hs, if_pos he]))
    · refine Or.inr (Or.inr ⟨by simp only; rw [if_neg hs, if_neg he], ?_, ?_⟩)
      · simp only
        omega
      · simp only
        omega

theorem mem_insertEdits {cursor : HashlineCursor} {texts : List JsString} {editIndex : Nat}
    (h : edit ∈ insertEdits cursor texts lineNum editIndex) :
    ∃ text k, edit = .insert cursor text lineNum k := by
  obtain ⟨k, _, rfl⟩ := mem_mapIdx.mp h
  exact ⟨_, _, rfl⟩

theorem mem_rangeDeletes {anchors : List Anchor} {editIndex : Nat}
    (h : edit ∈ rangeDeletes anchors lineNum editIndex) :
    ∃ anchor ∈ anchors, ∃ k, edit = .delete anchor lineNum k := by
  obtain ⟨k, hk, rfl⟩ := mem_mapIdx.mp h
  exact ⟨_, getElem_mem hk, _, rfl⟩

section Parse
variable {xxHash32 : List UInt8 → UInt32}
variable {edits : List HashlineEdit} {following : List JsString} {lineNum editIndex : Nat}
variable {taken : Nat} {kind : InsertKind}

theorem parseInsertTarget_spec {raw : JsString} {cursor : HashlineCursor}
    (h : parseInsertTarget raw lineNum kind = .ok cursor) (text : JsString) (n k : Nat) :
    ∀ anchor ∈ getHashlineEditAnchors (.insert cursor text n k), IsParsedAnchor anchor := by
  unfold parseInsertTarget at h
  split at h
  · cases h
    simp [getHashlineEditAnchors]
  · split at h
    · cases h
      simp [getHashlineEditAnchors]
    · obtain ⟨lid, hlid, h⟩ := bind_eq_ok h
      have hparsed : IsParsedAnchor lid :=
        ⟨(parseLid_spec hlid).1, Or.inl (parseLid_spec hlid).2⟩
      cases kind <;> cases h <;> simpa [getHashlineEditAnchors] using hparsed

theorem parseInsertOp_spec {target : JsString} {body : Option JsString}
    (h : parseInsertOp xxHash32 kind target body lineNum editIndex following = .ok (edits, taken)) :
    ∀ edit ∈ edits, ∀ anchor ∈ getHashlineEditAnchors edit, IsParsedAnchor anchor := by
  obtain ⟨cursor, hcursor, h⟩ := bind_eq_ok h
  obtain ⟨payload, _, h⟩ := bind_eq_ok h
  cases h
  intro edit hedit
  obtain ⟨text, k, rfl⟩ := mem_insertEdits hedit
  exact parseInsertTarget_spec hcursor text lineNum k

theorem parseReplaceOp_spec {token : JsString}
    (h : parseReplaceOp token lineNum editIndex following = .ok (edits, taken)) :
    ∀ edit ∈ edits, ∀ anchor ∈ getHashlineEditAnchors edit, IsParsedAnchor anchor := by
  obtain ⟨range, hrange, h⟩ := bind_eq_ok h
  obtain ⟨payload, _, h⟩ := bind_eq_ok h
  cases h
  obtain ⟨⟨hpos, hstart⟩, hend, hle⟩ := parseRange_spec hrange
  intro edit hedit
  rcases mem_append.mp hedit with hedit | hedit
  · obtain ⟨text, k, rfl⟩ := mem_insertEdits hedit
    have hparsed : IsParsedAnchor range.start := ⟨hpos, Or.inl hstart⟩
    simpa [getHashlineEditAnchors] using hparsed
  · obtain ⟨anchor, hanchor, k, rfl⟩ := mem_rangeDeletes hedit
    obtain ⟨hlo, hhash⟩ := expandRange_spec hanchor
    have hparsed : IsParsedAnchor anchor := by
      refine ⟨Nat.le_trans hpos hlo, ?_⟩
      rcases hhash with hhash | hhash | ⟨hhash, _⟩
      · exact Or.inl (hhash ▸ hstart)
      · exact Or.inl (hhash ▸ hend)
      · exact Or.inr hhash
    simpa [getHashlineEditAnchors] using hparsed

theorem parseOp_spec {line : JsString}
    (h : parseOp xxHash32 line lineNum editIndex following = .ok (edits, taken)) :
    ∀ edit ∈ edits, ∀ anchor ∈ getHashlineEditAnchors edit, IsParsedAnchor anchor := by
  unfold parseOp at h
  split at h
  · exact parseInsertOp_spec h
  · split at h
    · exact parseInsertOp_spec h
    · split at h
      · exact parseReplaceOp_spec h
      · split at h <;> cases h

theorem parseLines_spec {pieces : List JsString} {skip : Nat} {parsed : ParsedHashline}
    (h : parseLines xxHash32 pieces lineNum skip editIndex = .ok parsed) :
    ∀ edit ∈ parsed.edits, ∀ anchor ∈ getHashlineEditAnchors edit, IsParsedAnchor anchor := by
  induction pieces generalizing lineNum skip editIndex parsed with
  | nil =>
    cases h
    simp
  | cons line rest ih =>
    cases skip with
    | succ skip => exact ih h
    | zero =>
      rw [parseLines] at h
      split at h
      · exact ih h
      · split at h
        · cases h
          simp
        · split at h
          · cases h
            simp
          · split at h
            · exact ih h
            · obtain ⟨⟨edits, taken⟩, hop, h⟩ := bind_eq_ok h
              obtain ⟨tail, htail, h⟩ := bind_eq_ok h
              cases h
              intro edit hedit
              rcases mem_append.mp hedit with hedit | hedit
              · exact parseOp_spec hop edit hedit
              · exact ih htail edit hedit

/-- **Every anchor of a parsed batch** names a line from 1 on, by two lower-case
letters or by the filler of a range's interior. -/
theorem parseHashline_anchors {diff : JsString} (h : parseHashline xxHash32 diff = .ok edits) :
    ∀ edit ∈ edits, ∀ anchor ∈ getHashlineEditAnchors edit, IsParsedAnchor anchor := by
  obtain ⟨parsed, hparsed, h⟩ := bind_eq_ok h
  cases h
  exact parseLines_spec hparsed

end Parse
end GajaeCode
