import GajaeCode.JsString

/-! # The `*** Begin Patch` envelope

`packages/coding-agent/src/edit/apply-patch/parser.ts`, and the part of
`edit/modes/patch.ts` and `edit/diff.ts` that creates a file from what it returns.
The envelope marks every line of a new file with a `+`, which the parser takes off.
The create branch then takes a `+` off again wherever it looks as if none had been
taken off, so the two layers agree except on contents that look like additions
themselves.
-/
namespace GajaeCode
open List
namespace ApplyPatch
open JsString
variable {ls : List JsString}
variable {p l : JsString}

inductive PatchOperation where
  | create | delete | update
  deriving DecidableEq

/-- `PatchInput`: one operation on one file. -/
structure PatchInput where
  path : JsString
  op : PatchOperation
  rename : Option JsString := none
  diff : Option JsString := none
  deriving DecidableEq

/-- `ParseError`, with the line it is about. -/
structure ParseError where
  message : JsString
  lineNumber : Option Nat := none
  deriving DecidableEq

def ParseError.text (e : ParseError) : JsString :=
  match e.lineNumber with
  | some n => js "Line " ++ ofNat n ++ js ": " ++ e.message
  | none => e.message

structure ApplyPatchError where
  message : JsString
  deriving DecidableEq

/-! ## The parser -/

def beginPatchMarker : JsString := js "*** Begin Patch"
def endPatchMarker : JsString := js "*** End Patch"
def addFileMarker : JsString := js "*** Add File: "
def deleteFileMarker : JsString := js "*** Delete File: "
def updateFileMarker : JsString := js "*** Update File: "
def moveToMarker : JsString := js "*** Move to: "

/-- `+`. -/
def plus : CodeUnit := 0x002b

/-- The line starts with `+`. -/
def isAdded (line : JsString) : Bool := line.head? == some plus

/-- The line ends the body of an update: another file operation starts. -/
def startsFileOp (line : JsString) : Bool :=
  (js "*** Add File:").isPrefixOf line || (js "*** Delete File:").isPrefixOf line ||
    (js "*** Update File:").isPrefixOf line

/-- The openers of a heredoc around the envelope. -/
def heredocOpeners : List JsString := [js "<<EOF", js "<<'EOF'", js "<<\"EOF\""]

/-- The envelope's lines without a heredoc wrapper. -/
def stripHeredoc (ls : List JsString) : List JsString :=
  match ls with
  | first :: second :: rest =>
      if first ∈ heredocOpeners ∧ trim ((second :: rest).getLast (by simp)) = js "EOF" then
        (second :: rest).dropLast
      else ls
  | _ => ls

/-- The rename of an update, and the lines after it. -/
def splitMove : List JsString → Option JsString × List JsString
  | line :: rest =>
      if moveToMarker.isPrefixOf line then (some (line.drop moveToMarker.length), rest)
      else (none, line :: rest)
  | [] => (none, [])

theorem splitMove_length (ls : List JsString) : (splitMove ls).2.length ≤ ls.length := by
  cases ls with
  | nil => simp [splitMove]
  | cons line rest =>
    rw [splitMove]
    split_ifs <;> simp

def invalidHunkHeader (firstLine : JsString) (lineNumber : Nat) : ParseError :=
  ⟨js "'" ++ firstLine ++ js "' is not a valid hunk header. Valid hunk headers: " ++
      js "'*** Add File: \x7bpath\x7d', '*** Delete File: \x7bpath\x7d', " ++
      js "'*** Update File: \x7bpath\x7d'", some lineNumber⟩

def emptyUpdate (path : JsString) (lineNumber : Nat) : ParseError :=
  ⟨js "Update file hunk for path '" ++ path ++ js "' is empty", some lineNumber⟩

/-- The loop over the lines between the markers.  The hunks pushed before an error are
lost with it; while streaming an unknown line ends the loop. -/
def parseHunks (streaming : Bool) (remaining : List JsString) (lineNumber : Nat) :
    Except ParseError (List PatchInput) :=
  match remaining with
  | [] => .ok []
  | first :: rest =>
    let firstLine := trim first
    if firstLine = [] then parseHunks streaming rest (lineNumber + 1)
    else if addFileMarker.isPrefixOf firstLine then
      let added := rest.takeWhile isAdded
      let contents := added.flatMap (fun line => line.drop 1 ++ [LF])
      let hunk :=
        { path := firstLine.drop addFileMarker.length, op := .create, diff := some contents }
      let after := rest.dropWhile isAdded
      (parseHunks streaming after (lineNumber + 1 + added.length)).map (hunk :: ·)
    else if deleteFileMarker.isPrefixOf firstLine then
      let hunk := { path := firstLine.drop deleteFileMarker.length, op := .delete }
      (parseHunks streaming rest (lineNumber + 1)).map (hunk :: ·)
    else if updateFileMarker.isPrefixOf firstLine then
      let path := firstLine.drop updateFileMarker.length
      let move := splitMove rest
      let diffLines := move.2.takeWhile (!startsFileOp ·)
      let after := move.2.dropWhile (!startsFileOp ·)
      let lineNumber := lineNumber + 1 + (rest.length - move.2.length) + diffLines.length
      if diffLines = [] ∧ streaming = false then .error (emptyUpdate path lineNumber)
      else
        let hunk := { path, op := .update, rename := move.1, diff := some (unlines diffLines) }
        (parseHunks streaming after lineNumber).map (hunk :: ·)
    else if streaming then .ok []
    else .error (invalidHunkHeader firstLine lineNumber)
termination_by remaining.length
decreasing_by
  · simp
  · have := (List.dropWhile_sublist isAdded (l := rest)).length_le
    simp only [List.length_cons]
    omega
  · simp
  · have := (List.dropWhile_sublist (!startsFileOp ·) (l := (splitMove rest).2)).length_le
    have := splitMove_length rest
    simp only [List.length_cons]
    omega

def parseApplyPatchWithOptions (patchText : JsString) (streaming : Bool) :
    Except ParseError (List PatchInput) :=
  match stripHeredoc (lines (trim patchText)) with
  | [] =>
      if streaming then .ok []
      else .error ⟨js "The first line of the patch must be '*** Begin Patch'", none⟩
  | first :: rest =>
      if trim first ≠ beginPatchMarker then
        if streaming then .ok []
        else .error ⟨js "The first line of the patch must be '*** Begin Patch'", none⟩
      else
        let hasEndMarker :=
          trim ((first :: rest).getLast (List.cons_ne_nil _ _)) = endPatchMarker
        if ¬ hasEndMarker ∧ streaming = false then
          .error ⟨js "The last line of the patch must be '*** End Patch'", none⟩
        else parseHunks streaming (if hasEndMarker then rest.dropLast else rest) 2

def parseApplyPatch (patchText : JsString) : Except ParseError (List PatchInput) :=
  parseApplyPatchWithOptions patchText false

/-- Take a leading `+ ` or `+` off. -/
def stripPlus (line : JsString) : JsString :=
  if (js "+ ").isPrefixOf line then line.drop 2
  else if isAdded line then line.drop 1
  else line

/-- Some line is not empty, and those that are not all start with `+`. -/
def looksAdded (ls : List JsString) : Bool :=
  let nonEmptyLines := ls.filter (fun line => 0 < line.length)
  decide (0 < nonEmptyLines.length) &&
    nonEmptyLines.all (fun line => (js "+ ").isPrefixOf line || isAdded line)

def normalizeCreateContent (content : JsString) : JsString :=
  if looksAdded (lines content) then unlines ((lines content).map stripPlus) else content

/-- What the create branch asks of the file system. -/
inductive PatchEffect where
  | mkdir (path : JsString)
  | write (path content : JsString)
  deriving DecidableEq

/-- The paths of the host: `resolveToCwd` and `path.dirname`. -/
structure PatchHost where
  resolveToCwd : JsString → JsString
  dirname : JsString → JsString

/-- The create branch of `applyNormalizedPatch`, after its check of the rename: the
effects in order, and the content of the reported change. -/
def applyCreate (host : PatchHost) (input : PatchInput) (dryRun : Bool) :
    Except ApplyPatchError (List PatchEffect × JsString) :=
  let absolutePath := host.resolveToCwd input.path
  if input.rename.any (fun r => !r.isEmpty && host.resolveToCwd r == absolutePath) then
    .error ⟨js "rename path is the same as source path"⟩
  else
    match input.diff with
    | none | some [] => .error ⟨js "Create operation requires diff (file content)"⟩
    | some diff =>
      let normalizedContent := normalizeCreateContent diff
      let content :=
        if normalizedContent.getLast? = some LF then normalizedContent
        else normalizedContent ++ [LF]
      if dryRun then .ok ([], content)
      else
        let parentDir := host.dirname absolutePath
        let mkdirs := if parentDir ≠ [] ∧ parentDir ≠ js "." then [.mkdir parentDir] else []
        .ok (mkdirs ++ [.write absolutePath content], content)

/-! ## What a created file holds -/

/-- The lines, each with its line feed. -/
def terminated (ls : List JsString) : JsString := ls.flatMap (fun line => line ++ [LF])

theorem terminated_eq_unlines (ls : List JsString) : terminated ls = unlines (ls ++ [[]]) := by
  induction ls with
  | nil => rfl
  | cons l ls ih =>
    rw [cons_append, unlines_cons_of_ne_nil l (by simp), ← ih]
    simp [terminated]

theorem lines_terminated (hls : ∀ l ∈ ls, LF ∉ l) : lines (terminated ls) = ls ++ [[]] := by
  rw [terminated_eq_unlines]
  apply lines_unlines (by simp)
  intro l hl
  rcases mem_append.mp hl with hl | hl
  · exact hls l hl
  · rw [mem_singleton.mp hl]
    exact not_mem_nil

theorem terminated_ne_nil (hne : ls ≠ []) : terminated ls ≠ [] := by
  obtain ⟨l, rest, rfl⟩ := exists_cons_of_ne_nil hne
  simp [terminated]

theorem getLast?_terminated (hne : ls ≠ []) : (terminated ls).getLast? = some LF := by
  obtain ⟨rest, l, rfl⟩ := eq_nil_or_concat ls |>.resolve_left hne
  simp [terminated]

theorem isAdded_of_plus_space {line : JsString} (h : (js "+ ").isPrefixOf line = true) :
    isAdded line = true := by
  obtain ⟨rest, rfl⟩ := List.isPrefixOf_iff_prefix.mp h
  rfl

/-- The contents on which the second layer takes a `+` off again: at least one line is
not empty, and every such line begins with `+`. -/
def LooksAdded (ls : List JsString) : Prop :=
  (∃ l ∈ ls, l ≠ []) ∧ ∀ l ∈ ls, l ≠ [] → l.head? = some plus

theorem looksAdded_iff (ls : List JsString) : looksAdded ls = true ↔ LooksAdded ls := by
  have hsome : 0 < (ls.filter (fun line => 0 < line.length)).length ↔ ∃ l ∈ ls, l ≠ [] := by
    rw [length_pos_iff_exists_mem]
    simp [length_pos_iff]
  rw [looksAdded, LooksAdded, Bool.and_eq_true, decide_eq_true_eq, hsome]
  apply and_congr_right
  intro _
  simp only [all_eq_true, mem_filter, Bool.or_eq_true, decide_eq_true_eq, length_pos_iff]
  constructor
  · intro hall l hl hne
    have hadded : isAdded l = true := (hall l ⟨hl, hne⟩).elim isAdded_of_plus_space id
    simpa [isAdded] using hadded
  · intro hall l hl
    exact .inr (by simpa [isAdded] using hall l hl.1 hl.2)

theorem looksAdded_concat_nil (ls : List JsString) : LooksAdded (ls ++ [[]]) ↔ LooksAdded ls := by
  simp [LooksAdded, or_imp, forall_and]

theorem normalizeCreateContent_terminated (hls : ∀ l ∈ ls, LF ∉ l) :
    normalizeCreateContent (terminated ls) =
      if looksAdded ls then terminated (ls.map stripPlus) else terminated ls := by
  have hlooks : looksAdded (ls ++ [[]]) = looksAdded ls := by
    rw [Bool.eq_iff_iff, looksAdded_iff, looksAdded_iff, looksAdded_concat_nil]
  rw [normalizeCreateContent, lines_terminated hls, hlooks]
  split_ifs
  · rw [map_append, terminated_eq_unlines]
    rfl
  · rfl

theorem length_stripPlus_le (l : JsString) : (stripPlus l).length ≤ l.length := by
  unfold stripPlus
  split_ifs
  · simp
  · simp
  · exact le_rfl

theorem length_stripPlus_lt (h : l.head? = some plus) : (stripPlus l).length < l.length := by
  obtain ⟨rest, rfl⟩ := head?_eq_some_iff.mp h
  have hadded : isAdded (plus :: rest) = true := by simp [isAdded]
  unfold stripPlus
  split_ifs
  · simp only [length_drop, length_cons]
    omega
  · simp

theorem length_terminated_stripPlus_le (ls : List JsString) :
    (terminated (ls.map stripPlus)).length ≤ (terminated ls).length := by
  induction ls with
  | nil => simp
  | cons l ls ih =>
    have hl := length_stripPlus_le l
    simp only [terminated, map_cons, flatMap_cons, length_append] at ih ⊢
    omega

theorem length_terminated_stripPlus_lt (hl : l ∈ ls) (h : l.head? = some plus) :
    (terminated (ls.map stripPlus)).length < (terminated ls).length := by
  induction ls with
  | nil => exact absurd hl not_mem_nil
  | cons l' ls ih =>
    have htail := length_terminated_stripPlus_le ls
    have hhead := length_stripPlus_le l'
    simp only [terminated, map_cons, flatMap_cons, length_append] at ih htail ⊢
    rcases mem_cons.mp hl with rfl | hl
    · have := length_stripPlus_lt h
      omega
    · have := ih hl
      omega

/-- The create branch keeps terminated lines exactly when they do not look like
additions. -/
theorem normalizeCreateContent_eq_self_iff (hls : ∀ l ∈ ls, LF ∉ l) :
    normalizeCreateContent (terminated ls) = terminated ls ↔ ¬ LooksAdded ls := by
  rw [normalizeCreateContent_terminated hls, ← looksAdded_iff]
  split_ifs with hlooks
  · refine iff_of_false (fun heq => ?_) (fun hno => hno hlooks)
    obtain ⟨⟨l, hl, hne⟩, hall⟩ := (looksAdded_iff ls).mp hlooks
    have := length_terminated_stripPlus_lt hl (hall l hl hne)
    rw [heq] at this
    exact absurd this (lt_irrefl _)
  · exact iff_of_true rfl hlooks

theorem getLast?_normalizeCreateContent (hne : ls ≠ []) (hls : ∀ l ∈ ls, LF ∉ l) :
    (normalizeCreateContent (terminated ls)).getLast? = some LF := by
  rw [normalizeCreateContent_terminated hls]
  split_ifs
  · exact getLast?_terminated (by simpa using hne)
  · exact getLast?_terminated hne

/-! ## Parsing the envelope of one added file -/

/-- The envelope that adds `p` with the given lines. -/
def addFileEnvelope (p : JsString) (ls : List JsString) : JsString :=
  unlines (beginPatchMarker :: (addFileMarker ++ p) :: (ls.map (plus :: ·) ++ [endPatchMarker]))

theorem trim_append_of_head {u : CodeUnit} (hu : isWhitespace u = false) (s : JsString) :
    trim (u :: s) = trimEnd (u :: s) := by
  rw [trim, trimStart, dropWhile_cons_of_neg (by simp [hu])]

theorem trimEnd_append {s t : JsString} (h : trimEnd t ≠ []) :
    trimEnd (s ++ t) = s ++ trimEnd t := by
  rw [trimEnd, rdropWhile, reverse_append, dropWhile_append]
  have hne : (dropWhile isWhitespace t.reverse).isEmpty = false := by
    rw [isEmpty_eq_false_iff]
    intro hnil
    exact h (by rw [trimEnd, rdropWhile, hnil, reverse_nil])
  rw [hne]
  simp [trimEnd, rdropWhile]

theorem trimEnd_ne_nil_of_trim_ne_nil {s : JsString} (h : trim s ≠ []) : trimEnd s ≠ [] := by
  intro hnil
  apply h
  have hall : ∀ u ∈ s, isWhitespace u = true := rdropWhile_eq_nil_iff.mp hnil
  rw [trim, trimStart, dropWhile_eq_nil_iff.mpr hall]
  rfl

/-- The header line gives the path back, less the white space after it. -/
theorem trim_addFileHeader (hp : trim p ≠ []) :
    trim (addFileMarker ++ p) = addFileMarker ++ trimEnd p := by
  rw [← trimEnd_append (trimEnd_ne_nil_of_trim_ne_nil hp)]
  exact trim_append_of_head (by decide) _

theorem takeWhile_isAdded (ls : List JsString) :
    (ls.map (plus :: ·)).takeWhile isAdded = ls.map (plus :: ·) := by
  apply takeWhile_eq_self_iff.mpr
  intro l hl
  obtain ⟨l', -, rfl⟩ := mem_map.mp hl
  simp [isAdded]

theorem dropWhile_isAdded (ls : List JsString) : (ls.map (plus :: ·)).dropWhile isAdded = [] := by
  apply dropWhile_eq_nil_iff.mpr
  intro l hl
  obtain ⟨l', -, rfl⟩ := mem_map.mp hl
  simp [isAdded]

theorem parseHunks_addFile (hp : trim p ≠ []) (ls : List JsString) (streaming : Bool)
    (lineNumber : Nat) :
    parseHunks streaming ((addFileMarker ++ p) :: ls.map (plus :: ·)) lineNumber =
      .ok [{ path := trimEnd p, op := .create, diff := some (terminated ls) }] := by
  rw [parseHunks]
  have hne : addFileMarker ++ trimEnd p ≠ [] := by simp [addFileMarker, js]
  have hprefix : addFileMarker.isPrefixOf (addFileMarker ++ trimEnd p) = true :=
    List.isPrefixOf_iff_prefix.mpr (prefix_append _ _)
  simp only [trim_addFileHeader hp, if_neg hne, hprefix, if_true, takeWhile_isAdded,
    dropWhile_isAdded]
  rw [parseHunks]
  simp [Except.map, terminated, flatMap_map]

theorem trim_envelope (body : List JsString) :
    trim (unlines (beginPatchMarker :: (body ++ [endPatchMarker]))) =
      unlines (beginPatchMarker :: (body ++ [endPatchMarker])) := by
  have hend : ∀ ls : List JsString, ∃ front,
      unlines (ls ++ [endPatchMarker]) = front ++ endPatchMarker := by
    intro ls
    induction ls with
    | nil => exact ⟨[], by simp⟩
    | cons l ls ih =>
      obtain ⟨front, hfront⟩ := ih
      refine ⟨l ++ LF :: front, ?_⟩
      rw [cons_append, unlines_cons_of_ne_nil l (by simp), hfront]
      simp
  obtain ⟨front, hfront⟩ := hend body
  rw [unlines_cons_of_ne_nil _ (by simp), hfront, ← cons_append, ← append_assoc,
    show beginPatchMarker ++ LF :: front =
      0x002a :: (beginPatchMarker.tail ++ LF :: front) from rfl,
    cons_append, trim_append_of_head (by decide), ← cons_append,
    trimEnd_append (by decide)]
  rfl

theorem stripHeredoc_of_begin (rest : List JsString) :
    stripHeredoc (beginPatchMarker :: rest) = beginPatchMarker :: rest := by
  cases rest with
  | nil => rfl
  | cons second rest =>
    rw [stripHeredoc, if_neg]
    rintro ⟨hmem, -⟩
    exact absurd hmem (by decide)

/-- Any body between the two markers reaches the loop as it is. -/
theorem parseApplyPatch_envelope {body : List JsString} (hbody : ∀ l ∈ body, LF ∉ l) :
    parseApplyPatch (unlines (beginPatchMarker :: (body ++ [endPatchMarker]))) =
      parseHunks false body 2 := by
  have hlf : ∀ l ∈ beginPatchMarker :: (body ++ [endPatchMarker]), LF ∉ l := by
    intro l hl
    rcases mem_cons.mp hl with rfl | hl
    · decide
    · rcases mem_append.mp hl with hl | hl
      · exact hbody l hl
      · rw [mem_singleton.mp hl]
        decide
  have hbegin : trim beginPatchMarker = beginPatchMarker := by decide
  have hend : trim endPatchMarker = endPatchMarker := by decide
  rw [parseApplyPatch, parseApplyPatchWithOptions, trim_envelope,
    lines_unlines (cons_ne_nil _ _) hlf, stripHeredoc_of_begin]
  simp [hbegin, hend]

/-- **The parser's half.**  The envelope of an added file parses to one creation, of
exactly the lines between the markers. -/
theorem parseApplyPatch_addFileEnvelope (hp : trim p ≠ []) (hlf : LF ∉ p) (hls : ∀ l ∈ ls, LF ∉ l) :
    parseApplyPatch (addFileEnvelope p ls) =
      .ok [{ path := trimEnd p, op := .create, diff := some (terminated ls) }] := by
  rw [← parseHunks_addFile hp ls false 2, addFileEnvelope, ← cons_append]
  apply parseApplyPatch_envelope
  intro l hl
  rcases mem_cons.mp hl with rfl | hl
  · intro hmem
    rcases mem_append.mp hmem with hmem | hmem
    · exact absurd hmem (by decide)
    · exact hlf hmem
  · obtain ⟨l', hl', rfl⟩ := mem_map.mp hl
    intro hmem
    rcases mem_cons.mp hmem with hplus | hmem
    · exact absurd hplus (by decide)
    · exact hls l' hl' hmem

def writes (effects : List PatchEffect) : List (JsString × JsString) :=
  effects.filterMap fun
    | .write path content => some (path, content)
    | .mkdir _ => none

/-- Applying the envelope creates one file: the path's, holding the lines, each with
its line feed. -/
def AddFileRoundTrips (host : PatchHost) (p : JsString) (ls : List JsString) : Prop :=
  ∃ hunk effects content, parseApplyPatch (addFileEnvelope p ls) = .ok [hunk] ∧
    hunk.op = .create ∧ applyCreate host hunk false = .ok (effects, content) ∧
    writes effects = [(host.resolveToCwd (trimEnd p), terminated ls)]

/-- The create branch writes one file, with the normalized content. -/
theorem applyCreate_terminated (host : PatchHost) (path : JsString) (hne : ls ≠ [])
    (hls : ∀ l ∈ ls, LF ∉ l) : ∃ effects content, applyCreate host
        { path, op := .create, diff := some (terminated ls) } false = .ok (effects, content) ∧
      writes effects = [(host.resolveToCwd path, normalizeCreateContent (terminated ls))] := by
  obtain ⟨u, rest, hdiff⟩ := exists_cons_of_ne_nil (terminated_ne_nil hne)
  have hlast := getLast?_normalizeCreateContent hne hls
  rw [hdiff] at hlast ⊢
  simp only [applyCreate, Option.any_none, Bool.false_eq_true, if_false, hlast, if_true]
  refine ⟨_, _, rfl, ?_⟩
  split_ifs <;> rfl

/-- **Adding a file.**  For every path that a header can name and every nonempty list of
lines, the envelope creates the file with exactly these lines if and only if the lines
do not look like additions: not every nonempty line begins with `+`, or none is
nonempty. -/
theorem addFile_roundTrips_iff (host : PatchHost) {p : JsString} (hp : trim p ≠ [])
    (hlf : LF ∉ p) {ls : List JsString} (hne : ls ≠ []) (hls : ∀ l ∈ ls, LF ∉ l) :
    AddFileRoundTrips host p ls ↔
      ¬ ((∃ l ∈ ls, l ≠ []) ∧ ∀ l ∈ ls, l ≠ [] → l.head? = some plus) := by
  have hparse := parseApplyPatch_addFileEnvelope hp hlf hls
  obtain ⟨effects, content, happly, hwrites⟩ :=
    applyCreate_terminated host (trimEnd p) hne hls
  rw [← LooksAdded, ← normalizeCreateContent_eq_self_iff hls]
  constructor
  · rintro ⟨hunk, effects', content', hparse', -, happly', hwrites'⟩
    rw [hparse] at hparse'
    obtain rfl := singleton_inj.mp (Except.ok.inj hparse')
    rw [happly] at happly'
    obtain ⟨rfl, rfl⟩ := Prod.mk.inj (Except.ok.inj happly')
    rw [hwrites] at hwrites'
    exact (Prod.mk.inj (singleton_inj.mp hwrites')).2
  · intro hself
    rw [hself] at hwrites
    exact ⟨_, effects, content, hparse, rfl, happly, hwrites⟩

def rootHost : PatchHost := ⟨fun p => js "/w/" ++ p, fun _ => js "/w"⟩

theorem addFile_roundTrips_iff_mixed : AddFileRoundTrips rootHost (js "f") [js "+a", [], js "b"] :=
  (addFile_roundTrips_iff rootHost (by decide) (by decide) (by decide) (by decide)).mpr (by decide)

/-- One line `+a` is written as `a`. -/
theorem addFile_plus_line_stripped :
    (∃ hunk, parseApplyPatch (addFileEnvelope (js "f") [js "+a"]) = .ok [hunk] ∧
      hunk.op = .create ∧ applyCreate rootHost hunk false =
        .ok ([.mkdir (js "/w"), .write (js "/w/f") (js "a\n")], js "a\n")) ∧
      ¬ AddFileRoundTrips rootHost (js "f") [js "+a"] := by
  have hparse : parseApplyPatch (addFileEnvelope (js "f") [js "+a"]) =
      .ok [{ path := js "f", op := .create, diff := some (js "+a\n") }] :=
    parseApplyPatch_addFileEnvelope (by decide) (by decide) (by decide)
  have happly : applyCreate rootHost
      { path := js "f", op := .create, diff := some (js "+a\n") } false =
        .ok ([.mkdir (js "/w"), .write (js "/w/f") (js "a\n")], js "a\n") := by
    decide
  refine ⟨⟨_, hparse, rfl, happly⟩, ?_⟩
  rintro ⟨hunk, effects, content, hparse', -, happly', hwrites⟩
  rw [hparse] at hparse'
  obtain rfl := singleton_inj.mp (Except.ok.inj hparse')
  rw [happly] at happly'
  obtain ⟨rfl, rfl⟩ := Prod.mk.inj (Except.ok.inj happly')
  exact absurd hwrites (by decide)

end ApplyPatch
end GajaeCode
