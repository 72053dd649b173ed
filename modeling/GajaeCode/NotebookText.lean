import Mathlib.Data.List.Forall2
import GajaeCode.JsString

/-! # Notebooks as editable text

`packages/coding-agent/src/edit/notebook.ts`.  A notebook is shown as text, each cell
under a line `# %% [TYPE] cell:INDEX`, and an edited text is read back against the
notebook it came from: a cell whose marker carries the index of a cell not used yet
keeps that cell's other fields.  The markers stand in the same lines as the sources, so
a source line that reads like a marker starts a cell of its own.
-/
namespace GajaeCode
open JsString List Option
variable (displayPath : JsString)

inductive NotebookCellType where
  | code | markdown | raw
  deriving DecidableEq

def NotebookCellType.text : NotebookCellType → JsString
  | .code => js "code"
  | .markdown => js "markdown"
  | .raw => js "raw"

/-- A cell's source: one string or a list of pieces. -/
inductive NotebookSource where
  | text (s : JsString)
  | pieces (ss : List JsString)
  deriving DecidableEq

/-- A cell.  `V` is whatever JSON holds in metadata, outputs and other keys; an absent
field is `none`, and an `execution_count` that is present may still be `null`. -/
structure NotebookCell (V : Type) where
  cellType : NotebookCellType
  source : Option NotebookSource
  metadata : Option (List (JsString × V))
  executionCount : Option (Option Int)
  outputs : Option (List V)
  other : List (JsString × V)
  deriving DecidableEq

structure NotebookDocument (V : Type) where
  cells : List (NotebookCell V)
  metadata : List (JsString × V)
  nbformat : Int
  nbformatMinor : Int
  other : List (JsString × V)
  deriving DecidableEq

variable {V : Type}

def sourceToText : Option NotebookSource → JsString
  | none => []
  | some (.text s) => s
  | some (.pieces ss) => ss.flatten

/-- `content.match(/[^\n]*\n|[^\n]+$/g)`: the lines with their line feeds, and what
follows the last one. -/
def splitNotebookSource (content : JsString) : List JsString :=
  match content with
  | [] => []
  | u :: rest =>
      if u = LF then [u] :: splitNotebookSource rest
      else
        match splitNotebookSource rest with
        | [] => [[u]]
        | piece :: pieces => (u :: piece) :: pieces

def createNotebookCell (cellType : NotebookCellType) (source : JsString) : NotebookCell V where
  cellType := cellType
  metadata := some []
  source := some (.pieces (splitNotebookSource source))
  executionCount := if cellType = .code then some none else none
  outputs := if cellType = .code then some [] else none
  other := []

def cellMarker (cellType : NotebookCellType) (index : Nat) : JsString :=
  js "# %% [" ++ cellType.text ++ js "] cell:" ++ ofNat index

def cellText (index : Nat) (cell : NotebookCell V) : JsString :=
  let source := sourceToText cell.source
  if 0 < source.length then cellMarker cell.cellType index ++ LF :: source
  else cellMarker cell.cellType index

variable (notebook : NotebookDocument V)

def notebookToEditableText : JsString :=
  unlines (notebook.cells.mapIdx cellText)

/-! ## Reading a text back -/

structure ParsedVirtualCell where
  cellType : NotebookCellType
  cellIndex : Option Nat
  source : JsString
  deriving DecidableEq

def afterPrefix (p line : JsString) : Option JsString :=
  if p.isPrefixOf line then some (line.drop p.length) else none

/-- What may follow `# %% [TYPE]` on the line: nothing, or ` cell:` and digits.
`parseInt` rounds indices beyond the exact integers, all of them far past any cell. -/
def parseMarkerIndex (rest : JsString) : Option (Option Nat) :=
  if rest = [] then some none
  else
    match afterPrefix (js " cell:") rest with
    | some digits =>
        if digits ≠ [] ∧ digits.all isDigit then some (some (parseNat digits)) else none
    | none => none

/-- The marker of the given type, `/^# %% \[TYPE\](?: cell:(\d+))?$/`. -/
def parseMarkerOf (line : JsString) (cellType : NotebookCellType) :
    Option (NotebookCellType × Option Nat) :=
  ((afterPrefix (js "# %% [" ++ cellType.text ++ js "]") line).bind parseMarkerIndex).map
    (fun index => (cellType, index))

/-- `CELL_MARKER_RE`. -/
def parseVirtualCellMarker (line : JsString) : Option (NotebookCellType × Option Nat) :=
  [NotebookCellType.code, .markdown, .raw].findSome? (parseMarkerOf line)

/-- The cell under way: its marker and the lines so far. -/
structure CurrentCell where
  cellType : NotebookCellType
  cellIndex : Option Nat
  lines : List JsString

/-- `flush`: the cell under way, finished. -/
def CurrentCell.finish (c : CurrentCell) : ParsedVirtualCell :=
  ⟨c.cellType, c.cellIndex, unlines c.lines⟩

def invalidRepresentation (displayPath : JsString) : JsString :=
  js "Invalid notebook editable representation for " ++ displayPath ++
    js ": expected first line to be \"# %% [code] cell:0\", \"# %% [markdown] cell:0\", " ++
    js "or \"# %% [raw] cell:0\"."

/-- The loop of `parseNotebookEditableText`, with the cell under way. -/
def parseCells (displayPath : JsString) :
    Option CurrentCell → List JsString → Except JsString (List ParsedVirtualCell)
  | current, [] => .ok (current.toList.map CurrentCell.finish)
  | current, line :: rest =>
    match parseVirtualCellMarker line, current with
    | some (cellType, cellIndex), current =>
        (parseCells displayPath (some ⟨cellType, cellIndex, []⟩) rest).map
          (current.toList.map CurrentCell.finish ++ ·)
    | none, none => .error (invalidRepresentation displayPath)
    | none, some c => parseCells displayPath (some { c with lines := c.lines ++ [line] }) rest

def parseNotebookEditableText (text displayPath : JsString) :
    Except JsString (List ParsedVirtualCell) :=
  parseCells displayPath none (if text.length = 0 then [] else lines text)

/-- The fields of a found cell that follow its new type. -/
def updateCell (cell : NotebookCell V) (parsedCell : ParsedVirtualCell) : NotebookCell V :=
  { cell with
    cellType := parsedCell.cellType
    source := some (.pieces (splitNotebookSource parsedCell.source))
    executionCount :=
      if parsedCell.cellType = .code then some (cell.executionCount.getD none) else none
    outputs := if parsedCell.cellType = .code then some (cell.outputs.getD []) else none }

/-- The original cell a parsed one refers to: in range and not used before. -/
def originalCell (cells : List (NotebookCell V)) (used : List Nat) (cellIndex : Option Nat) :
    Option (Nat × NotebookCell V) :=
  cellIndex.bind fun index =>
    if index ∈ used then none else cells[index]?.map (fun cell => (index, cell))

/-- The new cells, with the set of original cells used so far. -/
def rebuildCells (cells : List (NotebookCell V)) :
    List Nat → List ParsedVirtualCell → List (NotebookCell V)
  | _, [] => []
  | used, parsedCell :: rest =>
    match originalCell cells used parsedCell.cellIndex with
    | some (index, cell) => updateCell cell parsedCell :: rebuildCells cells (index :: used) rest
    | none =>
        createNotebookCell parsedCell.cellType parsedCell.source :: rebuildCells cells used rest

def applyNotebookEditableText (text displayPath : JsString) :
    Except JsString (NotebookDocument V) :=
  (parseNotebookEditableText text displayPath).map fun parsedCells =>
    { notebook with cells := rebuildCells notebook.cells [] parsedCells }

theorem flatten_splitNotebookSource (content : JsString) :
    (splitNotebookSource content).flatten = content := by
  induction content with
  | nil => rfl
  | cons u rest ih =>
    rw [splitNotebookSource]
    split_ifs with hu
    · rw [flatten_cons, ih]
      rfl
    · split
      · rename_i hnil
        rw [hnil] at ih
        rw [← ih]
        rfl
      · rename_i piece pieces hcons
        rw [hcons, flatten_cons] at ih
        rw [flatten_cons, cons_append, ih]

theorem afterPrefix_append (p rest : JsString) : afterPrefix p (p ++ rest) = some rest := by
  rw [afterPrefix, if_pos (List.isPrefixOf_iff_prefix.mpr (prefix_append _ _)), drop_left]

theorem ofNat_ne_nil (n : Nat) : ofNat n ≠ [] := by
  by_cases h : n < 10
  · rw [ofNat_of_lt h]
    exact cons_ne_nil _ _
  · rw [ofNat_of_ge h]
    simp

theorem parseMarkerIndex_ofNat (index : Nat) :
    parseMarkerIndex (js " cell:" ++ ofNat index) = some (some index) := by
  have hdigits : (ofNat index).all isDigit = true :=
    all_eq_true.mpr (isDigit_of_mem_ofNat index)
  have hvalue : parseNat (ofNat index ++ []) = index := parseNat_ofNat_append index (by simp)
  rw [append_nil] at hvalue
  rw [parseMarkerIndex, if_neg (by simp [js]), afterPrefix_append]
  simp only [if_pos (And.intro (ofNat_ne_nil index) hdigits), hvalue]

variable (cellType : NotebookCellType)

theorem parseVirtualCellMarker_cellMarker (index : Nat) :
    parseVirtualCellMarker (cellMarker cellType index) = some (cellType, some index) := by
  have hmarker : cellMarker cellType index =
      (js "# %% [" ++ cellType.text ++ js "]") ++ (js " cell:" ++ ofNat index) := by
    simp [cellMarker, js]
  have hown : parseMarkerOf (cellMarker cellType index) cellType = some (cellType, some index) := by
    rw [parseMarkerOf, hmarker, afterPrefix_append, bind_some, parseMarkerIndex_ofNat]
    rfl
  cases cellType with
  | code => simp only [parseVirtualCellMarker, findSome?, hown]
  | markdown =>
    have hcode : parseMarkerOf (cellMarker .markdown index) .code = none := rfl
    simp only [parseVirtualCellMarker, findSome?, hcode, hown]
  | raw =>
    have hcode : parseMarkerOf (cellMarker .raw index) .code = none := rfl
    have hmarkdown : parseMarkerOf (cellMarker .raw index) .markdown = none := rfl
    simp only [parseVirtualCellMarker, findSome?, hcode, hmarkdown, hown]

theorem LF_not_mem_cellMarker (index : Nat) : LF ∉ cellMarker cellType index := by
  have htype : LF ∉ js "# %% [" ++ cellType.text ++ js "] cell:" := by
    cases cellType <;> decide
  intro hmem
  rcases mem_append.mp hmem with hmem | hmem
  · exact htype hmem
  · exact absurd (isDigit_of_mem_ofNat index LF hmem) (by decide)

def cellLines (index : Nat) (cell : NotebookCell V) : List JsString :=
  let source := sourceToText cell.source
  cellMarker cell.cellType index :: if 0 < source.length then lines source else []

def cellLinesFrom : Nat → List (NotebookCell V) → List JsString
  | _, [] => []
  | k, cell :: cells => cellLines k cell ++ cellLinesFrom (k + 1) cells

theorem lines_cellText (index : Nat) (cell : NotebookCell V) :
    lines (cellText index cell) = cellLines index cell := by
  have hmarker := lines_of_not_mem (LF_not_mem_cellMarker cell.cellType index)
  simp only [cellText, cellLines]
  split_ifs
  · rw [lines_append_LF, hmarker]
    rfl
  · exact hmarker

theorem flatMap_lines_cellText (k : Nat) (cells : List (NotebookCell V)) :
    (cells.mapIdx (fun i => cellText (k + i))).flatMap lines = cellLinesFrom k cells := by
  induction cells generalizing k with
  | nil => rfl
  | cons cell cells ih =>
    have hshift : (fun i => cellText (V := V) (k + (i + 1))) = fun i => cellText (k + 1 + i) := by
      funext i
      rw [Nat.add_assoc, Nat.add_comm 1 i]
    rw [mapIdx_cons, flatMap_cons, lines_cellText, Nat.add_zero, hshift, ih, cellLinesFrom]

theorem cellText_ne_nil (index : Nat) (cell : NotebookCell V) : cellText index cell ≠ [] := by
  simp only [cellText, cellMarker]
  split_ifs <;> simp [js]

theorem lines_notebookToEditableText : (if (notebookToEditableText notebook).length = 0 then []
      else lines (notebookToEditableText notebook)) = cellLinesFrom 0 notebook.cells := by
  rw [notebookToEditableText, ← flatMap_lines_cellText 0]
  simp only [Nat.zero_add]
  by_cases hcells : notebook.cells = []
  · rw [hcells]
    rfl
  · have hne : notebook.cells.mapIdx cellText ≠ [] := by simpa using hcells
    rw [← lines_unlines_flatMap hne, if_neg]
    intro hlen
    obtain ⟨cell, cells, hcons⟩ := exists_cons_of_ne_nil hcells
    rw [length_eq_zero_iff, hcons, mapIdx_cons] at hlen
    cases hrest : cells.mapIdx (fun i => cellText (i + 1)) with
    | nil =>
      rw [hrest, unlines_singleton] at hlen
      exact cellText_ne_nil 0 cell hlen
    | cons l ls =>
      rw [hrest, unlines_cons_cons] at hlen
      exact absurd (append_eq_nil_iff.mp hlen).2 (cons_ne_nil _ _)

def isCellMarker (line : JsString) : Bool := (parseVirtualCellMarker line).isSome

theorem isCellMarker_cellMarker (index : Nat) :
    isCellMarker (cellMarker cellType index) = true := by
  rw [isCellMarker, parseVirtualCellMarker_cellMarker]
  rfl

theorem parseCells_marker (current : Option CurrentCell) {line : JsString}
    {cellType : NotebookCellType} {cellIndex : Option Nat}
    (h : parseVirtualCellMarker line = some (cellType, cellIndex)) (rest : List JsString) :
    parseCells displayPath current (line :: rest) =
      (parseCells displayPath (some ⟨cellType, cellIndex, []⟩) rest).map
        (current.toList.map CurrentCell.finish ++ ·) := by
  simp only [parseCells, h]

theorem parseCells_line (c : CurrentCell) {line : JsString} (h : isCellMarker line = false)
    (rest : List JsString) : parseCells displayPath (some c) (line :: rest) =
      parseCells displayPath (some { c with lines := c.lines ++ [line] }) rest := by
  have hnone : parseVirtualCellMarker line = none := by simpa [isCellMarker] using h
  simp only [parseCells, hnone]

/-- Every marker line gives one cell, and nothing else does. -/
theorem parseCells_length {displayPath : JsString} {current : Option CurrentCell}
    {ls : List JsString} {cells : List ParsedVirtualCell}
    (h : parseCells displayPath current ls = .ok cells) :
    cells.length = current.toList.length + ls.countP isCellMarker := by
  induction ls generalizing current cells with
  | nil =>
    obtain rfl := Except.ok.inj h
    simp
  | cons line rest ih =>
    by_cases hline : isCellMarker line = true
    · obtain ⟨⟨cellType, cellIndex⟩, hmarker⟩ := isSome_iff_exists.mp hline
      rw [parseCells_marker displayPath current hmarker] at h
      cases hrest : parseCells displayPath (some ⟨cellType, cellIndex, []⟩) rest with
      | error e =>
        rw [hrest] at h
        exact absurd h (by simp [Except.map])
      | ok restCells =>
        rw [hrest] at h
        obtain rfl := Except.ok.inj h
        rw [length_append, ih hrest, countP_cons_of_pos hline]
        simp only [length_map, toList_some, length_singleton]
        omega
    · rw [countP_cons_of_neg hline]
      rw [Bool.not_eq_true] at hline
      cases current with
      | none =>
        have hnone : parseVirtualCellMarker line = none := by simpa [isCellMarker] using hline
        simp [parseCells, hnone] at h
      | some c =>
        rw [parseCells_line displayPath c hline] at h
        have := ih h
        simpa using this

/-- The source lines that read like markers. -/
def strayMarkers (cells : List (NotebookCell V)) : Nat :=
  (cells.map (fun cell => (lines (sourceToText cell.source)).countP isCellMarker)).sum

theorem countP_cellLines (index : Nat) (cell : NotebookCell V) :
    (cellLines index cell).countP isCellMarker =
      1 + (lines (sourceToText cell.source)).countP isCellMarker := by
  simp only [cellLines]
  rw [countP_cons_of_pos (isCellMarker_cellMarker _ _), Nat.add_comm 1]
  split_ifs with hpos
  · rfl
  · have hnil : sourceToText cell.source = [] := by simpa using hpos
    rw [hnil]
    rfl

theorem countP_cellLinesFrom (k : Nat) (cells : List (NotebookCell V)) :
    (cellLinesFrom k cells).countP isCellMarker = cells.length + strayMarkers cells := by
  induction cells generalizing k with
  | nil => rfl
  | cons cell cells ih =>
    rw [cellLinesFrom, countP_append, countP_cellLines, ih]
    simp only [strayMarkers, map_cons, sum_cons, length_cons]
    omega

variable (cells : List (NotebookCell V))

theorem length_rebuildCells (used : List Nat) (parsedCells : List ParsedVirtualCell) :
    (rebuildCells cells used parsedCells).length = parsedCells.length := by
  induction parsedCells generalizing used with
  | nil => rfl
  | cons parsedCell rest ih =>
    rw [rebuildCells]
    split
    · simp [ih]
    · simp [ih]

/-- No line of the cell's source reads like a marker. -/
def CleanSource (cell : NotebookCell V) : Prop :=
  ∀ line ∈ lines (sourceToText cell.source), parseVirtualCellMarker line = none

theorem cleanSource_iff : strayMarkers cells = 0 ↔ ∀ cell ∈ cells, CleanSource cell := by
  induction cells with
  | nil => simp [strayMarkers]
  | cons cell cells ih =>
    have hcell : (lines (sourceToText cell.source)).countP isCellMarker = 0 ↔ CleanSource cell := by
      simp [countP_eq_zero, CleanSource, isCellMarker]
    rw [forall_mem_cons, ← ih, ← hcell]
    simp only [strayMarkers, map_cons, sum_cons]
    omega

def parsedFrom : Nat → List (NotebookCell V) → List ParsedVirtualCell
  | _, [] => []
  | k, cell :: cells =>
      ⟨cell.cellType, some k, sourceToText cell.source⟩ :: parsedFrom (k + 1) cells

theorem parseCells_body (c : CurrentCell) {body : List JsString}
    (hbody : ∀ line ∈ body, parseVirtualCellMarker line = none) (rest : List JsString) :
    parseCells displayPath (some c) (body ++ rest) =
      parseCells displayPath (some { c with lines := c.lines ++ body }) rest := by
  induction body generalizing c with
  | nil => simp
  | cons line body ih =>
    have hline : isCellMarker line = false := by
      simp [isCellMarker, hbody line mem_cons_self]
    rw [cons_append, parseCells_line displayPath c hline,
      ih _ (fun l hl => hbody l (mem_cons_of_mem _ hl))]
    simp

theorem unlines_body (source : JsString) :
    unlines (if 0 < source.length then lines source else []) = source := by
  split_ifs with hpos
  · exact unlines_lines source
  · have hnil : source = [] := by simpa using hpos
    rw [hnil]
    rfl

theorem parseCells_cellLinesFrom (current : Option CurrentCell) (k : Nat)
    {cells : List (NotebookCell V)} (hclean : ∀ cell ∈ cells, CleanSource cell) :
    parseCells displayPath current (cellLinesFrom k cells) =
      .ok (current.toList.map CurrentCell.finish ++ parsedFrom k cells) := by
  induction cells generalizing current k with
  | nil =>
    rw [cellLinesFrom, parseCells, parsedFrom, append_nil]
  | cons cell cells ih =>
    have hbody : ∀ line ∈ (if 0 < (sourceToText cell.source).length
        then lines (sourceToText cell.source) else []), parseVirtualCellMarker line = none := by
      intro line hline
      split_ifs at hline
      · exact hclean cell mem_cons_self line hline
      · exact absurd hline not_mem_nil
    rw [cellLinesFrom, cellLines, cons_append,
      parseCells_marker _ _ (parseVirtualCellMarker_cellMarker _ _), parseCells_body _ _ hbody,
      ih _ _ (fun c hc => hclean c (mem_cons_of_mem _ hc))]
    simp only [Except.map, toList_some, map_cons, map_nil, CurrentCell.finish,
      nil_append, unlines_body, parsedFrom, cons_append]

/-- A cell after a round trip; once it is found, its index plays no part. -/
def reread (cell : NotebookCell V) : NotebookCell V :=
  updateCell cell ⟨cell.cellType, none, sourceToText cell.source⟩

/-- Cells read with their own indices are all found again. -/
theorem rebuildCells_parsedFrom (front cells : List (NotebookCell V)) (used : List Nat)
    (hused : ∀ i ∈ used, i < front.length) :
    rebuildCells (front ++ cells) used (parsedFrom front.length cells) = cells.map reread := by
  induction cells generalizing front used with
  | nil => rfl
  | cons cell cells ih =>
    have hfound : originalCell (front ++ cell :: cells) used (some front.length) =
        some (front.length, cell) := by
      have hnew : front.length ∉ used := fun hmem => lt_irrefl _ (hused _ hmem)
      simp [originalCell, hnew]
    have hrest := ih (front ++ [cell]) (front.length :: used) (by
      intro i hi
      rw [length_append, length_singleton]
      rcases mem_cons.mp hi with rfl | hi
      · omega
      · have := hused i hi
        omega)
    rw [append_assoc, singleton_append, length_append, length_singleton] at hrest
    rw [parsedFrom, rebuildCells, hfound, map_cons]
    exact congrArg (reread cell :: ·) hrest

/-- **Reading the text back.**  Where no source line reads like a marker, every cell
is found again. -/
theorem applyNotebookEditableText_self (displayPath : JsString)
    (hclean : ∀ cell ∈ notebook.cells, CleanSource cell) :
    applyNotebookEditableText notebook (notebookToEditableText notebook) displayPath =
      .ok { notebook with cells := notebook.cells.map reread } := by
  have hrebuild := rebuildCells_parsedFrom [] notebook.cells [] (by simp)
  simp only [nil_append, length_nil] at hrebuild
  rw [applyNotebookEditableText, parseNotebookEditableText, lines_notebookToEditableText,
    parseCells_cellLinesFrom _ _ _ hclean]
  simp [Except.map, hrebuild]

/-- The cell that came back shows the same: its type, its source text, its metadata
and, for code, its outputs. -/
structure NotebookCell.Kept (cell cell' : NotebookCell V) : Prop where
  cellType : cell'.cellType = cell.cellType
  source : sourceToText cell'.source = sourceToText cell.source
  metadata : cell'.metadata = cell.metadata
  outputs : cell.cellType = .code → cell'.outputs = cell.outputs

/-- Reading the unedited text back gives the same cells in the same order. -/
def Lossless (displayPath : JsString) : Prop :=
  ∃ notebook', applyNotebookEditableText notebook (notebookToEditableText notebook) displayPath =
      .ok notebook' ∧
    List.Forall₂ NotebookCell.Kept notebook.cells notebook'.cells

theorem kept_reread_iff (cell : NotebookCell V) :
    cell.Kept (reread cell) ↔ (cell.cellType = .code → cell.outputs ≠ none) := by
  constructor
  · intro hkept hcode hnone
    have := hkept.outputs hcode
    simp [reread, updateCell, hcode, hnone] at this
  · intro hout
    refine ⟨rfl, flatten_splitNotebookSource _, rfl, fun hcode => ?_⟩
    obtain ⟨outputs, houtputs⟩ := ne_none_iff_exists'.mp (hout hcode)
    simp [reread, updateCell, hcode, houtputs]

theorem forall₂_kept_reread : Forall₂ NotebookCell.Kept cells (cells.map reread) ↔
      ∀ cell ∈ cells, cell.cellType = .code → cell.outputs ≠ none := by
  induction cells with
  | nil => simp
  | cons cell cells ih =>
    rw [map_cons, forall₂_cons, kept_reread_iff, ih, forall_mem_cons]

/-- More cells come back than there were, one for each stray marker. -/
theorem length_applyNotebookEditableText {notebook notebook' : NotebookDocument V}
    {displayPath : JsString}
    (h : applyNotebookEditableText notebook (notebookToEditableText notebook) displayPath =
      .ok notebook') :
    notebook'.cells.length = notebook.cells.length + strayMarkers notebook.cells := by
  rw [applyNotebookEditableText, parseNotebookEditableText, lines_notebookToEditableText] at h
  cases hparse : parseCells displayPath none (cellLinesFrom 0 notebook.cells) with
  | error e =>
    rw [hparse] at h
    exact absurd h (by simp [Except.map])
  | ok parsedCells =>
    rw [hparse] at h
    obtain rfl := Except.ok.inj h
    rw [length_rebuildCells, parseCells_length hparse, countP_cellLinesFrom]
    simp

/-- **The text view is lossless exactly without stray markers.**  For every notebook:
an unedited text gives back the same cells, in order, with the same type, source,
metadata and outputs, if and only if no line of a source reads like a cell marker and
every code cell has its outputs. -/
theorem lossless_iff (notebook : NotebookDocument V) (displayPath : JsString) :
    Lossless notebook displayPath ↔
      (∀ cell ∈ notebook.cells, ∀ line ∈ lines (sourceToText cell.source),
        parseVirtualCellMarker line = none) ∧
      ∀ cell ∈ notebook.cells, cell.cellType = .code → cell.outputs ≠ none := by
  have hkept := forall₂_kept_reread notebook.cells
  constructor
  · rintro ⟨notebook', happly, hsame⟩
    have hlength := length_applyNotebookEditableText happly
    rw [← hsame.length_eq] at hlength
    have hclean : ∀ cell ∈ notebook.cells, CleanSource cell :=
      (cleanSource_iff _).mp (by omega)
    rw [applyNotebookEditableText_self notebook displayPath hclean] at happly
    obtain rfl := Except.ok.inj happly
    exact ⟨hclean, hkept.mp hsame⟩
  · rintro ⟨hclean, houtputs⟩
    exact ⟨_, applyNotebookEditableText_self notebook displayPath hclean, hkept.mpr houtputs⟩

/-- A notebook of one code cell, shown with its marker as a source line. -/
def strayNotebook : NotebookDocument Nat where
  cells :=
    [⟨.code, some (.text (js "x = 1\n# %% [code]\ny = 2")), some [], some none, some [], []⟩]
  metadata := []
  nbformat := 4
  nbformatMinor := 5
  other := []

/-- The cell comes back as two. -/
theorem stray_marker_splits_cell :
    applyNotebookEditableText strayNotebook (notebookToEditableText strayNotebook) (js "n.ipynb") =
      .ok { strayNotebook with cells :=
        [⟨.code, some (.pieces [js "x = 1"]), some [], some none, some [], []⟩,
          ⟨.code, some (.pieces [js "y = 2"]), some [], some none, some [], []⟩] } ∧
      ¬ Lossless strayNotebook (js "n.ipynb") := by
  have happly : applyNotebookEditableText strayNotebook (notebookToEditableText strayNotebook)
      (js "n.ipynb") = .ok { strayNotebook with cells :=
        [⟨.code, some (.pieces [js "x = 1"]), some [], some none, some [], []⟩,
          ⟨.code, some (.pieces [js "y = 2"]), some [], some none, some [], []⟩] } := by
    decide
  refine ⟨happly, ?_⟩
  rintro ⟨notebook', happly', hsame⟩
  rw [happly] at happly'
  obtain rfl := Except.ok.inj happly'
  exact absurd hsame.length_eq (by decide)

end GajaeCode
