import GajaeCode.PatchHunks

/-! # Adjusting indentation

`adjustLinesIndentation` of `packages/coding-agent/src/edit/modes/patch.ts` and
`adjustIndentation` of `packages/coding-agent/src/edit/normalize.ts`: lines that replace
text which was matched up to its indentation are indented like that text.  Whatever they
do, they only change the white space at the ends of a line.
-/
namespace GajaeCode.PatchEdit
open JsString FuzzyText List
variable {indentChar : CodeUnit} {line : JsString}
variable {u : CodeUnit} {delta : Int}

/-- `isBlankLine`, and the negation of `isNonEmptyLine`. -/
def isBlankLine (line : JsString) : Bool := (trim line).length == 0

def getLeadingWhitespace (line : JsString) : JsString := line.takeWhile isBlank

def countLeadingWhitespace (line : JsString) : Nat := (getLeadingWhitespace line).length

/-- `getIndentChar` and, on the lines of its text, `detectIndentChar`. -/
def getIndentChar (lines : List JsString) : CodeUnit :=
  (lines.findSome? fun line => (getLeadingWhitespace line).head?).getD SPACE

/-- The pairs of lines of the two texts at one position, neither of them blank. -/
def filledPairs (oldLines actualLines : List JsString) : List (JsString × JsString) :=
  (oldLines.zip actualLines).filter fun p => !isBlankLine p.1 && !isBlankLine p.2

def collectIndentDeltas (oldLines actualLines : List JsString) : List Int :=
  (filledPairs oldLines actualLines).map fun p =>
    (countLeadingWhitespace p.2 : Int) - countLeadingWhitespace p.1

def uniformDelta (deltas : List Int) : Option Int :=
  match deltas with
  | [] => none
  | first :: _ => if deltas.all (· == first) then some first else none

/-- One line of `applyIndentDelta`, in either module. -/
def indentLine (delta : Int) (indentChar : CodeUnit) (line : JsString) : JsString :=
  if isBlankLine line then line
  else if 0 < delta then replicate delta.toNat indentChar ++ line
  else line.drop (min (-delta).toNat (countLeadingWhitespace line))

/-- `padding(n)`. -/
def padding (n : Nat) : JsString := replicate n SPACE

/-- One line of `convertLeadingTabsToSpaces`. -/
def convertLeadingTabs (spacesPerTab : Nat) (line : JsString) : JsString :=
  let trimmed := trimStart line
  if trimmed.length = 0 then line
  else
    let leading := getLeadingWhitespace line
    if !leading.contains TAB || leading.contains SPACE then line
    else padding (leading.length * spacesPerTab) ++ trimmed

def convertLeadingTabsToSpaces (text : JsString) (spacesPerTab : Nat) : JsString :=
  if spacesPerTab ≤ 0 then text
  else unlines ((lines text).map (convertLeadingTabs spacesPerTab))

/-! ## Patch mode -/

/-- The flags of one side: `TabOnly`, `SpaceOnly` and `Mixed`. -/
structure IndentKinds where
  tabOnly : Bool
  spaceOnly : Bool
  mixed : Bool

/-- The loop over one side's lines. -/
def indentKinds (lines : List JsString) : IndentKinds :=
  let leading := (lines.filter fun line => !isBlankLine line).map getLeadingWhitespace
  { tabOnly := leading.all fun ws => !ws.contains SPACE
    spaceOnly := leading.all fun ws => !ws.contains TAB
    mixed := leading.any fun ws => ws.contains SPACE && ws.contains TAB }

def canConvertTabsToSpaces (oldLines actualLines : List JsString) (spacesPerTab : Nat) : Bool :=
  (filledPairs oldLines actualLines).all fun p =>
    countLeadingWhitespace p.1 == 0 ||
      countLeadingWhitespace p.2 == countLeadingWhitespace p.1 * spacesPerTab

/-- The loop for `ratio`: none if it is inconsistent.  A ratio of zero is overwritten like
one that is not there yet. -/
def tabRatio : List (JsString × JsString) → (ratio : Nat) → Option Nat
  | [], ratio => some ratio
  | (patternLine, actualLine) :: rest, ratio =>
      let patternIndent := countLeadingWhitespace patternLine
      let actualIndent := countLeadingWhitespace actualLine
      if patternIndent = 0 then tabRatio rest ratio
      else if actualIndent % patternIndent ≠ 0 then none
      else
        let nextRatio := actualIndent / patternIndent
        if ratio = 0 then tabRatio rest nextRatio
        else if ratio ≠ nextRatio then none
        else tabRatio rest ratio

/-- The loop for `samples`, from tabs to spaces in the order of insertion; none if it is
inconsistent. -/
def tabSamples : List (JsString × JsString) → (samples : List (Nat × Nat)) →
    Option (List (Nat × Nat))
  | [], samples => some samples
  | (patternLine, actualLine) :: rest, samples =>
      let spaces := countLeadingWhitespace patternLine
      let tabs := countLeadingWhitespace actualLine
      if tabs = 0 then tabSamples rest samples
      else
        match samples.lookup tabs with
        | some existing => if existing ≠ spaces then none else tabSamples rest samples
        | none => tabSamples rest (samples ++ [(tabs, spaces)])

/-- The model `spaces = tabs * width + offset` of the samples, if they have one. -/
def tabModel : List (Nat × Nat) → Option (Nat × Int)
  | [] => none
  | [(tabs, spaces)] => if spaces % tabs = 0 then some (spaces / tabs, 0) else none
  | (t₁, s₁) :: (t₂, s₂) :: rest =>
      if t₁ = t₂ then none
      else
        let rise : Int := (s₂ : Int) - s₁
        let run : Int := (t₂ : Int) - t₁
        if rise % run = 0 ∧ 0 < rise / run then
          let w := rise / run
          let b := s₁ - t₁ * w
          if ((t₁, s₁) :: (t₂, s₂) :: rest).all fun p => p.1 * w + b == p.2 then some (w.toNat, b)
          else none
        else none

def convertLeadingSpaces (tabWidth : Nat) (offset : Int) (line : JsString) : JsString :=
  if isBlankLine line then line
  else
    let ws := countLeadingWhitespace line
    if ws = 0 then line
    else
      let adjusted : Int := ws - offset
      if 0 ≤ adjusted ∧ adjusted % tabWidth = 0 then
        replicate (adjusted / tabWidth).toNat TAB ++ line.drop ws
      else
        let tabCount := adjusted / tabWidth
        let remainder := adjusted - tabCount * tabWidth
        if 0 ≤ tabCount then
          replicate tabCount.toNat TAB ++ (replicate remainder.toNat SPACE ++ line.drop ws)
        else line

def patternMin (patternLines : List JsString) : Nat :=
  (((patternLines.filter fun line => !isBlankLine line).map countLeadingWhitespace).min?).getD 0

/-- `contentToActualLines.get(trimmed)`. -/
def matchingActualLines (actualLines : List JsString) (trimmed : JsString) : List JsString :=
  actualLines.filter fun line => trim line = trimmed

/-- A line that the file does not have: the delta is applied to the outermost level only. -/
def indentAdded (minimum : Nat) (delta : Option Int) (indentChar : CodeUnit)
    (newLine : JsString) : JsString :=
  match delta with
  | some delta =>
      if delta ≠ 0 ∧ countLeadingWhitespace newLine = minimum then
        indentLine delta indentChar newLine
      else newLine
  | none => newLine

/-- The last loop.  `used` is `usedActualLines`. -/
def placeLines (actualLines : List JsString) (minimum : Nat) (delta : Option Int)
    (indentChar : CodeUnit) : (newLines : List JsString) → (used : JsString → Nat) → List JsString
  | [], _ => []
  | newLine :: rest, used =>
      let trimmed := trim newLine
      let found := matchingActualLines actualLines trimmed
      let added := indentAdded minimum delta indentChar newLine
      let go (line : JsString) (used : JsString → Nat) :=
        line :: placeLines actualLines minimum delta indentChar rest used
      if isBlankLine newLine then go newLine used
      else
        match found with
        | [] => go added used
        | [only] => go only used
        | _ =>
            if found.contains newLine then go newLine used
            else
              match found[used trimmed]? with
              | some line => go line (Function.update used trimmed (used trimmed + 1))
              | none => go added used

/-- `adjustLinesIndentation` after its guards. -/
def reindentLines (patternLines actualLines newLines : List JsString) : List JsString :=
  let pairs := filledPairs patternLines actualLines
  let pattern := indentKinds patternLines
  let actual := indentKinds actualLines
  let tabsToSpaces : Option (List JsString) :=
    if !pattern.mixed && !actual.mixed && pattern.tabOnly && actual.spaceOnly then
      match tabRatio pairs 0 with
      | some ratio =>
          if ratio ≠ 0 ∧ canConvertTabsToSpaces patternLines actualLines ratio then
            some (lines (convertLeadingTabsToSpaces (unlines newLines) ratio))
          else none
      | none => none
    else none
  let spacesToTabs : Option (List JsString) :=
    if !pattern.mixed && !actual.mixed && pattern.spaceOnly && actual.tabOnly then
      match (tabSamples pairs []).bind tabModel with
      | some (tabWidth, offset) =>
          if 0 < tabWidth then some (newLines.map (convertLeadingSpaces tabWidth offset)) else none
      | none => none
    else none
  match tabsToSpaces, spacesToTabs with
  | some converted, _ => converted
  | none, some converted => converted
  | none, none =>
      placeLines actualLines (patternMin patternLines)
        (uniformDelta (collectIndentDeltas patternLines actualLines)) (getIndentChar actualLines)
        newLines (fun _ => 0)

structure IndentProfile where
  lines : List JsString
  indentCounts : List Nat
  char : Option CodeUnit
  spaceOnly : Bool
  tabOnly : Bool
  mixed : Bool
  unit : Nat
  nonEmptyCount : Nat

def buildIndentProfile (text : JsString) : IndentProfile :=
  let filled := (lines text).filter fun line => !isBlankLine line
  let indents := filled.map getLeadingWhitespace
  let indentCounts := indents.map length
  let char := indents.findSome? head?
  let spaceOnly := indents.all fun indent => !indent.contains TAB
  let tabOnly := indents.all fun indent => !indent.contains SPACE
  let mixed := indents.any fun indent =>
    (indent.contains SPACE && indent.contains TAB) ||
      (indent.head?.isSome && indent.head? != char)
  let unit :=
    if tabOnly && filled.length > 0 then 1
    else if spaceOnly && filled.length > 0 then indentCounts.foldl Nat.gcd 0
    else 0
  { lines := lines text, indentCounts, char, spaceOnly, tabOnly, mixed, unit,
    nonEmptyCount := filled.length }

def isIndentationOnlyRewrite (oldText newText : JsString) : Bool :=
  (lines oldText).map trim == (lines newText).map trim

def maybeConvertTabIndentation (oldProfile actualProfile newProfile : IndentProfile)
    (newText : JsString) : Option JsString :=
  if !actualProfile.spaceOnly || !oldProfile.tabOnly || !newProfile.tabOnly ||
      actualProfile.unit == 0 then none
  else if canConvertTabsToSpaces oldProfile.lines actualProfile.lines actualProfile.unit then
    some (convertLeadingTabsToSpaces newText actualProfile.unit)
  else none

/-- `applyIndentDelta` of `normalize.ts`. -/
def applyIndentDelta (text : JsString) (delta : Int) (indentChar : CodeUnit) : JsString :=
  unlines ((lines text).map (indentLine delta indentChar))

/-- Both characters are known, and they differ. -/
def differ (a b : Option CodeUnit) : Bool := a.isSome && b.isSome && a != b

def adjustIndentation (oldText actualText newText : JsString) : JsString :=
  if oldText = actualText then newText
  else if isIndentationOnlyRewrite oldText newText then newText
  else
    let oldProfile := buildIndentProfile oldText
    let actualProfile := buildIndentProfile actualText
    let newProfile := buildIndentProfile newText
    if oldProfile.nonEmptyCount = 0 ∨ actualProfile.nonEmptyCount = 0 ∨
        newProfile.nonEmptyCount = 0 then newText
    else if oldProfile.mixed || actualProfile.mixed || newProfile.mixed then newText
    else if differ oldProfile.char actualProfile.char then
      (maybeConvertTabIndentation oldProfile actualProfile newProfile newText).getD newText
    else
      match uniformDelta (collectIndentDeltas oldProfile.lines actualProfile.lines) with
      | none => newText
      | some delta =>
          if delta = 0 then newText
          else if differ newProfile.char actualProfile.char then newText
          else
            let indentChar :=
              (actualProfile.char.or oldProfile.char).getD (getIndentChar (lines actualText))
            applyIndentDelta newText delta indentChar

/-! ## Trimmed lines -/

theorem isBlank_imp_isWhitespace (h : isBlank u = true) : isWhitespace u = true := by
  simp only [isBlank, Bool.or_eq_true, beq_iff_eq] at h
  rcases h with rfl | rfl <;> rfl

theorem trim_append {blanks : JsString} (h : ∀ u ∈ blanks, isWhitespace u = true)
    (line : JsString) : trim (blanks ++ line) = trim line := by
  rw [trim, trim, trimStart, trimStart, dropWhile_append_of_pos h]

theorem getLeadingWhitespace_append_drop (line : JsString) :
    getLeadingWhitespace line ++ line.drop (countLeadingWhitespace line) = line := by
  have hdrop : line.drop (countLeadingWhitespace line) = line.dropWhile isBlank := by
    conv_lhs =>
      arg 2
      rw [← takeWhile_append_dropWhile (p := isBlank) (l := line)]
    rw [countLeadingWhitespace, getLeadingWhitespace, drop_left]
  rw [hdrop, getLeadingWhitespace, takeWhile_append_dropWhile]

theorem trim_drop {n : Nat} (h : n ≤ countLeadingWhitespace line) :
    trim (line.drop n) = trim line := by
  have hfront : line.take n ++ line.drop n = line := take_append_drop n line
  have hblank : ∀ u ∈ line.take n, isWhitespace u = true := by
    intro u hu
    have hmem : u ∈ getLeadingWhitespace line := by
      rw [← getLeadingWhitespace_append_drop line] at hu
      rw [take_append_of_le_length h] at hu
      exact mem_of_mem_take hu
    exact isBlank_imp_isWhitespace (mem_takeWhile_imp hmem)
  rw [← trim_append hblank, hfront]

theorem trim_indentLine (hchar : isWhitespace indentChar = true) (line : JsString) :
    trim (indentLine delta indentChar line) = trim line := by
  rw [indentLine]
  split_ifs
  · rfl
  · exact trim_append (fun u hu => eq_of_mem_replicate hu ▸ hchar) line
  · exact trim_drop (Nat.min_le_right ..)

theorem trim_convertLeadingTabs (spacesPerTab : Nat) (line : JsString) :
    trim (convertLeadingTabs spacesPerTab line) = trim line := by
  have hpad : ∀ n, trim (padding n ++ trimStart line) = trim line := by
    intro n
    have hblank : ∀ u ∈ padding n, isWhitespace u = true := by
      intro u hu
      rw [eq_of_mem_replicate hu]
      rfl
    rw [trim_append hblank, trim, trim, trimStart, trimStart, dropWhile_idempotent]
  rw [convertLeadingTabs]
  dsimp only
  split_ifs
  · rfl
  · rfl
  · exact hpad _

theorem trim_convertLeadingSpaces (tabWidth : Nat) (offset : Int) (line : JsString) :
    trim (convertLeadingSpaces tabWidth offset line) = trim line := by
  have htabs : ∀ n, ∀ u ∈ replicate n TAB, isWhitespace u = true :=
    fun n u hu => eq_of_mem_replicate hu ▸ rfl
  have hspaces : ∀ n, ∀ u ∈ replicate n SPACE, isWhitespace u = true :=
    fun n u hu => eq_of_mem_replicate hu ▸ rfl
  rw [convertLeadingSpaces]
  dsimp only
  split_ifs
  · rfl
  · rfl
  · rw [trim_append (htabs _), trim_drop le_rfl]
  · rw [trim_append (htabs _), trim_append (hspaces _), trim_drop le_rfl]
  · rfl

/-- The character of an indentation is a space or a tab. -/
theorem isBlank_of_findSome? {ls : List JsString}
    (h : ls.findSome? (fun line => (getLeadingWhitespace line).head?) = some u) :
    isBlank u = true := by
  obtain ⟨line, -, hhead⟩ := exists_of_findSome?_eq_some h
  exact mem_takeWhile_imp (mem_of_mem_head? hhead)

theorem isBlank_getIndentChar (ls : List JsString) : isBlank (getIndentChar ls) = true := by
  rw [getIndentChar]
  cases hfound : ls.findSome? fun line => (getLeadingWhitespace line).head? with
  | none => rfl
  | some u => exact isBlank_of_findSome? hfound

theorem isBlank_char {text : JsString} (h : (buildIndentProfile text).char = some u) :
    isBlank u = true := by
  have hchar : ((lines text).filter fun line => !isBlankLine line).findSome?
      (fun line => (getLeadingWhitespace line).head?) = some u := by
    rw [← h, buildIndentProfile, findSome?_map]
    rfl
  exact isBlank_of_findSome? hchar

theorem isBlank_indentChar (oldText actualText : JsString) :
    isBlank (((buildIndentProfile actualText).char.or (buildIndentProfile oldText).char).getD
      (getIndentChar (lines actualText))) = true := by
  cases hactual : (buildIndentProfile actualText).char with
  | some u => exact isBlank_char hactual
  | none =>
    rw [Option.none_or]
    cases hold : (buildIndentProfile oldText).char with
    | some u => exact isBlank_char hold
    | none => exact isBlank_getIndentChar _

theorem lines_mapLines {f : JsString → JsString} (hf : ∀ line, LF ∉ line → LF ∉ f line)
    (text : JsString) : lines (unlines ((lines text).map f)) = (lines text).map f := by
  apply lines_unlines
  · rw [Ne, map_eq_nil_iff]
    exact lines_ne_nil text
  · intro l hl
    obtain ⟨line, hline, rfl⟩ := mem_map.mp hl
    exact hf line (LF_not_mem_of_mem_lines hline)

theorem LF_not_mem_convertLeadingTabs {spacesPerTab : Nat} (h : LF ∉ line) :
    LF ∉ convertLeadingTabs spacesPerTab line := by
  rw [convertLeadingTabs]
  dsimp only
  split_ifs
  · exact h
  · exact h
  · rw [mem_append, not_or]
    refine ⟨fun hmem => absurd (eq_of_mem_replicate hmem) (by decide), fun hmem => h ?_⟩
    exact (dropWhile_sublist _).subset hmem

theorem LF_not_mem_indentLine (hchar : indentChar ≠ LF) (h : LF ∉ line) :
    LF ∉ indentLine delta indentChar line := by
  rw [indentLine]
  split_ifs
  · exact h
  · rw [mem_append, not_or]
    exact ⟨fun hmem => hchar (eq_of_mem_replicate hmem).symm, h⟩
  · exact fun hmem => h (mem_of_mem_drop hmem)

theorem trimmed_convertLeadingTabsToSpaces (text : JsString) (spacesPerTab : Nat) :
    (lines (convertLeadingTabsToSpaces text spacesPerTab)).map trim = (lines text).map trim := by
  rw [convertLeadingTabsToSpaces]
  split_ifs
  · rfl
  · rw [lines_mapLines fun _ => LF_not_mem_convertLeadingTabs, map_map]
    exact map_congr_left fun line _ => trim_convertLeadingTabs spacesPerTab line

theorem trimmed_applyIndentDelta (text : JsString) (delta : Int)
    (hblank : isBlank indentChar = true) :
    (lines (applyIndentDelta text delta indentChar)).map trim = (lines text).map trim := by
  have hne : indentChar ≠ LF := by
    rintro rfl
    exact absurd hblank (by decide)
  rw [applyIndentDelta, lines_mapLines fun _ => LF_not_mem_indentLine hne, map_map]
  exact map_congr_left fun line _ => trim_indentLine (isBlank_imp_isWhitespace hblank) line

/-! ## Lines of the file -/

theorem trim_of_mem_matchingActualLines {actualLines : List JsString} {trimmed : JsString}
    (h : line ∈ matchingActualLines actualLines trimmed) : trim line = trimmed :=
  of_decide_eq_true (mem_filter.mp h).2

theorem trim_indentAdded {minimum : Nat} {delta : Option Int}
    (hchar : isWhitespace indentChar = true) (newLine : JsString) :
    trim (indentAdded minimum delta indentChar newLine) = trim newLine := by
  cases delta with
  | none => rfl
  | some delta =>
    rw [indentAdded]
    split_ifs
    · exact trim_indentLine hchar newLine
    · rfl

/-- A line of the new text is kept, indented, or stands for a line of the file with the same
content. -/
theorem trimmed_placeLines (actualLines : List JsString) (minimum : Nat) (delta : Option Int)
    (hchar : isWhitespace indentChar = true) (newLines : List JsString) (used : JsString → Nat) :
    (placeLines actualLines minimum delta indentChar newLines used).map trim =
      newLines.map trim := by
  induction newLines generalizing used with
  | nil => rfl
  | cons newLine rest ih =>
    have hadded : trim (indentAdded minimum delta indentChar newLine) = trim newLine :=
      trim_indentAdded hchar newLine
    have hgo : ∀ (line : JsString) (used : JsString → Nat), trim line = trim newLine →
        (line :: placeLines actualLines minimum delta indentChar rest used).map trim =
          (newLine :: rest).map trim := by
      intro line used hline
      rw [map_cons, map_cons, hline, ih]
    simp only [placeLines]
    by_cases hblank : isBlankLine newLine = true
    · rw [if_pos hblank]
      exact hgo _ _ rfl
    rw [if_neg hblank]
    have hfound : ∀ line ∈ matchingActualLines actualLines (trim newLine),
        trim line = trim newLine := fun _ => trim_of_mem_matchingActualLines
    generalize matchingActualLines actualLines (trim newLine) = found at hfound
    match found, hfound with
    | [], _ => exact hgo _ _ hadded
    | [only], hfound => exact hgo _ _ (hfound only (mem_singleton_self only))
    | first :: second :: others, hfound =>
      dsimp only
      by_cases hcontains : (first :: second :: others).contains newLine = true
      · rw [if_pos hcontains]
        exact hgo _ _ rfl
      rw [if_neg hcontains]
      cases hget : (first :: second :: others)[used (trim newLine)]? with
      | none => exact hgo _ _ hadded
      | some line => exact hgo _ _ (hfound line (mem_of_getElem? hget))

theorem trimmed_reindentLines (patternLines actualLines : List JsString)
    {newLines : List JsString} (hne : newLines ≠ []) (hlines : ∀ line ∈ newLines, LF ∉ line) :
    (reindentLines patternLines actualLines newLines).map trim = newLines.map trim := by
  have htabs : ∀ ratio, (lines (convertLeadingTabsToSpaces (unlines newLines) ratio)).map trim =
        newLines.map trim := by
    intro ratio
    rw [trimmed_convertLeadingTabsToSpaces, lines_unlines hne hlines]
  have hspaces : ∀ tabWidth offset,
      (newLines.map (convertLeadingSpaces tabWidth offset)).map trim = newLines.map trim := by
    intro tabWidth offset
    rw [map_map]
    exact map_congr_left fun line _ => trim_convertLeadingSpaces tabWidth offset line
  have hplaced : ∀ minimum delta,
      (placeLines actualLines minimum delta (getIndentChar actualLines) newLines
        (fun _ => 0)).map trim = newLines.map trim := fun minimum delta =>
    trimmed_placeLines actualLines minimum delta
      (isBlank_imp_isWhitespace (isBlank_getIndentChar actualLines)) newLines _
  unfold reindentLines
  dsimp only
  split
  next converted _ htabsToSpaces =>
    split at htabsToSpaces
    · split at htabsToSpaces
      · split_ifs at htabsToSpaces
        rw [← some.inj htabsToSpaces]
        exact htabs _
      · cases htabsToSpaces
    · cases htabsToSpaces
  next converted _ hspacesToTabs =>
    split at hspacesToTabs
    · split at hspacesToTabs
      · split_ifs at hspacesToTabs
        rw [← some.inj hspacesToTabs]
        exact hspaces _ _
      · cases hspacesToTabs
    · cases hspacesToTabs
  next => exact hplaced _ _

/-- Patch mode: whatever was matched, the new lines keep their number and their content. -/
theorem trimmed_adjustLinesIndentation (m : Matchers) (patternLines actualLines : List JsString)
    {newLines : List JsString} (hlines : ∀ line ∈ newLines, LF ∉ line) :
    (adjustLinesIndentation { m with reindent := reindentLines } patternLines actualLines
      newLines).map trim = newLines.map trim := by
  rw [adjustLinesIndentation]
  split_ifs with hempty hequal htrimmed
  · rfl
  · rfl
  · rfl
  · have hne : newLines ≠ [] := by
      rintro rfl
      exact hempty (.inr (.inr rfl))
    exact trimmed_reindentLines patternLines actualLines hne hlines

theorem trimmed_adjustIndentation (oldText actualText newText : JsString) :
    (lines (adjustIndentation oldText actualText newText)).map trim = (lines newText).map trim := by
  have hconverted : ∀ oldProfile actualProfile newProfile,
      (lines ((maybeConvertTabIndentation oldProfile actualProfile newProfile newText).getD
        newText)).map trim = (lines newText).map trim := by
    intro oldProfile actualProfile newProfile
    rw [maybeConvertTabIndentation]
    split_ifs
    · rfl
    · exact trimmed_convertLeadingTabsToSpaces _ _
    · rfl
  unfold adjustIndentation
  dsimp only
  cases uniformDelta (collectIndentDeltas (buildIndentProfile oldText).lines
    (buildIndentProfile actualText).lines) with
  | none =>
    dsimp only
    split_ifs
    · rfl
    · rfl
    · rfl
    · rfl
    · exact hconverted _ _ _
    · rfl
  | some delta =>
    dsimp only
    split_ifs
    · rfl
    · rfl
    · rfl
    · rfl
    · exact hconverted _ _ _
    · rfl
    · rfl
    · exact trimmed_applyIndentDelta newText delta (isBlank_indentChar oldText actualText)

/-- Adjusting the indentation never changes content, in either mode: there are as many lines,
and each is the new line up to the white space at its ends. -/
theorem adjusted_lines_keep_content (m : Matchers)
    (patternLines actualLines newLines : List JsString) (oldText actualText newText : JsString)
    (hlines : ∀ line ∈ newLines, LF ∉ line) :
    (adjustLinesIndentation { m with reindent := reindentLines } patternLines actualLines
        newLines).map trim = newLines.map trim ∧
      (lines (adjustIndentation oldText actualText newText)).map trim = (lines newText).map trim :=
  ⟨trimmed_adjustLinesIndentation m patternLines actualLines hlines,
    trimmed_adjustIndentation oldText actualText newText⟩

/-- A block that was written flush left is moved to the four spaces of the file. -/
theorem adjusted_lines_keep_content_moved :
    (adjustLinesIndentation { asciiMatchers with reindent := reindentLines } [js "a"]
        [js "    a"] [js "b", js "c"]).map trim = [js "b", js "c"].map trim ∧
      (lines (adjustIndentation (js "a") (js "    a") (js "b"))).map trim =
        (lines (js "b")).map trim :=
  adjusted_lines_keep_content asciiMatchers [js "a"] [js "    a"] [js "b", js "c"] (js "a")
    (js "    a") (js "b") (by
      intro line hline
      simp only [mem_cons, not_mem_nil, or_false] at hline
      rcases hline with rfl | rfl <;> decide)

example : adjustLinesIndentation { asciiMatchers with reindent := reindentLines } [js "a"]
    [js "    a"] [js "b", js "  c"] = [js "    b", js "  c"] := by
  decide

example : adjustIndentation (js "a") (js "    a") (js "b\n  c") = js "    b\n      c" := by
  decide

end GajaeCode.PatchEdit
