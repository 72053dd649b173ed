import GajaeCode.HashlineInput

/-! # Inputs that are cut

What `splitHashlineInputs` makes of the lines of an input up to a place: the sections that are
closed there and the one that is open (`scanSections`).  A cut input and the whole one, or two
continuations of a cut input, are compared from there.
-/
namespace GajaeCode
open JsString List

section Lines
variable {line : JsString}

theorem splitLines_append_LF (x y : JsString) :
    splitLines (x ++ LF :: y) = (lines x).map dropCR ++ splitLines y := by
  have hne := lines_ne_nil y
  rw [splitLines, lines_append_LF, dropLast_append_of_ne_nil hne,
    getLast?_append_of_ne_nil _ hne, map_append, append_assoc, splitLines]

theorem isWhitespace_CR : isWhitespace CR = true := rfl

theorem trimEnd_dropCR (line : JsString) : trimEnd (dropCR line) = trimEnd line := by
  rw [dropCR]
  split_ifs with hCR
  · obtain ⟨front, rfl⟩ := getLast?_eq_some_iff.mp hCR
    rw [dropLast_concat, trimEnd, trimEnd, rdropWhile_concat_pos _ _ _ isWhitespace_CR]
  · rfl

theorem trimEnd_trimEnd (line : JsString) : trimEnd (trimEnd line) = trimEnd line :=
  rdropWhile_idempotent _ _

theorem trimEnd_append {x w : JsString} (hw : ∀ u ∈ w, isWhitespace u = true) :
    trimEnd (x ++ w) = trimEnd x := by
  induction w using reverseRecOn with
  | nil => rw [append_nil]
  | append_singleton w u ih =>
    rw [← append_assoc, trimEnd, rdropWhile_concat_pos _ _ _ (hw u (by simp))]
    exact ih fun v hv => hw v (mem_append_left _ hv)

theorem trimEnd_eq_nil : trimEnd line = [] ↔ ∀ u ∈ line, isWhitespace u = true :=
  rdropWhile_eq_nil_iff

/-- A line is blank when it is white space from either end. -/
theorem trim_eq_nil : trim line = [] ↔ ∀ u ∈ line, isWhitespace u = true := by
  rw [trim, trimEnd_eq_nil, trimStart]
  constructor
  · intro h u hu
    rw [← takeWhile_append_dropWhile (p := isWhitespace) (l := line), mem_append] at hu
    rcases hu with hu | hu
    · exact mem_takeWhile_imp hu
    · exact h u hu
  · exact fun h u hu => h u ((dropWhile_sublist _).mem hu)

theorem trim_eq_nil_iff_trimEnd : trim line = [] ↔ trimEnd line = [] := by
  rw [trim_eq_nil, trimEnd_eq_nil]

theorem LF_not_mem_dropCR (h : LF ∉ line) : LF ∉ dropCR line := by
  rw [dropCR]
  split_ifs
  · exact fun hmem => h (dropLast_subset _ hmem)
  · exact h

theorem LF_not_mem_of_mem_splitLines {text : JsString} (h : line ∈ splitLines text) :
    LF ∉ line := by
  rw [splitLines, mem_append, mem_map] at h
  rcases h with ⟨l, hl, rfl⟩ | h
  · exact LF_not_mem_dropCR (LF_not_mem_of_mem_lines (dropLast_subset _ hl))
  · exact LF_not_mem_of_mem_lines (mem_of_getLast? (Option.mem_toList.mp h))

end Lines

section Headers
variable {cwd : JsString}

theorem parseHashlineHeaderLine_congr {a b : JsString} (h : trimEnd a = trimEnd b) :
    parseHashlineHeaderLine a cwd = parseHashlineHeaderLine b cwd := by
  rw [parseHashlineHeaderLine, parseHashlineHeaderLine, h]

/-- A header, well formed or not, begins with the mark. -/
theorem parseHashlineHeaderLine_eq_none {line : JsString} :
    parseHashlineHeaderLine line cwd = .ok none ↔ (trimEnd line).head? ≠ some hlFilePrefix := by
  rw [parseHashlineHeaderLine]
  dsimp only
  split_ifs with hmark hblank hpath
  · simp [hmark]
  · simpa using hmark
  · simpa using hmark
  · simpa using hmark

theorem path_ne_nil_of_header {line : JsString} {header : HashlineInputSection}
    (h : parseHashlineHeaderLine line cwd = .ok (some header)) : header.path ≠ [] := by
  rw [parseHashlineHeaderLine] at h
  dsimp only at h
  split_ifs at h with hmark hblank hpath
  · cases h
  · obtain rfl := some.inj (Except.ok.inj h)
    simpa using hpath

theorem hasExplicitHeader_eq_false {ls : List JsString} : hasExplicitHeader cwd ls = .ok false ↔
      ∀ line ∈ ls, (trimEnd line).head? ≠ some hlFilePrefix := by
  induction ls with
  | nil => exact ⟨fun _ _ h => absurd h not_mem_nil, fun _ => rfl⟩
  | cons line ls ih =>
    rw [forall_mem_cons, ← ih, ← @parseHashlineHeaderLine_eq_none cwd]
    rw [hasExplicitHeader]
    cases hparse : parseHashlineHeaderLine line cwd with
    | error e => exact ⟨fun h => (by cases h), fun h => (by cases h.1)⟩
    | ok header =>
      cases header with
      | none => exact ⟨fun h => ⟨rfl, h⟩, fun h => h.2⟩
      | some header => exact ⟨fun h => (by cases h), fun h => (by cases h.1)⟩

end Headers

/-! ## The loop up to a place -/

section Scan
variable (cwd : JsString)
variable {current : List JsString}

/-- Whether a line ends the loop over the lines. -/
def endsSections (line : JsString) : Bool :=
  trimEnd line = endPatchMarker || trimEnd line = abortMarker

/-- The loop of `splitHashlineInputs` over the lines up to a place: the sections closed so far,
and the path and the lines of the open one; none if the loop has been left. -/
def scanSections : List JsString → (currentPath : JsString) → (currentLines : List JsString) →
    Except HashlineError (List HashlineInputSection × Option (JsString × List JsString))
  | [], currentPath, currentLines => .ok ([], some (currentPath, currentLines))
  | line :: rest, currentPath, currentLines =>
    if endsSections line then .ok (flushSection currentPath currentLines, none)
    else if isPatchEnvelopeMarker line then scanSections rest currentPath currentLines
    else
      match parseHashlineHeaderLine line cwd with
      | .error e => .error e
      | .ok none => scanSections rest currentPath (currentLines ++ [line])
      | .ok (some header) =>
        match scanSections rest header.path [] with
        | .error e => .error e
        | .ok (sections, left) => .ok (flushSection currentPath currentLines ++ sections, left)

variable {cwd}

theorem splitSections_append (ls rest : List JsString) (path : JsString) (current : List JsString) :
    splitSections cwd (ls ++ rest) path current =
      match scanSections cwd ls path current with
      | .error e => .error e
      | .ok (sections, none) => .ok sections
      | .ok (sections, some (path', current')) =>
        (splitSections cwd rest path' current').map (sections ++ ·) := by
  induction ls generalizing path current with
  | nil =>
    rw [nil_append, scanSections]
    dsimp only
    cases splitSections cwd rest path current <;> rfl
  | cons line ls ih =>
    rw [cons_append, splitSections, scanSections, endsSections]
    by_cases hends : (decide (trimEnd line = endPatchMarker) ||
        decide (trimEnd line = abortMarker)) = true
    · rw [if_pos hends, if_pos hends]
    rw [if_neg hends, if_neg hends]
    by_cases hbegins : isPatchEnvelopeMarker line = true
    · rw [if_pos hbegins, if_pos hbegins, ih]
    rw [if_neg hbegins, if_neg hbegins]
    cases parseHashlineHeaderLine line cwd with
    | error e => rfl
    | ok header =>
      cases header with
      | none => exact ih path (current ++ [line])
      | some header =>
        change (do
          let sections ← splitSections cwd (ls ++ rest) header.path []
          pure (flushSection path current ++ sections)) = _
        rw [ih]
        dsimp only
        rcases scanSections cwd ls header.path [] with e | ⟨sections, _ | ⟨path', current'⟩⟩
        · rfl
        · rfl
        · dsimp only
          cases splitSections cwd rest path' current' with
          | error e => rfl
          | ok more => exact congrArg Except.ok (append_assoc _ _ _).symm

/-- What is left by the loop: nothing if a line ended it, else a path, empty only if the path
was and no line is a header, and lines of the input. -/
structure Leaves (ls : List JsString) (path : JsString) (current : List JsString)
    (left : Option (JsString × List JsString)) : Prop where
  ended : left = none ↔ ∃ line ∈ ls, endsSections line = true
  path_ne_nil : ∀ path' current', left = some (path', current') → path ≠ [] → path' ≠ []
  mem_lines : ∀ path' current', left = some (path', current') →
    ∀ line ∈ current', line ∈ current ∨ line ∈ ls

theorem leaves_scanSections {ls : List JsString} {path : JsString}
    {sections : List HashlineInputSection} {left : Option (JsString × List JsString)}
    (h : scanSections cwd ls path current = .ok (sections, left)) :
    Leaves ls path current left := by
  induction ls generalizing path current sections with
  | nil =>
    obtain ⟨-, rfl⟩ := Prod.mk.inj (Except.ok.inj h)
    refine ⟨by simp, ?_, ?_⟩
    · rintro path' current' ⟨⟩ hne
      exact hne
    · rintro path' current' ⟨⟩ line hline
      exact Or.inl hline
  | cons line ls ih =>
    rw [scanSections] at h
    by_cases hends : endsSections line = true
    · rw [if_pos hends] at h
      obtain ⟨-, rfl⟩ := Prod.mk.inj (Except.ok.inj h)
      exact ⟨⟨fun _ => ⟨line, mem_cons_self, hends⟩, fun _ => rfl⟩, by simp, by simp⟩
    rw [if_neg hends] at h
    -- the other cases go on with the lines that follow
    have hrest : ∀ {path₁ current₁}, Leaves ls path₁ current₁ left → (path ≠ [] → path₁ ≠ []) →
        (∀ l ∈ current₁, l ∈ current ∨ l = line) → Leaves (line :: ls) path current left := by
      intro path₁ current₁ hleaves hpath hcurrent
      refine ⟨?_, fun path' current' hleft hne => hleaves.path_ne_nil _ _ hleft (hpath hne), ?_⟩
      · rw [hleaves.ended]
        simp [hends]
      · intro path' current' hleft l hl
        rcases hleaves.mem_lines _ _ hleft l hl with hl | hl
        · rcases hcurrent l hl with hl | rfl
          · exact Or.inl hl
          · exact Or.inr mem_cons_self
        · exact Or.inr (mem_cons_of_mem _ hl)
    by_cases hbegins : isPatchEnvelopeMarker line = true
    · rw [if_pos hbegins] at h
      exact hrest (ih h) id fun l hl => Or.inl hl
    rw [if_neg hbegins] at h
    cases hparse : parseHashlineHeaderLine line cwd with
    | error e =>
      rw [hparse] at h
      cases h
    | ok header =>
      rw [hparse] at h
      cases header with
      | none =>
        refine hrest (ih h) id fun l hl => ?_
        rcases mem_append.mp hl with hl | hl
        · exact Or.inl hl
        · exact Or.inr (mem_singleton.mp hl)
      | some header =>
        dsimp only at h
        cases hscan : scanSections cwd ls header.path [] with
        | error e =>
          rw [hscan] at h
          cases h
        | ok out =>
          rw [hscan] at h
          obtain ⟨-, rfl⟩ := Prod.mk.inj (Except.ok.inj h)
          exact hrest (ih hscan) (fun _ => path_ne_nil_of_header hparse) (by simp)

theorem splitSections_cons_line {line : JsString} (hends : endsSections line = false)
    (hbegins : isPatchEnvelopeMarker line = false)
    (hheader : parseHashlineHeaderLine line cwd = .ok none) (rest : List JsString)
    (path : JsString) (current : List JsString) : splitSections cwd (line :: rest) path current =
      splitSections cwd rest path (current ++ [line]) := by
  rw [endsSections] at hends
  rw [splitSections, hends, hbegins, hheader]
  rfl

theorem endsSections_eq_false_of_blank {line : JsString} (h : trim line = []) :
    endsSections line = false ∧ isPatchEnvelopeMarker line = false ∧
      parseHashlineHeaderLine line cwd = .ok none := by
  have htrim : trimEnd line = [] := trim_eq_nil_iff_trimEnd.mp h
  refine ⟨?_, ?_, ?_⟩
  · rw [endsSections, htrim]
    rfl
  · rw [isPatchEnvelopeMarker, htrim]
    rfl
  · rw [parseHashlineHeaderLine_eq_none, htrim]
    simp

theorem splitSections_blank {blanks : List JsString} (h : ∀ line ∈ blanks, trim line = [])
    (path : JsString) (current : List JsString) :
    splitSections cwd blanks path current = .ok (flushSection path (current ++ blanks)) := by
  induction blanks generalizing current with
  | nil => rw [append_nil, splitSections]
  | cons line blanks ih =>
    obtain ⟨hends, hbegins, hheader⟩ := @endsSections_eq_false_of_blank cwd line (h line (by simp))
    rw [splitSections_cons_line hends hbegins hheader,
      ih (fun l hl => h l (mem_cons_of_mem _ hl)), append_assoc, singleton_append]

theorem flushSection_of_filled {path line : JsString} (hpath : path ≠ []) (hline : line ∈ current)
    (hfilled : trim line ≠ []) : flushSection path current = [⟨path, unlines current⟩] := by
  have hany : (current.any fun line => !(trim line).isEmpty) = true :=
    any_eq_true.mpr ⟨line, hline, by simpa using hfilled⟩
  rw [flushSection, if_neg (by simpa using hpath), if_pos hany]

theorem flushSection_of_blank {path : JsString} (hblank : ∀ line ∈ current, trim line = []) :
    flushSection path current = [] := by
  have hany : ¬ (current.any fun line => !(trim line).isEmpty) = true := by
    rw [any_eq_true]
    rintro ⟨line, hline, hfilled⟩
    simp [hblank line hline] at hfilled
  rw [flushSection, if_neg hany, ite_self]

end Scan
end GajaeCode
