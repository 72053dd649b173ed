import GajaeCode.HashlineBlocks
import GajaeCode.HashlineExecute

/-! # The sections of one file

What `splitHashlineInputs` hands on as sections, and what `mergeSamePathSections` makes of
the sections of one path.  The markers are gone from the lines of a section, so the parser
never sees one.
-/
namespace GajaeCode
open JsString List
variable {sections : List HashlineInputSection}
variable {bodies : List (List JsString)} {s : HashlineInputSection}

/-- A line that can stand in a section. -/
structure IsSectionLine (line : JsString) : Prop where
  LF_not_mem : LF ∉ line
  not_header : line.head? ≠ some hlFilePrefix
  not_marker : isEnvelopeOrAbortMarkerLine line = false

/-- The lines of a section: one of them is filled. -/
structure IsSectionBody (body : List JsString) : Prop where
  lines : ∀ line ∈ body, IsSectionLine line
  filled : ∃ line ∈ body, trim line ≠ []

theorem head?_trimEnd {u : CodeUnit} (hu : isWhitespace u = false) (rest : JsString) :
    (trimEnd (u :: rest)).head? = some u := by
  induction rest using reverseRecOn with
  | nil => rw [trimEnd, rdropWhile_singleton, hu]; rfl
  | append_singleton rest v ih =>
    rw [← cons_append]
    by_cases hv : isWhitespace v = true
    · rw [trimEnd_concat_of_pos hv]
      exact ih
    · rw [trimEnd_concat_of_neg hv]
      rfl

section Split
variable {cwd : JsString}
variable {current : List JsString} {path : JsString}

theorem isSectionLine_of_split {line : JsString} (hLF : LF ∉ line)
    (hends : (decide (trimEnd line = endPatchMarker) ||
      decide (trimEnd line = abortMarker)) = false) (hbegins : isPatchEnvelopeMarker line = false)
    (hheader : parseHashlineHeaderLine line cwd = .ok none) : IsSectionLine line := by
  refine ⟨hLF, ?_, ?_⟩
  · rw [parseHashlineHeaderLine_eq_none] at hheader
    intro hmark
    obtain ⟨rest, rfl⟩ := head?_eq_some_iff.mp hmark
    exact hheader (head?_trimEnd rfl rest)
  · rw [isPatchEnvelopeMarker, Bool.or_eq_false_iff] at hbegins
    rw [Bool.or_eq_false_iff] at hends
    rw [isEnvelopeOrAbortMarkerLine, hbegins.1, hbegins.2, hends.2]
    rfl

theorem mem_flushSection (hcurrent : ∀ line ∈ current, IsSectionLine line)
    {s : HashlineInputSection} (hs : s ∈ flushSection path current) :
    ∃ body, IsSectionBody body ∧ s.diff = unlines body := by
  rw [flushSection] at hs
  split_ifs at hs with hpath hfilled
  · exact absurd hs not_mem_nil
  · obtain rfl := mem_singleton.mp hs
    obtain ⟨line, hline, hne⟩ := any_eq_true.mp hfilled
    exact ⟨current, ⟨hcurrent, line, hline, by simpa using hne⟩, rfl⟩
  · exact absurd hs not_mem_nil

theorem splitSections_bodies {ls : List JsString} {sections : List HashlineInputSection}
    (hls : ∀ line ∈ ls, LF ∉ line) (hcurrent : ∀ line ∈ current, IsSectionLine line)
    (h : splitSections cwd ls path current = .ok sections) :
    ∀ s ∈ sections, ∃ body, IsSectionBody body ∧ s.diff = unlines body := by
  induction ls generalizing path current sections with
  | nil =>
    obtain rfl := Except.ok.inj h
    exact fun s hs => mem_flushSection hcurrent hs
  | cons line ls ih =>
    rw [forall_mem_cons] at hls
    rw [splitSections] at h
    by_cases hends : (decide (trimEnd line = endPatchMarker) ||
        decide (trimEnd line = abortMarker)) = true
    · rw [if_pos hends] at h
      obtain rfl := Except.ok.inj h
      exact fun s hs => mem_flushSection hcurrent hs
    rw [if_neg hends] at h
    by_cases hbegins : isPatchEnvelopeMarker line = true
    · rw [if_pos hbegins] at h
      exact ih hls.2 hcurrent h
    rw [if_neg hbegins] at h
    obtain ⟨header, hheader, h⟩ := bind_eq_ok h
    cases header with
    | none =>
      refine ih hls.2 (fun l hl => ?_) h
      rcases mem_append.mp hl with hl | hl
      · exact hcurrent l hl
      · rw [mem_singleton.mp hl]
        exact isSectionLine_of_split hls.1 (Bool.eq_false_iff.mpr hends)
          (Bool.eq_false_iff.mpr hbegins) hheader
    | some header =>
      obtain ⟨more, hmore, h⟩ := bind_eq_ok h
      obtain rfl := Except.ok.inj h
      intro s hs
      rcases mem_append.mp hs with hs | hs
      · exact mem_flushSection hcurrent hs
      · exact ih hls.2 (fun l hl => absurd hl not_mem_nil) hmore s hs

theorem splitHashlineInputs_bodies {input : JsString} {options : SplitHashlineOptions}
    {sections : List HashlineInputSection} (h : splitHashlineInputs input options = .ok sections) :
    ∀ s ∈ sections, ∃ body, IsSectionBody body ∧ s.diff = unlines body := by
  obtain ⟨normalized, -, h⟩ := bind_eq_ok h
  obtain ⟨header, -, h⟩ := bind_eq_ok h
  cases header with
  | none => exact absurd h (by simp)
  | some header =>
    exact splitSections_bodies (fun line hline => LF_not_mem_of_mem_splitLines hline)
      (fun line hline => absurd hline not_mem_nil) h

end Split

def diffsOf (sections : List HashlineInputSection) (path : JsString) : List JsString :=
  (sections.filter (fun s => s.path = path)).map (·.diff)

theorem addSection_keys (byPath : List (JsString × List JsString)) (s : HashlineInputSection)
    (path : JsString) :
    path ∈ (addSection byPath s).map Prod.fst ↔ path ∈ byPath.map Prod.fst ∨ path = s.path := by
  rw [addSection]
  split_ifs with hany
  · have hmem : s.path ∈ byPath.map Prod.fst := by
      obtain ⟨e, he, hpath⟩ := any_eq_true.mp hany
      exact mem_map.mpr ⟨e, he, of_decide_eq_true hpath⟩
    rw [map_map]
    have hfst : (Prod.fst ∘ fun e : JsString × List JsString =>
        if e.1 = s.path then (e.1, e.2 ++ [s.diff]) else e) = Prod.fst := by
      funext e
      rw [Function.comp_apply]
      split_ifs <;> rfl
    rw [hfst]
    exact ⟨.inl, fun h => h.elim id fun h => h ▸ hmem⟩
  · rw [map_append, mem_append, map_singleton, mem_singleton]

/-- **One entry for each path**, with the diffs of its sections. -/
theorem foldl_addSection (sections : List HashlineInputSection) :
    (∀ path, path ∈ (sections.foldl addSection []).map Prod.fst ↔ path ∈ sections.map (·.path)) ∧
    ∀ e ∈ sections.foldl addSection [], e.2 = diffsOf sections e.1 := by
  induction sections using reverseRecOn with
  | nil => exact ⟨fun path => Iff.rfl, fun e he => absurd he not_mem_nil⟩
  | append_singleton sections s ih =>
    obtain ⟨hkeys, hdiffs⟩ := ih
    rw [foldl_append, foldl_cons, foldl_nil]
    refine ⟨fun path => ?_, fun e he => ?_⟩
    · rw [addSection_keys, hkeys, map_append, mem_append, map_singleton, mem_singleton]
    · have hconcat : ∀ path, diffsOf (sections ++ [s]) path =
          diffsOf sections path ++ if s.path = path then [s.diff] else [] := by
        intro path
        rw [diffsOf, filter_append, map_append, ← diffsOf]
        by_cases hpath : s.path = path <;> simp [hpath]
      rw [hconcat]
      rw [addSection] at he
      split_ifs at he with hany
      · obtain ⟨e, he', rfl⟩ := mem_map.mp he
        by_cases hpath : e.1 = s.path
        · rw [if_pos hpath, if_pos hpath.symm, hdiffs e he']
        · rw [if_neg hpath, if_neg (Ne.symm hpath), append_nil, hdiffs e he']
      · rcases mem_append.mp he with he | he
        · have hpath : s.path ≠ e.1 := fun hpath =>
            hany (any_eq_true.mpr ⟨e, he, decide_eq_true hpath.symm⟩)
          rw [if_neg hpath, append_nil, hdiffs e he]
        · obtain rfl := mem_singleton.mp he
          have hnone : diffsOf sections s.path = [] := by
            rw [diffsOf, map_eq_nil_iff, filter_eq_nil_iff]
            intro s' hs' hpath
            obtain ⟨e, he, hfst⟩ := mem_map.mp
              ((hkeys s.path).mpr (mem_map.mpr ⟨s', hs', of_decide_eq_true hpath⟩))
            exact hany (any_eq_true.mpr ⟨e, he, decide_eq_true hfst⟩)
          rw [if_pos rfl, hnone, nil_append]

theorem of_mem_mergeSamePathSections (h : s ∈ mergeSamePathSections sections) :
    s.path ∈ sections.map (·.path) ∧ s.diff = unlines (diffsOf sections s.path) := by
  obtain ⟨hkeys, hdiffs⟩ := foldl_addSection sections
  obtain ⟨e, he, rfl⟩ := mem_map.mp h
  dsimp only
  exact ⟨(hkeys _).mp (mem_map_of_mem he), by rw [hdiffs e he]⟩

/-- An empty last line is what a final line feed leaves. -/
def popBlank (ls : List JsString) : List JsString :=
  if ls.getLast? = some [] then ls.dropLast else ls

/-- The lines of a section as the parser sees them. -/
def parsedLines (body : List JsString) : List JsString :=
  popBlank (body.dropLast.map dropCR ++ body.getLast?.toList)

theorem splitLines_unlines {body : List JsString} (hne : body ≠ [])
    (hLF : ∀ line ∈ body, LF ∉ line) :
    splitLines (unlines body) = body.dropLast.map dropCR ++ body.getLast?.toList := by
  rw [splitLines, lines_unlines hne hLF]

theorem getLast?_unlines_append (body : List JsString) (hne : body ≠ []) :
    (unlines (body ++ [[]])).getLast? = some LF := by
  induction body with
  | nil => exact absurd rfl hne
  | cons line body ih =>
    rw [cons_append, unlines_cons_of_ne_nil _ (by simp)]
    cases body with
    | nil => simp
    | cons line' body =>
      rw [getLast?_append, getLast?_cons, ih (cons_ne_nil _ _)]
      rfl

theorem IsSectionBody.ne_nil {body : List JsString} (h : IsSectionBody body) : body ≠ [] := by
  obtain ⟨line, hline, -⟩ := h.filled
  exact ne_nil_of_mem hline

theorem isEnvelopeOrAbortMarkerLine_dropCR (line : JsString) :
    isEnvelopeOrAbortMarkerLine (dropCR line) = isEnvelopeOrAbortMarkerLine line := by
  rw [isEnvelopeOrAbortMarkerLine, isEnvelopeOrAbortMarkerLine, trimEnd_dropCR]

section Parse
variable {xxHash32 : List UInt8 → UInt32} {body : List JsString}
variable {line : JsString}
variable {ls : List JsString}

theorem parseHashlineWithWarnings_unlines (hbody : IsSectionBody body) :
    parseHashlineWithWarnings xxHash32 (unlines body) =
      parseLines xxHash32 (parsedLines body) 1 0 0 := by
  rw [parseHashlineWithWarnings,
    splitLines_unlines hbody.ne_nil fun line hline => (hbody.lines line hline).LF_not_mem,
    parsedLines, popBlank]
  congr 1
  by_cases hlast : (body.dropLast.map dropCR ++ body.getLast?.toList).getLast? = some []
  · -- a filled line stands before an empty last one
    have hend : (unlines body).getLast? = some LF := by
      obtain ⟨line, hline⟩ := Option.ne_none_iff_exists'.mp
        (mt getLast?_eq_none_iff.mp hbody.ne_nil)
      rw [hline, Option.toList_some, getLast?_concat] at hlast
      obtain rfl := some.inj hlast
      obtain ⟨front, rfl⟩ := getLast?_eq_some_iff.mp hline
      apply getLast?_unlines_append
      rintro rfl
      obtain ⟨filled, hfilled, hne⟩ := hbody.filled
      rw [nil_append, mem_singleton] at hfilled
      exact hne (by rw [hfilled]; rfl)
    rw [if_pos hlast, if_pos (by rw [hend, hlast]; rfl)]
  · rw [if_neg hlast, if_neg]
    rw [Bool.and_eq_true, decide_eq_true_eq, decide_eq_true_eq]
    exact fun h => hlast h.2

theorem mem_of_mem_popBlank (h : line ∈ popBlank ls) : line ∈ ls := by
  rw [popBlank] at h
  split_ifs at h
  · exact mem_of_mem_dropLast h
  · exact h

theorem mem_parsedLines (h : line ∈ parsedLines body) : ∃ l ∈ body, line = l ∨ line = dropCR l := by
  rcases mem_append.mp (mem_of_mem_popBlank h) with h | h
  · obtain ⟨l, hl, rfl⟩ := mem_map.mp h
    exact ⟨l, mem_of_mem_dropLast hl, .inr rfl⟩
  · exact ⟨line, mem_of_getLast? (Option.mem_toList.mp h), .inl rfl⟩

theorem not_marker_of_mem_parsedLines (hbody : IsSectionBody body) (h : line ∈ parsedLines body) :
    isEnvelopeOrAbortMarkerLine line = false := by
  obtain ⟨l, hl, rfl | rfl⟩ := mem_parsedLines h
  · exact (hbody.lines _ hl).not_marker
  · rw [isEnvelopeOrAbortMarkerLine_dropCR]
    exact (hbody.lines l hl).not_marker

/-- Without a marker the parser has nothing to warn of. -/
theorem parseLines_warnings {lineNum skip editIndex : Nat} {parsed : ParsedHashline}
    (hmarkers : ∀ line ∈ ls, isEnvelopeOrAbortMarkerLine line = false)
    (h : parseLines xxHash32 ls lineNum skip editIndex = .ok parsed) : parsed.warnings = [] := by
  induction ls generalizing lineNum skip editIndex parsed with
  | nil =>
    obtain rfl := Except.ok.inj h
    rfl
  | cons line rest ih =>
    rw [forall_mem_cons] at hmarkers
    obtain ⟨hend, habort, hbegin⟩ := ne_marker hmarkers.1
    cases skip with
    | succ skip => exact ih hmarkers.2 h
    | zero =>
      rw [parseLines] at h
      split_ifs at h with hblank
      · exact ih hmarkers.2 h
      · obtain ⟨⟨edits, taken⟩, -, h⟩ := bind_eq_ok h
        obtain ⟨tail, htail, h⟩ := bind_eq_ok h
        obtain rfl := Except.ok.inj h
        exact (ih hmarkers.2 htail : tail.warnings = [])

end Parse

theorem unlines_map_unlines (hne : ∀ body ∈ bodies, body ≠ []) :
    unlines (bodies.map unlines) = unlines bodies.flatten := by
  induction bodies with
  | nil => rfl
  | cons body bodies ih =>
    rw [forall_mem_cons] at hne
    cases bodies with
    | nil => rw [map_singleton, unlines_singleton, flatten_singleton]
    | cons body' bodies =>
      have hflat : (body' :: bodies).flatten ≠ [] := by
        rw [flatten_cons]
        exact append_ne_nil_of_left_ne_nil (hne.2 body' mem_cons_self) _
      rw [map_cons, unlines_cons_of_ne_nil _ (by simp), ih hne.2,
        ← unlines_append hne.1 hflat, ← flatten_cons]

theorem isSectionBody_flatten (hne : bodies ≠ []) (hbodies : ∀ body ∈ bodies, IsSectionBody body) :
    IsSectionBody bodies.flatten := by
  constructor
  · intro line hline
    obtain ⟨body, hbody, hmem⟩ := mem_flatten.mp hline
    exact (hbodies body hbody).lines line hmem
  · obtain ⟨body, hbody⟩ := exists_mem_of_ne_nil bodies hne
    obtain ⟨line, hline, hfilled⟩ := (hbodies body hbody).filled
    exact ⟨line, mem_flatten.mpr ⟨body, hbody, hline⟩, hfilled⟩

theorem exists_bodies
    (hsections : ∀ s ∈ sections, ∃ body, IsSectionBody body ∧ s.diff = unlines body)
    (path : JsString) :
    ∃ bodies : List (List JsString), diffsOf sections path = bodies.map unlines ∧
      (∀ body ∈ bodies, IsSectionBody body) ∧ (path ∈ sections.map (·.path) → bodies ≠ []) := by
  induction sections with
  | nil =>
    exact ⟨[], rfl, fun body h => absurd h not_mem_nil, fun h => absurd h not_mem_nil⟩
  | cons s sections ih =>
    rw [forall_mem_cons] at hsections
    obtain ⟨bodies, hdiffs, hbodies, hne⟩ := ih hsections.2
    by_cases hpath : s.path = path
    · obtain ⟨body, hbody, hdiff⟩ := hsections.1
      refine ⟨body :: bodies, ?_, forall_mem_cons.mpr ⟨hbody, hbodies⟩, fun _ => cons_ne_nil _ _⟩
      rw [map_cons, ← hdiffs, ← hdiff, diffsOf, filter_cons_of_pos (by simpa using hpath)]
      rfl
    · refine ⟨bodies, ?_, hbodies, fun h => hne ?_⟩
      · rw [← hdiffs, diffsOf, filter_cons_of_neg (by simpa using hpath)]
        rfl
      · rw [map_cons, mem_cons] at h
        exact h.resolve_left (Ne.symm hpath)

/-- The merged section of a path is the lines of its sections, one below the other. -/
theorem mergeSamePathSections_body {input : JsString} {options : SplitHashlineOptions}
    (h : splitHashlineInputs input options = .ok sections) (hs : s ∈ mergeSamePathSections sections)
    : ∃ bodies : List (List JsString), diffsOf sections s.path = bodies.map unlines ∧
      (∀ body ∈ bodies, IsSectionBody body) ∧ IsSectionBody bodies.flatten ∧
        s.diff = unlines bodies.flatten := by
  obtain ⟨hpath, hdiff⟩ := of_mem_mergeSamePathSections hs
  obtain ⟨bodies, hdiffs, hbodies, hne⟩ :=
    exists_bodies (splitHashlineInputs_bodies h) s.path
  refine ⟨bodies, hdiffs, hbodies, isSectionBody_flatten (hne hpath) hbodies, ?_⟩
  rw [hdiff, hdiffs, unlines_map_unlines fun body hbody => (hbodies body hbody).ne_nil]

/-! ## A truncated input -/

/-- A warning of applying or recovering edits. -/
def IsApplyWarning (warning : JsString) : Prop :=
  warning.head? = some 0x0041 ∨ warning.head? = some 0x0052

theorem not_isApplyWarning_abortWarning : ¬ IsApplyWarning abortWarning := by
  rw [IsApplyWarning]
  decide

section Warnings
variable {xxHash32 : List UInt8 → UInt32}
variable {options : HashlineApplyOptions}
variable {result : HashlineApplyResult} {edits : List HashlineEdit} {s : AbsorbState}

theorem warnOnce_warnings (hs : ∀ w ∈ s.warnings, IsApplyWarning w) {key : AbsorbKey}
    {warning : JsString} (hwarning : IsApplyWarning warning) :
    ∀ w ∈ (s.warnOnce key warning).warnings, IsApplyWarning w := by
  rw [AbsorbState.warnOnce]
  split_ifs
  · exact hs
  · intro w hw
    rcases mem_append.mp hw with hw | hw
    · exact hs w hw
    · exact mem_singleton.mp hw ▸ hwarning

theorem isApplyWarning_absorbedWarning (count sourceLineNum first last : Nat)
    (place side : JsString) :
    IsApplyWarning (absorbedWarning count sourceLineNum first last place side) := .inl rfl

theorem isApplyWarning_droppedWarning (count sourceLineNum first last : Nat)
    (place side : JsString) :
    IsApplyWarning (droppedWarning count sourceLineNum first last place side) := .inl rfl

theorem absorbSegment_warnings {fileLines : List JsString} {allTargetLines : List Nat}
    (hs : ∀ w ∈ s.warnings, IsApplyWarning w) (segment : Segment) :
    ∀ w ∈ (absorbSegment xxHash32 fileLines allTargetLines options s segment).warnings,
      IsApplyWarning w := by
  cases segment with
  | single edit => exact hs
  | replacement group =>
    rw [absorbSegment, absorbReplacement]
    dsimp only [AbsorbState.deleteRange]
    split_ifs
    · exact warnOnce_warnings (warnOnce_warnings hs (isApplyWarning_absorbedWarning ..))
        (isApplyWarning_absorbedWarning ..)
    · exact warnOnce_warnings hs (isApplyWarning_absorbedWarning ..)
    · exact warnOnce_warnings hs (isApplyWarning_absorbedWarning ..)
    · exact hs
  | pureInsert group =>
    rw [absorbSegment, absorbPureInsert]
    dsimp only
    split_ifs
    · rcases (tryAbsorbPureInsertGroup group fileLines
        options.autoDropPureInsertDuplicates).leadingFileRange with _ | ⟨first, last⟩ <;>
      rcases (tryAbsorbPureInsertGroup group fileLines
        options.autoDropPureInsertDuplicates).trailingFileRange with _ | ⟨first', last'⟩
      · exact hs
      · exact warnOnce_warnings hs (isApplyWarning_droppedWarning ..)
      · exact warnOnce_warnings hs (isApplyWarning_droppedWarning ..)
      · exact warnOnce_warnings (warnOnce_warnings hs (isApplyWarning_droppedWarning ..))
          (isApplyWarning_droppedWarning ..)
    · exact hs

theorem applyHashlineEdits_warnings {text : JsString}
    (h : applyHashlineEdits xxHash32 text edits options = .ok result) :
    ∀ w ∈ result.warnings, IsApplyWarning w := by
  rw [applyHashlineEdits] at h
  split_ifs at h
  · obtain rfl := Except.ok.inj h
    exact fun w hw => absurd hw not_mem_nil
  · dsimp only at h
    split at h
    · cases h
    · cases h
    · obtain rfl := Except.ok.inj h
      have hfold : ∀ (segs : List Segment) (s : AbsorbState), (∀ w ∈ s.warnings, IsApplyWarning w) →
          ∀ w ∈ (segs.foldl (absorbSegment xxHash32 (lines text) (collectAnchorTargetLines edits)
            options) s).warnings, IsApplyWarning w := by
        intro segs
        induction segs with
        | nil => exact fun s hs => hs
        | cons segment segs ih => exact fun s hs => ih _ (absorbSegment_warnings hs segment)
      exact hfold (segments edits) ⟨edits.length, [], [], []⟩ fun w hw => absurd hw not_mem_nil

theorem recoverFromSnapshot_warnings {diffPackage : DiffPackage} {snapshot : LineMap}
    {currentText : JsString} {result : HashlineRecoveryResult}
    (h : recoverFromSnapshot xxHash32 diffPackage snapshot currentText edits options = .ok (some
      result)) : ∀ w ∈ result.warnings, IsApplyWarning w := by
  rw [recoverFromSnapshot] at h
  split_ifs at h
  · cases h
  · cases h
  · dsimp only at h
    split_ifs at h
    · cases h
    · split at h
      · cases h
      · cases h
      · rename_i applied happly
        split_ifs at h
        · cases h
        · split at h
          · cases h
          · split_ifs at h
            · cases h
            · obtain rfl := some.inj (Except.ok.inj h)
              exact forall_mem_cons.mpr ⟨.inr rfl, applyHashlineEdits_warnings happly⟩
            · obtain rfl := some.inj (Except.ok.inj h)
              exact applyHashlineEdits_warnings happly

theorem applySection_warnings {host : EditHost} {cache cache' : FileReadCache} {l : LoadedSection}
    (h : applySection host cache l = (.ok result, cache')) :
    ∀ w ∈ result.warnings, IsApplyWarning w := by
  rw [applySection, applyHashlineEditsWithRecovery] at h
  split at h
  · rw [tryRecoverHashlineWithCache] at h
    cases hpeek : cache.peek l.absolutePath with
    | none =>
      rw [hpeek] at h
      cases h
    | some snapshot =>
      rw [hpeek] at h
      dsimp only at h
      split at h
      · cases h
      · cases h
      · rename_i recovered _ hrecover
        obtain rfl := Except.ok.inj (Prod.mk.inj h).1
        exact recoverFromSnapshot_warnings (Prod.mk.inj hrecover).1
  · exact applyHashlineEdits_warnings (Prod.mk.inj h).1

end Warnings

section Result
variable (host : EditHost)
variable {s : HashlineInputSection} {path : Option JsString} {input : JsString}

def sectionWarnings (s : HashlineInputSection) (st : EditState) : List JsString :=
  match loadSection host s st.files with
  | .error _ => []
  | .ok l =>
      match applySection host st.cache l with
      | (.ok result, _) => l.parsed.warnings ++ result.warnings
      | (.error _, _) => []

def EditToolResult.sectionResults : EditToolResult → List SectionResult
  | .single result => [result]
  | .perFile _ _ results => results.map (·.2)

variable {host}

theorem executeSections_cons {first : SectionResult} {st mid : EditState}
    (h : executeHashlineSection host s st = (.ok first, mid)) (rest : List HashlineInputSection) :
    (executeSections host (s :: rest) st).2 = (executeSections host rest mid).2 := by
  rw [executeSections, h]
  rcases hrest : executeSections host rest mid with ⟨_ | results, st'⟩ <;> simp only [hrest]

/-- The result of a section comes from executing it after the sections before it. -/
theorem executeSections_results {sections : List HashlineInputSection} {st st' : EditState}
    {results : List (JsString × SectionResult)} {i : Nat} {result : SectionResult}
    (h : executeSections host sections st = (.ok results, st'))
    (hi : (results.map (·.2))[i]? = some result) : ∃ s, sections[i]? = some s ∧
      (executeHashlineSection host s (executeSections host (sections.take i) st).2).1 =
        .ok result := by
  induction sections generalizing st st' results i with
  | nil =>
    obtain rfl := Except.ok.inj (Prod.mk.inj h).1
    cases hi
  | cons s rest ih =>
    rw [executeSections] at h
    split at h
    · cases h
    · rename_i first _ hfirst
      split at h
      · cases h
      · rename_i more _ hmore
        obtain rfl := Except.ok.inj (Prod.mk.inj h).1
        cases i with
        | zero =>
          obtain rfl := Option.some.inj hi
          exact ⟨s, rfl, congrArg Prod.fst hfirst⟩
        | succ i =>
          rw [take_succ_cons, executeSections_cons hfirst]
          exact ih hmore hi

/-- The state in which the sections are executed: one section is executed right away. -/
def executionStart (host : EditHost) : List HashlineInputSection → EditState → EditState
  | [_], st => st
  | sections, st => (preflightSections host sections st).2

/-- Every section's result comes from executing one of the merged sections. -/
theorem executeHashlineSingle_results {st st' : EditState} {r : EditToolResult}
    (h : executeHashlineSingle host input path st = (.ok r, st')) :
    ∃ sections, inputSections host input path = .ok sections ∧
      ∀ i result, r.sectionResults[i]? = some result → ∃ s, sections[i]? = some s ∧
        (executeHashlineSection host s (executeSections host (sections.take i)
          (executionStart host sections st)).2).1 = .ok result := by
  rw [executeHashlineSingle] at h
  split at h
  · cases h
  · rename_i s hsections
    refine ⟨[s], hsections, fun i result hi => ?_⟩
    split at h
    · cases h
    · rename_i result' _ hrun
      obtain rfl := Except.ok.inj (Prod.mk.inj h).1
      cases i with
      | zero =>
        obtain rfl := Option.some.inj hi
        exact ⟨s, rfl, congrArg Prod.fst hrun⟩
      | succ i => cases hi
  · rename_i sections hmany hsections
    refine ⟨sections, hsections, fun i result hi => ?_⟩
    have hstart : executionStart host sections st = (preflightSections host sections st).2 := by
      unfold executionStart
      split
      · exact absurd rfl (hmany _)
      · rfl
    rw [runSections] at h
    split at h
    · cases h
    · rename_i hpreflight
      split at h
      · cases h
      · rename_i results _ hrun
        obtain rfl := Except.ok.inj (Prod.mk.inj h).1
        rw [hstart, hpreflight]
        exact executeSections_results hrun hi

/-- The lines of a merged section hold no marker, so its parse has no warning. -/
theorem inputSections_warnings {sections : List HashlineInputSection}
    (h : inputSections host input path = .ok sections) (hs : s ∈ sections) {parsed : ParsedHashline}
    (hparsed : parseHashlineWithWarnings host.xxHash32 s.diff = .ok parsed) :
    parsed.warnings = [] := by
  obtain ⟨split, hsplit, h⟩ := bind_eq_ok h
  obtain rfl := Except.ok.inj h
  obtain ⟨bodies, -, -, hbody, hdiff⟩ := mergeSamePathSections_body hsplit hs
  rw [hdiff, parseHashlineWithWarnings_unlines hbody] at hparsed
  exact parseLines_warnings (fun line hline => not_marker_of_mem_parsedLines hbody hline) hparsed

theorem loadSection_parsed {files : JsString → Option FileEntry} {l : LoadedSection}
    (h : loadSection host s files = .ok l) :
    parseHashlineWithWarnings host.xxHash32 s.diff = .ok l.parsed := by
  rw [loadSection] at h
  obtain ⟨absolutePath, -, h⟩ := bind_eq_ok h
  obtain ⟨parsed, hparsed, h⟩ := bind_eq_ok h
  obtain ⟨-, -, h⟩ := bind_eq_ok h
  obtain ⟨source, -, h⟩ := bind_eq_ok h
  by_cases hmissing : (!source.exists && hasAnchorScopedEdit parsed.edits) = true
  · rw [if_pos hmissing] at h
    cases h
  · rw [if_neg hmissing] at h
    obtain ⟨-, -, h⟩ := bind_eq_ok h
    obtain rfl := Except.ok.inj h
    exact hparsed

/-- Every section's part of the result comes from executing that section after those before it,
and without the abort warning. -/
def ReportsNoAbort (host : EditHost) (input : JsString) (path : Option JsString) (st : EditState)
    (r : EditToolResult) : Prop :=
  ∃ sections, inputSections host input path = .ok sections ∧
    ∀ i result, r.sectionResults[i]? = some result → ∃ s, sections[i]? = some s ∧
      let before := (executeSections host (sections.take i)
        (executionStart host sections st)).2
      (executeHashlineSection host s before).1 = .ok result ∧
        abortWarning ∉ sectionWarnings host s before

/-- **A truncation is never reported.**  For every input, file system and cache, if the
tool returns a result, then no section's part of it was made with the abort warning. -/
theorem executeHashlineSingle_never_reports_abort {input : JsString} {path : Option JsString}
    {st st' : EditState} {r : EditToolResult}
    (h : executeHashlineSingle host input path st = (.ok r, st')) :
    ReportsNoAbort host input path st r := by
  obtain ⟨sections, hsections, hresults⟩ := executeHashlineSingle_results h
  refine ⟨sections, hsections, fun i result hi => ?_⟩
  obtain ⟨s, hs, hrun⟩ := hresults i result hi
  refine ⟨s, hs, hrun, fun hmem => ?_⟩
  rw [sectionWarnings] at hmem
  split at hmem
  · exact absurd hmem not_mem_nil
  · rename_i l hload
    split at hmem
    · rename_i applied _ happly
      rw [inputSections_warnings hsections (mem_of_getElem? hs) (loadSection_parsed hload),
        nil_append] at hmem
      exact not_isApplyWarning_abortWarning (applySection_warnings happly _ hmem)
    · exact absurd hmem not_mem_nil

end Result

/-- A session in `/w` without plan mode: files are ASCII text, and no formatter runs. -/
def asciiHost : EditHost where
  cwd := js "/w"
  resolvePlanPath path := .ok (pathResolve (js "/w") path)
  enforcePlanModeWrite _ := .ok ()
  assertEditableFileContent _ _ := .ok ()
  place path := path
  decode bytes := bytes.map UInt8.toUInt16
  readEditableNotebookText _ path := .error (fileNotFound path)
  serializeEditedNotebookText _ path _ := .error (fileNotFound path)
  writethrough _ content := content.map UInt16.toUInt8
  applyOptions := ⟨false⟩
  xxHash32 := Xxh32.xxh32
  diffPackage :=
    { diffLines := fun old new =>
        if old = new then [⟨false, false, new, notBoth_false_left false⟩]
        else (if old.isEmpty then [] else [⟨false, true, old, notBoth_false_left true⟩]) ++
          [⟨true, false, new, notBoth_false_right true⟩]
      replayPatch := fun _ _ _ => none }

/-- A truncated stream: one line is inserted into a new file, then the marker. -/
def truncatedInput : JsString := js "§a\n»BOF\nx\n*** Abort"

/-- The parser alone reports the marker at the end of the section, the splitter hands on a
section without it, and its edit is applied without the warning. -/
theorem abort_lost :
    (parseHashlineWithWarnings Xxh32.xxh32 (js "»BOF\nx\n*** Abort")).map (·.warnings) =
        .ok [abortWarning] ∧
      splitHashlineInputs truncatedInput ⟨js "/w", none⟩ = .ok [⟨js "a", js "»BOF\nx"⟩] ∧
      parseHashlineWithWarnings Xxh32.xxh32 (js "»BOF\nx") = .ok ⟨[.insert .bof (js "x") 1 0], []⟩ ∧
      sectionWarnings asciiHost ⟨js "a", js "»BOF\nx"⟩ ⟨fun _ => none, LruCache.empty⟩ = [] := by
  refine ⟨?_, ?_, ?_, ?_⟩ <;> with_unfolding_all rfl

/-- The run on a file system without files. -/
theorem executeHashlineSingle_never_reports_abort_new :
    ∃ r st', executeHashlineSingle asciiHost truncatedInput none ⟨fun _ => none, LruCache.empty⟩ =
        (.ok r, st') ∧ ReportsNoAbort asciiHost truncatedInput none ⟨fun _ => none, LruCache.empty⟩
      r := by
  have hok : (executeHashlineSingle asciiHost truncatedInput none
      ⟨fun _ => none, LruCache.empty⟩).1.toOption.isSome = true := by
    decide
  rcases hrun : executeHashlineSingle asciiHost truncatedInput none
    ⟨fun _ => none, LruCache.empty⟩ with ⟨_ | r, st'⟩
  · rw [hrun] at hok
    exact Bool.noConfusion hok
  · exact ⟨r, st', rfl, executeHashlineSingle_never_reports_abort hrun⟩

end GajaeCode
