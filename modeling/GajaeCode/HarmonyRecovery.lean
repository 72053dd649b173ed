import GajaeCode.HarmonyLeak
import GajaeCode.HashlineSections

/-! # Truncate and resume

`packages/agent/src/harmony-leak.ts`, recovery: the input of a contaminated tool call is cut at
the start of the contaminated line and ended with a sentinel that the tool's parser knows.

For the `edit` tool the gate asks for an input that begins with `@`, but the sections of
`splitHashlineInputs` begin with `§`: an input is recovered only when it has no header at all
and gets its path from the options.  The cut also takes the white space at the end of the line
before it, which may be a line of the file (`recovery_fits_iff`).
-/
namespace GajaeCode
open JsString JsValue List

namespace HarmonyLeak

def AT : CodeUnit := 0x40

structure RecoveryConfig where
  sentinel : JsString
  accepts : JsString → Bool

def ABORT_SENTINEL : JsString := js "\n*** Abort\n"

/-- `RECOVERY_REGISTRY`: its own entries. -/
def RECOVERY_REGISTRY (name : JsString) : Option RecoveryConfig :=
  if name = js "edit" then
    some ⟨ABORT_SENTINEL, fun input => (trimStart input).head? == some AT⟩
  else if name = js "eval" then some ⟨ABORT_SENTINEL, fun _ => true⟩
  else none

/-- Where the line of an offset begins: behind the last line feed before it. -/
def lineStart (input : JsString) (offset : Nat) : Nat :=
  ((input.take offset).rdropWhile (· ≠ LF)).length

/-- `truncateAtLineAndAppendSentinel`: the clean and the removed part. -/
def truncateAtLineAndAppendSentinel (input : JsString) (offset : Nat) (sentinel : JsString) :
    Option (JsString × JsString) :=
  let lineStart := lineStart input offset
  if lineStart = 0 then none
  else
    let head := trimEnd (input.take lineStart)
    if head.length = 0 then none else some (head ++ sentinel, input.drop lineStart)

section Recover
variable {N : Type}

/-- `recoverHarmonyToolCall`: the recovered message and what was removed. -/
def recoverHarmonyToolCall (message : AssistantMessage N) (detection : HarmonyDetection) :
    Option (AssistantMessage N × JsString) := do
  if detection.surface ≠ .toolArg then none
  let contentIndex ← detection.contentIndex
  match message.content[contentIndex]? with
  | some (.toolCall id name arguments) =>
    let config ← RECOVERY_REGISTRY name
    match getField arguments (js "input") with
    | .string input =>
      if !config.accepts input then none
      let offset ← detection.signals.head?.map (·.start)
      let (clean, removed) ← truncateAtLineAndAppendSentinel input offset config.sentinel
      some ({ message with
          content := [.toolCall id name (setField arguments (js "input") (.string clean))]
          providerPayload := .undefined
          stopReason := js "toolUse"
          errorMessage := none }, removed)
    | _ => none
  | _ => none

end Recover

/-- The lines of a text up to its last one that is not blank. -/
def withoutBlankEnd (text : JsString) : List JsString :=
  (lines text).rdropWhile fun line => (trim line).isEmpty

/-- Two results with the same sections, but for blank lines at the end of the last one, or two
errors. -/
def SameSections : Except HashlineError (List HashlineInputSection) →
    Except HashlineError (List HashlineInputSection) → Prop
  | .ok a, .ok b =>
    a = b ∨ ∃ front s t, a = front ++ [s] ∧ b = front ++ [t] ∧ s.path = t.path ∧
      withoutBlankEnd s.diff = withoutBlankEnd t.diff
  | .error _, .error _ => True
  | _, _ => False

def lastFilledLine (text : JsString) : JsString :=
  (((splitLines text).rdropWhile fun line => (trim line).isEmpty).getLast?).getD []

/-- The path that is taken when an input has no header. -/
def fallbackPath (options : SplitHashlineOptions) : JsString :=
  normalizeHashlinePath (options.path.getD []) options.cwd

/-- The cut takes no white space off a line of a section: there are no operations before it; or
a line before it ends the input; or the last line before it that is not blank is a marker, or
does not end with white space. -/
def CutIsClean (options : SplitHashlineOptions) (head : JsString) : Prop :=
  containsRecognizableHashlineOperations head = true →
    (∃ line ∈ splitLines (hlFilePrefix :: (fallbackPath options ++ LF :: head)),
      endsSections line = true) ∨
    isPatchEnvelopeMarker (lastFilledLine head) = true ∨
    trimEnd (lastFilledLine head) = lastFilledLine head

/-! ## The lines before the cut -/

section Shape
variable {u : CodeUnit}

/-- Joining lines: what stands before the last one is empty or ends with a line feed. -/
theorem exists_unlines_concat (ls : List JsString) :
    ∃ front, (front = [] ∨ front.getLast? = some LF) ∧
      ∀ last, unlines (ls ++ [last]) = front ++ last := by
  induction ls with
  | nil => exact ⟨[], Or.inl rfl, fun last => unlines_singleton last⟩
  | cons l ls ih =>
    obtain ⟨front, hfront, hlast⟩ := ih
    refine ⟨l ++ LF :: front, Or.inr ?_, fun last => ?_⟩
    · rcases hfront with rfl | hfront
      · simp
      · rw [getLast?_append, getLast?_cons, hfront]
        rfl
    · rw [cons_append, unlines_cons_of_ne_nil _ (by simp), hlast, append_assoc, cons_append]

theorem lines_append_of_not_mem {x w last : JsString} {front : List JsString}
    (hx : lines x = front ++ [last]) (hw : LF ∉ w) : lines (x ++ w) = front ++ [last ++ w] := by
  obtain ⟨before, -, hjoin⟩ := exists_unlines_concat front
  have htext : x ++ w = unlines (front ++ [last ++ w]) := by
    rw [← unlines_lines x, hx, hjoin, hjoin, append_assoc]
  rw [htext, lines_unlines (by simp)]
  intro l hl
  rcases mem_append.mp hl with hl | hl
  · exact LF_not_mem_of_mem_lines (hx ▸ mem_append_left _ hl)
  · rw [mem_singleton.mp hl, mem_append]
    have hlast : LF ∉ last := LF_not_mem_of_mem_lines (hx ▸ mem_append_right _ (by simp))
    tauto

theorem mem_of_mem_lines {text line : JsString} (hline : line ∈ lines text) (hu : u ∈ line) :
    u ∈ text := by
  rw [← unlines_lines text]
  generalize lines text = ls at hline
  induction ls with
  | nil => exact absurd hline not_mem_nil
  | cons l ls ih =>
    cases ls with
    | nil =>
      rw [mem_singleton.mp hline] at hu
      rwa [unlines_singleton]
    | cons l' ls =>
      rw [unlines_cons_cons, mem_append, mem_cons]
      rcases mem_cons.mp hline with rfl | hline
      · exact Or.inl hu
      · exact Or.inr (Or.inr (ih hline))

theorem mem_of_mem_splitLines {text line : JsString} (hline : line ∈ splitLines text)
    (hu : u ∈ line) : u ∈ text := by
  rw [splitLines, mem_append, mem_map] at hline
  rcases hline with ⟨l, hl, rfl⟩ | hline
  · rw [dropCR] at hu
    split_ifs at hu
    · exact mem_of_mem_lines (dropLast_subset _ hl) (dropLast_subset _ hu)
    · exact mem_of_mem_lines (dropLast_subset _ hl) hu
  · exact mem_of_mem_lines (mem_of_getLast? (Option.mem_toList.mp hline)) hu

theorem isWhitespace_LF : isWhitespace LF = true := rfl

/-- **The shape of a cut.**  A text that ends with a line feed and is not blank has a last line
that is not blank; with the white space at its end cut off and the sentinel behind it, it has
the same lines up to that one, and that one without the white space. -/
theorem cut_shape {head : JsString} (hend : head.getLast? = some LF) (hfilled : trim head ≠ []) :
    ∃ before line blanks, (∀ blank ∈ blanks, trim blank = []) ∧ trim line ≠ [] ∧
      splitLines head = before ++ line :: blanks ∧ splitLines (trimEnd head ++ ABORT_SENTINEL) =
        before ++ [trimEnd line, abortMarker, []] := by
  have hne : trimEnd head ≠ [] := mt trim_eq_nil_iff_trimEnd.mpr hfilled
  have hlast := rdropWhile_last_not isWhitespace head hne
  have hw : ∀ u ∈ head.rtakeWhile isWhitespace, isWhitespace u = true :=
    fun u hu => mem_rtakeWhile_imp hu
  have hhead : trimEnd head ++ head.rtakeWhile isWhitespace = head :=
    rdropWhile_append_rtakeWhile ..
  change ¬ isWhitespace ((trimEnd head).getLast hne) = true at hlast
  generalize trimEnd head = x at *
  generalize head.rtakeWhile isWhitespace = w at *
  -- the line feed at the end is in the white space
  have hLF : LF ∈ w := by
    rcases eq_nil_or_concat w with rfl | ⟨front, u, rfl⟩
    · rw [append_nil] at hhead
      rw [← hhead, getLast?_eq_some_getLast hne, Option.some.injEq] at hend
      exact absurd isWhitespace_LF (hend ▸ hlast)
    · rw [← hhead, concat_eq_append, ← append_assoc, getLast?_concat, Option.some.injEq] at hend
      simp [hend]
  obtain ⟨w₀, w₁, rfl, hw₀⟩ := eq_append_cons_of_mem hLF
  obtain ⟨front, last, hlines⟩ := (eq_nil_or_concat (lines x)).resolve_left (lines_ne_nil x)
  rw [concat_eq_append] at hlines
  -- the last line of what is kept ends where that ends
  have hlastLine : trimEnd last = last ∧ last ≠ [] := by
    obtain ⟨before, hbefore, hjoin⟩ := exists_unlines_concat front
    have hx : x = before ++ last := by rw [← unlines_lines x, hlines, hjoin]
    subst hx
    have hlastNe : last ≠ [] := by
      rintro rfl
      rw [append_nil] at hne
      rcases hbefore with rfl | hbefore
      · exact hne rfl
      · rw [append_nil, getLast?_eq_some_getLast hne, Option.some.injEq] at *
        simp only [append_nil] at hlast
        exact hlast (hbefore ▸ isWhitespace_LF)
    refine ⟨rdropWhile_eq_self_iff.mpr fun hne' => ?_, hlastNe⟩
    rwa [getLast_append_of_ne_nil _ hne'] at hlast
  have hline : trimEnd (dropCR (last ++ w₀)) = last := by
    rw [trimEnd_dropCR, trimEnd_append fun u hu => hw u (mem_append_left _ hu), hlastLine.1]
  have hCR : dropCR last = last := by
    have h := hlastLine.1
    rw [← trimEnd_dropCR] at h
    refine List.IsPrefix.eq_of_length_le ?_ ?_
    · rw [dropCR]
      split_ifs
      · exact dropLast_prefix last
      · exact prefix_rfl
    · have := (List.rdropWhile_prefix isWhitespace (dropCR last)).length_le
      rwa [show (dropCR last).rdropWhile isWhitespace = last from h] at this
  refine ⟨front.map dropCR, dropCR (last ++ w₀), splitLines w₁, ?_, ?_, ?_, ?_⟩
  · intro blank hblank
    rw [trim_eq_nil]
    intro u hu
    exact hw u (mem_append_right _ (mem_cons_of_mem _ (mem_of_mem_splitLines hblank hu)))
  · rw [Ne, trim_eq_nil_iff_trimEnd, hline]
    exact hlastLine.2
  · rw [← hhead, ← append_assoc, splitLines_append_LF, lines_append_of_not_mem hlines hw₀,
      map_append, append_assoc]
    rfl
  · have hsentinel : ABORT_SENTINEL = LF :: (abortMarker ++ [LF]) := rfl
    have habort : splitLines (abortMarker ++ [LF]) = [abortMarker, []] := by decide
    rw [hsentinel, splitLines_append_LF, hlines, habort, map_append, hline, append_assoc]
    simp [hCR]

end Shape

/-! ## Inputs that begin with `@` -/

section Fallback
variable {options : SplitHashlineOptions} {cwd : JsString}
variable {rest : List JsString} {first input : JsString}

theorem trimStart_append_of_blank {w : JsString} (hw : ∀ u ∈ w, isWhitespace u = true)
    (x : JsString) : trimStart (w ++ x) = trimStart x :=
  dropWhile_append_of_pos hw

theorem head?_trimStart_append {l : JsString} (hl : trim l ≠ []) (x : JsString) :
    (trimStart (l ++ x)).head? = (trimStart l).head? := by
  have hne : trimStart l ≠ [] := by
    intro hnil
    rw [trim, hnil] at hl
    exact hl rfl
  rw [trimStart, dropWhile_append, if_neg (by simpa [trimStart] using hne)]
  exact head?_append_of_ne_nil _ hne

theorem trimStart_of_head? {line : JsString} {u : CodeUnit} (h : line.head? = some u)
    (hu : isWhitespace u = false) : trimStart line = line := by
  obtain ⟨rest, rfl⟩ : ∃ rest, line = u :: rest := head?_eq_some_iff.mp h
  rw [trimStart, dropWhile_cons_of_neg (by simp [hu])]

/-- What begins a line without the white space at its end begins the line. -/
theorem head?_of_head?_trimEnd {line : JsString} {u : CodeUnit}
    (h : (trimEnd line).head? = some u) : line.head? = some u := by
  obtain ⟨rest, hrest⟩ := rdropWhile_prefix isWhitespace line
  rw [← hrest, head?_append]
  rw [show line.rdropWhile isWhitespace = trimEnd line from rfl, h]
  rfl

/-- A line that begins with `@` after white space is neither a header nor a marker. -/
theorem head?_trimEnd_ne {line : JsString} {u : CodeUnit} (hAt : (trimStart line).head? = some AT)
    (hu : isWhitespace u = false) (hne : u ≠ AT) : (trimEnd line).head? ≠ some u := by
  intro h
  have hline := head?_of_head?_trimEnd h
  rw [trimStart_of_head? hline hu, hline, Option.some.injEq] at hAt
  exact hne hAt

theorem dropBlankLines_eq {ls : List JsString} (hAt : (trimStart (unlines ls)).head? = some AT) :
    ∃ first rest, dropBlankLines ls = first :: rest ∧ (trimStart first).head? = some AT ∧
      (first :: rest) <:+ ls := by
  induction ls with
  | nil => cases hAt
  | cons l ls ih =>
    rw [dropBlankLines]
    by_cases hblank : trim l = []
    · have hws := trim_eq_nil.mp hblank
      have hdrop : (trim (dropCR l)).isEmpty = true := by
        rw [List.isEmpty_iff, trim_eq_nil_iff_trimEnd, trimEnd_dropCR, ← trim_eq_nil_iff_trimEnd]
        exact hblank
      rw [hdrop, Bool.true_or, if_pos rfl]
      cases ls with
      | nil =>
        rw [unlines_singleton, ← append_nil l, trimStart_append_of_blank hws] at hAt
        cases hAt
      | cons l' ls =>
        rw [unlines_cons_cons, trimStart_append_of_blank hws] at hAt
        obtain ⟨first, rest, hdropped, hfirst, hsuffix⟩ := ih hAt
        exact ⟨first, rest, hdropped, hfirst, hsuffix.trans (suffix_cons _ _)⟩
    · have hAt' : (trimStart l).head? = some AT := by
        cases ls with
        | nil => rwa [unlines_singleton] at hAt
        | cons l' ls => rwa [unlines_cons_cons, head?_trimStart_append hblank] at hAt
      have hkeep :
          ((trim (dropCR l)).isEmpty || trimEnd (dropCR l) = beginPatchMarker) = false := by
        rw [Bool.or_eq_false_iff]
        refine ⟨?_, decide_eq_false ?_⟩
        · rw [← Bool.not_eq_true, List.isEmpty_iff, trim_eq_nil_iff_trimEnd, trimEnd_dropCR,
            ← trim_eq_nil_iff_trimEnd]
          exact hblank
        · rw [trimEnd_dropCR]
          intro hmarker
          exact head?_trimEnd_ne hAt' (show isWhitespace 0x2a = false from rfl) (by decide)
            (hmarker ▸ rfl)
      rw [hkeep, if_neg Bool.false_ne_true]
      exact ⟨l, ls, rfl, hAt', suffix_rfl⟩

theorem trimStart_dropByteOrderMark (input : JsString) :
    trimStart (dropByteOrderMark input) = trimStart input := by
  rw [dropByteOrderMark.eq_def]
  split
  · rw [trimStart, trimStart, dropWhile_cons_of_pos (by rfl)]
  · rfl

theorem trimEnd_head?_splitLines {text : JsString} (h : lines text = first :: rest) :
    trimEnd ((splitLines text).head?.getD []) = trimEnd first := by
  rw [splitLines, h]
  cases rest with
  | nil => rfl
  | cons l rest => exact trimEnd_dropCR first

/-- Without a path from the options there is no first header. -/
theorem first_piece_not_header (hAt : (trimStart input).head? = some AT) :
    parseHashlineHeaderLine ((splitLines (stripLeadingBlankLines input)).head?.getD []) cwd =
      .ok none := by
  obtain ⟨first, rest, hdropped, hfirst, hsuffix⟩ :=
    @dropBlankLines_eq (lines (dropByteOrderMark input))
      (by rwa [unlines_lines, trimStart_dropByteOrderMark])
  have hlines : lines (stripLeadingBlankLines input) = first :: rest := by
    rw [stripLeadingBlankLines, hdropped, lines_unlines (cons_ne_nil _ _)]
    exact fun l hl => LF_not_mem_of_mem_lines (hsuffix.subset hl)
  rw [parseHashlineHeaderLine_eq_none, trimEnd_head?_splitLines hlines]
  exact head?_trimEnd_ne hfirst (by decide) (by decide)

/-- The lines of the header that is put before an input. -/
def fallbackLines (options : SplitHashlineOptions) : List JsString :=
  (lines (hlFilePrefix :: fallbackPath options)).map dropCR

theorem head?_trimEnd_mark (l : JsString) :
    (trimEnd (hlFilePrefix :: l)).head? = some hlFilePrefix := by
  have hne : trimEnd (hlFilePrefix :: l) ≠ [] := by
    rw [Ne, trimEnd_eq_nil]
    exact fun h => absurd (h _ mem_cons_self) (by decide)
  obtain ⟨u, rest, hu⟩ := exists_cons_of_ne_nil hne
  have := @head?_of_head?_trimEnd (hlFilePrefix :: l) u (by rw [hu]; rfl)
  rw [head?_cons, Option.some.injEq] at this
  rw [hu, this]
  rfl

theorem lines_mark {text : JsString} (h : lines text = first :: rest) :
    lines (hlFilePrefix :: text) = (hlFilePrefix :: first) :: rest := by
  rw [lines] at h ⊢
  rw [splitOn_cons_eq_if_modifyHead, if_neg (by decide), h, modifyHead_cons]

theorem fallbackLines_eq (options : SplitHashlineOptions) :
    ∃ first rest, fallbackLines options = first :: rest ∧
      (trimEnd first).head? = some hlFilePrefix := by
  obtain ⟨l, ls, hlines⟩ := exists_cons_of_ne_nil (lines_ne_nil (fallbackPath options))
  refine ⟨dropCR (hlFilePrefix :: l), ls.map dropCR, ?_, ?_⟩
  · rw [fallbackLines, lines_mark hlines, map_cons]
  · rw [trimEnd_dropCR, head?_trimEnd_mark]

theorem splitLines_fallback (options : SplitHashlineOptions) (x : JsString) :
    splitLines (hlFilePrefix :: (fallbackPath options ++ LF :: x)) =
      fallbackLines options ++ splitLines x :=
  splitLines_append_LF (hlFilePrefix :: fallbackPath options) x

/-- The pieces of an input that has got its header from the options. -/
theorem pieces_fallback (options : SplitHashlineOptions) (x : JsString) :
    splitLines (stripLeadingBlankLines (hlFilePrefix :: (fallbackPath options ++ LF :: x))) =
      fallbackLines options ++ splitLines x := by
  obtain ⟨l, ls, hlines⟩ := exists_cons_of_ne_nil (lines_ne_nil (fallbackPath options))
  have hsplit : lines (hlFilePrefix :: (fallbackPath options ++ LF :: x)) =
      (hlFilePrefix :: l) :: (ls ++ lines x) :=
    lines_mark (by rw [lines_append_LF, hlines, cons_append])
  have hmark := head?_trimEnd_mark l
  have hkeep : dropBlankLines ((hlFilePrefix :: l) :: (ls ++ lines x)) =
      (hlFilePrefix :: l) :: (ls ++ lines x) := by
    rw [dropBlankLines, if_neg]
    rw [Bool.or_eq_true, not_or, List.isEmpty_iff, trim_eq_nil_iff_trimEnd, trimEnd_dropCR,
      decide_eq_true_eq]
    constructor
    · intro hnil
      rw [hnil] at hmark
      cases hmark
    · intro hmarker
      rw [hmarker] at hmark
      exact absurd hmark (by decide)
  have hbom : dropByteOrderMark (hlFilePrefix :: (fallbackPath options ++ LF :: x)) =
      hlFilePrefix :: (fallbackPath options ++ LF :: x) := by
    rw [dropByteOrderMark.eq_def]
    split
    · rename_i rest heq
      exact absurd (cons.inj heq).1 (by decide)
    · rfl
  rw [stripLeadingBlankLines, hbom, hsplit, hkeep, ← hsplit, unlines_lines, splitLines_fallback]

/-- What `splitHashlineInputs` makes of the pieces of an input. -/
def splitPieces (cwd : JsString) (pieces : List JsString) :
    Except HashlineError (List HashlineInputSection) := do
  match ← parseHashlineHeaderLine (pieces.head?.getD []) cwd with
  | none => .error (.error
      (js "input must begin with \"§PATH\" on the first non-blank line; got: " ++
        jsonStringify ((pieces.head?.getD []).take 120) ++
        js ". Example: \"§src/foo.ts\" then edit ops."))
  | some _ => splitSections cwd pieces [] []

theorem splitHashlineInputs_of_normalized {normalized : JsString} {pieces : List JsString}
    (hnormalized : normalizeFallbackInput input options = .ok normalized)
    (hpieces : splitLines (stripLeadingBlankLines normalized) = pieces) :
    splitHashlineInputs input options = splitPieces options.cwd pieces := by
  have hsplit : splitHashlineInputs input options =
      (normalizeFallbackInput input options).bind fun text =>
        splitPieces options.cwd (splitLines (stripLeadingBlankLines text)) := rfl
  rw [hsplit, hnormalized, ← hpieces]
  rfl

/-- What becomes of an input that begins with `@`: it gets a header, or it is refused. -/
theorem splitHashlineInputs_cases {input : JsString} (hAt : (trimStart input).head? = some AT) :
    (hasExplicitHeader options.cwd (splitLines (dropByteOrderMark input)) = .ok false ∧
      containsRecognizableHashlineOperations input = true ∧
      (∃ path, options.path = some path ∧ path.isEmpty = false ∧
        (fallbackPath options).isEmpty = false)) ∨
    ∃ e, splitHashlineInputs input options = .error e := by
  have hrefused : normalizeFallbackInput input options = .ok input →
      ∃ e, splitHashlineInputs input options = .error e := by
    intro hnormalized
    rw [splitHashlineInputs_of_normalized hnormalized rfl, splitPieces, first_piece_not_header hAt]
    exact ⟨_, rfl⟩
  cases hexplicit : hasExplicitHeader options.cwd (splitLines (dropByteOrderMark input)) with
  | error e =>
    refine Or.inr ⟨e, ?_⟩
    rw [splitHashlineInputs, normalizeFallbackInput, hexplicit]
    rfl
  | ok explicit =>
    cases explicit with
    | true =>
      refine Or.inr (hrefused ?_)
      rw [normalizeFallbackInput, hexplicit]
      rfl
    | false =>
      cases hpath : options.path with
      | none =>
        refine Or.inr (hrefused ?_)
        rw [normalizeFallbackInput, hexplicit, hpath]
        rfl
      | some path =>
        have hnormalized : normalizeFallbackInput input options =
            if path.isEmpty || !containsRecognizableHashlineOperations input then .ok input
            else if (normalizeHashlinePath path options.cwd).isEmpty then .ok input
            else .ok (hlFilePrefix :: (normalizeHashlinePath path options.cwd ++ LF :: input)) := by
          rw [normalizeFallbackInput, hexplicit, hpath]
          rfl
        split_ifs at hnormalized with hops hempty
        · exact Or.inr (hrefused hnormalized)
        · exact Or.inr (hrefused hnormalized)
        · rw [Bool.or_eq_true, not_or, Bool.not_eq_true, Bool.not_eq_true,
            Bool.not_eq_false'] at hops
          refine Or.inl ⟨rfl, hops.2, path, rfl, hops.1, ?_⟩
          rw [fallbackPath, hpath]
          exact Bool.not_eq_true _ ▸ hempty

theorem splitHashlineInputs_fallback {x path : JsString}
    (hexplicit : hasExplicitHeader options.cwd (splitLines (dropByteOrderMark x)) = .ok false)
    (hops : containsRecognizableHashlineOperations x = true) (hpath : options.path = some path)
    (hne : path.isEmpty = false) (hfallback : (fallbackPath options).isEmpty = false)
    (hfirst : fallbackLines options = first :: rest) :
    (∀ header, parseHashlineHeaderLine first options.cwd = .ok (some header) →
      splitHashlineInputs x options =
        splitSections options.cwd (fallbackLines options ++ splitLines x) [] []) ∧
    ∀ sections, splitHashlineInputs x options = .ok sections →
      ∃ header, parseHashlineHeaderLine first options.cwd = .ok (some header) := by
  have hnormalized : normalizeFallbackInput x options =
      .ok (hlFilePrefix :: (fallbackPath options ++ LF :: x)) := by
    have hpath' : fallbackPath options = normalizeHashlinePath path options.cwd := by
      rw [fallbackPath, hpath]
      rfl
    rw [hpath'] at hfallback ⊢
    rw [normalizeFallbackInput, hexplicit, hpath]
    change (if path.isEmpty || !containsRecognizableHashlineOperations x then _ else _) = _
    rw [hne, hops, Bool.not_true, Bool.or_false, if_neg Bool.false_ne_true,
      hfallback, if_neg Bool.false_ne_true]
    rfl
  have hsplit : splitHashlineInputs x options =
      splitPieces options.cwd (fallbackLines options ++ splitLines x) :=
    splitHashlineInputs_of_normalized hnormalized (pieces_fallback options x)
  have hhead : (fallbackLines options ++ splitLines x).head?.getD [] = first := by
    rw [hfirst]
    rfl
  rw [hsplit, splitPieces, hhead]
  constructor
  · intro header hheader
    rw [hheader]
    rfl
  · intro sections hsections
    cases hheader : parseHashlineHeaderLine first options.cwd with
    | error e =>
      rw [hheader] at hsections
      cases hsections
    | ok header =>
      cases header with
      | none =>
        rw [hheader] at hsections
        cases hsections
      | some header => exact ⟨header, rfl⟩

end Fallback

/-! ## The sections of the two cuts -/

section Compare
variable {cwd path line : JsString} {sections : List HashlineInputSection}
  {xs ys blanks current : List JsString}

theorem withoutBlankEnd_unlines (hne : xs ≠ []) (hfree : ∀ l ∈ xs, LF ∉ l) :
    withoutBlankEnd (unlines xs) = xs.rdropWhile fun line => (trim line).isEmpty := by
  rw [withoutBlankEnd, lines_unlines hne hfree]

theorem rdropWhile_blank_append (hblanks : ∀ blank ∈ blanks, trim blank = []) (xs : List JsString) :
    (xs ++ blanks).rdropWhile (fun line => (trim line).isEmpty) =
      xs.rdropWhile fun line => (trim line).isEmpty := by
  induction blanks using reverseRecOn with
  | nil => rw [append_nil]
  | append_singleton blanks blank ih =>
    rw [← append_assoc, rdropWhile_concat_pos _ _ _ (by simp [hblanks blank])]
    exact ih fun l hl => hblanks l (mem_append_left _ hl)

theorem rdropWhile_blank_filled (hline : trim line ≠ []) (xs : List JsString) :
    (xs ++ [line]).rdropWhile (fun line => (trim line).isEmpty) = xs ++ [line] :=
  rdropWhile_concat_neg _ _ _ (by simpa using hline)

/-- Open sections that are not blank are the same when their lines are, up to blank ones at the
end. -/
theorem sameSections_filled (sections : List HashlineInputSection) (path : JsString)
    (hxs : xs ≠ []) (hys : ys ≠ []) (hxsFree : ∀ l ∈ xs, LF ∉ l) (hysFree : ∀ l ∈ ys, LF ∉ l) :
    SameSections (.ok (sections ++ [⟨path, unlines xs⟩])) (.ok (sections ++ [⟨path, unlines ys⟩])) ↔
      xs.rdropWhile (fun line => (trim line).isEmpty) =
        ys.rdropWhile fun line => (trim line).isEmpty := by
  rw [← withoutBlankEnd_unlines hxs hxsFree, ← withoutBlankEnd_unlines hys hysFree]
  constructor
  · rintro (heq | ⟨front, s, t, hs, ht, -, hdiff⟩)
    · have := singleton_inj.mp (append_cancel_left heq)
      rw [(HashlineInputSection.mk.inj this).2]
    · obtain ⟨-, hs⟩ := append_inj' hs rfl
      obtain ⟨-, ht⟩ := append_inj' ht rfl
      rw [← singleton_inj.mp hs, ← singleton_inj.mp ht] at hdiff
      exact hdiff
  · exact fun hdiff => Or.inr ⟨sections, _, _, rfl, rfl, rfl, hdiff⟩

theorem sameSections_refl (r : Except HashlineError (List HashlineInputSection)) :
    SameSections r r := by
  cases r with
  | error e => trivial
  | ok sections => exact Or.inl rfl

theorem sameSections_blank (hpath : path ≠ []) (hfree : ∀ l ∈ current, LF ∉ l)
    (hblanks : ∀ blank ∈ blanks, trim blank = []) (hblanksFree : ∀ l ∈ blanks, LF ∉ l) :
    SameSections (.ok (sections ++ flushSection path current))
      (.ok (sections ++ flushSection path (current ++ blanks))) := by
  by_cases hfilled : ∃ l ∈ current, trim l ≠ []
  · obtain ⟨l, hl, hne⟩ := hfilled
    rw [flushSection_of_filled hpath hl hne,
      flushSection_of_filled hpath (mem_append_left _ hl) hne,
      sameSections_filled sections path (ne_nil_of_mem hl)
        (ne_nil_of_mem (mem_append_left _ hl)) hfree, rdropWhile_blank_append hblanks]
    intro l hl
    exact (mem_append.mp hl).elim (hfree l) (hblanksFree l)
  · push Not at hfilled
    rw [flushSection_of_blank hfilled, flushSection_of_blank]
    · exact sameSections_refl _
    · intro l hl
      exact (mem_append.mp hl).elim (hfilled l) (hblanks l)

theorem endsSections_congr {a b : JsString} (h : trimEnd a = trimEnd b) :
    endsSections a = endsSections b := by
  rw [endsSections, endsSections, h]

theorem isPatchEnvelopeMarker_congr {a b : JsString} (h : trimEnd a = trimEnd b) :
    isPatchEnvelopeMarker a = isPatchEnvelopeMarker b := by
  rw [isPatchEnvelopeMarker, isPatchEnvelopeMarker, h]

theorem splitSections_cons_ends (hends : endsSections line = true) (rest : List JsString)
    (path : JsString) (current : List JsString) :
    splitSections cwd (line :: rest) path current = .ok (flushSection path current) := by
  rw [endsSections] at hends
  rw [splitSections, if_pos hends]

theorem splitSections_cons_marker (hends : endsSections line = false)
    (hbegins : isPatchEnvelopeMarker line = true) (rest : List JsString) (path : JsString)
    (current : List JsString) :
    splitSections cwd (line :: rest) path current = splitSections cwd rest path current := by
  rw [endsSections] at hends
  rw [splitSections, if_neg (by simpa using hends), if_pos hbegins]

/-- **The last line before the cut decides.**  With its white space cut off and the sentinel
behind it, the sections are those without the sentinel, unless that white space belonged to a
line of the open section. -/
theorem sameSections_cut_iff {before : List JsString} {left : Option (JsString × List JsString)}
    (hscan : scanSections cwd before [] [] = .ok (sections, left))
    (hpath : ∀ path current, left = some (path, current) → path ≠ [])
    (hfree : ∀ l ∈ before ++ line :: blanks, LF ∉ l) (hline : trim line ≠ [])
    (hheader : parseHashlineHeaderLine line cwd = .ok none)
    (hblanks : ∀ blank ∈ blanks, trim blank = []) :
    SameSections (splitSections cwd (before ++ [trimEnd line, abortMarker, []]) [] [])
        (splitSections cwd (before ++ line :: blanks) [] []) ↔
      (∃ l ∈ before ++ line :: blanks, endsSections l = true) ∨
        isPatchEnvelopeMarker line = true ∨ trimEnd line = line := by
  have hleaves := leaves_scanSections hscan
  have habort : endsSections abortMarker = true := by decide
  have hsame := trimEnd_trimEnd line
  rw [splitSections_append, splitSections_append, hscan]
  rcases left with _ | ⟨path, current⟩
  · -- a line before ended the loop
    obtain ⟨l, hl, hends⟩ := hleaves.ended.mp rfl
    exact iff_of_true (sameSections_refl _) (Or.inl ⟨l, mem_append_left _ hl, hends⟩)
  dsimp only
  have hpathNe := hpath path current rfl
  have hcurrentFree : ∀ l ∈ current, LF ∉ l := by
    intro l hl
    rcases hleaves.mem_lines _ _ rfl l hl with hl | hl
    · exact absurd hl not_mem_nil
    · exact hfree l (mem_append_left _ hl)
  have hlineFree : LF ∉ line := hfree line (by simp)
  have hblanksFree : ∀ l ∈ blanks, LF ∉ l := fun l hl => hfree l (by simp [hl])
  cases hends : endsSections line with
  | true =>
    rw [splitSections_cons_ends ((endsSections_congr hsame).trans hends),
      splitSections_cons_ends hends]
    exact iff_of_true (sameSections_refl _) (Or.inl ⟨line, by simp, hends⟩)
  | false =>
    cases hbegins : isPatchEnvelopeMarker line with
    | true =>
      rw [splitSections_cons_marker ((endsSections_congr hsame).trans hends)
          ((isPatchEnvelopeMarker_congr hsame).trans hbegins), splitSections_cons_ends habort,
        splitSections_cons_marker hends hbegins, splitSections_blank hblanks]
      exact iff_of_true (sameSections_blank hpathNe hcurrentFree hblanks hblanksFree)
        (Or.inr (Or.inl rfl))
    | false =>
      have hheader' : parseHashlineHeaderLine (trimEnd line) cwd = .ok none :=
        (parseHashlineHeaderLine_congr hsame).trans hheader
      have hline' : trim (trimEnd line) ≠ [] := by
        rw [Ne, trim_eq_nil_iff_trimEnd, hsame, ← trim_eq_nil_iff_trimEnd]
        exact hline
      have hlineFree' : LF ∉ trimEnd line :=
        fun h => hlineFree ((List.rdropWhile_prefix isWhitespace line).subset h)
      have hnone : ¬ ∃ l ∈ before ++ line :: blanks, endsSections l = true := by
        rintro ⟨l, hl, hl'⟩
        rcases mem_append.mp hl with hl | hl
        · exact absurd (hleaves.ended.mpr ⟨l, hl, hl'⟩) (by simp)
        rcases mem_cons.mp hl with rfl | hl
        · rw [hends] at hl'
          cases hl'
        · rw [(@endsSections_eq_false_of_blank cwd l (hblanks l hl)).1] at hl'
          cases hl'
      rw [splitSections_cons_line ((endsSections_congr hsame).trans hends)
          ((isPatchEnvelopeMarker_congr hsame).trans hbegins) hheader',
        splitSections_cons_ends habort, splitSections_cons_line hends hbegins hheader,
        splitSections_blank hblanks]
      have hmem : trimEnd line ∈ current ++ [trimEnd line] := by simp
      have hmem' : line ∈ current ++ [line] ++ blanks := by simp
      rw [flushSection_of_filled hpathNe hmem hline', flushSection_of_filled hpathNe hmem' hline]
      change SameSections (.ok (sections ++ [_])) (.ok (sections ++ [_])) ↔ _
      rw [sameSections_filled sections path (ne_nil_of_mem hmem) (ne_nil_of_mem hmem'),
        rdropWhile_blank_append hblanks, rdropWhile_blank_filled hline',
        rdropWhile_blank_filled hline, append_cancel_left_eq]
      · rw [singleton_inj, or_iff_right hnone, or_iff_right Bool.false_ne_true]
      · intro l hl
        rcases mem_append.mp hl with hl | hl
        · exact hcurrentFree l hl
        · exact mem_singleton.mp hl ▸ hlineFree'
      · intro l hl
        rcases mem_append.mp hl with hl | hl
        · rcases mem_append.mp hl with hl | hl
          · exact hcurrentFree l hl
          · exact mem_singleton.mp hl ▸ hlineFree
        · exact hblanksFree l hl

end Compare

/-! ## The cut of an input without headers -/

section Cut
variable {options : SplitHashlineOptions} {cwd : JsString}
variable {head : JsString}

/-- The lines of the text before the cut begin the lines of the whole text. -/
theorem splitLines_cut {y tail line : JsString} {before blanks : List JsString}
    (hend : y.getLast? = some LF) (hsplit : splitLines y = before ++ line :: blanks)
    (hline : trim line ≠ []) : ∃ rest, splitLines (y ++ tail) = before ++ line :: rest := by
  obtain ⟨body, rfl⟩ := getLast?_eq_some_iff.mp hend
  have hbody : splitLines (body ++ [LF]) = (lines body).map dropCR ++ [[]] :=
    splitLines_append_LF body []
  rw [hbody] at hsplit
  -- the last piece is empty, so it is one of the blank lines
  obtain ⟨blanks', rfl⟩ : ∃ blanks', blanks = blanks' ++ [[]] := by
    rcases eq_nil_or_concat blanks with rfl | ⟨blanks', last, rfl⟩
    · have := (append_inj' hsplit rfl).2
      rw [← singleton_inj.mp this] at hline
      exact absurd rfl hline
    · rw [concat_eq_append, ← cons_append, ← append_assoc] at hsplit
      have := (append_inj' hsplit rfl).2
      exact ⟨blanks', by rw [concat_eq_append, ← this]⟩
  rw [← cons_append, ← append_assoc] at hsplit
  refine ⟨blanks' ++ splitLines tail, ?_⟩
  rw [append_assoc, singleton_append, splitLines_append_LF,
    (append_inj' hsplit rfl).1, append_assoc, cons_append]

theorem getLast?_take_lineStart {input : JsString} {offset : Nat}
    (hne : lineStart input offset ≠ 0) :
    (input.take (lineStart input offset)).getLast? = some LF := by
  have hprefix : (input.take offset).rdropWhile (· ≠ LF) <+: input :=
    (List.rdropWhile_prefix _ _).trans (List.take_prefix _ _)
  have htake : input.take (lineStart input offset) = (input.take offset).rdropWhile (· ≠ LF) :=
    (prefix_iff_eq_take.mp hprefix).symm
  have hne' : (input.take offset).rdropWhile (· ≠ LF) ≠ [] :=
    ne_nil_of_length_pos (Nat.pos_of_ne_zero hne)
  rw [htake, getLast?_eq_some_getLast hne']
  simpa using rdropWhile_last_not (· ≠ LF) (input.take offset) hne'

theorem trimEnd_cons {u : CodeUnit} {rest : JsString} (h : trimEnd rest ≠ []) :
    trimEnd (u :: rest) = u :: trimEnd rest := by
  have hne : rest.reverse.dropWhile isWhitespace ≠ [] := by
    intro hnil
    refine h ?_
    rw [trimEnd, rdropWhile, hnil, reverse_nil]
  rw [trimEnd, rdropWhile, reverse_cons, dropWhile_append,
    if_neg (by simpa using hne), reverse_append]
  rfl

/-- A byte order mark before a cut is before all three texts. -/
theorem dropByteOrderMark_cut (hend : head.getLast? = some LF) (hfilled : trim head ≠ []) :
    ∃ head', head'.getLast? = some LF ∧ trim head' ≠ [] ∧
      (∀ tail, dropByteOrderMark (head ++ tail) = head' ++ tail) ∧
      ∀ sentinel, dropByteOrderMark (trimEnd head ++ sentinel) = trimEnd head' ++ sentinel := by
  obtain ⟨u, rest, rfl⟩ : ∃ u rest, head = u :: rest := by
    cases head with
    | nil => cases hend
    | cons u rest => exact ⟨u, rest, rfl⟩
  by_cases hu : u = 0xfeff
  · subst hu
    have hrest : trim rest ≠ [] := by
      intro hblank
      refine hfilled (trim_eq_nil.mpr ?_)
      rintro v (_ | ⟨_, hv⟩)
      · rfl
      · exact trim_eq_nil.mp hblank v hv
    have hne : rest ≠ [] := by
      rintro rfl
      exact hrest rfl
    have htrim := @trimEnd_cons 0xfeff rest (mt trim_eq_nil_iff_trimEnd.mpr hrest)
    refine ⟨rest, ?_, hrest, fun tail => rfl, fun sentinel => by rw [htrim]; rfl⟩
    rwa [getLast?_cons_of_ne_nil hne] at hend
  · have hother : ∀ x, dropByteOrderMark (u :: x) = u :: x := by
      intro x
      rw [dropByteOrderMark.eq_def]
      split
      · rename_i heq
        exact absurd (cons.inj heq).1 hu
      · rfl
    refine ⟨u :: rest, hend, hfilled, fun tail => hother _, fun sentinel => ?_⟩
    obtain ⟨kept, hkept⟩ := rdropWhile_prefix isWhitespace (u :: rest)
    change trimEnd (u :: rest) ++ kept = u :: rest at hkept
    cases htrim : trimEnd (u :: rest) with
    | nil => exact absurd (trim_eq_nil_iff_trimEnd.mpr htrim) hfilled
    | cons v text =>
      rw [htrim] at hkept
      rw [(cons.inj hkept).1, cons_append, hother]

/-- Lines without a header, for a text without its byte order mark. -/
def NoHeader (text : JsString) : Prop :=
  ∀ line ∈ splitLines (dropByteOrderMark text), (trimEnd line).head? ≠ some hlFilePrefix

theorem head?_trimEnd_dropCR {line : JsString} :
    (trimEnd (dropCR line)).head? = (trimEnd line).head? := by
  rw [trimEnd_dropCR]

theorem NoHeader.splitLines {text : JsString} (h : NoHeader text) :
    ∀ line ∈ splitLines text, (trimEnd line).head? ≠ some hlFilePrefix := by
  rw [NoHeader, dropByteOrderMark.eq_def] at h
  split at h
  · rename_i rest
    obtain ⟨l, ls, hlines⟩ := exists_cons_of_ne_nil (lines_ne_nil rest)
    have hsplit : lines (0xfeff :: rest) = (0xfeff :: l) :: ls := by
      rw [lines] at hlines ⊢
      rw [splitOn_cons_eq_if_modifyHead, if_neg (by decide), hlines, modifyHead_cons]
    have hmark : (trimEnd (0xfeff :: l)).head? ≠ some hlFilePrefix :=
      fun hhead => absurd (some.inj (head?_of_head?_trimEnd hhead)) (by decide)
    rw [GajaeCode.splitLines, hlines] at h
    rw [GajaeCode.splitLines, hsplit]
    cases ls with
    | nil => simpa using hmark
    | cons l' ls =>
      intro line hline
      rcases mem_append.mp hline with hline | hline
      · rcases mem_cons.mp hline with rfl | hline
        · rwa [head?_trimEnd_dropCR]
        · exact h line (mem_append_left _ (mem_cons_of_mem _ hline))
      · exact h line (mem_append_right _ (by simpa using hline))
  · exact h

/-- Without headers in the text there are none before the cut. -/
theorem NoHeader.cut {tail : JsString} (hend : head.getLast? = some LF) (hfilled : trim head ≠ [])
    (h : NoHeader (head ++ tail)) : NoHeader head ∧ NoHeader (trimEnd head ++ ABORT_SENTINEL) := by
  obtain ⟨head', hend', hfilled', htext, hclean⟩ := dropByteOrderMark_cut hend hfilled
  have hhead := htext []
  rw [append_nil, append_nil] at hhead
  obtain ⟨before, line, blanks, hblanks, hline, hsplit, hcut⟩ := cut_shape hend' hfilled'
  obtain ⟨rest, hrest⟩ := @splitLines_cut _ tail _ _ _ hend' hsplit hline
  rw [NoHeader, htext, hrest] at h
  have hblank : ∀ l : JsString, trim l = [] → (trimEnd l).head? ≠ some hlFilePrefix := by
    intro l hl
    rw [trim_eq_nil_iff_trimEnd.mp hl]
    simp
  constructor
  · rw [NoHeader, hhead, hsplit]
    intro l hl
    rcases mem_append.mp hl with hl | hl
    · exact h l (mem_append_left _ hl)
    rcases mem_cons.mp hl with rfl | hl
    · exact h l (by simp)
    · exact hblank l (hblanks l hl)
  · rw [NoHeader, hclean, hcut]
    intro l hl
    rcases mem_append.mp hl with hl | hl
    · exact h l (mem_append_left _ hl)
    rcases mem_cons.mp hl with rfl | hl
    · rw [trimEnd_trimEnd]
      exact h line (by simp)
    rcases mem_pair.mp hl with rfl | rfl
    · decide
    · exact hblank [] rfl

theorem not_isOpChar_of_blank {line : JsString} (h : trim line = []) :
    line.head?.any isOpChar = false := by
  cases line with
  | nil => rfl
  | cons u line =>
    have hu := trim_eq_nil.mp h u mem_cons_self
    rw [head?_cons, Option.any_some, ← Bool.not_eq_true, isOpChar]
    intro hop
    simp only [Bool.or_eq_true, beq_iff_eq] at hop
    rcases hop with (rfl | rfl) | rfl <;> exact absurd hu (by decide)

/-- The cut has operations with the sentinel when it has them without. -/
theorem containsRecognizable_cut (hend : head.getLast? = some LF) (hfilled : trim head ≠ []) :
    containsRecognizableHashlineOperations (trimEnd head ++ ABORT_SENTINEL) =
      containsRecognizableHashlineOperations head := by
  obtain ⟨before, line, blanks, hblanks, hline, hsplit, hcut⟩ := cut_shape hend hfilled
  have hsame : (trimEnd line).head? = line.head? := by
    cases htrim : trimEnd line with
    | nil => exact absurd (trim_eq_nil_iff_trimEnd.mpr htrim) hline
    | cons u rest => exact (head?_of_head?_trimEnd (by rw [htrim]; rfl)).symm
  have hnone : (blanks.any fun line => line.head?.any isOpChar) = false := by
    rw [any_eq_false]
    intro blank hblank
    rw [not_isOpChar_of_blank (hblanks blank hblank)]
    simp
  have habort : ([abortMarker, []].any fun line => line.head?.any isOpChar) = false := by decide
  rw [containsRecognizableHashlineOperations, containsRecognizableHashlineOperations, hsplit, hcut,
    any_append, any_append, any_cons, hsame, habort, any_cons, hnone]

theorem lastFilledLine_eq {text line : JsString} {before blanks : List JsString}
    (hsplit : splitLines text = before ++ line :: blanks) (hline : trim line ≠ [])
    (hblanks : ∀ blank ∈ blanks, trim blank = []) : lastFilledLine text = line := by
  have hjoin : before ++ line :: blanks = before ++ [line] ++ blanks := by simp
  rw [lastFilledLine, hsplit, hjoin, rdropWhile_blank_append hblanks, rdropWhile_blank_filled hline,
    getLast?_concat]
  rfl

/-- **The sections of the recovered input.**  For an input that begins with `@`: the recovered
input has the sections of the input before the cut exactly when the cut is clean. -/
theorem sameSections_recovered_iff {head tail : JsString}
    (hAt : (trimStart (head ++ tail)).head? = some AT) (hend : head.getLast? = some LF)
    (hfilled : trim head ≠ [])
    (haccepts : ∃ sections, splitHashlineInputs (head ++ tail) options = .ok sections) :
    SameSections (splitHashlineInputs (trimEnd head ++ ABORT_SENTINEL) options)
        (splitHashlineInputs head options) ↔ CutIsClean options head := by
  obtain ⟨sections, hsections⟩ := haccepts
  rcases splitHashlineInputs_cases hAt with hfallback | ⟨e, he⟩
  swap
  · rw [hsections] at he
    cases he
  obtain ⟨hexplicit, hops, path, hpath, hne, hpathNe⟩ := hfallback
  have hnoHeader : NoHeader (head ++ tail) := hasExplicitHeader_eq_false.mp hexplicit
  obtain ⟨hnoHead, hnoClean⟩ := hnoHeader.cut hend hfilled
  have hAtHead : (trimStart head).head? = some AT := by rwa [head?_trimStart_append hfilled] at hAt
  have htrimmed : trim (trimEnd head) ≠ [] := by
    rw [Ne, trim_eq_nil_iff_trimEnd, trimEnd_trimEnd, ← trim_eq_nil_iff_trimEnd]
    exact hfilled
  have hAtClean : (trimStart (trimEnd head ++ ABORT_SENTINEL)).head? = some AT := by
    obtain ⟨w, hw⟩ := rdropWhile_prefix isWhitespace head
    rw [head?_trimStart_append htrimmed, ← head?_trimStart_append htrimmed w]
    rwa [show trimEnd head ++ w = head from hw]
  have hopsClean := containsRecognizable_cut hend hfilled
  by_cases hopsHead : containsRecognizableHashlineOperations head = true
  swap
  · -- no operation is left: both are refused
    refine iff_of_true ?_ fun h => absurd h hopsHead
    rcases @splitHashlineInputs_cases options _ hAtHead with ⟨-, h, -⟩ | ⟨e, he⟩
    · exact absurd h hopsHead
    rcases @splitHashlineInputs_cases options _ hAtClean with ⟨-, h, -⟩ | ⟨e', he'⟩
    · exact absurd (hopsClean ▸ h) hopsHead
    rw [he, he']
    trivial
  obtain ⟨first, rest, hfirst, hmark⟩ := fallbackLines_eq options
  obtain ⟨hfound, hheader⟩ :=
    splitHashlineInputs_fallback hexplicit hops hpath hne hpathNe hfirst
  obtain ⟨header, hheader⟩ := hheader sections hsections
  have hwhole := hfound header hheader
  have hheadSplit := (splitHashlineInputs_fallback (hasExplicitHeader_eq_false.mpr hnoHead) hopsHead
    hpath hne hpathNe hfirst).1 header hheader
  have hcleanSplit := (splitHashlineInputs_fallback (hasExplicitHeader_eq_false.mpr hnoClean)
    (hopsClean.trans hopsHead) hpath hne hpathNe hfirst).1 header hheader
  obtain ⟨before, line, blanks, hblanks, hline, hsplit, hcut⟩ := cut_shape hend hfilled
  obtain ⟨others, hothers⟩ := @splitLines_cut _ tail _ _ _ hend hsplit hline
  have hlineHeader : parseHashlineHeaderLine line options.cwd = .ok none :=
    parseHashlineHeaderLine_eq_none.mpr (hnoHead.splitLines line (hsplit ▸ by simp))
  -- the loop comes as far as the last line before the cut, since it does so in the whole input
  obtain ⟨closed, left, hscan⟩ : ∃ closed left,
      scanSections options.cwd (fallbackLines options ++ before) [] [] = .ok (closed, left) := by
    rw [hsections, hothers, ← append_assoc, splitSections_append] at hwhole
    cases hscan : scanSections options.cwd (fallbackLines options ++ before) [] [] with
    | error e =>
      rw [hscan] at hwhole
      cases hwhole
    | ok out => exact ⟨out.1, out.2, rfl⟩
  have hopen : ∀ path current, left = some (path, current) → path ≠ [] := by
    intro path' current hleft
    have hends : endsSections first = false := by
      rw [endsSections, Bool.or_eq_false_iff]
      constructor <;> refine decide_eq_false fun h => ?_ <;> rw [h] at hmark <;>
        exact absurd hmark (by decide)
    have hbegins : isPatchEnvelopeMarker first = false := by
      rw [isPatchEnvelopeMarker, Bool.or_eq_false_iff]
      constructor <;> refine decide_eq_false fun h => ?_ <;> rw [h] at hmark <;>
        exact absurd hmark (by decide)
    rw [hfirst, cons_append, scanSections, hends, hbegins, if_neg Bool.false_ne_true,
      if_neg Bool.false_ne_true, hheader] at hscan
    dsimp only at hscan
    cases hrest : scanSections options.cwd (rest ++ before) header.path [] with
    | error e =>
      rw [hrest] at hscan
      cases hscan
    | ok out =>
      rw [hrest] at hscan
      obtain ⟨-, rfl⟩ := Prod.mk.inj (Except.ok.inj hscan)
      exact (leaves_scanSections hrest).path_ne_nil _ _ hleft (path_ne_nil_of_header hheader)
  have hfree : ∀ l ∈ fallbackLines options ++ before ++ line :: blanks, LF ∉ l := by
    intro l hl
    rw [append_assoc, ← hsplit] at hl
    rcases mem_append.mp hl with hl | hl
    · obtain ⟨l', hl', rfl⟩ := mem_map.mp hl
      exact LF_not_mem_dropCR (LF_not_mem_of_mem_lines hl')
    · exact LF_not_mem_of_mem_splitLines hl
  rw [hheadSplit, hcleanSplit, hcut, hsplit, ← append_assoc, ← append_assoc,
    sameSections_cut_iff hscan hopen hfree hline hlineHeader hblanks, CutIsClean,
    splitLines_fallback, hsplit, lastFilledLine_eq hsplit hline hblanks, append_assoc]
  exact ⟨fun h _ => h, fun h => h hopsHead⟩

end Cut

/-! ## Exactly when recovery fits the parser -/

section Messages
variable {N : Type} [JsNumber N]
variable {detection : HarmonyDetection}

theorem exists_block_of_detect {message : AssistantMessage N}
    (h : detectHarmonyLeakInAssistantMessage message = some detection) :
    ∃ i block, detection.contentIndex = some i ∧ message.content[i]? = some block ∧
      detectInBlock i block = some detection := by
  obtain ⟨⟨block, i⟩, hmem, hblock⟩ := exists_of_findSome?_eq_some h
  refine ⟨i, block, ?_, mem_zipIdx_iff_getElem?.mp hmem, hblock⟩
  cases block <;> simp only [detectInBlock, detectHarmonyLeak] at hblock <;> split at hblock <;>
    cases hblock <;> rfl

theorem surface_of_detectInBlock {i : Nat} {id name : JsString} {arguments : JsFields N}
    (h : detectInBlock i (.toolCall id name arguments) = some detection) :
    detection.surface = .toolArg := by
  rw [detectInBlock, detectHarmonyLeak] at h
  dsimp only at h
  split at h
  · cases h
  · cases h
    rfl

/-- **When truncate and resume fits the hashline parser.**  For every edit call whose input the
parser accepts and every leak detected in it on a line after the first one that is not blank:
the call is recovered, with the sections of the input before the contaminated line, exactly when
the input begins with `@` and the cut is clean. -/
theorem recovery_fits_iff (message : AssistantMessage N) (detection : HarmonyDetection)
    (options : SplitHashlineOptions) (contentIndex offset : Nat) (id input : JsString)
    (arguments : JsFields N)
    (hdetect : detectHarmonyLeakInAssistantMessage message = some detection)
    (hindex : detection.contentIndex = some contentIndex)
    (hblock : message.content[contentIndex]? = some (.toolCall id (js "edit") arguments))
    (hinput : getField arguments (js "input") = .string input)
    (hoffset : detection.signals.head?.map (·.start) = some offset)
    (haccepts : ∃ sections, splitHashlineInputs input options = .ok sections)
    (hlater : trim (input.take (lineStart input offset)) ≠ []) :
    (∃ recovered removed clean,
        recoverHarmonyToolCall message detection = some (recovered, removed) ∧
        recovered.content =
          [.toolCall id (js "edit") (setField arguments (js "input") (.string clean))] ∧
        SameSections (splitHashlineInputs clean options)
          (splitHashlineInputs (input.take (lineStart input offset)) options)) ↔
      (trimStart input).head? = some AT ∧
        CutIsClean options (input.take (lineStart input offset)) := by
  have hsurface : detection.surface = .toolArg := by
    obtain ⟨i, block, hi, hblock', hfound⟩ := exists_block_of_detect hdetect
    obtain rfl : i = contentIndex := some.inj (hi.symm.trans hindex)
    obtain rfl := some.inj (hblock'.symm.trans hblock)
    exact surface_of_detectInBlock hfound
  have hstart : lineStart input offset ≠ 0 := by
    intro hzero
    rw [hzero] at hlater
    exact hlater rfl
  have hhead : ¬ (trimEnd (input.take (lineStart input offset))).length = 0 :=
    fun h => hlater (trim_eq_nil_iff_trimEnd.mpr (length_eq_zero_iff.mp h))
  have hrecover : recoverHarmonyToolCall message detection =
      if (trimStart input).head? = some AT then
        some ({ message with
            content := [.toolCall id (js "edit") (setField arguments (js "input")
              (.string (trimEnd (input.take (lineStart input offset)) ++ ABORT_SENTINEL)))]
            providerPayload := .undefined
            stopReason := js "toolUse"
            errorMessage := none }, input.drop (lineStart input offset))
      else none := by
    have hconfig : RECOVERY_REGISTRY (js "edit") =
        some ⟨ABORT_SENTINEL, fun input => (trimStart input).head? == some AT⟩ := if_pos rfl
    have htruncated : truncateAtLineAndAppendSentinel input offset ABORT_SENTINEL =
        some (trimEnd (input.take (lineStart input offset)) ++ ABORT_SENTINEL,
          input.drop (lineStart input offset)) := by
      rw [truncateAtLineAndAppendSentinel, if_neg hstart, if_neg hhead]
    rw [recoverHarmonyToolCall, hsurface, hindex]
    simp only [ne_eq, not_true_eq_false, if_false, Option.bind_eq_bind, Option.bind_some]
    rw [hblock]
    simp only [hconfig, hinput, hoffset, htruncated, Option.bind_some]
    by_cases hAt : (trimStart input).head? = some AT
    · rw [if_pos hAt, hAt]
      rfl
    · rw [if_neg hAt, beq_eq_false_iff_ne.mpr hAt]
      rfl
  have hsplit : input.take (lineStart input offset) ++ input.drop (lineStart input offset) =
      input := take_append_drop _ _
  rw [hrecover]
  by_cases hAt : (trimStart input).head? = some AT
  · rw [if_pos hAt]
    have hiff := @sameSections_recovered_iff options (input.take (lineStart input offset))
      (input.drop (lineStart input offset)) (by rwa [hsplit]) (getLast?_take_lineStart hstart)
      hlater (by rwa [hsplit])
    constructor
    · rintro ⟨recovered, removed, clean, hrecovered, hcontent, hsame⟩
      obtain ⟨rfl, -⟩ := Prod.mk.inj (some.inj hrecovered)
      have hfields := (ContentBlock.toolCall.inj (singleton_inj.mp hcontent)).2.2
      have hclean := congrArg (fun fields => getField fields (js "input")) hfields
      rw [getField_setField, getField_setField, if_pos rfl, if_pos rfl] at hclean
      obtain rfl := JsValue.string.inj hclean
      rw [hiff] at hsame
      exact ⟨hAt, hsame⟩
    · rintro ⟨-, hcut⟩
      rw [← hiff] at hcut
      exact ⟨_, _, _, rfl, rfl, hcut⟩
  · rw [if_neg hAt]
    constructor
    · rintro ⟨_, _, _, h, -⟩
      cases h
    · exact fun h => absurd h.1 hAt

end Messages

def editMessage (input : JsString) : AssistantMessage Nat :=
  ⟨[.toolCall (js "call") (js "edit") [(js "input", .string input)]], .undefined, js "toolUse",
    none⟩

def leakDetection (start stop : Nat) : HarmonyDetection :=
  ⟨.toolArg, some 0, some (js "edit"), some (js "call"), [⟨[.H], start, stop, js "<|start|>"⟩]⟩

/-- An input that begins with `@` and has its path from the options is recovered. -/
theorem recovery_fits_iff_fallback : ∃ recovered removed clean,
      recoverHarmonyToolCall (editMessage (js "@x\n»BOF\ny\n<|start|>")) (leakDetection 10 19) =
        some (recovered, removed) ∧
      recovered.content = [.toolCall (js "call") (js "edit")
        (setField [(js "input", .string (js "@x\n»BOF\ny\n<|start|>"))] (js "input")
          (.string clean))] ∧
      SameSections (splitHashlineInputs clean ⟨js "/w", some (js "a.ts")⟩)
        (splitHashlineInputs ((js "@x\n»BOF\ny\n<|start|>").take
          (lineStart (js "@x\n»BOF\ny\n<|start|>") 10)) ⟨js "/w", some (js "a.ts")⟩) := by
  have haccepts : splitHashlineInputs (js "@x\n»BOF\ny\n<|start|>") ⟨js "/w", some (js "a.ts")⟩ =
      .ok [⟨js "a.ts", js "@x\n»BOF\ny\n<|start|>"⟩] := by decide
  have hclean : trimEnd (lastFilledLine ((js "@x\n»BOF\ny\n<|start|>").take
      (lineStart (js "@x\n»BOF\ny\n<|start|>") 10))) =
      lastFilledLine ((js "@x\n»BOF\ny\n<|start|>").take
        (lineStart (js "@x\n»BOF\ny\n<|start|>") 10)) := by decide
  exact (recovery_fits_iff (editMessage (js "@x\n»BOF\ny\n<|start|>")) (leakDetection 10 19)
    ⟨js "/w", some (js "a.ts")⟩ 0 10 (js "call") (js "@x\n»BOF\ny\n<|start|>")
    [(js "input", .string (js "@x\n»BOF\ny\n<|start|>"))] (by decide) rfl rfl rfl rfl
    ⟨_, haccepts⟩ (by decide)).mpr ⟨rfl, fun _ => Or.inr (Or.inr hclean)⟩

/-- A leak on the last line of an input with a header: nothing is recovered. -/
theorem header_not_recovered :
    detectHarmonyLeakInAssistantMessage (editMessage (js "§a.ts\n»BOF\nx\n<|start|>")) =
        some (leakDetection 13 22) ∧
      splitHashlineInputs (js "§a.ts\n»BOF\nx\n<|start|>") ⟨js "/w", none⟩ =
        .ok [⟨js "a.ts", js "»BOF\nx\n<|start|>"⟩] ∧
      trim ((js "§a.ts\n»BOF\nx\n<|start|>").take
        (lineStart (js "§a.ts\n»BOF\nx\n<|start|>") 13)) ≠ [] ∧
      recoverHarmonyToolCall (editMessage (js "§a.ts\n»BOF\nx\n<|start|>")) (leakDetection 13 22) =
        none := by
  exact ⟨by decide, by decide +kernel, by decide, rfl⟩

end HarmonyLeak
end GajaeCode
