import GajaeCode.DiffString

/-! # The anchored preview of a diff

`buildCompactHashlineDiffPreview` of `packages/coding-agent/src/hashline/diff-preview.ts`
walks the text `generateDiffString` wrote and gives every shown line an anchor
into the new text.  A follow-up edit uses these anchors, so each must name the
line it shows.
-/
namespace GajaeCode
open JsString List

/-- `Number.parseInt(s, 10)`; `none` is `NaN`. -/
def parseInt (s : JsString) : Option Int :=
  let magnitude (digits : JsString) : Option Int :=
    if (digits.takeWhile isDigit).isEmpty then none else some (parseNat digits)
  match trimStart s with
  | 0x002d :: digits => (magnitude digits).map (- ·)
  | 0x002b :: digits => magnitude digits
  | digits => magnitude digits

/-- What a template literal writes for the result of `parseInt`. -/
def numberText : Option Int → JsString
  | none => js "NaN"
  | some (.ofNat n) => ofNat n
  | some (.negSucc n) => js "-" ++ ofNat (n + 1)

structure CompactHashlineDiffPreview where
  preview : JsString
  addedLines : Nat
  removedLines : Nat
deriving DecidableEq

section Preview
variable (xxHash32 : List UInt8 → UInt32)

/-- `LINE+HASH|TEXT` after a sign. -/
def anchoredLine (sign : DiffSign) (lineNumber : Option Int) (content : JsString) : JsString :=
  sign.unit :: (numberText lineNumber ++
    computeLineHash xxHash32 (lineNumber.elim 0 Int.toNat) content ++ hlBodySep ++ content)

/-- The callback of `lines.map`: the new line, and the two counters after it. -/
def previewLine (addedLines removedLines : Nat) (line : JsString) : JsString × Nat × Nat :=
  match line with
  | [] => (line, addedLines, removedLines)
  | kind :: body =>
      if kind ≠ DiffSign.plus.unit && kind ≠ DiffSign.minus.unit && kind ≠ DiffSign.space.unit then
        (line, addedLines, removedLines)
      else if !body.contains 0x007c then (line, addedLines, removedLines)
      else
        let sep := body.idxOf 0x007c
        let lineNumber := parseInt (body.take sep)
        let content := body.drop (sep + 1)
        if kind = DiffSign.plus.unit then
          (anchoredLine xxHash32 .plus lineNumber content, addedLines + 1, removedLines)
        else if kind = DiffSign.minus.unit then
          (DiffSign.minus.unit :: (numberText lineNumber ++ js "--" ++ hlBodySep ++ content),
            addedLines, removedLines + 1)
        else
          let newLineNumber := lineNumber.map (· + (addedLines : Int) - (removedLines : Int))
          (anchoredLine xxHash32 .space newLineNumber content, addedLines, removedLines)

/-- `lines.map(…)` with the counters threaded through. -/
def previewLines : Nat → Nat → List JsString → List JsString × Nat × Nat
  | addedLines, removedLines, [] => ([], addedLines, removedLines)
  | addedLines, removedLines, line :: rest =>
      let (shown, addedLines, removedLines) := previewLine xxHash32 addedLines removedLines line
      let (shownRest, counts) := previewLines addedLines removedLines rest
      (shown :: shownRest, counts)

def buildCompactHashlineDiffPreview (diff : JsString) : CompactHashlineDiffPreview :=
  let formatted := previewLines xxHash32 0 0 (if diff.isEmpty then [] else lines diff)
  ⟨unlines formatted.1, formatted.2.1, formatted.2.2⟩

end Preview

/-! ## The preview of the output -/

theorem parseInt_ofNat (n : Nat) : parseInt (ofNat n) = some (n : Int) := by
  have hne : ofNat n ≠ [] := by
    intro hnil
    have hval := foldl_digits_ofNat n
    rw [hnil] at hval
    obtain rfl : n = 0 := hval.symm
    exact absurd hnil (by decide)
  obtain ⟨u, rest, hcons⟩ := exists_cons_of_ne_nil hne
  have hu : isDigit u = true := isDigit_of_mem_ofNat n u (hcons ▸ mem_cons_self)
  have hspace : isWhitespace u = false ∧ u ≠ 0x002d ∧ u ≠ 0x002b := by
    simp only [isDigit, Bool.and_eq_true, decide_eq_true_eq, UInt16.le_iff_toNat_le,
      UInt16.reduceToNat] at hu
    refine ⟨?_, ?_, ?_⟩
    · rw [Bool.eq_false_iff]
      intro hw
      simp only [isWhitespace, Bool.or_eq_true, Bool.and_eq_true, beq_iff_eq, decide_eq_true_eq,
        ← UInt16.toNat_inj, UInt16.le_iff_toNat_le, UInt16.reduceToNat] at hw
      omega
    · rintro rfl
      simp at hu
    · rintro rfl
      simp at hu
  have htrim : trimStart (ofNat n) = u :: rest := by
    rw [hcons, trimStart, dropWhile_cons_of_neg (by simp [hspace.1])]
  have hparse : parseNat (u :: rest) = n := by
    have := @parseNat_ofNat_append n [] (by simp)
    rwa [append_nil, hcons] at this
  unfold parseInt
  rw [htrim]
  split
  · rename_i heq
    exact absurd (List.cons.inj heq).1 hspace.2.1
  · rename_i heq
    exact absurd (List.cons.inj heq).1 hspace.2.2
  · simp [hu, hparse]

section Anchors
variable (xxHash32 : List UInt8 → UInt32)
variable {content : JsString} {sign : DiffSign}
variable {output : List DiffLine} {line : DiffLine}

theorem idxOf_sep_format (n : Nat) (content : JsString) :
    (ofNat n ++ hlBodySep ++ content).idxOf 0x007c = (ofNat n).length := by
  have hnot : (0x007c : CodeUnit) ∉ ofNat n := by
    intro hmem
    have hdigit := isDigit_of_mem_ofNat n _ hmem
    revert hdigit
    decide
  rw [append_assoc, idxOf_append_of_notMem hnot, show hlBodySep = [0x007c] from rfl]
  simp

theorem previewLine_format (a r : Nat) (sign : DiffSign) (n : Nat) (content : JsString) :
    previewLine xxHash32 a r (formatNumberedDiffLine sign n content) =
      match sign with
      | .plus => (anchoredLine xxHash32 .plus (some n) content, a + 1, r)
      | .minus =>
          (DiffSign.minus.unit :: (ofNat n ++ js "--" ++ hlBodySep ++ content), a, r + 1)
      | .space => (anchoredLine xxHash32 .space (some (n + a - r)) content, a, r) := by
  have hsep := idxOf_sep_format n content
  have hmem : 0x007c ∈ ofNat n ++ hlBodySep ++ content := by
    simp [hlBodySep, js]
  have hnum : (ofNat n ++ hlBodySep ++ content).take (ofNat n).length = ofNat n := by
    rw [append_assoc, take_left]
  have hcontent : (ofNat n ++ hlBodySep ++ content).drop ((ofNat n).length + 1) = content := by
    rw [drop_append_of_le_length (by simp [hlBodySep, js])]
    simp [hlBodySep, js]
  rw [formatNumberedDiffLine]
  generalize ofNat n ++ hlBodySep ++ content = body at hsep hmem hnum hcontent
  cases sign <;>
    simp [previewLine, DiffSign.unit, hsep, hmem, hnum, hcontent, parseInt_ofNat, numberText]

theorem previewLine_counts (a r : Nat) (line : DiffLine) :
    (previewLine xxHash32 a r line.format).2 =
      (a + addedCount [line], r + removedCount [line]) := by
  cases line with
  | elision n => rw [DiffLine.format, previewLine_format]; rfl
  | numbered sign n content =>
    rw [DiffLine.format, previewLine_format]
    cases sign <;> rfl

theorem previewLines_length (a r : Nat) (ls : List JsString) :
    (previewLines xxHash32 a r ls).1.length = ls.length := by
  induction ls generalizing a r with
  | nil => rfl
  | cons l ls ih => simp [previewLines, ih]

/-- Line `i` of the preview is line `i` of the output, seen with the counts of
the lines before it. -/
theorem previewLines_getElem? (output : List DiffLine) (a r i : Nat) (h : output[i]? = some line) :
    (previewLines xxHash32 a r (output.map DiffLine.format)).1[i]? =
      some (previewLine xxHash32 (a + addedCount (output.take i))
        (r + removedCount (output.take i)) line.format).1 := by
  induction output generalizing a r i with
  | nil => simp at h
  | cons first output ih =>
    have ha := congrArg Prod.fst (previewLine_counts xxHash32 a r first)
    have hr := congrArg Prod.snd (previewLine_counts xxHash32 a r first)
    simp only at ha hr
    cases i with
    | zero =>
      obtain rfl : first = line := by simpa using h
      rfl
    | succ i =>
      rw [getElem?_cons_succ] at h
      simp only [map_cons, previewLines, getElem?_cons_succ, take_succ_cons]
      rw [ih _ _ _ h, ha, hr]
      simp only [addedCount, removedCount, countP_cons, countP_nil]
      congr 3 <;> omega

theorem LF_not_mem_numberText (n : Option Int) : LF ∉ numberText n := by
  match n with
  | none => decide
  | some (.ofNat n) => exact LF_not_mem_ofNat n
  | some (.negSucc n) =>
    have hminus : LF ∉ js "-" := by decide
    simp [numberText, hminus, LF_not_mem_ofNat]

theorem LF_not_mem_computeLineHash (idx : Nat) (line : JsString) :
    LF ∉ computeLineHash xxHash32 idx line := fun h =>
  absurd (letter_of_mem_hlBigrams (computeLineHash_mem xxHash32 idx line) h) (by decide)

theorem LF_not_mem_anchoredLine {n : Option Int} (h : LF ∉ content) :
    LF ∉ anchoredLine xxHash32 sign n content := by
  have hsign : LF ≠ sign.unit := by cases sign <;> decide
  have hsep : LF ∉ hlBodySep := by decide
  simp [anchoredLine, hsign, hsep, h, LF_not_mem_numberText, LF_not_mem_computeLineHash]

theorem LF_not_mem_of_format {n : Nat} (h : LF ∉ formatNumberedDiffLine sign n content) :
    LF ∉ content := by
  intro hmem
  exact h (mem_cons_of_mem _ (mem_append_right _ hmem))

theorem LF_not_mem_previewLine (a r : Nat) (h : LF ∉ line.format) :
    LF ∉ (previewLine xxHash32 a r line.format).1 := by
  cases line with
  | elision n =>
    rw [DiffLine.format, previewLine_format]
    exact LF_not_mem_anchoredLine xxHash32 (by decide)
  | numbered sign n content =>
    have hcontent := LF_not_mem_of_format h
    rw [DiffLine.format, previewLine_format]
    cases sign with
    | plus | space => exact LF_not_mem_anchoredLine xxHash32 hcontent
    | minus =>
      have hsep : LF ∉ hlBodySep := by decide
      have hdash : LF ∉ js "--" := by decide
      have hsign : LF ≠ DiffSign.minus.unit := by decide
      simp [hsep, hdash, hsign, hcontent, LF_not_mem_ofNat]

theorem LF_not_mem_of_mem_previewLines (a r : Nat) (h : ∀ line ∈ output, LF ∉ line.format) :
    ∀ shown ∈ (previewLines xxHash32 a r (output.map DiffLine.format)).1, LF ∉ shown := by
  intro shown hshown
  obtain ⟨i, hi⟩ := getElem?_of_mem hshown
  have hlt : i < output.length := by
    have := (List.getElem?_eq_some_iff.mp hi).1
    rwa [previewLines_length, List.length_map] at this
  have hline := List.getElem?_eq_getElem hlt
  rw [previewLines_getElem? xxHash32 output a r i hline, Option.some.injEq] at hi
  rw [← hi]
  exact LF_not_mem_previewLine xxHash32 _ _ (h _ (getElem_mem hlt))

theorem lines_preview (hne : output ≠ []) (h : ∀ line ∈ output, LF ∉ line.format) :
    lines (buildCompactHashlineDiffPreview xxHash32
      (unlines (output.map DiffLine.format))).preview =
        (previewLines xxHash32 0 0 (output.map DiffLine.format)).1 := by
  have hmap : output.map DiffLine.format ≠ [] := by simpa using hne
  have hlines : lines (unlines (output.map DiffLine.format)) = output.map DiffLine.format := by
    apply lines_unlines hmap
    intro l hl
    obtain ⟨line, hline, rfl⟩ := mem_map.mp hl
    exact h line hline
  have hdiff : (unlines (output.map DiffLine.format)).isEmpty = false := by
    rw [Bool.eq_false_iff]
    intro hempty
    rw [List.isEmpty_iff.mp hempty] at hlines
    obtain ⟨line, rest, rfl⟩ := exists_cons_of_ne_nil hne
    cases line <;> simp [lines, DiffLine.format, formatNumberedDiffLine] at hlines
  rw [buildCompactHashlineDiffPreview, hdiff]
  simp only [Bool.false_eq_true, if_false, hlines]
  apply lines_unlines
  · intro hnil
    have hlen := previewLines_length xxHash32 0 0 (output.map DiffLine.format)
    rw [hnil] at hlen
    exact hmap (length_eq_zero_iff.mp hlen.symm)
  · exact LF_not_mem_of_mem_previewLines xxHash32 0 0 h

/-- An anchor whose content stands at its line is accepted. -/
theorem validateLineRef_of_getElem? {fileLines : List JsString} {k : Nat} (hk : 1 ≤ k)
    (h : fileLines[k - 1]? = some content) (idx : Nat) :
    validateLineRef xxHash32 ⟨k, computeLineHash xxHash32 idx content⟩ fileLines = .ok () := by
  obtain ⟨hlt, hget⟩ := List.getElem?_eq_some_iff.mp h
  refine validateLineRef_eq_ok ⟨hk, by simp only; omega⟩ ?_
  rw [lineAt, List.getD_eq_getElem _ _ hlt, hget]
  rfl

/-- A rightly named `+` or context line is shown with an anchor that holds. -/
theorem previewLine_of_names {newText : List JsString} {before : List DiffLine} {n : Nat}
    (hsign : sign ≠ .minus) (h : Names newText before (.numbered sign n content)) :
    ∃ k hash, (previewLine xxHash32 (0 + addedCount before) (0 + removedCount before)
        (formatNumberedDiffLine sign n content)).1 =
          sign.unit :: (ofNat k ++ hash ++ hlBodySep ++ content) ∧
      1 ≤ k ∧ newText[k - 1]? = some content ∧
      validateLineRef xxHash32 ⟨k, hash⟩ newText = .ok () := by
  rw [previewLine_format]
  cases sign with
  | minus => exact absurd rfl hsign
  | plus =>
    obtain ⟨hpos, hget⟩ := h
    exact ⟨n, _, rfl, hpos, hget, validateLineRef_of_getElem? xxHash32 hpos hget _⟩
  | space =>
    obtain ⟨k, hpos, hshift, hget⟩ := h
    have hk : (n : Int) + ((0 + addedCount before : Nat) : Int) -
        ((0 + removedCount before : Nat) : Int) = (k : Int) := by omega
    simp only [hk]
    exact ⟨k, _, rfl, hpos, hget, validateLineRef_of_getElem? xxHash32 hpos hget _⟩

/-- **Preview anchors are usable.**  For every two texts, every line diff between
them and every context width, each `+` line and each context line of the preview
shows a line of the new text under its own number, and `validateLineRef` accepts
the anchor on the new text.  Line `i` of the preview is line `i` of the diff, so
the generator's elisions are told by their position. -/
theorem preview_anchors_usable (diffLines : JsString → JsString → List DiffLinePart)
    (oldText newText : JsString) (contextLines : Int)
    (h : LineDiff oldText newText (diffLines oldText newText)) (i : Nat) (shown : JsString)
    (hshown : (lines (buildCompactHashlineDiffPreview xxHash32
      (generateDiffString diffLines oldText newText contextLines).diff).preview)[i]? = some shown)
    (hsign : shown.head? = some DiffSign.plus.unit ∨ shown.head? = some DiffSign.space.unit)
    (helision : ∀ n, (diffOutput contextLines (diffLines oldText newText))[i]? ≠
      some (.elision n)) : ∃ sign k hash content,
      shown = DiffSign.unit sign :: (ofNat k ++ hash ++ hlBodySep ++ content) ∧
      1 ≤ k ∧ (lines newText)[k - 1]? = some content ∧
      validateLineRef xxHash32 ⟨k, hash⟩ (lines newText) = .ok () := by
  have htracks : Tracks (lines newText) (showParts contextLines (diffLines oldText newText)
      .initial) := tracks_initial.showParts h.newLines_prefix contextLines
  generalize hout : diffOutput contextLines (diffLines oldText newText) = output at helision
  have houtput : (showParts contextLines (diffLines oldText newText) .initial).output = output :=
    hout
  have hdiff : (generateDiffString diffLines oldText newText contextLines).diff =
      unlines (output.map DiffLine.format) := by
    rw [← hout]
    rfl
  have hone := htracks.oneLine
  rw [houtput] at hone
  rw [hdiff] at hshown
  by_cases hne : output = []
  · subst hne
    have hempty : (lines (buildCompactHashlineDiffPreview xxHash32
      (unlines (([] : List DiffLine).map DiffLine.format))).preview) = [[]] := rfl
    rw [hempty] at hshown
    obtain rfl : shown = [] := by
      cases i with
      | zero => simpa using hshown.symm
      | succ i => simp at hshown
    simp at hsign
  · rw [lines_preview xxHash32 hne hone] at hshown
    have hlt : i < output.length := by
      have := (List.getElem?_eq_some_iff.mp hshown).1
      rwa [previewLines_length, List.length_map] at this
    have hline := List.getElem?_eq_getElem hlt
    rw [previewLines_getElem? xxHash32 output 0 0 i hline, Option.some.injEq] at hshown
    cases hkind : output[i] with
    | elision n => exact absurd (hline.trans (congrArg some hkind)) (helision n)
    | numbered sign n content =>
      have hnames : Names (lines newText) (output.take i) (.numbered sign n content) := by
        apply htracks.names
        rw [houtput, ← hkind, take_concat_get' output i hlt]
        exact List.take_prefix _ _
      rw [hkind, DiffLine.format] at hshown
      have hnot : sign ≠ .minus := by
        rintro rfl
        rw [previewLine_format] at hshown
        subst hshown
        revert hsign
        simp [DiffSign.unit]
      obtain ⟨k, hash, hshape, hpos, hget, hvalid⟩ := previewLine_of_names xxHash32 hnot hnames
      exact ⟨sign, k, hash, content, hshown.symm.trans hshape, hpos, hget, hvalid⟩

end Anchors

theorem boundary_of_endsLine {parts : List DiffLinePart}
    (h : ∀ part ∈ parts.dropLast, EndsLine part.value) (before : List DiffLinePart)
    (part : DiffLinePart) (after : List DiffLinePart) (hsplit : parts = before ++ part :: after) :
    EndsLine part.value ∨
      ((part.added = false → oldSide after = []) ∧ (part.removed = false → newSide after = [])) := by
  cases after with
  | nil => exact Or.inr ⟨fun _ => rfl, fun _ => rfl⟩
  | cons next after =>
    refine Or.inl (h part ?_)
    rw [hsplit, dropLast_append_of_ne_nil (cons_ne_nil _ _), dropLast_cons_cons]
    exact mem_append_right _ mem_cons_self

/-- The parts between `a b c` and `a X Y c`. -/
def sampleParts : List DiffLinePart :=
  [⟨false, false, js "a\n", by decide⟩, ⟨false, true, js "b\n", by decide⟩,
   ⟨true, false, js "X\nY\n", by decide⟩, ⟨false, false, js "c", by decide⟩]

theorem sampleParts_lineDiff : LineDiff (js "a\nb\nc") (js "a\nX\nY\nc") sampleParts := by
  refine ⟨by decide, by decide, boundary_of_endsLine ?_⟩
  unfold EndsLine
  decide

/-- The line after an expansion: it was line 3 and is shown as line 4. -/
theorem preview_anchors_usable_sample : ∃ sign k hash content,
      js " 4ni|c" = DiffSign.unit sign :: (ofNat k ++ hash ++ hlBodySep ++ content) ∧
      1 ≤ k ∧ (lines (js "a\nX\nY\nc"))[k - 1]? = some content ∧
      validateLineRef Xxh32.xxh32 ⟨k, hash⟩ (lines (js "a\nX\nY\nc")) = .ok () := by
  refine preview_anchors_usable Xxh32.xxh32 (fun _ _ => sampleParts) (js "a\nb\nc")
    (js "a\nX\nY\nc") 4 sampleParts_lineDiff 4 (js " 4ni|c") (by decide +kernel) (by decide) ?_
  intro n
  have hline : (diffOutput 4 sampleParts)[4]? = some (.numbered .space 3 (js "c")) := by
    decide
  rw [hline]
  simp

end GajaeCode
