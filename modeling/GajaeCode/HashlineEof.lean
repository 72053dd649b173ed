import GajaeCode.HashlineSurvivors

/-! # Inserts at the end of the file

A file that ends with a newline has an empty last line, and an insert at the end
goes before it.  `insertAtEnd` looks for that line in the array the other edits have
already changed.  It is right while the line is still there and something stands
before it (`KeepsEnd`); when the rest of the file is deleted it takes the empty line
for an empty file, and when the last other line is blank it takes that for the
trailing newline.

Texts that repeat the end of the file may be dropped before (`textsAt_absorbed`); those
asked for are then at the end only if what they repeat still stands there.
-/
namespace GajaeCode
open JsString List

/-- A text ends with a newline when its last line is empty and not its only one. -/
theorem getLast?_eq_LF_iff {text : JsString} :
    text.getLast? = some LF ↔ ∃ body, body ≠ [] ∧ lines text = body ++ [[]] := by
  rcases eq_nil_or_concat text with rfl | ⟨init, u, rfl⟩
  · refine ⟨fun h => absurd h (by simp), ?_⟩
    rintro ⟨body, hne, hlines⟩
    have := congrArg length hlines
    rw [length_append, show lines [] = [[]] from rfl] at this
    exact absurd (length_eq_zero_iff.mp (by simpa using this)) hne
  · rw [concat_eq_append, getLast?_concat, Option.some.injEq]
    constructor
    · rintro rfl
      exact ⟨lines init, lines_ne_nil init, lines_append_LF init []⟩
    · rintro ⟨body, hne, hlines⟩
      have htext := unlines_lines (init ++ [u])
      obtain ⟨front, last, rfl⟩ := (eq_nil_or_concat body).resolve_left hne
      have hsplit : lines (unlines (front.concat last) ++ [LF]) = lines (init ++ [u]) := by
        rw [lines_append_LF, hlines, lines_unlines hne, show lines [] = [[]] from rfl]
        intro l hl
        exact LF_not_mem_of_mem_lines (hlines ▸ mem_append_left _ hl)
      have := congrArg unlines hsplit
      rw [unlines_lines, unlines_lines] at this
      exact (append_inj_right' this rfl |> singleton_inj.mp).symm

/-- A list that may be moved past an element is a repetition of it. -/
theorem eq_of_cons_eq_concat {α : Type} {x y : α} {l : List α} (h : x :: l = l ++ [y]) :
    ∀ z ∈ l, z = y := by
  induction l generalizing x with
  | nil => simp
  | cons z l ih =>
    have htail : z :: l = l ++ [y] := (List.cons.inj h).2
    have hall := ih htail
    have hlast : z = y := by
      cases l with
      | nil => exact singleton_inj.mp htail
      | cons w l =>
        rw [(List.cons.inj htail).1]
        exact hall w mem_cons_self
    rintro w (_ | ⟨_, hw⟩)
    · exact hlast
    · exact hall w hw

section Spec
variable (edits : List HashlineEdit) (fileLines : List JsString)

/-- The lines inserted at the end, in batch order. -/
def endLines (lineCount : Nat) : List JsString :=
  (edits.filterMap (endText? lineCount)).flatMap lines

def editedLines : List JsString := simultaneous (insertedAt edits) (deletedIn edits) fileLines

/-- The lines of the output before those inserted at the end, in a file whose last
line is the empty one after the final newline: every other line of the edited
file. -/
def otherLines : List JsString :=
  (edits.filterMap bofText? ++
    simultaneous (insertedAt edits)
      (fun line => line == fileLines.length || deletedIn edits line) fileLines).flatMap lines

/-- No edit is anchored at the last line. -/
def AvoidsLastLine : Prop :=
  ∀ edit ∈ edits, ∀ anchor ∈ getHashlineEditAnchors edit, anchor.line ≠ fileLines.length

/-- What the end of the output is to be: a file with a final newline keeps it, with
the lines inserted at the end after all other lines of the edited file; without one
the lines inserted at the end are the last. -/
def EndsAsAsked (text : JsString) (edits absorbed : List HashlineEdit) (output : JsString) : Prop :=
  (text.getLast? = some LF → AvoidsLastLine edits (lines text) →
      output.getLast? = some LF ∧
        lines output = otherLines absorbed (lines text) ++
          endLines edits (lines text).length ++ [[]]) ∧
    (text.getLast? ≠ some LF →
      ∃ before, lines output = before ++ endLines edits (lines text).length)

/-- The file as the texts `eof` meet it. -/
def beforeEnd (absorbed : List HashlineEdit) (fileLines : List JsString) : List JsString :=
  insertAtStart (editedLines absorbed fileLines) (absorbed.filterMap bofText?)

/-- The lines that stand before the texts inserted at the end; one blank line is
replaced by them. -/
def standing (others eof : List JsString) : List JsString :=
  if eof = [] then lines (unlines others)
  else if others = [[]] then [] else others.flatMap lines

/-- A blank line that is last is not taken for the trailing newline, or it makes no
difference: it is the only line, or only blank lines are inserted. -/
def GuessesRight (others eof : List JsString) : Prop :=
  others = [[]] ∨ others.getLast? ≠ some [] ∨ ∀ l ∈ eof.flatMap lines, l = []

/-- When the end is as asked.  With a final newline: the empty last line is not
absorbed into a replacement and is not all that is left of the file, and no text is
dropped.  Without: texts that are dropped stand before those that are kept, and the
guess at the end is right. -/
def KeepsEnd (text : JsString) (edits absorbed : List HashlineEdit) : Prop :=
  (text.getLast? = some LF → AvoidsLastLine edits (lines text) →
      deletedIn absorbed (lines text).length = false ∧ editedLines absorbed (lines text) ≠ [[]] ∧
        endLines absorbed (lines text).length = endLines edits (lines text).length) ∧
    (text.getLast? ≠ some LF →
      let eof := absorbed.filterMap (endText? (lines text).length)
      endLines edits (lines text).length <:+
          standing (beforeEnd absorbed (lines text)) eof ++ eof.flatMap lines ∧
        GuessesRight (beforeEnd absorbed (lines text)) eof)

end Spec

section Edited
variable {xxHash32 : List UInt8 → UInt32} {edits : List HashlineEdit} {fileLines : List JsString}

/-- Inside the file an insert after a line is an insert before the next. -/
theorem insertedBefore_map_normalizeCursor {line : Nat} (hline : line ≤ fileLines.length) :
    insertedBefore (edits.map (normalizeCursor xxHash32 fileLines)) line =
      insertedAt edits line := by
  rw [insertedBefore, filterMap_map, insertedAt]
  refine filterMap_congr fun edit _ => ?_
  cases edit with
  | delete anchor lineNum index => rfl
  | insert cursor text lineNum index =>
    cases cursor with
    | afterAnchor anchor =>
      by_cases hlast : anchor.line ≥ fileLines.length
      · have hne : ¬ anchor.line + 1 = line := by omega
        simp [normalizeCursor, hlast, insertedBefore?, insertedAt?, hne]
      · simp [normalizeCursor, hlast, insertedBefore?, insertedAt?]
    | _ => rfl

theorem simultaneous_congr {inserted inserted' : Nat → List JsString}
    {deleted deleted' : Nat → Bool} (h : ∀ line, 1 ≤ line → line ≤ fileLines.length →
      inserted line = inserted' line ∧ deleted line = deleted' line) :
    simultaneous inserted deleted fileLines = simultaneous inserted' deleted' fileLines := by
  rw [simultaneous_eq, simultaneous_eq]
  refine flatMap_congr fun line hline => ?_
  obtain ⟨hpos, hlt⟩ := mem_range'_1.mp hline
  obtain ⟨hinserted, hdeleted⟩ := h line hpos (by omega)
  rw [hinserted, hdeleted]

theorem simultaneous_concat (inserted : Nat → List JsString) (deleted : Nat → Bool)
    (init : List JsString) (last : JsString) : simultaneous inserted deleted (init ++ [last]) =
      simultaneous inserted deleted init ++ inserted (init.length + 1) ++
        if deleted (init.length + 1) then [] else [last] := by
  rw [simultaneous, zipIdx_append, flatMap_append, ← simultaneous, append_assoc]
  simp

section
variable
    (hvalid : AnchorsValid xxHash32 edits fileLines)
include hvalid

theorem applyAnchored_edited :
    (applyAnchored fileLines (edits.map (normalizeCursor xxHash32 fileLines))).fileLines =
      editedLines edits fileLines := by
  rw [applyAnchored_fileLines (inFile_normalizeCursor hvalid), editedLines,
    funext (deletedIn_normalizeCursor edits)]
  exact simultaneous_congr fun line _ hline => ⟨insertedBefore_map_normalizeCursor hline, rfl⟩

theorem applyNormalized_edited :
    (applyNormalized fileLines (edits.map (normalizeCursor xxHash32 fileLines))).fileLines =
      (insertAtEnd (insertAtStart (editedLines edits fileLines) (edits.filterMap bofText?))
        (edits.filterMap (endText? fileLines.length))).1 := by
  have hbof : (edits.map (normalizeCursor xxHash32 fileLines)).filterMap bofText? =
      edits.filterMap bofText? := by
    rw [filterMap_map]
    exact filterMap_congr fun edit _ => bofText?_normalizeCursor_eq edit
  have heof : (edits.map (normalizeCursor xxHash32 fileLines)).filterMap eofText? =
      edits.filterMap (endText? fileLines.length) := by
    rw [filterMap_map]
    exact filterMap_congr fun edit _ => eofText?_normalizeCursor edit
  unfold applyNormalized
  dsimp only
  rw [applyAnchored_edited hvalid, hbof, heof]

end

end Edited

/-! ## Where the lines at the end go -/

section End
variable {xs ls : List JsString}

theorem insertAtStart_nil (xs : List JsString) : insertAtStart xs [] = xs := rfl

theorem insertAtEnd_nil (xs : List JsString) : insertAtEnd xs [] = (xs, none) := rfl

theorem insertAtStart_of_ne (hxs : xs ≠ [[]]) : insertAtStart xs ls = ls ++ xs := by
  by_cases hls : ls = []
  · rw [hls, insertAtStart_nil, nil_append]
  · rw [insertAtStart, if_neg (mt length_eq_zero_iff.mp hls), if_neg hxs]

theorem insertAtStart_blank : insertAtStart [[]] ls = if ls = [] then [[]] else ls := by
  by_cases hls : ls = []
  · rw [hls, insertAtStart_nil, if_pos rfl]
  · rw [insertAtStart, if_neg (mt length_eq_zero_iff.mp hls), if_pos rfl, if_neg hls]

theorem insertAtEnd_blank : (insertAtEnd [[]] ls).1 = if ls = [] then [[]] else ls := by
  by_cases hls : ls = []
  · rw [hls, insertAtEnd_nil, if_pos rfl]
  · rw [insertAtEnd, if_neg (mt length_eq_zero_iff.mp hls), if_pos rfl, if_neg hls]

/-- The empty last line stays behind what is inserted, if something stands before
it. -/
theorem insertAtEnd_concat (hxs : xs ≠ []) :
    (insertAtEnd (xs ++ [[]]) ls).1 = xs ++ ls ++ [[]] := by
  by_cases hls : ls = []
  · rw [hls, insertAtEnd_nil, append_nil]
  · have hne : xs ++ [[]] ≠ [[]] := fun h => hxs (append_left_eq_self.mp h)
    rw [insertAtEnd, if_neg (mt length_eq_zero_iff.mp hls), if_neg hne]
    simp

theorem insertAtEnd_of_getLast? (hxs : xs.getLast? ≠ some []) :
    (insertAtEnd xs ls).1 = xs ++ ls := by
  by_cases hls : ls = []
  · rw [hls, insertAtEnd_nil, append_nil]
  · have hne : xs ≠ [[]] := by
      rintro rfl
      exact hxs rfl
    have hbeq : (xs.getLast? == some []) = false := beq_eq_false_iff_ne.mpr hxs
    rw [insertAtEnd, if_neg (mt length_eq_zero_iff.mp hls), if_neg hne, hbeq]
    simp

/-- Inserting adds no line of its own, whichever guess is made. -/
theorem length_insertAtEnd_le (xs ls : List JsString) :
    ((insertAtEnd xs ls).1.flatMap lines).length ≤
      (xs.flatMap lines).length + (ls.flatMap lines).length := by
  by_cases hlast : xs.getLast? = some []
  · obtain ⟨init, rfl⟩ := getLast?_eq_some_iff.mp hlast
    by_cases hinit : init = []
    · rw [hinit, nil_append, insertAtEnd_blank]
      split <;> simp_all
    · rw [insertAtEnd_concat hinit]
      simp only [flatMap_append, length_append]
      omega
  · rw [insertAtEnd_of_getLast? hlast, flatMap_append, length_append]

theorem length_insertAtStart_le (xs ls : List JsString) :
    ((insertAtStart xs ls).flatMap lines).length ≤
      (ls.flatMap lines).length + (xs.flatMap lines).length := by
  by_cases hxs : xs = [[]]
  · rw [hxs, insertAtStart_blank]
    split <;> simp_all
  · rw [insertAtStart_of_ne hxs, flatMap_append, length_append]

theorem lines_insertAtEnd_kept {kept : List JsString} (bof eof : List JsString)
    (hne : kept ++ [[]] ≠ [[]]) :
    lines (unlines (insertAtEnd (insertAtStart (kept ++ [[]]) bof) eof).1) =
      (bof ++ kept).flatMap lines ++ eof.flatMap lines ++ [[]] := by
  have hbefore : bof ++ kept ≠ [] := by
    intro h
    rw [(append_eq_nil_iff.mp h).2] at hne
    exact hne rfl
  rw [insertAtStart_of_ne hne, ← append_assoc, insertAtEnd_concat hbefore,
    lines_unlines_flatMap (by simp), flatMap_append, flatMap_append]
  rfl

/-- An empty last line that is absorbed, or is all that is left, makes no line of its own at the
start; -/
theorem length_before_le {kept : List JsString} {absorbed : Bool} (bof : List JsString)
    (hlost : absorbed = true ∨ kept = []) :
    ((insertAtStart (kept ++ if absorbed then [] else [[]]) bof).flatMap lines).length ≤
        ((bof ++ kept).flatMap lines).length ∨
      insertAtStart (kept ++ if absorbed then [] else [[]]) bof = [[]] := by
  cases absorbed with
  | true =>
    rw [if_pos rfl, append_nil, flatMap_append, length_append]
    exact .inl (length_insertAtStart_le kept bof)
  | false =>
    obtain rfl := hlost.resolve_left Bool.false_ne_true
    rw [if_neg Bool.false_ne_true, nil_append, insertAtStart_blank]
    split
    · exact .inr rfl
    · left
      simp

/-- nor does it in the output, which has one line at least. -/
theorem length_output_le {xs : List JsString} {n : Nat} (eof : List JsString)
    (hxs : (xs.flatMap lines).length ≤ n ∨ xs = [[]]) :
    (lines (unlines (insertAtEnd xs eof).1)).length ≤ max 1 (n + (eof.flatMap lines).length) := by
  by_cases harray : (insertAtEnd xs eof).1 = []
  · rw [harray]
    exact le_max_left _ _
  · have hend := length_insertAtEnd_le xs eof
    rw [lines_unlines_flatMap harray]
    rcases hxs with hroom | rfl
    · omega
    · rw [insertAtEnd_blank]
      split
      · exact le_max_left _ _
      · omega

/-- **With a final newline**: `kept` are the other lines, and the empty last line
is there unless it was absorbed.  There is room for the lines asked for only if
that is still there and none of them was dropped. -/
theorem newline_kept_iff (kept bof eof asked : List JsString) (absorbed : Bool)
    (hle : (eof.flatMap lines).length ≤ asked.length) :
    (unlines (insertAtEnd (insertAtStart (kept ++ if absorbed then [] else [[]]) bof)
          eof).1).getLast? = some LF ∧
        lines (unlines (insertAtEnd (insertAtStart (kept ++ if absorbed then [] else [[]]) bof)
            eof).1) = (bof ++ kept).flatMap lines ++ asked ++ [[]] ↔
      absorbed = false ∧ (kept ++ if absorbed then [] else [[]]) ≠ [[]] ∧
        eof.flatMap lines = asked := by
  constructor
  · rintro ⟨hlast, hlines⟩
    have hne : (bof ++ kept).flatMap lines ++ asked ≠ [] := by
      obtain ⟨body, hbody, hbodyLines⟩ := getLast?_eq_LF_iff.mp hlast
      rw [hlines] at hbodyLines
      exact (append_inj_left' hbodyLines rfl) ▸ hbody
    have hthere : absorbed = false ∧ (kept ++ if absorbed then [] else [[]]) ≠ [[]] := by
      by_contra hnot
      have hlost : absorbed = true ∨ kept = [] := by
        cases absorbed with
        | true => exact .inl rfl
        | false =>
          by_contra hkept
          exact hnot ⟨rfl, by simpa using hkept⟩
      have hroom := length_output_le eof (length_before_le bof hlost)
      have hpos := length_pos_of_ne_nil hne
      rw [hlines, length_append, length_append, length_singleton] at hroom
      rw [length_append] at hpos
      omega
    obtain ⟨rfl, hblank⟩ := hthere
    refine ⟨rfl, hblank, ?_⟩
    rw [if_neg Bool.false_ne_true] at hblank hlines
    rw [lines_insertAtEnd_kept bof eof hblank, append_cancel_right_eq,
      append_cancel_left_eq] at hlines
    exact hlines
  · rintro ⟨rfl, hne, rfl⟩
    rw [if_neg Bool.false_ne_true] at hne ⊢
    have hlines := lines_insertAtEnd_kept bof eof hne
    have hkept : kept ≠ [] := by
      rintro rfl
      exact hne rfl
    refine ⟨getLast?_eq_LF_iff.mpr ⟨_, ?_, hlines⟩, hlines⟩
    obtain ⟨l, hl⟩ := exists_mem_of_ne_nil _ hkept
    obtain ⟨l', hl'⟩ := exists_mem_of_ne_nil _ (lines_ne_nil l)
    exact ne_nil_of_mem
      (mem_append_left _ (mem_flatMap.mpr ⟨l, mem_append_right _ hl, hl'⟩))

/-- The lines of the output when the guess is right. -/
theorem lines_insertAtEnd {others eof : List JsString} (hguess : GuessesRight others eof) :
    lines (unlines (insertAtEnd others eof).1) = standing others eof ++ eof.flatMap lines := by
  by_cases heof : eof = []
  · rw [heof, insertAtEnd_nil, standing, if_pos rfl, flatMap_nil, append_nil]
  rw [standing, if_neg heof]
  by_cases hothers : others = [[]]
  · rw [hothers, insertAtEnd_blank, if_neg heof, if_pos rfl, lines_unlines_flatMap heof, nil_append]
  rw [if_neg hothers]
  by_cases hlast : others.getLast? = some []
  · obtain ⟨init, rfl⟩ := getLast?_eq_some_iff.mp hlast
    have hinit : init ≠ [] := by
      rintro rfl
      exact hothers rfl
    have hall := (hguess.resolve_left hothers).resolve_left (not_not_intro hlast)
    have hblank : ([[]] : List JsString).flatMap lines = [[]] := rfl
    rw [insertAtEnd_concat hinit, lines_unlines_flatMap (by simp), flatMap_append,
      flatMap_append, flatMap_append, hblank, append_assoc, append_assoc,
      eq_replicate_of_mem hall, ← replicate_succ', singleton_append, replicate_succ]
  · rw [insertAtEnd_of_getLast? hlast, lines_unlines_flatMap (by simp [heof]), flatMap_append]

/-- **Without a final newline**: the lines asked for are last if what was dropped
stands there and the guess is right.  This is needed unless a wrong guess and a drop
come together. -/
theorem last_lines_iff (others eof asked : List JsString) :
    (asked <:+ standing others eof ++ eof.flatMap lines ∧ GuessesRight others eof →
      ∃ before, lines (unlines (insertAtEnd others eof).1) = before ++ asked) ∧
    (GuessesRight others eof ∨ eof.flatMap lines = asked →
      (∃ before, lines (unlines (insertAtEnd others eof).1) = before ++ asked) →
        asked <:+ standing others eof ++ eof.flatMap lines ∧ GuessesRight others eof) := by
  constructor
  · rintro ⟨⟨before, hbefore⟩, hguess⟩
    exact ⟨before, by rw [lines_insertAtEnd hguess, hbefore]⟩
  · rintro hcan ⟨before, hbefore⟩
    by_cases hguess : GuessesRight others eof
    · rw [lines_insertAtEnd hguess] at hbefore
      exact ⟨⟨before, hbefore.symm⟩, hguess⟩
    · -- a blank line behind the lines asked for: they are all blank
      obtain rfl := hcan.resolve_left hguess
      simp only [GuessesRight, not_or, not_not] at hguess
      obtain ⟨hothers, hblank, hsome⟩ := hguess
      obtain ⟨init, rfl⟩ := getLast?_eq_some_iff.mp hblank
      have hinit : init ≠ [] := by
        rintro rfl
        exact hothers rfl
      have hone : ([[]] : List JsString).flatMap lines = [[]] := rfl
      rw [insertAtEnd_concat hinit, lines_unlines_flatMap (by simp), flatMap_append,
        flatMap_append, hone, append_assoc] at hbefore
      have hsuffix : eof.flatMap lines <:+ init.flatMap lines ++ (eof.flatMap lines ++ [[]]) :=
        ⟨before, hbefore.symm⟩
      obtain ⟨rest, hrest⟩ := suffix_of_suffix_length_le hsuffix (suffix_append _ _) (by simp)
      obtain ⟨x, rfl⟩ : ∃ x, rest = [x] := by
        rw [← length_eq_one_iff]
        have := congrArg length hrest
        simp only [length_append, length_singleton] at this
        omega
      exact absurd (eq_of_cons_eq_concat hrest) hsome

end End

section Batch
variable {edits : List HashlineEdit} {text : JsString}

theorem editedLines_of_newline {body : List JsString} (hlines : lines text = body ++ [[]]) :
    ∃ kept, editedLines edits (lines text) =
        kept ++ (if deletedIn edits (lines text).length then [] else [[]]) ∧
      otherLines edits (lines text) = (edits.filterMap bofText? ++ kept).flatMap lines := by
  have hlength : (lines text).length = body.length + 1 := by simp [hlines]
  refine ⟨simultaneous (insertedAt edits) (deletedIn edits) body ++
    insertedAt edits (body.length + 1), ?_, ?_⟩
  · rw [editedLines, hlength, hlines, simultaneous_concat]
  · have hbelow : simultaneous (insertedAt edits)
        (fun line => line == body.length + 1 || deletedIn edits line) body =
        simultaneous (insertedAt edits) (deletedIn edits) body := by
      refine simultaneous_congr fun line _ hline => ⟨rfl, ?_⟩
      have hne : (line == body.length + 1) = false := beq_eq_false_iff_ne.mpr (by omega)
      rw [hne, Bool.false_or]
    rw [otherLines, hlength, hlines, simultaneous_concat, hbelow]
    simp

/-- The property of the output, for the array the two ends are spliced into. -/
theorem endsAsAsked_iff {absorbed : List HashlineEdit}
    (hdrops : absorbed.filterMap (endText? (lines text).length) <+
      edits.filterMap (endText? (lines text).length)) :
    let eof := absorbed.filterMap (endText? (lines text).length)
    let output := unlines (insertAtEnd (beforeEnd absorbed (lines text)) eof).1
    (KeepsEnd text edits absorbed → EndsAsAsked text edits absorbed output) ∧
      (text.getLast? = some LF ∨ GuessesRight (beforeEnd absorbed (lines text)) eof ∨
          endLines absorbed (lines text).length = endLines edits (lines text).length →
        EndsAsAsked text edits absorbed output → KeepsEnd text edits absorbed) := by
  dsimp only
  have hnewline (h : text.getLast? = some LF) :
      (unlines (insertAtEnd (beforeEnd absorbed (lines text))
            (absorbed.filterMap (endText? (lines text).length))).1).getLast? = some LF ∧
          lines (unlines (insertAtEnd (beforeEnd absorbed (lines text))
            (absorbed.filterMap (endText? (lines text).length))).1) =
              otherLines absorbed (lines text) ++ endLines edits (lines text).length ++ [[]] ↔
        deletedIn absorbed (lines text).length = false ∧ editedLines absorbed (lines text) ≠ [[]] ∧
          endLines absorbed (lines text).length = endLines edits (lines text).length := by
    obtain ⟨body, -, hlines⟩ := getLast?_eq_LF_iff.mp h
    obtain ⟨kept, hedited, hother⟩ := @editedLines_of_newline absorbed _ _ hlines
    rw [beforeEnd, hedited, hother]
    exact newline_kept_iff kept _ _ _ _ (hdrops.flatMap lines).length_le
  obtain ⟨hends, hkeeps⟩ := last_lines_iff (beforeEnd absorbed (lines text))
    (absorbed.filterMap (endText? (lines text).length)) (endLines edits (lines text).length)
  exact ⟨fun h => ⟨fun hLF havoids => (hnewline hLF).mpr (h.1 hLF havoids),
      fun hLF => hends (h.2 hLF)⟩,
    fun hcan h => ⟨fun hLF havoids => (hnewline hLF).mp (h.1 hLF havoids),
      fun hLF => hkeeps (hcan.resolve_left hLF) (h.2 hLF)⟩⟩

/-- The edits of a batch that deletes line `line` and inserts `X` at the end. -/
def deleteAndAppend (line : Nat) (hash : JsString) : List HashlineEdit :=
  [.delete ⟨line, hash⟩ 1 0, .insert .eof (js "X") 2 1]

end Batch
end GajaeCode
