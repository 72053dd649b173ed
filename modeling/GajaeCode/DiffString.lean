import GajaeCode.HashlineEdits

/-! # The numbered diff of an edit

`generateDiffString` of `packages/coding-agent/src/edit/diff.ts` turns line-diff
parts into numbered lines: `+` lines carry the line number in the new text, `-`
lines and context lines the one in the old text, and long stretches of context
are elided.

Whoever reads the diff back knows the shift of a context line only from the `+`
and `-` lines before it.  The invariant is therefore about the output so far:
the generator's two counters differ by exactly the added and removed lines it
has written.
-/
namespace GajaeCode
open JsString List

/-- `DiffLinePart`, as a line diff produces it: no part is added and removed. -/
structure DiffLinePart where
  added : Bool
  removed : Bool
  value : JsString
  notBoth : ¬ (added = true ∧ removed = true)
deriving DecidableEq

theorem notBoth_false_left (b : Bool) : ¬ (false = true ∧ b = true) := by simp

theorem notBoth_false_right (a : Bool) : ¬ (a = true ∧ false = true) := by simp

/-- The values of the parts that are not added. -/
def oldSide (parts : List DiffLinePart) : JsString :=
  parts.flatMap (fun part => if part.added then [] else part.value)

/-- The values of the parts that are not removed. -/
def newSide (parts : List DiffLinePart) : JsString :=
  parts.flatMap (fun part => if part.removed then [] else part.value)

/-- A value that stops between two lines. -/
def EndsLine (value : JsString) : Prop := value = [] ∨ value.getLast? = some LF

/-- **What a line diff returns**: the parts spell both texts, and every part ends
at a line boundary, which is a line feed or the end of the texts it belongs to. -/
structure LineDiff (oldText newText : JsString) (parts : List DiffLinePart) : Prop where
  oldSide_eq : oldSide parts = oldText
  newSide_eq : newSide parts = newText
  boundary : ∀ before part after, parts = before ++ part :: after →
    EndsLine part.value ∨
      ((part.added = false → oldSide after = []) ∧ (part.removed = false → newSide after = []))

/-- `part.value.split("\n")` without the empty last piece. -/
def partLines (value : JsString) : List JsString :=
  if (lines value).getLast? = some [] then (lines value).dropLast else lines value

/-! ## The generator -/

/-- The first character of a diff line. -/
inductive DiffSign where
  | plus
  | minus
  | space
deriving DecidableEq

def DiffSign.unit : DiffSign → CodeUnit
  | .plus => 0x002b
  | .minus => 0x002d
  | .space => 0x0020

/-- One line of the generator's output; an elision stands for context that is
not shown. -/
inductive DiffLine where
  | numbered (sign : DiffSign) (lineNum : Nat) (content : JsString)
  | elision (lineNum : Nat)
deriving DecidableEq

def formatNumberedDiffLine (sign : DiffSign) (lineNum : Nat) (content : JsString) : JsString :=
  sign.unit :: (ofNat lineNum ++ hlBodySep ++ content)

def DiffLine.format : DiffLine → JsString
  | .numbered sign lineNum content => formatNumberedDiffLine sign lineNum content
  | .elision lineNum => formatNumberedDiffLine .space lineNum (js "...")

/-- The local variables of `generateDiffString`. -/
structure DiffState where
  oldLineNum : Nat
  newLineNum : Nat
  lastWasChange : Bool
  firstChangedLine : Option Nat
  output : List DiffLine
deriving DecidableEq

namespace DiffState

/-- Before the first part. -/
def initial : DiffState := ⟨1, 1, false, none, []⟩

variable (s : DiffState)

/-- One `output.push`, and how far it moves the two counters. -/
def push (line : DiffLine) (oldStep newStep : Nat) : DiffState :=
  { s with
    output := s.output ++ [line]
    oldLineNum := s.oldLineNum + oldStep
    newLineNum := s.newLineNum + newStep }

def pushAdded (line : JsString) : DiffState :=
  s.push (.numbered .plus s.newLineNum line) 0 1

def pushRemoved (line : JsString) : DiffState :=
  s.push (.numbered .minus s.oldLineNum line) 1 0

def pushContext (line : JsString) : DiffState :=
  s.push (.numbered .space s.oldLineNum line) 1 1

/-- An elision line in place of `skipped` lines, if there are any. -/
def pushElision (skipped : Nat) : DiffState :=
  if 0 < skipped then s.push (.elision s.oldLineNum) skipped skipped else s

/-- The context that is passed over without a trace. -/
def skip (skipped : Nat) : DiffState :=
  { s with oldLineNum := s.oldLineNum + skipped, newLineNum := s.newLineNum + skipped }

end DiffState

/-- How much of a context part is shown. -/
structure ContextWindow where
  leadingSkip : Nat
  middleSkip : Nat
  trailingSkip : Nat
  linesToShow : List JsString

/-- The choice of the window: context is shown on the sides that face a change. -/
def contextWindow (contextLimit : Nat) (lastWasChange nextPartIsChange : Bool)
    (raw : List JsString) : ContextWindow :=
  if lastWasChange && nextPartIsChange then
    if raw.length > contextLimit * 2 then
      let leadingContext := raw.take contextLimit
      let trailingContext := raw.drop (raw.length - contextLimit)
      ⟨0, raw.length - leadingContext.length - trailingContext.length, 0,
        leadingContext ++ trailingContext⟩
    else ⟨0, 0, 0, raw⟩
  else if nextPartIsChange then
    ⟨raw.length - contextLimit, 0, 0, raw.drop (raw.length - contextLimit)⟩
  else ⟨0, 0, raw.length - contextLimit, raw.take contextLimit⟩

def showWindow (contextLimit : Nat) (w : ContextWindow) (s : DiffState) : DiffState :=
  let s := s.pushElision w.leadingSkip
  let firstChunkLength := if 0 < w.middleSkip then contextLimit else w.linesToShow.length
  let s := (w.linesToShow.take firstChunkLength).foldl DiffState.pushContext s
  let s :=
    if 0 < w.middleSkip then
      (w.linesToShow.drop firstChunkLength).foldl DiffState.pushContext (s.pushElision w.middleSkip)
    else s
  s.pushElision w.trailingSkip

/-- A part that is neither added nor removed.  A negative context width counts
as zero. -/
def showContext (contextLines : Int) (nextPartIsChange : Bool) (raw : List JsString)
    (s : DiffState) : DiffState :=
  let contextLimit := contextLines.toNat
  let s' :=
    if s.lastWasChange || nextPartIsChange then
      showWindow contextLimit (contextWindow contextLimit s.lastWasChange nextPartIsChange raw) s
    else s.skip raw.length
  { s' with lastWasChange := false }

def showChange (part : DiffLinePart) (raw : List JsString) (s : DiffState) : DiffState :=
  let s := { s with firstChangedLine := s.firstChangedLine.or (some s.newLineNum) }
  let s' := raw.foldl (if part.added then DiffState.pushAdded else DiffState.pushRemoved) s
  { s' with lastWasChange := true }

/-- One round of the loop over the parts. -/
def showPart (contextLines : Int) (part : DiffLinePart) (nextPartIsChange : Bool)
    (s : DiffState) : DiffState :=
  if part.added || part.removed then showChange part (partLines part.value) s
  else showContext contextLines nextPartIsChange (partLines part.value) s

/-- Whether the next part exists and is a change. -/
def nextIsChange : List DiffLinePart → Bool
  | [] => false
  | part :: _ => part.added || part.removed

def showParts (contextLines : Int) : List DiffLinePart → DiffState → DiffState
  | [], s => s
  | part :: rest, s =>
      showParts contextLines rest (showPart contextLines part (nextIsChange rest) s)

/-- The output lines, before they are joined. -/
def diffOutput (contextLines : Int) (parts : List DiffLinePart) : List DiffLine :=
  (showParts contextLines parts .initial).output

structure DiffResult where
  diff : JsString
  firstChangedLine : Option Nat
deriving DecidableEq

/-- `generateDiffString`.  The line diff is either the native one or the one of
the `diff` package; it is a parameter. -/
def generateDiffString (diffLines : JsString → JsString → List DiffLinePart)
    (oldContent newContent : JsString) (contextLines : Int) : DiffResult :=
  let parts := diffLines oldContent newContent
  ⟨unlines ((diffOutput contextLines parts).map DiffLine.format),
    (showParts contextLines parts .initial).firstChangedLine⟩

/-- The lines the parts contribute to the new text. -/
def newLines (parts : List DiffLinePart) : List JsString :=
  parts.flatMap (fun part => if part.removed then [] else partLines part.value)

theorem newSide_cons (part : DiffLinePart) (parts : List DiffLinePart) :
    newSide (part :: parts) = (if part.removed then [] else part.value) ++ newSide parts := rfl

theorem newLines_cons (part : DiffLinePart) (parts : List DiffLinePart) : newLines (part :: parts) =
      (if part.removed then [] else partLines part.value) ++ newLines parts := rfl

theorem partLines_nil : partLines [] = [] := rfl

theorem partLines_concat_LF (v : JsString) : partLines (v ++ [LF]) = lines v := by
  have hlines : lines (v ++ [LF]) = lines v ++ [[]] := lines_append_LF v []
  simp [partLines, hlines]

theorem LF_not_mem_of_mem_partLines {value l : JsString} (h : l ∈ partLines value) : LF ∉ l := by
  refine @LF_not_mem_of_mem_lines value l ?_
  unfold partLines at h
  split at h
  · exact mem_of_mem_dropLast h
  · exact h

theorem partLines_prefix_lines (value : JsString) : partLines value <+: lines value := by
  unfold partLines
  split
  · exact List.dropLast_prefix _
  · exact prefix_rfl

/-- A value that ends a line contributes its own lines whatever follows. -/
theorem lines_append_of_endsLine {value : JsString} (h : EndsLine value) (rest : JsString) :
    lines (value ++ rest) = partLines value ++ lines rest := by
  rcases h with rfl | h
  · rfl
  · obtain ⟨v, rfl⟩ := getLast?_eq_some_iff.mp h
    rw [partLines_concat_LF, append_assoc, singleton_append, lines_append_LF]

theorem newLines_of_newSide_eq_nil {parts : List DiffLinePart} (h : newSide parts = []) :
    newLines parts = [] := by
  induction parts with
  | nil => rfl
  | cons part parts ih =>
    rw [newSide_cons, append_eq_nil_iff] at h
    rw [newLines_cons, ih h.2, append_nil]
    cases hr : part.removed with
    | true => rfl
    | false =>
      have hvalue : part.value = [] := by simpa [hr] using h.1
      rw [hvalue]
      rfl

/-- The parts' lines are the lines of the new text, in order and from its start. -/
theorem newLines_prefix {parts : List DiffLinePart}
    (h : ∀ before part after, parts = before ++ part :: after →
      EndsLine part.value ∨ (part.removed = false → newSide after = [])) :
    newLines parts <+: lines (newSide parts) := by
  induction parts with
  | nil => exact List.nil_prefix
  | cons part parts ih =>
    have hrest : newLines parts <+: lines (newSide parts) := by
      apply ih
      intro before part' after hsplit
      exact h (part :: before) part' after (by rw [hsplit]; rfl)
    rw [newSide_cons, newLines_cons]
    cases hr : part.removed with
    | true => simpa using hrest
    | false =>
      rcases h [] part parts rfl with hends | hlast
      · simp only [Bool.false_eq_true, if_false]
        rw [lines_append_of_endsLine hends]
        exact (prefix_append_right_inj _).mpr hrest
      · have hnil := hlast hr
        simp only [Bool.false_eq_true, if_false]
        rw [hnil, newLines_of_newSide_eq_nil hnil, append_nil, append_nil]
        exact partLines_prefix_lines _

theorem LineDiff.newLines_prefix {oldText newText : JsString} {parts : List DiffLinePart}
    (h : LineDiff oldText newText parts) : newLines parts <+: lines newText := by
  rw [← h.newSide_eq]
  apply GajaeCode.newLines_prefix
  intro before part after hsplit
  rcases h.boundary before part after hsplit with hends | ⟨_, hnew⟩
  · exact Or.inl hends
  · exact Or.inr hnew

/-! ## The counters and the output -/

/-- The `+` lines of an output. -/
def addedCount (output : List DiffLine) : Nat :=
  output.countP (fun line => match line with | .numbered .plus _ _ => true | _ => false)

/-- The `-` lines of an output. -/
def removedCount (output : List DiffLine) : Nat :=
  output.countP (fun line => match line with | .numbered .minus _ _ => true | _ => false)

/-- What the anchor of a line must name, given the output before it.  A context
line is numbered in the old text; its line of the new text follows from the
changes shown so far. -/
def Names (newText : List JsString) (before : List DiffLine) : DiffLine → Prop
  | .numbered .plus lineNum content =>
      1 ≤ lineNum ∧ newText[lineNum - 1]? = some content
  | .numbered .space lineNum content =>
      ∃ k, 1 ≤ k ∧ k + removedCount before = lineNum + addedCount before ∧
        newText[k - 1]? = some content
  | _ => True

/-- **The generator's invariant** against the lines of the new text. -/
structure Tracks (newText : List JsString) (s : DiffState) : Prop where
  pos : 1 ≤ s.newLineNum
  shift : s.newLineNum + removedCount s.output = s.oldLineNum + addedCount s.output
  names : ∀ before line, before ++ [line] <+: s.output → Names newText before line
  oneLine : ∀ line ∈ s.output, LF ∉ line.format

theorem LF_not_mem_ofNat (n : Nat) : LF ∉ ofNat n := by
  intro hmem
  have hdigit := isDigit_of_mem_ofNat n LF hmem
  revert hdigit
  decide

theorem LF_not_mem_format {sign : DiffSign} {n : Nat} {content : JsString} (h : LF ∉ content) :
    LF ∉ formatNumberedDiffLine sign n content := by
  have hsign : LF ≠ sign.unit := by cases sign <;> decide
  have hsep : LF ∉ hlBodySep := by decide
  simp [formatNumberedDiffLine, LF_not_mem_ofNat, hsign, hsep, h]

section Tracks
variable {newText : List JsString} {s : DiffState}
variable {raw : List JsString} {line : JsString}

/-- One push keeps the invariant when the line it writes is named rightly. -/
theorem Tracks.push (h : Tracks newText s) {line : DiffLine} {oldStep newStep : Nat}
    (hname : Names newText s.output line) (hline : LF ∉ line.format)
    (hstep : newStep + removedCount [line] = oldStep + addedCount [line]) :
    Tracks newText (s.push line oldStep newStep) := by
  refine ⟨?_, ?_, ?_, ?_⟩
  · exact Nat.le_trans h.pos (Nat.le_add_right _ _)
  · have hshift := h.shift
    simp only [DiffState.push, removedCount, addedCount, countP_append] at hshift hstep ⊢
    omega
  · intro before line' hprefix
    rcases prefix_concat_iff.mp hprefix with heq | hprefix
    · obtain ⟨rfl, heq⟩ := append_inj' heq rfl
      obtain rfl : line' = line := by simpa using heq
      exact hname
    · exact h.names before line' hprefix
  · intro line' hmem
    rcases mem_append.mp hmem with hmem | hmem
    · exact h.oneLine line' hmem
    · obtain rfl := mem_singleton.mp hmem
      exact hline

theorem Tracks.pushElision (h : Tracks newText s) (skipped : Nat) :
    Tracks newText (s.pushElision skipped) := by
  unfold DiffState.pushElision
  split
  · apply h.push
    · trivial
    · exact LF_not_mem_format (by decide)
    · rfl
  · exact h

@[simp] theorem newLineNum_pushElision (skipped : Nat) :
    (s.pushElision skipped).newLineNum = s.newLineNum + skipped := by
  unfold DiffState.pushElision
  split
  · rfl
  · omega

section
variable (h : Tracks newText s) (hline : LF ∉ line)
include h hline

theorem Tracks.pushRemoved : Tracks newText (s.pushRemoved line) :=
  h.push trivial (LF_not_mem_format hline) rfl

theorem Tracks.pushAdded (hnew : newText[s.newLineNum - 1]? = some line) :
    Tracks newText (s.pushAdded line) :=
  h.push ⟨h.pos, hnew⟩ (LF_not_mem_format hline) rfl

theorem Tracks.pushContext (hnew : newText[s.newLineNum - 1]? = some line) :
    Tracks newText (s.pushContext line) :=
  h.push ⟨s.newLineNum, h.pos, h.shift, hnew⟩ (LF_not_mem_format hline) rfl

end

/-- Pushing a run of lines that stand in the new text where the counter points. -/
theorem Tracks.foldl {push : DiffState → JsString → DiffState}
    (hpush : ∀ s line, Tracks newText s → LF ∉ line → newText[s.newLineNum - 1]? = some line →
      Tracks newText (push s line)) (hnum : ∀ s line, (push s line).newLineNum = s.newLineNum + 1)
    (h : Tracks newText s) (hraw : ∀ line ∈ raw, LF ∉ line)
    (hat : raw <+: newText.drop (s.newLineNum - 1)) : Tracks newText (raw.foldl push s) ∧
      (raw.foldl push s).newLineNum = s.newLineNum + raw.length := by
  induction raw generalizing s with
  | nil => exact ⟨h, rfl⟩
  | cons line raw ih =>
    have hpos := h.pos
    obtain ⟨rest, hrest⟩ := hat
    have hhead : newText[s.newLineNum - 1]? = some line := by
      rw [← head?_drop, ← hrest]
      rfl
    have htail : raw <+: newText.drop ((push s line).newLineNum - 1) := by
      refine ⟨rest, ?_⟩
      rw [hnum, show s.newLineNum + 1 - 1 = (s.newLineNum - 1) + 1 by omega, ← drop_drop, ← hrest]
      rfl
    obtain ⟨htracks, hlen⟩ := ih (hpush s line h (hraw line mem_cons_self) hhead)
      (fun l hl => hraw l (mem_cons_of_mem _ hl)) htail
    refine ⟨htracks, ?_⟩
    rw [foldl_cons, hlen, hnum, length_cons]
    omega

theorem Tracks.foldl_pushContext (h : Tracks newText s) (hraw : ∀ line ∈ raw, LF ∉ line)
    (hat : raw <+: newText.drop (s.newLineNum - 1)) :
    Tracks newText (raw.foldl DiffState.pushContext s) ∧
      (raw.foldl DiffState.pushContext s).newLineNum = s.newLineNum + raw.length :=
  Tracks.foldl (fun _ _ h hline hnew => h.pushContext hline hnew) (fun _ _ => rfl) h hraw hat

theorem Tracks.foldl_pushRemoved (h : Tracks newText s) (hraw : ∀ line ∈ raw, LF ∉ line) :
    Tracks newText (raw.foldl DiffState.pushRemoved s) ∧
      (raw.foldl DiffState.pushRemoved s).newLineNum = s.newLineNum := by
  induction raw generalizing s with
  | nil => exact ⟨h, rfl⟩
  | cons line raw ih =>
    exact ih (h.pushRemoved (hraw line mem_cons_self)) (fun l hl => hraw l (mem_cons_of_mem _ hl))

/-- Lines after `k` skipped ones stand `k` further down. -/
theorem drop_prefix_drop {n : Nat} (h : raw <+: newText.drop n) (k : Nat) :
    raw.drop k <+: newText.drop (n + k) := by
  rw [← drop_drop]
  exact h.drop k

section
variable (h : Tracks newText s)
include h

/-- A window whose elisions and lines cover the part keeps the invariant and
moves past the whole part. -/
theorem Tracks.showWindow_contextWindow (hraw : ∀ line ∈ raw, LF ∉ line)
    (hat : raw <+: newText.drop (s.newLineNum - 1)) (contextLimit : Nat) (last next : Bool) :
    Tracks newText (showWindow contextLimit (contextWindow contextLimit last next raw) s) ∧
      (showWindow contextLimit (contextWindow contextLimit last next raw) s).newLineNum =
        s.newLineNum + raw.length := by
  have hpos := h.pos
  have htake : ∀ k, ∀ line ∈ raw.take k, LF ∉ line :=
    fun k line hline => hraw line (mem_of_mem_take hline)
  have hdrop : ∀ k, ∀ line ∈ raw.drop k, LF ∉ line :=
    fun k line hline => hraw line (mem_of_mem_drop hline)
  -- the part's lines from `k` on stand where the counter points after `k` lines
  have hfrom : ∀ t : DiffState, ∀ k, t.newLineNum = s.newLineNum + k →
      raw.drop k <+: newText.drop (t.newLineNum - 1) := by
    intro t k ht
    rw [ht, show s.newLineNum + k - 1 = (s.newLineNum - 1) + k by omega]
    exact drop_prefix_drop hat k
  have hhead : ∀ k, raw.take k <+: newText.drop (s.newLineNum - 1) :=
    fun k => (List.take_prefix k raw).trans hat
  unfold contextWindow
  split
  · split
    · rename_i hlong
      have hlead : (raw.take contextLimit).length = contextLimit := by
        rw [length_take]
        omega
      have htrail : (raw.drop (raw.length - contextLimit)).length = contextLimit := by
        rw [length_drop]
        omega
      have hskip : 0 < raw.length - contextLimit - contextLimit := by omega
      obtain ⟨h₁, n₁⟩ := h.foldl_pushContext (htake contextLimit) (hhead contextLimit)
      have h₂ := h₁.pushElision (raw.length - contextLimit - contextLimit)
      have n₂ : (((raw.take contextLimit).foldl DiffState.pushContext s).pushElision
          (raw.length - contextLimit - contextLimit)).newLineNum =
          s.newLineNum + (raw.length - contextLimit) := by
        rw [newLineNum_pushElision, n₁, hlead]
        omega
      obtain ⟨h₃, n₃⟩ := h₂.foldl_pushContext (hdrop (raw.length - contextLimit)) (hfrom _ _ n₂)
      simp only [showWindow, DiffState.pushElision, Nat.lt_irrefl, if_false, hlead, htrail,
        if_pos hskip, take_left' hlead, drop_left' hlead] at h₃ n₃ n₂ ⊢
      exact ⟨h₃, by omega⟩
    · obtain ⟨h₁, n₁⟩ := h.foldl_pushContext hraw hat
      simp only [showWindow, DiffState.pushElision, Nat.lt_irrefl, if_false, take_length]
      exact ⟨h₁, n₁⟩
  · split
    · have h₁ := h.pushElision (raw.length - contextLimit)
      have n₁ := newLineNum_pushElision (s := s) (raw.length - contextLimit)
      obtain ⟨h₂, n₂⟩ := h₁.foldl_pushContext (hdrop (raw.length - contextLimit)) (hfrom _ _ n₁)
      simp only [showWindow, Nat.lt_irrefl, if_false, take_length]
      refine ⟨h₂.pushElision 0, ?_⟩
      rw [newLineNum_pushElision, n₂, n₁, length_drop]
      omega
    · obtain ⟨h₁, n₁⟩ := h.foldl_pushContext (htake contextLimit) (hhead contextLimit)
      simp only [showWindow, Nat.lt_irrefl, if_false, take_length]
      have hzero : s.pushElision 0 = s := rfl
      rw [hzero]
      refine ⟨h₁.pushElision _, ?_⟩
      rw [newLineNum_pushElision, n₁, length_take]
      omega

theorem Tracks.skip (skipped : Nat) : Tracks newText (s.skip skipped) :=
  ⟨Nat.le_trans h.pos (Nat.le_add_right _ _), by
    have hshift := h.shift
    simp only [DiffState.skip]
    omega, h.names, h.oneLine⟩

theorem Tracks.setFlags (last : Bool) (first : Option Nat) :
    Tracks newText { s with lastWasChange := last, firstChangedLine := first } :=
  ⟨h.pos, h.shift, h.names, h.oneLine⟩

theorem Tracks.showContext (hraw : ∀ line ∈ raw, LF ∉ line)
    (hat : raw <+: newText.drop (s.newLineNum - 1)) (contextLines : Int) (next : Bool) :
    Tracks newText (showContext contextLines next raw s) ∧
      (showContext contextLines next raw s).newLineNum = s.newLineNum + raw.length := by
  unfold GajaeCode.showContext
  split
  · obtain ⟨h₁, n₁⟩ := h.showWindow_contextWindow hraw hat contextLines.toNat s.lastWasChange next
    exact ⟨h₁.setFlags _ _, n₁⟩
  · exact ⟨(h.skip raw.length).setFlags _ _, rfl⟩

theorem Tracks.showChange {part : DiffLinePart} (hchange : part.added = true ∨ part.removed = true)
    (hraw : ∀ line ∈ raw, LF ∉ line)
    (hat : part.removed = false → raw <+: newText.drop (s.newLineNum - 1)) :
    Tracks newText (showChange part raw s) ∧ (showChange part raw s).newLineNum =
      s.newLineNum + if part.removed then 0 else raw.length := by
  have hstart := h.setFlags s.lastWasChange (s.firstChangedLine.or (some s.newLineNum))
  unfold GajaeCode.showChange
  cases hadded : part.added with
  | true =>
    have hremoved : part.removed = false := by
      by_contra hr
      exact part.notBoth ⟨hadded, by simpa using hr⟩
    obtain ⟨h₁, n₁⟩ := Tracks.foldl (fun _ _ h hline hnew => h.pushAdded hline hnew)
      (fun _ _ => rfl) hstart hraw (hat hremoved)
    rw [hremoved]
    exact ⟨h₁.setFlags _ _, n₁⟩
  | false =>
    have hremoved : part.removed = true := by simpa [hadded] using hchange
    obtain ⟨h₁, n₁⟩ := hstart.foldl_pushRemoved hraw
    rw [hremoved]
    exact ⟨h₁.setFlags _ _, n₁⟩

/-- One part keeps the invariant and moves the new counter by the lines it
contributes to the new text. -/
theorem Tracks.showPart (part : DiffLinePart)
    (hat : part.removed = false → partLines part.value <+: newText.drop (s.newLineNum - 1))
    (contextLines : Int) (next : Bool) : Tracks newText (showPart contextLines part next s) ∧
      (showPart contextLines part next s).newLineNum =
        s.newLineNum + if part.removed then 0 else (partLines part.value).length := by
  have hraw : ∀ line ∈ partLines part.value, LF ∉ line :=
    fun line hline => LF_not_mem_of_mem_partLines hline
  unfold GajaeCode.showPart
  split
  · rename_i hchange
    exact h.showChange (by simpa using hchange) hraw hat
  · rename_i hchange
    have hremoved : part.removed = false := by
      simp only [Bool.or_eq_true, not_or, Bool.not_eq_true] at hchange
      exact hchange.2
    rw [hremoved]
    exact h.showContext hraw (hat hremoved) contextLines next

/-- The whole loop keeps the invariant, if the parts' lines stand in the new text
from the counter on. -/
theorem Tracks.showParts {parts : List DiffLinePart}
    (hat : newLines parts <+: newText.drop (s.newLineNum - 1)) (contextLines : Int) :
    Tracks newText (showParts contextLines parts s) := by
  induction parts generalizing s with
  | nil => exact h
  | cons part parts ih =>
    have hpos := h.pos
    rw [newLines_cons] at hat
    obtain ⟨htracks, hnum⟩ := h.showPart part (fun hr => by
        rw [hr] at hat
        exact (prefix_append _ _).trans hat) contextLines (nextIsChange parts)
    refine ih htracks ?_
    rw [hnum]
    cases hr : part.removed with
    | true => simpa [hr] using hat
    | false =>
      have hdrop := drop_prefix_drop hat (partLines part.value).length
      rw [hr] at hdrop
      simp only [Bool.false_eq_true, if_false, drop_left] at hdrop ⊢
      rwa [show s.newLineNum + (partLines part.value).length - 1 =
        s.newLineNum - 1 + (partLines part.value).length by omega]

end

theorem tracks_initial : Tracks newText .initial :=
  ⟨Nat.le_refl 1, rfl, fun before line h => by
    have hlen := h.length_le
    simp [DiffState.initial] at hlen, fun line h => by simp [DiffState.initial] at h⟩

end Tracks

end GajaeCode
