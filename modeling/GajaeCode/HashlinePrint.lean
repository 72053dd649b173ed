import GajaeCode.HashlineJoin

/-! # Printing and parsing operations

The text of a list of operations, as `packages/coding-agent/src/hashline/grammar.lark` has
it: every operation line and every payload line ends with a line feed.  The parser gives the
operations back, one insert for each payload line and one delete for each line of a range.
-/
namespace GajaeCode
open JsString List
variable {lid : Anchor} {line : JsString} {u : CodeUnit}

/-- What an insertion stands before or after. -/
inductive PrintTarget where
  | anchor (lid : Anchor)
  | bof
  | eof
  deriving DecidableEq

/-- `line_op` of the grammar, with the payload. -/
inductive PrintOp where
  | insert (kind : InsertKind) (target : PrintTarget) (payload : List JsString)
  | replace (start finish : Anchor) (payload : List JsString)
  deriving DecidableEq

def printLid (anchor : Anchor) : JsString := ofNat anchor.line ++ anchor.hash

def PrintTarget.print : PrintTarget → JsString
  | anchor lid => printLid lid
  | bof => js "BOF"
  | eof => js "EOF"

def InsertKind.sigil : InsertKind → CodeUnit
  | .before => hlOpInsertBefore
  | .after => hlOpInsertAfter

def PrintOp.payload : PrintOp → List JsString
  | .insert _ _ payload => payload
  | .replace _ _ payload => payload

def PrintOp.head : PrintOp → JsString
  | .insert kind target _ => kind.sigil :: target.print
  | .replace start finish _ =>
      hlOpReplace :: (printLid start ++ 0x002e :: 0x002e :: printLid finish)

def PrintOp.lines (op : PrintOp) : List JsString := op.head :: op.payload

/-- The text of some operations. -/
def printOps (ops : List PrintOp) : JsString :=
  (ops.flatMap PrintOp.lines).flatMap (fun line => line ++ [LF])

/-- An anchor of the grammar: a line from 1 on and two lower-case letters. -/
def IsLid (anchor : Anchor) : Prop := 1 ≤ anchor.line ∧ IsLidHash anchor.hash

/-- A payload line: no line break in it or at its end, no sigil or section mark at its start,
no marker. -/
structure IsPayloadLine (line : JsString) : Prop where
  LF_not_mem : LF ∉ line
  not_CR : line.getLast? ≠ some CR
  not_terminator : isPayloadTerminatorLine line = false

/-- What the grammar asks of an operation, the payload of an insertion included.  The two
ends of a range are in order, and equal when they are one line. -/
def PrintOp.Valid : PrintOp → Prop
  | .insert _ target payload =>
      (∀ lid, target = .anchor lid → IsLid lid) ∧ payload ≠ [] ∧
        ∀ line ∈ payload, IsPayloadLine line
  | .replace start finish payload =>
      IsLid start ∧ IsLid finish ∧ start.line ≤ finish.line ∧
        (start.line = finish.line → start.hash = finish.hash) ∧
        ∀ line ∈ payload, IsPayloadLine line

def PrintTarget.cursor (kind : InsertKind) : PrintTarget → HashlineCursor
  | anchor lid =>
      match kind with
      | .before => .beforeAnchor lid
      | .after => .afterAnchor lid
  | bof => .bof
  | eof => .eof

def payloadInserts (cursor : HashlineCursor) (payload : List JsString) (lineNum index : Nat) :
    List HashlineEdit :=
  payload.mapIdx fun k text => .insert cursor text lineNum (index + k)

/-- One delete for every line of a range; only the ends have hashes of their own. -/
def coveredDeletes (start finish : Anchor) (lineNum index : Nat) : List HashlineEdit :=
  (List.range (finish.line + 1 - start.line)).map fun k =>
    .delete ⟨start.line + k,
      if k = 0 then start.hash
      else if start.line + k = finish.line then finish.hash else rangeInteriorHash⟩
      lineNum (index + k)

/-- The edits of one operation on line `lineNum`, numbered from `index` on. -/
def PrintOp.edits (lineNum index : Nat) : PrintOp → List HashlineEdit
  | .insert kind target payload => payloadInserts (target.cursor kind) payload lineNum index
  | .replace start finish payload =>
      payloadInserts (.beforeAnchor start) payload lineNum index ++
        coveredDeletes start finish lineNum (index + payload.length)

def printedEdits : List PrintOp → (lineNum index : Nat) → List HashlineEdit
  | [], _, _ => []
  | op :: ops, lineNum, index =>
      op.edits lineNum index ++
        printedEdits ops (lineNum + op.lines.length) (index + (op.edits lineNum index).length)

def HashlineEdit.index : HashlineEdit → Nat
  | .insert _ _ _ index => index
  | .delete _ _ index => index

theorem head?_ofNat {n : Nat} (hn : 1 ≤ n) : ∃ d rest, ofNat n = d :: rest ∧ d ≠ 0x0030 := by
  induction n using Nat.strong_induction_on with
  | _ n ih =>
    by_cases hlt : n < 10
    · refine ⟨digitUnit n, [], ofNat_of_lt hlt, ?_⟩
      have hne : ∀ d < 10, 1 ≤ d → digitUnit d ≠ 0x0030 := by decide
      exact hne n hlt hn
    · obtain ⟨d, rest, hd, hne⟩ := ih (n / 10) (by omega) (by omega)
      exact ⟨d, rest ++ [digitUnit (n % 10)], by rw [ofNat_of_ge hlt, hd]; rfl, hne⟩

theorem toNat_bounds_of_isLower (h : isLower u = true) : 97 ≤ u.toNat ∧ u.toNat ≤ 122 := by
  simp only [isLower, Bool.and_eq_true, decide_eq_true_eq, UInt16.le_iff_toNat_le,
    UInt16.reduceToNat] at h
  exact h

theorem toNat_bounds_of_isDigit (h : isDigit u = true) : 48 ≤ u.toNat ∧ u.toNat ≤ 57 := by
  simp only [isDigit, Bool.and_eq_true, decide_eq_true_eq, UInt16.le_iff_toNat_le,
    UInt16.reduceToNat] at h
  exact h

def isLidUnit (u : CodeUnit) : Bool := isDigit u || isLower u

/-- The units of an anchor mean nothing else on an operation line. -/
theorem isLidUnit_spec (h : isLidUnit u = true) :
    isWhitespace u = false ∧ isDecoration u = false ∧ u ≠ 0x007c ∧ u ≠ 0x002e := by
  have hbounds : (48 ≤ u.toNat ∧ u.toNat ≤ 57) ∨ (97 ≤ u.toNat ∧ u.toNat ≤ 122) := by
    rw [isLidUnit, Bool.or_eq_true] at h
    exact h.imp toNat_bounds_of_isDigit toNat_bounds_of_isLower
  have hne : ∀ v : CodeUnit, ¬ ((48 ≤ v.toNat ∧ v.toNat ≤ 57) ∨
      (97 ≤ v.toNat ∧ v.toNat ≤ 122)) → u ≠ v := by
    rintro v hv rfl
    exact hv hbounds
  refine ⟨?_, ?_, hne _ (by decide), hne _ (by decide)⟩
  · rw [Bool.eq_false_iff]
    intro hspace
    simp only [isWhitespace, Bool.or_eq_true, Bool.and_eq_true, decide_eq_true_eq, beq_iff_eq,
      UInt16.le_iff_toNat_le, UInt16.reduceToNat, ← UInt16.toNat_inj] at hspace
    omega
  · simp only [isDecoration, Bool.or_eq_false_iff, beq_eq_false_iff_ne]
    exact ⟨⟨⟨hne _ (by decide), hne _ (by decide)⟩, hne _ (by decide)⟩, hne _ (by decide)⟩

theorem isLidUnit_of_mem_printLid (h : IsLid lid) : ∀ u ∈ printLid lid, isLidUnit u = true := by
  obtain ⟨-, a, b, hhash, ha, hb⟩ := h
  intro u hu
  rw [isLidUnit, Bool.or_eq_true]
  rcases mem_append.mp hu with hu | hu
  · exact .inl (isDigit_of_mem_ofNat _ u hu)
  · rw [hhash] at hu
    rcases mem_cons.mp hu with rfl | hu
    · exact .inr ha
    · exact .inr (mem_singleton.mp hu ▸ hb)

theorem printLid_ne_nil (h : IsLid lid) : printLid lid ≠ [] := by
  obtain ⟨d, rest, hd, -⟩ := head?_ofNat h.1
  rw [printLid, hd]
  exact cons_ne_nil _ _

theorem dropWhile_of_head {p : CodeUnit → Bool} {text : JsString}
    (h : ∀ u ∈ text.head?, p u = false) : text.dropWhile p = text := by
  cases text with
  | nil => rfl
  | cons u text =>
    rw [dropWhile_cons_of_neg]
    rw [h u rfl]
    exact Bool.false_ne_true

theorem isLidUnit_head?_printLid (h : IsLid lid) : ∀ u ∈ (printLid lid).head?, isLidUnit u = true :=
  fun u hu => isLidUnit_of_mem_printLid h u (mem_of_mem_head? hu)

theorem trimStart_printLid (h : IsLid lid) : trimStart (printLid lid) = printLid lid :=
  dropWhile_of_head fun u hu => (isLidUnit_spec (isLidUnit_head?_printLid h u hu)).1

theorem lidCapture_printLid (h : IsLid lid) :
    lidCapture (printLid lid) = some (ofNat lid.line, lid.hash) := by
  obtain ⟨d, rest, hd, hne⟩ := head?_ofNat h.1
  obtain ⟨-, a, b, hhash, ha, hb⟩ := id h
  have hdecoration : (printLid lid).dropWhile isDecoration = printLid lid :=
    dropWhile_of_head fun u hu => (isLidUnit_spec (isLidUnit_head?_printLid h u hu)).2.1
  have hdigit : isDigit a = false := by
    rw [Bool.eq_false_iff]
    intro hdigit
    have := toNat_bounds_of_isDigit hdigit
    have := toNat_bounds_of_isLower ha
    omega
  have htake : (printLid lid).takeWhile isDigit = ofNat lid.line := by
    rw [printLid, hhash, takeWhile_append_of_pos (isDigit_of_mem_ofNat _),
      takeWhile_cons_of_neg (by rw [hdigit]; exact Bool.false_ne_true), append_nil]
  have hdrop : (printLid lid).dropWhile isDigit = [a, b] := by
    rw [printLid, hhash, dropWhile_append_of_pos (isDigit_of_mem_ofNat _),
      dropWhile_cons_of_neg (by rw [hdigit]; exact Bool.false_ne_true)]
  rw [lidCapture, trimStart_printLid h, hdecoration, trimStart_printLid h, htake, hdrop, hd, hhash]
  exact if_pos (by simp [hne, ha, hb, bodyTail])

theorem parseLid_printLid (h : IsLid lid) (lineNum : Nat) :
    parseLid (printLid lid) lineNum = .ok lid := by
  have hnum : parseNat (ofNat lid.line ++ []) = lid.line :=
    parseNat_ofNat_append lid.line fun u hu => nomatch hu
  rw [append_nil] at hnum
  rw [parseLid, lidCapture_printLid h]
  exact congrArg (fun n => Except.ok (Anchor.mk n lid.hash)) hnum

/-! ## Operation lines -/

/-- Two texts without dots, with two dots between them. -/
theorem splitDots_dots {x y : JsString} (hx : ∀ u ∈ x, u ≠ 0x002e) (hy : ∀ u ∈ y, u ≠ 0x002e) :
    splitDots (x ++ 0x002e :: 0x002e :: y) = [x, y] := by
  have hself : splitDots y = [y] := by
    induction y with
    | nil => rfl
    | cons u y ih =>
      rw [forall_mem_cons] at hy
      cases y with
      | nil => rfl
      | cons v y =>
        rw [splitDots, if_neg (by simp [hy.1]), ih hy.2]
        rfl
  induction x with
  | nil => rw [nil_append, splitDots, if_pos (by decide), hself]
  | cons u x ih =>
    rw [forall_mem_cons] at hx
    rw [cons_append]
    cases hrest : x ++ 0x002e :: 0x002e :: y with
    | nil => exact absurd hrest (by simp)
    | cons v rest =>
      rw [splitDots, if_neg (by simp [hx.1]), ← hrest, ih hx.2]
      rfl

theorem parseRange_print {start finish : Anchor} (hstart : IsLid start) (hfinish : IsLid finish)
    (hle : start.line ≤ finish.line)
    (hhash : start.line = finish.line → start.hash = finish.hash) (lineNum : Nat) :
    parseRange (printLid start ++ 0x002e :: 0x002e :: printLid finish) lineNum =
      .ok ⟨start, finish⟩ := by
  have hdots : ∀ {lid}, IsLid lid → ∀ u ∈ printLid lid, u ≠ 0x002e := fun h u hu =>
    (isLidUnit_spec (isLidUnit_of_mem_printLid h u hu)).2.2.2
  have hempty : ((printLid start).isEmpty || (printLid finish).isEmpty) = false := by
    rw [Bool.or_eq_false_iff, isEmpty_eq_false_iff, isEmpty_eq_false_iff]
    exact ⟨printLid_ne_nil hstart, printLid_ne_nil hfinish⟩
  rw [parseRange, splitDots_dots (hdots hstart) (hdots hfinish)]
  dsimp only
  rw [hempty, if_neg Bool.false_ne_true, parseLid_printLid hstart, parseLid_printLid hfinish]
  change (if finish.line < start.line then _ else _) = _
  rw [if_neg (not_lt.mpr hle), if_neg]
  · rfl
  · rw [Bool.and_eq_true, decide_eq_true_eq, decide_eq_true_eq]
    exact fun h => h.2 (hhash h.1.symm).symm

theorem parseInsertTarget_print {kind : InsertKind} {target : PrintTarget}
    (h : ∀ lid, target = .anchor lid → IsLid lid) (lineNum : Nat) :
    parseInsertTarget target.print lineNum kind = .ok (target.cursor kind) := by
  cases target with
  | bof | eof => rfl
  | anchor lid =>
    have hlid := h lid rfl
    -- an anchor starts with a digit
    have hne : ∀ text : JsString, (∀ u ∈ text.head?, isLidUnit u = false) → text ≠ [] →
        printLid lid ≠ text := by
      rintro text htext hnil rfl
      cases htext' : printLid lid with
      | nil => exact hnil htext'
      | cons u rest =>
        rw [htext'] at htext
        have hunit := isLidUnit_of_mem_printLid hlid u (htext' ▸ mem_cons_self)
        rw [htext u rfl] at hunit
        exact Bool.noConfusion hunit
    have hBOF : printLid lid ≠ js "BOF" :=
      hne _ (fun u hu => by obtain rfl := some.inj hu; rfl) (cons_ne_nil _ _)
    have hEOF : printLid lid ≠ js "EOF" :=
      hne _ (fun u hu => by obtain rfl := some.inj hu; rfl) (cons_ne_nil _ _)
    rw [PrintTarget.print, parseInsertTarget, if_neg hBOF, if_neg hEOF, parseLid_printLid hlid]
    cases kind <;> rfl

/-- A target is all of an insertion line after the sigil. -/
theorem insertOpCapture_print (op : CodeUnit) {target : JsString} (hne : target ≠ [])
    (htarget : ∀ u ∈ target, isWhitespace u = false ∧ u ≠ 0x007c) :
    insertOpCapture op (op :: target) = some (target, none) := by
  have hstart : trimStart target = target :=
    dropWhile_of_head fun u hu => (htarget u (mem_of_mem_head? hu)).1
  have hall : ∀ u ∈ target, (decide (u ≠ 0x007c) && !isWhitespace u) = true := by
    intro u hu
    rw [(htarget u hu).1, decide_eq_true (htarget u hu).2]
    rfl
  rw [insertOpCapture, hstart, takeWhile_eq_self_iff.mpr hall,
    dropWhile_eq_nil_iff.mpr hall, if_neg]
  · rfl
  · simp [hne]

theorem insertOpCapture_ne {op : CodeUnit} (h : u ≠ op) (rest : JsString) :
    insertOpCapture op (u :: rest) = none := by
  rw [insertOpCapture]
  exact if_pos (by simp [h])

theorem print_units {target : PrintTarget} (h : ∀ lid, target = .anchor lid → IsLid lid) :
    target.print ≠ [] ∧ ∀ u ∈ target.print, isWhitespace u = false ∧ u ≠ 0x007c := by
  cases target with
  | anchor lid =>
    refine ⟨printLid_ne_nil (h lid rfl), fun u hu => ?_⟩
    have hspec := isLidUnit_spec (isLidUnit_of_mem_printLid (h lid rfl) u hu)
    exact ⟨hspec.1, hspec.2.2.1⟩
  | bof | eof =>
    refine ⟨cons_ne_nil _ _, fun u hu => ?_⟩
    have hall := all_eq_true.mp (show (PrintTarget.print _).all
      (fun u => !isWhitespace u && u != 0x007c) = true from rfl) u hu
    simpa using hall

variable {xxHash32 : List UInt8 → UInt32}

/-- What the parser reads on the line of an operation. -/
def PrintOp.read : PrintOp → HashlineOp
  | .insert kind target _ => .insert (target.cursor kind) none
  | .replace start finish _ => .replace ⟨start, finish⟩

theorem readOp_head {op : PrintOp} (h : op.Valid) : readOp xxHash32 op.head = some op.read := by
  cases op with
  | insert kind target payload =>
    obtain ⟨hne, hunits⟩ := print_units h.1
    have hread : readInsertOp xxHash32 kind target.print none =
        some (.insert (target.cursor kind) none) := by
      rw [readInsertOp, parseInsertTarget_print h.1]
      rfl
    rw [PrintOp.head, readOp]
    cases kind with
    | before =>
      rw [InsertKind.sigil, insertOpCapture_print _ hne hunits]
      exact hread
    | after =>
      rw [InsertKind.sigil, insertOpCapture_ne (by decide), insertOpCapture_print _ hne hunits]
      exact hread
  | replace start finish payload =>
    obtain ⟨hstart, hfinish, hle, hhash, -⟩ := h
    have hspace : ∀ u ∈ printLid start ++ 0x002e :: 0x002e :: printLid finish,
        (!isWhitespace u) = true := by
      intro u hu
      rw [Bool.not_eq_true']
      rcases mem_append.mp hu with hu | hu
      · exact (isLidUnit_spec (isLidUnit_of_mem_printLid hstart u hu)).1
      · rcases mem_cons.mp hu with rfl | hu
        · rfl
        · rcases mem_cons.mp hu with rfl | hu
          · rfl
          · exact (isLidUnit_spec (isLidUnit_of_mem_printLid hfinish u hu)).1
    obtain ⟨u, rest, hcons⟩ := exists_cons_of_ne_nil (printLid_ne_nil hstart)
    have hunit : isLidUnit u = true :=
      isLidUnit_of_mem_printLid hstart u (hcons ▸ mem_cons_self)
    have hsign : ∀ v : CodeUnit, isLidUnit v = false → u ≠ v := by
      rintro v hv rfl
      rw [hunit] at hv
      exact Bool.noConfusion hv
    have hcapture : replaceOpCapture (PrintOp.head (.replace start finish payload)) =
        some (printLid start ++ 0x002e :: 0x002e :: printLid finish) := by
      have htrim : trimStart (printLid start ++ 0x002e :: 0x002e :: printLid finish) =
          printLid start ++ 0x002e :: 0x002e :: printLid finish :=
        dropWhile_of_head fun v hv => by simpa using hspace v (mem_of_mem_head? hv)
      rw [PrintOp.head, replaceOpCapture, htrim, takeWhile_eq_self_iff.mpr hspace,
        dropWhile_eq_nil_iff.mpr hspace, hcons, cons_append]
      simp [hsign 0x002b (by decide), hsign 0x003c (by decide), hsign 0x002d (by decide),
        hsign 0x003d (by decide)]
    rw [readOp, hcapture, PrintOp.head, insertOpCapture_ne (by decide),
      insertOpCapture_ne (by decide)]
    dsimp only
    rw [parseRange_print hstart hfinish hle hhash]
    rfl

theorem rangeDeletes_expandRange {start finish : Anchor} (lineNum index : Nat) :
    rangeDeletes (expandRange ⟨start, finish⟩) lineNum index =
      coveredDeletes start finish lineNum index := by
  apply ext_getElem
  · simp [rangeDeletes, expandRange, coveredDeletes]
  · intro k _ _
    simp only [rangeDeletes, expandRange, coveredDeletes, getElem_mapIdx, getElem_map,
      getElem_range', getElem_range, rangeAnchor, Nat.one_mul, Nat.add_eq_left]

theorem edits_read {op : PrintOp} (h : op.Valid) (lineNum index : Nat) :
    op.read.edits op.payload lineNum index = some (op.edits lineNum index) := by
  cases op with
  | insert kind target payload =>
    have hfilled : (payload.isEmpty && true) = false := by
      rw [Bool.and_true, isEmpty_eq_false_iff]
      exact h.2.1
    rw [PrintOp.read, HashlineOp.edits]
    exact if_neg (by simpa [PrintOp.payload] using hfilled)
  | replace start finish payload =>
    rw [PrintOp.read, HashlineOp.edits, rangeDeletes_expandRange]
    rfl

theorem IsPayloadLine.plain (h : IsPayloadLine line) :
    IsPlainLine line ∧ isOpLine line = false := by
  have hnot := h.not_terminator
  rw [isPayloadTerminatorLine, Bool.or_eq_false_iff] at hnot
  have hplain : IsPlainLine line := by
    refine ⟨fun hhead => ?_, hnot.2⟩
    rw [hhead] at hnot
    exact Bool.noConfusion hnot.1
  exact ⟨hplain, by rw [← isPayloadTerminatorLine_eq hplain, h.not_terminator]⟩

theorem PrintOp.Valid.payload {op : PrintOp} (h : op.Valid) :
    ∀ line ∈ op.payload, IsPayloadLine line := by
  cases op with
  | insert kind target payload => exact h.2.2
  | replace start finish payload => exact h.2.2.2.2

/-! ## The whole text -/

theorem not_isWhitespace_head {op : PrintOp} (h : op.Valid) :
    ∀ u ∈ op.head, isWhitespace u = false := by
  cases op with
  | insert kind target payload =>
    refine forall_mem_cons.mpr ⟨by cases kind <;> rfl, fun u hu => ?_⟩
    exact ((print_units h.1).2 u hu).1
  | replace start finish payload =>
    obtain ⟨hstart, hfinish, -⟩ := h
    refine forall_mem_cons.mpr ⟨rfl, forall_mem_append.mpr ⟨fun u hu => ?_, ?_⟩⟩
    · exact (isLidUnit_spec (isLidUnit_of_mem_printLid hstart u hu)).1
    · refine forall_mem_cons.mpr ⟨rfl, forall_mem_cons.mpr ⟨rfl, fun u hu => ?_⟩⟩
      exact (isLidUnit_spec (isLidUnit_of_mem_printLid hfinish u hu)).1

theorem head_eq_cons (op : PrintOp) : ∃ u rest, op.head = u :: rest ∧ isOpChar u = true := by
  cases op with
  | insert kind target payload => cases kind <;> exact ⟨_, _, rfl, rfl⟩
  | replace start finish payload => exact ⟨_, _, rfl, rfl⟩

theorem isOpLine_head (op : PrintOp) : isOpLine op.head = true := by
  obtain ⟨u, rest, hhead, hop⟩ := head_eq_cons op
  rw [isOpLine, hhead, head?_cons, Option.any_some, hop]

theorem isPlainLine_of_isOpLine (h : isOpLine line = true) : IsPlainLine line := by
  cases line with
  | nil => exact Bool.noConfusion h
  | cons u rest =>
    rw [isOpLine, head?_cons, Option.any_some] at h
    have hchar : u = hlOpInsertBefore ∨ u = hlOpInsertAfter ∨ u = hlOpReplace := by
      simpa [isOpChar, or_assoc] using h
    have hspace : isWhitespace u = false := by rcases hchar with rfl | rfl | rfl <;> rfl
    have hmarker : ∀ marker : JsString, marker.head? = some 0x002a →
        trimEnd (u :: rest) ≠ marker := by
      rintro marker hmarker rfl
      rw [head?_trimEnd hspace] at hmarker
      rcases hchar with rfl | rfl | rfl <;> exact absurd hmarker (by decide)
    refine ⟨?_, ?_⟩
    · rw [head?_cons]
      rcases hchar with rfl | rfl | rfl <;> decide
    · rw [isEnvelopeOrAbortMarkerLine, decide_eq_false (hmarker beginPatchMarker rfl),
        decide_eq_false (hmarker endPatchMarker rfl), decide_eq_false (hmarker abortMarker rfl)]
      rfl

variable {ops : List PrintOp}

/-- **The lines of the operations are parsed one operation after the other.** -/
theorem parseEdits_printed (h : ∀ op ∈ ops, op.Valid) (lineNum index : Nat) :
    parseEdits xxHash32 (ops.flatMap PrintOp.lines) lineNum index =
      some (printedEdits ops lineNum index) := by
  induction ops generalizing lineNum index with
  | nil => rfl
  | cons op ops ih =>
    rw [forall_mem_cons] at h
    have hhead := isPlainLine_of_isOpLine (isOpLine_head op)
    have hpayload : ∀ line ∈ op.payload, IsPlainLine line ∧ isOpLine line = false :=
      fun line hline => (h.1.payload line hline).plain
    have hown : parseEdits xxHash32 op.lines lineNum index = some (op.edits lineNum index) := by
      rw [PrintOp.lines, parseEdits_opBlock hhead (isOpLine_head op) hpayload, readOp_head h.1,
        Option.bind_some, edits_read h.1]
    have hmarkers : ∀ line ∈ op.lines, isEnvelopeOrAbortMarkerLine line = false :=
      forall_mem_cons.mpr ⟨hhead.2, fun line hline => (hpayload line hline).1.2⟩
    have hmore : ∀ line ∈ (ops.flatMap PrintOp.lines).head?,
        isPayloadTerminatorLine line = true := by
      cases ops with
      | nil => exact fun line hline => nomatch hline
      | cons op' ops =>
        intro line hline
        obtain rfl := some.inj hline
        rw [isPayloadTerminatorLine_eq (isPlainLine_of_isOpLine (isOpLine_head op')), isOpLine_head]
    rw [flatMap_cons, parseEdits_append hmarkers hmore, hown, Option.bind_some, ih h.2]
    rfl

theorem lines_printed {ls : List JsString} (h : ∀ line ∈ ls, LF ∉ line) :
    lines (ls.flatMap fun line => line ++ [LF]) = ls ++ [[]] := by
  induction ls with
  | nil => rfl
  | cons line ls ih =>
    rw [forall_mem_cons] at h
    rw [flatMap_cons, append_assoc, singleton_append, lines_append_LF, lines_of_not_mem h.1, ih h.2]
    rfl

/-- Every line of a printed text can be read back from it. -/
theorem printed_line (h : ∀ op ∈ ops, op.Valid) (hline : line ∈ ops.flatMap PrintOp.lines) :
    LF ∉ line ∧ dropCR line = line := by
  obtain ⟨op, hop, hline⟩ := mem_flatMap.mp hline
  rcases mem_cons.mp hline with rfl | hline
  · have hspace := not_isWhitespace_head (h op hop)
    refine ⟨fun hLF => ?_, dropCR_eq_self.mpr fun hCR => ?_⟩
    · exact absurd (hspace _ hLF) (by decide)
    · exact absurd (hspace _ (mem_of_getLast? hCR)) (by decide)
  · have hpayload := (h op hop).payload line hline
    exact ⟨hpayload.LF_not_mem, dropCR_eq_self.mpr hpayload.not_CR⟩

theorem parseHashline_toOption_printOps (h : ∀ op ∈ ops, op.Valid) :
    (parseHashline xxHash32 (printOps ops)).toOption =
      parseEdits xxHash32 (ops.flatMap PrintOp.lines) 1 0 := by
  have hlines : splitLines (printOps ops) = ops.flatMap PrintOp.lines ++ [[]] := by
    rw [splitLines, printOps, lines_printed fun line hline => (printed_line h hline).1,
      dropLast_concat, getLast?_concat]
    congr 1
    exact (map_congr_left fun line hline => (printed_line h hline).2).trans (map_id _)
  have hpieces : parseHashlineWithWarnings xxHash32 (printOps ops) =
      parseLines xxHash32 (ops.flatMap PrintOp.lines) 1 0 0 := by
    rw [parseHashlineWithWarnings, hlines]
    rcases eq_nil_or_concat (ops.flatMap PrintOp.lines) with hnil | ⟨front, line, hlast⟩
    · -- an empty text is one blank line
      rw [printOps, hnil]
      rfl
    · have hend : (printOps ops).getLast? = some LF := by
        rw [printOps, hlast, concat_eq_append, flatMap_append, flatMap_singleton,
          ← append_assoc, getLast?_concat]
      rw [hend, getLast?_concat, dropLast_concat]
      rfl
  rw [parseHashline, toOption_bind, hpieces, parseEdits]
  cases (parseLines xxHash32 (ops.flatMap PrintOp.lines) 1 0 0).toOption <;> rfl

theorem index_payloadInserts (cursor : HashlineCursor) (payload : List JsString)
    (lineNum index : Nat) : (payloadInserts cursor payload lineNum index).map HashlineEdit.index =
      range' index payload.length := by
  apply ext_getElem
  · simp [payloadInserts]
  · intro k _ _
    simp [payloadInserts, HashlineEdit.index]

theorem index_coveredDeletes (start finish : Anchor) (lineNum index : Nat) :
    (coveredDeletes start finish lineNum index).map HashlineEdit.index =
      range' index (finish.line + 1 - start.line) := by
  apply ext_getElem
  · simp [coveredDeletes]
  · intro k _ _
    simp [coveredDeletes, HashlineEdit.index]

theorem index_edits (op : PrintOp) (lineNum index : Nat) :
    (op.edits lineNum index).map HashlineEdit.index =
      range' index (op.edits lineNum index).length := by
  have hlength : ∀ {l : List HashlineEdit} {n : Nat},
      l.map HashlineEdit.index = range' index n → n = l.length := by
    intro l n h
    rw [← length_map HashlineEdit.index, h, length_range']
  have hsome : ∃ n, (op.edits lineNum index).map HashlineEdit.index = range' index n := by
    cases op with
    | insert kind target payload => exact ⟨_, index_payloadInserts ..⟩
    | replace start finish payload =>
      refine ⟨payload.length + (finish.line + 1 - start.line), ?_⟩
      rw [PrintOp.edits, map_append, index_payloadInserts, index_coveredDeletes, range'_append_1]
  obtain ⟨n, hn⟩ := hsome
  rw [hn, hlength hn]

theorem index_printedEdits (ops : List PrintOp) (lineNum index : Nat) :
    (printedEdits ops lineNum index).map HashlineEdit.index =
      range' index (printedEdits ops lineNum index).length := by
  induction ops generalizing lineNum index with
  | nil => rfl
  | cons op ops ih =>
    rw [printedEdits, map_append, index_edits, ih, length_append, range'_append_1]

/-- **Parsing inverts printing.**  The text of every list of operations with valid anchors
and payload is parsed to one insert for each payload line, with the operation's cursor and
in order, and one delete for each line of a range, in ascending order and with the hashes of
the ends; the indices are 0, 1, 2 and so on. -/
theorem parseHashline_printOps (xxHash32 : List UInt8 → UInt32) {ops : List PrintOp}
    (h : ∀ op ∈ ops, op.Valid) :
    parseHashline xxHash32 (printOps ops) = .ok (printedEdits ops 1 0) ∧
      (printedEdits ops 1 0).map HashlineEdit.index = range (printedEdits ops 1 0).length := by
  have hparse : (parseHashline xxHash32 (printOps ops)).toOption = some (printedEdits ops 1 0) :=
    (parseHashline_toOption_printOps h).trans (parseEdits_printed h 1 0)
  refine ⟨?_, by rw [index_printedEdits, range_eq_range']⟩
  cases hresult : parseHashline xxHash32 (printOps ops) with
  | error e =>
    rw [hresult] at hparse
    cases hparse
  | ok edits =>
    rw [hresult] at hparse
    exact congrArg Except.ok (some.inj hparse)

/-- An insertion below line 3 and a range of three lines. -/
def sampleOps : List PrintOp :=
  [.insert .after (.anchor ⟨3, js "sr"⟩) [js "x", []],
    .replace ⟨9, js "ab"⟩ ⟨11, js "th"⟩ [js "y"]]

theorem parseHashline_printOps_sample :
    parseHashline Xxh32.xxh32 (js "»3sr\nx\n\n≔9ab..11th\ny\n") =
      .ok [.insert (.afterAnchor ⟨3, js "sr"⟩) (js "x") 1 0,
        .insert (.afterAnchor ⟨3, js "sr"⟩) [] 1 1,
        .insert (.beforeAnchor ⟨9, js "ab"⟩) (js "y") 4 2,
        .delete ⟨9, js "ab"⟩ 4 3, .delete ⟨10, js "**"⟩ 4 4, .delete ⟨11, js "th"⟩ 4 5] := by
  have hline : ∀ line ∈ [js "x", [], js "y"], IsPayloadLine line := by
    intro line hline
    have hcases : line = js "x" ∨ line = [] ∨ line = js "y" := by simpa using hline
    rcases hcases with rfl | rfl | rfl <;> exact ⟨by decide, by decide, by decide⟩
  have hvalid : ∀ op ∈ sampleOps, op.Valid := by
    refine forall_mem_cons.mpr ⟨⟨?_, by simp, fun line h => hline line ?_⟩,
      forall_mem_singleton.mpr ⟨?_, ?_, by decide, by decide, fun line h => hline line ?_⟩⟩
    · rintro lid ⟨⟩
      exact ⟨by decide, _, _, rfl, rfl, rfl⟩
    · exact mem_append_left [js "y"] h
    · exact ⟨by decide, _, _, rfl, rfl, rfl⟩
    · exact ⟨by decide, _, _, rfl, rfl, rfl⟩
    · exact mem_append_right [js "x", []] h
  exact (parseHashline_printOps Xxh32.xxh32 hvalid).1

/-- One line under two hashes is refused. -/
theorem parseHashline_one_line_two_hashes :
    printOps [.replace ⟨1, js "aa"⟩ ⟨1, js "bb"⟩ []] = js "≔1aa..1bb\n" ∧
      parseHashline Xxh32.xxh32 (js "≔1aa..1bb\n") =
        .error (atLine 1 (js "range 1aa..1bb uses two different " ++
          js "hashes for the same line.")) :=
  ⟨by decide, by with_unfolding_all rfl⟩

end GajaeCode
