import Mathlib.Data.List.Chain
import GajaeCode.HashlineMerge

/-! # Sections parsed together and apart

`mergeSamePathSections` writes the diffs of one path below each other and has them parsed as
one.  A line that begins a later section, or ends an earlier one, may then be taken for
payload.  The parse is the concatenation of the separate ones exactly where no line can be.
-/
namespace GajaeCode
open JsString List Bool

section CarriageReturn
variable {p : CodeUnit → Bool} {c : CodeUnit}

theorem takeWhile_concat_of_neg (hc : p c = false) (l : JsString) :
    (l ++ [c]).takeWhile p = l.takeWhile p := by
  induction l with
  | nil =>
    rw [nil_append, takeWhile_cons_of_neg (by rw [hc]; exact false_ne_true)]
    rfl
  | cons u l ih =>
    rw [cons_append, takeWhile_cons, takeWhile_cons, ih]

theorem dropWhile_concat_of_neg (hc : p c = false) (l : JsString) :
    (l ++ [c]).dropWhile p = l.dropWhile p ++ [c] := by
  induction l with
  | nil =>
    rw [nil_append, dropWhile_cons_of_neg (by rw [hc]; exact false_ne_true)]
    rfl
  | cons u l ih =>
    rw [cons_append, dropWhile_cons, dropWhile_cons, ih]
    split_ifs <;> rfl

/-- White space at the end of a blank text goes with it. -/
theorem trimStart_concat_CR (l : JsString) :
    trimStart (l ++ [CR]) = if trimStart l = [] then [] else trimStart l ++ [CR] := by
  induction l with
  | nil => rfl
  | cons u l ih =>
    rw [trimStart, trimStart, cons_append, dropWhile_cons, dropWhile_cons]
    by_cases hu : isWhitespace u = true
    · rw [if_pos hu, if_pos hu]
      exact ih
    · rw [if_neg hu, if_neg hu, if_neg (cons_ne_nil _ _)]
      rfl

theorem bodyTail_concat_CR (l : JsString) : bodyTail (l ++ [CR]) = bodyTail l := by
  have hall : ∀ l : JsString, (l ++ [CR]).all isWhitespace = l.all isWhitespace := by
    intro l
    rw [all_append, all_cons, isWhitespace_CR, all_nil, Bool.and_true, Bool.and_true]
  cases l with
  | nil => rfl
  | cons u l =>
    by_cases hu : u = 0x007c
    · subst hu
      rw [cons_append, bodyTail, bodyTail, takeWhile_concat_of_neg rfl,
        dropWhile_concat_of_neg rfl, hall]
    · rw [cons_append, bodyTail, bodyTail, ← cons_append, hall]
      · exact fun rest h => hu (List.cons.inj h).1
      · exact fun rest h => hu (List.cons.inj h).1

theorem insertOpCapture_concat_CR (op : CodeUnit) (l : JsString) :
    insertOpCapture op (l ++ [CR]) = insertOpCapture op l := by
  cases l with
  | nil =>
    rw [nil_append, insertOpCapture, insertOpCapture]
    exact if_pos (by rw [or_eq_true]; exact .inr rfl)
  | cons u l =>
    rw [cons_append, insertOpCapture, insertOpCapture, trimStart_concat_CR]
    by_cases hblank : trimStart l = []
    · rw [if_pos hblank, hblank]
    · rw [if_neg hblank]
      rw [takeWhile_concat_of_neg (by rfl), dropWhile_concat_of_neg (by rfl), bodyTail_concat_CR]

theorem replaceOpCapture_concat_CR (l : JsString) :
    replaceOpCapture (l ++ [CR]) = replaceOpCapture l := by
  cases l with
  | nil => rfl
  | cons u l =>
    rw [cons_append, replaceOpCapture, replaceOpCapture, trimStart_concat_CR]
    by_cases hblank : trimStart l = []
    · rw [if_pos hblank, hblank]
    · rw [if_neg hblank]
      rw [takeWhile_concat_of_neg (by rfl), dropWhile_concat_of_neg (by rfl), all_append,
        all_cons, isWhitespace_CR, all_nil, Bool.and_true, Bool.and_true]

theorem readOp_dropCR (xxHash32 : List UInt8 → UInt32) (line : JsString) :
    readOp xxHash32 (dropCR line) = readOp xxHash32 line := by
  rw [dropCR]
  split_ifs with hCR
  · obtain ⟨front, rfl⟩ := getLast?_eq_some_iff.mp hCR
    rw [dropLast_concat, readOp, readOp, insertOpCapture_concat_CR,
      insertOpCapture_concat_CR, replaceOpCapture_concat_CR]
  · rfl

theorem isOpLine_dropCR (line : JsString) : isOpLine (dropCR line) = isOpLine line := by
  rw [dropCR]
  split_ifs with hCR
  · obtain ⟨front, rfl⟩ := getLast?_eq_some_iff.mp hCR
    rw [dropLast_concat]
    cases front with
    | nil | cons u front => rfl
  · rfl

theorem dropCR_eq_self {line : JsString} : dropCR line = line ↔ line.getLast? ≠ some CR := by
  rw [dropCR]
  split_ifs with hCR
  · refine ⟨fun h => ?_, fun h => absurd hCR h⟩
    obtain ⟨front, rfl⟩ := getLast?_eq_some_iff.mp hCR
    rw [dropLast_concat] at h
    exact absurd (congrArg length h) (by simp)
  · exact ⟨fun _ => hCR, fun _ => rfl⟩

end CarriageReturn

/-! ## The lines of several sections -/

section Lines
variable {line : JsString}
variable {more : List JsString}

theorem parsedLines_append (body : List JsString) (hne : more ≠ []) :
    parsedLines (body ++ more) = body.map dropCR ++ parsedLines more := by
  obtain ⟨line, hline⟩ := Option.ne_none_iff_exists'.mp (mt getLast?_eq_none_iff.mp hne)
  rw [parsedLines, parsedLines, dropLast_append_of_ne_nil hne, map_append,
    getLast?_append, hline, Option.some_or, Option.toList_some, append_assoc, popBlank,
    popBlank, ← append_assoc, getLast?_concat, getLast?_concat]
  split_ifs
  · rw [dropLast_concat, dropLast_concat]
  · rw [append_assoc]

theorem length_parsedLines_le (body : List JsString) : (parsedLines body).length ≤ body.length := by
  have hle : ∀ ls : List JsString, (popBlank ls).length ≤ ls.length := by
    intro ls
    rw [popBlank]
    split_ifs
    · exact (dropLast_sublist ls).length_le
    · exact le_rfl
  apply (hle _).trans
  rcases eq_nil_or_concat body with rfl | ⟨front, line, rfl⟩
  · exact le_rfl
  · simp

/-- The last line of a section cannot be told from the one that the merged text has. -/
def EndsPlain (body : List JsString) : Prop :=
  ∀ line ∈ body.getLast?, line ≠ [] ∧ (isOpLine line = true ∨ line.getLast? ≠ some CR)

theorem parsedLines_concat {front : List JsString} (hne : line ≠ []) :
    parsedLines (front ++ [line]) = front.map dropCR ++ [line] := by
  rw [parsedLines_append _ (cons_ne_nil _ _)]
  congr 1
  rw [parsedLines, popBlank]
  exact if_neg (by simpa using hne)

/-- Dropping more carriage returns leaves the lines only if there is nothing to drop. -/
theorem endsPlain_of_parsedLines_eq {body : List JsString}
    (h : body.map dropCR ++ more = parsedLines body) : more = [] ∧ EndsPlain body := by
  have hlength := congrArg length h
  have hle := length_parsedLines_le body
  rw [length_append, length_map] at hlength
  obtain rfl : more = [] := length_eq_zero_iff.mp (by omega)
  refine ⟨rfl, fun line hline => ?_⟩
  obtain ⟨front, rfl⟩ := getLast?_eq_some_iff.mp hline
  have hne : line ≠ [] := by
    rintro rfl
    have hpop : parsedLines (front ++ [[]]) = front.map dropCR := by
      rw [parsedLines_append _ (cons_ne_nil _ _)]
      exact append_nil _
    rw [hpop] at hlength
    simp at hlength
  refine ⟨hne, .inr (dropCR_eq_self.mp ?_)⟩
  rw [parsedLines_concat hne, append_nil, map_append] at h
  exact singleton_inj.mp (append_cancel_left h)

/-- No header and no marker. -/
def IsPlainLine (line : JsString) : Prop :=
  line.head? ≠ some hlFilePrefix ∧ isEnvelopeOrAbortMarkerLine line = false

theorem isPlainLine_dropCR (h : IsPlainLine line) : IsPlainLine (dropCR line) := by
  refine ⟨fun hhead => h.1 ?_, by rw [isEnvelopeOrAbortMarkerLine_dropCR]; exact h.2⟩
  rw [dropCR] at hhead
  split_ifs at hhead with hCR
  · obtain ⟨front, rfl⟩ := getLast?_eq_some_iff.mp hCR
    rw [dropLast_concat] at hhead
    obtain ⟨rest, rfl⟩ := head?_eq_some_iff.mp hhead
    rfl
  · exact hhead

theorem isPayloadTerminatorLine_eq (h : IsPlainLine line) :
    isPayloadTerminatorLine line = isOpLine line := by
  rw [isPayloadTerminatorLine, h.2, Bool.or_false, isOpLine]
  cases line with
  | nil => rfl
  | cons u line =>
    have hu : (u == hlFilePrefix) = false := beq_eq_false_iff_ne.mpr fun hu => h.1 (by rw [hu]; rfl)
    rw [head?_cons, Option.any_some, Option.any_some, hu, Bool.false_or]

theorem isPlainLine_parsedLines {body : List JsString} (h : ∀ line ∈ body, IsPlainLine line) :
    ∀ line ∈ parsedLines body, IsPlainLine line := by
  intro line hline
  obtain ⟨l, hl, rfl | rfl⟩ := mem_parsedLines hline
  · exact h _ hl
  · exact isPlainLine_dropCR (h l hl)

theorem ne_nil_of_isOpLine (h : isOpLine line = true) : line ≠ [] := by
  rintro rfl
  exact Bool.noConfusion h

theorem trim_ne_nil_of_isOpLine (h : isOpLine line = true) : trim line ≠ [] := by
  intro hblank
  cases line with
  | nil => exact Bool.noConfusion h
  | cons u line =>
    have hspace := trim_eq_nil.mp hblank u mem_cons_self
    rw [isOpLine, head?_cons, Option.any_some] at h
    simp only [isOpChar, or_eq_true, beq_iff_eq] at h
    obtain (rfl | rfl) | rfl := h <;> exact absurd hspace (by decide)

theorem parsedLines_cons (hne : line ≠ []) (rest : List JsString) :
    ∃ line', (line' = line ∨ line' = dropCR line) ∧
      parsedLines (line :: rest) = line' :: parsedLines rest := by
  cases rest with
  | nil =>
    refine ⟨line, .inl rfl, ?_⟩
    have h : parsedLines ([] ++ [line]) = map dropCR [] ++ [line] := parsedLines_concat hne
    rw [nil_append] at h
    exact h
  | cons line₂ rest =>
    refine ⟨dropCR line, .inr rfl, ?_⟩
    rw [← singleton_append, parsedLines_append _ (cons_ne_nil _ _)]
    rfl

end Lines

/-- An edit without the place it was written at. -/
def HashlineEdit.bare : HashlineEdit → HashlineEdit
  | .insert cursor text _ _ => .insert cursor text 0 0
  | .delete anchor _ _ => .delete anchor 0 0

theorem map_bare_shift (d j : Nat) (edits : List HashlineEdit) :
    (edits.map (HashlineEdit.shift d j)).map HashlineEdit.bare = edits.map HashlineEdit.bare := by
  rw [map_map]
  apply map_congr_left
  rintro (_ | _) - <;> rfl

theorem insertEdits_bare (cursor : HashlineCursor) (texts : List JsString)
    (lineNum editIndex : Nat) : (insertEdits cursor texts lineNum editIndex).map HashlineEdit.bare =
      texts.map fun text => .insert cursor text 0 0 := by
  apply ext_getElem
  · simp [insertEdits]
  · intro i _ _
    simp only [insertEdits, getElem_map, getElem_mapIdx, HashlineEdit.bare]

theorem rangeDeletes_bare (anchors : List Anchor) (lineNum editIndex : Nat) :
    (rangeDeletes anchors lineNum editIndex).map HashlineEdit.bare =
      anchors.map fun anchor => .delete anchor 0 0 := by
  apply ext_getElem
  · simp [rangeDeletes]
  · intro i _ _
    simp only [rangeDeletes, getElem_map, getElem_mapIdx, HashlineEdit.bare]

/-- More payload makes more edits, and only the same payload makes the same ones. -/
theorem HashlineOp.edits_more {op : HashlineOp} {payload more : List JsString}
    {lineNum editIndex : Nat} {edits : List HashlineEdit}
    (h : op.edits payload lineNum editIndex = some edits) (hle : payload.length ≤ more.length) :
    ∃ edits', op.edits more lineNum editIndex = some edits' ∧ edits.length ≤ edits'.length ∧
      (edits'.map HashlineEdit.bare = edits.map HashlineEdit.bare → more = payload) := by
  cases op with
  | insert cursor inlineBody =>
    rw [HashlineOp.edits] at h
    split_ifs at h with hmissing
    obtain rfl := some.inj h
    have hmore : ¬ (more.isEmpty && inlineBody.isNone) = true := by
      rw [and_eq_true, isEmpty_iff_length_eq_zero] at hmissing ⊢
      exact fun hempty => hmissing ⟨by omega, hempty.2⟩
    refine ⟨_, if_neg hmore, ?_, fun hbare => ?_⟩
    · simp only [insertEdits, length_mapIdx, length_append]
      omega
    · rw [insertEdits_bare, insertEdits_bare] at hbare
      have hinj : Function.Injective fun text => HashlineEdit.insert cursor text 0 0 :=
        fun a b hab => (HashlineEdit.insert.inj hab).2.1
      exact append_cancel_left (hinj.list_map hbare)
  | replace range =>
    obtain rfl := some.inj h
    refine ⟨_, rfl, ?_, fun hbare => ?_⟩
    · simp only [insertEdits, rangeDeletes, length_mapIdx, length_append]
      omega
    · rw [map_append, map_append, insertEdits_bare, insertEdits_bare,
        rangeDeletes_bare, rangeDeletes_bare] at hbare
      have hinj : Function.Injective fun text =>
          HashlineEdit.insert (.beforeAnchor range.start) text 0 0 :=
        fun a b hab => (HashlineEdit.insert.inj hab).2.1
      exact hinj.list_map (append_cancel_right hbare)

/-! ## From one operation on -/

section Parse
variable {xxHash32 : List UInt8 → UInt32}
variable {body ops ls : List JsString} {line : JsString} {edits : List HashlineEdit}
    {editIndex lineNum : Nat}
variable {batches : List (List HashlineEdit)} {rest : List JsString}

theorem exists_last_op (h : ∃ line ∈ ls, isOpLine line = true) :
    ∃ front op payload, ls = front ++ op :: payload ∧ isOpLine op = true ∧
      ∀ line ∈ payload, isOpLine line = false := by
  induction ls using reverseRecOn with
  | nil =>
    obtain ⟨line, hline, -⟩ := h
    exact absurd hline not_mem_nil
  | append_singleton ls line ih =>
    by_cases hop : isOpLine line = true
    · exact ⟨ls, line, [], rfl, hop, fun l hl => absurd hl not_mem_nil⟩
    · obtain ⟨l, hl, hlop⟩ := h
      rcases mem_append.mp hl with hl | hl
      · obtain ⟨front, op, payload, rfl, hop', hpayload⟩ := ih ⟨l, hl, hlop⟩
        refine ⟨front, op, payload ++ [line], by simp, hop', fun l hl => ?_⟩
        rcases mem_append.mp hl with hl | hl
        · exact hpayload l hl
        · exact mem_singleton.mp hl ▸ eq_false_iff.mpr hop
      · exact absurd (mem_singleton.mp hl ▸ hlop) hop

theorem parseEdits_opBlock (hplain : IsPlainLine line) (hop : isOpLine line = true)
    {payload : List JsString} (hpayload : ∀ l ∈ payload, IsPlainLine l ∧ isOpLine l = false)
    (lineNum editIndex : Nat) : parseEdits xxHash32 (line :: payload) lineNum editIndex =
      (readOp xxHash32 line).bind fun op => op.edits payload lineNum editIndex :=
  parseEdits_block (trim_ne_nil_of_isOpLine hop) hplain.2
    (fun l hl => by rw [isPayloadTerminatorLine_eq (hpayload l hl).1, (hpayload l hl).2])
    lineNum editIndex

/-- The lines of a section below some others: with what follows taken for payload there are
more edits, and the same ones only if nothing is taken. -/
theorem parseEdits_joined {more : List JsString} (hplain : ∀ line ∈ ops, IsPlainLine line)
    (hop : ∃ line ∈ ops, isOpLine line = true)
    (hmore : ∀ line ∈ more, IsPlainLine line ∧ isOpLine line = false)
    (h : parseEdits xxHash32 (parsedLines ops) lineNum editIndex = some edits) :
    ∃ edits', parseEdits xxHash32 (ops.map dropCR ++ more) lineNum editIndex = some edits' ∧
      edits.length ≤ edits'.length ∧ (edits'.map HashlineEdit.bare = edits.map HashlineEdit.bare →
          more = [] ∧ EndsPlain ops) := by
  obtain ⟨front, line, payload, rfl, hline, hpayload⟩ := exists_last_op hop
  rw [forall_mem_append, forall_mem_cons] at hplain
  obtain ⟨hfront, hlinePlain, hpayloadPlain⟩ := hplain
  obtain ⟨line', hline', hparsed⟩ := parsedLines_cons (ne_nil_of_isOpLine hline) payload
  have hread : ∀ l, (l = line ∨ l = dropCR line) → readOp xxHash32 l = readOp xxHash32 line ∧
      IsPlainLine l ∧ isOpLine l = true := by
    rintro l (rfl | rfl)
    · exact ⟨rfl, hlinePlain, hline⟩
    · exact ⟨readOp_dropCR .., isPlainLine_dropCR hlinePlain, (isOpLine_dropCR line).trans hline⟩
  have hfrontMarkers : ∀ l ∈ front.map dropCR, isEnvelopeOrAbortMarkerLine l = false := by
    intro l hl
    obtain ⟨l', hl', rfl⟩ := mem_map.mp hl
    exact (isPlainLine_dropCR (hfront l' hl')).2
  -- both texts are the front, then one operation with its payload
  have hboth : ∀ l, (l = line ∨ l = dropCR line) → ∀ pay : List JsString,
      (∀ p ∈ pay, IsPlainLine p ∧ isOpLine p = false) →
      parseEdits xxHash32 (front.map dropCR ++ l :: pay) lineNum editIndex =
        (parseEdits xxHash32 (front.map dropCR) lineNum editIndex).bind fun edits =>
          ((readOp xxHash32 line).bind fun op =>
            op.edits pay (lineNum + front.length) (editIndex + edits.length)).map (edits ++ ·) := by
    intro l hl pay hpay
    obtain ⟨hreadl, hplainl, hopl⟩ := hread l hl
    rw [parseEdits_append hfrontMarkers, length_map]
    · congr 1
      funext edits
      rw [parseEdits_opBlock hplainl hopl hpay, hreadl]
    · intro l' hl'
      obtain rfl := some.inj hl'
      rw [isPayloadTerminatorLine_eq hplainl, hopl]
  rw [parsedLines_append _ (cons_ne_nil _ _), hparsed, hboth line' hline' _ ?_] at h
  swap
  · intro p hp
    refine ⟨isPlainLine_parsedLines hpayloadPlain p hp, ?_⟩
    obtain ⟨l, hl, rfl | rfl⟩ := mem_parsedLines hp
    · exact hpayload _ hl
    · rw [isOpLine_dropCR, hpayload l hl]
  rw [map_append, map_cons, append_assoc, cons_append, hboth (dropCR line) (.inr rfl) _ ?_]
  swap
  · intro p hp
    rcases mem_append.mp hp with hp | hp
    · obtain ⟨l, hl, rfl⟩ := mem_map.mp hp
      exact ⟨isPlainLine_dropCR (hpayloadPlain l hl), by rw [isOpLine_dropCR, hpayload l hl]⟩
    · exact hmore p hp
  obtain ⟨before, hbefore, h⟩ := Option.bind_eq_some_iff.mp h
  obtain ⟨last, hlast, rfl⟩ := Option.map_eq_some_iff.mp h
  obtain ⟨op, hread, hedits⟩ := Option.bind_eq_some_iff.mp hlast
  have hle : (parsedLines payload).length ≤ (payload.map dropCR ++ more).length := by
    rw [length_append, length_map]
    exact (length_parsedLines_le payload).trans (Nat.le_add_right _ _)
  obtain ⟨last', hlast', hlength, hbare⟩ := HashlineOp.edits_more hedits hle
  refine ⟨before ++ last', ?_, ?_, fun h => ?_⟩
  · rw [hbefore, Option.bind_some, hread, Option.bind_some, hlast']
    rfl
  · rw [length_append, length_append]
    omega
  · rw [map_append, map_append] at h
    obtain ⟨hnil, hends⟩ := endsPlain_of_parsedLines_eq (hbare (append_cancel_left h))
    refine ⟨hnil, fun l hl => ?_⟩
    rw [getLast?_append_of_ne_nil _ (cons_ne_nil _ _), getLast?_cons] at hl
    cases hpay : payload.getLast? with
    | none =>
      rw [hpay] at hl
      obtain rfl := some.inj hl
      exact ⟨ne_nil_of_isOpLine hline, .inl hline⟩
    | some l' =>
      rw [hpay] at hl
      obtain rfl := some.inj hl
      exact hends _ hpay

theorem isOpLine_of_readOp {op : HashlineOp} (h : readOp xxHash32 line = some op) :
    isOpLine line = true := by
  cases line with
  | nil => exact absurd h (by simp [readOp, insertOpCapture, replaceOpCapture])
  | cons u rest =>
    rw [isOpLine, head?_cons, Option.any_some, isOpChar]
    by_contra hop
    rw [not_eq_true, or_eq_false_iff, or_eq_false_iff, beq_eq_false_iff_ne,
      beq_eq_false_iff_ne, beq_eq_false_iff_ne] at hop
    rw [readOp, insertOpCapture, insertOpCapture, replaceOpCapture] at h
    simp [hop.1.1, hop.1.2, hop.2] at h

theorem trim_dropCR_eq_nil : trim (dropCR line) = [] ↔ trim line = [] := by
  rw [trim_eq_nil_iff_trimEnd, trimEnd_dropCR, ← trim_eq_nil_iff_trimEnd]

theorem parseEdits_blanks {lead : List JsString} (h : ∀ line ∈ lead, trim line = [])
    (rest : List JsString) (lineNum editIndex : Nat) :
    parseEdits xxHash32 (lead ++ rest) lineNum editIndex =
      parseEdits xxHash32 rest (lineNum + lead.length) editIndex := by
  induction lead generalizing lineNum with
  | nil => rfl
  | cons line lead ih =>
    rw [forall_mem_cons] at h
    rw [cons_append, parseEdits_blank h.1, ih h.2, length_cons, Nat.add_assoc, Nat.add_comm 1]

theorem exists_first_filled (h : ∃ line ∈ ls, trim line ≠ []) :
    ∃ lead line rest, ls = lead ++ line :: rest ∧ (∀ l ∈ lead, trim l = []) ∧ trim line ≠ [] := by
  induction ls with
  | nil =>
    obtain ⟨line, hline, -⟩ := h
    exact absurd hline not_mem_nil
  | cons l ls ih =>
    by_cases hblank : trim l = []
    · obtain ⟨line, hline, hfilled⟩ := h
      have hline' := (mem_cons.mp hline).resolve_left fun heq => hfilled (heq ▸ hblank)
      obtain ⟨lead, first, rest, rfl, hlead, hfirst⟩ := ih ⟨line, hline', hfilled⟩
      exact ⟨l :: lead, first, rest, rfl, forall_mem_cons.mpr ⟨hblank, hlead⟩, hfirst⟩
    · exact ⟨[], l, ls, rfl, fun l h => absurd h not_mem_nil, hblank⟩

/-- A section that starts with blank lines and then an operation. -/
structure IsLed (body lead ops : List JsString) : Prop where
  eq : body = lead ++ ops
  blank : ∀ line ∈ lead, trim line = []
  starts : ∃ line rest, ops = line :: rest ∧ isOpLine line = true

theorem IsLed.ne_nil {lead : List JsString} (h : IsLed body lead ops) : ops ≠ [] := by
  obtain ⟨line, rest, rfl, -⟩ := h.starts
  exact cons_ne_nil _ _

theorem IsSectionBody.plain (h : IsSectionBody body) : ∀ line ∈ body, IsPlainLine line :=
  fun line hline => ⟨(h.lines line hline).not_header, (h.lines line hline).not_marker⟩

theorem isLed_of_parse (hbody : IsSectionBody body)
    (h : parseEdits xxHash32 (parsedLines body) lineNum editIndex = some edits) :
    ∃ lead ops, IsLed body lead ops := by
  obtain ⟨lead, line, rest, rfl, hlead, hfilled⟩ := exists_first_filled hbody.filled
  have hne : line ≠ [] := by
    rintro rfl
    exact hfilled rfl
  obtain ⟨line', hline', hparsed⟩ := parsedLines_cons hne rest
  have hlead' : ∀ l ∈ lead.map dropCR, trim l = [] := by
    intro l hl
    obtain ⟨l', hl', rfl⟩ := mem_map.mp hl
    exact trim_dropCR_eq_nil.mpr (hlead l' hl')
  have hplain := hbody.plain line (by simp)
  have hplain' : IsPlainLine line' := by
    rcases hline' with rfl | rfl
    · exact hplain
    · exact isPlainLine_dropCR hplain
  have hfilled' : trim line' ≠ [] := by
    rcases hline' with rfl | rfl
    · exact hfilled
    · exact mt trim_dropCR_eq_nil.mp hfilled
  rw [parsedLines_append _ (cons_ne_nil _ _), hparsed, parseEdits_blanks hlead',
    parseEdits_op hfilled' hplain'.2] at h
  obtain ⟨op, hread, -⟩ := Option.bind_eq_some_iff.mp h
  have hop := isOpLine_of_readOp hread
  refine ⟨lead, line :: rest, rfl, hlead, line, rest, rfl, ?_⟩
  rcases hline' with rfl | rfl
  · exact hop
  · rw [isOpLine_dropCR] at hop
    exact hop

theorem IsLed.parse_eq {lead : List JsString} (h : IsLed body lead ops) (more : List JsString)
    (lineNum editIndex : Nat) : parseEdits xxHash32 (parsedLines (body ++ more)) lineNum editIndex =
      parseEdits xxHash32 (parsedLines (ops ++ more)) (lineNum + lead.length) editIndex := by
  have hlead' : ∀ l ∈ lead.map dropCR, trim l = [] := by
    intro l hl
    obtain ⟨l', hl', rfl⟩ := mem_map.mp hl
    exact trim_dropCR_eq_nil.mpr (h.blank l' hl')
  rw [h.eq, append_assoc, parsedLines_append _ (append_ne_nil_of_left_ne_nil h.ne_nil _),
    parseEdits_blanks hlead', length_map]

/-! ## Sections below each other -/

/-- Two sections that can be written below each other. -/
def JoinsAt (body next : List JsString) : Prop :=
  EndsPlain body ∧ ∀ line ∈ next.head?, isOpLine line = true

theorem IsLed.endsPlain_iff {lead : List JsString} (h : IsLed body lead ops) :
    EndsPlain body ↔ EndsPlain ops := by
  rw [EndsPlain, EndsPlain, h.eq, getLast?_append_of_ne_nil _ h.ne_nil]

theorem markers_parsedLines (h : ∀ line ∈ body, IsPlainLine line) :
    ∀ line ∈ parsedLines body, isEnvelopeOrAbortMarkerLine line = false :=
  fun line hline => (isPlainLine_parsedLines h line hline).2

/-- A parse at one place gives the parse at every place. -/
theorem parse_at (h : ∀ line ∈ body, IsPlainLine line)
    (hparse : parseEdits xxHash32 (parsedLines body) lineNum editIndex = some edits)
    (lineNum' editIndex' : Nat) :
    ∃ edits', parseEdits xxHash32 (parsedLines body) lineNum' editIndex' = some edits' ∧
      edits'.length = edits.length ∧
      edits'.map HashlineEdit.bare = edits.map HashlineEdit.bare := by
  have hat : ∀ n k, parseEdits xxHash32 (parsedLines body) n k =
      (parseEdits xxHash32 (parsedLines body) 0 0).map (map (HashlineEdit.shift n k)) := by
    intro n k
    have hshift : parseEdits xxHash32 (parsedLines body) (0 + n) (0 + k) = _ :=
      parseEdits_shift (parsedLines body) 0 0 n k (markers_parsedLines h)
    rwa [Nat.zero_add, Nat.zero_add] at hshift
  rw [hat] at hparse
  obtain ⟨base, hbase, rfl⟩ := Option.map_eq_some_iff.mp hparse
  refine ⟨base.map (HashlineEdit.shift lineNum' editIndex'), by rw [hat, hbase]; rfl, ?_, ?_⟩
  · rw [length_map, length_map]
  · rw [map_bare_shift, map_bare_shift]

/-- Lines from an operation on end the payload above them. -/
theorem head?_parsedLines_op (hplain : IsPlainLine line) (hop : isOpLine line = true)
    (rest : List JsString) :
    ∀ l ∈ (parsedLines (line :: rest)).head?, isPayloadTerminatorLine l = true := by
  obtain ⟨line', hline', hparsed⟩ := parsedLines_cons (ne_nil_of_isOpLine hop) rest
  intro l hl
  rw [hparsed] at hl
  obtain rfl := some.inj hl
  rcases hline' with rfl | rfl
  · rw [isPayloadTerminatorLine_eq hplain, hop]
  · rw [isPayloadTerminatorLine_eq (isPlainLine_dropCR hplain), isOpLine_dropCR, hop]

/-- **Sections that parse on their own parse below each other.**  There may be more edits,
and they are the same ones only if every two neighbours can be joined. -/
theorem parse_below (hplain : ∀ line ∈ ops, IsPlainLine line)
    (hop : ∃ line ∈ ops, isOpLine line = true) {bodies : List (List JsString)}
    (hbodies : ∀ body ∈ bodies, IsSectionBody body)
    (hbatches : Forall₂ (fun body edits => parseEdits xxHash32 (parsedLines body) 1 0 = some edits)
      bodies batches) (h : parseEdits xxHash32 (parsedLines ops) lineNum editIndex = some edits) :
    ∃ merged, parseEdits xxHash32 (parsedLines (ops ++ bodies.flatten)) lineNum editIndex =
        some merged ∧ edits.length + batches.flatten.length ≤ merged.length ∧
      (merged.map HashlineEdit.bare = (edits ++ batches.flatten).map HashlineEdit.bare →
        List.IsChain JoinsAt (ops :: bodies)) := by
  induction hbatches generalizing ops lineNum editIndex edits with
  | nil =>
    refine ⟨edits, by rw [flatten_nil, append_nil]; exact h, by simp, fun _ => ?_⟩
    exact List.IsChain.singleton ops
  | @cons body batch bodies batches hbatch _ ih =>
    rw [forall_mem_cons] at hbodies
    obtain ⟨lead, ops', hled⟩ := isLed_of_parse hbodies.1 hbatch
    obtain ⟨line, rest, hops', hline⟩ := hled.starts
    have hbodyPlain := hbodies.1.plain
    rw [hled.eq, forall_mem_append] at hbodyPlain
    obtain ⟨hleadPlain, hopsPlain'⟩ := hbodyPlain
    have hlinePlain : IsPlainLine line := hopsPlain' line (hops' ▸ mem_cons_self)
    have hop' : ∃ l ∈ ops', isOpLine l = true := ⟨line, hops' ▸ mem_cons_self, hline⟩
    have hlead : ∀ l ∈ lead.map dropCR, IsPlainLine l ∧ isOpLine l = false := by
      intro l hl
      obtain ⟨l', hl', rfl⟩ := mem_map.mp hl
      refine ⟨isPlainLine_dropCR (hleadPlain l' hl'), ?_⟩
      rw [isOpLine_dropCR]
      exact eq_false_iff.mpr fun hopl => trim_ne_nil_of_isOpLine hopl (hled.blank l' hl')
    obtain ⟨first, hfirst, hlength, hbare⟩ := parseEdits_joined hplain hop hlead h
    have hown : parseEdits xxHash32 (parsedLines (body ++ [])) 1 0 = _ := hled.parse_eq [] 1 0
    rw [append_nil, append_nil, hbatch] at hown
    obtain ⟨edits', hedits', hlength', hbare'⟩ := parse_at hopsPlain' hown.symm
      (lineNum + (ops.map dropCR ++ lead.map dropCR).length) (editIndex + first.length)
    obtain ⟨merged', hmerged', hle, hchain⟩ := ih hopsPlain' hop' hbodies.2 hedits'
    have hlines : parsedLines (ops ++ (body :: bodies).flatten) =
        (ops.map dropCR ++ lead.map dropCR) ++ parsedLines (ops' ++ bodies.flatten) := by
      rw [flatten_cons, hled.eq, append_assoc, ← append_assoc ops,
        parsedLines_append _ (append_ne_nil_of_left_ne_nil hled.ne_nil _), map_append]
    have hmarkers : ∀ l ∈ ops.map dropCR ++ lead.map dropCR,
        isEnvelopeOrAbortMarkerLine l = false := by
      intro l hl
      rcases mem_append.mp hl with hl | hl
      · obtain ⟨l', hl', rfl⟩ := mem_map.mp hl
        exact (isPlainLine_dropCR (hplain l' hl')).2
      · exact (hlead l hl).1.2
    refine ⟨first ++ merged', ?_, ?_, fun hsame => ?_⟩
    · rw [hlines, parseEdits_append hmarkers, hfirst, Option.bind_some, hmerged']
      · rfl
      · rw [hops', cons_append]
        exact head?_parsedLines_op hlinePlain hline _
    · rw [flatten_cons, length_append, length_append]
      omega
    · -- neither part can have grown
      rw [flatten_cons, map_append, map_append, map_append] at hsame
      have hlengths := congrArg length hsame
      simp only [length_append, length_map] at hlengths
      obtain ⟨hfirstSame, hrestSame⟩ :=
        append_inj hsame (by simp only [length_map]; omega)
      obtain ⟨hnil, hends⟩ := hbare hfirstSame
      have hlead0 : lead = [] := map_eq_nil_iff.mp hnil
      have hbodyEq : body = ops' := by rw [hled.eq, hlead0, nil_append]
      have hrest := hchain (by rw [hrestSame, map_append, hbare'])
      rw [isChain_cons_cons, hbodyEq]
      refine ⟨⟨hends, fun l hl => ?_⟩, hrest⟩
      rw [hops'] at hl
      obtain rfl := some.inj hl
      exact hline

/-! ## Neighbours that can be joined -/

theorem parseEdits_dropCR (hplain : ∀ line ∈ body, IsPlainLine line) (hends : EndsPlain body)
    (lineNum editIndex : Nat) : parseEdits xxHash32 (body.map dropCR) lineNum editIndex =
      parseEdits xxHash32 (parsedLines body) lineNum editIndex := by
  rcases eq_nil_or_concat body with rfl | ⟨front, line, rfl⟩
  · rfl
  · rw [concat_eq_append] at hplain hends ⊢
    obtain ⟨hne, hop | hCR⟩ := hends line (by rw [getLast?_concat]; rfl)
    · -- an operation is read the same way with the carriage return
      rw [forall_mem_append] at hplain
      have hline : IsPlainLine line := hplain.2 line (mem_singleton_self line)
      have hmarkers : ∀ l ∈ front.map dropCR, isEnvelopeOrAbortMarkerLine l = false := by
        intro l hl
        obtain ⟨l', hl', rfl⟩ := mem_map.mp hl
        exact (isPlainLine_dropCR (hplain.1 l' hl')).2
      have hlast : ∀ l, (l = line ∨ l = dropCR line) → ∀ n k,
          parseEdits xxHash32 (front.map dropCR ++ [l]) n k =
            (parseEdits xxHash32 (front.map dropCR) n k).bind fun edits =>
              ((readOp xxHash32 line).bind fun op => op.edits [] (n + (front.map dropCR).length)
                (k + edits.length)).map (edits ++ ·) := by
        intro l hl n k
        have hl' : IsPlainLine l ∧ isOpLine l = true ∧
            readOp xxHash32 l = readOp xxHash32 line := by
          rcases hl with rfl | rfl
          · exact ⟨hline, hop, rfl⟩
          · exact ⟨isPlainLine_dropCR hline, (isOpLine_dropCR line).trans hop, readOp_dropCR ..⟩
        rw [parseEdits_append hmarkers]
        · congr 1
          funext edits
          rw [parseEdits_opBlock hl'.1 hl'.2.1 (fun p hp => absurd hp not_mem_nil), hl'.2.2]
        · intro l₂ hl₂
          obtain rfl := some.inj hl₂
          rw [isPayloadTerminatorLine_eq hl'.1, hl'.2.1]
      rw [parsedLines_concat hne, map_append, map_singleton, hlast _ (.inr rfl), hlast _ (.inl rfl)]
    · rw [parsedLines_concat hne, map_append, map_singleton, dropCR_eq_self.mpr hCR]

theorem parse_joinsAt {next : List JsString} {more : List (List JsString)}
    (hbody : ∀ line ∈ body, IsPlainLine line) (hnext : IsSectionBody next)
    (hjoins : JoinsAt body next) (lineNum editIndex : Nat) :
    parseEdits xxHash32 (parsedLines (body ++ (next :: more).flatten)) lineNum editIndex =
      (parseEdits xxHash32 (parsedLines body) lineNum editIndex).bind fun edits =>
        (parseEdits xxHash32 (parsedLines (next :: more).flatten) (lineNum + body.length)
          (editIndex + edits.length)).map (edits ++ ·) := by
  cases hcons : next with
  | nil => exact absurd hcons hnext.ne_nil
  | cons line rest =>
    subst hcons
    have hmarkers : ∀ l ∈ body.map dropCR, isEnvelopeOrAbortMarkerLine l = false := by
      intro l hl
      obtain ⟨l', hl', rfl⟩ := mem_map.mp hl
      exact (isPlainLine_dropCR (hbody l' hl')).2
    rw [flatten_cons, cons_append, parsedLines_append _ (cons_ne_nil _ _),
      parseEdits_append hmarkers, parseEdits_dropCR hbody hjoins.1, length_map]
    exact head?_parsedLines_op (hnext.plain line mem_cons_self) (hjoins.2 line rfl) _

/-- The merged edits are the batches one after the other, each shifted by some line
numbers and indices. -/
def IsShiftedConcat : List (List HashlineEdit) → List HashlineEdit → Prop
  | [], merged => merged = []
  | batch :: batches, merged => ∃ lineNums indices rest,
      merged = batch.map (HashlineEdit.shift lineNums indices) ++ rest ∧
        IsShiftedConcat batches rest

theorem IsShiftedConcat.bare {merged : List HashlineEdit} (h : IsShiftedConcat batches merged) :
    merged.map HashlineEdit.bare = batches.flatten.map HashlineEdit.bare := by
  induction batches generalizing merged with
  | nil =>
    obtain rfl := h
    rfl
  | cons batch batches ih =>
    obtain ⟨lineNums, indices, rest, rfl, hrest⟩ := h
    rw [map_append, map_bare_shift, ih hrest, flatten_cons, map_append]

/-- The parse of a section is none at one place if it is at another. -/
theorem parse_eq_none (h : ∀ line ∈ body, IsPlainLine line)
    (lineNum editIndex lineNum' editIndex' : Nat) :
    parseEdits xxHash32 (parsedLines body) lineNum editIndex = none ↔
      parseEdits xxHash32 (parsedLines body) lineNum' editIndex' = none := by
  have himp : ∀ n k n' k', parseEdits xxHash32 (parsedLines body) n k = none →
      parseEdits xxHash32 (parsedLines body) n' k' = none := by
    intro n k n' k' hnone
    by_contra hsome
    obtain ⟨edits, hedits⟩ := Option.ne_none_iff_exists'.mp hsome
    obtain ⟨edits', hedits', -⟩ := parse_at h hedits n k
    rw [hnone] at hedits'
    cases hedits'
  exact ⟨himp _ _ _ _, himp _ _ _ _⟩

/-- **Neighbours that can be joined parse one after the other**: the merged parse fails
if one of them does, and otherwise shifts their edits. -/
theorem parse_of_isChain {bodies : List (List JsString)} (hne : bodies ≠ [])
    (hbodies : ∀ body ∈ bodies, IsSectionBody body) (hchain : List.IsChain JoinsAt bodies)
    (d editIndex : Nat) :
    (parseEdits xxHash32 (parsedLines bodies.flatten) (1 + d) editIndex = none ↔
      ∃ body ∈ bodies, parseEdits xxHash32 (parsedLines body) 1 0 = none) ∧ ∀ batches, Forall₂
        (fun body edits => parseEdits xxHash32 (parsedLines body) 1 0 = some edits) bodies batches →
      ∀ merged, parseEdits xxHash32 (parsedLines bodies.flatten) (1 + d) editIndex =
        some merged → IsShiftedConcat batches merged := by
  induction bodies generalizing d editIndex with
  | nil => exact absurd rfl hne
  | cons body bodies ih =>
    rw [forall_mem_cons] at hbodies
    have hplain := hbodies.1.plain
    have hshift : parseEdits xxHash32 (parsedLines body) (1 + d) editIndex =
        (parseEdits xxHash32 (parsedLines body) 1 0).map
          (map (HashlineEdit.shift d editIndex)) := by
      have h : parseEdits xxHash32 (parsedLines body) (1 + d) (0 + editIndex) = _ :=
        parseEdits_shift (parsedLines body) 1 0 d editIndex (markers_parsedLines hplain)
      rwa [Nat.zero_add] at h
    cases bodies with
    | nil =>
      rw [flatten_singleton]
      refine ⟨by rw [parse_eq_none hplain (1 + d) editIndex 1 0]; simp, ?_⟩
      rintro batches hbatches merged hmerged
      obtain ⟨edits, rest, hedits, hrest, rfl⟩ := forall₂_cons_left_iff.mp hbatches
      obtain rfl := forall₂_nil_left_iff.mp hrest
      rw [hshift, hedits] at hmerged
      obtain rfl := some.inj hmerged
      exact ⟨d, editIndex, [], (append_nil _).symm, rfl⟩
    | cons next more =>
      rw [isChain_cons_cons] at hchain
      have hstep : parseEdits xxHash32 (parsedLines (body ++ (next :: more).flatten)) (1 + d)
          editIndex = _ :=
        parse_joinsAt hplain (hbodies.2 next mem_cons_self) hchain.1 (1 + d) editIndex
      rw [flatten_cons, hstep, hshift]
      cases hown : parseEdits xxHash32 (parsedLines body) 1 0 with
      | none =>
        refine ⟨iff_of_true rfl ⟨body, mem_cons_self, hown⟩, fun batches hbatches => ?_⟩
        obtain ⟨edits, rest, hedits, -, -⟩ := forall₂_cons_left_iff.mp hbatches
        rw [hown] at hedits
        cases hedits
      | some edits =>
        obtain ⟨hnone, hconcat⟩ := ih (cons_ne_nil _ _) hbodies.2 hchain.2
          (d + body.length) (editIndex + edits.length)
        rw [Option.map_some, Option.bind_some, length_map, Nat.add_assoc]
        constructor
        · rw [Option.map_eq_none_iff, hnone]
          constructor
          · rintro ⟨body', hmem, hbody'⟩
            exact ⟨body', mem_cons_of_mem _ hmem, hbody'⟩
          · rintro ⟨body', hmem, hbody'⟩
            rcases mem_cons.mp hmem with rfl | hmem
            · rw [hown] at hbody'
              cases hbody'
            · exact ⟨body', hmem, hbody'⟩
        · intro batches hbatches merged hmerged
          obtain ⟨edits', rest, hedits', hrest, rfl⟩ := forall₂_cons_left_iff.mp hbatches
          rw [hown] at hedits'
          obtain rfl := some.inj hedits'
          obtain ⟨tail, htail, rfl⟩ := Option.map_eq_some_iff.mp hmerged
          exact ⟨d, editIndex, tail, rfl, hconcat rest hrest tail htail⟩

/-! ## Lines that are rejected anywhere -/

variable (xxHash32) in
/-- The first filled line is no operation, or some operation is malformed or lacks the
payload line it needs. -/
def HasRejectedLine (ls : List JsString) : Prop :=
  (∃ lead line rest, ls = lead ++ line :: rest ∧ (∀ l ∈ lead, trim l = []) ∧ trim line ≠ [] ∧
    isOpLine line = false) ∨
  ∃ before line after, ls = before ++ line :: after ∧ isOpLine line = true ∧
    ((readOp xxHash32 line).bind fun op => op.edits (payloadOf after) 0 0) = none

theorem edits_eq_none (op : Option HashlineOp) (payload : List JsString) (lineNum editIndex : Nat) :
    (op.bind fun op => op.edits payload lineNum editIndex) = none ↔
      (op.bind fun op => op.edits payload 0 0) = none := by
  cases op with
  | none => exact Iff.rfl
  | some op =>
    have hshift := op.edits_shift payload 0 0 lineNum editIndex
    rw [Nat.zero_add, Nat.zero_add] at hshift
    rw [Option.bind_some, Option.bind_some, hshift, Option.map_eq_none_iff]

theorem readOp_eq_none (h : isOpLine line = false) : readOp xxHash32 line = none := by
  cases hread : readOp xxHash32 line with
  | none => rfl
  | some op => exact absurd (isOpLine_of_readOp hread) (by rw [h]; exact false_ne_true)

theorem hasRejectedLine_cons_blank (hblank : trim line = []) (rest : List JsString) :
    HasRejectedLine xxHash32 (line :: rest) ↔ HasRejectedLine xxHash32 rest := by
  constructor
  · rintro (⟨lead, l, r, heq, hlead, hfilled, hop⟩ | ⟨before, l, after, heq, hop, hnone⟩)
    · cases lead with
      | nil => exact absurd ((List.cons.inj heq).1 ▸ hblank) hfilled
      | cons l' lead =>
        exact .inl ⟨lead, l, r, (List.cons.inj heq).2, (forall_mem_cons.mp hlead).2, hfilled, hop⟩
    · cases before with
      | nil => exact absurd ((List.cons.inj heq).1 ▸ hblank) (trim_ne_nil_of_isOpLine hop)
      | cons l' before => exact .inr ⟨before, l, after, (List.cons.inj heq).2, hop, hnone⟩
  · rintro (⟨lead, l, r, rfl, hlead, hfilled, hop⟩ | ⟨before, l, after, rfl, hop, hnone⟩)
    · exact .inl ⟨line :: lead, l, r, rfl, forall_mem_cons.mpr ⟨hblank, hlead⟩, hfilled, hop⟩
    · exact .inr ⟨line :: before, l, after, rfl, hop, hnone⟩

/-- What is left below the payload starts with an operation. -/
theorem head?_drop_payloadOf (hplain : ∀ l ∈ rest, IsPlainLine l) :
    ∀ l ∈ (rest.drop (payloadOf rest).length).head?, isOpLine l = true := by
  intro l hl
  have hmem := mem_of_mem_drop (mem_of_mem_head? hl)
  rw [drop_payloadOf] at hl
  have hstop := head?_dropWhile_not (fun line => !isPayloadTerminatorLine line) rest
  rw [hl] at hstop
  rw [← isPayloadTerminatorLine_eq (hplain l hmem)]
  simpa using hstop

theorem hasRejectedLine_cons_filled (hfilled : trim line ≠ []) (hplain : ∀ l ∈ rest, IsPlainLine l)
    : HasRejectedLine xxHash32 (line :: rest) ↔
      ((readOp xxHash32 line).bind fun op => op.edits (payloadOf rest) 0 0) = none ∨
        HasRejectedLine xxHash32 (rest.drop (payloadOf rest).length) := by
  constructor
  · rintro (⟨lead, l, r, heq, hlead, hl, hop⟩ | ⟨before, l, after, heq, hop, hnone⟩)
    · cases lead with
      | nil =>
        obtain ⟨rfl, rfl⟩ := List.cons.inj heq
        rw [readOp_eq_none hop]
        exact .inl rfl
      | cons l' lead =>
        exact absurd (hlead l' mem_cons_self) ((List.cons.inj heq).1 ▸ hfilled)
    · cases before with
      | nil =>
        obtain ⟨rfl, rfl⟩ := List.cons.inj heq
        exact .inl hnone
      | cons l' before =>
        have hrest : rest = before ++ l :: after := (List.cons.inj heq).2
        subst hrest
        -- the operation lies below the payload
        have hpayload : payloadOf (before ++ l :: after) = payloadOf before := by
          apply payloadOf_append
          intro l₂ hl₂
          obtain rfl := some.inj hl₂
          rw [isPayloadTerminatorLine_eq (hplain l (by simp)), hop]
        rw [hpayload, drop_append_of_le_length (payloadOf_length_le before)]
        exact .inr (.inr ⟨_, l, after, rfl, hop, hnone⟩)
  · rintro (hnone | ⟨lead, l, r, heq, hlead, hl, hop⟩ | ⟨before, l, after, heq, hop, hnone⟩)
    · by_cases hop : isOpLine line = true
      · exact .inr ⟨[], line, rest, rfl, hop, hnone⟩
      · exact .inl ⟨[], line, rest, rfl, fun l h => absurd h not_mem_nil, hfilled,
          eq_false_iff.mpr hop⟩
    · have hhead := head?_drop_payloadOf hplain
      rw [heq] at hhead
      cases lead with
      | nil => exact absurd (hhead l rfl) (by rw [hop]; exact false_ne_true)
      | cons l' lead =>
        exact absurd (hlead l' mem_cons_self) (trim_ne_nil_of_isOpLine (hhead l' rfl))
    · refine .inr ⟨line :: (payloadOf rest ++ before), l, after, ?_, hop, hnone⟩
      rw [cons_append, append_assoc, ← heq, drop_payloadOf, payloadOf, takeWhile_append_dropWhile]

/-- **What the parser rejects.** -/
theorem parseEdits_eq_none (hplain : ∀ line ∈ ls, IsPlainLine line) (lineNum editIndex : Nat) :
    parseEdits xxHash32 ls lineNum editIndex = none ↔ HasRejectedLine xxHash32 ls := by
  induction h : ls.length using Nat.strong_induction_on generalizing ls lineNum editIndex with
  | _ n ih =>
    cases ls with
    | nil =>
      rw [parseEdits_nil]
      simp [HasRejectedLine]
    | cons line rest =>
      rw [forall_mem_cons] at hplain
      rw [length_cons] at h
      by_cases hblank : trim line = []
      · rw [parseEdits_blank hblank, ih rest.length (by omega) hplain.2 _ _ rfl,
          hasRejectedLine_cons_blank hblank]
      · rw [parseEdits_op hblank hplain.1.2, hasRejectedLine_cons_filled hblank hplain.2,
          ← edits_eq_none _ _ lineNum editIndex]
        cases readOp xxHash32 line with
        | none => simp
        | some op =>
          rw [Option.bind_some, Option.bind_some]
          cases op.edits (payloadOf rest) lineNum editIndex with
          | none => simp
          | some edits =>
            rw [Option.bind_some, Option.map_eq_none_iff,
              ih (rest.drop (payloadOf rest).length).length (by rw [length_drop]; omega)
                (fun l hl => hplain.2 l (mem_of_mem_drop hl)) _ _ rfl]
            simp

end Parse

/-! ## Merged sections -/

section Merged
variable (xxHash32 : List UInt8 → UInt32)
variable {bodies : List (List JsString)} {body : List JsString}
variable {batches : List (List HashlineEdit)}

/-- Parsing the merged text gives the edits of the separate parses one after the other, and
throws if and only if one of them does. -/
structure IsConcatenation (diffs : List JsString) (merged : JsString) : Prop where
  concat : ∀ batches,
    List.Forall₂ (fun diff edits => parseHashline xxHash32 diff = .ok edits) diffs batches →
    ∀ edits, parseHashline xxHash32 merged = .ok edits → IsShiftedConcat batches edits
  throws : (∃ e, parseHashline xxHash32 merged = .error e) ↔
    ∃ diff ∈ diffs, ∃ e, parseHashline xxHash32 diff = .error e

variable {xxHash32}

theorem parseHashline_unlines (hbody : IsSectionBody body) :
    (parseHashline xxHash32 (unlines body)).toOption =
      parseEdits xxHash32 (parsedLines body) 1 0 := by
  rw [parseHashline, parseHashlineWithWarnings_unlines hbody, toOption_bind, parseEdits]
  cases (parseLines xxHash32 (parsedLines body) 1 0 0).toOption <;> rfl

theorem parseHashline_eq_ok (hbody : IsSectionBody body) {edits : List HashlineEdit} :
    parseHashline xxHash32 (unlines body) = .ok edits ↔
      parseEdits xxHash32 (parsedLines body) 1 0 = some edits := by
  rw [← parseHashline_unlines hbody]
  cases parseHashline xxHash32 (unlines body) <;> simp [Except.toOption]

theorem parseHashline_eq_error (hbody : IsSectionBody body) :
    (∃ e, parseHashline xxHash32 (unlines body) = .error e) ↔
      parseEdits xxHash32 (parsedLines body) 1 0 = none := by
  rw [← parseHashline_unlines hbody]
  cases parseHashline xxHash32 (unlines body) <;> simp [Except.toOption]

theorem forall₂_parseHashline (hbodies : ∀ body ∈ bodies, IsSectionBody body) :
    Forall₂ (fun diff edits => parseHashline xxHash32 diff = .ok edits)
        (bodies.map unlines) batches ↔
      Forall₂ (fun body edits => parseEdits xxHash32 (parsedLines body) 1 0 = some edits)
        bodies batches := by
  rw [forall₂_map_left_iff]
  induction bodies generalizing batches with
  | nil => rw [forall₂_nil_left_iff, forall₂_nil_left_iff]
  | cons body bodies ih =>
    rw [forall_mem_cons] at hbodies
    rw [forall₂_cons_left_iff, forall₂_cons_left_iff]
    simp only [parseHashline_eq_ok hbodies.1, ih hbodies.2]

theorem isConcatenation_iff (hbodies : ∀ body ∈ bodies, IsSectionBody body)
    (hflat : IsSectionBody bodies.flatten) :
    IsConcatenation xxHash32 (bodies.map unlines) (unlines bodies.flatten) ↔
      (parseEdits xxHash32 (parsedLines bodies.flatten) 1 0 = none ↔
        ∃ body ∈ bodies, parseEdits xxHash32 (parsedLines body) 1 0 = none) ∧ ∀ batches, Forall₂
          (fun body edits => parseEdits xxHash32 (parsedLines body) 1 0 = some edits)
          bodies batches →
        ∀ merged, parseEdits xxHash32 (parsedLines bodies.flatten) 1 0 = some merged →
          IsShiftedConcat batches merged := by
  have hthrows : (∃ diff ∈ bodies.map unlines, ∃ e, parseHashline xxHash32 diff = .error e) ↔
      ∃ body ∈ bodies, parseEdits xxHash32 (parsedLines body) 1 0 = none := by
    constructor
    · rintro ⟨diff, hdiff, he⟩
      obtain ⟨body, hbody, rfl⟩ := mem_map.mp hdiff
      exact ⟨body, hbody, (parseHashline_eq_error (hbodies body hbody)).mp he⟩
    · rintro ⟨body, hbody, he⟩
      exact ⟨unlines body, mem_map_of_mem hbody,
        (parseHashline_eq_error (hbodies body hbody)).mpr he⟩
  rw [← parseHashline_eq_error hflat, ← hthrows]
  simp only [← forall₂_parseHashline hbodies, ← parseHashline_eq_ok hflat]
  exact ⟨fun h => ⟨h.throws, h.concat⟩, fun h => ⟨h.2, h.1⟩⟩

theorem exists_batches (h : ∀ body ∈ bodies, parseEdits xxHash32 (parsedLines body) 1 0 ≠ none) :
    ∃ batches, Forall₂ (fun body edits => parseEdits xxHash32 (parsedLines body) 1 0 = some edits)
      bodies batches := by
  induction bodies with
  | nil => exact ⟨[], .nil⟩
  | cons body bodies ih =>
    rw [forall_mem_cons] at h
    obtain ⟨edits, hedits⟩ := Option.ne_none_iff_exists'.mp h.1
    obtain ⟨batches, hbatches⟩ := ih h.2
    exact ⟨edits :: batches, .cons hedits hbatches⟩

section
variable (hne : bodies ≠ []) (hbodies : ∀ body ∈ bodies, IsSectionBody body)
include hne hbodies

/-- Sections that all parse are parsed together, and their edits are the same ones only if
every two neighbours can be joined. -/
theorem parse_flatten
    (hbatches : Forall₂ (fun body edits => parseEdits xxHash32 (parsedLines body) 1 0 = some edits)
      bodies batches) :
    ∃ merged, parseEdits xxHash32 (parsedLines bodies.flatten) 1 0 = some merged ∧
      (merged.map HashlineEdit.bare = batches.flatten.map HashlineEdit.bare →
        List.IsChain JoinsAt bodies) := by
  obtain ⟨body, bodies, rfl⟩ := exists_cons_of_ne_nil hne
  obtain ⟨batch, rest, hbatch, hrest, rfl⟩ := forall₂_cons_left_iff.mp hbatches
  rw [forall_mem_cons] at hbodies
  obtain ⟨lead, ops, hled⟩ := isLed_of_parse hbodies.1 hbatch
  obtain ⟨line, tail, hops, hline⟩ := hled.starts
  have hplain : ∀ l ∈ ops, IsPlainLine l := fun l hl =>
    hbodies.1.plain l (hled.eq ▸ mem_append_right lead hl)
  have hown : parseEdits xxHash32 (parsedLines (body ++ [])) 1 0 = _ := hled.parse_eq [] 1 0
  rw [append_nil, append_nil, hbatch] at hown
  obtain ⟨merged, hmerged, -, hchain⟩ := parse_below hplain
    ⟨line, hops ▸ mem_cons_self, hline⟩ hbodies.2 hrest hown.symm
  refine ⟨merged, by rw [flatten_cons, hled.parse_eq, hmerged], fun hsame => ?_⟩
  have h := hchain hsame
  cases bodies with
  | nil => exact List.IsChain.singleton body
  | cons next more =>
    rw [isChain_cons_cons] at h ⊢
    exact ⟨⟨hled.endsPlain_iff.mpr h.1.1, h.1.2⟩, h.2⟩

theorem isConcatenation_iff_joins (hflat : IsSectionBody bodies.flatten) :
    IsConcatenation xxHash32 (bodies.map unlines) (unlines bodies.flatten) ↔
      List.IsChain JoinsAt bodies ∨ HasRejectedLine xxHash32 (parsedLines bodies.flatten) := by
  rw [isConcatenation_iff hbodies hflat,
    ← parseEdits_eq_none (isPlainLine_parsedLines hflat.plain) 1 0]
  constructor
  · rintro ⟨hthrows, hconcat⟩
    by_cases hfails : ∃ body ∈ bodies, parseEdits xxHash32 (parsedLines body) 1 0 = none
    · exact .inr (hthrows.mpr hfails)
    · push Not at hfails
      obtain ⟨batches, hbatches⟩ := exists_batches hfails
      obtain ⟨merged, hmerged, hchain⟩ := parse_flatten hne hbodies hbatches
      exact .inl (hchain (hconcat batches hbatches merged hmerged).bare)
  · rintro (hchain | hnone)
    · exact parse_of_isChain hne hbodies hchain 0 0
    · rw [hnone]
      refine ⟨iff_of_true rfl ?_, fun batches _ merged hmerged => by cases hmerged⟩
      by_contra hfails
      push Not at hfails
      obtain ⟨batches, hbatches⟩ := exists_batches hfails
      obtain ⟨merged, hmerged, -⟩ := parse_flatten hne hbodies hbatches
      rw [hnone] at hmerged
      cases hmerged

end

/-- Two diffs that can be written below each other: the upper one does not end with an empty
line, nor with a carriage return on a payload line, and the lower one starts with an
operation. -/
def DiffsJoin (diff next : JsString) : Prop := JoinsAt (lines diff) (lines next)

/-- **Merged sections are parsed like the separate ones exactly when no line can be taken
for payload.**  For every input and every path, the merged section's parse is the
concatenation of the separate parses, and throws if and only if one of them does, if and
only if every two neighbours among the path's diffs can be joined, or the merged text has a
line that the parser rejects anywhere. -/
theorem mergeSamePathSections_iff {input : JsString} {options : SplitHashlineOptions}
    {sections : List HashlineInputSection}
    (h : splitHashlineInputs input options = .ok sections) {s : HashlineInputSection}
    (hs : s ∈ mergeSamePathSections sections) :
    IsConcatenation xxHash32 (diffsOf sections s.path) s.diff ↔
      List.IsChain DiffsJoin (diffsOf sections s.path) ∨
        HasRejectedLine xxHash32 (popBlank (splitLines s.diff)) := by
  obtain ⟨bodies, hdiffs, hbodies, hflat, hdiff⟩ := mergeSamePathSections_body h hs
  have hne : bodies ≠ [] := by
    rintro rfl
    exact hflat.ne_nil rfl
  have hLF : ∀ body ∈ bodies, lines (unlines body) = body := fun body hbody =>
    lines_unlines (hbodies body hbody).ne_nil
      fun line hline => ((hbodies body hbody).lines line hline).LF_not_mem
  have hjoin : List.IsChain DiffsJoin (bodies.map unlines) ↔ List.IsChain JoinsAt bodies := by
    rw [isChain_map]
    apply List.IsChain.iff_of_mem_imp
    intro body next hbody hnext
    rw [DiffsJoin, hLF body hbody, hLF next hnext]
  rw [hdiffs, hdiff, isConcatenation_iff_joins hne hbodies hflat, hjoin, parsedLines,
    splitLines_unlines hflat.ne_nil fun line hline => (hflat.lines line hline).LF_not_mem]

end Merged

/-- A file in two sections with an empty line between them: the separate parses drop it, in
the merged text it is inserted. -/
theorem not_isConcatenation_blank :
    splitHashlineInputs (js "§a\n»BOF\nx\n\n§a\n»EOF\ny") ⟨js "/w", none⟩ =
        .ok [⟨js "a", js "»BOF\nx\n"⟩, ⟨js "a", js "»EOF\ny"⟩] ∧
      mergeSamePathSections [⟨js "a", js "»BOF\nx\n"⟩, ⟨js "a", js "»EOF\ny"⟩] =
        [⟨js "a", js "»BOF\nx\n\n»EOF\ny"⟩] ∧
      ¬ IsConcatenation Xxh32.xxh32 [js "»BOF\nx\n", js "»EOF\ny"] (js "»BOF\nx\n\n»EOF\ny") := by
  refine ⟨by with_unfolding_all rfl, by decide, fun h => ?_⟩
  have hconcat := h.concat [[.insert .bof (js "x") 1 0], [.insert .eof (js "y") 1 0]]
    (.cons (by decide) (.cons (by decide) .nil))
    [.insert .bof (js "x") 1 0, .insert .bof [] 1 1, .insert .eof (js "y") 4 2] (by decide)
  have hlength := congrArg length hconcat.bare
  rw [length_map, length_map] at hlength
  simp at hlength

/-- Without the empty line the sections join. -/
theorem mergeSamePathSections_iff_joined : IsConcatenation Xxh32.xxh32
      (diffsOf [⟨js "a", js "»BOF\nx"⟩, ⟨js "a", js "»EOF\ny"⟩] (js "a"))
      (js "»BOF\nx\n»EOF\ny") := by
  have hsplit : splitHashlineInputs (js "§a\n»BOF\nx\n§a\n»EOF\ny") ⟨js "/w", none⟩ =
      .ok [⟨js "a", js "»BOF\nx"⟩, ⟨js "a", js "»EOF\ny"⟩] := by
    with_unfolding_all rfl
  have hmerged : (⟨js "a", js "»BOF\nx\n»EOF\ny"⟩ : HashlineInputSection) ∈
      mergeSamePathSections [⟨js "a", js "»BOF\nx"⟩, ⟨js "a", js "»EOF\ny"⟩] := by
    decide
  have hdiffs : diffsOf [⟨js "a", js "»BOF\nx"⟩, ⟨js "a", js "»EOF\ny"⟩] (js "a") =
      [js "»BOF\nx", js "»EOF\ny"] := by
    decide
  have hends : ∀ line ∈ (lines (js "»BOF\nx")).getLast?,
      line ≠ [] ∧ (isOpLine line = true ∨ line.getLast? ≠ some CR) := by
    decide
  have hstarts : ∀ line ∈ (lines (js "»EOF\ny")).head?, isOpLine line = true := by
    decide
  refine (mergeSamePathSections_iff hsplit hmerged).mpr (.inl ?_)
  dsimp only
  rw [hdiffs]
  exact isChain_cons_cons.mpr ⟨⟨hends, hstarts⟩, .singleton _⟩

end GajaeCode
