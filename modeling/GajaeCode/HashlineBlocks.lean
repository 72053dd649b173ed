import GajaeCode.HashlineSections

/-! # Operations and their payload

What the parser makes of a list of lines, told operation by operation: an operation line is
read on its own (`readOp`), the lines below it up to the next one are its payload, and the
edits depend on nothing else.  Line numbers and indices of the edits are shifted with the
place.
-/
namespace GajaeCode
open JsString List Option

/-- An operation line as the parser reads it. -/
inductive HashlineOp where
  | insert (cursor : HashlineCursor) (inlineBody : Option JsString)
  | replace (range : ParsedRange)
  deriving DecidableEq

/-- The edits of an operation with its payload; none if payload is missing. -/
def HashlineOp.edits (payload : List JsString) (lineNum editIndex : Nat) :
    HashlineOp → Option (List HashlineEdit)
  | .insert cursor inlineBody =>
      if payload.isEmpty && inlineBody.isNone then none
      else some (insertEdits cursor (inlineBody.toList ++ payload) lineNum editIndex)
  | .replace range =>
      some (insertEdits (.beforeAnchor range.start) payload lineNum editIndex ++
        rangeDeletes (expandRange range) lineNum (editIndex + payload.length))

/-- An edit of a place further down. -/
def HashlineEdit.shift (lineNums indices : Nat) : HashlineEdit → HashlineEdit
  | .insert cursor text lineNum index => .insert cursor text (lineNum + lineNums) (index + indices)
  | .delete anchor lineNum index => .delete anchor (lineNum + lineNums) (index + indices)

def payloadOf (following : List JsString) : List JsString :=
  following.takeWhile (fun line => !isPayloadTerminatorLine line)

def isOpLine (line : JsString) : Bool := line.head?.any isOpChar

section Shift

theorem insertEdits_shift (cursor : HashlineCursor) (texts : List JsString)
    (lineNum editIndex d j : Nat) : insertEdits cursor texts (lineNum + d) (editIndex + j) =
      (insertEdits cursor texts lineNum editIndex).map (HashlineEdit.shift d j) := by
  apply ext_getElem
  · simp [insertEdits]
  · intro i _ _
    simp only [insertEdits, getElem_mapIdx, getElem_map, HashlineEdit.shift]
    rw [Nat.add_right_comm]

theorem rangeDeletes_shift (anchors : List Anchor) (lineNum editIndex d j : Nat) :
    rangeDeletes anchors (lineNum + d) (editIndex + j) =
      (rangeDeletes anchors lineNum editIndex).map (HashlineEdit.shift d j) := by
  apply ext_getElem
  · simp [rangeDeletes]
  · intro i _ _
    simp only [rangeDeletes, getElem_mapIdx, getElem_map, HashlineEdit.shift]
    rw [Nat.add_right_comm]

theorem HashlineOp.edits_shift (op : HashlineOp) (payload : List JsString)
    (lineNum editIndex d j : Nat) : op.edits payload (lineNum + d) (editIndex + j) =
      (op.edits payload lineNum editIndex).map (map (HashlineEdit.shift d j)) := by
  cases op with
  | insert cursor inlineBody =>
    rw [edits, edits]
    split_ifs with hmissing
    · rfl
    · rw [insertEdits_shift, map_some]
  | replace range =>
    rw [edits, edits, map_some, map_append, ← insertEdits_shift,
      ← rangeDeletes_shift, Nat.add_right_comm]

end Shift

section Parse
variable (xxHash32 : List UInt8 → UInt32)
variable (following : List JsString)
variable {line : JsString}

def readInsertOp (kind : InsertKind) (target : JsString) (body : Option JsString) :
    Option HashlineOp :=
  (parseInsertTarget target 0 kind).toOption.map fun cursor =>
    .insert cursor (resolveInlineInsertBody xxHash32 cursor body)

/-- What an operation line says, none if it cannot be read. -/
def readOp (line : JsString) : Option HashlineOp :=
  match insertOpCapture hlOpInsertBefore line with
  | some (target, body) => readInsertOp xxHash32 .before target body
  | none =>
    match insertOpCapture hlOpInsertAfter line with
    | some (target, body) => readInsertOp xxHash32 .after target body
    | none =>
      match replaceOpCapture line with
      | some token => (parseRange token 0).toOption.map .replace
      | none => none

variable {xxHash32}

theorem parseLid_toOption (raw : JsString) (lineNum : Nat) :
    (parseLid raw lineNum).toOption = (parseLid raw 0).toOption := by
  rw [parseLid, parseLid]
  cases lidCapture raw <;> rfl

theorem toOption_bind {α β : Type} (x : Except HashlineError α) (f : α → Except HashlineError β) :
    (x >>= f).toOption = x.toOption.bind fun a => (f a).toOption := by
  cases x <;> rfl

theorem parseInsertTarget_toOption (raw : JsString) (lineNum : Nat) (kind : InsertKind) :
    (parseInsertTarget raw lineNum kind).toOption = (parseInsertTarget raw 0 kind).toOption := by
  rw [parseInsertTarget, parseInsertTarget]
  split_ifs
  · rfl
  · rfl
  · rw [toOption_bind, toOption_bind, parseLid_toOption]

theorem parseRange_toOption (raw : JsString) (lineNum : Nat) :
    (parseRange raw lineNum).toOption = (parseRange raw 0).toOption := by
  rw [parseRange, parseRange]
  split
  · rw [toOption_bind, toOption_bind, parseLid_toOption]
  · rename_i startRaw endRaw _
    split_ifs with hempty
    · rfl
    · rw [toOption_bind, toOption_bind, parseLid_toOption startRaw lineNum]
      congr 1
      funext start
      rw [toOption_bind, toOption_bind, parseLid_toOption endRaw lineNum]
      congr 1
      funext finish
      split_ifs <;> rfl
  · rfl

theorem collectPayload_toOption (lineNum : Nat) (requirePayload : Bool) :
    (collectPayload following lineNum requirePayload).toOption =
      if (payloadOf following).isEmpty && requirePayload then none
      else some (payloadOf following) := by
  rw [collectPayload, ← payloadOf]
  split_ifs <;> rfl

theorem parseInsertOp_toOption (kind : InsertKind) (target : JsString) (body : Option JsString)
    (lineNum editIndex : Nat) (following : List JsString) :
    (parseInsertOp xxHash32 kind target body lineNum editIndex following).toOption =
      (readInsertOp xxHash32 kind target body).bind fun op =>
        (op.edits (payloadOf following) lineNum editIndex).map fun edits =>
          (edits, (payloadOf following).length) := by
  rw [parseInsertOp, toOption_bind, parseInsertTarget_toOption, readInsertOp]
  cases (parseInsertTarget target 0 kind).toOption with
  | none => rfl
  | some cursor =>
    rw [bind_some, map_some, bind_some, toOption_bind,
      collectPayload_toOption, HashlineOp.edits]
    split_ifs <;> rfl

/-- **An operation line is read on its own**, and its edits come from what it says and its
payload. -/
theorem parseOp_toOption (line : JsString) (lineNum editIndex : Nat) (following : List JsString) :
    (parseOp xxHash32 line lineNum editIndex following).toOption =
      (readOp xxHash32 line).bind fun op =>
        (op.edits (payloadOf following) lineNum editIndex).map fun edits =>
          (edits, (payloadOf following).length) := by
  rw [parseOp, readOp]
  cases insertOpCapture hlOpInsertBefore line with
  | some captures => exact parseInsertOp_toOption ..
  | none =>
    cases insertOpCapture hlOpInsertAfter line with
    | some captures => exact parseInsertOp_toOption ..
    | none =>
      cases replaceOpCapture line with
      | some token =>
        dsimp only
        rw [parseReplaceOp, toOption_bind, parseRange_toOption]
        cases (parseRange token 0).toOption with
        | none => rfl
        | some range =>
          rw [bind_some, map_some, bind_some, toOption_bind,
            collectPayload_toOption, Bool.and_false, if_neg Bool.false_ne_true]
          rfl
      | none =>
        dsimp only
        split_ifs <;> rfl

/-! ## The loop -/

variable (xxHash32) in
/-- The edits of the parser's loop from an operation on, none if it throws. -/
def parseEdits (ls : List JsString) (lineNum editIndex : Nat) : Option (List HashlineEdit) :=
  (parseLines xxHash32 ls lineNum 0 editIndex).toOption.map (·.edits)

theorem payloadOf_length_le : (payloadOf following).length ≤ following.length :=
  (takeWhile_sublist _).length_le

theorem drop_payloadOf : following.drop (payloadOf following).length =
      following.dropWhile (fun line => !isPayloadTerminatorLine line) := by
  conv_lhs =>
    arg 2
    rw [← takeWhile_append_dropWhile (p := fun line => !isPayloadTerminatorLine line)
      (l := following)]
  rw [payloadOf, drop_left]

theorem parseLines_skip {ls : List JsString} {skip : Nat} (h : skip ≤ ls.length)
    (lineNum editIndex : Nat) : parseLines xxHash32 ls lineNum skip editIndex =
      parseLines xxHash32 (ls.drop skip) (lineNum + skip) 0 editIndex := by
  induction ls generalizing lineNum skip with
  | nil =>
    obtain rfl : skip = 0 := Nat.le_zero.mp h
    rfl
  | cons line rest ih =>
    cases skip with
    | zero => rfl
    | succ skip =>
      rw [parseLines, ih (Nat.le_of_succ_le_succ h), drop_succ_cons, Nat.add_assoc,
        Nat.add_comm 1 skip]

theorem parseEdits_nil (lineNum editIndex : Nat) :
    parseEdits xxHash32 [] lineNum editIndex = some [] := rfl

theorem parseEdits_blank (h : trim line = []) (rest : List JsString) (lineNum editIndex : Nat) :
    parseEdits xxHash32 (line :: rest) lineNum editIndex =
      parseEdits xxHash32 rest (lineNum + 1) editIndex := by
  rw [parseEdits, parseLines, h, if_pos isEmpty_nil, parseEdits]

/-- A line that is no marker is none of the marker texts. -/
theorem ne_marker (h : isEnvelopeOrAbortMarkerLine line = false) :
    line ≠ endPatchMarker ∧ line ≠ abortMarker ∧ line ≠ beginPatchMarker := by
  refine ⟨?_, ?_, ?_⟩
  all_goals
    rintro rfl
    exact absurd h (by decide)

theorem parseEdits_op (hfilled : trim line ≠ [])
    (hmarker : isEnvelopeOrAbortMarkerLine line = false) (rest : List JsString)
    (lineNum editIndex : Nat) : parseEdits xxHash32 (line :: rest) lineNum editIndex =
      (readOp xxHash32 line).bind fun op =>
        (op.edits (payloadOf rest) lineNum editIndex).bind fun edits =>
          (parseEdits xxHash32 (rest.drop (payloadOf rest).length)
            (lineNum + 1 + (payloadOf rest).length) (editIndex + edits.length)).map
              (edits ++ ·) := by
  obtain ⟨hend, habort, hbegin⟩ := ne_marker hmarker
  rw [parseEdits, parseLines, if_neg (by simpa using hfilled), if_neg hend, if_neg habort,
    if_neg hbegin, toOption_bind, parseOp_toOption]
  cases readOp xxHash32 line with
  | none => rfl
  | some op =>
    rw [bind_some, bind_some]
    cases op.edits (payloadOf rest) lineNum editIndex with
    | none => rfl
    | some edits =>
      rw [map_some, bind_some, bind_some]
      dsimp only
      rw [toOption_bind, parseLines_skip (payloadOf_length_le rest), parseEdits, Option.map_map]
      cases (parseLines xxHash32 (rest.drop (payloadOf rest).length)
        (lineNum + 1 + (payloadOf rest).length) 0 (editIndex + edits.length)).toOption <;> rfl

theorem parseEdits_shift (ls : List JsString) (lineNum editIndex d j : Nat)
    (hmarkers : ∀ line ∈ ls, isEnvelopeOrAbortMarkerLine line = false) :
    parseEdits xxHash32 ls (lineNum + d) (editIndex + j) =
      (parseEdits xxHash32 ls lineNum editIndex).map (map (HashlineEdit.shift d j)) := by
  induction h : ls.length using Nat.strong_induction_on generalizing ls lineNum editIndex with
  | _ n ih =>
    cases ls with
    | nil => rfl
    | cons line rest =>
      rw [forall_mem_cons] at hmarkers
      rw [length_cons] at h
      by_cases hblank : trim line = []
      · rw [parseEdits_blank hblank, parseEdits_blank hblank, Nat.add_right_comm]
        exact ih rest.length (by omega) rest _ _ hmarkers.2 rfl
      · rw [parseEdits_op hblank hmarkers.1, parseEdits_op hblank hmarkers.1]
        cases readOp xxHash32 line with
        | none => rfl
        | some op =>
          rw [bind_some, bind_some, op.edits_shift]
          cases op.edits (payloadOf rest) lineNum editIndex with
          | none => rfl
          | some edits =>
            rw [map_some, bind_some, bind_some, length_map]
            have hrest := ih (rest.drop (payloadOf rest).length).length
              (by rw [length_drop]; omega) _ (lineNum + 1 + (payloadOf rest).length)
              (editIndex + edits.length) (fun l hl => hmarkers.2 l (mem_of_mem_drop hl)) rfl
            rw [show lineNum + d + 1 + (payloadOf rest).length =
                lineNum + 1 + (payloadOf rest).length + d by omega,
              Nat.add_right_comm editIndex j, hrest, Option.map_map, Option.map_map]
            congr 1
            funext edits'
            exact map_append.symm

/-- Payload stops before a line that starts an operation. -/
theorem payloadOf_append {following more : List JsString}
    (hmore : ∀ line ∈ more.head?, isPayloadTerminatorLine line = true) :
    payloadOf (following ++ more) = payloadOf following := by
  have hstop : payloadOf more = [] := by
    cases more with
    | nil => rfl
    | cons line more =>
      rw [payloadOf, takeWhile_cons_of_neg]
      rw [hmore line rfl]
      exact Bool.false_ne_true
  rw [payloadOf, takeWhile_append, ← payloadOf, ← payloadOf, hstop, append_nil]
  split_ifs with hall
  · exact ((takeWhile_sublist _).eq_of_length hall).symm
  · rfl

/-- **Lines from an operation on** are parsed on their own. -/
theorem parseEdits_append {ls more : List JsString}
    (hmarkers : ∀ line ∈ ls, isEnvelopeOrAbortMarkerLine line = false)
    (hmore : ∀ line ∈ more.head?, isPayloadTerminatorLine line = true) (lineNum editIndex : Nat) :
    parseEdits xxHash32 (ls ++ more) lineNum editIndex =
      (parseEdits xxHash32 ls lineNum editIndex).bind fun edits =>
        (parseEdits xxHash32 more (lineNum + ls.length) (editIndex + edits.length)).map
          (edits ++ ·) := by
  induction h : ls.length using Nat.strong_induction_on generalizing ls lineNum editIndex with
  | _ n ih =>
    cases ls with
    | nil =>
      subst h
      exact map_id'.symm
    | cons line rest =>
      rw [forall_mem_cons] at hmarkers
      rw [length_cons] at h
      rw [cons_append]
      by_cases hblank : trim line = []
      · rw [parseEdits_blank hblank, parseEdits_blank hblank,
          ih rest.length (by omega) hmarkers.2 _ _ rfl]
        rw [← h, Nat.add_right_comm lineNum 1, Nat.add_assoc]
      · rw [parseEdits_op hblank hmarkers.1, parseEdits_op hblank hmarkers.1,
          payloadOf_append hmore]
        cases readOp xxHash32 line with
        | none => rfl
        | some op =>
          rw [bind_some, bind_some]
          cases op.edits (payloadOf rest) lineNum editIndex with
          | none => rfl
          | some edits =>
            rw [bind_some, bind_some, bind_map,
              drop_append_of_le_length (payloadOf_length_le rest),
              ih (rest.drop (payloadOf rest).length).length (by rw [length_drop]; omega)
                (fun l hl => hmarkers.2 l (mem_of_mem_drop hl)) _ _ rfl]
            cases parseEdits xxHash32 (rest.drop (payloadOf rest).length)
              (lineNum + 1 + (payloadOf rest).length) (editIndex + edits.length) with
            | none => rfl
            | some edits' =>
              have hle := payloadOf_length_le rest
              rw [Option.bind_some, Option.bind_some, Function.comp_apply, Option.map_map,
                length_append, length_drop, Nat.add_assoc editIndex,
                show lineNum + 1 + (payloadOf rest).length +
                  (rest.length - (payloadOf rest).length) = lineNum + n by omega]
              congr 1
              funext edits''
              exact (append_assoc _ _ _).symm

theorem parseEdits_block {payload : List JsString} (hfilled : trim line ≠ [])
    (hmarker : isEnvelopeOrAbortMarkerLine line = false)
    (hpayload : ∀ l ∈ payload, isPayloadTerminatorLine l = false) (lineNum editIndex : Nat) :
    parseEdits xxHash32 (line :: payload) lineNum editIndex =
      (readOp xxHash32 line).bind fun op => op.edits payload lineNum editIndex := by
  have hself : payloadOf payload = payload :=
    takeWhile_eq_self_iff.mpr fun l hl => by rw [hpayload l hl]; rfl
  rw [parseEdits_op hfilled hmarker, hself, drop_length]
  cases readOp xxHash32 line with
  | none => rfl
  | some op =>
    rw [bind_some, bind_some]
    cases op.edits payload lineNum editIndex with
    | none => rfl
    | some edits =>
      rw [bind_some, parseEdits_nil, map_some, append_nil]

end Parse
end GajaeCode
