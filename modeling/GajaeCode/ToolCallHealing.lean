import GajaeCode.Consumer
import GajaeCode.JsString

/-! # Healing leaked tool calls

`packages/ai/src/utils/tool-call-healing.ts`: a filter for a stream of text that takes out the
markers of tool calls and gathers the calls between them.  What may be the beginning of a
marker at the end of a chunk is held back.

A marker or a character that is taken stays the same if more text follows, so the healer is a
`Consumer`, and where the stream is cut does not matter (`heal_flatten`).
-/
namespace GajaeCode
open JsString List

namespace ToolCallHealing

def TOK_SECTION_BEGIN : JsString := js "<|tool_calls_section_begin|>"
def TOK_SECTION_END : JsString := js "<|tool_calls_section_end|>"
def TOK_CALL_BEGIN : JsString := js "<|tool_call_begin|>"
def TOK_CALL_END : JsString := js "<|tool_call_end|>"
def TOK_ARG_BEGIN : JsString := js "<|tool_call_argument_begin|>"

def TOKENS : List JsString :=
  [TOK_SECTION_BEGIN, TOK_SECTION_END, TOK_CALL_BEGIN, TOK_CALL_END, TOK_ARG_BEGIN]

def MAX_PARTIAL_HOLD : Nat := 64

/-- A completed call.  Its id is a new UUID and left out. -/
structure HealedToolCall where
  name : JsString
  arguments : JsString
deriving DecidableEq

/-- The fields of a healer without the buffer. -/
structure State where
  inSection : Bool
  inCall : Bool
  inArgs : Bool
  pendingId : JsString
  pendingArgs : JsString
  sectionTerminated : Bool
  completed : List HealedToolCall
deriving DecidableEq

def State.initial : State := ⟨false, false, false, [], [], false, []⟩

def normalizeFunctionName (rawId : JsString) : JsString :=
  let stripped :=
    if (js "functions.").isPrefixOf rawId then rawId.drop (js "functions.").length else rawId
  stripped.takeWhile (· ≠ 0x3a)

/-- `#startsWithPartialToken`: the buffer is a strict prefix of a marker. -/
def startsWithPartialToken (buffer : JsString) : Bool :=
  if buffer.length = 0 ∨ buffer.length > MAX_PARTIAL_HOLD then false
  else TOKENS.any fun token => buffer.length < token.length && buffer.isPrefixOf token

section Healer
variable (roundTrip : JsString → Option JsString)

/-- `#finalizeCall`.  `roundTrip` is `JSON.stringify(parseJsonWithRepair(rawArgs))`, `none` where
it throws. -/
def finalizeCall (s : State) : State :=
  let rawId := trim s.pendingId
  let rawArgs := trim s.pendingArgs
  let argsJson :=
    if rawArgs.length > 0 then
      match roundTrip rawArgs with
      | some text => text
      | none => rawArgs
    else js "\x7b\x7d"
  { s with
    completed := s.completed ++ [⟨normalizeFunctionName rawId, argsJson⟩]
    inCall := false
    inArgs := false
    pendingId := []
    pendingArgs := [] }

/-- The loop body of `#consume`: the fields after it, what it adds to the visible text, and
what is left of the buffer; `none` where the loop is left.  The buffer is what `#offset` has
not passed yet. -/
def consumeStep (s : State) : JsString → Option (State × JsString × JsString)
  | [] => none
  | ch :: rest =>
    let buffer := ch :: rest
    if startsWithPartialToken buffer then none
    else if TOK_SECTION_BEGIN.isPrefixOf buffer then
      some ({ s with inSection := true }, [], buffer.drop TOK_SECTION_BEGIN.length)
    else if TOK_SECTION_END.isPrefixOf buffer then
      some ({ s with inSection := false, sectionTerminated := true }, [],
        buffer.drop TOK_SECTION_END.length)
    else if TOK_CALL_BEGIN.isPrefixOf buffer then
      if !s.inSection then some (s, TOK_CALL_BEGIN, buffer.drop TOK_CALL_BEGIN.length)
      else
        some ({ s with inCall := true, inArgs := false, pendingId := [], pendingArgs := [] }, [],
          buffer.drop TOK_CALL_BEGIN.length)
    else if TOK_ARG_BEGIN.isPrefixOf buffer then
      if !s.inSection then some (s, TOK_ARG_BEGIN, buffer.drop TOK_ARG_BEGIN.length)
      else some ({ s with inArgs := true }, [], buffer.drop TOK_ARG_BEGIN.length)
    else if TOK_CALL_END.isPrefixOf buffer then
      if !s.inSection || !s.inCall then
        some (s, TOK_CALL_END, buffer.drop TOK_CALL_END.length)
      else some (finalizeCall roundTrip s, [], buffer.drop TOK_CALL_END.length)
    else if s.inCall then
      if s.inArgs then some ({ s with pendingArgs := s.pendingArgs ++ [ch] }, [], rest)
      else some ({ s with pendingId := s.pendingId ++ [ch] }, [], rest)
    else some (s, if s.inSection then [] else [ch], rest)

end Healer

/-- A marker, or a character that is not part of one. -/
inductive Piece where
  | sectionBegin | sectionEnd | callBegin | argBegin | callEnd
  | char (ch : CodeUnit)
deriving DecidableEq

namespace Piece

def text : Piece → JsString
  | sectionBegin => TOK_SECTION_BEGIN
  | sectionEnd => TOK_SECTION_END
  | callBegin => TOK_CALL_BEGIN
  | argBegin => TOK_ARG_BEGIN
  | callEnd => TOK_CALL_END
  | char ch => [ch]

def chars : Piece → JsString
  | char ch => [ch]
  | _ => []

/-- What a text that is not empty begins with. -/
def front (ch : CodeUnit) (rest : JsString) : Piece :=
  if TOK_SECTION_BEGIN.isPrefixOf (ch :: rest) then sectionBegin
  else if TOK_SECTION_END.isPrefixOf (ch :: rest) then sectionEnd
  else if TOK_CALL_BEGIN.isPrefixOf (ch :: rest) then callBegin
  else if TOK_ARG_BEGIN.isPrefixOf (ch :: rest) then argBegin
  else if TOK_CALL_END.isPrefixOf (ch :: rest) then callEnd
  else char ch

end Piece
open ToolCallHealing.Piece

section Healer
variable (roundTrip : JsString → Option JsString)

/-- What the loop body of `#consume` does with a piece: the fields after it, and what it adds
to the visible text. -/
def healPiece (s : State) : Piece → State × JsString
  | sectionBegin => ({ s with inSection := true }, [])
  | sectionEnd => ({ s with inSection := false, sectionTerminated := true }, [])
  | callBegin =>
    if s.inSection then
      ({ s with inCall := true, inArgs := false, pendingId := [], pendingArgs := [] }, [])
    else (s, TOK_CALL_BEGIN)
  | argBegin => if s.inSection then ({ s with inArgs := true }, []) else (s, TOK_ARG_BEGIN)
  | callEnd =>
    if !s.inSection || !s.inCall then (s, TOK_CALL_END) else (finalizeCall roundTrip s, [])
  | char ch =>
    if s.inCall then
      if s.inArgs then ({ s with pendingArgs := s.pendingArgs ++ [ch] }, [])
      else ({ s with pendingId := s.pendingId ++ [ch] }, [])
    else (s, if s.inSection then [] else [ch])

variable {roundTrip} {s : State} {ch : CodeUnit} {rest : JsString}

theorem front_isPrefixOf : (front ch rest).text.isPrefixOf (ch :: rest) = true := by
  rw [front]
  split_ifs <;> simp_all [Piece.text]

theorem length_text_pos (p : Piece) : 0 < p.text.length := by
  cases p with
  | char ch => exact Nat.zero_lt_one
  | _ => exact Nat.lt_of_lt_of_le Nat.zero_lt_one (by decide)

theorem consumeStep_eq (h : startsWithPartialToken (ch :: rest) = false) :
    consumeStep roundTrip s (ch :: rest) =
      some ((healPiece roundTrip s (front ch rest)).1, (healPiece roundTrip s (front ch rest)).2,
        (ch :: rest).drop (front ch rest).text.length) := by
  rw [consumeStep, if_neg (by simp [h]), front]
  split_ifs <;> simp_all [healPiece, Piece.text]

theorem consumeStep_eq_none (h : startsWithPartialToken (ch :: rest) = true) :
    consumeStep roundTrip s (ch :: rest) = none := by
  rw [consumeStep, if_pos h]

end Healer

section Stable
variable {buffer : JsString}
variable {token : JsString}

theorem length_token (h : token ∈ TOKENS) : 0 < token.length ∧ token.length ≤ MAX_PARTIAL_HOLD := by
  have hall : TOKENS.all fun token => 0 < token.length ∧ token.length ≤ MAX_PARTIAL_HOLD := rfl
  simpa using all_eq_true.mp hall token h

/-- The hold-back: some marker goes on beyond the end of the buffer. -/
theorem startsWithPartialToken_iff (hne : buffer ≠ []) : startsWithPartialToken buffer = true ↔
      ∃ token ∈ TOKENS, buffer.length < token.length ∧ buffer <+: token := by
  have hpos := length_pos_of_ne_nil hne
  rw [startsWithPartialToken]
  split_ifs with hlong
  · refine ⟨fun h => absurd h id, ?_⟩
    rintro ⟨token, htoken, hlt, -⟩
    have := (length_token htoken).2
    omega
  · simp [any_eq_true, List.isPrefixOf_iff_prefix]

/-- A buffer that holds nothing back has decided about every marker at its front. -/
theorem isPrefixOf_append (hne : buffer ≠ []) (h : startsWithPartialToken buffer = false)
    (htoken : token ∈ TOKENS) (more : JsString) :
    token.isPrefixOf (buffer ++ more) = token.isPrefixOf buffer := by
  rw [Bool.eq_iff_iff, List.isPrefixOf_iff_prefix, List.isPrefixOf_iff_prefix]
  refine ⟨fun hpre => ?_, fun hpre => hpre.trans (prefix_append _ _)⟩
  rcases Nat.lt_or_ge buffer.length token.length with hlt | hle
  · refine absurd ((startsWithPartialToken_iff hne).mpr ⟨token, htoken, hlt, ?_⟩) (by simp [h])
    exact prefix_of_prefix_length_le (prefix_append _ _) hpre hlt.le
  · exact prefix_of_prefix_length_le hpre (prefix_append _ _) hle

theorem startsWithPartialToken_append (hne : buffer ≠ [])
    (h : startsWithPartialToken buffer = false) (more : JsString) :
    startsWithPartialToken (buffer ++ more) = false := by
  rw [← Bool.not_eq_true, startsWithPartialToken_iff (by simp [hne])]
  rintro ⟨token, htoken, hlt, hpre⟩
  rw [length_append] at hlt
  refine absurd ((startsWithPartialToken_iff hne).mpr ⟨token, htoken, by omega, ?_⟩) (by simp [h])
  exact (prefix_append _ _).trans hpre

theorem drop_append_of_isPrefixOf (h : token.isPrefixOf buffer = true) (more : JsString) :
    (buffer ++ more).drop token.length = buffer.drop token.length ++ more :=
  drop_append_of_le_length (List.isPrefixOf_iff_prefix.mp h).length_le

end Stable

section Healer
variable {roundTrip : JsString → Option JsString}

theorem mem_TOKENS : TOK_SECTION_BEGIN ∈ TOKENS ∧ TOK_SECTION_END ∈ TOKENS ∧
    TOK_CALL_BEGIN ∈ TOKENS ∧ TOK_CALL_END ∈ TOKENS ∧ TOK_ARG_BEGIN ∈ TOKENS := by
  simp only [TOKENS, mem_cons, true_or, or_true, and_self]

theorem front_append {ch : CodeUnit} {tail : JsString}
    (h : startsWithPartialToken (ch :: tail) = false) (more : JsString) :
    front ch (tail ++ more) = front ch tail := by
  have hmatch : ∀ token ∈ TOKENS,
      token.isPrefixOf (ch :: (tail ++ more)) = token.isPrefixOf (ch :: tail) :=
    fun token htoken => isPrefixOf_append (cons_ne_nil _ _) h htoken more
  obtain ⟨hmem₁, hmem₂, hmem₃, hmem₄, hmem₅⟩ := mem_TOKENS
  rw [front, hmatch _ hmem₁, hmatch _ hmem₂, hmatch _ hmem₃, hmatch _ hmem₄, hmatch _ hmem₅]
  rfl

section
variable (s : State) (buffer : JsString) (s' : State) (clean rest : JsString)
    (h : consumeStep roundTrip s buffer = some (s', clean, rest))
include s buffer s' clean rest h

theorem consumeStep_shorter : rest.length < buffer.length := by
  cases buffer with
  | nil => cases h
  | cons ch tail =>
    cases hpartial : startsWithPartialToken (ch :: tail) with
    | true =>
      rw [consumeStep_eq_none hpartial] at h
      cases h
    | false =>
      rw [consumeStep_eq hpartial] at h
      cases h
      have hpos := length_text_pos (front ch tail)
      rw [length_drop, length_cons]
      omega

/-- What a step does is decided by the buffer it was taken on. -/
theorem consumeStep_stable (more : JsString) :
    consumeStep roundTrip s (buffer ++ more) = some (s', clean, rest ++ more) := by
  cases buffer with
  | nil => cases h
  | cons ch tail =>
    cases hpartial : startsWithPartialToken (ch :: tail) with
    | true =>
      rw [consumeStep_eq_none hpartial] at h
      cases h
    | false =>
      rw [consumeStep_eq hpartial] at h
      cases h
      have hmore := startsWithPartialToken_append (cons_ne_nil ch tail) hpartial more
      rw [cons_append] at hmore ⊢
      rw [consumeStep_eq hmore, front_append hpartial, ← cons_append,
        drop_append_of_isPrefixOf front_isPrefixOf]

end

/-- The healer as a machine that reads a stream. -/
def consumer (roundTrip : JsString → Option JsString) : Consumer State CodeUnit CodeUnit where
  step := consumeStep roundTrip
  shorter := consumeStep_shorter
  stable := consumeStep_stable

end Healer

section Heal
variable (roundTrip : JsString → Option JsString)

/-- `ToolCallHealer`: its buffer and its other fields. -/
structure ToolCallHealer where
  buffer : JsString
  state : State
deriving DecidableEq

def ToolCallHealer.new : ToolCallHealer := ⟨[], State.initial⟩

def consume (healer : ToolCallHealer) : ToolCallHealer × JsString :=
  let (state, clean, rest) := (consumer roundTrip).run healer.state healer.buffer
  (⟨rest, state⟩, clean)

def feed (healer : ToolCallHealer) (text : JsString) : ToolCallHealer × JsString :=
  if text.length = 0 then (healer, [])
  else consume roundTrip { healer with buffer := healer.buffer ++ text }

def flushPending (healer : ToolCallHealer) : ToolCallHealer × JsString :=
  ({ healer with buffer := [] },
    if healer.state.inCall || healer.state.inSection then [] else healer.buffer)

/-- What a stream is healed to: the visible text, the calls, and `sectionClosed`. -/
structure Healed where
  visible : JsString
  completed : List HealedToolCall
  sectionClosed : Bool
deriving DecidableEq

/-- Every chunk is fed, then what is held back is flushed. -/
def healFrom (healer : ToolCallHealer) : List JsString → Healed
  | [] =>
    let (healer, tail) := flushPending healer
    ⟨tail, healer.state.completed, healer.state.sectionTerminated⟩
  | chunk :: chunks =>
    let (healer, clean) := feed roundTrip healer chunk
    let healed := healFrom healer chunks
    { healed with visible := clean ++ healed.visible }

def heal (chunks : List JsString) : Healed := healFrom roundTrip ToolCallHealer.new chunks

/-- The result of a stream that has been read. -/
def result (out : State × JsString × JsString) : Healed :=
  let (state, clean, rest) := out
  ⟨clean ++ if state.inCall || state.inSection then [] else rest, state.completed,
    state.sectionTerminated⟩

variable {roundTrip}

/-- Feeding chunks to a healer whose buffer waits is reading the stream. -/
theorem healFrom_eq {healer : ToolCallHealer}
    (hwaits : consumeStep roundTrip healer.state healer.buffer = none) (chunks : List JsString) :
    healFrom roundTrip healer chunks =
      result ((consumer roundTrip).feedAll healer.state healer.buffer chunks) := by
  induction chunks generalizing healer with
  | nil => rfl
  | cons chunk chunks ih =>
    have hrun : feed roundTrip healer chunk =
        (⟨((consumer roundTrip).run healer.state (healer.buffer ++ chunk)).2.2,
            ((consumer roundTrip).run healer.state (healer.buffer ++ chunk)).1⟩,
          ((consumer roundTrip).run healer.state (healer.buffer ++ chunk)).2.1) := by
      rw [feed]
      split_ifs with hempty
      · rw [length_eq_zero_iff.mp hempty, append_nil, Consumer.run_none hwaits]
      · rfl
    have hpending := Consumer.step_pending (c := consumer roundTrip) healer.state
      (healer.buffer ++ chunk)
    rw [healFrom, hrun, Consumer.feedAll]
    dsimp only
    rw [@ih ⟨_, _⟩ hpending]
    simp only [result, append_assoc]

/-- **Chunks do not matter.**  However a text is cut, feeding the pieces one after the other
and flushing gives the visible text, the calls and the closed sections of the text fed at
once. -/
theorem heal_flatten (roundTrip : JsString → Option JsString) (chunks : List JsString) :
    heal roundTrip chunks = heal roundTrip [chunks.flatten] := by
  have hwaits : consumeStep roundTrip ToolCallHealer.new.state ToolCallHealer.new.buffer = none :=
    rfl
  rw [heal, heal, healFrom_eq hwaits, healFrom_eq hwaits, Consumer.feedAll_eq hwaits,
    Consumer.feedAll_eq hwaits, flatten_singleton]

/-- A call whose markers are cut in two. -/
example : heal some [js "see <|tool_calls_section_", js "begin|><|tool_call_begin|>functions.re",
    js "ad:0<|tool_call_argument_begin|", js ">\x7b\x7d<|tool_call_end|>"] =
      ⟨js "see ", [⟨js "read", js "\x7b\x7d"⟩], false⟩ := by
  decide +kernel

end Heal
end ToolCallHealing
end GajaeCode
