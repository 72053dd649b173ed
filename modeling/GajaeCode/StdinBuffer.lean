import GajaeCode.JsString
import GajaeCode.Tokenizer
import Mathlib.Data.Nat.Find

/-! # The stdin buffer

`packages/tui/src/stdin-buffer.ts`, for string chunks and while no timer fires: a quarantine is
begun by a timer only, and the decoder is for byte chunks.

Chunks are put behind what is pending and complete sequences taken off; a bracketed paste
becomes one event.
-/
namespace GajaeCode
open JsString List

namespace StdinBuffer
variable {text remaining : JsString}

def ESC : CodeUnit := 0x1b

def BRACKETED_PASTE_START : JsString := ESC :: js "[200~"

def BRACKETED_PASTE_END : JsString := ESC :: js "[201~"

def isHighSurrogate (u : CodeUnit) : Bool := 0xd800 ≤ u && u ≤ 0xdbff

def isLowSurrogate (u : CodeUnit) : Bool := 0xdc00 ≤ u && u ≤ 0xdfff

/-- The digits at the head of a text, if there are any, and what follows them. -/
def digits? (text : JsString) : Option (JsString × JsString) :=
  if text.takeWhile isDigit = [] then none
  else some (text.takeWhile isDigit, text.dropWhile isDigit)

/-- `/^\x1b\[<\d+;\d+;\d+[Mm]$/` -/
def isSgrMouseSequence (sequence : JsString) : Bool :=
  if (ESC :: js "[<").isPrefixOf sequence then
    match digits? (sequence.drop 3) with
    | some (_, 0x3b :: text) =>
      match digits? text with
      | some (_, 0x3b :: text) =>
        match digits? text with
        | some (_, final) => final = js "M" ∨ final = js "m"
        | none => false
      | _ => false
    | _ => false
  else false

def isSgrMousePrefix (sequence : JsString) : Bool := (ESC :: js "[<").isPrefixOf sequence

/-- `sequence.codePointAt(0)`, where it is all of the sequence. -/
def singleCodePoint : JsString → Option Nat
  | [u] => some u.toNat
  | [u, v] =>
    if isHighSurrogate u && isLowSurrogate v then
      some ((u.toNat - 0xd800) * 0x400 + (v.toNat - 0xdc00) + 0x10000)
    else none
  | _ => none

inductive Completeness where
  | complete | incomplete | notEscape
  deriving DecidableEq

def isCompleteCsiSequence (data : JsString) : Completeness :=
  if data.length < 3 then .incomplete
  else
    let payload := data.drop 2
    match payload.getLast? with
    | none => .incomplete
    | some lastChar =>
      if 0x40 ≤ lastChar ∧ lastChar ≤ 0x7e then
        if payload.head? = some 0x3c then
          if lastChar = 0x4d ∨ lastChar = 0x6d then .complete else .incomplete
        else .complete
      else .incomplete

/-- `data.endsWith(ESC \)` -/
def endsWithST (data : JsString) : Bool := [ESC, 0x5c].isSuffixOf data

def isCompleteOscSequence (data : JsString) : Completeness :=
  if endsWithST data ∨ data.getLast? = some 0x07 then .complete else .incomplete

/-- `isCompleteDcsSequence`, and `isCompleteApcSequence`. -/
def isCompleteStringSequence (data : JsString) : Completeness :=
  if endsWithST data then .complete else .incomplete

def isCompleteSequence (data : JsString) : Completeness :=
  match data with
  | [] => .notEscape
  | u :: afterEsc =>
    if u ≠ ESC then .notEscape
    else
      match afterEsc with
      | [] => .incomplete
      | v :: rest =>
        if v = 0x5b then
          if rest.head? = some 0x4d then
            if data.length ≥ 6 then .complete else .incomplete
          else isCompleteCsiSequence data
        else if v = 0x5d then isCompleteOscSequence data
        else if v = 0x50 then isCompleteStringSequence data
        else if v = 0x5f then isCompleteStringSequence data
        else if v = 0x4f then if rest ≠ [] then .complete else .incomplete
        else if rest = [] then if isHighSurrogate v then .incomplete else .complete
        else .complete

/-- The digits of `/^\x1b\[(\d+)(?::\d*)?(?::\d+)?u$/` as a number. -/
def kittyCodepoint? (sequence : JsString) : Option Nat :=
  if (ESC :: js "[").isPrefixOf sequence then
    match digits? (sequence.drop 2) with
    | none => none
    | some (codepoint, text) =>
      -- after the digits stand `u`, `:\d*u` or `:\d*:\d+u`
      let isTail := text = js "u" ∨ text.head? = some 0x3a ∧
        let text := text.tail.dropWhile isDigit
        text = js "u" ∨ text.head? = some 0x3a ∧
          text.tail.takeWhile isDigit ≠ [] ∧ text.tail.dropWhile isDigit = js "u"
      if isTail then some (parseNat codepoint) else none
  else none

def parseUnmodifiedKittyPrintableCodepoint (sequence : JsString) : Option Nat :=
  (kittyCodepoint? sequence).bind fun codepoint => if codepoint ≥ 32 then some codepoint else none

/-- The loop over `seqEnd`: the end of the first complete candidate. -/
def sequenceEnd (remaining : JsString) : (fuel seqEnd : Nat) → Option Nat
  | 0, _ => none
  | fuel + 1, seqEnd =>
    if seqEnd ≤ remaining.length then
      if isCompleteSequence (remaining.take seqEnd) = .incomplete then
        sequenceEnd remaining fuel (seqEnd + 1)
      else some seqEnd
    else none

/-- A Meta sequence whose high surrogate has no low one behind it. -/
def isMalformedMeta : JsString → Bool
  | _ :: v :: w :: _ => isHighSurrogate v && !isLowSurrogate w
  | _ => false

/-- One round of the loop of `extractCompleteSequences`: the sequence taken off what remains,
unless it has to wait for more. -/
def nextSequence (remaining : JsString) : Option (JsString × JsString) :=
  match remaining with
  | [] => none
  | u :: rest =>
    if u = ESC then
      if isMalformedMeta remaining then some (remaining.take 2, remaining.drop 2)
      else
        (sequenceEnd remaining remaining.length 1).map fun n =>
          (remaining.take n, remaining.drop n)
    else if isHighSurrogate u then
      match rest with
      | [] => none
      | v :: rest => if isLowSurrogate v then some ([u, v], rest) else some ([u], v :: rest)
    else some ([u], rest)

/-! ### Sequences do not change when more follows -/

theorem sequenceEnd_eq_some {fuel k n : Nat} (hfuel : remaining.length < k + fuel) :
    sequenceEnd remaining fuel k = some n ↔
      k ≤ n ∧ n ≤ remaining.length ∧ isCompleteSequence (remaining.take n) ≠ .incomplete ∧
        ∀ m, k ≤ m → m < n → isCompleteSequence (remaining.take m) = .incomplete := by
  induction fuel generalizing k with
  | zero =>
    constructor
    · intro h
      exact absurd h (by simp [sequenceEnd])
    · rintro ⟨hle, hlength, -⟩
      omega
  | succ fuel ih =>
    rw [sequenceEnd]
    by_cases hk : k ≤ remaining.length
    · rw [if_pos hk]
      by_cases hincomplete : isCompleteSequence (remaining.take k) = .incomplete
      · rw [if_pos hincomplete, ih (by omega)]
        constructor
        · rintro ⟨hle, hlength, hcomplete, hbefore⟩
          refine ⟨by omega, hlength, hcomplete, fun m hkm hmn => ?_⟩
          rcases Nat.eq_or_lt_of_le hkm with rfl | hlt
          · exact hincomplete
          · exact hbefore m hlt hmn
        · rintro ⟨hle, hlength, hcomplete, hbefore⟩
          rcases Nat.eq_or_lt_of_le hle with rfl | hlt
          · exact absurd hincomplete hcomplete
          · exact ⟨hlt, hlength, hcomplete, fun m hkm hmn => hbefore m (by omega) hmn⟩
      · rw [if_neg hincomplete]
        constructor
        · intro h
          obtain rfl := some.inj h
          exact ⟨le_rfl, hk, hincomplete, fun m hkm hmk => absurd hmk (by omega)⟩
        · rintro ⟨hle, -, -, hbefore⟩
          rcases Nat.eq_or_lt_of_le hle with rfl | hlt
          · rfl
          · exact absurd (hbefore k le_rfl hlt) hincomplete
    · rw [if_neg hk]
      constructor
      · intro h
        exact absurd h (by simp)
      · rintro ⟨hle, hlength, -⟩
        omega

theorem sequenceEnd_eq_none : sequenceEnd remaining remaining.length 1 = none ↔
      ∀ m, 1 ≤ m → m ≤ remaining.length → isCompleteSequence (remaining.take m) = .incomplete := by
  constructor
  · intro hnone
    by_contra hsome
    push Not at hsome
    obtain ⟨hmin, hlength, hcomplete⟩ := Nat.find_spec hsome
    have hbefore : ∀ m, 1 ≤ m → m < Nat.find hsome →
        isCompleteSequence (remaining.take m) = .incomplete := fun m hm hlt => by
      by_contra hne
      exact Nat.find_min hsome hlt ⟨hm, by omega, hne⟩
    have hfound : sequenceEnd remaining remaining.length 1 = some (Nat.find hsome) :=
      (sequenceEnd_eq_some (by omega)).mpr ⟨hmin, hlength, hcomplete, hbefore⟩
    rw [hnone] at hfound
    exact absurd hfound (by simp)
  · intro hall
    cases hend : sequenceEnd remaining remaining.length 1 with
    | none => rfl
    | some n =>
      obtain ⟨hmin, hlength, hcomplete, -⟩ := (sequenceEnd_eq_some (by omega)).mp hend
      exact absurd (hall n hmin hlength) hcomplete

theorem isMalformedMeta_append (h : 3 ≤ text.length) (more : JsString) :
    isMalformedMeta (text ++ more) = isMalformedMeta text := by
  match text, h with
  | u :: v :: w :: rest, _ => rfl

theorem length_of_isMalformedMeta (h : isMalformedMeta text = true) : 3 ≤ text.length := by
  match text, h with
  | u :: v :: w :: rest, _ => simp

theorem isCompleteSequence_high {v : CodeUnit} (h : isHighSurrogate v = true) :
    isCompleteSequence [ESC, v] = .incomplete := by
  have hne : ∀ w : CodeUnit, isHighSurrogate w = false → v ≠ w := by
    rintro w hw rfl
    rw [hw] at h
    exact Bool.false_ne_true h
  simp only [isCompleteSequence, ne_eq, not_true_eq_false, if_false, if_neg (hne 0x5b rfl),
    if_neg (hne 0x5d rfl), if_neg (hne 0x50 rfl), if_neg (hne 0x5f rfl), if_neg (hne 0x4f rfl), h,
    if_true]

/-- A Meta sequence that its second unit completes has no surrogate. -/
theorem not_isMalformedMeta_of_sequenceEnd {n : Nat} (hescape : text.head? = some ESC)
    (h : sequenceEnd text text.length 1 = some n) (hmalformed : isMalformedMeta text = false)
    (more : JsString) : isMalformedMeta (text ++ more) = false := by
  by_cases hlength : 3 ≤ text.length
  · rw [isMalformedMeta_append hlength, hmalformed]
  obtain ⟨hmin, hle, hcomplete, -⟩ := (sequenceEnd_eq_some (by omega)).mp h
  match text with
  | [] => exact absurd hescape (by simp)
  | [u] =>
    obtain rfl : u = ESC := some.inj hescape
    obtain rfl : n = 1 := by rw [length_singleton] at hle; omega
    exact absurd rfl hcomplete
  | [u, v] =>
    obtain rfl : u = ESC := some.inj hescape
    rw [length_cons, length_singleton] at hle
    cases more with
    | nil => rfl
    | cons w more =>
      have hhigh : isHighSurrogate v = false := by
        by_contra hhigh
        rcases Nat.eq_or_lt_of_le hmin with rfl | hlt
        · exact hcomplete rfl
        · obtain rfl : n = 2 := by omega
          exact hcomplete (isCompleteSequence_high (Bool.not_eq_false _ ▸ hhigh))
      simp [isMalformedMeta, hhigh]
  | _ :: _ :: _ :: _ => exact absurd hlength (by simp)

theorem nextSequence_escape (h : text.head? = some ESC) : nextSequence text =
      if isMalformedMeta text then some (text.take 2, text.drop 2)
      else (sequenceEnd text text.length 1).map fun n => (text.take n, text.drop n) := by
  cases text with
  | nil => exact absurd h (by simp)
  | cons u rest =>
    obtain rfl : u = ESC := some.inj h
    simp only [nextSequence, if_true]

theorem nextSequence_plain {u : CodeUnit} (h : u ≠ ESC) (rest : JsString) :
    nextSequence (u :: rest) =
      if isHighSurrogate u then
        match rest with
        | [] => none
        | v :: rest => if isLowSurrogate v then some ([u, v], rest) else some ([u], v :: rest)
      else some ([u], rest) := by
  cases rest <;> simp only [nextSequence, if_neg h]

theorem nextSequence_split (text token rest : JsString)
    (h : nextSequence text = some (token, rest)) : token ≠ [] ∧ token ++ rest = text := by
  cases text with
  | nil => exact absurd h (by simp [nextSequence])
  | cons u text =>
    by_cases hu : u = ESC
    · have htake : ∀ n, 1 ≤ n → (u :: text).take n ≠ [] := fun n hn => by
        obtain ⟨n, rfl⟩ : ∃ m, n = m + 1 := ⟨n - 1, by omega⟩
        exact cons_ne_nil _ _
      have hescape : (u :: text).head? = some ESC := congrArg some hu
      rw [nextSequence_escape hescape] at h
      by_cases hmalformed : isMalformedMeta (u :: text) = true
      · rw [if_pos hmalformed] at h
        obtain ⟨rfl, rfl⟩ := Prod.mk.inj (some.inj h)
        exact ⟨htake 2 (by omega), take_append_drop _ _⟩
      · rw [if_neg hmalformed] at h
        obtain ⟨n, hend, heq⟩ := Option.map_eq_some_iff.mp h
        obtain ⟨rfl, rfl⟩ := Prod.mk.inj heq
        obtain ⟨hmin, -⟩ := (sequenceEnd_eq_some (by omega)).mp hend
        exact ⟨htake n hmin, take_append_drop _ _⟩
    · rw [nextSequence_plain hu] at h
      split_ifs at h
      · cases text with
        | nil => exact absurd h (by simp)
        | cons v text =>
          dsimp only at h
          split_ifs at h <;> obtain ⟨rfl, rfl⟩ := Prod.mk.inj (some.inj h) <;> simp
      · obtain ⟨rfl, rfl⟩ := Prod.mk.inj (some.inj h)
        simp

theorem nextSequence_stable (text token rest : JsString)
    (h : nextSequence text = some (token, rest)) (more : JsString) :
    nextSequence (text ++ more) = some (token, rest ++ more) := by
  cases text with
  | nil => exact absurd h (by simp [nextSequence])
  | cons u text =>
    by_cases hu : u = ESC
    · have hescape : (u :: text).head? = some ESC := congrArg some hu
      have hescape' : (u :: text ++ more).head? = some ESC := congrArg some hu
      rw [nextSequence_escape hescape] at h
      rw [nextSequence_escape hescape']
      by_cases hmalformed : isMalformedMeta (u :: text) = true
      · have hlength := length_of_isMalformedMeta hmalformed
        rw [if_pos hmalformed] at h
        obtain ⟨rfl, rfl⟩ := Prod.mk.inj (some.inj h)
        rw [if_pos (by rw [isMalformedMeta_append hlength, hmalformed]),
          take_append_of_le_length (by omega), drop_append_of_le_length (by omega)]
      · rw [if_neg hmalformed] at h
        obtain ⟨n, hend, heq⟩ := Option.map_eq_some_iff.mp h
        obtain ⟨rfl, rfl⟩ := Prod.mk.inj heq
        obtain ⟨hmin, hle, hcomplete, hbefore⟩ := (sequenceEnd_eq_some (by omega)).mp hend
        have hmore := not_isMalformedMeta_of_sequenceEnd hescape hend
          (Bool.not_eq_true _ ▸ hmalformed) more
        have hend' : sequenceEnd (u :: text ++ more) (u :: text ++ more).length 1 = some n := by
          refine (sequenceEnd_eq_some (by omega)).mpr ⟨hmin, ?_, ?_, fun m hm hlt => ?_⟩
          · rw [length_append]
            omega
          · rw [take_append_of_le_length hle]
            exact hcomplete
          · rw [take_append_of_le_length (by omega)]
            exact hbefore m hm hlt
        rw [if_neg (by rw [hmore]; exact Bool.false_ne_true), hend', Option.map_some,
          take_append_of_le_length hle, drop_append_of_le_length hle]
    · rw [nextSequence_plain hu] at h
      rw [cons_append, nextSequence_plain hu]
      split_ifs at h ⊢
      · cases text with
        | nil => exact absurd h (by simp)
        | cons v text =>
          dsimp only [cons_append] at h ⊢
          split_ifs at h ⊢ <;> obtain ⟨rfl, rfl⟩ := Prod.mk.inj (some.inj h) <;> rfl
      · obtain ⟨rfl, rfl⟩ := Prod.mk.inj (some.inj h)
        rfl

theorem nextSequence_whole (text more token rest : JsString) (hnone : nextSequence text = none)
    (h : nextSequence (text ++ more) = some (token, rest)) : text.length ≤ token.length := by
  cases text with
  | nil => exact Nat.zero_le _
  | cons u text =>
    by_cases hu : u = ESC
    · have hescape : (u :: text).head? = some ESC := congrArg some hu
      have hescape' : (u :: text ++ more).head? = some ESC := congrArg some hu
      rw [nextSequence_escape hescape] at hnone
      rw [nextSequence_escape hescape'] at h
      have hmalformed : ¬ isMalformedMeta (u :: text) = true := fun hmalformed => by
        rw [if_pos hmalformed] at hnone
        exact absurd hnone (by simp)
      rw [if_neg hmalformed, Option.map_eq_none_iff, sequenceEnd_eq_none] at hnone
      by_cases hmore : isMalformedMeta (u :: text ++ more) = true
      · have hshort : (u :: text).length ≤ 2 := by
          by_contra hlong
          rw [isMalformedMeta_append (by omega)] at hmore
          exact hmalformed hmore
        have hlength := length_of_isMalformedMeta hmore
        rw [if_pos hmore] at h
        obtain ⟨rfl, rfl⟩ := Prod.mk.inj (some.inj h)
        rw [length_take]
        omega
      · rw [if_neg hmore] at h
        obtain ⟨n, hend, heq⟩ := Option.map_eq_some_iff.mp h
        obtain ⟨rfl, rfl⟩ := Prod.mk.inj heq
        obtain ⟨hmin, hle, hcomplete, -⟩ := (sequenceEnd_eq_some (by omega)).mp hend
        rw [length_take, Nat.min_eq_left hle]
        by_contra hlt
        refine hcomplete ?_
        rw [take_append_of_le_length (by omega)]
        exact hnone n hmin (by omega)
    · rw [nextSequence_plain hu] at hnone
      split_ifs at hnone
      cases text with
      | nil =>
        have hpos := length_pos_of_ne_nil (nextSequence_split _ _ _ h).1
        rw [length_singleton]
        omega
      | cons v text =>
        dsimp only at hnone
        split_ifs at hnone

def sequences : Tokenizer CodeUnit where
  next := nextSequence
  split := nextSequence_split
  stable text token rest h more := nextSequence_stable text token rest h more
  whole := nextSequence_whole

/-- `extractCompleteSequences`: the sequences, and the remainder. -/
def extractCompleteSequences (buffer : JsString) : List JsString × JsString :=
  sequences.run buffer

inductive StdinEvent where
  | data (sequence : JsString)
  | paste (content : JsString)
  deriving DecidableEq

/-- `#emitDataSequence`: a raw character that follows the Kitty event of the same character is
left out. -/
def emitDataSequence (pending : Option Nat) (sequence : JsString) :
    Option Nat × List StdinEvent :=
  let rawCodepoint := singleCodePoint sequence
  if rawCodepoint ≠ none ∧ rawCodepoint = pending then (none, [])
  else (parseUnmodifiedKittyPrintableCodepoint sequence, [.data sequence])

def emitAll : Option Nat → List JsString → Option Nat × List StdinEvent
  | pending, [] => (pending, [])
  | pending, sequence :: rest =>
    let emitted := emitDataSequence pending sequence
    let out := emitAll emitted.1 rest
    (out.1, emitted.2 ++ out.2)

/-- A mouse report that is not well formed. -/
def isMalformedReport (sequence : JsString) : Bool :=
  isSgrMousePrefix sequence && !isSgrMouseSequence sequence

end StdinBuffer
open StdinBuffer

structure StdinBuffer where
  buffer : JsString
  pasteMode : Bool
  pasteBuffer : JsString
  pendingKittyPrintableCodepoint : Option Nat
  deriving DecidableEq

namespace StdinBuffer

def initial : StdinBuffer := ⟨[], false, [], none⟩

/-- What a call of `process` does, up to the call of it for what follows a paste. -/
structure Outcome where
  state : StdinBuffer
  events : List StdinEvent
  remaining : JsString

/-- The end of a paste, if it is in the paste buffer. -/
def finishPaste (st : StdinBuffer) : Outcome :=
  match splitFirst BRACKETED_PASTE_END st.pasteBuffer with
  | none => ⟨st, [], []⟩
  | some (pastedContent, remaining) =>
    ⟨{ st with pasteMode := false, pasteBuffer := [], pendingKittyPrintableCodepoint := none },
      [.paste pastedContent], remaining⟩

/-- What is emitted of the input before a paste: also what is not complete. -/
def sequencesBefore (beforePaste : JsString) : List JsString :=
  let result := extractCompleteSequences beforePaste
  result.1 ++ if result.2 = [] then [] else [result.2]

def processOnce (st : StdinBuffer) (data : JsString) : Outcome :=
  if data = [] ∧ st.buffer = [] then
    let emitted := emitDataSequence st.pendingKittyPrintableCodepoint []
    ⟨{ st with pendingKittyPrintableCodepoint := emitted.1 }, emitted.2, []⟩
  else
    let buffer := st.buffer ++ data
    if st.pasteMode then
      finishPaste { st with buffer := [], pasteBuffer := st.pasteBuffer ++ buffer }
    else
      match splitFirst BRACKETED_PASTE_START buffer with
      | some (beforePaste, rest) =>
        let emitted := emitAll st.pendingKittyPrintableCodepoint (sequencesBefore beforePaste)
        let paste := finishPaste
          { buffer := [], pasteMode := true, pasteBuffer := rest
            pendingKittyPrintableCodepoint := none }
        { paste with events := emitted.2 ++ paste.events }
      | none =>
        let result := extractCompleteSequences buffer
        let emitted := emitAll st.pendingKittyPrintableCodepoint
          (result.1.filter fun sequence => !isMalformedReport sequence)
        ⟨{ st with buffer := result.2, pendingKittyPrintableCodepoint := emitted.1 },
          emitted.2, []⟩

/-- `process` of a string: what follows a paste is processed by a call of its own. -/
def processFrom : Nat → StdinBuffer → JsString → StdinBuffer × List StdinEvent
  | 0, st, _ => (st, [])
  | fuel + 1, st, data =>
    let out := st.processOnce data
    if out.remaining = [] then (out.state, out.events)
    else
      let rest := processFrom fuel out.state out.remaining
      (rest.1, out.events ++ rest.2)

def process (st : StdinBuffer) (data : JsString) : StdinBuffer × List StdinEvent :=
  processFrom (st.pasteBuffer.length + st.buffer.length + data.length + 1) st data

/-- The chunks one after the other. -/
def feed : StdinBuffer → List JsString → StdinBuffer × List StdinEvent
  | st, [] => (st, [])
  | st, chunk :: chunks =>
    let out := st.process chunk
    let rest := feed out.1 chunks
    (rest.1, out.2 ++ rest.2)

end StdinBuffer
end GajaeCode
