import GajaeCode.TelegramTokens

/-! # Truncated Telegram messages

`packages/coding-agent/src/sdk/bus/html-format.ts`, `truncateTelegramHtml`: tokens are taken as
long as the tags open after them can be closed and a marker added within the limit.

The result is never over the limit.  Of a well-formed message it is a prefix of the tokens, the
tags that this leaves open closed in their order, and the marker (`IsCut`).
-/
namespace GajaeCode
open JsString List Option

namespace TelegramMessage
variable {tokens : List Token} {stack : List JsString}
variable {message marker : JsString} {token : Token}

def closer (name : JsString) : JsString := js "</" ++ name ++ js ">"

/-- The last tag opened is the first of the stack. -/
def closersFor (stack : List JsString) : JsString := stack.flatMap closer

/-- The open tags after a token.  A closing tag closes the last one of its name, if there is
one. -/
def afterToken (stack : List JsString) (token : Token) : List JsString :=
  match token.opens, token.closes with
  | some name, _ => name :: stack
  | none, some name => stack.erase name
  | none, none => stack

def truncateFrom (max : Nat) (marker : JsString) : JsString → List JsString → List Token → JsString
  | out, stack, [] => out ++ closersFor stack ++ marker
  | out, stack, token :: rest =>
    let next := afterToken stack token
    if out.length + token.value.length + (closersFor next).length + marker.length > max then
      out ++ closersFor stack ++ marker
    else truncateFrom max marker (out ++ token.value) next rest

def effectiveMarker (max : Nat) (marker : JsString) : JsString :=
  if marker.length ≤ max then marker else []

def truncateTelegramHtml (message : JsString) (max : Nat) (marker : JsString) : JsString :=
  if message.length ≤ max then message
  else truncateFrom max (effectiveMarker max marker) [] [] (tokenize message)

/-- A prefix of the tokens, the closing tags of what it leaves open, and the marker. -/
def IsCut (tokens : List Token) (marker text : JsString) : Prop :=
  ∃ kept rest stack, tokens = kept ++ rest ∧ unwind [] kept = some stack ∧
    text = values kept ++ closersFor stack ++ marker

theorem length_effectiveMarker (max : Nat) (marker : JsString) :
    (effectiveMarker max marker).length ≤ max := by
  unfold effectiveMarker
  split
  · assumption
  · exact Nat.zero_le _

theorem length_truncateFrom {max : Nat} {out : JsString} (tokens : List Token)
    (h : out.length + (closersFor stack).length + marker.length ≤ max) :
    (truncateFrom max marker out stack tokens).length ≤ max := by
  induction tokens generalizing out stack with
  | nil => simpa only [truncateFrom, length_append] using h
  | cons token tokens ih =>
    simp only [truncateFrom]
    split
    · simpa only [length_append] using h
    · rename_i hroom
      exact ih (by rw [length_append]; omega)

theorem length_truncateTelegramHtml (message : JsString) (max : Nat) (marker : JsString) :
    (truncateTelegramHtml message max marker).length ≤ max := by
  unfold truncateTelegramHtml
  split
  · assumption
  · refine length_truncateFrom _ ?_
    have := length_effectiveMarker max marker
    simpa [closersFor] using this

/-! ## Well-formed messages -/

/-- Where tags are closed in their order, the closed one is the last. -/
theorem afterToken_eq_of_nest {next : List JsString} (h : nest stack token = some next) :
    afterToken stack token = next := by
  match token, stack with
  | ⟨_, some _, _, _⟩, _ | ⟨_, none, _, none⟩, _ => exact some.inj h
  | ⟨_, none, _, some _⟩, [] => cases h
  | ⟨_, none, _, some _⟩, top :: stack =>
    obtain ⟨rfl, hstack⟩ := ite_none_right_eq_some.mp h
    exact (erase_cons_head _ _).trans (some.inj hstack)

theorem unwind_cons_eq_some {final : List JsString} {rest : List Token}
    (h : unwind stack (token :: rest) = some final) :
    nest stack token = some (afterToken stack token) ∧
      unwind (afterToken stack token) rest = some final := by
  obtain ⟨next, hnest, hrest⟩ := bind_eq_some_iff.mp ((unwind_cons _ _ _).symm.trans h)
  rw [afterToken_eq_of_nest hnest]
  exact ⟨hnest, hrest⟩

theorem truncateFrom_isCut {max : Nat} {marker out : JsString} {stack final : List JsString}
    {tokens : List Token} (h : unwind stack tokens = some final) :
    ∃ kept rest stack', tokens = kept ++ rest ∧ unwind stack kept = some stack' ∧
      truncateFrom max marker out stack tokens =
        out ++ values kept ++ closersFor stack' ++ marker := by
  induction tokens generalizing out stack with
  | nil => exact ⟨[], [], stack, rfl, rfl, by simp [truncateFrom]⟩
  | cons token tokens ih =>
    obtain ⟨hfirst, hrest⟩ := unwind_cons_eq_some h
    by_cases hroom : out.length + token.value.length +
        (closersFor (afterToken stack token)).length + marker.length > max
    · exact ⟨[], token :: tokens, stack, rfl, rfl, by simp [truncateFrom, if_pos hroom]⟩
    · obtain ⟨kept, rest, stack', rfl, hkept, heq⟩ :=
        @ih (out ++ token.value) (afterToken stack token) hrest
      refine ⟨token :: kept, rest, stack', rfl, ?_, ?_⟩
      · rw [unwind_cons, hfirst, bind_some, hkept]
      · simp only [truncateFrom, if_neg hroom, heq, values_cons, append_assoc]

theorem Reads.isCut (h : Reads message tokens) {max : Nat} (hlong : max < message.length)
    (marker : JsString) :
    IsCut tokens (effectiveMarker max marker) (truncateTelegramHtml message max marker) := by
  unfold truncateTelegramHtml
  rw [if_neg (by omega), h.tokenize_eq]
  obtain ⟨kept, rest, stack, htokens, hkept, heq⟩ :=
    @truncateFrom_isCut max (effectiveMarker max marker) [] [] [] tokens h.nested
  exact ⟨kept, rest, stack, htokens, hkept, heq⟩

def closing (stack : List JsString) : List Token :=
  stack.map fun name => closingToken (closer name) name

theorem values_closing (stack : List JsString) : values (closing stack) = closersFor stack := by
  simp only [closing, values, flatMap_map, closersFor]
  rfl

theorem unwind_closing (stack : List JsString) : unwind stack (closing stack) = some [] := by
  induction stack with
  | nil => rfl
  | cons name stack ih =>
    have hnest : nest (name :: stack) (closingToken (closer name) name) = some stack := if_pos rfl
    rw [closing, map_cons, unwind_cons, hnest, bind_some]
    exact ih

theorem closing_valid {name : JsString} (h : name ∈ ALLOWED_TAGS) :
    (closingToken (closer name) name).Valid := by
  have hlower := (allowed_names name h).2.2
  have := Token.Valid.closing (show toLowerCase name ∈ ALLOWED_TAGS by rwa [hlower])
  rwa [hlower] at this

theorem unwind_allowed {stack' : List JsString} (hvalid : ∀ token ∈ tokens, token.Valid)
    (hstack : ∀ name ∈ stack, name ∈ ALLOWED_TAGS) (h : unwind stack tokens = some stack') :
    ∀ name ∈ stack', name ∈ ALLOWED_TAGS := by
  induction tokens generalizing stack with
  | nil => exact some.inj h ▸ hstack
  | cons token tokens ih =>
    obtain ⟨htoken, htokens⟩ := forall_mem_cons.mp hvalid
    refine ih htokens ?_ (unwind_cons_eq_some h).2
    cases htoken with
    | unit | entity => exact hstack
    | opening hallowed => exact forall_mem_cons.mpr ⟨hallowed, hstack⟩
    | closing => exact fun name hname => hstack name (mem_of_mem_erase hname)

theorem wellFormed_nil : WellFormed [] := ⟨[], forall_mem_nil _, rfl, rfl⟩

/-- A part of a well-formed message with its open tags closed, and a well-formed text after it. -/
theorem IsCut.wellFormed (h : Reads message tokens) {text : JsString}
    (hcut : IsCut tokens marker text) (hmarker : WellFormed marker) : WellFormed text := by
  obtain ⟨kept, rest, stack, rfl, hkept, rfl⟩ := hcut
  obtain ⟨marks, hmarks⟩ := hmarker
  obtain ⟨hvalid, -⟩ := forall_mem_append.mp h.valid
  have hallowed := unwind_allowed hvalid (forall_mem_nil _) hkept
  have hclosing : ∀ token ∈ closing stack, token.Valid :=
    forall_mem_map.mpr fun name hname => closing_valid (hallowed name hname)
  refine ⟨kept ++ closing stack ++ marks, ?_, ?_, ?_⟩
  · exact forall_mem_append.mpr ⟨forall_mem_append.mpr ⟨hvalid, hclosing⟩, hmarks.valid⟩
  · rw [values_append, values_append, values_closing, hmarks.values]
  · rw [unwind_append, unwind_append, hkept, bind_some, unwind_closing, bind_some,
      hmarks.nested]

theorem IsCut.marker_isSuffix {text : JsString} (h : IsCut tokens marker text) :
    marker <:+ text := by
  obtain ⟨kept, -, stack, -, -, rfl⟩ := h
  exact suffix_append _ _

/-- The result is within the limit whatever the message.  A message that fits is not changed; of
a well-formed one that does not fit, a prefix of the tokens is closed and marked, with a marker
that fits. -/
theorem truncate_within_limit (message : JsString) (max : Nat) (marker : JsString) :
    (truncateTelegramHtml message max marker).length ≤ max ∧
      (message.length ≤ max → truncateTelegramHtml message max marker = message) ∧
      (∀ tokens, Reads message tokens → max < message.length →
        IsCut tokens (if marker.length ≤ max then marker else [])
          (truncateTelegramHtml message max marker)) ∧
      (WellFormed message → WellFormed marker ∨ max < marker.length →
        WellFormed (truncateTelegramHtml message max marker)) := by
  have hfits : message.length ≤ max → truncateTelegramHtml message max marker = message :=
    fun h => if_pos h
  refine ⟨length_truncateTelegramHtml _ _ _, hfits, fun tokens h hlong => h.isCut hlong marker,
    fun hmessage hmarker => ?_⟩
  rcases Nat.lt_or_ge max message.length with hlong | hshort
  · obtain ⟨tokens, h⟩ := hmessage
    refine (h.isCut hlong marker).wellFormed h ?_
    unfold effectiveMarker
    split
    · rename_i hroom
      exact hmarker.resolve_right (by omega)
    · exact wellFormed_nil
  · rw [hfits hshort]
    exact hmessage

/-- A message that fits has no marker, nor has one whose marker does not fit; and a marker that
opens a tag leaves it open. -/
theorem marker_not_always_added : (WellFormed (js "ab") ∧
      ¬ IsCut (tokenize (js "ab")) (js "x") (truncateTelegramHtml (js "ab") 10 (js "x"))) ∧
    ¬ IsCut (tokenize (js "ab")) (js "xyz") (truncateTelegramHtml (js "ab") 1 (js "xyz")) ∧
    (WellFormed (js "abcde") ∧ ¬ WellFormed (truncateTelegramHtml (js "abcde") 4 (js "<b>"))) := by
  refine ⟨⟨wellFormed_text (by decide), fun h => ?_⟩, fun h => ?_, wellFormed_text (by decide),
    fun h => ?_⟩
  · exact absurd h.marker_isSuffix (by decide)
  · exact absurd h.marker_isSuffix (by decide)
  · exact absurd (wellFormed_iff.mp h).2 (by decide)

end TelegramMessage
end GajaeCode
