import GajaeCode.TelegramTruncate

/-! # Split Telegram messages

`packages/coding-agent/src/sdk/bus/html-format.ts`, `splitTelegramHtml`: the tokens of a message
are written into chunks.  A chunk that is full is ended by the closing tags of the open ones,
and the next one opens these again; a tag is left out when not even one unit fits between its
own and the open ones (`keep`).

`Keeps` says what it takes for a token to be kept, `Sound` what holds between two rounds of
the loop: the open tags leave room for a unit, and what is written is made of tokens.  So each
round writes its text, and the chunks together that of the message (`split_keeps_text`).
-/
namespace GajaeCode
open JsString List

namespace TelegramMessage
open Html (LESS GREATER AMP SEMICOLON)

/-- A tag that is open, with its opening tag as it is written. -/
structure OpenTag where
  name : JsString
  /-- the opening tag as it is written -/
  tag : JsString
  deriving DecidableEq

/-- The variables of `splitTelegramHtml`: the chunks that are done, and the one being written. -/
structure Splitting where
  chunks : List JsString
  out : JsString
  chunkHasBody : Bool
  /-- the last tag opened is the first -/
  stack : List OpenTag

namespace Splitting

def names (stack : List OpenTag) : List JsString := stack.map OpenTag.name

/-- The closing tags of the open ones, the innermost first. -/
def closersFor (stack : List OpenTag) : JsString := TelegramMessage.closersFor (names stack)

/-- Their opening tags as they are written, the outermost first. -/
def openersFor (stack : List OpenTag) : JsString := stack.reverse.flatMap OpenTag.tag

/-- The length of a chunk that has one unit between the open tags. -/
def minimumChunkLengthFor (stack : List OpenTag) : Nat :=
  (openersFor stack).length + (closersFor stack).length + 1

/-- Ends the chunk with the closing tags, and opens the same tags in the next one. -/
def flush (s : Splitting) : Splitting :=
  if s.chunkHasBody then
    { s with
      chunks := s.chunks ++ [s.out ++ closersFor s.stack]
      out := openersFor s.stack
      chunkHasBody := false }
  else s

/-- Whether the chunk is too long with the token and the closing tags after it. -/
def exceeds (max : Nat) (token : Token) (next : List OpenTag) (s : Splitting) : Bool :=
  s.out.length + token.value.length + (closersFor next).length > max

/-- A chunk with text in it is ended where the token does not fit. -/
def makeRoom (max : Nat) (token : Token) (next : List OpenTag) (s : Splitting) : Splitting :=
  if s.chunkHasBody && s.exceeds max token next then s.flush else s

def add (token : Token) (next : List OpenTag) (s : Splitting) : Splitting :=
  { s with out := s.out ++ token.value, chunkHasBody := true, stack := next }

/-- An opening tag joins the stack. -/
def pushed (stack : List OpenTag) (name : JsString) (token : Token) : List OpenTag :=
  ⟨name, token.openTag.getD token.value⟩ :: stack

/-- One round of the loop: a token that is kept is written, room made for it before. -/
def take (max : Nat) (s : Splitting) (token : Token) : Splitting :=
  match token.opens, token.closes with
  | some name, _ =>
    let next := pushed s.stack name token
    if minimumChunkLengthFor next > max then s
    else
      let s := s.makeRoom max token next
      if s.exceeds max token next then s else s.add token next
  | none, some name =>
    if s.stack.all (·.name ≠ name) then s
    else
      let next := s.stack.eraseP (·.name = name)
      let s := s.makeRoom max token next
      if s.exceeds max token next then { s with stack := next } else s.add token next
  | none, none => (s.makeRoom max token s.stack).add token s.stack

/-- The last chunk is closed, too. -/
def finish (s : Splitting) : List JsString :=
  if s.chunkHasBody then s.chunks ++ [s.out ++ closersFor s.stack] else s.chunks

def start : Splitting := ⟨[], [], false, []⟩

end Splitting

def splitTelegramHtml (message : JsString) (max : Nat) : List JsString :=
  if message.length ≤ max then [message]
  else ((tokenize message).foldl (Splitting.take max) Splitting.start).finish

/-- The text without its tags. -/
def stripFrom : Bool → JsString → JsString
  | _, [] => []
  | false, u :: rest => if u = LESS then stripFrom true rest else u :: stripFrom false rest
  | true, u :: rest => if u = GREATER then stripFrom false rest else stripFrom true rest

/-- What is left of a text without its tags. -/
def stripTags (text : JsString) : JsString := stripFrom false text

theorem stripFrom_tag {inner : JsString} (h : GREATER ∉ inner) (rest : JsString) :
    stripFrom true (inner ++ GREATER :: rest) = stripFrom false rest := by
  induction inner with
  | nil => exact if_pos rfl
  | cons u inner ih =>
    obtain ⟨hu, hinner⟩ := not_or.mp (mt mem_cons.mpr h)
    exact (if_neg (Ne.symm hu)).trans (ih hinner)

theorem stripFrom_text {text : JsString} (h : LESS ∉ text) (rest : JsString) :
    stripFrom false (text ++ rest) = text ++ stripFrom false rest := by
  induction text with
  | nil => rfl
  | cons u text ih =>
    obtain ⟨hu, htext⟩ := not_or.mp (mt mem_cons.mpr h)
    exact (if_neg (Ne.symm hu)).trans (congrArg (u :: ·) (ih htext))

/-- The text a reader sees of a token. -/
def Token.text (token : Token) : JsString :=
  if token.opens = none ∧ token.closes = none then token.value else []

/-- A token is written as its text and tags, which `stripTags` takes out. -/
theorem Token.Valid.strip {token : Token} (h : token.Valid) (rest : JsString) :
    stripTags (token.value ++ rest) = token.text ++ stripTags rest := by
  have htag : ∀ {inner : JsString}, GREATER ∉ inner →
      stripTags ((LESS :: inner ++ [GREATER]) ++ rest) = stripTags rest := fun {inner} hinner => by
    have hbody : LESS :: inner ++ [GREATER] ++ rest = LESS :: (inner ++ GREATER :: rest) := by simp
    rw [hbody, stripTags, stripFrom, if_pos rfl, stripFrom_tag hinner, stripTags]
  cases h with
  | unit hless => exact if_neg hless
  | entity _ _ hunits =>
    refine @stripFrom_text (AMP :: _ ++ [SEMICOLON]) ?_ rest
    simp only [cons_append, mem_cons, mem_append, not_mem_nil, or_false, not_or]
    exact ⟨by decide, fun hmem => absurd (hunits _ hmem) (by decide), by decide⟩
  | opening hallowed _ hinside =>
    have hname := greater_not_mem_name (all_isNameUnit_of_allowed hallowed).2
    exact htag (by simp [hname, hinside])
  | closing hallowed =>
    have hname := greater_not_mem_name (all_isNameUnit_of_allowed hallowed).2
    exact htag (not_mem_cons_of_ne_of_not_mem (by decide) hname)

/-- Taking the tags out of valid tokens leaves their texts. -/
theorem strip_values {tokens : List Token} (h : ∀ token ∈ tokens, token.Valid) (rest : JsString) :
    stripTags (values tokens ++ rest) = tokens.flatMap Token.text ++ stripTags rest := by
  induction tokens with
  | nil => rfl
  | cons token tokens ih =>
    obtain ⟨htoken, htokens⟩ := forall_mem_cons.mp h
    rw [values_cons, append_assoc, htoken.strip, ih htokens, flatMap_cons, append_assoc]

/-- A text made of tokens ends outside a tag, so stripping can stop there. -/
theorem Made.strip_append {text : JsString} (h : Made text) (rest : JsString) :
    stripTags (text ++ rest) = stripTags text ++ stripTags rest := by
  obtain ⟨tokens, hvalid, rfl⟩ := h
  have hnil := strip_values hvalid []
  rw [append_nil, show stripTags [] = [] from rfl, append_nil] at hnil
  rw [strip_values hvalid, hnil]

theorem strip_tags {tokens : List Token} (h : ∀ token ∈ tokens, token.Valid)
    (htags : ∀ token ∈ tokens, token.text = []) : stripTags (values tokens) = [] := by
  have := strip_values h []
  rwa [append_nil, flatMap_eq_nil_iff.mpr htags] at this

namespace Splitting
variable {token : Token} {s : Splitting} {next stack : List OpenTag} {max : Nat}

/-- The kept tags after a token, or nothing if the token is left out. -/
def keep (max : Nat) (stack : List OpenTag) (token : Token) : Option (List OpenTag) :=
  match token.opens, token.closes with
  | some name, _ =>
    if minimumChunkLengthFor (pushed stack name token) > max then none
    else some (pushed stack name token)
  | none, some name =>
    if stack.all (·.name ≠ name) then none else some (stack.eraseP (·.name = name))
  | none, none => some stack

theorem closersFor_cons (tag : OpenTag) (stack : List OpenTag) :
    (closersFor (tag :: stack)).length = (closer tag.name).length + (closersFor stack).length := by
  simp [closersFor, names, TelegramMessage.closersFor]

theorem openersFor_cons (tag : OpenTag) (stack : List OpenTag) :
    openersFor (tag :: stack) = openersFor stack ++ tag.tag := by
  simp [openersFor]

theorem length_closer (name : JsString) : (closer name).length = name.length + 3 := by
  simp [closer, js]

/-- Closing a tag takes its closing tag from what the end of the chunk needs. -/
theorem length_closersFor_eraseP {name : JsString}
    (h : stack.all (·.name ≠ name) = false) :
    (closersFor (stack.eraseP (·.name = name))).length + (closer name).length =
      (closersFor stack).length := by
  induction stack with
  | nil => cases h
  | cons tag stack ih =>
    by_cases htag : tag.name = name
    · rw [eraseP_cons_of_pos (by simpa using htag), closersFor_cons, htag, Nat.add_comm]
    · rw [eraseP_cons_of_neg (by simpa using htag), closersFor_cons, closersFor_cons]
      have := ih (by simpa [htag] using h)
      omega

theorem length_openersFor_eraseP (p : OpenTag → Bool) (stack : List OpenTag) :
    (openersFor (stack.eraseP p)).length ≤ (openersFor stack).length := by
  induction stack with
  | nil => exact le_rfl
  | cons tag stack ih =>
    rw [openersFor_cons, length_append]
    by_cases htag : p tag = true
    · rw [eraseP_cons_of_pos htag]
      omega
    · rw [eraseP_cons_of_neg htag, openersFor_cons, length_append]
      omega

/-- The open tags after a token that is written, and why it may be. -/
inductive Keeps (max : Nat) (stack : List OpenTag) (token : Token) : List OpenTag → Prop where
  | text (opens : token.opens = none) (closes : token.closes = none) : Keeps max stack token stack
  | opening {name : JsString} (valid : (openingToken token.value name).Valid)
      (opens : token.opens = some name)
      (room : minimumChunkLengthFor (⟨name, token.value⟩ :: stack) ≤ max) :
      Keeps max stack token (⟨name, token.value⟩ :: stack)
  | closing {name : JsString} (opens : token.opens = none) (closes : token.closes = some name)
      (length : token.value.length = (closer name).length)
      (found : stack.all (·.name ≠ name) = false) :
      Keeps max stack token (stack.eraseP (·.name = name))

/-- The three ways in which `keep` lets a token through. -/
theorem keeps_of_keep (h : token.Valid)
    (hkeep : keep max stack token = some next) : Keeps max stack token next := by
  cases h with
  | unit | entity => exact some.inj hkeep ▸ .text rfl rfl
  | opening hallowed hspace hinside =>
    obtain ⟨hroom, hnext⟩ := Option.ite_none_left_eq_some.mp hkeep
    obtain rfl := some.inj hnext
    exact .opening (.opening hallowed hspace hinside) rfl (not_lt.mp hroom)
  | closing =>
    obtain ⟨hfound, hnext⟩ := Option.ite_none_left_eq_some.mp hkeep
    obtain rfl := some.inj hnext
    refine .closing rfl rfl ?_ (Bool.not_eq_true _ ▸ hfound)
    simp [closingToken, length_closer, toLowerCase]

/-- What a token opens is closed within its own length. -/
theorem Keeps.length_closersFor (h : Keeps max stack token next) :
    (closersFor stack).length ≤ token.value.length + (closersFor next).length := by
  cases h with
  | text => omega
  | opening => rw [closersFor_cons]; omega
  | closing _ _ hlength hfound => have := length_closersFor_eraseP hfound; omega

theorem Keeps.length_openersFor (h : Keeps max stack token next) :
    (openersFor next).length ≤ (openersFor stack).length + token.value.length := by
  cases h with
  | text => omega
  | opening => rw [openersFor_cons, length_append]
  | closing => exact (length_openersFor_eraseP _ _).trans (Nat.le_add_right _ _)

/-- One unit fits between the open tags. -/
def Roomy (max : Nat) (stack : List OpenTag) : Prop :=
  stack = [] ∨ minimumChunkLengthFor stack ≤ max

/-- A kept tag leaves room for one unit. -/
theorem Keeps.roomy (h : Keeps max stack token next)
    (hstack : Roomy max stack) : Roomy max next := by
  cases h with
  | text => exact hstack
  | opening _ _ hroom => exact .inr hroom
  | @closing name _ _ _ hfound =>
    rcases hstack with rfl | hroom
    · cases hfound
    · have hopeners := length_openersFor_eraseP (·.name = name) stack
      have hclosers := length_closersFor_eraseP hfound
      simp only [minimumChunkLengthFor] at hroom
      exact .inr (by simp only [minimumChunkLengthFor]; omega)

/-- A kept tag fits into a new chunk. -/
theorem Keeps.tag_fits (h : Keeps max stack token next)
    (hstack : Roomy max stack) (htag : ¬ (token.opens = none ∧ token.closes = none)) :
    (openersFor stack).length + token.value.length + (closersFor next).length ≤ max := by
  cases h with
  | text hopens hcloses => exact absurd ⟨hopens, hcloses⟩ htag
  | opening _ _ hroom =>
    simp only [minimumChunkLengthFor, openersFor_cons, length_append] at hroom
    omega
  | closing _ _ hlength hfound =>
    rcases hstack with rfl | hroom
    · cases hfound
    · have := length_closersFor_eraseP hfound
      simp only [minimumChunkLengthFor] at hroom
      omega

/-! ## One token -/

/-- The new chunk that `flush` begins. -/
def flushed (s : Splitting) : Splitting :=
  ⟨s.chunks ++ [s.out ++ closersFor s.stack], openersFor s.stack, false, s.stack⟩

/-- Room is there already, or a new chunk is begun. -/
theorem makeRoom_cases (max : Nat) (token : Token) (next : List OpenTag) (s : Splitting) :
    (s.makeRoom max token next = s ∧ (s.chunkHasBody = true → s.exceeds max token next = false)) ∨
    (s.makeRoom max token next = s.flushed ∧ s.chunkHasBody = true ∧
      s.exceeds max token next = true) := by
  unfold makeRoom flush
  cases hbody : s.chunkHasBody <;> cases hexceeds : s.exceeds max token next
  · exact .inl ⟨rfl, nofun⟩
  · exact .inl ⟨rfl, nofun⟩
  · exact .inl ⟨rfl, fun _ => rfl⟩
  · exact .inr ⟨rfl, rfl, rfl⟩

theorem exceeds_eq_false : s.exceeds max token next = false ↔
      s.out.length + token.value.length + (closersFor next).length ≤ max := by
  simp [exceeds]

/-- What holds of the state whatever the message. -/
structure Sound (max : Nat) (s : Splitting) : Prop where
  tags : ∀ tag ∈ s.stack, (openingToken tag.tag tag.name).Valid
  roomy : Roomy max s.stack
  fresh : s.chunkHasBody = false → s.out = openersFor s.stack
  opened : (openersFor s.stack).length ≤ s.out.length
  chunks : ∀ chunk ∈ s.chunks, Made chunk
  out : Made s.out

/-- After `makeRoom` a token fits that fits into a new chunk. -/
theorem not_exceeds_makeRoom (h : Sound max s)
    (hroom : (openersFor s.stack).length + token.value.length + (closersFor next).length ≤ max) :
    (s.makeRoom max token next).exceeds max token next = false := by
  rcases makeRoom_cases max token next s with ⟨heq, hbody⟩ | ⟨heq, -⟩ <;> rw [heq]
  · cases hhas : s.chunkHasBody with
    | true => exact hbody hhas
    | false =>
      rw [exceeds_eq_false, h.fresh hhas]
      exact hroom
  · exact exceeds_eq_false.mpr hroom

/-- A token is left out or written, after a new chunk is begun if it needs one. -/
theorem take_eq (h : Sound max s) (htoken : token.Valid) : s.take max token =
      match keep max s.stack token with
      | none => s
      | some next => (s.makeRoom max token next).add token next := by
  have hfits : ∀ next, keep max s.stack token = some next →
      ¬ (token.opens = none ∧ token.closes = none) →
      (s.makeRoom max token next).exceeds max token next = false := fun next hkeep htag =>
    not_exceeds_makeRoom h ((keeps_of_keep htoken hkeep).tag_fits h.roomy htag)
  rcases hopens : token.opens with - | name
  · rcases hcloses : token.closes with - | name
    · simp only [take, keep, hopens, hcloses]
    · by_cases hfound : s.stack.all (·.name ≠ name) = true
      · simp only [take, keep, hopens, hcloses, if_pos hfound]
      · have hkeep : keep max s.stack token = some (s.stack.eraseP (·.name = name)) := by
          simp only [keep, hopens, hcloses, if_neg hfound]
        simp only [hkeep, take, hopens, hcloses, if_neg hfound, hfits _ hkeep (by simp [hcloses]),
          Bool.false_eq_true, if_false]
  · by_cases hroom : minimumChunkLengthFor (pushed s.stack name token) > max
    · simp only [take, keep, hopens, if_pos hroom]
    · have hkeep : keep max s.stack token = some (pushed s.stack name token) := by
        simp only [keep, hopens, if_neg hroom]
      simp only [hkeep, take, hopens, if_neg hroom, hfits _ hkeep (by simp [hopens]),
        Bool.false_eq_true, if_false]

/-- Only allowed tags are ever opened. -/
theorem allowed_of_tag {tag : OpenTag} (h : (openingToken tag.tag tag.name).Valid) :
    tag.name ∈ ALLOWED_TAGS := by
  generalize htoken : openingToken tag.tag tag.name = token at h
  cases h with
  | unit | entity | closing => simp [openingToken, textToken, closingToken] at htoken
  | opening hallowed =>
    simp only [openingToken, Token.mk.injEq, Option.some.injEq] at htoken
    exact htoken.2.1 ▸ hallowed

/-- The tokens that open the tags again. -/
def opening (stack : List OpenTag) : List Token :=
  stack.reverse.map fun tag => openingToken tag.tag tag.name

theorem values_opening (stack : List OpenTag) : values (opening stack) = openersFor stack := by
  simp only [opening, values, flatMap_map, openersFor]
  rfl

section
variable (h : ∀ tag ∈ stack, (openingToken tag.tag tag.name).Valid)
include h

theorem opening_valid : ∀ token ∈ opening stack, token.Valid :=
  forall_mem_map.mpr fun tag htag => h tag (mem_reverse.mp htag)

/-- Opened again, the tags are the open ones. -/
theorem unwind_opening : unwind [] (opening stack) = some (names stack) := by
  induction stack with
  | nil => rfl
  | cons tag stack ih =>
    rw [opening, reverse_cons, map_append, unwind_append, ← opening, ih (forall_mem_cons.mp h).2]
    rfl

/-- So the front of a chunk is made of tokens, -/
theorem made_openersFor : Made (openersFor stack) :=
  ⟨opening stack, opening_valid h, values_opening _⟩

theorem tokenize_openersFor : tokenize (openersFor stack) = opening stack := by
  rw [← values_opening _]
  exact tokenize_values (opening_valid h)

theorem closing_names_valid : ∀ token ∈ closing (names stack), token.Valid :=
  forall_mem_map.mpr <| forall_mem_map.mpr fun tag htag =>
    closing_valid (allowed_of_tag (h tag htag))

/-- and so is its end. -/
theorem made_closersFor : Made (closersFor stack) :=
  ⟨closing (names stack), closing_names_valid h, values_closing _⟩

theorem tokenize_closersFor : tokenize (closersFor stack) = closing (names stack) := by
  rw [closersFor, ← values_closing]
  exact tokenize_values (closing_names_valid h)

theorem strip_openersFor : stripTags (openersFor stack) = [] := by
  rw [← values_opening]
  exact strip_tags (opening_valid h) (forall_mem_map.mpr fun _ _ => rfl)

theorem strip_closersFor : stripTags (closersFor stack) = [] := by
  rw [closersFor, ← values_closing]
  exact strip_tags (closing_names_valid h) (forall_mem_map.mpr fun _ _ => rfl)

end

/-- The open tags stay allowed ones. -/
theorem Keeps.tags (h : Keeps max stack token next)
    (hstack : ∀ tag ∈ stack, (openingToken tag.tag tag.name).Valid) :
    ∀ tag ∈ next, (openingToken tag.tag tag.name).Valid := by
  cases h with
  | text => exact hstack
  | opening hvalid => exact forall_mem_cons.mpr ⟨hvalid, hstack⟩
  | closing => exact fun tag htag => hstack tag (mem_of_mem_eraseP htag)

/-- A new chunk keeps the state sound. -/
theorem Sound.flushed (h : Sound max s) : Sound max s.flushed where
  tags := h.tags
  roomy := h.roomy
  fresh _ := rfl
  opened := le_rfl
  chunks := forall_mem_append.mpr
    ⟨h.chunks, forall_mem_singleton.mpr (h.out.append (made_closersFor h.tags))⟩
  out := made_openersFor h.tags

/-- Making room ends a sound chunk and begins one, -/
theorem Sound.makeRoom (h : Sound max s) (token : Token) (next : List OpenTag) :
    Sound max (s.makeRoom max token next) := by
  rcases makeRoom_cases max token next s with ⟨heq, -⟩ | ⟨heq, -⟩ <;> rw [heq]
  · exact h
  · exact h.flushed

theorem makeRoom_stack (max : Nat) (token : Token) (next : List OpenTag) (s : Splitting) :
    (s.makeRoom max token next).stack = s.stack := by
  rcases makeRoom_cases max token next s with ⟨heq, -⟩ | ⟨heq, -⟩ <;> rw [heq]
  rfl

/-- So does writing a token that is kept. -/
theorem Sound.add (h : Sound max s) (htoken : token.Valid)
    (hkeeps : Keeps max s.stack token next) : Sound max (s.add token next) where
  tags := hkeeps.tags h.tags
  roomy := hkeeps.roomy h.roomy
  fresh := nofun
  opened := by
    have hopened := h.opened
    have hopeners := hkeeps.length_openersFor
    simp only [Splitting.add, length_append]
    omega
  chunks := h.chunks
  out := h.out.append htoken.made

/-- The text of all that has been written. -/
def written (s : Splitting) : JsString := s.chunks.flatMap stripTags ++ stripTags s.out

/-- The tags around the end of a chunk are no text. -/
theorem Sound.written_flushed (h : Sound max s) : s.flushed.written = s.written := by
  simp only [written, Splitting.flushed, flatMap_append, flatMap_singleton,
    h.out.strip_append, strip_closersFor h.tags, strip_openersFor h.tags, append_nil]

/-- and writes no text. -/
theorem Sound.written_makeRoom (h : Sound max s) (token : Token) (next : List OpenTag) :
    (s.makeRoom max token next).written = s.written := by
  rcases makeRoom_cases max token next s with ⟨heq, -⟩ | ⟨heq, -⟩ <;> rw [heq]
  exact h.written_flushed

/-- A token that is kept writes its text. -/
theorem Sound.written_add (h : Sound max s) (htoken : token.Valid) (next : List OpenTag)
    : (s.add token next).written = s.written ++ token.text := by
  have hstrip := htoken.strip []
  rw [append_nil, show stripTags [] = [] from rfl, append_nil] at hstrip
  simp only [written, Splitting.add, h.out.strip_append, hstrip, append_assoc]

/-- A token that is left out has none. -/
theorem text_of_keep_eq_none (h : keep max stack token = none) :
    token.text = [] := by
  refine if_neg fun hnone => ?_
  simp [keep, hnone.1, hnone.2] at h

/-- A token writes its text, whether it is left out or not. -/
theorem Sound.taken (h : Sound max s) (htoken : token.Valid) :
    Sound max (s.take max token) ∧ (s.take max token).written = s.written ++ token.text := by
  rw [take_eq h htoken]
  cases hkeep : keep max s.stack token with
  | none => exact ⟨h, by rw [text_of_keep_eq_none hkeep, append_nil]⟩
  | some next =>
    have hroom := h.makeRoom token next
    have hkeeps := keeps_of_keep htoken hkeep
    rw [← makeRoom_stack max token next s] at hkeeps
    exact ⟨hroom.add htoken hkeeps, by rw [hroom.written_add htoken, h.written_makeRoom]⟩

/-- A whole message writes its texts. -/
theorem Sound.run (h : Sound max s) {tokens : List Token}
    (htokens : ∀ token ∈ tokens, token.Valid) : Sound max (tokens.foldl (take max) s) ∧
      (tokens.foldl (take max) s).written = s.written ++ tokens.flatMap Token.text := by
  induction tokens generalizing s with
  | nil => exact ⟨h, (append_nil _).symm⟩
  | cons token tokens ih =>
    obtain ⟨htoken, htokens⟩ := forall_mem_cons.mp htokens
    obtain ⟨hsound, hwritten⟩ := h.taken htoken
    obtain ⟨hrun, hall⟩ := ih hsound htokens
    refine ⟨hrun, ?_⟩
    rw [foldl_cons, hall, hwritten, flatMap_cons, append_assoc]

theorem Sound.strip_finish (h : Sound max s) :
    s.finish.flatMap stripTags = s.written := by
  unfold finish written
  cases hbody : s.chunkHasBody with
  | false => simp [h.fresh hbody, strip_openersFor h.tags]
  | true => simp [h.out.strip_append, strip_closersFor h.tags]

theorem sound_start (max : Nat) : Sound max start :=
  ⟨forall_mem_nil _, .inl rfl, fun _ => rfl, le_rfl, forall_mem_nil _, made_nil⟩

end Splitting

theorem split_keeps_text {message : JsString} (h : WellFormed message) (max : Nat) :
    (splitTelegramHtml message max).flatMap stripTags = stripTags message := by
  unfold splitTelegramHtml
  split
  · exact flatMap_singleton _ _
  · obtain ⟨tokens, hreads⟩ := h
    obtain ⟨hsound, hwritten⟩ := (Splitting.sound_start max).run hreads.valid
    have hstrip := strip_values hreads.valid []
    rw [append_nil, hreads.values] at hstrip
    rw [hreads.tokenize_eq, hsound.strip_finish, hwritten, hstrip]
    exact (append_nil _).symm

end TelegramMessage
end GajaeCode
