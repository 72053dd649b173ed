import GajaeCode.HtmlTokens
import GajaeCode.TelegramHtml
import GajaeCode.Tokenizer

/-! # The tokens of a Telegram message

`packages/coding-agent/src/sdk/bus/html-format.ts`, `tokenize`: a finished message is cut into
tags, entities and single units.  Any text has such tokens; a well-formed message has no others
than the ones listed by `Token.Valid`, and its tags are closed in their order (`unwind`).

A message of valid tokens is cut into just these (`tokenize_values`).
-/
namespace GajaeCode
open JsString List

namespace TelegramMessage
open Html (LESS GREATER AMP SEMICOLON)
open TelegramHtml (foldCase)
variable {name text : JsString}
variable {attributes text' : JsString} {u : CodeUnit}

def ALLOWED_TAGS : List JsString :=
  [js "b", js "i", js "u", js "s", js "code", js "pre", js "a", js "blockquote", js "tg-spoiler"]

structure Token where
  value : JsString
  /-- the name of a tag that it opens, in lower case -/
  opens : Option JsString
  openTag : Option JsString
  /-- the name of a tag that it closes -/
  closes : Option JsString
  deriving DecidableEq

def toLowerCase (name : JsString) : JsString := name.map foldCase

/-- `[a-z-]`, in either case -/
def isNameUnit (u : CodeUnit) : Bool :=
  (0x61 ≤ u && u ≤ 0x7a) || (0x41 ≤ u && u ≤ 0x5a) || u = 0x2d

def allowedName (name : JsString) : Option JsString :=
  if toLowerCase name ∈ ALLOWED_TAGS then some (toLowerCase name) else none

/-- `/^<\/([a-z-]+)>$/i`, of what stands between the brackets -/
def closeName (inner : JsString) : Option JsString :=
  match inner with
  | u :: name => if u = 0x2f ∧ name ≠ [] ∧ name.all isNameUnit then some name else none
  | [] => none

/-- `/^<([a-z-]+)(?:\s[^>]*)?>$/i` -/
def openName (inner : JsString) : Option JsString :=
  let name := inner.takeWhile isNameUnit
  let attributes := inner.dropWhile isNameUnit
  if name ≠ [] ∧ (attributes = [] ∨ attributes.head?.any isWhitespace) then some name else none

def textToken (value : JsString) : Token := ⟨value, none, none, none⟩

def openingToken (value name : JsString) : Token := ⟨value, some name, some value, none⟩

def closingToken (value name : JsString) : Token := ⟨value, none, none, some name⟩

def tagToken (inner : JsString) : Token :=
  let raw := LESS :: inner ++ [GREATER]
  match (closeName inner).bind allowedName with
  | some name => closingToken raw name
  | none =>
    match (openName inner).bind allowedName with
    | some name => openingToken raw name
    | none => textToken raw

/-- The tokens, if there are at most `fuel`. -/
def tokenizeFrom : Nat → JsString → List Token
  | 0, _ | _ + 1, [] => []
  | fuel + 1, ch :: rest =>
    if ch = LESS then
      match splitFirst [GREATER] rest with
      | some (inner, after) => tagToken inner :: tokenizeFrom fuel after
      | none => textToken [ch] :: tokenizeFrom fuel rest
    else if ch = AMP then
      match splitFirst [SEMICOLON] rest with
      | some (name, after) =>
        if name.length + 1 ≤ 10 then
          textToken (AMP :: name ++ [SEMICOLON]) :: tokenizeFrom fuel after
        else textToken [ch] :: tokenizeFrom fuel rest
      | none => textToken [ch] :: tokenizeFrom fuel rest
    else textToken [ch] :: tokenizeFrom fuel rest

def tokenize (html : JsString) : List Token := tokenizeFrom html.length html

/-- `[a-zA-Z0-9#]` -/
def isEntityUnit (u : CodeUnit) : Bool :=
  (0x61 ≤ u && u ≤ 0x7a) || (0x41 ≤ u && u ≤ 0x5a) || isDigit u || u = 0x23

/-- The tokens of a well-formed message.  The numeral of a code point has at most eight units, a
named entity that Telegram knows fewer. -/
inductive Token.Valid : Token → Prop where
  | unit {u : CodeUnit} (ne_less : u ≠ LESS) (ne_amp : u ≠ AMP) : Valid (textToken [u])
  | entity {name : JsString} (ne_nil : name ≠ []) (short : name.length ≤ 9)
      (units : ∀ u ∈ name, isEntityUnit u = true) :
      Valid (textToken (AMP :: name ++ [SEMICOLON]))
  | opening {name attributes : JsString} (allowed : toLowerCase name ∈ ALLOWED_TAGS)
      (space : attributes = [] ∨ attributes.head?.any isWhitespace = true)
      (inside : GREATER ∉ attributes) :
      Valid (openingToken (LESS :: (name ++ attributes) ++ [GREATER]) (toLowerCase name))
  | closing {name : JsString} (allowed : toLowerCase name ∈ ALLOWED_TAGS) :
      Valid (closingToken (LESS :: (0x2f :: name) ++ [GREATER]) (toLowerCase name))

def values (tokens : List Token) : JsString := tokens.flatMap Token.value

/-- The open tags after a token, the last one first, if a tag that it closes is the last one. -/
def nest (stack : List JsString) (token : Token) : Option (List JsString) :=
  match token.opens, token.closes, stack with
  | some name, _, stack => some (name :: stack)
  | none, some _, [] => none
  | none, some name, top :: stack => if top = name then some stack else none
  | none, none, stack => some stack

def unwind (stack : List JsString) (tokens : List Token) : Option (List JsString) :=
  tokens.foldlM nest stack

/-- The message is made of these tokens. -/
structure Reads (message : JsString) (tokens : List Token) : Prop where
  valid : ∀ token ∈ tokens, token.Valid
  values : values tokens = message
  nested : unwind [] tokens = some []

def WellFormed (message : JsString) : Prop := ∃ tokens, Reads message tokens

/-! ## One reading -/

@[simp] theorem values_nil : values [] = [] := rfl

@[simp] theorem values_cons (token : Token) (tokens : List Token) :
    values (token :: tokens) = token.value ++ values tokens := rfl

@[simp] theorem values_append (ts ts' : List Token) :
    values (ts ++ ts') = values ts ++ values ts' :=
  flatMap_append

@[simp] theorem unwind_cons (stack : List JsString) (token : Token) (rest : List Token) :
    unwind stack (token :: rest) = (nest stack token).bind fun stack => unwind stack rest :=
  foldlM_cons

@[simp] theorem unwind_append (stack : List JsString) (ts ts' : List Token) :
    unwind stack (ts ++ ts') = (unwind stack ts).bind fun stack => unwind stack ts' :=
  foldlM_append

theorem splitFirst_singleton {before : JsString} (h : u ∉ before) (after : JsString) :
    splitFirst [u] (before ++ u :: after) = some (before, after) := by
  refine (splitFirst_eq_some (cons_ne_nil _ _)).mpr ⟨by simp, ?_⟩
  rw [dropLast_singleton, append_nil]
  exact fun hmem => h ((singleton_infix_iff _ _).mp hmem)

theorem allowed_names : ∀ name ∈ ALLOWED_TAGS,
    name ≠ [] ∧ name.all isNameUnit = true ∧ toLowerCase name = name := by
  decide

theorem isNameUnit_of_foldCase (h : isNameUnit (foldCase u) = true) : isNameUnit u = true := by
  unfold foldCase at h
  split at h
  · rename_i hupper
    simp only [isNameUnit, Bool.or_eq_true]
    exact .inl (.inr hupper)
  · exact h

theorem all_isNameUnit_of_allowed (h : toLowerCase name ∈ ALLOWED_TAGS) :
    name ≠ [] ∧ ∀ u ∈ name, isNameUnit u = true := by
  obtain ⟨hne, hall, -⟩ := allowed_names _ h
  refine ⟨fun hnil => hne (by rw [hnil]; rfl), fun u hu => isNameUnit_of_foldCase ?_⟩
  exact all_eq_true.mp hall _ (mem_map_of_mem hu)

theorem not_isNameUnit : isNameUnit GREATER = false ∧ isNameUnit 0x2f = false := by decide

theorem tagToken_closing (h : toLowerCase name ∈ ALLOWED_TAGS) : tagToken (0x2f :: name) =
      closingToken (LESS :: (0x2f :: name) ++ [GREATER]) (toLowerCase name) := by
  obtain ⟨hne, hall⟩ := all_isNameUnit_of_allowed h
  have hclose : closeName (0x2f :: name) = some name := by
    simp only [closeName]
    exact if_pos ⟨trivial, hne, all_eq_true.mpr hall⟩
  simp only [tagToken, hclose, Option.bind_some, allowedName, if_pos h]

theorem closeName_name (hne : name ≠ []) (hall : ∀ u ∈ name, isNameUnit u = true) :
    closeName (name ++ attributes) = none := by
  obtain ⟨u, name, rfl⟩ := exists_cons_of_ne_nil hne
  have hu : u ≠ 0x2f := by
    rintro rfl
    exact absurd (hall _ mem_cons_self) (by rw [not_isNameUnit.2]; exact Bool.false_ne_true)
  simp only [cons_append, closeName]
  exact if_neg fun h => hu h.1

theorem whitespace_not_nameUnit (h : isWhitespace u = true) : isNameUnit u = false := by
  simp only [isWhitespace, Bool.or_eq_true, Bool.and_eq_true, beq_iff_eq, decide_eq_true_eq,
    ← UInt16.toNat_inj, UInt16.le_iff_toNat_le, UInt16.reduceToNat] at h
  simp only [isNameUnit, Bool.or_eq_false_iff, Bool.and_eq_false_iff, decide_eq_false_iff_not,
    ← UInt16.toNat_inj, UInt16.le_iff_toNat_le, UInt16.reduceToNat]
  omega

theorem openName_name (hne : name ≠ []) (hall : ∀ u ∈ name, isNameUnit u = true)
    (hspace : attributes = [] ∨ attributes.head?.any isWhitespace = true) :
    openName (name ++ attributes) = some name := by
  have hhead : ∀ u ∈ attributes.head?, isNameUnit u = false := by
    rintro u hu
    rcases hspace with rfl | hspace
    · cases hu
    · rw [Option.mem_def.mp hu] at hspace
      exact whitespace_not_nameUnit hspace
  have htake : (name ++ attributes).takeWhile isNameUnit = name := by
    rw [takeWhile_append_of_pos hall]
    cases attributes with
    | nil => simp
    | cons u attributes => simp [hhead u rfl]
  have hdrop : (name ++ attributes).dropWhile isNameUnit = attributes := by
    rw [dropWhile_append_of_pos hall]
    cases attributes with
    | nil => rfl
    | cons u attributes => simp [hhead u rfl]
  simp only [openName, htake, hdrop]
  exact if_pos ⟨hne, hspace⟩

theorem tagToken_opening (h : toLowerCase name ∈ ALLOWED_TAGS)
    (hspace : attributes = [] ∨ attributes.head?.any isWhitespace = true) :
    tagToken (name ++ attributes) =
      openingToken (LESS :: (name ++ attributes) ++ [GREATER]) (toLowerCase name) := by
  obtain ⟨hne, hall⟩ := all_isNameUnit_of_allowed h
  simp only [tagToken, closeName_name hne hall, openName_name hne hall hspace, Option.bind_none,
    Option.bind_some, allowedName, if_pos h]

theorem greater_not_mem_name (hall : ∀ u ∈ name, isNameUnit u = true) : GREATER ∉ name := by
  intro hmem
  exact absurd (hall _ hmem) (by rw [not_isNameUnit.1]; exact Bool.false_ne_true)

theorem tokenizeFrom_tag {inner : JsString} (h : GREATER ∉ inner) (fuel : Nat) (rest : JsString) :
    tokenizeFrom (fuel + 1) ((LESS :: inner ++ [GREATER]) ++ rest) =
      tagToken inner :: tokenizeFrom fuel rest := by
  have hsplit : splitFirst [GREATER] (inner ++ [GREATER] ++ rest) = some (inner, rest) := by
    rw [append_assoc]
    exact splitFirst_singleton h rest
  simp only [cons_append, tokenizeFrom, if_pos, hsplit]

variable {token : Token}

theorem Token.Valid.tokenizeFrom (h : token.Valid) (fuel : Nat) (rest : JsString) :
    tokenizeFrom (fuel + 1) (token.value ++ rest) =
      token :: TelegramMessage.tokenizeFrom fuel rest := by
  cases h with
  | @unit u hless hamp =>
    simp only [textToken, cons_append, nil_append, TelegramMessage.tokenizeFrom,
      if_neg hless, if_neg hamp]
  | @entity name hne hshort hunits =>
    have hsemicolon : SEMICOLON ∉ name := fun hmem => by
      have := hunits _ hmem
      exact absurd this (by decide)
    have hsplit : splitFirst [SEMICOLON] (name ++ [SEMICOLON] ++ rest) = some (name, rest) := by
      rw [append_assoc]
      exact splitFirst_singleton hsemicolon rest
    simp only [textToken, cons_append, TelegramMessage.tokenizeFrom,
      if_neg (show AMP ≠ LESS by decide), if_pos, hsplit,
      if_pos (show name.length + 1 ≤ 10 by omega)]
  | @opening name attributes hallowed hspace hinside =>
    have hname := greater_not_mem_name (all_isNameUnit_of_allowed hallowed).2
    have hinner : GREATER ∉ name ++ attributes := by simp [hname, hinside]
    exact (tokenizeFrom_tag hinner fuel rest).trans (by rw [tagToken_opening hallowed hspace])
  | @closing name hallowed =>
    have hname := greater_not_mem_name (all_isNameUnit_of_allowed hallowed).2
    have hinner : GREATER ∉ (0x2f : CodeUnit) :: name := by
      simp only [mem_cons, not_or]
      exact ⟨by decide, hname⟩
    exact (tokenizeFrom_tag hinner fuel rest).trans (by rw [tagToken_closing hallowed])

theorem Token.Valid.value_ne_nil (h : token.Valid) : token.value ≠ [] := by
  cases h <;> exact cons_ne_nil _ _

section
variable {tokens : List Token} (h : ∀ token ∈ tokens, token.Valid)
include h

theorem tokenizeFrom_values {fuel : Nat} (hfuel : (values tokens).length ≤ fuel) :
    tokenizeFrom fuel (values tokens) = tokens := by
  induction tokens generalizing fuel with
  | nil => cases fuel <;> rfl
  | cons token tokens ih =>
    obtain ⟨hvalid, htokens⟩ := forall_mem_cons.mp h
    have hpos := length_pos_of_ne_nil hvalid.value_ne_nil
    rw [values_cons, length_append] at hfuel
    obtain ⟨fuel, rfl⟩ := Nat.exists_eq_succ_of_ne_zero (show fuel ≠ 0 by omega)
    rw [values_cons, hvalid.tokenizeFrom, ih htokens (by omega)]

theorem tokenize_values : tokenize (values tokens) = tokens :=
  tokenizeFrom_values h le_rfl

end

/-- A text of valid tokens, however its tags are closed. -/
def Made (text : JsString) : Prop :=
  ∃ tokens, (∀ token ∈ tokens, token.Valid) ∧ values tokens = text

theorem Made.append (h : Made text) (h' : Made text') : Made (text ++ text') := by
  obtain ⟨tokens, hvalid, rfl⟩ := h
  obtain ⟨tokens', hvalid', rfl⟩ := h'
  exact ⟨tokens ++ tokens', forall_mem_append.mpr ⟨hvalid, hvalid'⟩, values_append _ _⟩

theorem tokenize_append (h : Made text) (h' : Made text') :
    tokenize (text ++ text') = tokenize text ++ tokenize text' := by
  obtain ⟨tokens, hvalid, rfl⟩ := h
  obtain ⟨tokens', hvalid', rfl⟩ := h'
  rw [← values_append, tokenize_values hvalid, tokenize_values hvalid',
    tokenize_values (forall_mem_append.mpr ⟨hvalid, hvalid'⟩)]

theorem Token.Valid.made (h : token.Valid) : Made token.value :=
  ⟨[token], forall_mem_singleton.mpr h, append_nil _⟩

theorem Token.Valid.tokenize (h : token.Valid) : tokenize token.value = [token] := by
  have := tokenize_values (forall_mem_singleton.mpr h)
  rwa [show values [token] = token.value from append_nil _] at this

theorem Reads.tokenize_eq {message : JsString} {tokens : List Token} (h : Reads message tokens) :
    tokenize message = tokens := by
  rw [← h.values]
  exact tokenize_values h.valid

theorem wellFormed_iff : WellFormed text ↔ Made text ∧ unwind [] (tokenize text) = some [] := by
  constructor
  · rintro ⟨tokens, hreads⟩
    refine ⟨⟨tokens, hreads.valid, hreads.values⟩, ?_⟩
    rw [hreads.tokenize_eq]
    exact hreads.nested
  · rintro ⟨⟨tokens, hvalid, rfl⟩, hnested⟩
    exact ⟨tokens, hvalid, rfl, tokenize_values hvalid ▸ hnested⟩

theorem made_nil : Made [] := ⟨[], forall_mem_nil _, rfl⟩

theorem unwind_text (stack : List JsString) (text : JsString) :
    unwind stack (text.map fun u => textToken [u]) = some stack := by
  induction text with
  | nil => rfl
  | cons u text ih => exact (unwind_cons _ _ _).trans ih

theorem wellFormed_text (h : text.all (fun u => u ≠ LESS ∧ u ≠ AMP) = true) : WellFormed text := by
  have h : ∀ u ∈ text, u ≠ LESS ∧ u ≠ AMP := by simpa using h
  refine ⟨text.map fun u => textToken [u], ?_, ?_, unwind_text [] text⟩
  · exact forall_mem_map.mpr fun u hu => .unit (h u hu).1 (h u hu).2
  · rw [values, flatMap_map]
    exact flatMap_singleton' text

end TelegramMessage
end GajaeCode
