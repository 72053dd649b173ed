import GajaeCode.JsString

/-! # Well-formed HTML

A text of a small HTML: characters, entities, and tags of a fixed set, of which the tag of a
link has an address.  It is well formed if it can be read as such tokens (`tokenize`) and
every tag is closed by its own closing tag, the last opened first (`nested`).

`tokenize_render` says that a text has one reading; `Neutral` tokens may stand anywhere in a
text without changing whether it is nested.
-/
namespace GajaeCode
open JsString List

namespace Html

inductive Tag where
  | b | i | u | s | code | pre | a | blockquote | tgSpoiler
  deriving DecidableEq

def Tag.name : Tag → JsString
  | b => js "b"
  | i => js "i"
  | u => js "u"
  | s => js "s"
  | code => js "code"
  | pre => js "pre"
  | a => js "a"
  | blockquote => js "blockquote"
  | tgSpoiler => js "tg-spoiler"

def Tag.all : List Tag := [b, i, u, s, code, pre, a, blockquote, tgSpoiler]

inductive Entity where
  | amp | lt | gt | quot
  deriving DecidableEq

def Entity.name : Entity → JsString
  | amp => js "amp"
  | lt => js "lt"
  | gt => js "gt"
  | quot => js "quot"

def Entity.all : List Entity := [amp, lt, gt, quot]

inductive Token where
  | unit (u : CodeUnit)
  | entity (e : Entity)
  | opening (tag : Tag)
  /-- the tag `a` with its address -/
  | link (href : JsString)
  | closing (tag : Tag)

def LESS : CodeUnit := 0x3c

def GREATER : CodeUnit := 0x3e

def AMP : CodeUnit := 0x26

def SEMICOLON : CodeUnit := 0x3b

def QUOTE : CodeUnit := 0x22

def hrefPrefix : JsString := js "a href=\""

/-- What stands between `<` and `>`. -/
def Token.inner : Token → JsString
  | .opening tag => tag.name
  | .link href => hrefPrefix ++ href ++ [QUOTE]
  | .closing tag => js "/" ++ tag.name
  | _ => []

def Token.text : Token → JsString
  | .unit u => [u]
  | .entity e => AMP :: e.name ++ [SEMICOLON]
  | token => LESS :: token.inner ++ [GREATER]

def render (tokens : List Token) : JsString := tokens.flatMap Token.text

/-- The tag that stands between `<` and `>`. -/
def readTag (inner : JsString) : Option Token :=
  match Tag.all.find? (·.name = inner) with
  | some tag => some (.opening tag)
  | none =>
    match Tag.all.find? (fun tag => js "/" ++ tag.name = inner) with
    | some tag => some (.closing tag)
    | none =>
      let href := (inner.drop hrefPrefix.length).dropLast
      if inner = hrefPrefix ++ href ++ [QUOTE] ∧ QUOTE ∉ href then some (.link href) else none

def readEntity (name : JsString) : Option Token := (Entity.all.find? (·.name = name)).map .entity

/-- Where a reader is, with what it has read of a tag or of an entity. -/
inductive Mode where
  | text
  | tag (inner : JsString)
  | entity (name : JsString)

def tokenize : Mode → JsString → Option (List Token)
  | .text, [] => some []
  | .tag _, [] | .entity _, [] => none
  | .text, u :: rest =>
    if u = LESS then tokenize (.tag []) rest
    else if u = AMP then tokenize (.entity []) rest
    else if u = GREATER then none
    else (tokenize .text rest).map (.unit u :: ·)
  | .tag inner, u :: rest =>
    if u = GREATER then (readTag inner).bind fun token => (tokenize .text rest).map (token :: ·)
    else if u = LESS then none
    else tokenize (.tag (inner ++ [u])) rest
  | .entity name, u :: rest =>
    if u = SEMICOLON then (readEntity name).bind fun token => (tokenize .text rest).map (token :: ·)
    else if u = LESS ∨ u = GREATER ∨ u = AMP then none
    else tokenize (.entity (name ++ [u])) rest

/-- Under the tags on the stack, all tags are closed in their order. -/
def nested : List Tag → List Token → Bool
  | stack, [] => stack.isEmpty
  | stack, .opening tag :: rest => nested (tag :: stack) rest
  | stack, .link _ :: rest => nested (.a :: stack) rest
  | [], .closing _ :: _ => false
  | top :: stack, .closing tag :: rest => top = tag && nested stack rest
  | stack, .unit _ :: rest | stack, .entity _ :: rest => nested stack rest

def WellFormed (html : JsString) : Prop := (tokenize .text html).any (nested []) = true

instance (html : JsString) : Decidable (WellFormed html) :=
  inferInstanceAs (Decidable (_ = true))

/-! ## One reading -/

/-- A token whose text can be told from what is around it. -/
def Token.Valid : Token → Prop
  | .unit u => u ≠ LESS ∧ u ≠ GREATER ∧ u ≠ AMP
  | .link href => LESS ∉ href ∧ GREATER ∉ href ∧ QUOTE ∉ href
  | _ => True

theorem render_append (tokens tokens' : List Token) :
    render (tokens ++ tokens') = render tokens ++ render tokens' :=
  flatMap_append

@[simp] theorem render_nil : render [] = [] := rfl

@[simp] theorem render_cons (token : Token) (tokens : List Token) :
    render (token :: tokens) = token.text ++ render tokens := rfl

theorem readTag_opening (tag : Tag) : readTag tag.name = some (.opening tag) := by
  cases tag <;> rfl

theorem readTag_closing (tag : Tag) : readTag (js "/" ++ tag.name) = some (.closing tag) := by
  cases tag <;> rfl

theorem space_not_mem_name (tag : Tag) : 0x20 ∉ js "/" ++ tag.name := by
  cases tag <;> decide

theorem readTag_link {href : JsString} (h : QUOTE ∉ href) :
    readTag (hrefPrefix ++ href ++ [QUOTE]) = some (.link href) := by
  have hspace : 0x20 ∈ hrefPrefix ++ href ++ [QUOTE] :=
    mem_append_left _ (mem_append_left _ (by decide))
  have hopening : Tag.all.find? (·.name = hrefPrefix ++ href ++ [QUOTE]) = none := by
    refine find?_eq_none.mpr fun tag _ hname => space_not_mem_name tag ?_
    rw [of_decide_eq_true hname]
    exact mem_append_right _ hspace
  have hclosing : Tag.all.find? (fun tag => js "/" ++ tag.name = hrefPrefix ++ href ++ [QUOTE]) =
      none := by
    refine find?_eq_none.mpr fun tag _ hname => space_not_mem_name tag ?_
    rw [of_decide_eq_true hname]
    exact hspace
  have hhref : ((hrefPrefix ++ href ++ [QUOTE]).drop hrefPrefix.length).dropLast = href := by
    rw [append_assoc, drop_left, dropLast_concat]
  rw [readTag, hopening, hclosing]
  simp only [hhref]
  rw [if_pos ⟨trivial, h⟩]

theorem tokenize_tag {inner : JsString} (h : LESS ∉ inner ∧ GREATER ∉ inner) (acc rest : JsString) :
    tokenize (.tag acc) (inner ++ GREATER :: rest) =
      (readTag (acc ++ inner)).bind fun token => (tokenize .text rest).map (token :: ·) := by
  induction inner generalizing acc with
  | nil => rw [nil_append, tokenize, if_pos rfl, append_nil]
  | cons u inner ih =>
    obtain ⟨hlt, hgt⟩ := h
    rw [mem_cons, not_or] at hlt hgt
    rw [cons_append, tokenize, if_neg (Ne.symm hgt.1), if_neg (Ne.symm hlt.1),
      ih ⟨hlt.2, hgt.2⟩, append_assoc]
    rfl

variable {token : Token}

/-- The texts of the tags begin and end with their brackets and have no other ones. -/
theorem Token.inner_brackets (h : token.Valid) : LESS ∉ token.inner ∧ GREATER ∉ token.inner := by
  cases token with
  | unit u | entity e => exact ⟨not_mem_nil, not_mem_nil⟩
  | opening tag | closing tag => cases tag <;> decide
  | link href =>
    obtain ⟨hlt, hgt, -⟩ := h
    have hhref : LESS ∉ hrefPrefix ∧ GREATER ∉ hrefPrefix := by decide
    have hquote : LESS ∉ [QUOTE] ∧ GREATER ∉ [QUOTE] := by decide
    simp only [Token.inner, mem_append, not_or]
    exact ⟨⟨⟨hhref.1, hlt⟩, hquote.1⟩, ⟨hhref.2, hgt⟩, hquote.2⟩

theorem tokenize_brackets (hvalid : token.Valid) (hread : readTag token.inner = some token)
    (rest : JsString) : tokenize .text (LESS :: token.inner ++ [GREATER] ++ rest) =
      (tokenize .text rest).map (token :: ·) := by
  have hinner := tokenize_tag (Token.inner_brackets hvalid) [] rest
  rw [nil_append, hread, Option.bind_some] at hinner
  rw [← hinner, append_assoc, cons_append, tokenize, if_pos rfl]
  rfl

theorem tokenize_token (h : token.Valid) (rest : JsString) :
    tokenize .text (token.text ++ rest) = (tokenize .text rest).map (token :: ·) := by
  cases token with
  | unit u =>
    obtain ⟨hlt, hgt, hamp⟩ := h
    rw [Token.text, singleton_append, tokenize, if_neg hlt, if_neg hamp, if_neg hgt]
  | entity e => cases e <;> rfl
  | opening tag => exact tokenize_brackets h (readTag_opening tag) rest
  | closing tag => exact tokenize_brackets h (readTag_closing tag) rest
  | link href => exact tokenize_brackets h (readTag_link h.2.2) rest

variable {tokens : List Token}

/-- **A text has one reading.** -/
theorem tokenize_render (h : ∀ token ∈ tokens, token.Valid) :
    tokenize .text (render tokens) = some tokens := by
  induction tokens with
  | nil => rfl
  | cons token tokens ih =>
    rw [render_cons, tokenize_token (h token mem_cons_self),
      ih fun token' hmem => h token' (.tail token hmem)]
    rfl

theorem wellFormed_render (h : ∀ token ∈ tokens, token.Valid) :
    WellFormed (render tokens) ↔ nested [] tokens = true := by
  rw [WellFormed, tokenize_render h, Option.any_some]

/-- Tokens that change nothing about the tags that are open. -/
def Neutral (tokens : List Token) : Prop :=
  ∀ stack rest, nested stack (tokens ++ rest) = nested stack rest

theorem neutral_nil : Neutral [] := fun _ _ => rfl

theorem Neutral.append {tokens' : List Token} (h : Neutral tokens) (h' : Neutral tokens') :
    Neutral (tokens ++ tokens') := by
  intro stack rest
  rw [append_assoc, h, h']

theorem neutral_unit (u : CodeUnit) : Neutral [.unit u] := by
  intro stack rest
  cases stack <;> rfl

theorem neutral_entity (e : Entity) : Neutral [.entity e] := by
  intro stack rest
  cases stack <;> rfl

theorem neutral_of_forall (h : ∀ token ∈ tokens, Neutral [token]) : Neutral tokens := by
  induction tokens with
  | nil => exact neutral_nil
  | cons token tokens ih =>
    exact (h token mem_cons_self).append (ih fun token' hmem => h token' (.tail token hmem))

theorem Neutral.enclose (h : Neutral tokens) (tag : Tag) :
    Neutral (.opening tag :: tokens ++ [.closing tag]) := by
  intro stack rest
  rw [append_assoc, cons_append, nested, h]
  simp [nested]

theorem Neutral.encloseLink (h : Neutral tokens) (href : JsString) :
    Neutral (.link href :: tokens ++ [.closing .a]) := by
  intro stack rest
  rw [append_assoc, cons_append, nested, h]
  simp [nested]

end Html
end GajaeCode
