import Mathlib.Data.List.DropRight
import Mathlib.Data.List.Infix
import Mathlib.Algebra.GroupWithZero.Nat

/-! # JavaScript strings

A JavaScript string is a finite sequence of UTF-16 code units, and nothing says
that surrogates come in pairs.  Rust code that receives one through N-API sees
the same units as a slice of `u16`.  This module fixes that type and the few
string operations of the language the development uses: splitting into lines
and joining them, trimming, decimal numerals, and the UTF-8 encoding a host
function applies when it asks for bytes.

Everything here is the language's documented behaviour; nothing depends on the
programs modelled on top of it.
-/
namespace GajaeCode
open List
export Option (some.inj)

abbrev CodeUnit := UInt16

/-- A JavaScript string: a list of UTF-16 code units. -/
abbrev JsString := List CodeUnit

instance : LawfulBEq JsString := List.instLawfulBEq

/-- A string literal whose characters all lie in the basic multilingual plane,
as every literal of the modelled sources does. -/
def js (s : String) : JsString := s.toList.map (fun c => c.val.toUInt16)

namespace JsString
variable {u : CodeUnit} {ls : List JsString}
variable {s : JsString} {n : Nat}

/-- Line feed, the separator of `split("\n")` and `join("\n")`. -/
def LF : CodeUnit := 0x000a

def CR : CodeUnit := 0x000d

/-! ## Lines -/

/-- `text.split("\n")`. -/
def lines (text : JsString) : List JsString := text.splitOn LF

/-- `lines.join("\n")`. -/
def unlines (ls : List JsString) : JsString := [LF].intercalate ls

theorem lines_ne_nil (text : JsString) : lines text ≠ [] := splitOn_ne_nil _ _

theorem unlines_lines (text : JsString) : unlines (lines text) = text :=
  intercalate_splitOn _

theorem lines_unlines (hne : ls ≠ []) (hls : ∀ l ∈ ls, LF ∉ l) : lines (unlines ls) = ls :=
  splitOn_intercalate _ hls hne

theorem lines_of_not_mem {l : JsString} (h : LF ∉ l) : lines l = [l] :=
  splitOn_eq_singleton h

theorem lines_append_LF (l rest : JsString) : lines (l ++ LF :: rest) = lines l ++ lines rest :=
  splitOn_append_cons_self l rest

theorem unlines_cons_cons (l l' : JsString) (ls : List JsString) :
    unlines (l :: l' :: ls) = l ++ LF :: unlines (l' :: ls) := by
  simp [unlines, intercalate]

theorem unlines_cons_of_ne_nil (l : JsString) (h : ls ≠ []) :
    unlines (l :: ls) = l ++ LF :: unlines ls := by
  obtain ⟨l', ls', rfl⟩ := exists_cons_of_ne_nil h
  exact unlines_cons_cons l l' ls'

@[simp] theorem unlines_nil : unlines [] = [] := rfl

@[simp] theorem unlines_singleton (l : JsString) : unlines [l] = l := by
  simp [unlines, intercalate]

theorem unlines_append {ls' : List JsString} (hne : ls ≠ []) (hne' : ls' ≠ []) :
    unlines (ls ++ ls') = unlines ls ++ LF :: unlines ls' := by
  induction ls with
  | nil => exact absurd rfl hne
  | cons line ls ih =>
    cases ls with
    | nil => rw [singleton_append, unlines_cons_of_ne_nil _ hne', unlines_singleton]
    | cons line' ls =>
      rw [cons_append, unlines_cons_of_ne_nil _ (by simp), ih (cons_ne_nil _ _),
        unlines_cons_of_ne_nil _ (cons_ne_nil _ _), append_assoc, cons_append]

theorem LF_not_mem_of_mem_lines {text l : JsString} (h : l ∈ lines text) : LF ∉ l := by
  induction text generalizing l with
  | nil =>
    obtain rfl : l = [] := by simpa [lines] using h
    exact not_mem_nil
  | cons u text ih =>
    rw [lines, splitOn_cons_eq_if_modifyHead] at h
    split at h
    · rcases mem_cons.mp h with rfl | h
      · exact not_mem_nil
      · exact ih h
    · rename_i hu
      obtain ⟨r, rs, hr⟩ := exists_cons_of_ne_nil (lines_ne_nil text)
      rw [show text.splitOn LF = r :: rs from hr, modifyHead_cons] at h
      rcases mem_cons.mp h with rfl | h
      · intro hmem
        rcases mem_cons.mp hmem with rfl | hmem
        · simp at hu
        · exact ih (hr ▸ mem_cons_self) hmem
      · exact ih (hr ▸ mem_cons_of_mem _ h)

theorem lines_unlines_flatMap (hne : ls ≠ []) : lines (unlines ls) = ls.flatMap lines := by
  induction ls with
  | nil => exact absurd rfl hne
  | cons l ls ih =>
    cases ls with
    | nil => simp
    | cons l' ls =>
      rw [unlines_cons_cons, lines_append_LF, ih (by simp)]
      rfl

/-- The code units `trim`, `trimEnd` and the regular expression class `\s` call
white space: the WhiteSpace and LineTerminator productions of the language. -/
def isWhitespace (u : CodeUnit) : Bool :=
  u == 0x0009 || u == 0x000a || u == 0x000b || u == 0x000c || u == 0x000d || u == 0x0020 ||
  u == 0x00a0 || u == 0x1680 || (0x2000 ≤ u && u ≤ 0x200a) || u == 0x2028 || u == 0x2029 ||
  u == 0x202f || u == 0x205f || u == 0x3000 || u == 0xfeff

/-- `s.trimEnd()`. -/
def trimEnd (s : JsString) : JsString := s.rdropWhile isWhitespace

/-- `s.trimStart()`. -/
def trimStart (s : JsString) : JsString := s.dropWhile isWhitespace

/-- `s.trim()`. -/
def trim (s : JsString) : JsString := trimEnd (trimStart s)

theorem not_isWhitespace_getLast?_trim (h : u ∈ (trim s).getLast?) : isWhitespace u = false := by
  have hne : trim s ≠ [] := by
    intro hnil
    simp [hnil] at h
  have := rdropWhile_last_not isWhitespace (trimStart s) hne
  rw [Option.mem_def, getLast?_eq_some_getLast hne, Option.some.injEq] at h
  rw [← h]
  exact Bool.not_eq_true _ ▸ this

theorem not_isWhitespace_head?_trim (h : u ∈ (trim s).head?) : isWhitespace u = false := by
  obtain ⟨rest, hrest⟩ := List.rdropWhile_prefix isWhitespace (trimStart s)
  have hstart : (trimStart s).head? = some u := by
    rw [← hrest, head?_append, show (trimStart s).rdropWhile isWhitespace = trim s from rfl, h]
    rfl
  have := head?_dropWhile_not isWhitespace s
  rw [show dropWhile isWhitespace s = trimStart s from rfl, hstart] at this
  simpa using this

theorem trim_trim (s : JsString) : trim (trim s) = trim s := by
  have hstart : trimStart (trim s) = trim s := by
    rw [trimStart, dropWhile_eq_self_iff]
    intro hne
    have := not_isWhitespace_head?_trim (head?_eq_some_head (ne_nil_of_length_pos hne))
    rw [head_eq_getElem] at this
    simp [this]
  rw [trim, hstart, trim]
  exact rdropWhile_idempotent _ _

def digitUnit (d : Nat) : CodeUnit := 0x0030 + UInt16.ofNat d

/-- The decimal numeral of `n`, most significant digit first.  `fuel` bounds the
number of digits. -/
def numeral : Nat → Nat → JsString
  | 0, _ => []
  | fuel + 1, n => if n < 10 then [digitUnit n] else numeral fuel (n / 10) ++ [digitUnit (n % 10)]

/-- What a template literal or `String(n)` writes for a natural number. -/
def ofNat (n : Nat) : JsString := numeral (n + 1) n

/-- Whether a code unit is an ASCII digit (`\d`). -/
def isDigit (u : CodeUnit) : Bool := 0x0030 ≤ u && u ≤ 0x0039

def digitValue (u : CodeUnit) : Nat := u.toNat - 0x30

/-- `Number.parseInt(s, 10)` for a string that starts with a digit: the value of
its longest prefix of digits. -/
def parseNat (s : JsString) : Nat :=
  (s.takeWhile isDigit).foldl (fun acc u => acc * 10 + digitValue u) 0

theorem isDigit_digitUnit : ∀ d < 10, isDigit (digitUnit d) = true := by decide

theorem digitValue_digitUnit : ∀ d < 10, digitValue (digitUnit d) = d := by decide

/-- The fuel does not matter once it exceeds the number. -/
theorem numeral_eq_ofNat {fuel : Nat} (h : n < fuel) : numeral fuel n = ofNat n := by
  suffices key : ∀ f f' n, n < f → n < f' → numeral f n = numeral f' n from
    key fuel (n + 1) n h (Nat.lt_succ_self n)
  intro f
  induction f with
  | zero => intro f' n hf; omega
  | succ f ih =>
    intro f' n hf hf'
    obtain ⟨f', rfl⟩ : ∃ k, f' = k + 1 := ⟨f' - 1, by omega⟩
    by_cases hn : n < 10
    · simp [numeral, hn]
    · simp only [numeral, hn, if_false]
      rw [ih f' (n / 10) (by omega) (by omega)]

theorem ofNat_of_lt (h : n < 10) : ofNat n = [digitUnit n] := by
  simp [ofNat, numeral, h]

theorem ofNat_of_ge (h : ¬ n < 10) : ofNat n = ofNat (n / 10) ++ [digitUnit (n % 10)] := by
  rw [ofNat, numeral, if_neg h, numeral_eq_ofNat (by omega)]

theorem isDigit_of_mem_ofNat (n : Nat) : ∀ u ∈ ofNat n, isDigit u = true := by
  induction n using Nat.strongRecOn with
  | ind n ih =>
    intro u hu
    by_cases h : n < 10
    · rw [ofNat_of_lt h, mem_singleton] at hu
      subst hu
      exact isDigit_digitUnit n h
    · rw [ofNat_of_ge h, mem_append, mem_singleton] at hu
      rcases hu with hu | rfl
      · exact ih (n / 10) (by omega) u hu
      · exact isDigit_digitUnit _ (Nat.mod_lt _ (by omega))

theorem foldl_digits_ofNat (n : Nat) :
    (ofNat n).foldl (fun acc u => acc * 10 + digitValue u) 0 = n := by
  induction n using Nat.strongRecOn with
  | ind n ih =>
    by_cases h : n < 10
    · rw [ofNat_of_lt h]
      simpa using digitValue_digitUnit n h
    · rw [ofNat_of_ge h, foldl_append, ih (n / 10) (by omega)]
      simp only [foldl_cons, foldl_nil]
      rw [digitValue_digitUnit _ (Nat.mod_lt _ (by omega))]
      omega

/-- Reading a numeral back gives the number, whatever follows it. -/
theorem parseNat_ofNat_append (n : Nat) {rest : JsString}
    (h : ∀ u, rest.head? = some u → isDigit u = false) : parseNat (ofNat n ++ rest) = n := by
  have htake : (ofNat n ++ rest).takeWhile isDigit = ofNat n := by
    rw [takeWhile_append_of_pos (isDigit_of_mem_ofNat n)]
    cases rest with
    | nil => simp
    | cons u rest => simp [h u rfl]
  rw [parseNat, htake, foldl_digits_ofNat]

/-! ## Code points and UTF-8 -/

/-- The first half of a surrogate pair. -/
def isHighSurrogate (u : CodeUnit) : Bool := 0xd800 ≤ u && u ≤ 0xdbff

/-- The second half of a surrogate pair. -/
def isLowSurrogate (u : CodeUnit) : Bool := 0xdc00 ≤ u && u ≤ 0xdfff

/-- The character of a unit that is not half of a pair; a lone surrogate has
none and becomes U+FFFD. -/
def unitChar (u : CodeUnit) : Char :=
  if isHighSurrogate u || isLowSurrogate u then Char.ofNat 0xfffd else Char.ofNat u.toNat

def pairChar (high low : CodeUnit) : Char :=
  Char.ofNat (0x10000 + (high.toNat - 0xd800) * 0x400 + (low.toNat - 0xdc00))

/-- The characters of a string, lone surrogates replaced by U+FFFD. -/
def codePoints : JsString → List Char
  | [] => []
  | [u] => [unitChar u]
  | u :: v :: rest =>
      if isHighSurrogate u && isLowSurrogate v then pairChar u v :: codePoints rest
      else unitChar u :: codePoints (v :: rest)

/-- The UTF-8 encoding of a string, as a host function that takes bytes sees it. -/
def utf8 (s : JsString) : List UInt8 := (codePoints s).flatMap String.utf8EncodeChar

/-- **Well-formed UTF-16**: every surrogate belongs to a pair. -/
def WellFormed : JsString → Prop
  | [] => True
  | [u] => isHighSurrogate u = false ∧ isLowSurrogate u = false
  | u :: v :: rest =>
      (isHighSurrogate u = true ∧ isLowSurrogate v = true ∧ WellFormed rest) ∨
      (isHighSurrogate u = false ∧ isLowSurrogate u = false ∧ WellFormed (v :: rest))

abbrev IsScalarUnit (u : CodeUnit) : Prop :=
  isHighSurrogate u = false ∧ isLowSurrogate u = false

theorem wellFormed_cons (hu : IsScalarUnit u) (rest : JsString) :
    WellFormed (u :: rest) ↔ WellFormed rest := by
  cases rest with
  | nil => exact ⟨fun _ => trivial, fun _ => hu⟩
  | cons v rest => simp [WellFormed, hu.1, hu.2]

/-- A string splits at a unit that is no surrogate without breaking a pair. -/
theorem wellFormed_append_cons {x : CodeUnit} (hx : IsScalarUnit x) (l rest : JsString) :
    WellFormed (l ++ x :: rest) ↔ WellFormed l ∧ WellFormed rest := by
  induction l using WellFormed.induct with
  | case1 => simp [WellFormed, wellFormed_cons hx]
  | case2 u => simp [WellFormed, hx.2, wellFormed_cons hx, and_assoc]
  | case3 u v l ih ih' =>
    rw [cons_append] at ih'
    rw [cons_append, cons_append, WellFormed, WellFormed, ih, ih']
    simp only [or_and_right, and_assoc]

theorem codePoints_cons (hu : isHighSurrogate u = false) (rest : JsString) :
    codePoints (u :: rest) = unitChar u :: codePoints rest := by
  cases rest with
  | nil => rfl
  | cons v rest => simp [codePoints, hu]

theorem isScalarUnit_LF : IsScalarUnit LF := by decide

theorem isScalarUnit_CR : IsScalarUnit CR := by decide

theorem isScalarUnit_of_isWhitespace (h : isWhitespace u = true) : IsScalarUnit u := by
  simp only [isWhitespace, Bool.or_eq_true, Bool.and_eq_true, beq_iff_eq, decide_eq_true_eq,
    ← UInt16.toNat_inj, UInt16.le_iff_toNat_le, UInt16.reduceToNat] at h
  simp only [IsScalarUnit, isHighSurrogate, isLowSurrogate, Bool.and_eq_false_iff,
    decide_eq_false_iff_not, UInt16.le_iff_toNat_le, UInt16.reduceToNat]
  omega

theorem wellFormed_of_mem_lines {text l : JsString} (h : WellFormed text)
    (hl : l ∈ lines text) : WellFormed l := by
  induction hn : text.length using Nat.strongRecOn generalizing text with
  | ind n ih =>
    by_cases hLF : LF ∈ text
    · obtain ⟨a, b, rfl⟩ := append_of_mem hLF
      obtain ⟨ha, hb⟩ := (wellFormed_append_cons isScalarUnit_LF a b).mp h
      simp only [length_append, length_cons] at hn
      rw [lines_append_LF, mem_append] at hl
      rcases hl with hl | hl
      · exact ih a.length (by omega) ha hl rfl
      · exact ih b.length (by omega) hb hl rfl
    · rw [lines_of_not_mem hLF, mem_singleton] at hl
      exact hl ▸ h

theorem trimEnd_concat_of_pos (hu : isWhitespace u = true) (s : JsString) :
    trimEnd (s ++ [u]) = trimEnd s :=
  rdropWhile_concat_pos _ _ _ hu

theorem trimEnd_concat_of_neg (hu : ¬ isWhitespace u = true) (s : JsString) :
    trimEnd (s ++ [u]) = s ++ [u] :=
  rdropWhile_concat_neg _ _ _ hu

/-- Trimming the end of a well-formed string breaks no pair. -/
theorem wellFormed_trimEnd (h : WellFormed s) : WellFormed (trimEnd s) := by
  induction s using reverseRecOn with
  | nil => simpa [trimEnd] using h
  | append_singleton s u ih =>
    by_cases hu : isWhitespace u = true
    · rw [trimEnd_concat_of_pos hu]
      exact ih ((wellFormed_append_cons (isScalarUnit_of_isWhitespace hu) s []).mp h).1
    · rwa [trimEnd_concat_of_neg hu]

/-- Units that count as white space can be dropped before or after trimming. -/
theorem trimEnd_filter {keep : CodeUnit → Bool}
    (hkeep : ∀ u, keep u = false → isWhitespace u = true) (s : JsString) :
    trimEnd (s.filter keep) = (trimEnd s).filter keep := by
  induction s using reverseRecOn with
  | nil => rfl
  | append_singleton s u ih =>
    by_cases hu : isWhitespace u = true
    · rw [trimEnd_concat_of_pos hu, ← ih]
      cases hk : keep u with
      | false => simp [filter_append, hk]
      | true => simp [filter_append, hk, trimEnd_concat_of_pos hu]
    · have hk : keep u = true := by
        by_contra hk
        exact hu (hkeep u (by simpa using hk))
      simp [filter_append, hk, trimEnd_concat_of_neg hu]

/-- A hexadecimal digit in lower case. -/
def hexDigit (d : Nat) : CodeUnit :=
  if d < 10 then digitUnit d else 0x0061 + UInt16.ofNat (d - 10)

/-- `\uXXXX`. -/
def unicodeEscape (u : CodeUnit) : JsString :=
  js "\\u" ++ [hexDigit (u.toNat / 4096), hexDigit (u.toNat / 256 % 16),
    hexDigit (u.toNat / 16 % 16), hexDigit (u.toNat % 16)]

/-- What `JSON.stringify` writes for a unit that is not part of a pair. -/
def quoteUnit (u : CodeUnit) : JsString :=
  if u = 0x0022 then js "\\\""
  else if u = 0x005c then js "\\\\"
  else if u = 0x0008 then js "\\b"
  else if u = 0x0009 then js "\\t"
  else if u = LF then js "\\n"
  else if u = 0x000c then js "\\f"
  else if u = CR then js "\\r"
  else if u < 0x0020 || isHighSurrogate u || isLowSurrogate u then unicodeEscape u
  else [u]

/-- The units with an escape of their own, with it. -/
def shortEscapes : List (CodeUnit × JsString) :=
  [(0x0022, js "\\\""), (0x005c, js "\\\\"), (0x0008, js "\\b"), (0x0009, js "\\t"), (LF, js "\\n"),
    (0x000c, js "\\f"), (CR, js "\\r")]

/-- A unit is written with an escape of its own, with its number, or as it is. -/
theorem quoteUnit_cases (u : CodeUnit) :
    (u, quoteUnit u) ∈ shortEscapes ∨ quoteUnit u = unicodeEscape u ∨
      (quoteUnit u = [u] ∧ (∀ e ∈ shortEscapes, u ≠ e.1) ∧ ¬ u < 0x0020 ∧
        isHighSurrogate u = false ∧ isLowSurrogate u = false) := by
  unfold quoteUnit
  by_cases hquote : u = 0x0022
  · exact .inl (by rw [if_pos hquote, hquote]; simp [shortEscapes])
  by_cases hslash : u = 0x005c
  · exact .inl (by rw [if_neg hquote, if_pos hslash, hslash]; simp [shortEscapes])
  by_cases hb : u = 0x0008
  · exact .inl (by rw [if_neg hquote, if_neg hslash, if_pos hb, hb]; simp [shortEscapes])
  rw [if_neg hquote, if_neg hslash, if_neg hb]
  by_cases ht : u = 0x0009
  · exact .inl (by rw [if_pos ht, ht]; simp [shortEscapes])
  by_cases hn : u = LF
  · exact .inl (by rw [if_neg ht, if_pos hn, hn]; simp [shortEscapes])
  by_cases hf : u = 0x000c
  · exact .inl (by rw [if_neg ht, if_neg hn, if_pos hf, hf]; simp [shortEscapes])
  rw [if_neg ht, if_neg hn, if_neg hf]
  by_cases hr : u = CR
  · exact .inl (by rw [if_pos hr, hr]; simp [shortEscapes])
  rw [if_neg hr]
  by_cases hother : (u < 0x0020 || isHighSurrogate u || isLowSurrogate u) = true
  · exact .inr (.inl (if_pos hother))
  · simp only [Bool.or_eq_true, decide_eq_true_eq, not_or, Bool.not_eq_true] at hother
    refine .inr (.inr ⟨if_neg (by simp [hother]), ?_, hother.1.1, hother.1.2, hother.2⟩)
    simp [shortEscapes, hquote, hslash, hb, ht, hn, hf, hr]

/-- The text between the quotes of `JSON.stringify(s)`. -/
def quoteUnits : JsString → JsString
  | [] => []
  | [u] => quoteUnit u
  | u :: v :: rest =>
      if isHighSurrogate u && isLowSurrogate v then u :: v :: quoteUnits rest
      else quoteUnit u ++ quoteUnits (v :: rest)

/-- `JSON.stringify(s)` for a string. -/
def jsonStringify (s : JsString) : JsString := js "\"" ++ quoteUnits s ++ js "\""

end JsString
end GajaeCode
