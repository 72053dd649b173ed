import GajaeCode.JsonValue
import GajaeCode.Utf8Window

/-! # Reading JSON

`JSON.parse` as a machine that takes one code unit after another.  A state is what the
machine is in the middle of, and the arrays and objects around it, innermost first.

* What `JSON.stringify` wrote is read back as `asJson` says (`parse_jsonText`).  The
  proof follows the value: a run over the text of a value, whatever surrounds it and
  whatever comes next, ends as if the value had just been completed (`run_jsonText`).
* No proper front part of the text of an object is JSON (`parse_eq_none_of_cut`): once
  a value is complete at the outermost level only white space may follow, and the text
  of an object ends with a brace.

Both are then stated for bytes, read by a strict UTF-8 decoder.
-/
namespace GajaeCode
open List Option
namespace JsonParse
open JsString JsValue

variable {N : Type}

/-- What the string that is being read will be. -/
inductive StringUse (N : Type) where
  | value
  | key (fields : JsFields N)

/-- What the machine is in the middle of. -/
inductive Mode (N : Type) where
  | value
  /-- after `[` -/
  | firstItem
  /-- after `{` -/
  | firstKey
  /-- after a comma in an object -/
  | nextKey (fields : JsFields N)
  | colon (fields : JsFields N) (key : JsString)
  /-- a value has just been completed -/
  | done (v : JsValue N)
  | inString (use : StringUse N) (acc : JsString)
  | escape (use : StringUse N) (acc : JsString)
  | hex (use : StringUse N) (acc : JsString) (count code : Nat)
  | word (rest : JsString) (v : JsValue N)
  | numeral (q : NumeralState) (acc : JsString)

/-- An array or an object whose next value is being read. -/
inductive Frame (N : Type) where
  | array (items : List (JsValue N))
  | object (fields : JsFields N) (key : JsString)

structure State (N : Type) where
  mode : Mode N
  stack : List (Frame N)

def isSpace (u : CodeUnit) : Bool := u == 0x0020 || u == 0x0009 || u == LF || u == CR

def hexValue (u : CodeUnit) : Option Nat :=
  if isDigit u then some (digitValue u)
  else if 0x0061 ≤ u ∧ u ≤ 0x0066 then some (u.toNat - 0x57)
  else if 0x0041 ≤ u ∧ u ≤ 0x0046 then some (u.toNat - 0x37)
  else none

/-- The unit a backslash and one letter stand for. -/
def unescape (u : CodeUnit) : Option CodeUnit :=
  if u = 0x0022 ∨ u = 0x005c ∨ u = 0x002f then some u
  else if u = 0x0062 then some 0x0008
  else if u = 0x0066 then some 0x000c
  else if u = 0x006e then some LF
  else if u = 0x0072 then some CR
  else if u = 0x0074 then some 0x0009
  else none

def StringUse.finish : StringUse N → JsString → Mode N
  | .value, s => .done (.string s)
  | .key fields, s => .colon fields s

def startValue (stack : List (Frame N)) (u : CodeUnit) : Option (State N) :=
  if u = 0x007b then some ⟨.firstKey, stack⟩
  else if u = 0x005b then some ⟨.firstItem, .array [] :: stack⟩
  else if u = 0x0022 then some ⟨.inString .value [], stack⟩
  else if u = 0x0074 then some ⟨.word (js "rue") (.boolean true), stack⟩
  else if u = 0x0066 then some ⟨.word (js "alse") (.boolean false), stack⟩
  else if u = 0x006e then some ⟨.word (js "ull") .null, stack⟩
  else (NumeralState.start.step u).map fun q => ⟨.numeral q [u], stack⟩

/-- The unit after a value: white space, a comma or the end of what the value is in. -/
def afterValue (v : JsValue N) (stack : List (Frame N)) (u : CodeUnit) : Option (State N) :=
  if isSpace u then some ⟨.done v, stack⟩
  else match stack with
  | [] => none
  | .array items :: stack =>
    if u = 0x002c then some ⟨.value, .array (items ++ [v]) :: stack⟩
    else if u = 0x005d then some ⟨.done (.array (items ++ [v])), stack⟩
    else none
  | .object fields key :: stack =>
    if u = 0x002c then some ⟨.nextKey (setField fields key v), stack⟩
    else if u = 0x007d then some ⟨.done (.object (setField fields key v)), stack⟩
    else none

variable [JsNumber N]

def step (s : State N) (u : CodeUnit) : Option (State N) :=
  match s.mode with
  | .value => if isSpace u then some s else startValue s.stack u
  | .firstItem =>
    if isSpace u then some s
    else if u = 0x005d then
      match s.stack with
      | .array items :: stack => some ⟨.done (.array items), stack⟩
      | _ => none
    else startValue s.stack u
  | .firstKey =>
    if isSpace u then some s
    else if u = 0x007d then some ⟨.done (.object []), s.stack⟩
    else if u = 0x0022 then some ⟨.inString (.key []) [], s.stack⟩
    else none
  | .nextKey fields =>
    if isSpace u then some s
    else if u = 0x0022 then some ⟨.inString (.key fields) [], s.stack⟩
    else none
  | .colon fields key =>
    if isSpace u then some s
    else if u = 0x003a then some ⟨.value, .object fields key :: s.stack⟩
    else none
  | .done v => afterValue v s.stack u
  | .inString use acc =>
    if u = 0x0022 then some ⟨use.finish acc, s.stack⟩
    else if u = 0x005c then some ⟨.escape use acc, s.stack⟩
    else if u < 0x0020 then none
    else some ⟨.inString use (acc ++ [u]), s.stack⟩
  | .escape use acc =>
    if u = 0x0075 then some ⟨.hex use acc 0 0, s.stack⟩
    else (unescape u).map fun w => ⟨.inString use (acc ++ [w]), s.stack⟩
  | .hex use acc count code =>
    (hexValue u).map fun d =>
      if count = 3 then ⟨.inString use (acc ++ [UInt16.ofNat (code * 16 + d)]), s.stack⟩
      else ⟨.hex use acc (count + 1) (code * 16 + d), s.stack⟩
  | .word rest v =>
    match rest with
    | [] => none
    | [w] => if u = w then some ⟨.done v, s.stack⟩ else none
    | w :: rest => if u = w then some ⟨.word rest v, s.stack⟩ else none
  | .numeral q acc =>
    match q.step u with
    | some q' => some ⟨.numeral q' (acc ++ [u]), s.stack⟩
    | none => if q.complete then afterValue (.number (JsNumber.read acc)) s.stack u else none

def run (s : State N) (text : JsString) : Option (State N) := text.foldlM step s

/-- The value, if the text may end here. -/
def State.result (s : State N) : Option (JsValue N) :=
  match s.mode, s.stack with
  | .done v, [] => some v
  | .numeral q acc, [] => if q.complete then some (.number (JsNumber.read acc)) else none
  | _, _ => none

/-- `JSON.parse(text)`; `none` where it throws. -/
def parse (text : JsString) : Option (JsValue N) := (run ⟨.value, []⟩ text).bind State.result

@[simp] theorem run_nil (s : State N) : run s [] = some s := rfl

@[simp] theorem run_cons (s : State N) (u : CodeUnit) (text : JsString) :
    run s (u :: text) = (step s u).bind (fun s' => run s' text) := rfl

theorem run_append (s : State N) (text text' : JsString) :
    run s (text ++ text') = (run s text).bind (fun s' => run s' text') := by
  rw [run, foldlM_append]
  rfl

/-! ## Reading what was written -/

section Strings
variable (use : StringUse N) (acc : JsString) (stack : List (Frame N)) (rest : JsString)

theorem hexValue_hexDigit : ∀ d < 16, hexValue (hexDigit d) = some d := by decide

theorem run_plain {u : CodeUnit} (hquote : u ≠ 0x0022) (hslash : u ≠ 0x005c)
    (hcontrol : ¬ u < 0x0020) : run (⟨.inString use acc, stack⟩ : State N) (u :: rest) =
      run ⟨.inString use (acc ++ [u]), stack⟩ rest := by
  rw [run_cons, step]
  simp only [if_neg hquote, if_neg hslash, if_neg hcontrol, bind_some]

theorem run_unescape {u w : CodeUnit} (h : unescape u = some w) :
    run (⟨.inString use acc, stack⟩ : State N) (0x005c :: u :: rest) =
      run ⟨.inString use (acc ++ [w]), stack⟩ rest := by
  have hu : u ≠ 0x0075 := by
    rintro rfl
    have hnone : unescape 0x0075 = none := by decide
    cases hnone.symm.trans h
  rw [run_cons, step]
  simp only [if_neg (show (0x005c : CodeUnit) ≠ 0x0022 by decide), if_true, bind_some]
  rw [run_cons, step]
  simp only [if_neg hu, h, map_some, bind_some]

theorem run_unicodeEscape (u : CodeUnit) :
    run (⟨.inString use acc, stack⟩ : State N) (unicodeEscape u ++ rest) =
      run ⟨.inString use (acc ++ [u]), stack⟩ rest := by
  have hlt : u.toNat < 65536 := u.toNat_lt
  have hdigit : ∀ n, hexValue (hexDigit (n % 16)) = some (n % 16) := fun n =>
    hexValue_hexDigit _ (Nat.mod_lt _ (by decide))
  have hfirst : hexValue (hexDigit (u.toNat / 4096)) = some (u.toNat / 4096) :=
    hexValue_hexDigit _ (by omega)
  have hcode : (((0 * 16 + u.toNat / 4096) * 16 + u.toNat / 256 % 16) * 16 +
      u.toNat / 16 % 16) * 16 + u.toNat % 16 = u.toNat := by omega
  have htext : unicodeEscape u ++ rest = 0x005c :: 0x0075 :: hexDigit (u.toNat / 4096) ::
      hexDigit (u.toNat / 256 % 16) :: hexDigit (u.toNat / 16 % 16) ::
      hexDigit (u.toNat % 16) :: rest := rfl
  rw [htext]
  simp only [run_cons, step, if_neg (show (0x005c : CodeUnit) ≠ 0x0022 by decide), if_true,
    bind_some, hfirst, hdigit, map_some, Nat.reduceAdd, Nat.reduceEqDiff,
    reduceIte, hcode, UInt16.ofNat_toNat]

/-- One unit of a string, in whatever way it was written. -/
theorem run_quoteUnit (u : CodeUnit) :
    run (⟨.inString use acc, stack⟩ : State N) (quoteUnit u ++ rest) =
      run ⟨.inString use (acc ++ [u]), stack⟩ rest := by
  obtain hshort | hunicode | ⟨hsame, hne, hlow, -⟩ := quoteUnit_cases u
  · have hall : ∀ e ∈ shortEscapes, run (⟨.inString use acc, stack⟩ : State N) (e.2 ++ rest) =
        run ⟨.inString use (acc ++ [e.1]), stack⟩ rest := by
      simp only [shortEscapes, forall_mem_cons, not_mem_nil, false_imp_iff, implies_true, and_true]
      exact ⟨run_unescape use acc stack rest (by decide),
        run_unescape use acc stack rest (by decide), run_unescape use acc stack rest (by decide),
        run_unescape use acc stack rest (by decide), run_unescape use acc stack rest (by decide),
        run_unescape use acc stack rest (by decide),
        run_unescape use acc stack rest (by decide)⟩
    exact hall _ hshort
  · exact hunicode ▸ run_unicodeEscape use acc stack rest u
  · rw [hsame]
    exact run_plain use acc stack rest (hne (0x0022, js "\\\"") (by simp [shortEscapes]))
      (hne (0x005c, js "\\\\") (by simp [shortEscapes])) hlow

theorem run_surrogate {u : CodeUnit} (h : 0xd800 ≤ u.toNat) :
    run (⟨.inString use acc, stack⟩ : State N) (u :: rest) =
      run ⟨.inString use (acc ++ [u]), stack⟩ rest := by
  apply run_plain
  · rintro rfl
    exact absurd h (by decide)
  · rintro rfl
    exact absurd h (by decide)
  · rw [UInt16.lt_iff_toNat_lt, not_lt]
    exact Nat.le_trans (by decide) h

theorem run_quoteUnits (s : JsString) :
    run (⟨.inString use acc, stack⟩ : State N) (quoteUnits s ++ 0x0022 :: rest) =
      run ⟨use.finish (acc ++ s), stack⟩ rest := by
  induction s using quoteUnits.induct generalizing acc with
  | case1 =>
    rw [quoteUnits, nil_append, append_nil, run_cons, step]
    simp only [if_true, bind_some]
  | case2 u =>
    rw [quoteUnits, run_quoteUnit, run_cons, step]
    simp only [if_true, bind_some]
  | case3 u v s hpair ih =>
    have hpair' := Bool.and_eq_true_iff.mp hpair
    have hu := ((isHighSurrogate_iff u).mp hpair'.1).1
    have hv := ((isLowSurrogate_iff v).mp hpair'.2).1
    rw [quoteUnits, if_pos hpair, cons_append, cons_append, run_surrogate _ _ _ _ hu,
      run_surrogate _ _ _ _ (Nat.le_trans (by decide) hv), ih]
    simp
  | case4 u v s hpair ih =>
    rw [quoteUnits, if_neg hpair, append_assoc, run_quoteUnit, ih]
    simp

end Strings

section Values
variable {v : JsValue N} {u : CodeUnit}

/-- The units that end a value. -/
def closes (u : CodeUnit) : Bool := u == 0x002c || u == 0x005d || u == 0x007d

theorem numeral_step_of_closes (h : closes u = true) (q : NumeralState) : q.step u = none := by
  simp only [closes, Bool.or_eq_true, beq_iff_eq] at h
  rcases h with (rfl | rfl) | rfl <;> cases q <;> decide

theorem run_numeral {s : JsString} {q q' : NumeralState} (acc : JsString)
    (stack : List (Frame N)) (rest : JsString) (h : s.foldlM NumeralState.step q = some q') :
    run (⟨.numeral q acc, stack⟩ : State N) (s ++ rest) =
      run ⟨.numeral q' (acc ++ s), stack⟩ rest := by
  induction s generalizing q acc with
  | nil =>
    obtain rfl : q = q' := by simpa using h
    rw [nil_append, append_nil]
  | cons u s ih =>
    rw [foldlM_cons] at h
    obtain ⟨q₁, hq₁, h⟩ := bind_eq_some_iff.mp h
    rw [cons_append, run_cons, step]
    simp only [hq₁, bind_some]
    rw [ih (acc ++ [u]) h, append_assoc]
    rfl

omit [JsNumber N] in
/-- A numeral goes to the branch of `startValue` for numerals. -/
theorem startValue_numeral {q : NumeralState} (h : NumeralState.start.step u = some q)
    (stack : List (Frame N)) :
    isSpace u = false ∧ startValue stack u = some ⟨.numeral q [u], stack⟩ := by
  have hok := NumeralState.unitOk_of_step h
  have hne : ∀ w : CodeUnit, NumeralState.unitOk w = false → u ≠ w := by
    rintro w hw rfl
    exact absurd hok (by simp [hw])
  constructor
  · unfold isSpace
    simp only [Bool.or_eq_false_iff, beq_eq_false_iff_ne]
    exact ⟨⟨⟨hne _ (by decide), hne _ (by decide)⟩, hne _ (by decide)⟩, hne _ (by decide)⟩
  · rw [startValue, if_neg (hne _ (by decide)), if_neg (hne _ (by decide)),
      if_neg (hne _ (by decide)), if_neg (hne _ (by decide)), if_neg (hne _ (by decide)),
      if_neg (hne _ (by decide)), h, map_some]

theorem run_value_of_startValue {stack : List (Frame N)} {s : State N} (hspace : isSpace u = false)
    (h : startValue stack u = some s) (rest : JsString) :
    run ⟨.value, stack⟩ (u :: rest) = run s rest := by
  rw [run_cons, step]
  simp only [hspace, Bool.false_eq_true, if_false, h, bind_some]

/-- The machine has read `v` inside `stack`.  A numeral is only known to be over when
another unit comes. -/
def State.Ends (s : State N) (v : JsValue N) (stack : List (Frame N)) : Prop :=
  s = ⟨.done v, stack⟩ ∨ ∃ q acc, s = ⟨.numeral q acc, stack⟩ ∧ q.complete = true ∧
    v = .number (JsNumber.read acc)

theorem State.Ends.step {s : State N} {v : JsValue N} {stack : List (Frame N)}
    (h : s.Ends v stack) {u : CodeUnit} (hu : closes u = true) :
    JsonParse.step s u = afterValue v stack u := by
  rcases h with rfl | ⟨q, acc, rfl, hq, rfl⟩
  · rfl
  · simp only [JsonParse.step, numeral_step_of_closes hu, hq, if_true]

theorem State.Ends.result {s : State N} (h : s.Ends v []) : s.result = some v := by
  rcases h with rfl | ⟨q, acc, rfl, hq, rfl⟩
  · rfl
  · exact if_pos hq

/-- A run over `text` reads `v`, whatever is around it. -/
def Completes (text : JsString) (v : JsValue N) : Prop :=
  ∀ stack : List (Frame N), ∃ s, run ⟨.value, stack⟩ text = some s ∧ s.Ends v stack

theorem completes_of_done {text : JsString}
    (h : ∀ stack : List (Frame N), run ⟨.value, stack⟩ text = some ⟨.done v, stack⟩) :
    Completes text v := fun stack => ⟨_, h stack, .inl rfl⟩

theorem Completes.run {text : JsString} (h : Completes text v) (stack : List (Frame N))
    (hu : closes u = true) (rest : JsString) : JsonParse.run ⟨.value, stack⟩ (text ++ u :: rest) =
      (afterValue v stack u).bind (fun s => JsonParse.run s rest) := by
  obtain ⟨s, hs, hends⟩ := h stack
  rw [run_append, hs, bind_some, run_cons, hends.step hu]

theorem completes_word {word : JsString} (hspace : isSpace u = false)
    (hstart : ∀ stack, startValue stack u = some (⟨.word word v, stack⟩ : State N))
    (hne : word ≠ []) : Completes (u :: word) v := by
  apply completes_of_done
  intro stack
  rw [run_value_of_startValue hspace (hstart stack)]
  clear hstart
  induction word with
  | nil => exact absurd rfl hne
  | cons x word ih =>
    rw [run_cons, step]
    cases word with
    | nil => simp
    | cons y word =>
      simp only [if_true, bind_some]
      exact ih (cons_ne_nil _ _)

theorem completes_null : Completes (js "null") (.null : JsValue N) :=
  completes_word (u := 0x006e) (by decide) (fun _ => rfl) (by decide)

theorem completes_boolean (b : Bool) :
    Completes (if b then js "true" else js "false") (.boolean b : JsValue N) := by
  cases b with
  | true => exact completes_word (u := 0x0074) (by decide) (fun _ => rfl) (by decide)
  | false => exact completes_word (u := 0x0066) (by decide) (fun _ => rfl) (by decide)

theorem completes_numeral {s : JsString} (h : IsNumeral s) :
    Completes s (.number (JsNumber.read s) : JsValue N) := by
  intro stack
  obtain ⟨q, hq, hcomplete⟩ := h
  cases s with
  | nil =>
    obtain rfl : NumeralState.start = q := by simpa using hq
    exact absurd hcomplete (by decide)
  | cons u s =>
    rw [foldlM_cons] at hq
    obtain ⟨q₁, hq₁, hq⟩ := bind_eq_some_iff.mp hq
    obtain ⟨hspace, hstart⟩ := startValue_numeral hq₁ stack
    have hrun := run_numeral (N := N) [u] stack [] hq
    rw [append_nil, run_nil] at hrun
    exact ⟨_, (run_value_of_startValue hspace hstart s).trans hrun,
      .inr ⟨q, _, rfl, hcomplete, rfl⟩⟩

theorem completes_string (s : JsString) : Completes (jsonStringify s) (.string s : JsValue N) := by
  apply completes_of_done
  intro stack
  have htext : jsonStringify s = 0x0022 :: (quoteUnits s ++ [0x0022]) := by
    simp [jsonStringify, js]
  rw [htext, run_value_of_startValue (by decide) rfl, run_quoteUnits]
  rfl

/-- A text of a value starts with a unit that is neither white space nor a bracket that
closes; all of them are ASCII. -/
def Starts (text : JsString) : Prop :=
  ∃ u rest, text = u :: rest ∧ isSpace u = false ∧ u ≠ 0x005d ∧ u.toNat < 0x80

theorem starts_jsonText (v : JsValue N) : Starts (jsonText v) := by
  have hnull : Starts (js "null") := ⟨0x006e, js "ull", rfl, by decide, by decide, by decide⟩
  cases v with
  | undefined | null => exact hnull
  | boolean b =>
    cases b with
    | true => exact ⟨0x0074, js "rue", rfl, by decide, by decide, by decide⟩
    | false => exact ⟨0x0066, js "alse", rfl, by decide, by decide, by decide⟩
  | number n =>
    rw [jsonText]
    split_ifs with hn
    · obtain ⟨q, hq, hcomplete⟩ := JsNumber.isNumeral_text n hn
      cases htext : JsNumber.text n with
      | nil =>
        rw [htext] at hq
        obtain rfl : NumeralState.start = q := by simpa using hq
        exact absurd hcomplete (by decide)
      | cons u s =>
        rw [htext, foldlM_cons] at hq
        obtain ⟨q₁, hq₁, -⟩ := bind_eq_some_iff.mp hq
        have hok := NumeralState.unitOk_of_step hq₁
        refine ⟨u, s, rfl, (startValue_numeral hq₁ ([] : List (Frame N))).1, ?_, ?_⟩
        · rintro rfl
          exact absurd hok (by decide)
        · simp only [NumeralState.unitOk, isDigit, Bool.or_eq_true, Bool.and_eq_true,
            decide_eq_true_eq, beq_iff_eq, UInt16.le_iff_toNat_le] at hok
          rcases hok with ((((⟨-, h⟩ | rfl) | rfl) | rfl) | rfl) | rfl
          · exact Nat.lt_of_le_of_lt h (by decide)
          all_goals decide
    · exact hnull
  | string s => exact ⟨0x0022, quoteUnits s ++ js "\"", rfl, by decide, by decide, by decide⟩
  | array items =>
    exact ⟨0x005b, joinComma (itemTexts items) ++ js "]", rfl, by decide, by decide, by decide⟩
  | object fields =>
    exact ⟨0x007b, joinComma (fieldTexts fields) ++ js "\x7d", rfl, by decide, by decide, by decide⟩

theorem run_firstItem {text : JsString} (h : Starts text) (stack : List (Frame N)) :
    run ⟨.firstItem, stack⟩ text = run ⟨.value, stack⟩ text := by
  obtain ⟨u, rest, rfl, hspace, hne, -⟩ := h
  rw [run_cons, run_cons, step, step]
  simp only [hspace, Bool.false_eq_true, if_false, if_neg hne]

theorem joinComma_cons_cons (part part' : JsString) (parts : List JsString) :
    joinComma (part :: part' :: parts) = part ++ 0x002c :: joinComma (part' :: parts) := by
  simp [joinComma, intercalate, js]

@[simp] theorem joinComma_nil : joinComma [] = [] := rfl

@[simp] theorem joinComma_singleton (part : JsString) : joinComma [part] = part := by
  simp [joinComma, intercalate]

section Parts
variable {α : Type} {items : List α} {key text : α → JsString} {value : α → JsValue N}

theorem run_items (hne : items ≠ []) (hitems : ∀ a ∈ items, Completes (text a) (value a))
    (before : List (JsValue N)) (stack : List (Frame N)) (rest : JsString) :
    run ⟨.value, .array before :: stack⟩ (joinComma (items.map text) ++ 0x005d :: rest) =
      run ⟨.done (.array (before ++ items.map value)), stack⟩ rest := by
  induction items generalizing before with
  | nil => exact absurd rfl hne
  | cons a as ih =>
    have ha := hitems a mem_cons_self
    cases as with
    | nil =>
      rw [map_singleton, joinComma_singleton, ha.run _ (by decide)]
      rfl
    | cons b as =>
      rw [map_cons, map_cons, joinComma_cons_cons, append_assoc,
        cons_append, ha.run _ (by decide), ← map_cons]
      change run ⟨.value, .array (before ++ [value a]) :: stack⟩ _ = _
      rw [ih (cons_ne_nil _ _) (fun x hx => hitems x (mem_cons_of_mem _ hx))]
      simp

theorem completes_array (hstarts : ∀ a ∈ items, Starts (text a))
    (hitems : ∀ a ∈ items, Completes (text a) (value a)) :
    Completes (js "[" ++ joinComma (items.map text) ++ js "]") (.array (items.map value)) := by
  apply completes_of_done
  intro stack
  have htext : js "[" ++ joinComma (items.map text) ++ js "]" =
      0x005b :: (joinComma (items.map text) ++ [0x005d]) := by
    simp [js]
  rw [htext, run_value_of_startValue (by decide) rfl]
  cases items with
  | nil => rfl
  | cons a as =>
    obtain ⟨w, front, ha, hw⟩ := hstarts a mem_cons_self
    have hfirst : Starts (joinComma ((a :: as).map text) ++ [0x005d]) := by
      cases as with
      | nil =>
        rw [map_singleton, joinComma_singleton, ha]
        exact ⟨w, _, rfl, hw⟩
      | cons b as =>
        rw [map_cons, map_cons, joinComma_cons_cons, ha]
        exact ⟨w, _, rfl, hw⟩
    rw [run_firstItem hfirst, run_items (cons_ne_nil a as) hitems]
    rfl

theorem run_field {k text : JsString} {v : JsValue N} (hv : Completes text v)
    (fields : JsFields N) (stack : List (Frame N)) {u : CodeUnit} (hu : closes u = true)
    (rest : JsString) :
    run ⟨.nextKey fields, stack⟩ (jsonStringify k ++ js ":" ++ text ++ u :: rest) =
      (afterValue v (.object fields k :: stack) u).bind (fun s => run s rest) := by
  have htext : jsonStringify k ++ js ":" ++ text ++ u :: rest =
      0x0022 :: (quoteUnits k ++ 0x0022 :: 0x003a :: (text ++ u :: rest)) := by
    simp [jsonStringify, js]
  rw [htext, run_cons, step]
  simp only [if_neg (show ¬ isSpace 0x0022 = true by decide), if_true, bind_some]
  rw [run_quoteUnits, nil_append, StringUse.finish, run_cons, step]
  simp only [if_neg (show ¬ isSpace 0x003a = true by decide), if_true, bind_some]
  exact hv.run _ hu rest

/-- The fields of an object, one after another, in whatever order they were written. -/
theorem run_fields (hne : items ≠ []) (hitems : ∀ a ∈ items, Completes (text a) (value a))
    (before : JsFields N) (stack : List (Frame N)) (rest : JsString) :
    run ⟨.nextKey before, stack⟩ (joinComma (items.map fun a =>
        jsonStringify (key a) ++ js ":" ++ text a) ++ 0x007d :: rest) =
      run ⟨.done (.object (spreadFields before (items.map fun a => (key a, value a)))), stack⟩
        rest := by
  induction items generalizing before with
  | nil => exact absurd rfl hne
  | cons a as ih =>
    have ha := hitems a mem_cons_self
    cases as with
    | nil =>
      rw [map_singleton, joinComma_singleton, run_field ha _ _ (by decide)]
      rfl
    | cons b as =>
      rw [map_cons, map_cons, joinComma_cons_cons, append_assoc,
        cons_append, run_field ha _ _ (by decide)]
      exact ih (cons_ne_nil _ _) (fun x hx => hitems x (mem_cons_of_mem _ hx))
        (setField before (key a) (value a))

theorem completes_object (hitems : ∀ a ∈ items, Completes (text a) (value a)) :
    Completes (js "\x7b" ++ joinComma (items.map fun a =>
        jsonStringify (key a) ++ js ":" ++ text a) ++ js "\x7d")
      (.object (spreadFields [] (items.map fun a => (key a, value a)))) := by
  apply completes_of_done
  intro stack
  have htext : ∀ fields : JsString, js "\x7b" ++ fields ++ js "\x7d" =
      0x007b :: (fields ++ [0x007d]) := fun fields => by simp [js]
  rw [htext, run_value_of_startValue (by decide) rfl]
  cases items with
  | nil => rfl
  | cons a as =>
    have hfirst : ∀ text, run (⟨.firstKey, stack⟩ : State N) (0x0022 :: text) =
        run ⟨.nextKey [], stack⟩ (0x0022 :: text) := fun _ => rfl
    obtain ⟨rest, hrest⟩ : ∃ rest, joinComma ((a :: as).map fun a =>
        jsonStringify (key a) ++ js ":" ++ text a) ++ [0x007d] = 0x0022 :: rest := by
      cases as with
      | nil => exact ⟨_, by rw [map_singleton, joinComma_singleton]; rfl⟩
      | cons b as => exact ⟨_, by rw [map_cons, map_cons, joinComma_cons_cons]; rfl⟩
    rw [hrest, hfirst, ← hrest, run_fields (cons_ne_nil a as) hitems []]
    rfl

end Parts

/-- **A run over the text of a value reads the value, whatever is around it.** -/
theorem run_jsonText (h : WellKeyed v) : Completes (jsonText v) (asJson v).orNull := by
  induction v using deepInduction with
  | undefined | null => exact completes_null
  | boolean b => exact completes_boolean b
  | number n =>
    rw [jsonText, asJson_number]
    split_ifs with hn
    · exact completes_numeral (JsNumber.isNumeral_text n hn)
    · exact completes_null
  | string s => exact completes_string s
  | array items ih =>
    rw [wellKeyed_array] at h
    rw [jsonText, itemTexts_eq, asJson_array, itemsAsJson_eq]
    exact completes_array (fun v _ => starts_jsonText v) fun v hv => ih v hv (h v hv)
  | object fields ih =>
    rw [wellKeyed_object] at h
    have hkept : ∀ f ∈ fields.filter (fun f => !f.2.isUndefined),
        Completes (jsonText f.2) (asJson f.2) := fun f hf => by
      obtain ⟨hmem, hdefined⟩ := mem_filter.mp hf
      have hne : f.2 ≠ .undefined := fun hundef => by simp [hundef, isUndefined] at hdefined
      have hcompletes := ih f hmem (h.2 f hmem)
      rwa [orNull_of_ne (by rwa [ne_eq, asJson_eq_undefined])] at hcompletes
    have hordered : KeysOrdered ((fields.filter (fun f => !f.2.isUndefined)).map
        (fun f => (f.1, asJson f.2))) :=
      pairwise_map.mpr (h.1.sublist filter_sublist)
    have hobject : Completes _ (.object (spreadFields [] ((fields.filter
        (fun f => !f.2.isUndefined)).map fun f => (f.1, asJson f.2)))) := completes_object hkept
    rw [spreadFields_of_ordered (by rwa [nil_append]), nil_append] at hobject
    rw [jsonText, fieldTexts_eq, asJson_object, fieldsAsJson_eq]
    exact hobject

/-- **What was written is read back.** -/
theorem parse_jsonText (h : WellKeyed v) : parse (jsonText v) = some (asJson v).orNull := by
  obtain ⟨s, hs, hends⟩ := run_jsonText h []
  rw [parse, hs]
  exact hends.result

end Values

/-- At the outermost level, a value is complete or could be. -/
def State.Closed (s : State N) : Prop :=
  s.stack = [] ∧ ((∃ v, s.mode = .done v) ∨ ∃ q acc, s.mode = .numeral q acc)

theorem State.closed_of_result {s : State N} {v : JsValue N} (h : s.result = some v) :
    s.Closed := by
  obtain ⟨mode, stack⟩ := s
  cases stack with
  | cons frame stack => cases mode <;> simp [State.result] at h
  | nil =>
    cases mode with
    | done w => exact ⟨rfl, .inl ⟨w, rfl⟩⟩
    | numeral q acc => exact ⟨rfl, .inr ⟨q, acc, rfl⟩⟩
    | _ => simp [State.result] at h

omit [JsNumber N] in
theorem closed_afterValue {v : JsValue N} {u : CodeUnit} {s : State N}
    (h : afterValue v [] u = some s) : s.Closed ∧ u ≠ 0x007d := by
  unfold afterValue at h
  split_ifs at h with hspace
  obtain rfl := some.inj h
  refine ⟨⟨rfl, .inl ⟨v, rfl⟩⟩, ?_⟩
  rintro rfl
  exact absurd hspace (by decide)

theorem State.Closed.step {s s' : State N} (h : s.Closed) {u : CodeUnit}
    (hstep : JsonParse.step s u = some s') : s'.Closed ∧ u ≠ 0x007d := by
  obtain ⟨mode, stack⟩ := s
  obtain ⟨rfl, ⟨v, rfl⟩ | ⟨q, acc, rfl⟩⟩ := h
  · exact closed_afterValue hstep
  · simp only [JsonParse.step] at hstep
    cases hq : q.step u with
    | some q' =>
      simp only [hq, some.injEq] at hstep
      have hok := NumeralState.unitOk_of_step hq
      refine ⟨hstep ▸ ⟨rfl, .inr ⟨_, _, rfl⟩⟩, ?_⟩
      rintro rfl
      exact absurd hok (by decide)
    | none =>
      simp only [hq] at hstep
      split_ifs at hstep
      exact closed_afterValue hstep

theorem State.Closed.run {s s' : State N} (h : s.Closed) {text : JsString}
    (hrun : JsonParse.run s text = some s') : 0x007d ∉ text := by
  induction text generalizing s with
  | nil => exact not_mem_nil
  | cons u text ih =>
    rw [run_cons] at hrun
    obtain ⟨s₁, hs₁, hrun⟩ := bind_eq_some_iff.mp hrun
    obtain ⟨hclosed, hu⟩ := h.step hs₁
    rw [mem_cons, not_or]
    exact ⟨Ne.symm hu, ih hclosed hrun⟩

/-- **No proper front part of the text of an object is JSON.** -/
theorem parse_eq_none_of_cut {fields : JsFields N} (h : WellKeyed (.object fields))
    {front back : JsString} (htext : jsonText (.object fields) = front ++ back)
    (hback : back ≠ []) : (parse front : Option (JsValue N)) = none := by
  cases hparse : (parse front : Option (JsValue N)) with
  | none => rfl
  | some v =>
    obtain ⟨s, hs, hresult⟩ := bind_eq_some_iff.mp hparse
    obtain ⟨s', hs', -⟩ := run_jsonText h []
    rw [htext, run_append, hs, bind_some] at hs'
    have hmem : (0x007d : CodeUnit) ∈ back := by
      have hlast : (jsonText (.object fields)).getLast? = some 0x007d := by
        rw [show jsonText (.object fields) =
          (js "\x7b" ++ joinComma (fieldTexts fields)) ++ [0x007d] from rfl, getLast?_concat]
      rw [htext, getLast?_append_of_ne_nil _ hback] at hlast
      exact mem_of_getLast? hlast
    exact absurd hmem ((State.closed_of_result hresult).run hs')

/-! ## What is read -/

/-- A property of values that putting values together keeps. -/
structure Built (V : JsValue N → Prop) : Prop where
  null : V .null
  boolean : ∀ b, V (.boolean b)
  number : ∀ n, V (.number n)
  string : ∀ s, V (.string s)
  noItems : V (.array [])
  item : ∀ items v, V (.array items) → V v → V (.array (items ++ [v]))
  noFields : V (.object [])
  field : ∀ fields k v, V (.object fields) → V v → V (.object (setField fields k v))

def StringUse.Holds (V : JsValue N → Prop) : StringUse N → Prop
  | .value => True
  | .key fields => V (.object fields)

def Mode.Holds (V : JsValue N → Prop) : Mode N → Prop
  | .nextKey fields | .colon fields _ => V (.object fields)
  | .done v | .word _ v => V v
  | .inString use _ | .escape use _ | .hex use _ _ _ => use.Holds V
  | _ => True

def Frame.Holds (V : JsValue N → Prop) : Frame N → Prop
  | .array items => V (.array items)
  | .object fields _ => V (.object fields)

/-- The property holds of every value the machine holds. -/
def State.Holds (V : JsValue N → Prop) (s : State N) : Prop :=
  s.mode.Holds V ∧ ∀ frame ∈ s.stack, frame.Holds V

section Holds
variable {V : JsValue N → Prop} (hV : Built V)

include hV

section
omit [JsNumber N]

theorem Built.finish {use : StringUse N} (h : use.Holds V) (s : JsString) :
    (use.finish s).Holds V := by
  cases use with
  | value => exact hV.string s
  | key fields => exact h

theorem Built.startValue {stack : List (Frame N)} (h : ∀ frame ∈ stack, frame.Holds V)
    {u : CodeUnit} {s : State N} (hs : JsonParse.startValue stack u = some s) : s.Holds V := by
  unfold JsonParse.startValue at hs
  split_ifs at hs
  · exact some.inj hs ▸ ⟨trivial, h⟩
  · have hframe : (Frame.array [] : Frame N).Holds V := hV.noItems
    exact some.inj hs ▸ ⟨trivial, forall_mem_cons.mpr ⟨hframe, h⟩⟩
  · exact some.inj hs ▸ ⟨trivial, h⟩
  · exact some.inj hs ▸ ⟨hV.boolean true, h⟩
  · exact some.inj hs ▸ ⟨hV.boolean false, h⟩
  · exact some.inj hs ▸ ⟨hV.null, h⟩
  · obtain ⟨q, -, rfl⟩ := map_eq_some_iff.mp hs
    exact ⟨trivial, h⟩

theorem Built.afterValue {v : JsValue N} (hv : V v) {stack : List (Frame N)}
    (h : ∀ frame ∈ stack, frame.Holds V) {u : CodeUnit} {s : State N}
    (hs : JsonParse.afterValue v stack u = some s) : s.Holds V := by
  unfold JsonParse.afterValue at hs
  match stack with
  | [] =>
    split_ifs at hs
    exact some.inj hs ▸ ⟨hv, h⟩
  | .array items :: stack =>
    obtain ⟨hframe, hstack⟩ := forall_mem_cons.mp h
    have hitems := hV.item items v hframe hv
    simp only at hs
    split_ifs at hs
    · exact some.inj hs ▸ ⟨hv, h⟩
    · exact some.inj hs ▸ ⟨trivial, forall_mem_cons.mpr ⟨hitems, hstack⟩⟩
    · exact some.inj hs ▸ ⟨hitems, hstack⟩
  | .object fields key :: stack =>
    obtain ⟨hframe, hstack⟩ := forall_mem_cons.mp h
    have hfields := hV.field fields key v hframe hv
    simp only at hs
    split_ifs at hs
    · exact some.inj hs ▸ ⟨hv, h⟩
    · exact some.inj hs ▸ ⟨hfields, hstack⟩
    · exact some.inj hs ▸ ⟨hfields, hstack⟩

end

theorem Built.step {s s' : State N} (h : s.Holds V) {u : CodeUnit}
    (hs : JsonParse.step s u = some s') : s'.Holds V := by
  obtain ⟨mode, stack⟩ := s
  obtain ⟨hmode, hstack⟩ := h
  cases mode <;> simp only [JsonParse.step] at hs
  case value =>
    split_ifs at hs
    · exact some.inj hs ▸ ⟨hmode, hstack⟩
    · exact hV.startValue hstack hs
  case firstItem =>
    split_ifs at hs
    · exact some.inj hs ▸ ⟨hmode, hstack⟩
    · match stack with
      | [] | .object fields key :: stack => cases hs
      | .array items :: stack =>
        obtain ⟨hframe, hstack⟩ := forall_mem_cons.mp hstack
        exact some.inj hs ▸ ⟨hframe, hstack⟩
    · exact hV.startValue hstack hs
  case firstKey =>
    split_ifs at hs
    · exact some.inj hs ▸ ⟨hmode, hstack⟩
    · exact some.inj hs ▸ ⟨hV.noFields, hstack⟩
    · exact some.inj hs ▸ ⟨hV.noFields, hstack⟩
  case nextKey fields =>
    split_ifs at hs
    · exact some.inj hs ▸ ⟨hmode, hstack⟩
    · exact some.inj hs ▸ ⟨hmode, hstack⟩
  case colon fields key =>
    split_ifs at hs
    · exact some.inj hs ▸ ⟨hmode, hstack⟩
    · exact some.inj hs ▸ ⟨trivial, forall_mem_cons.mpr ⟨hmode, hstack⟩⟩
  case done v => exact hV.afterValue hmode hstack hs
  case inString use acc =>
    split_ifs at hs
    · exact some.inj hs ▸ ⟨hV.finish hmode acc, hstack⟩
    · exact some.inj hs ▸ ⟨hmode, hstack⟩
    · exact some.inj hs ▸ ⟨hmode, hstack⟩
  case escape use acc =>
    split_ifs at hs
    · exact some.inj hs ▸ ⟨hmode, hstack⟩
    · obtain ⟨w, -, rfl⟩ := map_eq_some_iff.mp hs
      exact ⟨hmode, hstack⟩
  case hex use acc count code =>
    obtain ⟨d, -, rfl⟩ := map_eq_some_iff.mp hs
    split_ifs
    · exact ⟨hmode, hstack⟩
    · exact ⟨hmode, hstack⟩
  case word rest v =>
    match rest with
    | [] => cases hs
    | [w] =>
      simp only at hs
      split_ifs at hs
      exact some.inj hs ▸ ⟨hmode, hstack⟩
    | w :: w' :: rest =>
      simp only at hs
      split_ifs at hs
      exact some.inj hs ▸ ⟨hmode, hstack⟩
  case numeral q acc =>
    cases hq : q.step u with
    | some q' =>
      simp only [hq, some.injEq] at hs
      exact hs ▸ ⟨trivial, hstack⟩
    | none =>
      simp only [hq] at hs
      split_ifs at hs
      exact hV.afterValue (hV.number _) hstack hs

theorem Built.run {s s' : State N} (h : s.Holds V) {text : JsString}
    (hrun : JsonParse.run s text = some s') : s'.Holds V := by
  induction text generalizing s with
  | nil => exact some.inj hrun ▸ h
  | cons u text ih =>
    rw [run_cons] at hrun
    obtain ⟨s₁, hs₁, hrun⟩ := bind_eq_some_iff.mp hrun
    exact ih (hV.step h hs₁) hrun

/-- **What putting values together keeps, every value has that was read.** -/
theorem Built.parse {text : JsString} {v : JsValue N} (h : JsonParse.parse text = some v) :
    V v := by
  obtain ⟨⟨mode, stack⟩, hs, hresult⟩ := bind_eq_some_iff.mp h
  have hstart : (⟨.value, []⟩ : State N).Holds V := ⟨trivial, by simp⟩
  have hholds : (⟨mode, stack⟩ : State N).Holds V := hV.run hstart hs
  cases stack with
  | cons frame stack => cases mode <;> simp [State.result] at hresult
  | nil =>
    cases mode <;> simp only [State.result, reduceCtorEq] at hresult
    case done w => exact some.inj hresult ▸ hholds.1
    case numeral q acc =>
      split_ifs at hresult
      exact some.inj hresult ▸ hV.number _

end Holds

omit [JsNumber N] in
theorem built_wellKeyed : Built (JsValue.WellKeyed : JsValue N → Prop) where
  null := trivial
  boolean _ := trivial
  number _ := trivial
  string _ := trivial
  noItems := trivial
  item items v hitems hv := by
    rw [wellKeyed_array] at hitems ⊢
    exact forall_mem_append.mpr ⟨hitems, forall_mem_singleton.mpr hv⟩
  noFields := wellKeyed_object.mpr ⟨List.Pairwise.nil, by simp⟩
  field _ k _ hfields hv := wellKeyed_setField hfields k hv

/-- The objects of a value that was read list their keys in their order. -/
theorem wellKeyed_parse {text : JsString} {v : JsValue N} (h : parse text = some v) :
    JsValue.WellKeyed v := built_wellKeyed.parse h

end JsonParse
end GajaeCode
