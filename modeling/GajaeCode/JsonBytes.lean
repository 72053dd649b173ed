import GajaeCode.JsonParse

/-! # JSON lines

What `JSON.stringify` writes, as bytes of a file of lines: the bytes of one text contain
no line feed, they are read back as the text was, and no proper front part of the bytes
of an object is JSON, wherever a character or a value is cut.
-/
namespace GajaeCode
open List Option
namespace JsString
variable {s : JsString}

/-- Well-formed UTF-16 without a line feed. -/
def OneLine (s : JsString) : Prop := WellFormed s ∧ LF ∉ s

theorem utf8_append {t : JsString} (hs : WellFormed s) (ht : WellFormed t) :
    utf8 (s ++ t) = utf8 s ++ utf8 t := by
  obtain ⟨cs, rfl⟩ := exists_ofChars hs
  obtain ⟨ds, rfl⟩ := exists_ofChars ht
  rw [← ofChars_append, utf8_ofChars, utf8_ofChars, utf8_ofChars, charBytes_append]

theorem OneLine.append {t : JsString} (hs : OneLine s) (ht : OneLine t) : OneLine (s ++ t) :=
  ⟨wellFormed_append hs.1 ht.1, by
    rw [mem_append, not_or]
    exact ⟨hs.2, ht.2⟩⟩

theorem oneLine_nil : OneLine [] := ⟨trivial, not_mem_nil⟩

theorem oneLine_of_forall (h : ∀ u ∈ s, u ≠ LF ∧ u.toNat < 0xd800) : OneLine s := by
  refine ⟨?_, fun hmem => (h LF hmem).1 rfl⟩
  induction s with
  | nil => trivial
  | cons u s ih =>
    obtain ⟨hu, hs⟩ := forall_mem_cons.mp h
    exact (wellFormed_cons ((isScalarUnit_iff u).mpr (.inl hu.2)) s).mpr (ih hs)

theorem hexDigit_small : ∀ d < 16, hexDigit d ≠ LF ∧ (hexDigit d).toNat < 0xd800 := by decide

theorem oneLine_of_all (h : (s.all fun u => u != LF && u.toNat < 0xd800) = true) : OneLine s :=
  oneLine_of_forall fun u hu => by simpa using all_eq_true.mp h u hu

theorem oneLine_unicodeEscape (u : CodeUnit) : OneLine (unicodeEscape u) := by
  have hlt : u.toNat < 65536 := u.toNat_lt
  refine (oneLine_of_all (by rfl)).append (oneLine_of_forall fun w hw => ?_)
  simp only [mem_cons, not_mem_nil, or_false] at hw
  rcases hw with rfl | rfl | rfl | rfl
  · exact hexDigit_small _ (by omega)
  · exact hexDigit_small _ (Nat.mod_lt _ (by decide))
  · exact hexDigit_small _ (Nat.mod_lt _ (by decide))
  · exact hexDigit_small _ (Nat.mod_lt _ (by decide))

theorem oneLine_quoteUnit (u : CodeUnit) : OneLine (quoteUnit u) := by
  obtain hshort | hunicode | ⟨hsame, hne, -, hhigh, hlow⟩ := quoteUnit_cases u
  · have hall : ∀ e ∈ shortEscapes, OneLine e.2 := by
      simp only [shortEscapes, forall_mem_cons, not_mem_nil, false_imp_iff, implies_true, and_true]
      exact ⟨oneLine_of_all rfl, oneLine_of_all rfl, oneLine_of_all rfl, oneLine_of_all rfl,
        oneLine_of_all rfl, oneLine_of_all rfl, oneLine_of_all rfl⟩
    exact hall _ hshort
  · exact hunicode ▸ oneLine_unicodeEscape u
  · rw [hsame]
    refine ⟨⟨hhigh, hlow⟩, ?_⟩
    rw [mem_singleton]
    exact Ne.symm (hne (LF, js "\\n") (by simp [shortEscapes]))

theorem oneLine_quoteUnits (s : JsString) : OneLine (quoteUnits s) := by
  induction s using quoteUnits.induct with
  | case1 => exact oneLine_nil
  | case2 u => exact oneLine_quoteUnit u
  | case3 u v s hpair ih =>
    rw [quoteUnits, if_pos hpair]
    obtain ⟨hu, hv⟩ := Bool.and_eq_true_iff.mp hpair
    refine ⟨.inl ⟨hu, hv, ih.1⟩, ?_⟩
    rw [mem_cons, mem_cons, not_or, not_or]
    refine ⟨?_, ?_, ih.2⟩
    · rintro rfl
      exact absurd hu (by decide)
    · rintro rfl
      exact absurd hv (by decide)
  | case4 u v s hpair ih =>
    rw [quoteUnits, if_neg hpair]
    exact (oneLine_quoteUnit u).append ih

theorem oneLine_jsonStringify (s : JsString) : OneLine (jsonStringify s) :=
  ((oneLine_of_all (by rfl)).append (oneLine_quoteUnits s)).append (oneLine_of_all (by rfl))

theorem eq_of_LF_mem_utf8EncodeChar {c : Char} (h : 0x0a ∈ String.utf8EncodeChar c) :
    c.toNat = 0x0a := by
  have hval : c.val.toNat = c.toNat := rfl
  have hne : ∀ n, 0x80 ≤ n → n < 0x100 → (0x0a : UInt8) ≠ UInt8.ofNat n := by
    intro n hn hlt heq
    have hnat := congrArg UInt8.toNat heq
    rw [UInt8.toNat_ofNat', Nat.mod_eq_of_lt hlt] at hnat
    have : (0x0a : UInt8).toNat = 10 := rfl
    omega
  rw [String.utf8EncodeChar] at h
  split_ifs at h with h₁ h₂ h₃
  · have hnat := congrArg UInt8.toNat (mem_singleton.mp h)
    rw [UInt8.toNat_ofNat', Nat.mod_eq_of_lt (by omega)] at hnat
    exact (hval ▸ hnat).symm
  · simp only [mem_cons, not_mem_nil, or_false] at h
    rcases h with h | h <;> exact absurd h (hne _ (by omega) (by omega))
  · simp only [mem_cons, not_mem_nil, or_false] at h
    rcases h with h | h | h <;> exact absurd h (hne _ (by omega) (by omega))
  · simp only [mem_cons, not_mem_nil, or_false] at h
    rcases h with h | h | h | h <;> exact absurd h (hne _ (by omega) (by omega))

theorem OneLine.not_mem_utf8 (h : OneLine s) : 0x0a ∉ utf8 s := by
  obtain ⟨cs, rfl⟩ := exists_ofChars h.1
  rw [utf8_ofChars]
  intro hmem
  obtain ⟨c, hc, hbyte⟩ := mem_flatMap.mp hmem
  have hnat := eq_of_LF_mem_utf8EncodeChar hbyte
  apply h.2
  apply mem_flatMap.mpr
  refine ⟨c, hc, ?_⟩
  rw [units, hnat]
  decide

end JsString

namespace JsonParse
open JsString JsValue
variable {N : Type} [JsNumber N]

theorem oneLine_numeral {s : JsString} (h : IsNumeral s) : OneLine s := by
  obtain ⟨q, hq, -⟩ := h
  apply oneLine_of_forall
  generalize NumeralState.start = q₀ at hq
  induction s generalizing q₀ with
  | nil => simp
  | cons u s ih =>
    rw [foldlM_cons] at hq
    obtain ⟨q₁, hq₁, hq⟩ := bind_eq_some_iff.mp hq
    refine forall_mem_cons.mpr ⟨?_, ih q₁ hq⟩
    have hok := NumeralState.unitOk_of_step hq₁
    simp only [NumeralState.unitOk, isDigit, Bool.or_eq_true, Bool.and_eq_true,
      decide_eq_true_eq, beq_iff_eq, UInt16.le_iff_toNat_le] at hok
    rcases hok with ((((⟨hlow, hhigh⟩ | rfl) | rfl) | rfl) | rfl) | rfl
    · constructor
      · rintro rfl
        exact absurd hlow (by decide)
      · exact Nat.lt_of_le_of_lt hhigh (by decide)
    all_goals decide

theorem oneLine_joinComma {parts : List JsString} (h : ∀ part ∈ parts, OneLine part) :
    OneLine (joinComma parts) := by
  induction parts with
  | nil => exact oneLine_nil
  | cons part parts ih =>
    obtain ⟨hpart, hparts⟩ := forall_mem_cons.mp h
    cases parts with
    | nil => rwa [joinComma_singleton]
    | cons part' parts =>
      rw [joinComma_cons_cons, append_cons]
      exact (hpart.append (oneLine_of_all (by rfl))).append (ih hparts)

/-- `JSON.stringify` writes one line of well-formed text. -/
theorem oneLine_jsonText (v : JsValue N) : OneLine (jsonText v) := by
  have hnull : OneLine (js "null") := oneLine_of_all (by rfl)
  induction v using deepInduction with
  | undefined | null => exact hnull
  | boolean b =>
    cases b with
    | true => exact oneLine_of_all (s := js "true") (by rfl)
    | false => exact oneLine_of_all (s := js "false") (by rfl)
  | number n =>
    rw [jsonText]
    split_ifs with hn
    · exact oneLine_numeral (JsNumber.isNumeral_text n hn)
    · exact hnull
  | string s => exact oneLine_jsonStringify s
  | array items ih =>
    rw [jsonText, itemTexts_eq]
    refine ((oneLine_of_all (by rfl)).append (oneLine_joinComma ?_)).append
      (oneLine_of_all (by rfl))
    exact forall_mem_map.mpr ih
  | object fields ih =>
    rw [jsonText, fieldTexts_eq]
    refine ((oneLine_of_all (by rfl)).append (oneLine_joinComma ?_)).append
      (oneLine_of_all (by rfl))
    refine forall_mem_map.mpr fun f hf => ?_
    exact ((oneLine_jsonStringify f.1).append (oneLine_of_all (by rfl))).append
      (ih f (mem_filter.mp hf).1)

/-- A byte order mark at the start is not part of the text. -/
def dropBom : List Char → List Char
  | [] => []
  | c :: cs => if c.toNat = 0xfeff then cs else c :: cs

/-- `new TextDecoder("utf-8", { fatal: true }).decode(bytes)`; `none` where it throws. -/
def decodeFatal (bytes : List UInt8) : Option JsString :=
  (decodeStrict bytes.length bytes).map fun cs => ofChars (dropBom cs)

/-- The bytes of `JSON.stringify(value)`. -/
def jsonBytes (v : JsValue N) : List UInt8 := utf8 (jsonText v)

theorem LF_not_mem_jsonBytes (v : JsValue N) : 0x0a ∉ jsonBytes v :=
  (oneLine_jsonText v).not_mem_utf8

/-- A text that starts like a value does not start with a byte order mark. -/
theorem dropBom_of_starts {cs : List Char} (h : Starts (ofChars cs)) : dropBom cs = cs := by
  cases cs with
  | nil => rfl
  | cons c cs =>
    rw [dropBom]
    split_ifs with hc
    · obtain ⟨u, rest, htext, -, -, hsmall⟩ := h
      rw [ofChars_cons, units, if_pos (by omega), singleton_append, List.cons.injEq] at htext
      rw [← htext.1, hc] at hsmall
      exact absurd hsmall (by decide)
    · rfl

theorem starts_front {cs ds : List Char} (h : Starts (ofChars (cs ++ ds))) (hne : cs ≠ []) :
    Starts (ofChars cs) := by
  obtain ⟨u, rest, htext, hu⟩ := h
  cases cs with
  | nil => exact absurd rfl hne
  | cons c cs =>
    have hunits : units c ≠ [] := by
      intro hnil
      have := length_units c
      rw [hnil] at this
      split_ifs at this
    obtain ⟨w, ws, hw⟩ := exists_cons_of_ne_nil hunits
    rw [cons_append, ofChars_cons, hw, cons_append, List.cons.injEq] at htext
    refine ⟨u, ws ++ ofChars cs, ?_, hu⟩
    rw [ofChars_cons, hw, cons_append, htext.1]

theorem decodeFatal_jsonBytes (v : JsValue N) : decodeFatal (jsonBytes v) = some (jsonText v) := by
  obtain ⟨cs, hcs⟩ := exists_ofChars (oneLine_jsonText v).1
  have hstarts : Starts (ofChars cs) := hcs ▸ starts_jsonText v
  rw [jsonBytes, hcs, utf8_ofChars, decodeFatal, decodeStrict_charBytes cs (by simp),
    map_some, dropBom_of_starts hstarts]

/-- **The bytes of a value are read back.** -/
theorem parse_jsonBytes {v : JsValue N} (h : WellKeyed v) :
    (decodeFatal (jsonBytes v)).bind parse = some (asJson v).orNull := by
  rw [decodeFatal_jsonBytes, bind_some, parse_jsonText h]

theorem parse_nil : (parse [] : Option (JsValue N)) = none := rfl

/-- **No proper front part of the bytes of an object is JSON.** -/
theorem parse_cut {fields : JsFields N} (h : WellKeyed (.object fields)) {front back : List UInt8}
    (hbytes : jsonBytes (.object fields) = front ++ back) (hback : back ≠ []) :
    (decodeFatal front).bind (parse (N := N)) = none := by
  obtain ⟨cs, hcs⟩ := exists_ofChars (oneLine_jsonText (.object fields)).1
  have hstarts : Starts (ofChars cs) := hcs ▸ starts_jsonText (.object fields)
  rw [jsonBytes, hcs, utf8_ofChars] at hbytes
  cases hdecode : decodeStrict front.length front with
  | none => rw [decodeFatal, hdecode, map_none, bind_none]
  | some ds =>
    rw [decodeFatal, hdecode, map_some, bind_some]
    have hfront := eq_charBytes_of_decodeStrict hdecode
    have hextends : charBytes ds <+: charBytes cs := ⟨back, by rw [hbytes, ← hfront]⟩
    obtain ⟨es, rfl⟩ := extends_of_charBytes hextends
    have hes : es ≠ [] := by
      rintro rfl
      rw [append_nil, hfront] at hbytes
      exact hback (self_eq_append_right.mp hbytes)
    by_cases hds : ds = []
    · subst hds
      exact parse_nil
    · rw [dropBom_of_starts (starts_front hstarts hds)]
      refine parse_eq_none_of_cut h (hcs.trans (ofChars_append ds es)) fun hnil => hes ?_
      exact ofChars_injective hnil

end JsonParse
end GajaeCode
