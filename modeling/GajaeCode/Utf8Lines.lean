import GajaeCode.JsonBytes

/-! # Lines of bytes

`buffer.toString("utf8")` decodes the bytes between two line feeds by themselves, whatever
they are: the byte of a line feed is no part of another character.  So the lines of the
text are the texts of the lines.
-/
namespace GajaeCode
open List

namespace JsString
variable {bytes : List UInt8} {c : Char}

/-- The character at the start of some bytes is the one whose bytes they start with. -/
theorem utf8DecodeChar_eq_some_iff :
    ByteArray.utf8DecodeChar? bytes.toByteArray 0 = some c ↔ String.utf8EncodeChar c <+: bytes := by
  constructor
  · intro h
    obtain ⟨rest, hrest⟩ := ByteArray.exists_of_utf8DecodeChar?_eq_some h
    have hdata := congrArg (fun bytes => bytes.data.toList) hrest
    rw [ByteArray.data_append, data_toByteArray, data_toByteArray, Array.toList_append] at hdata
    exact ⟨rest.data.toList, hdata.symm⟩
  · rintro ⟨rest, rfl⟩
    rw [toByteArray_append]
    exact ByteArray.utf8DecodeChar?_utf8EncodeChar_append

/-- No character has the byte of a line feed behind another byte. -/
theorem utf8EncodeChar_prefix_append_LF {b : UInt8} {bs rest : List UInt8} :
    String.utf8EncodeChar c <+: (b :: bs) ++ 0x0a :: rest ↔
      String.utf8EncodeChar c <+: b :: bs := by
  refine ⟨fun h => ?_, fun h => h.trans (prefix_append _ _)⟩
  by_contra hshort
  have hlong : (b :: bs).length < (String.utf8EncodeChar c).length := by
    by_contra hle
    exact hshort (prefix_of_prefix_length_le h (prefix_append _ _) (not_lt.mp hle))
  have hfront : (b :: bs) ++ [0x0a] <+: String.utf8EncodeChar c := by
    refine prefix_of_prefix_length_le ?_ h (by rw [length_append]; exact hlong)
    rw [append_cons _ _ rest]
    exact prefix_append _ _
  obtain ⟨lead, tail, henc, -, htail⟩ := utf8EncodeChar_eq_cons c
  rw [henc, cons_append, cons_prefix_cons] at hfront
  have hmem : (0x0a : UInt8) ∈ tail := hfront.2.subset (by simp)
  exact absurd (htail _ hmem) (by decide)

theorem decodeChars_of_le {fuel : Nat} (h : bytes.length ≤ fuel) :
    decodeChars fuel bytes = decodeChars bytes.length bytes := by
  induction fuel using Nat.strongRecOn generalizing bytes with
  | ind fuel ih =>
    cases bytes with
    | nil => cases fuel <;> rfl
    | cons b bs =>
      obtain ⟨fuel, rfl⟩ : ∃ f, fuel = f + 1 := ⟨fuel - 1, by simp at h; omega⟩
      rw [length_cons] at h ⊢
      rw [decodeChars, decodeChars]
      cases ByteArray.utf8DecodeChar? (b :: bs).toByteArray 0 with
      | none => simp only [ih fuel (by omega) (show bs.length ≤ fuel by omega)]
      | some c =>
        have hpos := c.utf8Size_pos
        have hdrop : ((b :: bs).drop c.utf8Size).length ≤ bs.length := by
          rw [length_drop, length_cons]
          omega
        have hfuel := ih fuel (by omega) (hdrop.trans (by omega))
        have hlength := ih bs.length (by omega) hdrop
        simp only [hfuel, hlength]

/-- The characters of `buffer.toString("utf8")`. -/
def charsOf (bytes : List UInt8) : List Char := decodeChars bytes.length bytes

theorem charsOf_cons (b : UInt8) (bs : List UInt8) : charsOf (b :: bs) =
    match ByteArray.utf8DecodeChar? (b :: bs).toByteArray 0 with
    | some c => c :: charsOf ((b :: bs).drop c.utf8Size)
    | none => Char.ofNat 0xfffd :: charsOf bs := by
  rw [charsOf, length_cons, decodeChars]
  cases ByteArray.utf8DecodeChar? (b :: bs).toByteArray 0 with
  | none => rfl
  | some c =>
    have hpos := c.utf8Size_pos
    have hdrop : ((b :: bs).drop c.utf8Size).length ≤ bs.length := by
      rw [length_drop, length_cons]
      omega
    simp only [decodeChars_of_le hdrop]
    rfl

theorem charsOf_append_LF (bytes rest : List UInt8) :
    charsOf (bytes ++ 0x0a :: rest) = charsOf bytes ++ Char.ofNat 0x0a :: charsOf rest := by
  induction hlength : bytes.length using Nat.strongRecOn generalizing bytes with
  | ind n ih =>
    cases bytes with
    | nil =>
      have hfeed : ByteArray.utf8DecodeChar? (0x0a :: rest).toByteArray 0 =
          some (Char.ofNat 0x0a) := utf8DecodeChar_eq_some_iff.mpr ⟨rest, rfl⟩
      rw [nil_append, charsOf_cons, hfeed]
      rfl
    | cons b bs =>
      rw [length_cons] at hlength
      rw [cons_append, charsOf_cons, charsOf_cons]
      cases hdecode : ByteArray.utf8DecodeChar? (b :: bs).toByteArray 0 with
      | some c =>
        have henc := utf8DecodeChar_eq_some_iff.mp hdecode
        have hdecode' : ByteArray.utf8DecodeChar? (b :: (bs ++ 0x0a :: rest)).toByteArray 0 =
            some c := utf8DecodeChar_eq_some_iff.mpr (utf8EncodeChar_prefix_append_LF.mpr henc)
        have hsize : c.utf8Size ≤ (b :: bs).length := by
          rw [← String.length_utf8EncodeChar]
          exact henc.length_le
        have hpos := c.utf8Size_pos
        have hdrop : ((b :: bs).drop c.utf8Size).length < n := by
          rw [length_drop, length_cons]
          omega
        rw [hdecode']
        simp only
        rw [← cons_append, drop_append_of_le_length hsize, ih _ hdrop _ rfl]
        rfl
      | none =>
        have hdecode' : ByteArray.utf8DecodeChar? (b :: (bs ++ 0x0a :: rest)).toByteArray 0 =
            none := by
          cases hsome : ByteArray.utf8DecodeChar? (b :: (bs ++ 0x0a :: rest)).toByteArray 0 with
          | none => rfl
          | some c =>
            have henc := utf8DecodeChar_eq_some_iff.mp hsome
            rw [utf8DecodeChar_eq_some_iff.mpr (utf8EncodeChar_prefix_append_LF.mp henc)] at hdecode
            cases hdecode
        rw [hdecode']
        simp only
        rw [ih bs.length (by omega) bs rfl]
        rfl

theorem ofBytes_append_LF (bytes rest : List UInt8) :
    ofBytes (bytes ++ 0x0a :: rest) = ofBytes bytes ++ LF :: ofBytes rest := by
  change ofChars (charsOf _) = ofChars (charsOf _) ++ LF :: ofChars (charsOf _)
  rw [charsOf_append_LF, ofChars_append, ofChars_cons]
  rfl

theorem mem_charsOf (h : c ∈ charsOf bytes) :
    c = Char.ofNat 0xfffd ∨ String.utf8EncodeChar c ⊆ bytes := by
  induction hlength : bytes.length using Nat.strongRecOn generalizing bytes with
  | ind n ih =>
    cases bytes with
    | nil => exact absurd h not_mem_nil
    | cons b bs =>
      rw [length_cons] at hlength
      rw [charsOf_cons] at h
      cases hdecode : ByteArray.utf8DecodeChar? (b :: bs).toByteArray 0 with
      | some d =>
        rw [hdecode] at h
        rcases mem_cons.mp h with rfl | h
        · exact .inr (utf8DecodeChar_eq_some_iff.mp hdecode).subset
        · have hpos := d.utf8Size_pos
          have hdrop : ((b :: bs).drop d.utf8Size).length < n := by
            rw [length_drop, length_cons]
            omega
          exact (ih _ hdrop h rfl).imp_right fun hsub =>
            List.Subset.trans hsub (drop_subset _ _)
      | none =>
        rw [hdecode] at h
        rcases mem_cons.mp h with rfl | h
        · exact .inl rfl
        · exact (ih bs.length (by omega) h rfl).imp_right fun hsub =>
            List.Subset.trans hsub (subset_cons_self _ _)

theorem eq_of_LF_mem_units (h : LF ∈ units c) : c = Char.ofNat 0x0a := by
  have hc := toNat_lt_or c
  have hfeed : LF.toNat = 10 := by decide
  unfold units at h
  split_ifs at h with hsmall
  · have heq := congrArg UInt16.toNat (mem_singleton.mp h)
    rw [hfeed, UInt16.toNat_ofNat', Nat.mod_eq_of_lt (by omega)] at heq
    exact Char.toNat_inj.mp heq.symm
  · simp only [mem_cons, not_mem_nil, or_false] at h
    rcases h with h | h
    all_goals
      have heq := congrArg UInt16.toNat h
      rw [hfeed, UInt16.toNat_ofNat', Nat.mod_eq_of_lt (by omega)] at heq
      omega

theorem LF_not_mem_ofBytes (h : 0x0a ∉ bytes) : LF ∉ ofBytes bytes := by
  intro hmem
  obtain ⟨c, hc, hunit⟩ := mem_flatMap.mp hmem
  obtain rfl := eq_of_LF_mem_units hunit
  rcases mem_charsOf hc with heq | hsub
  · exact absurd heq (by decide)
  · exact h (hsub (by decide))

theorem ofBytes_eq_nil : ofBytes bytes = [] ↔ bytes = [] := by
  refine ⟨fun h => ?_, fun h => h ▸ rfl⟩
  cases bytes with
  | nil => rfl
  | cons b bs =>
    have hunits : ∀ c : Char, units c ≠ [] := fun c hnil => by
      unfold units at hnil
      split_ifs at hnil
    obtain ⟨c, cs, hcs⟩ : ∃ c cs, charsOf (b :: bs) = c :: cs := by
      rw [charsOf_cons]
      split
      · exact ⟨_, _, rfl⟩
      · exact ⟨_, _, rfl⟩
    change ofChars (charsOf (b :: bs)) = [] at h
    rw [hcs, ofChars_cons] at h
    exact absurd (append_eq_nil_iff.mp h).1 (hunits c)

theorem wellFormed_unlines {ls : List JsString} (h : ∀ l ∈ ls, WellFormed l) :
    WellFormed (unlines ls) := by
  induction ls with
  | nil => trivial
  | cons l ls ih =>
    by_cases hls : ls = []
    · rw [hls, unlines_singleton]
      exact h l mem_cons_self
    · rw [unlines_cons_of_ne_nil l hls, wellFormed_append_cons (by decide)]
      exact ⟨h l mem_cons_self, ih fun l' hl' => h l' (mem_cons_of_mem _ hl')⟩

/-- What was written well-formed is read as it was written. -/
theorem ofBytes_utf8 {text : JsString} (h : WellFormed text) : ofBytes (utf8 text) = text := by
  obtain ⟨cs, rfl⟩ := exists_ofChars h
  rw [utf8_ofChars, ofBytes_charBytes]

section
variable {front : List JsString} (h : lines (ofBytes bytes) = front ++ [[]])
include h

/-- Bytes whose last line is empty are none, or end with a line feed. -/
theorem eq_nil_or_endsLine : bytes = [] ∨ ∃ start, bytes = start ++ [0x0a] := by
  induction hlength : bytes.length using Nat.strongRecOn generalizing bytes front with
  | ind n ih =>
    by_cases hmem : (0x0a : UInt8) ∈ bytes
    · obtain ⟨start, rest, rfl⟩ := append_of_mem hmem
      rw [length_append, length_cons] at hlength
      rw [ofBytes_append_LF, lines_append_LF] at h
      obtain ⟨front', hfront⟩ : ∃ front', lines (ofBytes rest) = front' ++ [[]] := by
        refine ⟨(lines (ofBytes rest)).dropLast, ?_⟩
        have hlast := congrArg getLast? h
        rw [getLast?_append_of_ne_nil _ (lines_ne_nil _), getLast?_concat] at hlast
        exact (dropLast_append_getLast? _ hlast).symm
      rcases ih rest.length (by omega) hfront rfl with rfl | ⟨start', rfl⟩
      · exact .inr ⟨start, rfl⟩
      · exact .inr ⟨start ++ 0x0a :: start', by simp⟩
    · rw [lines_of_not_mem (LF_not_mem_ofBytes hmem)] at h
      have hlast := congrArg getLast? h
      rw [getLast?_singleton, getLast?_concat] at hlast
      exact .inl (ofBytes_eq_nil.mp (some.inj hlast))

theorem lines_append_line {line : JsString} (hline : OneLine line) :
    lines (ofBytes (bytes ++ utf8 (line ++ [LF]))) = front ++ [line] ++ [[]] := by
  have htext : lines (ofBytes (utf8 (line ++ [LF]))) = [line] ++ [[]] := by
    rw [ofBytes_utf8 ((wellFormed_append_cons (by decide) _ []).mpr ⟨hline.1, trivial⟩),
      lines_append_LF, lines_of_not_mem hline.2]
    rfl
  rcases eq_nil_or_endsLine h with rfl | ⟨start, rfl⟩
  · have hfront : front = [] := append_left_eq_self.mp (h.symm.trans rfl)
    rw [nil_append, htext, hfront]
    rfl
  · rw [ofBytes_append_LF, lines_append_LF] at h
    rw [append_assoc, singleton_append, ofBytes_append_LF, lines_append_LF, htext,
      append_cancel_right h, append_assoc]

end

end JsString
end GajaeCode
