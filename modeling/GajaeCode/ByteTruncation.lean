import GajaeCode.Utf8Window

/-! # Byte-level truncation

The windowed helpers of `packages/coding-agent/src/session/streaming-output.ts`.  A
string is cut to a number of bytes by encoding only a window of it: as many code units
as bytes are wanted, since a unit never has less than one byte.  The window may cut a
surrogate pair, whose half then encodes as U+FFFD; the cut at a byte boundary drops it
again.  On well-formed strings the helpers keep exactly the characters that fit.
-/
namespace GajaeCode
open JsString List
variable (cs : List Char)

structure ByteTruncationResult where
  text : JsString
  bytes : Nat
  deriving DecidableEq

/-- `while (i < buf.length && (buf[i] & 0xc0) === 0x80) i++`. -/
def findUtf8BoundaryForward (buf : List UInt8) (pos : Nat) : Nat :=
  pos + ((buf.drop pos).takeWhile isContinuation).length

/-- `while (i > 0 && (buf[i] & 0xc0) === 0x80) i--`. -/
def retreat (buf : List UInt8) : Nat → Nat
  | 0 => 0
  | i + 1 => if buf[i + 1]?.any isContinuation then retreat buf i else i + 1

def findUtf8BoundaryBackward (buf : List UInt8) (cut : Nat) : Nat :=
  let i := min buf.length cut
  if buf.length ≤ i then buf.length else retreat buf i

/-- `truncateBytesWindowed` on a string, keeping the head. -/
def truncateHeadBytes (data : JsString) (maxBytes : Nat) : ByteTruncationResult :=
  if maxBytes = 0 then ⟨[], 0⟩
  else if data.length ≤ maxBytes ∧ (utf8 data).length ≤ maxBytes then ⟨data, (utf8 data).length⟩
  else
    let buf := utf8 (data.take (min data.length maxBytes))
    let stop := findUtf8BoundaryBackward buf maxBytes
    if stop = 0 then ⟨[], 0⟩
    else
      let slice := buf.take stop
      ⟨ofBytes slice, slice.length⟩

/-- `truncateBytesWindowed` on a string, keeping the tail. -/
def truncateTailBytes (data : JsString) (maxBytes : Nat) : ByteTruncationResult :=
  if maxBytes = 0 then ⟨[], 0⟩
  else if data.length ≤ maxBytes ∧ (utf8 data).length ≤ maxBytes then ⟨data, (utf8 data).length⟩
  else
    let buf := utf8 (data.drop (data.length - maxBytes))
    let start := findUtf8BoundaryForward buf (buf.length - maxBytes)
    let slice := buf.drop start
    ⟨ofBytes slice, slice.length⟩

/-- Inside the bytes of a character the loop retreats to its first byte. -/
theorem retreat_charBytes (front : List Char) (c : Char) (rest : List Char) {i : Nat}
    (hi : i < c.utf8Size) :
    retreat (charBytes (front ++ c :: rest)) (byteSize front + i) = byteSize front := by
  obtain ⟨b, bs, hb, hlead, htrail⟩ := utf8EncodeChar_eq_cons c
  have hlen : bs.length + 1 = c.utf8Size := by
    rw [← String.length_utf8EncodeChar, hb, length_cons]
  have hget : ∀ j, (charBytes (front ++ c :: rest))[byteSize front + j]? =
      (b :: bs ++ charBytes rest)[j]? := by
    intro j
    rw [charBytes_append, charBytes_cons, hb, ← length_charBytes,
      getElem?_append_right (by omega), Nat.add_sub_cancel_left]
  induction i with
  | zero =>
    rw [Nat.add_zero]
    cases hf : byteSize front with
    | zero => rfl
    | succ k =>
      have h0 := hget 0
      rw [Nat.add_zero, hf] at h0
      rw [retreat, h0]
      simp [hlead]
  | succ i ih =>
    have hnext := hget (i + 1)
    rw [← Nat.add_assoc] at hnext
    have hmem : ∃ b' ∈ bs, (b :: bs ++ charBytes rest)[i + 1]? = some b' := by
      refine ⟨bs[i], getElem_mem _, ?_⟩
      rw [cons_append, getElem?_cons_succ, getElem?_append_left (by omega)]
      exact getElem?_eq_getElem _
    obtain ⟨b', hb', hat⟩ := hmem
    rw [← Nat.add_assoc, retreat, hnext, hat]
    simp only [Option.any_some, htrail b' hb', if_true]
    exact ih (by omega)

theorem findUtf8BoundaryBackward_charBytes (n : Nat) :
    findUtf8BoundaryBackward (charBytes cs) n = byteSize (fitHead n cs) := by
  simp only [findUtf8BoundaryBackward, length_charBytes]
  rcases fitHead_cases n cs with ⟨hall, hsize⟩ | ⟨c, rest, hsplit, hsize⟩
  · rw [hall, if_pos (by omega)]
  · have hfit := byteSize_fitHead_le n cs
    have htotal := congrArg byteSize hsplit
    rw [byteSize_append, byteSize_cons] at htotal
    rw [if_neg (by omega), Nat.min_eq_right (by omega)]
    have hinside : n - byteSize (fitHead n cs) < c.utf8Size := by omega
    have hretreat := retreat_charBytes (fitHead n cs) c rest hinside
    rw [← hsplit, Nat.add_sub_cancel' hfit] at hretreat
    exact hretreat

theorem findUtf8BoundaryForward_charBytes (n : Nat) :
    findUtf8BoundaryForward (charBytes cs) (byteSize cs - n) =
      byteSize cs - byteSize (fitTail n cs) := by
  rw [findUtf8BoundaryForward]
  rcases fitTail_cases n cs with ⟨hall, hsize⟩ | ⟨front, c, hsplit, hsize⟩
  · rw [hall, Nat.sub_eq_zero_of_le hsize, drop_zero, takeWhile_isContinuation_charBytes,
      Nat.sub_self]
    rfl
  · obtain ⟨b, bs, hb, hlead, htrail⟩ := utf8EncodeChar_eq_cons c
    have hlen : bs.length + 1 = c.utf8Size := by
      rw [← String.length_utf8EncodeChar, hb, length_cons]
    have hfit := byteSize_fitTail_le n cs
    generalize fitTail n cs = kept at hsplit hsize hfit ⊢
    subst hsplit
    rw [byteSize_append, byteSize_cons]
    -- the first byte dropped is inside `c`, past its first one
    obtain ⟨i, hi⟩ : ∃ i, byteSize front + (c.utf8Size + byteSize kept) - n =
        byteSize front + (i + 1) := ⟨c.utf8Size + byteSize kept - n - 1, by omega⟩
    have hdrop : (charBytes (front ++ c :: kept)).drop (byteSize front + (i + 1)) =
        bs.drop i ++ charBytes kept := by
      rw [charBytes_append, charBytes_cons, hb, ← length_charBytes, drop_length_add_append,
        cons_append, drop_succ_cons, drop_append_of_le_length (by omega)]
    have hwhile : (bs.drop i ++ charBytes kept).takeWhile isContinuation = bs.drop i := by
      rw [takeWhile_append_of_pos (fun b' hb' => htrail b' (mem_of_mem_drop hb')),
        takeWhile_isContinuation_charBytes, append_nil]
    rw [hi, hdrop, hwhile, length_drop]
    omega

/-! ## Windows -/

/-- A character with two code units: its halves are surrogates and it has four bytes. -/
theorem units_eq_pair {c : Char} (h : ¬ (units c).length ≤ 1) : ∃ u v, units c = [u, v] ∧
    unitChar u = Char.ofNat 0xfffd ∧ unitChar v = Char.ofNat 0xfffd ∧
    isHighSurrogate v = false ∧ c.utf8Size = 4 := by
  have hc := toNat_lt_or c
  rw [length_units] at h
  have hlarge : ¬ c.toNat < 0x10000 := by
    intro hsmall
    simp [hsmall] at h
  have hfour : c.utf8Size = 4 := by
    rw [Char.utf8Size_eq_four_iff, UInt32.lt_iff_toNat_lt]
    have : c.val.toNat = c.toNat := rfl
    simp only [UInt32.reduceToNat]
    omega
  have hnotHigh :
      isHighSurrogate (UInt16.ofNat (0xdc00 + (c.toNat - 0x10000) % 0x400)) = false := by
    rw [← Bool.not_eq_true, isHighSurrogate_iff, toNat_ofNat_unit (by omega)]
    omega
  refine ⟨_, _, by rw [units, if_neg hlarge], ?_, ?_, hnotHigh, hfour⟩
  · rw [unitChar, isHighSurrogate_highUnit c hlarge, Bool.true_or, if_pos rfl]
  · rw [unitChar, isLowSurrogate_lowUnit, Bool.or_true, if_pos rfl]

/-- A position in a text: between two characters, or in the middle of one. -/
theorem split_ofChars {m : Nat} (hm : m ≤ (ofChars cs).length) :
    (∃ front rest, cs = front ++ rest ∧ (ofChars front).length = m) ∨
      ∃ front c rest, cs = front ++ c :: rest ∧ (ofChars front).length + 1 = m ∧
        ¬ (units c).length ≤ 1 := by
  induction cs generalizing m with
  | nil =>
    obtain rfl := Nat.le_zero.mp hm
    exact .inl ⟨[], [], rfl, rfl⟩
  | cons c cs ih =>
    rw [ofChars_cons, length_append] at hm
    by_cases hwhole : (units c).length ≤ m
    · rcases ih (m := m - (units c).length) (by omega) with
        ⟨front, rest, rfl, hlen⟩ | ⟨front, d, rest, rfl, hlen, hd⟩
      · refine .inl ⟨c :: front, rest, rfl, ?_⟩
        rw [ofChars_cons, length_append]
        omega
      · refine .inr ⟨c :: front, d, rest, rfl, ?_, hd⟩
        rw [ofChars_cons, length_append]
        omega
    · have hlength := length_units c
      rcases Nat.eq_zero_or_pos m with rfl | hpos
      · exact .inl ⟨[], c :: cs, rfl, rfl⟩
      · refine .inr ⟨[], c, cs, rfl, ?_, by omega⟩
        split_ifs at hlength <;> simp <;> omega

theorem codePoints_ofChars_append (s : JsString) :
    codePoints (ofChars cs ++ s) = cs ++ codePoints s := by
  induction cs with
  | nil => rfl
  | cons c cs ih => rw [ofChars_cons, append_assoc, codePoints_units_append, ih, cons_append]

/-- A number of code units from the front of a text: whole characters, and possibly
half of one more, which encodes as U+FFFD. -/
theorem codePoints_take_ofChars {m : Nat} (hm : m ≤ (ofChars cs).length) :
    (∃ front rest, cs = front ++ rest ∧ (ofChars front).length = m ∧
      codePoints ((ofChars cs).take m) = front) ∨
    (∃ front c rest, cs = front ++ c :: rest ∧ (ofChars front).length + 1 = m ∧
      c.utf8Size = 4 ∧ codePoints ((ofChars cs).take m) = front ++ [Char.ofNat 0xfffd]) := by
  rcases split_ofChars cs hm with ⟨front, rest, rfl, rfl⟩ | ⟨front, c, rest, rfl, rfl, htwo⟩
  · exact .inl ⟨front, rest, rfl, rfl, by rw [ofChars_append, take_left, codePoints_ofChars]⟩
  · obtain ⟨u, v, huv, hu, -, -, hfour⟩ := units_eq_pair htwo
    refine .inr ⟨front, c, rest, rfl, rfl, hfour, ?_⟩
    rw [ofChars_append, take_length_add_append, codePoints_ofChars_append, ofChars_cons, huv, ← hu]
    rfl

/-- The code units of a text after the first ones: whole characters, and possibly half
of one more before them. -/
theorem codePoints_drop_ofChars {m : Nat} (hm : m ≤ (ofChars cs).length) :
    (∃ front rest, cs = front ++ rest ∧ (ofChars rest).length + m = (ofChars cs).length ∧
      codePoints ((ofChars cs).drop m) = rest) ∨ (∃ front c rest, cs = front ++ c :: rest ∧
      (ofChars rest).length + 1 + m = (ofChars cs).length ∧
      c.utf8Size = 4 ∧ codePoints ((ofChars cs).drop m) = Char.ofNat 0xfffd :: rest) := by
  rcases split_ofChars cs hm with ⟨front, rest, rfl, rfl⟩ | ⟨front, c, rest, rfl, rfl, htwo⟩
  · rw [ofChars_append, length_append, drop_left, codePoints_ofChars]
    exact .inl ⟨front, rest, rfl, Nat.add_comm .., rfl⟩
  · obtain ⟨u, v, huv, -, hv, hhigh, hfour⟩ := units_eq_pair htwo
    rw [ofChars_append, ofChars_cons, huv, drop_length_add_append]
    refine .inr ⟨front, c, rest, rfl, ?_, hfour, ?_⟩
    · simp only [length_append, length_cons, length_nil]
      omega
    · rw [cons_append, drop_succ_cons, drop_zero, singleton_append, codePoints_cons hhigh, hv,
        codePoints_ofChars]

theorem fitHead_window (n : Nat) :
    fitHead n (codePoints ((ofChars cs).take (min (ofChars cs).length n))) = fitHead n cs := by
  by_cases hlen : (ofChars cs).length ≤ n
  · rw [Nat.min_eq_left hlen, take_length, codePoints_ofChars]
  · rw [Nat.min_eq_right (by omega)]
    rcases codePoints_take_ofChars cs (m := n) (by omega) with
      ⟨front, rest, rfl, hfront, hpoints⟩ | ⟨front, c, rest, rfl, hfront, hfour, hpoints⟩
    · -- as many units as bytes are wanted: the bytes of `front` fill the room
      have hsize := length_ofChars_le front
      rw [hpoints, fitHead_append]
      split_ifs with hle
      · have hroom : n - byteSize front = 0 := by omega
        rw [hroom, fitHead_of_le hle]
        cases rest with
        | nil => simp [fitHead]
        | cons d rest => rw [fitHead_cons_of_lt d.utf8Size_pos, append_nil]
      · rfl
    · have hsize := length_ofChars_le front
      have hthree : (Char.ofNat 0xfffd).utf8Size = 3 := by decide
      rw [hpoints, fitHead_append, fitHead_append]
      split_ifs with hle
      · rw [fitHead_cons_of_lt (by omega), fitHead_cons_of_lt (by omega)]
      · rfl

theorem fitTail_window (n : Nat) :
    fitTail n (codePoints ((ofChars cs).drop ((ofChars cs).length - n))) = fitTail n cs := by
  by_cases hlen : (ofChars cs).length ≤ n
  · rw [Nat.sub_eq_zero_of_le hlen, drop_zero, codePoints_ofChars]
  · rcases codePoints_drop_ofChars cs (m := (ofChars cs).length - n) (by omega) with
      ⟨front, rest, hsplit, hrest, hpoints⟩ | ⟨front, c, rest, hsplit, hrest, hfour, hpoints⟩
    · have hsize := length_ofChars_le rest
      rw [hpoints]
      conv_rhs => rw [hsplit, fitTail_append_of_le (by omega)]
    · have hsize := length_ofChars_le rest
      have hthree : (Char.ofNat 0xfffd).utf8Size = 3 := by decide
      rw [hpoints, fitTail, if_neg (by rw [byteSize_cons]; omega)]
      conv_rhs => rw [hsplit, fitTail_append_of_le (by rw [byteSize_cons]; omega), fitTail,
        if_neg (by rw [byteSize_cons]; omega)]

/-- **Truncating to a head** keeps the characters that fit, and counts their bytes. -/
theorem truncateHeadBytes_ofChars (n : Nat) :
    truncateHeadBytes (ofChars cs) n = ⟨ofChars (fitHead n cs), byteSize (fitHead n cs)⟩ := by
  rw [truncateHeadBytes]
  split_ifs with hzero hfits
  · subst hzero
    rw [byteSize_eq_zero (Nat.le_zero.mp (byteSize_fitHead_le 0 cs))]
    rfl
  · rw [utf8_ofChars, length_charBytes] at hfits ⊢
    rw [fitHead_of_le hfits.2]
  · have hbuf : ∀ s, utf8 s = charBytes (codePoints s) := fun _ => rfl
    simp only [hbuf, findUtf8BoundaryBackward_charBytes, fitHead_window]
    set window := codePoints ((ofChars cs).take (min (ofChars cs).length n)) with hwindow
    have hfit : fitHead n window = fitHead n cs := fitHead_window cs n
    have hslice : (charBytes window).take (byteSize (fitHead n cs)) = charBytes (fitHead n cs) := by
      rcases fitHead_cases n window with ⟨hall, -⟩ | ⟨c, rest, hsplit, -⟩
      · rw [← hfit, hall, ← length_charBytes, take_length]
      · rw [hfit] at hsplit
        rw [hsplit, charBytes_append, ← length_charBytes, take_left]
    split_ifs with hstop
    · rw [byteSize_eq_zero hstop]
      rfl
    · rw [hslice, ofBytes_charBytes, length_charBytes]

/-- **Truncating to a tail** keeps the characters that fit, and counts their bytes. -/
theorem truncateTailBytes_ofChars (n : Nat) :
    truncateTailBytes (ofChars cs) n = ⟨ofChars (fitTail n cs), byteSize (fitTail n cs)⟩ := by
  rw [truncateTailBytes]
  split_ifs with hzero hfits
  · subst hzero
    rw [byteSize_eq_zero (Nat.le_zero.mp (byteSize_fitTail_le 0 cs))]
    rfl
  · rw [utf8_ofChars, length_charBytes] at hfits ⊢
    rw [fitTail_of_le hfits.2]
  · have hbuf : ∀ s, utf8 s = charBytes (codePoints s) := fun _ => rfl
    simp only [hbuf, length_charBytes, findUtf8BoundaryForward_charBytes, fitTail_window]
    set window := codePoints ((ofChars cs).drop ((ofChars cs).length - n)) with hwindow
    have hfit : fitTail n window = fitTail n cs := fitTail_window cs n
    have hslice : (charBytes window).drop (byteSize window - byteSize (fitTail n cs)) =
        charBytes (fitTail n cs) := by
      obtain ⟨front, hsplit⟩ := fitTail_suffix n window
      rw [hfit] at hsplit
      rw [← hsplit, byteSize_append, Nat.add_sub_cancel, charBytes_append, ← length_charBytes,
        drop_left]
    rw [hslice, ofBytes_charBytes, length_charBytes]

end GajaeCode
