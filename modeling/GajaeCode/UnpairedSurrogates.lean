import GajaeCode.TailBuffer

/-! # Byte truncation of any string

A JavaScript string may have surrogates that belong to no pair.  The encoder writes each
of them as U+FFFD, so the bytes of such a string are those of another one, the string
its bytes decode to.  The windowed helpers cut that one; a string that needs no cut they
leave as it is, unpaired surrogates and all.
-/
namespace GajaeCode
open JsString List Bool

namespace JsString

/-- The string that the bytes of a string decode to: unpaired surrogates are U+FFFD. -/
def toWellFormed (s : JsString) : JsString := ofChars (codePoints s)

theorem byteLength_eq (s : JsString) : byteLength s = byteSize (codePoints s) :=
  length_charBytes (codePoints s)

/-- A unit that completes no pair is encoded apart from what stands before it. -/
theorem codePoints_append_cons {x : CodeUnit} (hx : isLowSurrogate x = false) (s t : JsString) :
    codePoints (s ++ x :: t) = codePoints s ++ codePoints (x :: t) := by
  induction s using codePoints.induct with
  | case1 => rfl
  | case2 u => simp [codePoints, hx]
  | case3 u v rest hpair ih => simp [codePoints, hpair, ih]
  | case4 u v rest hpair ih =>
    rw [cons_append] at ih
    simp only [cons_append, codePoints, hpair, false_eq_true, if_false, ih]

theorem byteLength_append_LF (s t : JsString) :
    byteLength (s ++ LF :: t) = byteLength s + (1 + byteLength t) := by
  have hone : (unitChar LF).utf8Size = 1 := by decide
  rw [byteLength_eq, codePoints_append_cons (by decide), codePoints_cons (by decide),
    byteSize_append, byteSize_cons, hone, ← byteLength_eq, ← byteLength_eq]

theorem utf8Size_pairChar {u v : CodeUnit} (hu : isHighSurrogate u = true)
    (hv : isLowSurrogate v = true) : (pairChar u v).utf8Size = 4 := by
  have hunits : ¬ (units (pairChar u v)).length ≤ 1 := by
    rw [units_pairChar hu hv, length_cons, length_singleton]
    omega
  obtain ⟨-, -, -, -, -, -, hfour⟩ := units_eq_pair hunits
  exact hfour

/-- The other surrogate of a pair, left alone, is U+FFFD. -/
theorem codePoints_cons_of_isLowSurrogate {v : CodeUnit} (hv : isLowSurrogate v = true)
    (rest : JsString) : codePoints (v :: rest) = Char.ofNat 0xfffd :: codePoints rest := by
  have hhigh : isHighSurrogate v = false := by
    rw [isLowSurrogate_iff] at hv
    rw [← not_eq_true, isHighSurrogate_iff]
    omega
  rw [codePoints_cons hhigh, unitChar, hv, Bool.or_true, if_pos rfl]

theorem length_le_byteSize (s : JsString) : s.length ≤ byteSize (codePoints s) := by
  induction s using codePoints.induct with
  | case1 => exact Nat.le_refl 0
  | case2 u => exact (unitChar u).utf8Size_pos
  | case3 u v rest hpair ih =>
    rw [and_eq_true] at hpair
    simp only [codePoints, hpair, Bool.and_self, if_true, byteSize_cons, length_cons,
      utf8Size_pairChar hpair.1 hpair.2]
    omega
  | case4 u v rest hpair ih =>
    have hpos := (unitChar u).utf8Size_pos
    simp only [codePoints, hpair, false_eq_true, if_false, byteSize_cons]
    rw [length_cons]
    omega

/-- The units of a string after the first `m`: its last characters, or these after the
half of one more. -/
theorem codePoints_drop (s : JsString) {m : Nat} (hm : m ≤ s.length) :
    (∃ front, codePoints s = front ++ codePoints (s.drop m)) ∨
      ∃ front c, codePoints s = front ++ c :: codePoints (s.drop (m + 1)) ∧ c.utf8Size = 4 ∧
        codePoints (s.drop m) = Char.ofNat 0xfffd :: codePoints (s.drop (m + 1)) ∧
        m < s.length := by
  induction s using codePoints.induct generalizing m with
  | case1 => exact .inl ⟨[], by rw [drop_nil]; rfl⟩
  | case2 u =>
    left
    rcases m with _ | m
    · exact ⟨[], rfl⟩
    · exact ⟨[unitChar u], by rw [drop_succ_cons, drop_nil]; rfl⟩
  | case3 u v rest hpair ih =>
    have hpoints : codePoints (u :: v :: rest) = pairChar u v :: codePoints rest := by
      rw [codePoints, if_pos hpair]
    rw [and_eq_true] at hpair
    rcases m with _ | _ | m
    · exact .inl ⟨[], rfl⟩
    · -- the pair is cut
      exact .inr ⟨[], pairChar u v, hpoints, utf8Size_pairChar hpair.1 hpair.2,
        codePoints_cons_of_isLowSurrogate hpair.2 rest, by simp⟩
    · rw [hpoints]
      simp only [length_cons] at hm ⊢
      rcases ih (m := m) (by omega) with ⟨front, h⟩ | ⟨front, c, h, hfour, hcut, hlt⟩
      · exact .inl ⟨pairChar u v :: front, by rw [h]; rfl⟩
      · exact .inr ⟨pairChar u v :: front, c, by rw [h]; rfl, hfour, hcut, by omega⟩
  | case4 u v rest hpair ih =>
    have hpoints : codePoints (u :: v :: rest) = unitChar u :: codePoints (v :: rest) := by
      rw [codePoints, if_neg hpair]
    rcases m with _ | m
    · exact .inl ⟨[], rfl⟩
    · rw [hpoints]
      rw [length_cons] at hm ⊢
      rcases ih (m := m) (by omega) with ⟨front, h⟩ | ⟨front, c, h, hfour, hcut, hlt⟩
      · exact .inl ⟨unitChar u :: front, by rw [h]; rfl⟩
      · exact .inr ⟨unitChar u :: front, c, by rw [h]; rfl, hfour, hcut, by omega⟩

/-- The window of the last `n` units has every character that fits in `n` bytes. -/
theorem fitTail_drop (s : JsString) (n : Nat) :
    fitTail n (codePoints (s.drop (s.length - n))) = fitTail n (codePoints s) := by
  by_cases hlen : s.length ≤ n
  · rw [Nat.sub_eq_zero_of_le hlen, drop_zero]
  · have hsize := length_le_byteSize (s.drop (s.length - n))
    rw [length_drop] at hsize
    rcases codePoints_drop s (m := s.length - n) (by omega) with
      ⟨front, h⟩ | ⟨front, c, h, hfour, hcut, hlt⟩
    · rw [h, fitTail_append_of_le (by omega)]
    · have hthree : (Char.ofNat 0xfffd).utf8Size = 3 := by decide
      have hrest := length_le_byteSize (s.drop (s.length - n + 1))
      rw [length_drop] at hrest
      rw [hcut, h, fitTail_append_of_le (by rw [byteSize_cons]; omega), fitTail, fitTail,
        if_neg (by rw [byteSize_cons]; omega), if_neg (by rw [byteSize_cons]; omega)]

/-- A surrogate by itself takes the three bytes of U+FFFD. -/
theorem utf8Size_unitChar {u : CodeUnit} (hu : ¬ IsScalarUnit u) : (unitChar u).utf8Size = 3 := by
  have hbad : unitChar u = Char.ofNat 0xfffd := by
    rw [IsScalarUnit, not_and_or] at hu
    rw [unitChar, if_pos (by simpa using hu)]
  rw [hbad]
  decide

/-- A string with no more bytes than units is ASCII, and well formed. -/
theorem toWellFormed_of_byteSize_le {s : JsString} (h : byteSize (codePoints s) ≤ s.length) :
    toWellFormed s = s := by
  induction s using codePoints.induct with
  | case1 => rfl
  | case2 u =>
    have hscalar : IsScalarUnit u := by
      by_contra hno
      rw [codePoints, byteSize_cons, utf8Size_unitChar hno, length_singleton] at h
      omega
    rw [toWellFormed, codePoints, ofChars_cons, units_unitChar hscalar]
    rfl
  | case3 u v rest hpair ih =>
    rw [and_eq_true] at hpair
    have := length_le_byteSize rest
    simp only [codePoints, hpair, Bool.and_self, if_true, byteSize_cons, length_cons,
      utf8Size_pairChar hpair.1 hpair.2] at h
    omega
  | case4 u v rest hpair ih =>
    have hpos := (unitChar u).utf8Size_pos
    have hrest := length_le_byteSize (v :: rest)
    simp only [codePoints, hpair, false_eq_true, if_false, byteSize_cons] at h
    rw [length_cons] at h
    have hscalar : IsScalarUnit u := by
      by_contra hno
      rw [utf8Size_unitChar hno] at h
      omega
    have hpoints : codePoints (u :: v :: rest) = unitChar u :: codePoints (v :: rest) := by
      rw [codePoints, if_neg hpair]
    rw [toWellFormed, hpoints, ofChars_cons, units_unitChar hscalar]
    exact congrArg (u :: ·) (ih (by omega))

end JsString

/-- **Truncating any string to a tail**: one that fits is left as it is, of another the
characters that fit are kept. -/
theorem truncateTailBytes_eq (s : JsString) (n : Nat) : truncateTailBytes s n =
      if byteLength s ≤ n then ⟨s, byteLength s⟩
      else ⟨ofChars (fitTail n (codePoints s)), byteSize (fitTail n (codePoints s))⟩ := by
  have hlen := length_le_byteSize s
  rw [← byteLength_eq] at hlen
  have hbuf : ∀ t, utf8 t = charBytes (codePoints t) := fun _ => rfl
  rw [truncateTailBytes]
  split_ifs with hzero hsize hfits hsize hsize
  · -- no room, and an empty string
    subst hzero
    obtain rfl : s = [] := length_eq_zero_iff.mp (by omega)
    rfl
  · subst hzero
    rw [byteSize_eq_zero (Nat.le_zero.mp (byteSize_fitTail_le 0 _))]
    rfl
  · rfl
  · exact absurd hfits.2 hsize
  · exact absurd ⟨by omega, hsize⟩ hfits
  · simp only [hbuf, length_charBytes, findUtf8BoundaryForward_charBytes, fitTail_drop]
    set window := codePoints (s.drop (s.length - n)) with hwindow
    have hfit : fitTail n window = fitTail n (codePoints s) := fitTail_drop s n
    obtain ⟨front, hsplit⟩ := fitTail_suffix n window
    rw [hfit] at hsplit
    have hslice : (charBytes window).drop (byteSize window - byteSize (fitTail n (codePoints s))) =
        charBytes (fitTail n (codePoints s)) := by
      rw [← hsplit, byteSize_append, Nat.add_sub_cancel, charBytes_append, ← length_charBytes,
        drop_left]
    rw [hslice, ofBytes_charBytes, length_charBytes]

end GajaeCode
