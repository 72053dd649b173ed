import GajaeCode.JsString

/-! # Characters, code units and bytes

A well-formed string is the UTF-16 form of a list of characters, and its bytes are
their UTF-8 form.  What a program does to the bytes of such a string is best described
on the characters; this module has the two encodings of a list of characters and the
cuts that keep whole characters.
-/
namespace GajaeCode
open List
namespace JsString
variable {cs : List Char} {n : Nat}
variable (c : Char)
variable {ds : List Char} {fuel : Nat} {s : JsString}

def units (c : Char) : JsString :=
  if c.toNat < 0x10000 then [UInt16.ofNat c.toNat]
  else [UInt16.ofNat (0xd800 + (c.toNat - 0x10000) / 0x400),
    UInt16.ofNat (0xdc00 + (c.toNat - 0x10000) % 0x400)]

def ofChars (cs : List Char) : JsString := cs.flatMap units

@[simp] theorem ofChars_nil : ofChars [] = [] := rfl

@[simp] theorem ofChars_cons (cs : List Char) : ofChars (c :: cs) = units c ++ ofChars cs := rfl

@[simp] theorem ofChars_append (cs ds : List Char) :
    ofChars (cs ++ ds) = ofChars cs ++ ofChars ds := flatMap_append

theorem toNat_lt_or : c.toNat < 0xd800 ∨ 0xdfff < c.toNat ∧ c.toNat < 0x110000 :=
  c.valid

theorem char_toNat_ofNat (h : n < 0xd800 ∨ 0xdfff < n ∧ n < 0x110000) :
    (Char.ofNat n).toNat = n := by
  rw [Char.ofNat, dif_pos h]
  rfl

theorem char_eq_of_toNat {c d : Char} (h : c.toNat = d.toNat) : c = d :=
  Char.ext (UInt32.toNat_inj.mp h)

theorem isHighSurrogate_iff (u : CodeUnit) :
    isHighSurrogate u = true ↔ 0xd800 ≤ u.toNat ∧ u.toNat ≤ 0xdbff := by
  simp [isHighSurrogate, UInt16.le_iff_toNat_le]

theorem isLowSurrogate_iff (u : CodeUnit) :
    isLowSurrogate u = true ↔ 0xdc00 ≤ u.toNat ∧ u.toNat ≤ 0xdfff := by
  simp [isLowSurrogate, UInt16.le_iff_toNat_le]

theorem isScalarUnit_iff (u : CodeUnit) : IsScalarUnit u ↔ u.toNat < 0xd800 ∨ 0xdfff < u.toNat := by
  rw [IsScalarUnit, ← Bool.not_eq_true, ← Bool.not_eq_true, isHighSurrogate_iff, isLowSurrogate_iff]
  omega

theorem toNat_ofNat_unit (h : n < 0x10000) : (UInt16.ofNat n).toNat = n := by
  rw [UInt16.toNat_ofNat', Nat.mod_eq_of_lt h]

/-- A unit that is no surrogate is the one unit of its character. -/
theorem units_unitChar {u : CodeUnit} (hu : IsScalarUnit u) : units (unitChar u) = [u] := by
  have hlt : u.toNat < 0x10000 := u.toNat_lt
  have hchar : (unitChar u).toNat = u.toNat := by
    rw [unitChar, hu.1, hu.2]
    apply char_toNat_ofNat
    have := (isScalarUnit_iff u).mp hu
    omega
  rw [units, hchar, if_pos hlt]
  simp

theorem units_pairChar {u v : CodeUnit} (hu : isHighSurrogate u = true)
    (hv : isLowSurrogate v = true) : units (pairChar u v) = [u, v] := by
  rw [isHighSurrogate_iff] at hu
  rw [isLowSurrogate_iff] at hv
  have hchar : (pairChar u v).toNat =
      0x10000 + (u.toNat - 0xd800) * 0x400 + (v.toNat - 0xdc00) := by
    apply char_toNat_ofNat
    omega
  rw [units, hchar, if_neg (by omega)]
  have hhigh : 0xd800 + (0x10000 + (u.toNat - 0xd800) * 0x400 + (v.toNat - 0xdc00) - 0x10000) /
      0x400 = u.toNat := by omega
  have hlow : 0xdc00 + (0x10000 + (u.toNat - 0xd800) * 0x400 + (v.toNat - 0xdc00) - 0x10000) %
      0x400 = v.toNat := by omega
  rw [hhigh, hlow]
  simp

/-- **A well-formed string has characters.** -/
theorem exists_ofChars (h : WellFormed s) : ∃ cs, s = ofChars cs := by
  induction s using WellFormed.induct with
  | case1 => exact ⟨[], rfl⟩
  | case2 u => exact ⟨[unitChar u], by simp [units_unitChar h]⟩
  | case3 u v rest ih ih' =>
    rcases h with ⟨hu, hv, hrest⟩ | ⟨hu, hv, hrest⟩
    · obtain ⟨cs, rfl⟩ := ih hrest
      exact ⟨pairChar u v :: cs, by simp [units_pairChar hu hv]⟩
    · obtain ⟨cs, hcs⟩ := ih' hrest
      exact ⟨unitChar u :: cs, by simp [units_unitChar ⟨hu, hv⟩, hcs]⟩

theorem isHighSurrogate_highUnit (h : ¬ c.toNat < 0x10000) :
    isHighSurrogate (UInt16.ofNat (0xd800 + (c.toNat - 0x10000) / 0x400)) = true := by
  have hc := toNat_lt_or c
  rw [isHighSurrogate_iff, toNat_ofNat_unit (by omega)]
  omega

theorem isLowSurrogate_lowUnit :
    isLowSurrogate (UInt16.ofNat (0xdc00 + (c.toNat - 0x10000) % 0x400)) = true := by
  rw [isLowSurrogate_iff, toNat_ofNat_unit (by omega)]
  omega

theorem codePoints_units_append (s : JsString) : codePoints (units c ++ s) = c :: codePoints s := by
  have hc := toNat_lt_or c
  by_cases hsmall : c.toNat < 0x10000
  · have hnat := toNat_ofNat_unit hsmall
    have hscalar : IsScalarUnit (UInt16.ofNat c.toNat) := by
      rw [isScalarUnit_iff, hnat]
      omega
    rw [units, if_pos hsmall, singleton_append, codePoints_cons hscalar.1, unitChar,
      hscalar.1, hscalar.2, hnat]
    simp
  · have hhigh : (UInt16.ofNat (0xd800 + (c.toNat - 0x10000) / 0x400)).toNat =
        0xd800 + (c.toNat - 0x10000) / 0x400 := toNat_ofNat_unit (by omega)
    have hlow : (UInt16.ofNat (0xdc00 + (c.toNat - 0x10000) % 0x400)).toNat =
        0xdc00 + (c.toNat - 0x10000) % 0x400 := toNat_ofNat_unit (by omega)
    have hpair : pairChar (UInt16.ofNat (0xd800 + (c.toNat - 0x10000) / 0x400))
        (UInt16.ofNat (0xdc00 + (c.toNat - 0x10000) % 0x400)) = c := by
      apply char_eq_of_toNat
      rw [pairChar, hhigh, hlow, char_toNat_ofNat (by omega)]
      omega
    rw [units, if_neg hsmall, cons_append, singleton_append, codePoints,
      isHighSurrogate_highUnit c hsmall, isLowSurrogate_lowUnit, hpair]
    simp

@[simp] theorem codePoints_ofChars (cs : List Char) : codePoints (ofChars cs) = cs := by
  induction cs with
  | nil => rfl
  | cons c cs ih => rw [ofChars_cons, codePoints_units_append, ih]

theorem ofChars_injective (h : ofChars cs = ofChars ds) : cs = ds := by
  rw [← codePoints_ofChars cs, h, codePoints_ofChars]

theorem length_units : (units c).length = if c.toNat < 0x10000 then 1 else 2 := by
  rw [units]
  split_ifs <;> rfl

theorem wellFormed_units_append (h : WellFormed s) : WellFormed (units c ++ s) := by
  have hc := toNat_lt_or c
  by_cases hsmall : c.toNat < 0x10000
  · have hscalar : IsScalarUnit (UInt16.ofNat c.toNat) := by
      rw [isScalarUnit_iff, toNat_ofNat_unit hsmall]
      omega
    rw [units, if_pos hsmall, singleton_append]
    exact (wellFormed_cons hscalar s).mpr h
  · rw [units, if_neg hsmall]
    exact .inl ⟨isHighSurrogate_highUnit c hsmall, isLowSurrogate_lowUnit c, h⟩

theorem wellFormed_ofChars (cs : List Char) : WellFormed (ofChars cs) := by
  induction cs with
  | nil => trivial
  | cons c cs ih => exact wellFormed_units_append c ih

theorem wellFormed_append {t : JsString} (hs : WellFormed s) (ht : WellFormed t) :
    WellFormed (s ++ t) := by
  obtain ⟨cs, rfl⟩ := exists_ofChars hs
  obtain ⟨ds, rfl⟩ := exists_ofChars ht
  rw [← ofChars_append]
  exact wellFormed_ofChars _

/-- The number of bytes of a list of characters. -/
def byteSize (cs : List Char) : Nat := (cs.map Char.utf8Size).sum

@[simp] theorem byteSize_nil : byteSize [] = 0 := rfl

@[simp] theorem byteSize_cons (cs : List Char) :
    byteSize (c :: cs) = c.utf8Size + byteSize cs := rfl

@[simp] theorem byteSize_append (cs ds : List Char) :
    byteSize (cs ++ ds) = byteSize cs + byteSize ds := by
  simp [byteSize]

def charBytes (cs : List Char) : List UInt8 := cs.flatMap String.utf8EncodeChar

@[simp] theorem charBytes_nil : charBytes [] = [] := rfl

@[simp] theorem charBytes_cons (cs : List Char) :
    charBytes (c :: cs) = String.utf8EncodeChar c ++ charBytes cs := rfl

@[simp] theorem charBytes_append (cs ds : List Char) :
    charBytes (cs ++ ds) = charBytes cs ++ charBytes ds := flatMap_append

@[simp] theorem length_charBytes (cs : List Char) : (charBytes cs).length = byteSize cs := by
  induction cs with
  | nil => rfl
  | cons c cs ih => simp [ih]

@[simp] theorem utf8_ofChars (cs : List Char) : utf8 (ofChars cs) = charBytes cs := by
  rw [utf8, codePoints_ofChars, charBytes]

theorem byteSize_eq_zero (h : byteSize cs = 0) : cs = [] := by
  cases cs with
  | nil => rfl
  | cons c cs =>
    have := c.utf8Size_pos
    rw [byteSize_cons] at h
    omega

theorem length_units_le : (units c).length ≤ c.utf8Size := by
  have hpos := c.utf8Size_pos
  rw [length_units]
  split_ifs with hsmall
  · exact hpos
  · have hfour : c.utf8Size = 4 := by
      rw [Char.utf8Size_eq_four_iff, UInt32.lt_iff_toNat_lt]
      have : c.val.toNat = c.toNat := rfl
      simp only [UInt32.reduceToNat]
      omega
    omega

theorem length_ofChars_le (cs : List Char) : (ofChars cs).length ≤ byteSize cs := by
  induction cs with
  | nil => exact Nat.le_refl 0
  | cons c cs ih =>
    have := length_units_le c
    simp only [ofChars_cons, length_append, byteSize_cons]
    omega

/-- A UTF-8 continuation byte, `10xxxxxx`. -/
def isContinuation (b : UInt8) : Bool := b &&& 0xc0 == 0x80

theorem isContinuation_trailing : ∀ n < 64, isContinuation (UInt8.ofNat (n + 0x80)) = true := by
  decide

theorem isContinuation_single : ∀ n < 128, isContinuation (UInt8.ofNat n) = false := by
  decide

theorem isContinuation_lead2 : ∀ n < 0x20, isContinuation (UInt8.ofNat (n + 0xc0)) = false := by
  decide

theorem isContinuation_lead3 : ∀ n < 0x10, isContinuation (UInt8.ofNat (n + 0xe0)) = false := by
  decide

theorem isContinuation_lead4 : ∀ n < 0x08, isContinuation (UInt8.ofNat (n + 0xf0)) = false := by
  decide

/-- The first byte of a character is no continuation byte, and every other one is. -/
theorem utf8EncodeChar_eq_cons : ∃ b bs, String.utf8EncodeChar c = b :: bs ∧
    isContinuation b = false ∧ ∀ b' ∈ bs, isContinuation b' = true := by
  have htrail : ∀ m, isContinuation (UInt8.ofNat (m % 0x40 + 0x80)) = true := fun m =>
    isContinuation_trailing _ (Nat.mod_lt _ (by decide))
  rw [String.utf8EncodeChar]
  split_ifs with h1 h2 h3
  · exact ⟨_, _, rfl, isContinuation_single _ (by omega), by simp⟩
  · refine ⟨_, _, rfl, isContinuation_lead2 _ (Nat.mod_lt _ (by decide)), ?_⟩
    exact forall_mem_singleton.mpr (htrail _)
  · refine ⟨_, _, rfl, isContinuation_lead3 _ (Nat.mod_lt _ (by decide)), ?_⟩
    exact forall_mem_cons.mpr ⟨htrail _, forall_mem_singleton.mpr (htrail _)⟩
  · refine ⟨_, _, rfl, isContinuation_lead4 _ (Nat.mod_lt _ (by decide)), ?_⟩
    exact forall_mem_cons.mpr ⟨htrail _,
      forall_mem_cons.mpr ⟨htrail _, forall_mem_singleton.mpr (htrail _)⟩⟩

theorem takeWhile_isContinuation_charBytes (cs : List Char) :
    (charBytes cs).takeWhile isContinuation = [] := by
  cases cs with
  | nil => rfl
  | cons c cs =>
    obtain ⟨b, bs, hb, hlead, -⟩ := utf8EncodeChar_eq_cons c
    rw [charBytes_cons, hb, cons_append, takeWhile_cons_of_neg (by simp [hlead])]

/-- Decode the bytes of a string, each character in turn.  A byte that starts none
becomes U+FFFD. -/
def decodeChars : Nat → List UInt8 → List Char
  | 0, _ => []
  | _ + 1, [] => []
  | fuel + 1, b :: bs =>
    match ByteArray.utf8DecodeChar? (b :: bs).toByteArray 0 with
    | some c => c :: decodeChars fuel ((b :: bs).drop c.utf8Size)
    | none => Char.ofNat 0xfffd :: decodeChars fuel bs

/-- `buf.toString("utf-8")`. -/
def ofBytes (bytes : List UInt8) : JsString := ofChars (decodeChars bytes.length bytes)

theorem utf8DecodeChar_charBytes_cons (cs : List Char) :
    ByteArray.utf8DecodeChar? (charBytes (c :: cs)).toByteArray 0 = some c := by
  rw [charBytes_cons, toByteArray_append]
  exact ByteArray.utf8DecodeChar?_utf8EncodeChar_append

theorem drop_charBytes_cons (cs : List Char) :
    (charBytes (c :: cs)).drop c.utf8Size = charBytes cs := by
  rw [charBytes_cons, ← String.length_utf8EncodeChar, drop_left]

theorem decodeChars_charBytes (cs : List Char) (h : byteSize cs ≤ fuel) :
    decodeChars fuel (charBytes cs) = cs := by
  induction cs generalizing fuel with
  | nil => cases fuel <;> rfl
  | cons c cs ih =>
    obtain ⟨b, bs, hb, -, -⟩ := utf8EncodeChar_eq_cons c
    have hpos := c.utf8Size_pos
    rw [byteSize_cons] at h
    obtain ⟨fuel, rfl⟩ : ∃ f, fuel = f + 1 := ⟨fuel - 1, by omega⟩
    have hdecode := utf8DecodeChar_charBytes_cons c cs
    have hdrop := drop_charBytes_cons c cs
    rw [charBytes_cons, hb, cons_append] at hdecode hdrop ⊢
    rw [decodeChars, hdecode]
    simp only [hdrop, ih (show byteSize cs ≤ fuel by omega)]

@[simp] theorem ofBytes_charBytes (cs : List Char) : ofBytes (charBytes cs) = ofChars cs := by
  rw [ofBytes, decodeChars_charBytes cs (by simp)]

/-- The characters of bytes that are UTF-8, and none for other bytes.  A character has at
most four bytes, so no more are looked at. -/
def decodeStrict : Nat → List UInt8 → Option (List Char)
  | _, [] => some []
  | 0, _ :: _ => none
  | fuel + 1, b :: bs =>
    match ByteArray.utf8DecodeChar? ((b :: bs).take 4).toByteArray 0 with
    | some c => (decodeStrict fuel ((b :: bs).drop c.utf8Size)).map (c :: ·)
    | none => none

theorem utf8DecodeChar_take_charBytes_cons (cs : List Char) :
    ByteArray.utf8DecodeChar? ((charBytes (c :: cs)).take 4).toByteArray 0 = some c := by
  have hlen : (String.utf8EncodeChar c).length ≤ 4 := by
    rw [String.length_utf8EncodeChar]
    exact c.utf8Size_le_four
  rw [charBytes_cons, take_append, take_of_length_le hlen, toByteArray_append]
  exact ByteArray.utf8DecodeChar?_utf8EncodeChar_append

theorem decodeStrict_charBytes (cs : List Char) (h : byteSize cs ≤ fuel) :
    decodeStrict fuel (charBytes cs) = some cs := by
  induction cs generalizing fuel with
  | nil => cases fuel <;> rfl
  | cons c cs ih =>
    obtain ⟨b, bs, hb, -, -⟩ := utf8EncodeChar_eq_cons c
    have hpos := c.utf8Size_pos
    rw [byteSize_cons] at h
    obtain ⟨fuel, rfl⟩ : ∃ f, fuel = f + 1 := ⟨fuel - 1, by omega⟩
    have hdecode := utf8DecodeChar_take_charBytes_cons c cs
    have hdrop := drop_charBytes_cons c cs
    rw [charBytes_cons, hb, cons_append] at hdecode hdrop ⊢
    rw [decodeStrict, hdecode]
    simp only [hdrop, ih (show byteSize cs ≤ fuel by omega), Option.map_some]

theorem eq_charBytes_of_decodeStrict {bytes : List UInt8} (h : decodeStrict fuel bytes = some cs) :
    bytes = charBytes cs := by
  induction fuel generalizing bytes cs with
  | zero =>
    cases bytes with
    | nil => exact some.inj h ▸ rfl
    | cons b bs => cases h
  | succ fuel ih =>
    cases bytes with
    | nil => exact some.inj h ▸ rfl
    | cons b bs =>
      rw [decodeStrict] at h
      cases hdecode : ByteArray.utf8DecodeChar? ((b :: bs).take 4).toByteArray 0 with
      | none => simp only [hdecode, reduceCtorEq] at h
      | some c =>
        simp only [hdecode] at h
        obtain ⟨ds, hds, rfl⟩ := Option.map_eq_some_iff.mp h
        obtain ⟨rest, hrest⟩ := ByteArray.exists_of_utf8DecodeChar?_eq_some hdecode
        have htake : (b :: bs).take 4 = String.utf8EncodeChar c ++ rest.data.toList := by
          have hdata := congrArg (fun bytes => bytes.data.toList) hrest
          rwa [ByteArray.data_append, data_toByteArray, data_toByteArray,
            Array.toList_append] at hdata
        have hbytes : b :: bs =
            String.utf8EncodeChar c ++ (rest.data.toList ++ (b :: bs).drop 4) := by
          rw [← append_assoc, ← htake, take_append_drop]
        rw [charBytes_cons, ← ih hds, hbytes, ← String.length_utf8EncodeChar, drop_left]

/-- Bytes that go on after the bytes of some characters are those of more characters. -/
theorem extends_of_charBytes (h : charBytes ds <+: charBytes cs) : ds <+: cs := by
  induction ds generalizing cs with
  | nil => exact List.nil_prefix
  | cons d ds ih =>
    obtain ⟨rest, hrest⟩ := h
    cases cs with
    | nil =>
      obtain ⟨b, bs, hb, -, -⟩ := utf8EncodeChar_eq_cons d
      rw [charBytes_cons, hb] at hrest
      exact absurd hrest (by simp)
    | cons c cs =>
      have hc := utf8DecodeChar_charBytes_cons c cs
      rw [← hrest, charBytes_cons, append_assoc, toByteArray_append,
        ByteArray.utf8DecodeChar?_utf8EncodeChar_append] at hc
      obtain rfl := some.inj hc
      rw [charBytes_cons, charBytes_cons, append_assoc] at hrest
      obtain ⟨rest', rfl⟩ := ih ⟨rest, append_cancel_left hrest⟩
      exact ⟨rest', rfl⟩

/-! ## Cuts that keep whole characters -/

/-- The longest front part of at most `n` bytes. -/
def fitHead : Nat → List Char → List Char
  | _, [] => []
  | n, c :: cs => if c.utf8Size ≤ n then c :: fitHead (n - c.utf8Size) cs else []

/-- The longest end part of at most `n` bytes. -/
def fitTail (n : Nat) : List Char → List Char
  | [] => []
  | c :: cs => if byteSize (c :: cs) ≤ n then c :: cs else fitTail n cs

theorem byteSize_fitHead_le (n : Nat) (cs : List Char) : byteSize (fitHead n cs) ≤ n := by
  induction cs generalizing n with
  | nil => exact Nat.zero_le n
  | cons c cs ih =>
    rw [fitHead]
    split_ifs with h
    · have := ih (n - c.utf8Size)
      rw [byteSize_cons]
      omega
    · exact Nat.zero_le n

/-- Either everything fits, or the next character does not. -/
theorem fitHead_cases (n : Nat) (cs : List Char) : (fitHead n cs = cs ∧ byteSize cs ≤ n) ∨
      ∃ c rest, cs = fitHead n cs ++ c :: rest ∧ n < byteSize (fitHead n cs) + c.utf8Size := by
  induction cs generalizing n with
  | nil => exact .inl ⟨rfl, Nat.zero_le n⟩
  | cons c cs ih =>
    rw [fitHead]
    split_ifs with h
    · rcases ih (n - c.utf8Size) with ⟨hall, hsize⟩ | ⟨d, rest, hsplit, hsize⟩
      · left
        rw [hall, byteSize_cons]
        exact ⟨rfl, by omega⟩
      · right
        refine ⟨d, rest, by rw [cons_append, ← hsplit], ?_⟩
        rw [byteSize_cons]
        omega
    · right
      exact ⟨c, cs, rfl, by simpa using h⟩

theorem fitHead_of_le (h : byteSize cs ≤ n) : fitHead n cs = cs := by
  rcases fitHead_cases n cs with ⟨hall, -⟩ | ⟨c, rest, hsplit, hsize⟩
  · exact hall
  · have := congrArg byteSize hsplit
    simp only [byteSize_append, byteSize_cons] at this
    omega

theorem fitHead_append (n : Nat) (cs ds : List Char) : fitHead n (cs ++ ds) =
      if byteSize cs ≤ n then cs ++ fitHead (n - byteSize cs) ds else fitHead n cs := by
  induction cs generalizing n with
  | nil => simp
  | cons c cs ih =>
    rw [cons_append, fitHead, fitHead, byteSize_cons, ih]
    by_cases hc : c.utf8Size ≤ n
    · by_cases hcs : byteSize cs ≤ n - c.utf8Size
      · rw [if_pos hc, if_pos hcs, if_pos (by omega), Nat.sub_sub, cons_append]
      · rw [if_pos hc, if_neg hcs, if_neg (by omega), if_pos hc]
    · rw [if_neg hc, if_neg (by omega), if_neg hc]

/-- A room of less than the next character's bytes takes nothing. -/
theorem fitHead_cons_of_lt {c : Char} (h : n < c.utf8Size) (cs : List Char) :
    fitHead n (c :: cs) = [] := by
  rw [fitHead, if_neg (by omega)]

theorem fitTail_of_le (h : byteSize cs ≤ n) : fitTail n cs = cs := by
  cases cs with
  | nil => rfl
  | cons c cs => rw [fitTail, if_pos h]

theorem byteSize_fitTail_le (n : Nat) (cs : List Char) : byteSize (fitTail n cs) ≤ n := by
  induction cs with
  | nil => exact Nat.zero_le n
  | cons c cs ih =>
    rw [fitTail]
    split_ifs with h
    · exact h
    · exact ih

/-- Either everything fits, or the character before does not. -/
theorem fitTail_cases (n : Nat) (cs : List Char) : (fitTail n cs = cs ∧ byteSize cs ≤ n) ∨
      ∃ front c, cs = front ++ c :: fitTail n cs ∧ n < c.utf8Size + byteSize (fitTail n cs) := by
  induction cs with
  | nil => exact .inl ⟨rfl, Nat.zero_le n⟩
  | cons c cs ih =>
    rw [fitTail]
    split_ifs with h
    · exact .inl ⟨rfl, h⟩
    · right
      rcases ih with ⟨hall, hsize⟩ | ⟨front, d, hsplit, hsize⟩
      · refine ⟨[], c, by rw [hall]; rfl, ?_⟩
        rw [hall]
        rw [byteSize_cons] at h
        omega
      · refine ⟨c :: front, d, ?_, hsize⟩
        rw [cons_append, ← hsplit]

theorem fitTail_suffix (n : Nat) (cs : List Char) : fitTail n cs <:+ cs := by
  rcases fitTail_cases n cs with ⟨hall, -⟩ | ⟨front, c, hsplit, -⟩
  · exact hall.symm ▸ suffix_rfl
  · exact ⟨front ++ [c], by rw [append_assoc, singleton_append, ← hsplit]⟩

/-- What stands before an end part that already fills the room is dropped. -/
theorem fitTail_append_of_le (h : n ≤ byteSize ds) (cs : List Char) :
    fitTail n (cs ++ ds) = fitTail n ds := by
  induction cs with
  | nil => rfl
  | cons c cs ih =>
    have := c.utf8Size_pos
    rw [cons_append, fitTail, if_neg, ih]
    rw [byteSize_cons, byteSize_append]
    omega

end JsString
end GajaeCode
