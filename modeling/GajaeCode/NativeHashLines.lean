import GajaeCode.HashlineHash

/-! # Native hashline formatting

`crates/pi-natives/src/hashline.rs`.  `read` output is formatted by this function when the
native addon is loaded and by `formatHashLines` when it is not, so the two must write the same
bytes.  The native side trims before it drops carriage returns, encodes UTF-8 by hand, keeps
its own bigram table and counts lines in `u32`.

Three facts make that the same: trailing white space includes the carriage return, so trimming
and dropping commute (`trimEnd_filter_CR`); on well-formed UTF-16 the hand-written encoder is
UTF-8 (`pushJsUtf8WithoutCr_eq`); and below 2³² the line counter never saturates.
-/
namespace GajaeCode
open JsString List Nat

namespace NativeHashLines
variable {u : UInt16} {line : List UInt16}
variable (xxh32 : List UInt8 → UInt32)

/-- `HL_BIGRAMS` of the native crate. -/
def hlBigrams : List String :=
  letters.flatMap fun first =>
    let absent := match first with
      | 'b' | 'l' | 'n' | 't' | 'y' => "q"
      | 'g' => "kq"
      | 'j' => "vz"
      | 'k' | 'w' => "qz"
      | 'q' => "fgjkvz"
      | 'r' => "j"
      | 'x' => "gjkqvw"
      | 'z' => "jqv"
      | _ => ""
    (letters.filter (· ∉ absent.toList)).map fun second => String.ofList [first, second]

def isJsTrimEndWhitespace (unit : UInt16) : Bool :=
  unit == 0x0009 || unit == 0x000a || unit == 0x000b || unit == 0x000c || unit == 0x000d ||
  unit == 0x0020 || unit == 0x00a0 || unit == 0x1680 || (0x2000 ≤ unit && unit ≤ 0x200a) ||
  unit == 0x2028 || unit == 0x2029 || unit == 0x202f || unit == 0x205f || unit == 0x3000 ||
  unit == 0xfeff

/-- A tag byte with a field of the code point below it. -/
def tagged16 (tag field : UInt16) : UInt8 := (tag ||| field).toUInt8

/-- `tagged16` for the `u32` scalar of a surrogate pair. -/
def tagged32 (tag field : UInt32) : UInt8 := (tag ||| field).toUInt8

def pushUtf8CodeUnit (unit : UInt16) : List UInt8 :=
  if unit < 0x80 then
    [unit.toUInt8]
  else if unit < 0x800 then
    [tagged16 0xc0 (unit >>> 6), tagged16 0x80 (unit &&& 0x3f)]
  else
    [tagged16 0xe0 (unit >>> 12), tagged16 0x80 ((unit >>> 6) &&& 0x3f),
      tagged16 0x80 (unit &&& 0x3f)]

/-- The scalar value `push_js_utf8_without_cr` computes for a surrogate pair. -/
def pairScalar (unit next : UInt16) : UInt32 :=
  (0x10000 : UInt32) + (((unit - 0xd800).toUInt32 <<< 10) ||| (next - 0xdc00).toUInt32)

/-- The four bytes of a surrogate pair in `push_js_utf8_without_cr`. -/
def pushSurrogatePair (unit next : UInt16) : List UInt8 :=
  let scalar := pairScalar unit next
  [tagged32 0xf0 (scalar >>> 18), tagged32 0x80 ((scalar >>> 12) &&& 0x3f),
    tagged32 0x80 ((scalar >>> 6) &&& 0x3f), tagged32 0x80 (scalar &&& 0x3f)]

/-- The bytes of a unit that starts no pair. -/
def pushLoneUnit (unit : UInt16) : List UInt8 :=
  if 0xd800 ≤ unit && unit ≤ 0xdfff then [0xef, 0xbf, 0xbd] else pushUtf8CodeUnit unit

def pushJsUtf8WithoutCr : List UInt16 → List UInt8
  | [] => []
  | [unit] => if unit == CR then [] else pushLoneUnit unit
  | unit :: next :: rest =>
      if unit == CR then
        pushJsUtf8WithoutCr (next :: rest)
      else if (0xd800 ≤ unit && unit ≤ 0xdbff) && (0xdc00 ≤ next && next ≤ 0xdfff) then
        pushSurrogatePair unit next ++ pushJsUtf8WithoutCr rest
      else
        pushLoneUnit unit ++ pushJsUtf8WithoutCr (next :: rest)

variable (xxh32 : List UInt8 → UInt32)

def hashLine (line : List UInt16) : JsString :=
  let scratch := pushJsUtf8WithoutCr (line.rdropWhile isJsTrimEndWhitespace)
  js (hlBigrams.getD ((xxh32 scratch).toNat % hlBigrams.length) "")

/-- The digits `push_decimal` collects, least significant first.  `fuel` is the
room left in `buf`. -/
def decimalBuf : Nat → UInt32 → List UInt16
  | 0, _ => []
  | fuel + 1, value =>
      let digit := 0x0030 + (value % 10).toUInt16
      if value / 10 == 0 then [digit] else digit :: decimalBuf fuel (value / 10)

def pushDecimal (value : UInt32) : List UInt16 := (decimalBuf 10 value).reverse

def pushHashline (lineNumber : UInt32) (line : List UInt16) : List UInt16 :=
  pushDecimal lineNumber ++ hashLine xxh32 line ++ [0x007c] ++ line

/-- `u32::saturating_add(1)`. -/
def saturatingSucc (n : UInt32) : UInt32 := if n == 0xffffffff then n else n + 1

/-- The loop variables of `h06_format_hash_lines`. -/
structure Cursor where
  lineNumber : UInt32
  lineStart : Nat
  out : List UInt16

/-- One iteration, at `index`. -/
def formatUnit (text : List UInt16) (c : Cursor) (unit : UInt16 × Nat) : Cursor :=
  if unit.1 == LF then
    { lineNumber := saturatingSucc c.lineNumber
      lineStart := unit.2 + 1
      out := c.out ++
        pushHashline xxh32 c.lineNumber ((text.take unit.2).drop c.lineStart) ++ [LF] }
  else c

/-- `h06_format_hash_lines`, on the units N-API hands over. -/
def h06FormatHashLines (textU16 : List UInt16) (startLine : Option UInt32) : List UInt16 :=
  let text := if textU16.getLast? == some 0 then textU16.dropLast else textU16
  let c := text.zipIdx.foldl (formatUnit xxh32 text) ⟨startLine.getD 1, 0, []⟩
  c.out ++ pushHashline xxh32 c.lineNumber (text.drop c.lineStart)

/-! ## The encoder is UTF-8 -/

theorem isJsTrimEndWhitespace_eq : isJsTrimEndWhitespace = isWhitespace := rfl

/-- A tag is a multiple of a power of two, and a field below that power is added
to it without carry. -/
theorem tagged16_eq {i a : Nat} {tag field : UInt16} (htag : tag.toNat = 2 ^ i * a)
    (hfield : field.toNat < 2 ^ i) :
    tagged16 tag field = UInt8.ofNat (field.toNat + tag.toNat) := by
  apply UInt8.toNat_inj.mp
  rw [tagged16, UInt16.toNat_toUInt8, UInt16.toNat_or, htag, UInt8.toNat_ofNat',
    ← two_pow_add_eq_or_of_lt hfield a, add_comm]

theorem tagged32_eq {i a : Nat} {tag field : UInt32} (htag : tag.toNat = 2 ^ i * a)
    (hfield : field.toNat < 2 ^ i) :
    tagged32 tag field = UInt8.ofNat (field.toNat + tag.toNat) := by
  apply UInt8.toNat_inj.mp
  rw [tagged32, UInt32.toNat_toUInt8, UInt32.toNat_or, htag, UInt8.toNat_ofNat',
    ← two_pow_add_eq_or_of_lt hfield a, add_comm]

theorem tagged16_tail (u : UInt16) :
    tagged16 0x80 (u &&& 0x3f) = UInt8.ofNat (u.toNat % 64 + 128) := by
  have hand : (u &&& 0x3f).toNat = u.toNat % 64 := by
    rw [UInt16.toNat_and]
    exact and_two_pow_sub_one_eq_mod _ 6
  rw [tagged16_eq (i := 7) (a := 1) rfl (by omega), hand]
  rfl

theorem tagged32_tail (u : UInt32) :
    tagged32 0x80 (u &&& 0x3f) = UInt8.ofNat (u.toNat % 64 + 128) := by
  have hand : (u &&& 0x3f).toNat = u.toNat % 64 := by
    rw [UInt32.toNat_and]
    exact and_two_pow_sub_one_eq_mod _ 6
  rw [tagged32_eq (i := 7) (a := 1) rfl (by omega), hand]
  rfl

theorem char_ofNat_val {n : Nat} (h : n < 0xd800 ∨ 0xdfff < n ∧ n < 0x110000) :
    (Char.ofNat n).val.toNat = n := by
  rw [Char.ofNat, dif_pos h]
  rfl

/-- Outside the surrogates the hand-written encoder is UTF-8. -/
theorem pushUtf8CodeUnit_eq (hu : ¬ (0xd800 ≤ u ∧ u ≤ 0xdfff)) :
    pushUtf8CodeUnit u = String.utf8EncodeChar (Char.ofNat u.toNat) := by
  have hlt : u.toNat < 65536 := u.toNat_lt
  simp only [UInt16.le_iff_toNat_le, UInt16.reduceToNat] at hu
  have hval := char_ofNat_val (n := u.toNat) (by omega)
  have h6 : (u >>> 6).toNat = u.toNat / 64 := by simp [shiftRight_eq_div_pow]
  have h12 : (u >>> 12).toNat = u.toNat / 4096 := by simp [shiftRight_eq_div_pow]
  simp only [pushUtf8CodeUnit, String.utf8EncodeChar, UInt16.lt_iff_toNat_lt, UInt16.reduceToNat,
    hval]
  by_cases h7 : u.toNat < 128
  · have h7' : u.toNat ≤ 127 := by omega
    rw [if_pos h7, if_pos h7']
    rfl
  have h7' : ¬ u.toNat ≤ 127 := by omega
  rw [if_neg h7, if_neg h7']
  by_cases h11 : u.toNat < 2048
  · have h11' : u.toNat ≤ 2047 := by omega
    rw [if_pos h11, if_pos h11', tagged16_tail, tagged16_eq (i := 6) (a := 3) rfl (by omega), h6,
      mod_eq_of_lt (show u.toNat / 64 < 32 by omega)]
    rfl
  · have h11' : ¬ u.toNat ≤ 2047 := by omega
    have h16 : u.toNat ≤ 65535 := by omega
    rw [if_neg h11, if_neg h11', if_pos h16, tagged16_tail, tagged16_tail,
      tagged16_eq (i := 5) (a := 7) rfl (by omega), h12, h6,
      mod_eq_of_lt (show u.toNat / 4096 < 16 by omega)]
    rfl

section
variable {v : UInt16} (hu : isHighSurrogate u = true) (hv : isLowSurrogate v = true)
include hu hv

theorem pairScalar_toNat :
    (pairScalar u v).toNat = 0x10000 + (u.toNat - 0xd800) * 0x400 + (v.toNat - 0xdc00) := by
  simp only [isHighSurrogate, isLowSurrogate, Bool.and_eq_true, decide_eq_true_eq,
    UInt16.le_iff_toNat_le, UInt16.reduceToNat] at hu hv
  have hhigh : (u - 0xd800).toNat = u.toNat - 0xd800 :=
    UInt16.toNat_sub_of_le _ _ (UInt16.le_iff_toNat_le.mpr hu.1)
  have hlow : (v - 0xdc00).toNat = v.toNat - 0xdc00 :=
    UInt16.toNat_sub_of_le _ _ (UInt16.le_iff_toNat_le.mpr hv.1)
  have hor : (((u - 0xd800).toUInt32 <<< 10) ||| (v - 0xdc00).toUInt32).toNat =
      2 ^ 10 * (u.toNat - 0xd800) + (v.toNat - 0xdc00) := by
    rw [UInt32.toNat_or, UInt32.toNat_shiftLeft, UInt16.toNat_toUInt32, UInt16.toNat_toUInt32,
      hhigh, hlow, show (10 : UInt32).toNat % 32 = 10 from rfl, shiftLeft_eq,
      mod_eq_of_lt (by omega), mul_comm, ← two_pow_add_eq_or_of_lt (by omega)]
  rw [pairScalar, UInt32.toNat_add, hor, show (0x10000 : UInt32).toNat = 0x10000 from rfl,
    mod_eq_of_lt (by omega)]
  omega

theorem pushSurrogatePair_eq : pushSurrogatePair u v = String.utf8EncodeChar (pairChar u v) := by
  have hs := pairScalar_toNat hu hv
  simp only [isHighSurrogate, isLowSurrogate, Bool.and_eq_true, decide_eq_true_eq,
    UInt16.le_iff_toNat_le, UInt16.reduceToNat] at hu hv
  have hval : (pairChar u v).val.toNat = (pairScalar u v).toNat := by
    rw [hs, pairChar, char_ofNat_val (by omega)]
  have h6 : (pairScalar u v >>> 6).toNat = (pairScalar u v).toNat / 64 := by
    simp [shiftRight_eq_div_pow]
  have h12 : (pairScalar u v >>> 12).toNat = (pairScalar u v).toNat / 4096 := by
    simp [shiftRight_eq_div_pow]
  have h18 : (pairScalar u v >>> 18).toNat = (pairScalar u v).toNat / 262144 := by
    simp [shiftRight_eq_div_pow]
  have hbig : ¬ (pairScalar u v).toNat ≤ 65535 := by omega
  simp only [pushSurrogatePair, String.utf8EncodeChar, hval]
  rw [if_neg (show ¬ (pairScalar u v).toNat ≤ 127 by omega),
    if_neg (show ¬ (pairScalar u v).toNat ≤ 2047 by omega), if_neg hbig,
    tagged32_tail, tagged32_tail, tagged32_tail, tagged32_eq (i := 4) (a := 15) rfl (by omega),
    h6, h12, h18, mod_eq_of_lt (show (pairScalar u v).toNat / 262144 < 8 by omega)]
  rfl

end

theorem pushLoneUnit_eq (hu : IsScalarUnit u) :
    pushLoneUnit u = String.utf8EncodeChar (unitChar u) := by
  have hrange : ¬ (0xd800 ≤ u ∧ u ≤ 0xdfff) := by
    simp only [IsScalarUnit, isHighSurrogate, isLowSurrogate, Bool.and_eq_false_iff,
      decide_eq_false_iff_not, UInt16.le_iff_toNat_le, UInt16.reduceToNat] at hu ⊢
    omega
  rw [pushLoneUnit, if_neg (by simpa using hrange), pushUtf8CodeUnit_eq hrange, unitChar,
    if_neg (by simp [hu.1, hu.2])]

theorem ne_CR_of_isHighSurrogate (h : isHighSurrogate u = true) : (u == CR) = false := by
  rw [beq_eq_false_iff_ne]
  rintro rfl
  exact absurd h (by decide)

theorem ne_CR_of_isLowSurrogate (h : isLowSurrogate u = true) : (u == CR) = false := by
  rw [beq_eq_false_iff_ne]
  rintro rfl
  exact absurd h (by decide)

/-- **On well-formed UTF-16 the native encoder is UTF-8 of the line without its
carriage returns.** -/
theorem pushJsUtf8WithoutCr_eq (h : WellFormed line) :
    pushJsUtf8WithoutCr line = utf8 (line.filter (· != CR)) := by
  induction line using WellFormed.induct with
  | case1 => rfl
  | case2 u =>
    by_cases hcr : u = CR
    · simp [pushJsUtf8WithoutCr, hcr, utf8, codePoints]
    · have hpush : pushJsUtf8WithoutCr [u] = pushLoneUnit u := by simp [pushJsUtf8WithoutCr, hcr]
      rw [hpush, pushLoneUnit_eq h]
      simp [hcr, utf8, codePoints]
  | case3 u v rest ih ih' =>
    rcases h with ⟨hu, hv, hrest⟩ | ⟨hu, hlow, hrest⟩
    · have hpush : pushJsUtf8WithoutCr (u :: v :: rest) =
          pushSurrogatePair u v ++ pushJsUtf8WithoutCr rest := by
        rw [pushJsUtf8WithoutCr, if_neg (by simp [ne_CR_of_isHighSurrogate hu]), if_pos]
        simpa [isHighSurrogate, isLowSurrogate] using And.intro hu hv
      have hfilter : (u :: v :: rest).filter (· != CR) = u :: v :: rest.filter (· != CR) := by
        simp [bne, ne_CR_of_isHighSurrogate hu, ne_CR_of_isLowSurrogate hv]
      rw [hpush, hfilter, ih hrest, pushSurrogatePair_eq hu hv]
      simp [utf8, codePoints, hu, hv]
    · by_cases hcr : u = CR
      · rw [pushJsUtf8WithoutCr, if_pos (by simp [hcr]), ih' hrest]
        simp [hcr]
      · have hpush : pushJsUtf8WithoutCr (u :: v :: rest) =
            pushLoneUnit u ++ pushJsUtf8WithoutCr (v :: rest) := by
          rw [pushJsUtf8WithoutCr, if_neg (by simp [hcr]), if_neg]
          intro hpair
          rw [Bool.and_eq_true] at hpair
          exact absurd hu (by simpa [isHighSurrogate] using hpair.1)
        have hfilter : (u :: v :: rest).filter (· != CR) = u :: (v :: rest).filter (· != CR) := by
          rw [filter_cons, if_pos (by simpa using hcr)]
        rw [hpush, hfilter, ih' hrest, pushLoneUnit_eq ⟨hu, hlow⟩, utf8, utf8, codePoints_cons hu,
          flatMap_cons]

/-- The native side hashes the bytes the editor hashes. -/
theorem hashLine_eq (n : Nat) (h : WellFormed line) :
    hashLine xxh32 line = computeLineHash xxh32 n line := by
  have hCR : ∀ u : UInt16, (u != CR) = false → isWhitespace u = true := by
    intro u hu
    obtain rfl : u = CR := by simpa using hu
    decide
  have hbytes : pushJsUtf8WithoutCr (line.rdropWhile isJsTrimEndWhitespace) = hashedBytes line := by
    rw [isJsTrimEndWhitespace_eq, show line.rdropWhile isWhitespace = trimEnd line from rfl,
      pushJsUtf8WithoutCr_eq (wellFormed_trimEnd h), hashedBytes, trimEnd_filter hCR]
  have htable : ∀ k, js (hlBigrams.getD k "") = GajaeCode.hlBigrams.getD k [] := fun k =>
    (getD_map _ "" js).symm
  have hlen : hlBigrams.length = GajaeCode.hlBigrams.length := (length_map _).symm
  rw [hashLine, hbytes, htable, computeLineHash, hlen]

theorem digit_eq (value : UInt32) :
    (0x0030 : UInt16) + (value % 10).toUInt16 = digitUnit (value.toNat % 10) := by
  have hmod : (value % 10).toUInt16 = UInt16.ofNat (value.toNat % 10) := by
    apply UInt16.toNat_inj.mp
    rw [UInt32.toNat_toUInt16, UInt32.toNat_mod, UInt16.toNat_ofNat']
    rfl
  rw [hmod, digitUnit]

theorem decimalBuf_reverse (fuel : Nat) {value : UInt32} (h : value.toNat < 10 ^ (fuel + 1)) :
    (decimalBuf (fuel + 1) value).reverse = ofNat value.toNat := by
  induction fuel generalizing value with
  | zero =>
    have hdiv : (value / 10 == 0) = true := by
      rw [beq_iff_eq, ← UInt32.toNat_inj, UInt32.toNat_div]
      exact div_eq_of_lt h
    rw [decimalBuf, if_pos hdiv, digit_eq, ofNat_of_lt (by omega), mod_eq_of_lt (by omega)]
    rfl
  | succ fuel ih =>
    have hquot : (value / 10).toNat = value.toNat / 10 := UInt32.toNat_div _ _
    rw [decimalBuf]
    by_cases hsmall : value.toNat < 10
    · have hdiv : (value / 10 == 0) = true := by
        rw [beq_iff_eq, ← UInt32.toNat_inj, hquot]
        exact div_eq_of_lt hsmall
      rw [if_pos hdiv, digit_eq, ofNat_of_lt hsmall, mod_eq_of_lt hsmall]
      rfl
    · have hdiv : ¬ (value / 10 == 0) = true := by
        rw [beq_iff_eq, ← UInt32.toNat_inj, hquot, show (0 : UInt32).toNat = 0 from rfl]
        omega
      rw [if_neg hdiv, digit_eq, reverse_cons, ih (by rw [hquot]; omega), hquot, ofNat_of_ge hsmall]

theorem pushDecimal_eq (value : UInt32) : pushDecimal value = ofNat value.toNat :=
  decimalBuf_reverse 9 (lt_of_lt_of_le value.toNat_lt (by decide))

/-- **One line**: the two formatters agree on it. -/
theorem pushHashline_eq (n : UInt32) (h : WellFormed line) :
    pushHashline xxh32 n line = formatHashLine xxh32 n.toNat line := by
  rw [pushHashline, formatHashLine, pushDecimal_eq, hashLine_eq xxh32 n.toNat h]
  rfl

/-! ## The loop -/

theorem saturatingSucc_toNat {n : UInt32} (h : n.toNat + 1 < 2 ^ 32) :
    (saturatingSucc n).toNat = n.toNat + 1 := by
  have hne : ¬ (n == 0xffffffff) = true := by
    rw [beq_iff_eq, ← UInt32.toNat_inj]
    intro hmax
    rw [hmax] at h
    exact absurd h (by decide)
  rw [saturatingSucc, if_neg hne, UInt32.toNat_add]
  exact mod_eq_of_lt h

/-- The lines of `formatHashLines`, numbered from `n`. -/
def formatFrom (xxHash32 : List UInt8 → UInt32) (n : Nat) (ls : List JsString) : JsString :=
  unlines (ls.mapIdx (fun i line => formatHashLine xxHash32 (n + i) line))

theorem formatFrom_singleton (xxHash32 : List UInt8 → UInt32) (n : Nat) (l : JsString) :
    formatFrom xxHash32 n [l] = formatHashLine xxHash32 n l := by
  simp [formatFrom]

theorem formatFrom_cons (xxHash32 : List UInt8 → UInt32) (n : Nat) (l : JsString)
    {ls : List JsString} (h : ls ≠ []) : formatFrom xxHash32 n (l :: ls) =
      formatHashLine xxHash32 n l ++ LF :: formatFrom xxHash32 (n + 1) ls := by
  have hne : ls.mapIdx (fun i line => formatHashLine xxHash32 (n + (i + 1)) line) ≠ [] := by
    simpa using h
  rw [formatFrom, mapIdx_cons, unlines_cons_of_ne_nil _ hne, formatFrom]
  simp only [add_zero, add_assoc, add_comm 1]

/-- What the function writes from cursor `c`, with `units` still to visit. -/
def formatRest (text : List UInt16) (c : Cursor) (units : List (UInt16 × Nat)) : List UInt16 :=
  let c' := units.foldl (formatUnit xxh32 text) c
  c'.out ++ pushHashline xxh32 c'.lineNumber (text.drop c'.lineStart)

/-- The loop invariant.  The cursor stands after `before ++ line`, with `line`
the part of the current line already seen; what is still to be written is
the formatted form of `line ++ todo`. -/
theorem formatRest_eq (before line todo : List UInt16) (c : Cursor)
    (hstart : c.lineStart = before.length) (hline : LF ∉ line)
    (hwf : ∀ l ∈ lines (line ++ todo), WellFormed l)
    (hcount : c.lineNumber.toNat + (lines (line ++ todo)).length ≤ 2 ^ 32) :
    formatRest xxh32 (before ++ line ++ todo) c (todo.zipIdx (before.length + line.length)) =
      c.out ++ formatFrom xxh32 c.lineNumber.toNat (lines (line ++ todo)) := by
  induction todo generalizing before line c with
  | nil =>
    simp only [append_nil, lines_of_not_mem hline] at hwf ⊢
    rw [zipIdx_nil, formatRest, foldl_nil, hstart, drop_left,
      pushHashline_eq xxh32 _ (hwf line (by simp)), formatFrom_singleton]
  | cons u todo ih =>
    rw [zipIdx_cons]
    by_cases hu : u = LF
    · subst hu
      rw [lines_append_LF, lines_of_not_mem hline, singleton_append] at hwf hcount ⊢
      have hrest : lines todo ≠ [] := lines_ne_nil todo
      have hlen : 0 < (lines todo).length := length_pos_iff.mpr hrest
      rw [length_cons] at hcount
      have hsucc := saturatingSucc_toNat (n := c.lineNumber) (by omega)
      have hstep : formatUnit xxh32 (before ++ line ++ LF :: todo) c
          (LF, before.length + line.length) =
          ⟨saturatingSucc c.lineNumber, (before ++ line ++ [LF]).length,
            c.out ++ pushHashline xxh32 c.lineNumber line ++ [LF]⟩ := by
        rw [formatUnit, if_pos (by simp), hstart, ← length_append, take_left, drop_left,
          show (before ++ line ++ [LF]).length = (before ++ line).length + 1 from length_append]
      have key := ih (before ++ line ++ [LF]) []
        ⟨saturatingSucc c.lineNumber, (before ++ line ++ [LF]).length,
          c.out ++ pushHashline xxh32 c.lineNumber line ++ [LF]⟩
        rfl (by simp) (fun l hl => hwf l (mem_cons_of_mem _ hl))
        (by simp only [nil_append]; omega)
      rw [show before ++ line ++ [LF] ++ [] ++ todo = before ++ line ++ LF :: todo by simp,
        show (before ++ line ++ [LF]).length + ([] : List UInt16).length =
          before.length + line.length + 1 by simp; omega] at key
      calc formatRest xxh32 (before ++ line ++ LF :: todo) c
            ((LF, before.length + line.length) :: todo.zipIdx (before.length + line.length + 1))
          = formatRest xxh32 (before ++ line ++ LF :: todo)
              (formatUnit xxh32 (before ++ line ++ LF :: todo) c (LF, before.length + line.length))
              (todo.zipIdx (before.length + line.length + 1)) := rfl
        _ = c.out ++ pushHashline xxh32 c.lineNumber line ++ [LF] ++
              formatFrom xxh32 (saturatingSucc c.lineNumber).toNat (lines todo) := by
            rw [hstep, key, nil_append]
        _ = c.out ++ formatFrom xxh32 c.lineNumber.toNat (line :: lines todo) := by
            rw [formatFrom_cons _ _ _ hrest, hsucc, pushHashline_eq xxh32 _ (hwf line (by simp))]
            simp
    · have key := ih before (line ++ [u]) c hstart (by simpa using ⟨hline, fun h => hu h.symm⟩)
        (by simpa using hwf) (by simpa using hcount)
      have hstep : formatUnit xxh32 (before ++ line ++ u :: todo) c
          (u, before.length + line.length) = c := by
        rw [formatUnit, if_neg (by simpa using hu)]
      rw [show before ++ (line ++ [u]) ++ todo = before ++ line ++ u :: todo by simp,
        show before.length + (line ++ [u]).length = before.length + line.length + 1 by simp; omega,
        show line ++ [u] ++ todo = line ++ u :: todo by simp] at key
      rw [← key, formatRest, foldl_cons, hstep]
      rfl

/-- **The two hashline formatters write the same string.**  `intoUtf16` is
N-API's conversion, which exposes one synthetic trailing NUL. -/
theorem h06FormatHashLines_eq_formatHashLines (xxHash32 : List UInt8 → UInt32)
    (intoUtf16 : JsString → List UInt16) (hnul : ∀ s, intoUtf16 s = s ++ [0])
    (text : JsString) (startLine : Nat) (hwf : WellFormed text)
    (hcount : startLine + (lines text).length < 2 ^ 32) :
    h06FormatHashLines xxHash32 (intoUtf16 text) (some (UInt32.ofNat startLine)) =
      formatHashLines xxHash32 text startLine := by
  have hstart : (UInt32.ofNat startLine).toNat = startLine :=
    UInt32.toNat_ofNat_of_lt' (by rw [UInt32.size]; omega)
  have htext : (if (intoUtf16 text).getLast? == some 0 then (intoUtf16 text).dropLast
      else intoUtf16 text) = text := by
    rw [hnul]
    simp
  have hloop := formatRest_eq xxHash32 [] [] text ⟨UInt32.ofNat startLine, 0, []⟩ rfl
    (by simp) (fun l hl => wellFormed_of_mem_lines hwf hl)
    (by simp only [hstart, nil_append]; omega)
  simp only [nil_append, length_nil, add_zero, hstart] at hloop
  rw [h06FormatHashLines, htext]
  exact hloop

/-- The two formatters on a line with an astral character, an inner carriage
return and trailing white space. -/
theorem h06FormatHashLines_witness : WellFormed (js "ab\rc \r" ++ [0xd83d, 0xde00, LF]) ∧
    h06FormatHashLines Xxh32.xxh32 ((js "ab\rc \r" ++ [0xd83d, 0xde00, LF]) ++ [0])
        (some (UInt32.ofNat 41)) =
      formatHashLines Xxh32.xxh32 (js "ab\rc \r" ++ [0xd83d, 0xde00, LF]) 41 := by
  have hwf : WellFormed (js "ab\rc \r" ++ [0xd83d, 0xde00, LF]) := by
    simp [WellFormed, js, isHighSurrogate, isLowSurrogate]
    decide
  exact ⟨hwf, h06FormatHashLines_eq_formatHashLines Xxh32.xxh32 (fun s => s ++ [0])
    (fun _ => rfl) _ 41 hwf (by decide)⟩

end NativeHashLines
end GajaeCode
