import GajaeCode.JsString

/-! # JSON values and their text

The values `JSON.stringify` can be given, `undefined` among them, and the text it writes.  An
object is its list of fields in the order in which JavaScript lists own keys: array indices
ascending, then the other keys as they were first set.

Numbers are a parameter: `JsNumber` lists how they are written and read, a few tests, and that
reading back what was written changes nothing but the sign of zero.

What is left of a value after it was written and read back (`asJson`) can be said without any
text: fields that are `undefined` are gone, an `undefined` item is `null`, and so is a number
that is not finite.
-/
namespace GajaeCode
open List

inductive NumeralState where
  | start | minus | zero | int | point | frac | exp | expSign | expDigits
  deriving DecidableEq

namespace NumeralState
open JsString

/-- One more unit of a numeral, or none if it does not belong to it. -/
def step : NumeralState → CodeUnit → Option NumeralState
  | start, u =>
    if u = 0x002d then some minus
    else if u = 0x0030 then some zero else if isDigit u then some int else none
  | minus, u => if u = 0x0030 then some zero else if isDigit u then some int else none
  | zero, u =>
    if u = 0x002e then some point else if u = 0x0065 ∨ u = 0x0045 then some exp else none
  | int, u =>
    if isDigit u then some int
    else if u = 0x002e then some point else if u = 0x0065 ∨ u = 0x0045 then some exp else none
  | point, u => if isDigit u then some frac else none
  | frac, u =>
    if isDigit u then some frac else if u = 0x0065 ∨ u = 0x0045 then some exp else none
  | exp, u =>
    if u = 0x002b ∨ u = 0x002d then some expSign else if isDigit u then some expDigits else none
  | expSign, u => if isDigit u then some expDigits else none
  | expDigits, u => if isDigit u then some expDigits else none

/-- Whether the units read so far are a whole numeral. -/
def complete : NumeralState → Bool
  | zero | int | frac | expDigits => true
  | _ => false

/-- The units a numeral is made of. -/
def unitOk (u : CodeUnit) : Bool :=
  isDigit u || u == 0x002b || u == 0x002d || u == 0x002e || u == 0x0065 || u == 0x0045

theorem unitOk_of_step {q q' : NumeralState} {u : CodeUnit} (h : q.step u = some q') :
    unitOk u = true := by
  unfold unitOk
  by_contra hu
  simp only [Bool.not_eq_true, Bool.or_eq_false_iff, beq_eq_false_iff_ne] at hu
  obtain ⟨⟨⟨⟨⟨hdigit, hplus⟩, hminus⟩, hpoint⟩, he⟩, hE⟩ := hu
  have hzero : u ≠ 0x0030 := by
    rintro rfl
    exact absurd hdigit (by decide)
  cases q <;> simp [step, hdigit, hplus, hminus, hpoint, he, hE, hzero] at h

end NumeralState

def IsNumeral (s : JsString) : Prop :=
  ∃ q, s.foldlM NumeralState.step NumeralState.start = some q ∧ q.complete = true

/-- The numbers of JavaScript, as far as JSON and the tests of the modelled programs go. -/
class JsNumber (N : Type) where
  /-- The number 1. -/
  one : N
  isFinite : N → Bool
  /-- `Number.isSafeInteger`. -/
  isSafeInteger : N → Bool
  /-- Zero and `NaN`. -/
  isFalsy : N → Bool
  /-- `n > 1`. -/
  exceedsOne : N → Bool
  /-- `String(n)`. -/
  text : N → JsString
  /-- The number a numeral denotes. -/
  read : JsString → N
  isFinite_one : isFinite one = true
  isFinite_of_isSafeInteger : ∀ n, isSafeInteger n = true → isFinite n = true
  exceedsOne_one : exceedsOne one = false
  read_text_one : read (text one) = one
  isNumeral_text : ∀ n, isFinite n = true → IsNumeral (text n)
  isFinite_read_text : ∀ n, isFinite n = true → isFinite (read (text n)) = true
  text_read_text : ∀ n, isFinite n = true → text (read (text n)) = text n
  isSafeInteger_read_text : ∀ n, isFinite n = true →
    isSafeInteger (read (text n)) = isSafeInteger n
  isFalsy_read_text : ∀ n, isFinite n = true → isFalsy (read (text n)) = isFalsy n
  exceedsOne_read_text : ∀ n, isFinite n = true → exceedsOne (read (text n)) = exceedsOne n

/-- A value of JavaScript that is made of data only. -/
inductive JsValue (N : Type) where
  | undefined
  | null
  | boolean (b : Bool)
  | number (n : N)
  | string (s : JsString)
  | array (items : List (JsValue N))
  | object (fields : List (JsString × JsValue N))

/-- The own fields of an object, in the order of its keys. -/
abbrev JsFields (N : Type) := List (JsString × JsValue N)

namespace JsValue
variable {N : Type}
variable {v : JsValue N}

/-- Induction over a value, with a hypothesis for every item and every field. -/
theorem deepInduction {motive : JsValue N → Prop} (undefined : motive .undefined)
    (null : motive .null) (boolean : ∀ b, motive (.boolean b)) (number : ∀ n, motive (.number n))
    (string : ∀ s, motive (.string s))
    (array : ∀ items, (∀ v ∈ items, motive v) → motive (.array items))
    (object : ∀ fields, (∀ f ∈ fields, motive f.2) → motive (.object fields)) : ∀ v, motive v := by
  refine @JsValue.rec N motive (fun items => ∀ v ∈ items, motive v)
    (fun fields => ∀ f ∈ fields, motive f.2) (fun f => motive f.2)
    undefined null boolean number string array object ?_ ?_ ?_ ?_ ?_
  · exact fun v hv => absurd hv not_mem_nil
  · exact fun v vs hv hvs => forall_mem_cons.mpr ⟨hv, hvs⟩
  · exact fun f hf => absurd hf not_mem_nil
  · exact fun f fs hf hfs => forall_mem_cons.mpr ⟨hf, hfs⟩
  · exact fun _ _ hv => hv

/-- `value === undefined`. -/
def isUndefined : JsValue N → Bool
  | .undefined => true
  | _ => false

@[simp] theorem isUndefined_iff : v.isUndefined = true ↔ v = .undefined := by
  cases v <;> simp [isUndefined]

/-- An item of an array is never missing: `undefined` is written as `null`. -/
def orNull : JsValue N → JsValue N
  | .undefined => .null
  | v => v

theorem orNull_of_ne (h : v ≠ .undefined) : v.orNull = v := by
  cases v <;> first | exact absurd rfl h | rfl

end JsValue

/-! ## The order of keys -/

/-- The index a key denotes, if it is the numeral of an array index. -/
def arrayIndex (k : JsString) : Option Nat :=
  if JsString.ofNat (JsString.parseNat k) = k ∧ JsString.parseNat k < 4294967295 then
    some (JsString.parseNat k)
  else none

/-- Whether a new key `k` is listed before `k'`, which is there already. -/
def overtakes (k k' : JsString) : Bool :=
  match arrayIndex k, arrayIndex k' with
  | some i, some j => i < j
  | some _, none => true
  | none, _ => false

/-- `k` is listed before `k'`, whichever was set first if neither is an index. -/
def KeyBefore (k k' : JsString) : Prop := k ≠ k' ∧ overtakes k' k = false

instance (k k' : JsString) : Decidable (KeyBefore k k') := inferInstanceAs (Decidable (_ ∧ _))

theorem overtakes_asymm {k k' : JsString} (h : overtakes k k' = true) : overtakes k' k = false := by
  unfold overtakes at h ⊢
  cases hk : arrayIndex k <;> cases hk' : arrayIndex k' <;> simp_all
  omega

/-- Whatever overtakes a key also overtakes the keys behind it. -/
theorem overtakes_of_before {k k' k'' : JsString} (h : overtakes k k' = true)
    (hbefore : overtakes k'' k' = false) : overtakes k'' k = false := by
  unfold overtakes at h hbefore ⊢
  cases hk : arrayIndex k <;> cases hk' : arrayIndex k' <;> cases hk'' : arrayIndex k'' <;>
    simp_all
  omega

section Fields
variable {N : Type}
variable {fields : JsFields N} {f : JsString × JsValue N} {k : JsString}
variable {record : JsFields N}

/-- `record[key]`, for a key that is not inherited. -/
def getField (fields : JsFields N) (k : JsString) : JsValue N :=
  (fields.lookup k).getD .undefined

/-- `record[key] = value`. -/
def setField : JsFields N → JsString → JsValue N → JsFields N
  | [], k, v => [(k, v)]
  | f :: fs, k, v =>
    if f.1 = k then (k, v) :: fs
    else if overtakes k f.1 then (k, v) :: f :: fs
    else f :: setField fs k v

/-- `{ ...record, ...fields }`. -/
def spreadFields (record fields : JsFields N) : JsFields N :=
  fields.foldl (fun fs f => setField fs f.1 f.2) record

/-- `const { [key]: _, ...rest } = record`. -/
def eraseField (fields : JsFields N) (k : JsString) : JsFields N :=
  fields.filter (fun f => f.1 ≠ k)

/-- The keys of a record stand in the order JavaScript lists them. -/
def KeysOrdered (fields : JsFields N) : Prop :=
  fields.Pairwise (fun f f' => KeyBefore f.1 f'.1)

theorem keysOrdered_cons {fs : JsFields N} :
    KeysOrdered (f :: fs) ↔ (∀ f' ∈ fs, KeyBefore f.1 f'.1) ∧ KeysOrdered fs :=
  pairwise_cons

theorem lookup_setField (fields : JsFields N) (k k' : JsString) (v : JsValue N) :
    (setField fields k v).lookup k' = if k' = k then some v else fields.lookup k' := by
  induction fields with
  | nil =>
    rw [setField, lookup_cons]
    by_cases h : k' = k
    · rw [h, beq_self_eq_true, if_pos rfl]
    · rw [beq_eq_false_iff_ne.mpr h, if_neg h]
  | cons f fs ih =>
    rw [setField]
    by_cases hf : f.1 = k
    · rw [if_pos hf, lookup_cons, lookup_cons, hf]
      by_cases h : k' = k
      · rw [h, beq_self_eq_true, if_pos rfl]
      · rw [beq_eq_false_iff_ne.mpr h, if_neg h]
    · rw [if_neg hf]
      by_cases h : k' = k
      · have hne : (k' == f.1) = false := beq_eq_false_iff_ne.mpr (h ▸ Ne.symm hf)
        rw [if_pos h] at ih ⊢
        split_ifs
        · rw [h, lookup_cons, beq_self_eq_true]
        · rw [lookup_cons, hne, ih]
      · rw [if_neg h] at ih ⊢
        split_ifs
        · rw [lookup_cons, beq_eq_false_iff_ne.mpr h]
        · rw [lookup_cons, lookup_cons, ih]

@[simp] theorem getField_setField (fields : JsFields N) (k k' : JsString) (v : JsValue N) :
    getField (setField fields k v) k' = if k' = k then v else getField fields k' := by
  rw [getField, lookup_setField]
  split_ifs
  · rfl
  · rfl

@[simp] theorem getField_nil (k : JsString) : getField ([] : JsFields N) k = .undefined := rfl

theorem mem_setField {v : JsValue N} (h : f ∈ setField fields k v) : f = (k, v) ∨ f ∈ fields := by
  induction fields with
  | nil => exact .inl (mem_singleton.mp h)
  | cons f' fs ih =>
    rw [setField] at h
    split_ifs at h
    · rcases mem_cons.mp h with h | h
      · exact .inl h
      · exact .inr (mem_cons_of_mem _ h)
    · exact mem_cons.mp h
    · rcases mem_cons.mp h with h | h
      · exact .inr (h ▸ mem_cons_self)
      · exact (ih h).imp id (mem_cons_of_mem _)

theorem setField_of_last (v : JsValue N) (h : ∀ f ∈ fields, KeyBefore f.1 k) :
    setField fields k v = fields ++ [(k, v)] := by
  induction fields with
  | nil => rfl
  | cons f fs ih =>
    obtain ⟨hne, hover⟩ := h f mem_cons_self
    rw [setField, if_neg hne, if_neg (by simp [hover]),
      ih (fun f' hf' => h f' (mem_cons_of_mem _ hf'))]
    rfl

/-- Fields that come in their order stand as they came. -/
theorem spreadFields_of_ordered (h : KeysOrdered (record ++ fields)) :
    spreadFields record fields = record ++ fields := by
  unfold spreadFields
  induction fields generalizing record with
  | nil => rw [foldl_nil, append_nil]
  | cons f fs ih =>
    have hlast : setField record f.1 f.2 = record ++ [f] := setField_of_last _ fun f' hf' =>
      (pairwise_append.mp h).2.2 f' hf' f mem_cons_self
    rw [append_cons] at h ⊢
    rw [foldl_cons, hlast, ih h]

theorem keysOrdered_setField (h : KeysOrdered fields) (k : JsString) (v : JsValue N) :
    KeysOrdered (setField fields k v) := by
  induction fields with
  | nil => exact pairwise_singleton _ _
  | cons f fs ih =>
    obtain ⟨hhead, htail⟩ := keysOrdered_cons.mp h
    rw [setField]
    split_ifs with hf hover
    · exact keysOrdered_cons.mpr ⟨fun f' hf' => hf ▸ hhead f' hf', htail⟩
    · refine keysOrdered_cons.mpr ⟨fun f' hf' => ?_, h⟩
      rcases mem_cons.mp hf' with rfl | hf'
      · exact ⟨Ne.symm hf, overtakes_asymm hover⟩
      · obtain ⟨-, hbefore⟩ := hhead f' hf'
        -- a key that is already behind `f` is another one than `k`, which overtakes `f`
        refine ⟨?_, overtakes_of_before hover hbefore⟩
        rintro rfl
        exact absurd hover (by simp [hbefore])
    · refine keysOrdered_cons.mpr ⟨fun f' hf' => ?_, ih htail⟩
      rcases mem_setField hf' with rfl | hf'
      · exact ⟨hf, by simpa using hover⟩
      · exact hhead f' hf'

theorem KeysOrdered.sublist {fields' : JsFields N} (h : KeysOrdered fields)
    (hsub : fields'.Sublist fields) : KeysOrdered fields' := List.Pairwise.sublist hsub h

theorem KeysOrdered.nodup (h : KeysOrdered fields) : (fields.map Prod.fst).Nodup := by
  rw [Nodup, pairwise_map]
  exact List.Pairwise.imp (fun hbefore => hbefore.1) h

theorem keysOrdered_of_keys {keys : List JsString} (hkeys : fields.map Prod.fst = keys)
    (h : keys.Pairwise KeyBefore) : KeysOrdered fields := by
  rw [← hkeys, pairwise_map] at h
  exact h

theorem lookup_eq_none_of_forall (h : ∀ f ∈ fields, f.1 ≠ k) : fields.lookup k = none :=
  lookup_eq_none_iff.mpr fun f hf => bne_iff_ne.mpr (Ne.symm (h f hf))

theorem eraseField_setField (v : JsValue N) (h : k ∉ fields.map Prod.fst) :
    eraseField (setField fields k v) k = fields := by
  induction fields with
  | nil => exact filter_cons_of_neg (by simp)
  | cons f fs ih =>
    rw [map_cons, mem_cons, not_or] at h
    have hrest : eraseField fs k = fs := filter_eq_self.mpr fun f' hf' =>
      decide_eq_true fun heq => h.2 (heq ▸ mem_map_of_mem hf')
    have hf (fs : JsFields N) : eraseField (f :: fs) k = f :: eraseField fs k :=
      filter_cons_of_pos (decide_eq_true (Ne.symm h.1))
    rw [setField, if_neg (Ne.symm h.1)]
    split_ifs
    · have hk : eraseField ((k, v) :: f :: fs) k = eraseField (f :: fs) k :=
        filter_cons_of_neg (by simp)
      rw [hk, hf, hrest]
    · rw [hf, ih h.2]

/-- The last field of a key that is spread over a record is the one that counts. -/
theorem getField_spreadFields (record fields : JsFields N) (k : JsString)
    (h : (fields.map Prod.fst).Nodup) : getField (spreadFields record fields) k =
      ((fields.lookup k).getD (getField record k)) := by
  unfold spreadFields
  induction fields generalizing record with
  | nil => rfl
  | cons f fs ih =>
    rw [map_cons, nodup_cons] at h
    rw [foldl_cons, ih _ h.2, getField_setField, lookup_cons]
    by_cases hk : k = f.1
    · have hnone : fs.lookup k = none := lookup_eq_none_of_forall fun f' hf' heq =>
        h.1 (by rw [← hk, ← heq]; exact mem_map_of_mem hf')
      rw [hnone, if_pos hk, hk, beq_self_eq_true]
      rfl
    · rw [if_neg hk, beq_eq_false_iff_ne.mpr hk]

theorem keysOrdered_spreadFields (h : KeysOrdered record) (fields : JsFields N) :
    KeysOrdered (spreadFields record fields) := by
  unfold spreadFields
  induction fields generalizing record with
  | nil => exact h
  | cons f fs ih => exact ih (keysOrdered_setField h f.1 f.2)

theorem mem_spreadFields (h : f ∈ spreadFields record fields) : f ∈ record ∨ f ∈ fields := by
  unfold spreadFields at h
  induction fields generalizing record with
  | nil => exact .inl h
  | cons f' fs ih =>
    rcases ih h with h | h
    · rcases mem_setField h with rfl | h
      · exact .inr mem_cons_self
      · exact .inl h
    · exact .inr (mem_cons_of_mem _ h)

end Fields

namespace JsValue
variable {N : Type}
variable {fields : JsFields N}
variable {items : List (JsValue N)}

mutual
/-- Every object in the value lists its keys in their order. -/
def WellKeyed : JsValue N → Prop
  | .array items => ItemsWellKeyed items
  | .object fields => KeysOrdered fields ∧ FieldsWellKeyed fields
  | _ => True
def ItemsWellKeyed : List (JsValue N) → Prop
  | [] => True
  | v :: vs => WellKeyed v ∧ ItemsWellKeyed vs
def FieldsWellKeyed : JsFields N → Prop
  | [] => True
  | (_, v) :: fs => WellKeyed v ∧ FieldsWellKeyed fs
end

theorem itemsWellKeyed_iff : ItemsWellKeyed items ↔ ∀ v ∈ items, WellKeyed v := by
  induction items with
  | nil => simp [ItemsWellKeyed]
  | cons v vs ih => rw [ItemsWellKeyed, ih, forall_mem_cons]

theorem fieldsWellKeyed_iff : FieldsWellKeyed fields ↔ ∀ f ∈ fields, WellKeyed f.2 := by
  induction fields with
  | nil => simp [FieldsWellKeyed]
  | cons f fs ih => rw [FieldsWellKeyed, ih, forall_mem_cons]

theorem wellKeyed_array : WellKeyed (.array items) ↔ ∀ v ∈ items, WellKeyed v := by
  rw [WellKeyed, itemsWellKeyed_iff]

theorem wellKeyed_object :
    WellKeyed (.object fields) ↔ KeysOrdered fields ∧ ∀ f ∈ fields, WellKeyed f.2 := by
  rw [WellKeyed, fieldsWellKeyed_iff]

@[simp] theorem wellKeyed_undefined : WellKeyed (.undefined : JsValue N) := trivial
@[simp] theorem wellKeyed_null : WellKeyed (.null : JsValue N) := trivial
@[simp] theorem wellKeyed_boolean (b : Bool) : WellKeyed (.boolean b : JsValue N) := trivial
@[simp] theorem wellKeyed_number (n : N) : WellKeyed (.number n) := trivial
@[simp] theorem wellKeyed_string (s : JsString) : WellKeyed (.string s : JsValue N) := trivial

theorem wellKeyed_setField (h : WellKeyed (.object fields)) (k : JsString) {v : JsValue N}
    (hv : WellKeyed v) : WellKeyed (.object (setField fields k v)) := by
  rw [wellKeyed_object] at h ⊢
  refine ⟨keysOrdered_setField h.1 k v, fun f hf => ?_⟩
  rcases mem_setField hf with rfl | hf
  · exact hv
  · exact h.2 f hf

theorem wellKeyed_spreadFields {record : JsFields N} (h : WellKeyed (.object record))
    (hfields : WellKeyed (.object fields)) : WellKeyed (.object (spreadFields record fields)) := by
  rw [wellKeyed_object] at h hfields ⊢
  refine ⟨keysOrdered_spreadFields h.1 fields, fun f hf => ?_⟩
  rcases mem_spreadFields hf with hf | hf
  · exact h.2 f hf
  · exact hfields.2 f hf

theorem wellKeyed_eraseField (h : WellKeyed (.object fields)) (k : JsString) :
    WellKeyed (.object (eraseField fields k)) := by
  rw [wellKeyed_object] at h ⊢
  exact ⟨h.1.sublist filter_sublist, fun f hf => h.2 f (mem_filter.mp hf).1⟩

theorem wellKeyed_getField (h : WellKeyed (.object fields)) (k : JsString) :
    WellKeyed (getField fields k) := by
  rw [wellKeyed_object] at h
  unfold getField
  cases hk : fields.lookup k with
  | none => trivial
  | some v =>
    obtain ⟨before, after, hfields, -⟩ := lookup_eq_some_iff.mp hk
    exact h.2 (k, v) (hfields ▸ mem_append_right _ mem_cons_self)

end JsValue

/-! ## The text of a value -/

namespace JsValue
open JsString
variable {N : Type} [JsNumber N]
variable {v : JsValue N}

/-- `parts.join(",")`. -/
def joinComma (parts : List JsString) : JsString := (js ",").intercalate parts

mutual
/-- `JSON.stringify(value)`; for `undefined`, what it writes inside an array. -/
def jsonText : JsValue N → JsString
  | .undefined => js "null"
  | .null => js "null"
  | .boolean b => if b then js "true" else js "false"
  | .number n => if JsNumber.isFinite n then JsNumber.text n else js "null"
  | .string s => jsonStringify s
  | .array items => js "[" ++ joinComma (itemTexts items) ++ js "]"
  | .object fields => js "\x7b" ++ joinComma (fieldTexts fields) ++ js "\x7d"
def itemTexts : List (JsValue N) → List JsString
  | [] => []
  | v :: vs => jsonText v :: itemTexts vs
def fieldTexts : JsFields N → List JsString
  | [] => []
  | (k, v) :: fs =>
    if v.isUndefined then fieldTexts fs
    else (jsonStringify k ++ js ":" ++ jsonText v) :: fieldTexts fs
end

mutual
/-- What is left of a value once it has been written and read back. -/
def asJson : JsValue N → JsValue N
  | .number n => if JsNumber.isFinite n then .number (JsNumber.read (JsNumber.text n)) else .null
  | .array items => .array (itemsAsJson items)
  | .object fields => .object (fieldsAsJson fields)
  | v => v
def itemsAsJson : List (JsValue N) → List (JsValue N)
  | [] => []
  | v :: vs => (asJson v).orNull :: itemsAsJson vs
def fieldsAsJson : JsFields N → JsFields N
  | [] => []
  | (k, v) :: fs =>
    if v.isUndefined then fieldsAsJson fs else (k, asJson v) :: fieldsAsJson fs
end

theorem itemTexts_eq (items : List (JsValue N)) : itemTexts items = items.map jsonText := by
  induction items with
  | nil => rfl
  | cons v vs ih => rw [itemTexts, ih, map_cons]

theorem fieldTexts_eq (fields : JsFields N) :
    fieldTexts fields = (fields.filter (fun f => !f.2.isUndefined)).map
      (fun f => jsonStringify f.1 ++ js ":" ++ jsonText f.2) := by
  induction fields with
  | nil => rfl
  | cons f fs ih =>
    rw [fieldTexts, ih]
    cases h : f.2.isUndefined with
    | true => rw [if_pos rfl, filter_cons_of_neg (by simp [h])]
    | false => rw [if_neg Bool.false_ne_true, filter_cons_of_pos (by simp [h]), map_cons]

theorem itemsAsJson_eq (items : List (JsValue N)) :
    itemsAsJson items = items.map (fun v => (asJson v).orNull) := by
  induction items with
  | nil => rfl
  | cons v vs ih => rw [itemsAsJson, ih, map_cons]

theorem fieldsAsJson_eq (fields : JsFields N) :
    fieldsAsJson fields = (fields.filter (fun f => !f.2.isUndefined)).map
      (fun f => (f.1, asJson f.2)) := by
  induction fields with
  | nil => rfl
  | cons f fs ih =>
    rw [fieldsAsJson, ih]
    cases h : f.2.isUndefined with
    | true => rw [if_pos rfl, filter_cons_of_neg (by simp [h])]
    | false => rw [if_neg Bool.false_ne_true, filter_cons_of_pos (by simp [h]), map_cons]

@[simp] theorem asJson_string (s : JsString) : asJson (.string s : JsValue N) = .string s := rfl
@[simp] theorem asJson_undefined : asJson (.undefined : JsValue N) = .undefined := rfl
@[simp] theorem asJson_null : asJson (.null : JsValue N) = .null := rfl
@[simp] theorem asJson_boolean (b : Bool) : asJson (.boolean b : JsValue N) = .boolean b := rfl
@[simp] theorem asJson_array (items : List (JsValue N)) :
    asJson (.array items) = .array (itemsAsJson items) := rfl
@[simp] theorem asJson_object (fields : JsFields N) :
    asJson (.object fields) = .object (fieldsAsJson fields) := rfl

theorem asJson_number (n : N) : asJson (.number n) =
    if JsNumber.isFinite n then .number (JsNumber.read (JsNumber.text n)) else .null := rfl

theorem asJson_number_of_finite {n : N} (h : JsNumber.isFinite n = true) :
    asJson (.number n) = .number (JsNumber.read (JsNumber.text n)) := by
  rw [asJson_number, if_pos h]

@[simp] theorem asJson_eq_undefined : asJson v = .undefined ↔ v = .undefined := by
  cases v <;> try simp
  rw [asJson_number]
  split_ifs <;> simp

theorem isUndefined_asJson (v : JsValue N) : (asJson v).isUndefined = v.isUndefined := by
  rw [Bool.eq_iff_iff, isUndefined_iff, isUndefined_iff, asJson_eq_undefined]

/-- A field of what is left is what is left of the field. -/
theorem getField_fieldsAsJson {fields : JsFields N} (h : (fields.map Prod.fst).Nodup)
    (k : JsString) : getField (fieldsAsJson fields) k = asJson (getField fields k) := by
  unfold getField
  induction fields with
  | nil => rfl
  | cons f fs ih =>
    rw [map_cons, nodup_cons] at h
    rw [fieldsAsJson, lookup_cons]
    by_cases hk : k = f.1
    · have hnone : fs.lookup k = none := lookup_eq_none_of_forall fun f' hf' heq =>
        h.1 (by rw [← hk, ← heq]; exact mem_map_of_mem hf')
      have hrest := ih h.2
      rw [hnone] at hrest
      rw [hk, beq_self_eq_true, ← hk]
      split_ifs with hundef
      · rw [hrest, isUndefined_iff.mp hundef]
        rfl
      · rw [lookup_cons, hk, beq_self_eq_true]
        rfl
    · rw [beq_eq_false_iff_ne.mpr hk]
      split_ifs with hundef
      · exact ih h.2
      · rw [lookup_cons, beq_eq_false_iff_ne.mpr hk]
        exact ih h.2

theorem wellKeyed_asJson (h : WellKeyed v) : WellKeyed (asJson v) := by
  induction v using deepInduction with
  | undefined | null | boolean b => trivial
  | number n =>
    rw [asJson_number]
    split_ifs <;> trivial
  | string s => trivial
  | array items ih =>
    rw [wellKeyed_array] at h
    rw [asJson_array, wellKeyed_array, itemsAsJson_eq]
    intro v hv
    obtain ⟨w, hw, rfl⟩ := mem_map.mp hv
    have hjson := ih w hw (h w hw)
    revert hjson
    cases asJson w <;> exact fun hjson => hjson
  | object fields ih =>
    rw [wellKeyed_object] at h
    rw [asJson_object, wellKeyed_object, fieldsAsJson_eq]
    refine ⟨?_, fun f hf => ?_⟩
    · exact pairwise_map.mpr (h.1.sublist filter_sublist)
    · obtain ⟨g, hg, rfl⟩ := mem_map.mp hf
      have hmem := (mem_filter.mp hg).1
      exact ih g hmem (h.2 g hmem)

theorem filter_fieldsAsJson (fields : JsFields N) :
    (fieldsAsJson fields).filter (fun f => !f.2.isUndefined) = fieldsAsJson fields := by
  rw [fieldsAsJson_eq, filter_map, filter_filter]
  congr 1
  exact filter_congr fun f _ => by simp [isUndefined_asJson]

theorem fieldsAsJson_eraseField (fields : JsFields N) (k : JsString) :
    fieldsAsJson (eraseField fields k) = eraseField (fieldsAsJson fields) k := by
  rw [fieldsAsJson_eq, fieldsAsJson_eq, eraseField, eraseField, filter_map,
    filter_filter, filter_filter]
  congr 1
  exact filter_congr fun f _ => Bool.and_comm _ _

/-- **Writing and reading back again changes nothing more.** -/
theorem asJson_asJson (v : JsValue N) : asJson (asJson v) = asJson v := by
  induction v using deepInduction with
  | undefined | null | boolean b => rfl
  | number n =>
    by_cases hn : JsNumber.isFinite n = true
    · rw [asJson_number_of_finite hn, asJson_number_of_finite (JsNumber.isFinite_read_text n hn),
        JsNumber.text_read_text n hn]
    · rw [asJson_number, if_neg hn, asJson_null]
  | string s => rfl
  | array items ih =>
    rw [asJson_array, asJson_array, itemsAsJson_eq, itemsAsJson_eq, map_map]
    congr 1
    apply map_congr_left
    intro v hv
    have hv' := ih v hv
    change (asJson (asJson v).orNull).orNull = (asJson v).orNull
    by_cases hu : asJson v = .undefined
    · rw [hu]
      rfl
    · rw [orNull_of_ne hu, hv']
      exact orNull_of_ne hu
  | object fields ih =>
    rw [asJson_object, asJson_object, fieldsAsJson_eq (fieldsAsJson fields), filter_fieldsAsJson,
      fieldsAsJson_eq, map_map]
    congr 1
    apply map_congr_left
    intro f hf
    exact Prod.ext rfl (ih f (mem_filter.mp hf).1)

theorem jsonText_orNull (v : JsValue N) : jsonText v.orNull = jsonText v := by
  cases v with
  | undefined | _ => rfl

/-- **What is read back is written as before.** -/
theorem jsonText_asJson (v : JsValue N) : jsonText (asJson v) = jsonText v := by
  induction v using deepInduction with
  | undefined | null | boolean b => rfl
  | number n =>
    rw [asJson_number]
    split_ifs with hn
    · rw [jsonText, jsonText, if_pos hn, if_pos (JsNumber.isFinite_read_text n hn),
        JsNumber.text_read_text n hn]
    · rw [jsonText, jsonText, if_neg hn]
  | string s => rfl
  | array items ih =>
    rw [asJson_array, jsonText, jsonText, itemTexts_eq, itemTexts_eq, itemsAsJson_eq, map_map]
    congr 3
    exact map_congr_left fun v hv => (jsonText_orNull _).trans (ih v hv)
  | object fields ih =>
    rw [asJson_object, jsonText, jsonText, fieldTexts_eq, fieldTexts_eq, filter_fieldsAsJson,
      fieldsAsJson_eq, map_map]
    congr 3
    apply map_congr_left
    intro f hf
    rw [Function.comp_apply, ih f (mem_filter.mp hf).1]

end JsValue
theorem foldlM_step_digit : ∀ d < 10, [JsString.digitUnit d].foldlM NumeralState.step .start =
    some (if d = 0 then NumeralState.zero else .int) := by decide

theorem foldlM_step_ofNat (n : Nat) : (JsString.ofNat n).foldlM NumeralState.step .start =
    some (if n = 0 then NumeralState.zero else .int) := by
  induction n using Nat.strongRecOn with
  | ind n ih =>
    by_cases hn : n < 10
    · rw [JsString.ofNat_of_lt hn, foldlM_step_digit n hn]
    · have hdigit := JsString.isDigit_digitUnit (n % 10) (Nat.mod_lt _ (by decide))
      rw [JsString.ofNat_of_ge hn, foldlM_append, ih (n / 10) (by omega),
        if_neg (by omega), if_neg (by omega)]
      change NumeralState.step .int (JsString.digitUnit (n % 10)) >>= _ = _
      rw [NumeralState.step, if_pos hdigit]
      rfl

theorem parseNat_ofNat (n : Nat) : JsString.parseNat (JsString.ofNat n) = n := by
  have h := @JsString.parseNat_ofNat_append n [] (by simp)
  rwa [append_nil] at h

/-- The natural numbers, as a model of `JsNumber` to compute with. -/
instance : JsNumber Nat where
  one := 1
  isFinite _ := true
  isSafeInteger n := n < 9007199254740992
  isFalsy n := n == 0
  exceedsOne n := 1 < n
  text := JsString.ofNat
  read := JsString.parseNat
  isFinite_one := rfl
  isFinite_of_isSafeInteger _ _ := rfl
  exceedsOne_one := rfl
  read_text_one := parseNat_ofNat 1
  isNumeral_text n _ := by
    refine ⟨_, foldlM_step_ofNat n, ?_⟩
    split_ifs
    · rfl
    · rfl
  isFinite_read_text _ _ := rfl
  text_read_text n _ := by rw [parseNat_ofNat]
  isSafeInteger_read_text n _ := by rw [parseNat_ofNat]
  isFalsy_read_text n _ := by rw [parseNat_ofNat]
  exceedsOne_read_text n _ := by rw [parseNat_ofNat]

end GajaeCode
