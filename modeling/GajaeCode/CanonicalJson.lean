import Mathlib.Data.List.Lex
import Mathlib.Data.List.Sort
import Mathlib.Data.Rat.Cast.Order
import GajaeCode.JsonParse

/-! # Canonical JSON

`canonicalJson` of `packages/coding-agent/src/modes/shared/agent-wire/workflow-gate-schema.ts`
writes the keys of every object in the order of their units.  Values that are equal as
JSON have one canonical text, and only those have: what was written can be read back,
whatever order the keys stand in, and what is read back is equal to what was written.

Equality of JSON values is said without any text: numbers are equal when they have the same
value, arrays item by item, objects property by property.
-/
namespace GajaeCode
open JsString JsonParse List

/-- Numbers that have a value, as far as they are finite. -/
class JsReal (N : Type) [JsNumber N] where
  value : N → ℚ
  /-- `Number.isInteger(n)` -/
  isInteger : N → Bool
  /-- `n < 0` -/
  isNegative : N → Bool
  /-- `m < n` -/
  lt : N → N → Bool
  /-- `length < n`, for the length of a string or an array, which numbers hold exactly. -/
  lengthBelow : Nat → N → Bool
  /-- `length > n` -/
  lengthAbove : Nat → N → Bool
  isFinite_of_isInteger : ∀ n, isInteger n = true → JsNumber.isFinite n = true
  text_eq_text_iff : ∀ m n, JsNumber.isFinite m = true → JsNumber.isFinite n = true →
    (JsNumber.text m = JsNumber.text n ↔ value m = value n)
  isInteger_iff : ∀ n, JsNumber.isFinite n = true → (isInteger n = true ↔ ∃ z : ℤ, value n = z)
  isNegative_iff : ∀ n, JsNumber.isFinite n = true → (isNegative n = true ↔ value n < 0)
  lt_iff : ∀ m n, JsNumber.isFinite m = true → JsNumber.isFinite n = true →
    (lt m n = true ↔ value m < value n)
  lengthBelow_iff : ∀ l n, JsNumber.isFinite n = true → (lengthBelow l n = true ↔ l < value n)
  lengthAbove_iff : ∀ l n, JsNumber.isFinite n = true → (lengthAbove l n = true ↔ value n < l)

instance : JsReal Nat where
  value n := n
  isInteger _ := true
  isNegative _ := false
  lt m n := m < n
  lengthBelow l n := l < n
  lengthAbove l n := n < l
  isFinite_of_isInteger _ _ := rfl
  text_eq_text_iff m n _ _ := by
    rw [Nat.cast_inj]
    refine ⟨fun h => ?_, congrArg _⟩
    rw [← parseNat_ofNat m, ← parseNat_ofNat n]
    exact congrArg parseNat h
  isInteger_iff n _ := iff_of_true rfl ⟨n, (Int.cast_natCast n).symm⟩
  isNegative_iff n _ := iff_of_false Bool.false_ne_true (not_lt.mpr n.cast_nonneg)
  lt_iff m n _ _ := by simp
  lengthBelow_iff l n _ := by simp
  lengthAbove_iff l n _ := by simp

namespace JsValue
variable {N : Type} [JsNumber N]
variable {fields : JsFields N} {k : JsString}

mutual
/-- The value is one that JSON has: nothing in it is `undefined` or not finite, and no object
has a key twice. -/
def IsJson : JsValue N → Prop
  | .undefined => False
  | .number n => JsNumber.isFinite n = true
  | .array items => ItemsJson items
  | .object fields => (fields.map Prod.fst).Nodup ∧ FieldsJson fields
  | _ => True
def ItemsJson : List (JsValue N) → Prop
  | [] => True
  | v :: vs => IsJson v ∧ ItemsJson vs
def FieldsJson : JsFields N → Prop
  | [] => True
  | (_, v) :: fs => IsJson v ∧ FieldsJson fs
end

theorem isJson_array {items : List (JsValue N)} :
    IsJson (.array items) ↔ ∀ v ∈ items, IsJson v := by
  rw [IsJson]
  induction items with
  | nil => simp [ItemsJson]
  | cons v vs ih => rw [ItemsJson, ih, forall_mem_cons]

theorem isJson_object :
    IsJson (.object fields) ↔ (fields.map Prod.fst).Nodup ∧ ∀ f ∈ fields, IsJson f.2 := by
  have hfields : ∀ fields : JsFields N, FieldsJson fields ↔ ∀ f ∈ fields, IsJson f.2 := by
    intro fields
    induction fields with
    | nil => simp [FieldsJson]
    | cons f fs ih => rw [FieldsJson, ih, forall_mem_cons]
  rw [IsJson, hfields]

theorem IsJson.ne_undefined {v : JsValue N} (h : v.IsJson) : v ≠ .undefined := by
  rintro rfl
  exact h

omit [JsNumber N] in
theorem getField_of_mem (h : (fields.map Prod.fst).Nodup) {v : JsValue N} (hmem : (k, v) ∈ fields) :
    getField fields k = v := by
  induction fields with
  | nil => exact absurd hmem not_mem_nil
  | cons f fs ih =>
    rw [map_cons, nodup_cons] at h
    unfold getField
    rw [lookup_cons]
    rcases mem_cons.mp hmem with rfl | hmem
    · rw [beq_self_eq_true]
      rfl
    · have hne : k ≠ f.1 := fun heq => h.1 (heq ▸ mem_map_of_mem hmem)
      rw [beq_eq_false_iff_ne.mpr hne]
      exact ih h.2 hmem

omit [JsNumber N] in
theorem getField_of_not_mem (h : k ∉ fields.map Prod.fst) : getField fields k = .undefined := by
  have hnone : fields.lookup k = none := lookup_eq_none_of_forall fun f hf heq =>
    h (mem_map.mpr ⟨f, hf, heq⟩)
  rw [getField, hnone]
  rfl

/-- The properties of an object are the ones that are not `undefined`. -/
theorem IsJson.mem_keys_iff (h : IsJson (.object fields)) :
    k ∈ fields.map Prod.fst ↔ getField fields k ≠ .undefined := by
  rw [isJson_object] at h
  refine ⟨fun hmem => ?_, fun hne => by_contra fun hmem => hne (getField_of_not_mem hmem)⟩
  obtain ⟨⟨k, v⟩, hf, rfl⟩ := mem_map.mp hmem
  rw [getField_of_mem h.1 hf]
  exact (h.2 _ hf).ne_undefined

theorem IsJson.getField (h : IsJson (.object fields)) (hne : getField fields k ≠ .undefined) :
    (GajaeCode.getField fields k).IsJson := by
  obtain ⟨⟨k, v⟩, hf, rfl⟩ := mem_map.mp (h.mem_keys_iff.mpr hne)
  rw [isJson_object] at h
  rw [getField_of_mem h.1 hf]
  exact h.2 _ hf

section Equal
variable [JsReal N]

/-- The values are equal as JSON; a property that an object does not have is `undefined`. -/
inductive JsonEqual : JsValue N → JsValue N → Prop
  | undefined : JsonEqual .undefined .undefined
  | null : JsonEqual .null .null
  | boolean (b : Bool) : JsonEqual (.boolean b) (.boolean b)
  | number {m n : N} (h : JsReal.value m = JsReal.value n) : JsonEqual (.number m) (.number n)
  | string (s : JsString) : JsonEqual (.string s) (.string s)
  | array {items items' : List (JsValue N)} (hlength : items.length = items'.length)
      (h : ∀ i (hi : i < items.length) (hi' : i < items'.length),
        JsonEqual (items[i]) (items'[i])) : JsonEqual (.array items) (.array items')
  | object {fields fields' : JsFields N}
      (h : ∀ k, JsonEqual (GajaeCode.getField fields k) (GajaeCode.getField fields' k)) :
      JsonEqual (.object fields) (.object fields')

section
variable {a b : JsValue N} (h : JsonEqual a b)
include h

theorem JsonEqual.symm : JsonEqual b a := by
  induction h with
  | undefined => exact .undefined
  | null => exact .null
  | boolean b => exact .boolean b
  | number h => exact .number h.symm
  | string s => exact .string s
  | array hlength _ ih => exact .array hlength.symm fun i hi hi' => ih i hi' hi
  | object _ ih => exact .object ih

theorem JsonEqual.trans {c : JsValue N} (h' : JsonEqual b c) : JsonEqual a c := by
  induction h generalizing c with
  | undefined | null | boolean b => exact h'
  | number h =>
    cases h' with
    | number h' => exact .number (h.trans h')
  | string s => exact h'
  | array hlength _ ih =>
    cases h' with
    | array hlength' h' =>
      exact .array (hlength.trans hlength') fun i hi hi' => ih i hi (hlength ▸ hi) (h' i _ hi')
  | object _ ih =>
    cases h' with
    | object h' => exact .object fun k => ih k (h' k)

theorem JsonEqual.undefined_iff : a = .undefined ↔ b = .undefined := by
  cases h <;> simp

end

end Equal

/-! ## The canonical text -/

/-- `Object.keys(value).sort()` -/
def sortedKeys (fields : JsFields N) : List JsString :=
  (fields.map Prod.fst).insertionSort (· ≤ ·)

mutual
def canonicalJson : JsValue N → JsString
  | .array items => js "[" ++ joinComma (canonicalItems items) ++ js "]"
  | .object fields =>
    js "\x7b" ++ joinComma ((sortedKeys fields).map fun k =>
      jsonStringify k ++ js ":" ++ ((canonicalFields fields).lookup k).getD []) ++ js "\x7d"
  | value => jsonText value
def canonicalItems : List (JsValue N) → List JsString
  | [] => []
  | v :: vs => canonicalJson v :: canonicalItems vs
/-- The text of every field, under its key. -/
def canonicalFields : JsFields N → List (JsString × JsString)
  | [] => []
  | (k, v) :: fs => (k, canonicalJson v) :: canonicalFields fs
end

theorem canonicalItems_eq (items : List (JsValue N)) :
    canonicalItems items = items.map canonicalJson := by
  induction items with
  | nil => rfl
  | cons v vs ih => rw [canonicalItems, ih, map_cons]

theorem lookup_canonicalFields (fields : JsFields N) (k : JsString) :
    (canonicalFields fields).lookup k = (fields.lookup k).map canonicalJson := by
  induction fields with
  | nil => rfl
  | cons f fs ih =>
    rw [canonicalFields, lookup_cons, lookup_cons]
    cases k == f.1 with
    | true => rfl
    | false => exact ih

omit [JsNumber N] in
theorem mem_sortedKeys : k ∈ sortedKeys fields ↔ k ∈ fields.map Prod.fst := mem_insertionSort _

theorem canonicalJson_number {n : N} (h : JsNumber.isFinite n = true) :
    canonicalJson (.number n) = JsNumber.text n := by
  change jsonText (.number n) = _
  rw [jsonText, if_pos h]

theorem canonicalJson_array (items : List (JsValue N)) : canonicalJson (.array items) =
      js "[" ++ joinComma (items.map canonicalJson) ++ js "]" := by
  rw [canonicalJson, canonicalItems_eq]

theorem canonicalJson_object (fields : JsFields N) :
    canonicalJson (.object fields) = js "\x7b" ++ joinComma ((sortedKeys fields).map fun k =>
      jsonStringify k ++ js ":" ++ canonicalJson (getField fields k)) ++ js "\x7d" := by
  rw [canonicalJson]
  congr 3
  apply map_congr_left
  intro k hk
  obtain ⟨f, hf, rfl⟩ := mem_map.mp (mem_sortedKeys.mp hk)
  rw [lookup_canonicalFields, getField]
  cases hlookup : fields.lookup f.1 with
  | none => exact absurd (lookup_eq_none_iff.mp hlookup f hf) (by simp)
  | some v => rfl

section Equality
variable [JsReal N]

theorem JsonEqual.canonicalJson_eq {a b : JsValue N} (h : JsonEqual a b) (ha : a.IsJson)
    (hb : b.IsJson) : canonicalJson a = canonicalJson b := by
  induction h with
  | undefined | null | boolean b => rfl
  | @number m n h =>
    rw [canonicalJson_number ha, canonicalJson_number hb]
    exact (JsReal.text_eq_text_iff m n ha hb).mpr h
  | string s => rfl
  | @array items items' hlength h ih =>
    rw [isJson_array] at ha hb
    rw [canonicalJson_array, canonicalJson_array]
    congr 3
    refine ext_getElem (by simpa using hlength) fun i hi hi' => ?_
    rw [getElem_map, getElem_map]
    exact ih i _ _ (ha _ (getElem_mem _)) (hb _ (getElem_mem _))
  | @object fields fields' h ih =>
    have hkeys : sortedKeys fields = sortedKeys fields' := by
      refine Perm.eq_of_pairwise' (r := (· ≤ ·)) (pairwise_insertionSort _ _)
        (pairwise_insertionSort _ _) ?_
      refine (perm_insertionSort _ _).trans (Perm.trans ?_ (perm_insertionSort _ _).symm)
      refine (perm_ext_iff_of_nodup (isJson_object.mp ha).1 (isJson_object.mp hb).1).mpr fun k => ?_
      rw [ha.mem_keys_iff, hb.mem_keys_iff]
      exact not_congr (h k).undefined_iff
    rw [canonicalJson_object, canonicalJson_object, ← hkeys]
    congr 3
    apply map_congr_left
    intro k hk
    have hk' : k ∈ sortedKeys fields' := hkeys ▸ hk
    rw [ih k (ha.getField (ha.mem_keys_iff.mp (mem_sortedKeys.mp hk)))
      (hb.getField (hb.mem_keys_iff.mp (mem_sortedKeys.mp hk')))]

omit [JsReal N] in
theorem starts_canonicalJson (v : JsValue N) : Starts (canonicalJson v) := by
  cases v with
  | array items =>
    exact ⟨0x005b, joinComma (canonicalItems items) ++ js "]", rfl, by decide, by decide, by decide⟩
  | object fields => exact ⟨0x007b, _, rfl, by decide, by decide, by decide⟩
  | _ => exact starts_jsonText _

theorem exists_completes {v : JsValue N} (h : v.IsJson) :
    ∃ w, Completes (canonicalJson v) w ∧ JsonEqual v w := by
  have : Nonempty (JsValue N) := ⟨.undefined⟩
  induction v using deepInduction with
  | undefined => exact absurd h id
  | null => exact ⟨_, completes_null, .null⟩
  | boolean b => exact ⟨_, completes_boolean b, .boolean b⟩
  | number n =>
    have hn : JsNumber.isFinite n = true := h
    refine ⟨.number (JsNumber.read (JsNumber.text n)), ?_, .number ?_⟩
    · rw [canonicalJson_number hn]
      exact completes_numeral (JsNumber.isNumeral_text n hn)
    · exact (JsReal.text_eq_text_iff _ _ hn (JsNumber.isFinite_read_text n hn)).mp
        (JsNumber.text_read_text n hn).symm
  | string s => exact ⟨_, completes_string s, .string s⟩
  | array items ih =>
    rw [isJson_array] at h
    choose! read hread hequal using fun v hv => ih v hv (h v hv)
    refine ⟨.array (items.map read), ?_, .array (length_map _).symm fun i hi hi' => ?_⟩
    · rw [canonicalJson_array]
      exact completes_array (fun v _ => starts_canonicalJson v) hread
    · rw [getElem_map]
      exact hequal _ (getElem_mem _)
  | object fields ih =>
    have hfields : ∀ k ∈ fields.map Prod.fst, ∃ w, Completes (canonicalJson (getField fields k)) w ∧
        JsonEqual (getField fields k) w := fun k hk => by
      obtain ⟨⟨k, v⟩, hf, rfl⟩ := mem_map.mp hk
      rw [getField_of_mem (isJson_object.mp h).1 hf]
      exact ih _ hf ((isJson_object.mp h).2 _ hf)
    choose! read hread hequal using hfields
    refine ⟨.object (spreadFields [] ((sortedKeys fields).map fun k => (k, read k))), ?_,
      .object fun k => ?_⟩
    · rw [canonicalJson_object]
      exact completes_object fun k hk => hread k (mem_sortedKeys.mp hk)
    · have hkeys : ((sortedKeys fields).map fun k => (k, read k)).map Prod.fst =
          sortedKeys fields := by
        rw [map_map]
        exact map_id _
      have hnodup : (((sortedKeys fields).map fun k => (k, read k)).map Prod.fst).Nodup := by
        rw [hkeys]
        exact (perm_insertionSort _ _).nodup_iff.mpr (isJson_object.mp h).1
      rw [getField_spreadFields _ _ _ hnodup]
      change JsonEqual _ (getField _ k)
      by_cases hk : k ∈ fields.map Prod.fst
      · rw [getField_of_mem hnodup (mem_map_of_mem (mem_sortedKeys.mpr hk))]
        exact hequal k hk
      · rw [getField_of_not_mem hk, getField_of_not_mem (by rwa [hkeys, mem_sortedKeys])]
        exact .undefined

/-- **Two JSON values have one canonical text just when they are equal.** -/
theorem canonicalJson_eq_iff {a b : JsValue N} (ha : a.IsJson) (hb : b.IsJson) :
    canonicalJson a = canonicalJson b ↔ JsonEqual a b := by
  refine ⟨fun htext => ?_, fun h => h.canonicalJson_eq ha hb⟩
  obtain ⟨v, hv, hav⟩ := exists_completes ha
  obtain ⟨w, hw, hbw⟩ := exists_completes hb
  obtain ⟨s, hs, hends⟩ := hv []
  obtain ⟨s', hs', hends'⟩ := hw []
  rw [htext, hs'] at hs
  obtain rfl := some.inj hs
  obtain rfl := some.inj (hends.result.symm.trans hends'.result)
  exact hav.trans hbw.symm

end Equality

end JsValue
end GajaeCode
