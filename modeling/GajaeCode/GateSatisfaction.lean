import Mathlib.Data.Fintype.Fin
import GajaeCode.Sha256
import GajaeCode.WorkflowGateSchema

/-! # Answers that satisfy the schema of a gate

What the supported keywords of JSON Schema mean, said of values alone: the properties of an
object are its own, numbers are compared by their values, and `const`, `enum` and
`uniqueItems` by equality as JSON.

The validator looks properties up on ordinary objects.  So every object seems to have the
properties of `Object.prototype`, and every `properties` a schema for them that says
nothing.  An answer passes just when it satisfies the schema but for those names.
-/
namespace GajaeCode
open JsString JsValue List

namespace WorkflowGate
variable {N : Type} [JsNumber N] [JsReal N] {engine : RegExpEngine}
variable {compiled : CompiledGateSchema N} {sha256 : JsString → JsString} {fields : JsFields N}
    {name gateId k : JsString}

inductive HasType : JsString → JsValue N → Prop
  | string (text : JsString) : HasType (js "string") (.string text)
  | number (n : N) : HasType (js "number") (.number n)
  | integer {n : N} (z : ℤ) (h : JsReal.value n = z) : HasType (js "integer") (.number n)
  | boolean (b : Bool) : HasType (js "boolean") (.boolean b)
  | object (fields : JsFields N) : HasType (js "object") (.object fields)
  | array (items : List (JsValue N)) : HasType (js "array") (.array items)
  | null : HasType (js "null") .null

/-- The keywords for strings, for numbers, and for arrays as a whole. -/
def MeetsLimits (engine : RegExpEngine) (schema : JsFields N) : JsValue N → Prop
  | .string text =>
    (∀ limit, getField schema (js "minLength") = .number limit →
      JsReal.value limit ≤ text.length) ∧
    (∀ limit, getField schema (js "maxLength") = .number limit →
      text.length ≤ JsReal.value limit) ∧
    ∀ pattern, getField schema (js "pattern") = .string pattern → engine.test pattern text = true
  | .number n =>
    (∀ limit, getField schema (js "minimum") = .number limit →
      JsReal.value limit ≤ JsReal.value n) ∧
    ∀ limit, getField schema (js "maximum") = .number limit →
      JsReal.value n ≤ JsReal.value limit
  | .array items =>
    (∀ limit, getField schema (js "minItems") = .number limit →
      JsReal.value limit ≤ items.length) ∧
    (∀ limit, getField schema (js "maxItems") = .number limit →
      items.length ≤ JsReal.value limit) ∧
    (getField schema (js "uniqueItems") = .boolean true →
      items.Pairwise fun v w => ¬ JsonEqual v w)
  | _ => True

/-- The keywords that do not look into the value. -/
structure MeetsKeywords (engine : RegExpEngine) (schema : JsFields N) (value : JsValue N) :
    Prop where
  type : ∀ type, getField schema (js "type") = .string type → HasType type value
  const : getField schema (js "const") ≠ .undefined →
    JsonEqual value (getField schema (js "const"))
  enum : ∀ values, getField schema (js "enum") = .array values → ∃ e ∈ values, JsonEqual e value
  limits : MeetsLimits engine schema value

/-- The value satisfies the schema, but for properties with the names `ignored`: those are never
missing, and what they hold does not count unless the schema lists them. -/
def SatisfiesBut (engine : RegExpEngine) (ignored : List JsString) (schema value : JsValue N) :
    Prop :=
  match schema with
  | .object schema =>
    MeetsKeywords engine schema value ∧
    (∀ fields, value = .object fields →
      (∀ name, .string name ∈ itemsOf (getField schema (js "required")) →
        name ∈ fields.map Prod.fst ∨ name ∈ ignored) ∧
      ∀ field ∈ fields,
        if field.1 ∈ (ownProperties (getField schema (js "properties"))).map Prod.fst then
          SatisfiesBut engine ignored
            (getField (ownProperties (getField schema (js "properties"))) field.1) field.2
        else field.1 ∉ ignored →
          getField schema (js "additionalProperties") ≠ .boolean false ∧
          ∀ additional, getField schema (js "additionalProperties") = .object additional →
            SatisfiesBut engine ignored (getField schema (js "additionalProperties")) field.2) ∧
    (∀ items, value = .array items → getField schema (js "items") ≠ .undefined →
      ∀ item ∈ items, SatisfiesBut engine ignored (getField schema (js "items")) item) ∧
    (getField schema (js "oneOf") ≠ .undefined →
      ∃! i : Fin (itemsOf (getField schema (js "oneOf"))).length,
        SatisfiesBut engine ignored ((itemsOf (getField schema (js "oneOf"))).get i) value) ∧
    (getField schema (js "anyOf") ≠ .undefined →
      ∃ branch, ∃ _ : branch ∈ itemsOf (getField schema (js "anyOf")),
        SatisfiesBut engine ignored branch value)
  | _ => False
termination_by sizeOf schema
decreasing_by
  · exact Nat.lt_of_le_of_lt (sizeOf_ownProperties _ _) (sizeOf_getField _ _)
  · exact sizeOf_getField _ _
  · exact sizeOf_getField _ _
  · exact Nat.lt_trans (sizeOf_of_mem_itemsOf (List.get_mem _ _)) (sizeOf_getField _ _)
  · exact Nat.lt_trans (sizeOf_of_mem_itemsOf ‹_›) (sizeOf_getField _ _)

def Satisfies (engine : RegExpEngine) (schema value : JsValue N) : Prop :=
  SatisfiesBut engine [] schema value

theorem andThen_eq_ok {a b : Except JsString Unit} :
    (a >>= fun _ => b) = .ok () ↔ a = .ok () ∧ b = .ok () := by
  cases a with
  | error message => exact iff_of_false (fun h => nomatch h) fun h => nomatch h.1
  | ok _ => exact (and_iff_right rfl).symm

theorem forM_eq_ok {α : Type} {f : α → Except JsString Unit} {l : List α} :
    l.forM f = .ok () ↔ ∀ a ∈ l, f a = .ok () := by
  induction l with
  | nil => exact iff_of_true rfl (forall_mem_nil _)
  | cons a l ih =>
    rw [forM_eq_forM, forM_cons, andThen_eq_ok, forall_mem_cons]
    exact and_congr_right fun _ => ih

/-- Nothing is wrong with the schema, somewhere in an accepted one. -/
def Accepted (engine : RegExpEngine) (schema : JsValue N) : Prop :=
  ∃ depth path, walkSchema engine schema depth path = .ok ()

structure AcceptedInside (engine : RegExpEngine) (schema : JsFields N) : Prop where
  properties : ∀ property ∈ ownProperties (getField schema (js "properties")),
    Accepted engine property.2
  additional : ∀ additional, getField schema (js "additionalProperties") = .object additional →
    Accepted engine (getField schema (js "additionalProperties"))
  items : getField schema (js "items") ≠ .undefined →
    Accepted engine (getField schema (js "items"))
  branches : ∀ combiner ∈ [js "oneOf", js "anyOf"],
    ∀ branch ∈ itemsOf (getField schema combiner), Accepted engine branch

theorem Accepted.exists_object {schema : JsValue N} (h : Accepted engine schema) :
    ∃ fields, schema = .object fields := by
  obtain ⟨depth, path, h⟩ := h
  unfold walkSchema at h
  split_ifs at h
  split at h
  · exact ⟨_, rfl⟩
  · cases h

theorem Accepted.inside {schema : JsFields N} (h : Accepted engine (.object schema)) :
    AcceptedInside engine schema := by
  obtain ⟨depth, path, h⟩ := h
  rw [walkSchema] at h
  split_ifs at h
  obtain ⟨-, h⟩ := andThen_eq_ok.mp h
  obtain ⟨hproperties, h⟩ := andThen_eq_ok.mp h
  obtain ⟨hadditional, h⟩ := andThen_eq_ok.mp h
  obtain ⟨hitems, hbranches⟩ := andThen_eq_ok.mp h
  constructor
  · cases hproperty : getField schema (js "properties") with
    | object properties =>
      rw [hproperty] at hproperties
      intro property hmem
      exact ⟨_, _, forM_eq_ok.mp (andThen_eq_ok.mp hproperties).2 property hmem⟩
    | _ => exact forall_mem_nil _
  · intro additional heq
    rw [heq] at hadditional ⊢
    exact ⟨_, _, hadditional⟩
  · intro hne
    cases heq : getField schema (js "items") with
    | undefined => exact absurd heq hne
    | _ =>
      rw [heq] at hitems
      exact ⟨_, _, hitems⟩
  · intro combiner hcombiner
    have hbranch := forM_eq_ok.mp hbranches combiner hcombiner
    cases heq : getField schema combiner with
    | array branches =>
      rw [heq] at hbranch
      intro branch hmem
      obtain ⟨i, hi, rfl⟩ := getElem_of_mem hmem
      exact ⟨_, _, forM_eq_ok.mp hbranch _ (mk_mem_zipIdx_iff_getElem?.mpr
        (getElem?_eq_getElem hi))⟩
    | _ => exact forall_mem_nil _

/-! ## One node -/

omit [JsNumber N] [JsReal N] in
theorem hasOwn_iff : hasOwn fields k = true ↔ k ∈ fields.map Prod.fst := by
  unfold hasOwn
  rw [← not_iff_not, Bool.not_eq_true, Option.isSome_eq_false_iff, Option.isNone_iff_eq_none]
  refine ⟨fun hnone hmem => ?_, fun hmem => lookup_eq_none_of_forall fun f hf heq =>
    hmem (mem_map.mpr ⟨f, hf, heq⟩)⟩
  obtain ⟨f, hf, rfl⟩ := mem_map.mp hmem
  exact absurd (lookup_eq_none_iff.mp hnone f hf) (by simp)

section Node
variable {schema : JsFields N} {value : JsValue N} {path : JsString}
variable {items : List (JsValue N)}

theorem typeMatches_iff {type : JsString} (hv : value.IsJson) :
    typeMatches type value = true ↔ HasType type value := by
  constructor
  · intro h
    unfold typeMatches at h
    split_ifs at h <;> subst type <;> cases value <;> try cases h
    case number n => exact .number n
    case number n =>
      obtain ⟨z, hz⟩ := (JsReal.isInteger_iff n hv).mp h
      exact .integer z hz
    all_goals constructor
  · intro h
    cases h with
    | integer z h => exact (JsReal.isInteger_iff _ hv).mpr ⟨z, h⟩
    | number n => exact hv
    | _ => rfl

theorem typeErrors_eq_nil (hv : value.IsJson) : typeErrors schema value path = [] ↔
    ∀ type, getField schema (js "type") = .string type → HasType type value := by
  unfold typeErrors
  cases htype : getField schema (js "type") with
  | string type => simp [← typeMatches_iff hv]
  | _ => simp

theorem constErrors_eq_nil (hs : IsJson (.object schema)) (hv : value.IsJson) :
    constErrors schema value path = [] ↔ (getField schema (js "const") ≠ .undefined →
      JsonEqual value (getField schema (js "const"))) := by
  unfold constErrors
  by_cases hundef : getField schema (js "const") = .undefined
  · simp [hundef, isUndefined]
  · have hdefined : (getField schema (js "const")).isUndefined = false := by
      rwa [← Bool.not_eq_true, isUndefined_iff]
    rw [← canonicalJson_eq_iff hv (hs.getField hundef)]
    simp [hdefined, hundef]

theorem enumErrors_eq_nil (hs : IsJson (.object schema)) (hv : value.IsJson) :
    enumErrors schema value path = [] ↔ ∀ values, getField schema (js "enum") = .array values →
      ∃ e ∈ values, JsonEqual e value := by
  unfold enumErrors
  cases henum : getField schema (js "enum") with
  | array values =>
    have hvalues := isJson_array.mp (henum ▸ hs.getField (by rw [henum]; simp))
    have hsome : (∃ e ∈ values, e.canonicalJson = value.canonicalJson) ↔
        ∃ e ∈ values, JsonEqual e value := exists_congr fun e =>
      and_congr_right fun he => canonicalJson_eq_iff (hvalues e he) hv
    simp only [array.injEq, forall_eq', ← hsome]
    simp
  | _ => simp

omit [JsReal N] in
theorem limitErrors_eq_nil {keyword : JsString} {violates : N → Bool}
    {message : JsString → JsString} : limitErrors schema path keyword violates message = [] ↔
      ∀ limit, getField schema keyword = .number limit → violates limit = false := by
  unfold limitErrors
  cases getField schema keyword with
  | number limit | _ => simp

omit [JsNumber N] [JsReal N] in
theorem patternErrors_eq_nil {text : JsString} : patternErrors engine schema path text = [] ↔
      ∀ pattern, getField schema (js "pattern") = .string pattern →
        engine.test pattern text = true := by
  unfold patternErrors
  cases getField schema (js "pattern") with
  | string pattern | _ => simp

omit [JsReal N] in
theorem hasRepeated_eq_false {seen : List JsString} : hasRepeated seen items = false ↔
      items.Pairwise (fun v w => v.canonicalJson ≠ w.canonicalJson) ∧
        ∀ v ∈ items, v.canonicalJson ∉ seen := by
  induction items generalizing seen with
  | nil => simp [hasRepeated]
  | cons v items ih =>
    rw [hasRepeated]
    rw [pairwise_cons, forall_mem_cons]
    simp only [contains_iff_mem]
    split_ifs with hmem
    · exact iff_of_false id fun h => h.2.1 hmem
    · rw [ih]
      constructor
      · rintro ⟨hpairwise, hseen⟩
        simp only [mem_cons, not_or] at hseen
        exact ⟨⟨fun w hw => Ne.symm (hseen w hw).1, hpairwise⟩, hmem, fun w hw => (hseen w hw).2⟩
      · rintro ⟨⟨hne, hpairwise⟩, -, hseen⟩
        refine ⟨hpairwise, fun w hw => ?_⟩
        rw [mem_cons, not_or]
        exact ⟨Ne.symm (hne w hw), hseen w hw⟩

theorem uniqueErrors_eq_nil (hitems : ∀ v ∈ items, v.IsJson) :
    uniqueErrors schema path items = [] ↔ (getField schema (js "uniqueItems") = .boolean true →
      items.Pairwise fun v w => ¬ JsonEqual v w) := by
  have hpairwise : hasRepeated [] items = false ↔ items.Pairwise fun v w => ¬ JsonEqual v w := by
    rw [hasRepeated_eq_false, and_iff_left fun v _ => not_mem_nil]
    refine List.Pairwise.iff_of_mem fun {v w} hv hw => not_congr ?_
    exact canonicalJson_eq_iff (hitems v hv) (hitems w hw)
  unfold uniqueErrors
  rw [← hpairwise]
  split
  · simp [*]
  · exact iff_of_true rfl fun h => absurd h ‹_›

omit [JsNumber N] [JsReal N] in
theorem requiredErrors_eq_nil {fields : JsFields N} : requiredErrors schema path fields = [] ↔
      ∀ name, .string name ∈ itemsOf (getField schema (js "required")) →
        name ∈ fields.map Prod.fst ∨ name ∈ inheritedNames := by
  unfold requiredErrors
  rw [flatMap_eq_nil_iff]
  have hproperty : ∀ name, hasProperty fields name = true ↔
      name ∈ fields.map Prod.fst ∨ name ∈ inheritedNames := fun name => by
    rw [hasProperty, Bool.or_eq_true, hasOwn_iff, contains_iff_mem]
  constructor
  · intro h name hname
    by_contra hmissing
    have hnil := h _ hname
    simp only [if_neg (mt (hproperty name).mp hmissing)] at hnil
    cases hnil
  · intro h req hreq
    cases req with
    | string name => exact if_pos ((hproperty name).mpr (h name hreq))
    | _ => rfl

theorem scalarErrors_eq_nil (hs : IsJson (.object schema)) (hv : value.IsJson) :
    scalarErrors engine schema value path = [] ↔ MeetsLimits engine schema value ∧
      ∀ fields, value = .object fields →
        ∀ name, .string name ∈ itemsOf (getField schema (js "required")) →
          name ∈ fields.map Prod.fst ∨ name ∈ inheritedNames := by
  have hfinite : ∀ {keyword : JsString} {limit : N}, getField schema keyword = .number limit →
      JsNumber.isFinite limit = true := fun {keyword limit} h => by
    have hnumber := hs.getField (k := keyword) (by rw [h]; simp)
    rwa [h] at hnumber
  have hbelow : ∀ {keyword : JsString} {limit : N} (length : Nat),
      getField schema keyword = .number limit →
      (JsReal.lengthBelow length limit = false ↔ JsReal.value limit ≤ length) :=
    fun {keyword limit} length h => by
      rw [← not_lt, ← JsReal.lengthBelow_iff length limit (hfinite h), Bool.not_eq_true]
  have habove : ∀ {keyword : JsString} {limit : N} (length : Nat),
      getField schema keyword = .number limit →
      (JsReal.lengthAbove length limit = false ↔ length ≤ JsReal.value limit) :=
    fun {keyword limit} length h => by
      rw [← not_lt, ← JsReal.lengthAbove_iff length limit (hfinite h), Bool.not_eq_true]
  have hlt : ∀ m n : N, JsNumber.isFinite m = true → JsNumber.isFinite n = true →
      (JsReal.lt m n = false ↔ JsReal.value n ≤ JsReal.value m) := fun m n hm hn => by
    rw [← not_lt, ← JsReal.lt_iff m n hm hn, Bool.not_eq_true]
  have hscalar : ∀ v : JsValue N, (∀ fields, v ≠ .object fields) → ∀ fields, v = .object fields →
      ∀ name, .string name ∈ itemsOf (getField schema (js "required")) →
        name ∈ fields.map Prod.fst ∨ name ∈ inheritedNames := fun v hne fields h =>
    absurd h (hne fields)
  cases value with
  | string text =>
    rw [scalarErrors, append_eq_nil_iff, append_eq_nil_iff, limitErrors_eq_nil, limitErrors_eq_nil,
      patternErrors_eq_nil, and_iff_left (hscalar (.string text) nofun), MeetsLimits, and_assoc]
    exact and_congr (forall₂_congr fun _ h => hbelow _ h)
      (and_congr_left' (forall₂_congr fun _ h => habove _ h))
  | number n =>
    rw [scalarErrors, append_eq_nil_iff, limitErrors_eq_nil, limitErrors_eq_nil,
      and_iff_left (hscalar (.number n) nofun), MeetsLimits]
    exact and_congr (forall₂_congr fun limit h => hlt _ _ hv (hfinite h))
      (forall₂_congr fun limit h => hlt _ _ (hfinite h) hv)
  | array items =>
    rw [scalarErrors, append_eq_nil_iff, append_eq_nil_iff, limitErrors_eq_nil,
      limitErrors_eq_nil, uniqueErrors_eq_nil (isJson_array.mp hv),
      and_iff_left (hscalar (.array items) nofun), MeetsLimits, and_assoc]
    exact and_congr (forall₂_congr fun _ h => hbelow _ h)
      (and_congr_left' (forall₂_congr fun _ h => habove _ h))
  | object fields =>
    rw [scalarErrors, requiredErrors_eq_nil]
    exact ⟨fun h => ⟨trivial, fun _ heq => object.inj heq ▸ h⟩, fun h => h.2 fields rfl⟩
  | _ => exact iff_of_true rfl ⟨trivial, fun _ h => nomatch h⟩

end Node

/-! ## The whole schema -/

theorem countP_eq_one_iff {α : Type} {p : α → Bool} {l : List α} :
    l.countP p = 1 ↔ ∃! i : Fin l.length, p (l.get i) = true := by
  have hcount : l.countP p = (finRange l.length).countP (p ∘ l.get) := by
    rw [← countP_map, map_get_finRange]
  rw [Fintype.existsUnique_iff_card_one, hcount, countP_eq_length_filter, Fin.univ_def]
  simp [Finset.card, Finset.filter, Function.comp_def]

section Inside
variable (validate : JsValue N → JsValue N → JsString → List (SchemaError N))
  (satisfied : JsValue N → JsValue N → Prop) (schema : JsFields N) (value : JsValue N)
  (path : JsString)

/-- What is wrong inside the value, where `validate` judges by the schemas inside. -/
def insideErrors : List (SchemaError N) :=
  match value with
  | .object fields =>
    let props := ownProperties (getField schema (js "properties"))
    fields.flatMap fun field =>
      if hasOwn props field.1 then
        validate (getField props field.1) field.2 (path ++ js "/" ++ field.1)
      else if inheritedNames.contains field.1 then []
      else match getField schema (js "additionalProperties") with
        | .boolean false => [⟨path ++ js "/" ++ field.1, js "additionalProperties",
            js "unexpected property", .undefined⟩]
        | .object _ => validate (getField schema (js "additionalProperties")) field.2
            (path ++ js "/" ++ field.1)
        | _ => []
  | .array items =>
    if (getField schema (js "items")).isUndefined then []
    else items.zipIdx.flatMap fun item =>
      validate (getField schema (js "items")) item.1 (path ++ js "/" ++ ofNat item.2)
  | _ => []

def combinerErrors (combiner : JsString) : List (SchemaError N) :=
  if (getField schema combiner).isUndefined then []
  else
    let matchCount := (itemsOf (getField schema combiner)).countP fun branch =>
      (validate branch value path).isEmpty
    let ok := if combiner = js "oneOf" then matchCount == 1 else decide (matchCount ≥ 1)
    if ok then []
    else [⟨path, combiner, js "value did not satisfy " ++ combiner, .undefined⟩]

theorem validateValue_object : validateValue engine (.object schema) value path =
    if (typeErrors schema value path).isEmpty then
      constErrors schema value path ++ enumErrors schema value path ++
        scalarErrors engine schema value path ++
        insideErrors (validateValue engine) schema value path ++
        [js "oneOf", js "anyOf"].flatMap (combinerErrors (validateValue engine) schema value path)
    else typeErrors schema value path := by
  have hcount : ∀ branches : List (JsValue N), branches.attach.countP (fun branch =>
      (validateValue engine branch.1 value path).isEmpty) =
      branches.countP fun branch => (validateValue engine branch value path).isEmpty :=
    fun _ => countP_attach
      (p := fun branch => (validateValue engine branch value path).isEmpty)
  unfold validateValue
  dsimp only
  simp only [hcount]
  rfl

/-- What the schemas inside say of the value. -/
def SatisfiedInside : Prop :=
  (∀ fields, value = .object fields → ∀ field ∈ fields,
    if field.1 ∈ (ownProperties (getField schema (js "properties"))).map Prod.fst then
      satisfied (getField (ownProperties (getField schema (js "properties"))) field.1) field.2
    else field.1 ∉ inheritedNames →
      getField schema (js "additionalProperties") ≠ .boolean false ∧
      ∀ additional, getField schema (js "additionalProperties") = .object additional →
        satisfied (getField schema (js "additionalProperties")) field.2) ∧
  ∀ items, value = .array items → getField schema (js "items") ≠ .undefined →
    ∀ item ∈ items, satisfied (getField schema (js "items")) item

variable {validate satisfied schema value path}

/-- `validate` judges by the schemas inside as `satisfied` says. -/
def AgreesInside (engine : RegExpEngine)
    (validate : JsValue N → JsValue N → JsString → List (SchemaError N))
    (satisfied : JsValue N → JsValue N → Prop) (schema : JsFields N) : Prop :=
  ∀ (k : JsString) {child value : JsValue N} (path : JsString),
    sizeOf child ≤ sizeOf (getField schema k) → Accepted engine child → child.IsJson →
      value.IsJson → (validate child value path = [] ↔ satisfied child value)

omit [JsReal N] in
/-- A schema that `properties` lists is one of its properties. -/
theorem exists_property (hs : IsJson (.object schema)) {keyword k : JsString}
    (hk : k ∈ (ownProperties (getField schema keyword)).map Prod.fst) :
    ∃ property ∈ ownProperties (getField schema keyword),
      getField (ownProperties (getField schema keyword)) k = property.2 ∧ property.2.IsJson := by
  obtain ⟨property, hmem, rfl⟩ := mem_map.mp hk
  cases heq : getField schema keyword with
  | object properties =>
    have hjson : IsJson (.object properties) := heq ▸ hs.getField (by rw [heq]; simp)
    rw [heq] at hmem
    rw [isJson_object] at hjson
    exact ⟨property, hmem, getField_of_mem hjson.1 hmem, hjson.2 _ hmem⟩
  | _ =>
    rw [heq] at hmem
    exact absurd hmem not_mem_nil

theorem insideErrors_eq_nil (h : AgreesInside engine validate satisfied schema)
    (hinside : AcceptedInside engine schema) (hs : IsJson (.object schema)) (hv : value.IsJson) :
    insideErrors validate schema value path = [] ↔ SatisfiedInside satisfied schema value := by
  unfold insideErrors SatisfiedInside
  cases value with
  | object fields =>
    rw [and_iff_left (show ∀ items, JsValue.object fields = .array items → _ from
      fun _ h => by cases h)]
    simp only [object.injEq, forall_eq', flatMap_eq_nil_iff]
    refine forall₂_congr fun field hfield => ?_
    have hvalue := (isJson_object.mp hv).2 field hfield
    by_cases hown : field.1 ∈ (ownProperties (getField schema (js "properties"))).map Prod.fst
    · rw [if_pos (hasOwn_iff.mpr hown), if_pos hown]
      obtain ⟨property, hmem, hget, hjson⟩ := exists_property hs hown
      exact h (js "properties") _ (sizeOf_ownProperties _ _)
        (hget ▸ hinside.properties property hmem) (hget ▸ hjson) hvalue
    · rw [if_neg (mt hasOwn_iff.mp hown), if_neg hown]
      by_cases hinherited : field.1 ∈ inheritedNames
      · rw [if_pos (contains_iff_mem.mpr hinherited)]
        exact iff_of_true rfl fun hne => absurd hinherited hne
      · rw [if_neg (mt contains_iff_mem.mp hinherited), imp_iff_right hinherited]
        cases hadd : getField schema (js "additionalProperties") with
        | object additional =>
          have hjson := hs.getField (k := js "additionalProperties") (by rw [hadd]; simp)
          have hchild := h (js "additionalProperties") (path ++ js "/" ++ field.1) (le_of_eq rfl)
            (hinside.additional additional hadd) hjson hvalue
          rw [hadd] at hchild
          simpa using hchild
        | boolean b => cases b <;> simp
        | _ => simp
  | array items =>
    rw [and_iff_right (show ∀ fields, JsValue.array items = .object fields → _ from
      fun _ h => by cases h)]
    simp only [array.injEq, forall_eq']
    by_cases hitems : getField schema (js "items") = .undefined
    · rw [if_pos (isUndefined_iff.mpr hitems)]
      exact iff_of_true rfl fun hne => absurd hitems hne
    · rw [if_neg (mt isUndefined_iff.mp hitems), flatMap_eq_nil_iff, imp_iff_right hitems]
      have hchild : ∀ item ∈ items, ∀ path, validate (getField schema (js "items")) item path = [] ↔
          satisfied (getField schema (js "items")) item := fun item hitem path =>
        h (js "items") path (le_of_eq rfl) (hinside.items hitems) (hs.getField hitems)
          (isJson_array.mp hv item hitem)
      constructor
      · intro hnil item hitem
        obtain ⟨i, hi, rfl⟩ := getElem_of_mem hitem
        exact (hchild _ hitem _).mp (hnil _ (mk_mem_zipIdx_iff_getElem?.mpr
          (getElem?_eq_getElem hi)))
      · intro hsatisfied item hitem
        have hmem : item.1 ∈ items := mem_of_getElem? (mem_zipIdx_iff_getElem?.mp hitem)
        exact (hchild _ hmem _).mpr (hsatisfied _ hmem)
  | _ => exact iff_of_true rfl ⟨fun _ h => (by cases h), fun _ h => by cases h⟩

omit [JsNumber N] [JsReal N] in
theorem combinerErrors_iff {combiner : JsString} :
    combinerErrors validate schema value path combiner = [] ↔
      (getField schema combiner ≠ .undefined →
        let matchCount := (itemsOf (getField schema combiner)).countP fun branch =>
          (validate branch value path).isEmpty
        if combiner = js "oneOf" then matchCount = 1 else matchCount ≥ 1) := by
  unfold combinerErrors
  by_cases hundef : getField schema combiner = .undefined
  · rw [if_pos (isUndefined_iff.mpr hundef)]
    exact iff_of_true rfl fun hne => absurd hundef hne
  · rw [if_neg (mt isUndefined_iff.mp hundef), imp_iff_right hundef]
    by_cases hone : combiner = js "oneOf" <;> simp [hone]

theorem combinerErrors_eq_nil (h : AgreesInside engine validate satisfied schema)
    (hinside : AcceptedInside engine schema) (hs : IsJson (.object schema)) (hv : value.IsJson) :
    [js "oneOf", js "anyOf"].flatMap (combinerErrors validate schema value path) = [] ↔
      (getField schema (js "oneOf") ≠ .undefined →
        ∃! i : Fin (itemsOf (getField schema (js "oneOf"))).length,
          satisfied ((itemsOf (getField schema (js "oneOf"))).get i) value) ∧
      (getField schema (js "anyOf") ≠ .undefined →
        ∃ branch, ∃ _ : branch ∈ itemsOf (getField schema (js "anyOf")),
          satisfied branch value) := by
  have hbranch : ∀ combiner ∈ [js "oneOf", js "anyOf"],
      ∀ branch ∈ itemsOf (getField schema combiner),
        (validate branch value path).isEmpty = true ↔ satisfied branch value :=
    fun combiner hcombiner branch hmem => by
      rw [List.isEmpty_iff]
      have hjson : branch.IsJson := by
        cases heq : getField schema combiner with
        | array branches =>
          have hjson := hs.getField (k := combiner) (by rw [heq]; simp)
          rw [heq] at hjson hmem
          exact isJson_array.mp hjson branch hmem
        | _ =>
          rw [heq] at hmem
          exact absurd hmem not_mem_nil
      exact h combiner path (Nat.le_of_lt (sizeOf_of_mem_itemsOf hmem))
        (hinside.branches combiner hcombiner branch hmem) hjson hv
  have hone := hbranch (js "oneOf") mem_cons_self
  have hany := hbranch (js "anyOf") (mem_cons_of_mem _ mem_cons_self)
  rw [flatMap_cons, flatMap_singleton, append_eq_nil_iff]
  refine and_congr ?_ ?_
  · rw [combinerErrors_iff, if_pos rfl, countP_eq_one_iff]
    refine imp_congr_right fun _ => existsUnique_congr fun i => ?_
    exact hone _ (get_mem _ i)
  · rw [combinerErrors_iff, if_neg (by decide), ge_iff_le, one_le_countP_iff]
    refine imp_congr_right fun _ => exists_congr fun branch => ?_
    rw [exists_prop]
    exact and_congr_right (hany branch)

end Inside

/-- **An answer passes just when it satisfies the schema but for inherited names.** -/
theorem validateValue_eq_nil_iff {schema value : JsValue N} (haccepted : Accepted engine schema)
    (hs : schema.IsJson) (hv : value.IsJson) (path : JsString) :
    validateValue engine schema value path = [] ↔
      SatisfiesBut engine inheritedNames schema value := by
  induction hsize : sizeOf schema using Nat.strongRecOn generalizing schema value path with
  | ind size ih =>
    obtain ⟨schema, rfl⟩ := haccepted.exists_object
    have hinside := haccepted.inside
    have hagrees : AgreesInside engine (validateValue engine)
        (SatisfiesBut engine inheritedNames) schema := fun k _ _ path hle ha hc hv =>
      ih _ (hsize ▸ Nat.lt_of_le_of_lt hle (sizeOf_getField schema k)) ha hc hv path rfl
    have htype := @typeErrors_eq_nil N _ _ schema value path hv
    rw [validateValue_object, SatisfiesBut]
    by_cases hnil : typeErrors schema value path = []
    · rw [if_pos (List.isEmpty_iff.mpr hnil)]
      simp only [append_eq_nil_iff]
      rw [constErrors_eq_nil hs hv, enumErrors_eq_nil hs hv, scalarErrors_eq_nil hs hv,
        insideErrors_eq_nil hagrees hinside hs hv, combinerErrors_eq_nil hagrees hinside hs hv]
      constructor
      · rintro ⟨⟨⟨⟨hconst, henum⟩, hlimits, hrequired⟩, hobject, hitems⟩, hbranches⟩
        exact ⟨⟨htype.mp hnil, hconst, henum, hlimits⟩,
          fun fields hf => ⟨hrequired fields hf, hobject fields hf⟩, hitems, hbranches⟩
      · rintro ⟨⟨-, hconst, henum, hlimits⟩, hobject, hitems, hbranches⟩
        exact ⟨⟨⟨⟨hconst, henum⟩, hlimits, fun fields hf => (hobject fields hf).1⟩,
          fun fields hf => (hobject fields hf).2, hitems⟩, hbranches⟩
    · rw [if_neg (mt List.isEmpty_iff.mp hnil)]
      exact iff_of_false hnil fun h => hnil (htype.mpr h.1.type)

/-! ## Names that do not occur -/

/-- The name occurs in the value, as a string or as a key. -/
inductive Mentions (name : JsString) : JsValue N → Prop
  | string : Mentions name (.string name)
  | item {items : List (JsValue N)} {item : JsValue N} (hmem : item ∈ items)
      (h : Mentions name item) : Mentions name (.array items)
  | key {fields : JsFields N} (hmem : name ∈ fields.map Prod.fst) : Mentions name (.object fields)
  | field {fields : JsFields N} {field : JsString × JsValue N} (hmem : field ∈ fields)
      (h : Mentions name field.2) : Mentions name (.object fields)

section
omit [JsNumber N] [JsReal N]

theorem mentions_array {name : JsString} {items : List (JsValue N)} :
    Mentions name (.array items) ↔ ∃ item ∈ items, Mentions name item :=
  ⟨fun h => by cases h with | item hmem h => exact ⟨_, hmem, h⟩, fun ⟨_, hmem, h⟩ => .item hmem h⟩

theorem mentions_object {name : JsString} {fields : JsFields N} : Mentions name (.object fields) ↔
    name ∈ fields.map Prod.fst ∨ ∃ field ∈ fields, Mentions name field.2 := by
  constructor
  · intro h
    cases h with
    | key hkey => exact .inl hkey
    | field hmem h => exact .inr ⟨_, hmem, h⟩
  · rintro (hkey | ⟨_, hmem, h⟩)
    · exact .key hkey
    · exact .field hmem h

theorem mentions_string {name text : JsString} :
    Mentions name (.string text : JsValue N) ↔ name = text :=
  ⟨fun h => by cases h; rfl, fun h => h ▸ .string⟩

theorem mentions_number {name : JsString} {n : N} : ¬ Mentions name (.number n) := nofun

theorem Mentions.of_getField (h : Mentions name (getField fields k)) :
    Mentions name (.object fields) := by
  cases hlookup : fields.lookup k with
  | none =>
    rw [getField, hlookup] at h
    cases h
  | some v =>
    obtain ⟨before, after, rfl, -⟩ := lookup_eq_some_iff.mp hlookup
    rw [getField, hlookup] at h
    exact .field (mem_append_right _ mem_cons_self) h

theorem Mentions.of_ownProperties {v : JsValue N} (h : Mentions name (getField (ownProperties v) k))
    : Mentions name v := by
  cases v with
  | object fields => exact h.of_getField
  | _ => cases h

theorem Mentions.of_mem_itemsOf {v item : JsValue N} (hmem : item ∈ itemsOf v)
    (h : Mentions name item) : Mentions name v := by
  cases v with
  | array items => exact .item hmem h
  | _ => exact absurd hmem not_mem_nil

end

/-- Names that occur neither in the schema nor in the value need not be ignored. -/
theorem satisfiesBut_iff_satisfies {ignored : List JsString} {schema value : JsValue N}
    (hs : ∀ name ∈ ignored, ¬ Mentions name schema) (hv : ∀ name ∈ ignored, ¬ Mentions name value) :
    SatisfiesBut engine ignored schema value ↔ Satisfies engine schema value := by
  unfold Satisfies
  induction hsize : sizeOf schema using Nat.strongRecOn generalizing schema value with
  | ind size ih =>
    cases schema with
    | object schema =>
      have hchild : ∀ {child value : JsValue N} (k : JsString),
          sizeOf child ≤ sizeOf (getField schema k) →
          (∀ name, Mentions name child → Mentions name (getField schema k)) →
          (∀ name ∈ ignored, ¬ Mentions name value) →
          (SatisfiesBut engine ignored child value ↔ SatisfiesBut engine [] child value) :=
        fun k hle hinside hv =>
          ih _ (hsize ▸ Nat.lt_of_le_of_lt hle (sizeOf_getField schema k))
            (fun name hname h => hs name hname (hinside name h).of_getField) hv rfl
      rw [SatisfiesBut, SatisfiesBut]
      refine and_congr_right fun _ => and_congr ?_ (and_congr ?_ (and_congr ?_ ?_))
      · refine forall₂_congr fun fields hfields => and_congr ?_ ?_
        · refine forall₂_congr fun name hname => or_congr_right ?_
          refine iff_of_false (fun hignored => hs name hignored ?_) not_mem_nil
          exact ((Mentions.string).of_mem_itemsOf hname).of_getField
        · refine forall₂_congr fun field hfield => ?_
          have hname : field.1 ∉ ignored := fun hignored =>
            hv _ hignored (hfields ▸ .key (mem_map_of_mem hfield))
          have hvalue : ∀ name ∈ ignored, ¬ Mentions name field.2 := fun name hignored h =>
            hv name hignored (hfields ▸ .field hfield h)
          split_ifs
          · exact hchild _ (sizeOf_ownProperties _ _) (fun _ h => h.of_ownProperties) hvalue
          · rw [imp_iff_right hname, imp_iff_right not_mem_nil]
            exact and_congr_right fun _ => forall₂_congr fun _ _ =>
              hchild _ le_rfl (fun _ h => h) hvalue
      · refine forall₂_congr fun items hitems => forall₃_congr fun _ item hitem => ?_
        exact hchild _ le_rfl (fun _ h => h) fun name hignored h =>
          hv name hignored (hitems ▸ .item hitem h)
      · refine forall_congr' fun _ => existsUnique_congr fun i => ?_
        have hmem := get_mem _ i
        exact hchild _ (Nat.le_of_lt (sizeOf_of_mem_itemsOf hmem))
          (fun _ h => h.of_mem_itemsOf hmem) hv
      · refine forall_congr' fun _ => exists₂_congr fun branch hmem => ?_
        exact hchild _ (Nat.le_of_lt (sizeOf_of_mem_itemsOf hmem))
          (fun _ h => h.of_mem_itemsOf hmem) hv
    | _ =>
      unfold SatisfiesBut
      rfl

theorem validateGateAnswer_eq_none_iff {schema answer : JsValue N} (hs : schema.IsJson)
    (hcompiled : compileGateSchema engine sha256 schema = .ok compiled) (ha : answer.IsJson)
    (hsize : (utf8 answer.canonicalJson).length ≤ maxAnswerBytes) :
    validateGateAnswer engine compiled gateId answer = none ↔
      SatisfiesBut engine inheritedNames schema answer := by
  cases hassert : assertSupportedGateSchema engine schema with
  | error message =>
    rw [compileGateSchema, hassert] at hcompiled
    cases hcompiled
  | ok _ =>
    rw [compileGateSchema, hassert] at hcompiled
    obtain rfl := Except.ok.inj hcompiled
    have haccepted : Accepted engine schema := ⟨_, _, (andThen_eq_ok.mp hassert).2⟩
    rw [validateGateAnswer, CompiledGateSchema.validate, if_neg (not_lt.mpr hsize),
      ← validateValue_eq_nil_iff haccepted hs ha (js "#"), ← List.isEmpty_iff]
    simp

/-- **An answer is judged by the advertised schema just when the inherited names decide nothing**:
left out of account, they do not change whether the answer satisfies the schema. -/
theorem judged_by_schema_iff (engine : RegExpEngine) (sha256 : JsString → JsString)
    (gateId : JsString) {schema answer : JsValue N} {compiled : CompiledGateSchema N}
    (hs : schema.IsJson) (hcompiled : compileGateSchema engine sha256 schema = .ok compiled)
    (ha : answer.IsJson) (hsize : (utf8 answer.canonicalJson).length ≤ maxAnswerBytes) :
    (validateGateAnswer engine compiled gateId answer = none ↔ Satisfies engine schema answer) ↔
      (SatisfiesBut engine inheritedNames schema answer ↔ Satisfies engine schema answer) := by
  rw [validateGateAnswer_eq_none_iff hs hcompiled ha hsize]

/-- **An answer is judged by the advertised schema where no inherited name occurs.** -/
theorem judged_by_schema_of_not_mentions {schema answer : JsValue N} (hs : schema.IsJson)
    (hcompiled : compileGateSchema engine sha256 schema = .ok compiled) (ha : answer.IsJson)
    (hsize : (utf8 answer.canonicalJson).length ≤ maxAnswerBytes)
    (hschema : ∀ name ∈ inheritedNames, ¬ Mentions name schema)
    (hanswer : ∀ name ∈ inheritedNames, ¬ Mentions name answer) :
    validateGateAnswer engine compiled gateId answer = none ↔ Satisfies engine schema answer :=
  (validateGateAnswer_eq_none_iff hs hcompiled ha hsize).trans
    (satisfiesBut_iff_satisfies hschema hanswer)

theorem compile_of_isOk {schema : JsValue N}
    (h : (assertSupportedGateSchema engine schema).isOk = true) :
    compileGateSchema engine sha256 schema = .ok ⟨schema, sha256 schema.canonicalJson⟩ := by
  rw [compileGateSchema]
  cases hassert : assertSupportedGateSchema engine schema with
  | error message =>
    rw [hassert] at h
    cases h
  | ok _ => rfl

def noPatterns : RegExpEngine := ⟨fun _ => none, fun _ _ => true⟩

/-- `{type: "object", required: ["toString"]}` -/
def requiresToString : JsValue Nat :=
  .object [(js "type", .string (js "object")),
    (js "required", .array [.string (js "toString")])]

theorem isJson_requiresToString : requiresToString.IsJson :=
  ⟨by decide, trivial, ⟨trivial, trivial⟩, trivial⟩

theorem judged_by_schema_iff_toString :
    (validateGateAnswer noPatterns ⟨requiresToString, requiresToString.canonicalJson⟩ (js "g")
        (.object []) = none ↔ Satisfies noPatterns requiresToString (.object [])) ↔
      (SatisfiesBut noPatterns inheritedNames requiresToString (.object []) ↔
        Satisfies noPatterns requiresToString (.object [])) :=
  judged_by_schema_iff noPatterns id (js "g") isJson_requiresToString
    (compile_of_isOk (by decide +kernel)) ⟨nodup_nil, trivial⟩ (by decide +kernel)

/-- An empty answer has the property `toString`, it seems. -/
theorem toString_not_required :
    ¬ (validateGateAnswer noPatterns ⟨requiresToString, requiresToString.canonicalJson⟩ (js "g")
        (.object []) = none ↔ Satisfies noPatterns requiresToString (.object [])) := by
  have hpasses : (validateGateAnswer noPatterns
      ⟨requiresToString, requiresToString.canonicalJson⟩ (js "g") (.object [])).isNone = true := by
    decide +kernel
  have hmissing : ¬ Satisfies noPatterns requiresToString (.object []) := by
    rw [Satisfies, requiresToString, SatisfiesBut]
    intro h
    have hname := (h.2.1 [] rfl).1 (js "toString") mem_cons_self
    simp at hname
  exact fun h => hmissing (h.mp (Option.isNone_iff_eq_none.mp hpasses))

/-- Tags are short texts or numbers from 3 on. -/
def tagsSchema : JsValue Nat :=
  .object [(js "type", .string (js "object")), (js "required", .array [.string (js "tags")]),
    (js "properties", .object [(js "tags", .object [(js "items", .object [(js "oneOf", .array
      [.object [(js "type", .string (js "string")), (js "maxLength", .number 2)],
        .object [(js "type", .string (js "number")), (js "minimum", .number 3)]])])])])]

def tagsAnswer : JsValue Nat :=
  .object [(js "tags", .array [.string (js "ab"), .number 4])]

theorem judged_by_schema_of_not_mentions_tags : Satisfies noPatterns tagsSchema tagsAnswer := by
  have hpasses : (validateGateAnswer noPatterns
      ⟨tagsSchema, Sha256.hexDigest tagsSchema.canonicalJson⟩ (js "g") tagsAnswer).isNone = true := by
    decide +kernel
  have hschema : tagsSchema.IsJson := by
    simp only [tagsSchema, JsValue.IsJson, JsValue.ItemsJson, JsValue.FieldsJson]
    decide
  have hanswer : tagsAnswer.IsJson := by
    simp only [tagsAnswer, JsValue.IsJson, JsValue.ItemsJson, JsValue.FieldsJson]
    decide
  refine (judged_by_schema_of_not_mentions hschema (compile_of_isOk (by decide +kernel)) hanswer
    (by decide +kernel) ?_ ?_).mp (Option.isNone_iff_eq_none.mp hpasses)
  · simp only [tagsSchema, mentions_object, mentions_array, exists_mem_cons_iff, mentions_string,
      mentions_number, not_mem_nil, false_and, exists_false]
    decide
  · simp only [tagsAnswer, mentions_object, mentions_array, exists_mem_cons_iff, mentions_string,
      mentions_number, not_mem_nil, false_and, exists_false]
    decide

/-- **The hash of a gate stands for its schema**: two gates have the same just when their schemas
are equal as JSON. -/
theorem hash_eq_iff {a b : JsValue N} {gate gate' : CompiledGateSchema N} (ha : a.IsJson)
    (hb : b.IsJson) (hgate : compileGateSchema engine sha256 a = .ok gate)
    (hgate' : compileGateSchema engine sha256 b = .ok gate')
    (hsha256 : sha256 a.canonicalJson = sha256 b.canonicalJson →
      a.canonicalJson = b.canonicalJson) : gate.hash = gate'.hash ↔ JsonEqual a b := by
  have hhash : ∀ {schema : JsValue N} {gate}, compileGateSchema engine sha256 schema = .ok gate →
      gate.hash = sha256 schema.canonicalJson := by
    intro schema gate h
    rw [compileGateSchema] at h
    cases hassert : assertSupportedGateSchema engine schema <;> rw [hassert] at h <;> cases h
    rfl
  rw [hhash hgate, hhash hgate', ← canonicalJson_eq_iff ha hb]
  exact ⟨hsha256, congrArg sha256⟩

/-- The same schema with its keys the other way. -/
def requiredFirst : JsValue Nat :=
  .object [(js "required", .array [.string (js "toString")]),
    (js "type", .string (js "object"))]

theorem hash_eq_iff_requiredFirst : JsonEqual requiresToString requiredFirst := by
  have htexts : requiresToString.canonicalJson = requiredFirst.canonicalJson := by decide +kernel
  have hjson : requiredFirst.IsJson := ⟨by decide, ⟨trivial, trivial⟩, trivial, trivial⟩
  have hfirst : compileGateSchema noPatterns Sha256.hexDigest requiresToString = .ok ⟨_, _⟩ :=
    compile_of_isOk (by decide +kernel)
  have hsecond : compileGateSchema noPatterns Sha256.hexDigest requiredFirst = .ok ⟨_, _⟩ :=
    compile_of_isOk (by decide +kernel)
  refine (hash_eq_iff isJson_requiresToString hjson hfirst hsecond fun _ => htexts).mp ?_
  exact congrArg Sha256.hexDigest htexts

end WorkflowGate
end GajaeCode
