import GajaeCode.CanonicalJson
import GajaeCode.TeamEvidence

/-! # The schemas of workflow gates

`packages/coding-agent/src/modes/shared/agent-wire/workflow-gate-schema.ts`: which schemas a
gate may advertise, and what is wrong with an answer.

Regular expressions and SHA-256 are parameters.  The compiled schemas, which are kept by
their hash, are left out.
-/
namespace GajaeCode
open JsString JsValue

structure RegExpEngine where
  /-- What `new RegExp(pattern)` throws, if it does. -/
  invalid : JsString → Option JsString
  /-- `new RegExp(pattern).test(value)`, for a pattern that is valid. -/
  test : JsString → JsString → Bool

namespace WorkflowGate

def SUPPORTED_KEYWORDS : List JsString :=
  [js "type", js "enum", js "const", js "properties", js "required", js "additionalProperties",
    js "items", js "minLength", js "maxLength", js "pattern", js "minItems", js "maxItems",
    js "uniqueItems", js "minimum", js "maximum", js "title", js "description", js "oneOf",
    js "anyOf"]

def SUPPORTED_TYPES : List JsString :=
  [js "string", js "number", js "integer", js "boolean", js "object", js "array", js "null"]

/-! `GATE_SCHEMA_LIMITS` -/

def maxSchemaBytes : Nat := 64 * 1024
def maxDepth : Nat := 16
def maxProperties : Nat := 256
def maxEnumValues : Nat := 512
def maxAnswerBytes : Nat := 256 * 1024

/-- The properties that an object inherits from `Object.prototype`. -/
def inheritedNames : List JsString :=
  [js "constructor", js "__defineGetter__", js "__defineSetter__", js "hasOwnProperty",
    js "__lookupGetter__", js "__lookupSetter__", js "isPrototypeOf", js "propertyIsEnumerable",
    js "toString", js "valueOf", js "__proto__", js "toLocaleString"]

variable {N : Type}

/-- `Object.hasOwn(object, k)` -/
def hasOwn (object : JsFields N) (k : JsString) : Bool := (object.lookup k).isSome

/-- `k in object` -/
def hasProperty (object : JsFields N) (k : JsString) : Bool :=
  hasOwn object k || inheritedNames.contains k

def ownProperties : JsValue N → JsFields N
  | .object fields => fields
  | _ => []

def itemsOf : JsValue N → List (JsValue N)
  | .array items => items
  | _ => []

theorem sizeOf_getField (fields : JsFields N) (k : JsString) :
    sizeOf (getField fields k) < sizeOf (JsValue.object fields) := by
  unfold getField
  cases hlookup : fields.lookup k with
  | none =>
    have hpos : 0 < sizeOf fields := by cases fields <;> simp
    simp only [Option.getD_none, undefined.sizeOf_spec, object.sizeOf_spec]
    omega
  | some v =>
    obtain ⟨before, after, hfields, -⟩ := List.lookup_eq_some_iff.mp hlookup
    have hmem : (k, v) ∈ fields := hfields ▸ List.mem_append_right _ List.mem_cons_self
    have hsize := List.sizeOf_lt_of_mem hmem
    simp only [Prod.mk.sizeOf_spec, Option.getD_some, object.sizeOf_spec] at hsize ⊢
    omega

theorem sizeOf_ownProperties (v : JsValue N) (k : JsString) :
    sizeOf (getField (ownProperties v) k) ≤ sizeOf v := by
  cases v with
  | object fields => exact Nat.le_of_lt (sizeOf_getField fields k)
  | _ => simp [ownProperties]

theorem sizeOf_of_mem_itemsOf {v item : JsValue N} (h : item ∈ itemsOf v) :
    sizeOf item < sizeOf v := by
  cases v with
  | array items =>
    have hsize := List.sizeOf_lt_of_mem (show item ∈ items from h)
    simp only [array.sizeOf_spec]
    omega
  | _ => exact absurd h List.not_mem_nil

/-! ## Schemas -/

/-- `if (bad) throw new WorkflowGateSchemaError(message)` -/
def throwIf (bad : Bool) (message : JsString) : Except JsString Unit :=
  if bad then .error message else .ok ()

section Checks
variable [JsNumber N] [JsReal N] (engine : RegExpEngine) (schema : JsFields N) (path : JsString)

def checkKeywords : Except JsString Unit :=
  match (schema.map Prod.fst).find? (fun key => !SUPPORTED_KEYWORDS.contains key) with
  | some key => .error (js "unsupported keyword \"" ++ key ++ js "\" at " ++ path)
  | none => .ok ()

def checkType : Except JsString Unit :=
  match getField schema (js "type") with
  | .undefined => .ok ()
  | type =>
    throwIf (!SUPPORTED_TYPES.any fun supported => TeamTasks.equalsText supported type)
      (js "unsupported type \"" ++ TeamTasks.stringOf type ++ js "\" at " ++ path)

def checkEnum : Except JsString Unit :=
  match getField schema (js "enum") with
  | .undefined => .ok ()
  | .array values =>
    throwIf (values.length > maxEnumValues)
      (js "enum at " ++ path ++ js " exceeds " ++ ofNat maxEnumValues ++ js " values")
  | _ => .error (js "enum at " ++ path ++ js " must be an array")

/-- `title` and `description` -/
def checkText (keyword : JsString) : Except JsString Unit :=
  match getField schema keyword with
  | .undefined | .string _ => .ok ()
  | _ => .error (keyword ++ js " at " ++ path ++ js " must be a string")

def checkPattern : Except JsString Unit :=
  match getField schema (js "pattern") with
  | .undefined => .ok ()
  | .string pattern =>
    match engine.invalid pattern with
    | some message => .error
      (js "pattern at " ++ path ++ js " must be a valid regular expression: " ++ message)
    | none => .ok ()
  | _ => .error (js "pattern at " ++ path ++ js " must be a string")

/-- `minLength`, `maxLength`, `minItems` and `maxItems` -/
def checkLength (limit : JsString) : Except JsString Unit :=
  let message := limit ++ js " at " ++ path ++ js " must be a non-negative integer"
  match getField schema limit with
  | .undefined => .ok ()
  | .number n => throwIf (!JsReal.isInteger n || JsReal.isNegative n) message
  | _ => .error message

def checkUniqueItems : Except JsString Unit :=
  match getField schema (js "uniqueItems") with
  | .undefined | .boolean _ => .ok ()
  | _ => .error (js "uniqueItems at " ++ path ++ js " must be a boolean")

/-- `minimum` and `maximum` -/
def checkBound (limit : JsString) : Except JsString Unit :=
  let message := limit ++ js " at " ++ path ++ js " must be a finite number"
  match getField schema limit with
  | .undefined => .ok ()
  | .number n => throwIf (!JsNumber.isFinite n) message
  | _ => .error message

def checkRequired : Except JsString Unit :=
  let message := js "required at " ++ path ++ js " must be an array of strings"
  match getField schema (js "required") with
  | .undefined => .ok ()
  | .array names => throwIf (!names.all fun name => name matches .string _) message
  | _ => .error message

def checkNode : Except JsString Unit := do
  checkKeywords schema path
  checkType schema path
  checkEnum schema path
  [js "title", js "description"].forM (checkText schema path)
  checkPattern engine schema path
  [js "minLength", js "maxLength", js "minItems", js "maxItems"].forM (checkLength schema path)
  checkUniqueItems schema path
  [js "minimum", js "maximum"].forM (checkBound schema path)
  checkRequired schema path

end Checks

variable [JsNumber N] [JsReal N]

def walkSchema (engine : RegExpEngine) (schema : JsValue N) (depth : Nat) (path : JsString) :
    Except JsString Unit :=
  if _hdepth : depth > maxDepth then
    .error (js "schema nesting exceeds depth " ++ ofNat maxDepth ++ js " at " ++ path)
  else match schema with
  | .object schema => do
    checkNode engine schema path
    (match getField schema (js "properties") with
      | .undefined => .ok ()
      | .object properties => do
        throwIf (properties.length > maxProperties)
          (js "properties at " ++ path ++ js " exceed " ++ ofNat maxProperties)
        properties.forM fun property =>
          walkSchema engine property.2 (depth + 1) (path ++ js "/properties/" ++ property.1)
      | _ => .error (js "properties at " ++ path ++ js " must be an object"))
    (match getField schema (js "additionalProperties") with
      | .undefined | .boolean _ => .ok ()
      | .object additional =>
        walkSchema engine (.object additional) (depth + 1) (path ++ js "/additionalProperties")
      | _ =>
        .error (js "additionalProperties at " ++ path ++ js " must be a boolean or schema object"))
    (match getField schema (js "items") with
      | .undefined => .ok ()
      | items => walkSchema engine items (depth + 1) (path ++ js "/items"))
    [js "oneOf", js "anyOf"].forM fun combiner =>
      match getField schema combiner with
      | .undefined => .ok ()
      | .array branches => branches.zipIdx.forM fun branch =>
        walkSchema engine branch.1 (depth + 1)
          (path ++ js "/" ++ combiner ++ js "/" ++ ofNat branch.2)
      | _ => .error (combiner ++ js " at " ++ path ++ js " must be an array")
  | _ => .error (js "schema node at " ++ path ++ js " must be an object")
termination_by maxDepth + 1 - depth
decreasing_by all_goals omega

def assertSupportedGateSchema (engine : RegExpEngine) (schema : JsValue N) :
    Except JsString Unit := do
  throwIf ((utf8 schema.canonicalJson).length > maxSchemaBytes)
    (js "schema exceeds " ++ ofNat maxSchemaBytes ++ js " bytes")
  walkSchema engine schema 0 (js "#")

/-! ## Answers -/

/-- What is wrong with an answer, and where. -/
structure SchemaError (N : Type) where
  path : JsString
  keyword : JsString
  message : JsString
  expected : JsValue N

def typeMatches (type : JsString) (value : JsValue N) : Bool :=
  if type = js "string" then value matches .string _
  else if type = js "number" then match value with
    | .number n => JsNumber.isFinite n
    | _ => false
  else if type = js "integer" then match value with
    | .number n => JsReal.isInteger n
    | _ => false
  else if type = js "boolean" then value matches .boolean _
  else if type = js "object" then value matches .object _
  else if type = js "array" then value matches .array _
  else if type = js "null" then value matches .null
  else false

section Errors
variable (engine : RegExpEngine) (schema : JsFields N) (value : JsValue N) (path : JsString)

def typeErrors : List (SchemaError N) :=
  match getField schema (js "type") with
  | .string type =>
    if typeMatches type value then []
    else [⟨path, js "type", js "expected " ++ type, .string type⟩]
  | _ => []

def constErrors : List (SchemaError N) :=
  let const := getField schema (js "const")
  if !const.isUndefined && decide (value.canonicalJson ≠ const.canonicalJson) then
    [⟨path, js "const", js "value does not equal const", const⟩]
  else []

def enumErrors : List (SchemaError N) :=
  match getField schema (js "enum") with
  | .array values =>
    if values.any fun e => e.canonicalJson = value.canonicalJson then []
    else [⟨path, js "enum", js "value not in enum", .array values⟩]
  | _ => []

/-- A limit that the value does not keep. -/
def limitErrors (keyword : JsString) (violates : N → Bool)
    (message : JsString → JsString) : List (SchemaError N) :=
  match getField schema keyword with
  | .number limit =>
    if violates limit then [⟨path, keyword, message (JsNumber.text limit), .number limit⟩]
    else []
  | _ => []

def patternErrors (text : JsString) : List (SchemaError N) :=
  match getField schema (js "pattern") with
  | .string pattern =>
    if engine.test pattern text then []
    else [⟨path, js "pattern", js "does not match pattern " ++ pattern, .string pattern⟩]
  | _ => []

/-- An item whose text has been seen before. -/
def hasRepeated (seen : List JsString) : List (JsValue N) → Bool
  | [] => false
  | item :: items =>
    let key := item.canonicalJson
    if seen.contains key then true else hasRepeated (key :: seen) items

def uniqueErrors (items : List (JsValue N)) : List (SchemaError N) :=
  match getField schema (js "uniqueItems") with
  | .boolean true =>
    if hasRepeated [] items then
      [⟨path, js "uniqueItems", js "array items must be unique", .undefined⟩]
    else []
  | _ => []

def requiredErrors (object : JsFields N) : List (SchemaError N) :=
  (itemsOf (getField schema (js "required"))).flatMap fun req =>
    match req with
    | .string req =>
      if hasProperty object req then []
      else [⟨path ++ js "/" ++ req, js "required", js "missing required property", .undefined⟩]
    | _ => []

/-- The checks of a value that do not look into it, by what it is. -/
def scalarErrors : List (SchemaError N) :=
  match value with
  | .string text =>
    limitErrors schema path (js "minLength") (JsReal.lengthBelow text.length)
        (js "shorter than " ++ ·) ++
      limitErrors schema path (js "maxLength") (JsReal.lengthAbove text.length)
        (js "longer than " ++ ·) ++
      patternErrors engine schema path text
  | .number n =>
    limitErrors schema path (js "minimum") (fun minimum => JsReal.lt n minimum)
        (js "less than " ++ ·) ++
      limitErrors schema path (js "maximum") (fun maximum => JsReal.lt maximum n)
        (js "greater than " ++ ·)
  | .object fields => requiredErrors schema path fields
  | .array items =>
    limitErrors schema path (js "minItems") (JsReal.lengthBelow items.length)
        (js "fewer than " ++ · ++ js " items") ++
      limitErrors schema path (js "maxItems") (JsReal.lengthAbove items.length)
        (js "more than " ++ · ++ js " items") ++
      uniqueErrors schema path items
  | _ => []

end Errors

def validateValue (engine : RegExpEngine) (schema value : JsValue N) (path : JsString) :
    List (SchemaError N) :=
  match schema with
  | .object schema =>
    if (typeErrors schema value path).isEmpty then
      constErrors schema value path ++ enumErrors schema value path ++
        scalarErrors engine schema value path ++
        (match value with
          | .object fields =>
            let props := ownProperties (getField schema (js "properties"))
            fields.flatMap fun field =>
              if hasOwn props field.1 then
                validateValue engine (getField props field.1) field.2 (path ++ js "/" ++ field.1)
              -- `props[k]` is inherited: a function, or `Object.prototype`, has no keyword
              else if inheritedNames.contains field.1 then []
              else match getField schema (js "additionalProperties") with
                | .boolean false => [⟨path ++ js "/" ++ field.1, js "additionalProperties",
                    js "unexpected property", .undefined⟩]
                | .object _ =>
                  validateValue engine (getField schema (js "additionalProperties")) field.2
                    (path ++ js "/" ++ field.1)
                | _ => []
          | .array items =>
            if (getField schema (js "items")).isUndefined then []
            else items.zipIdx.flatMap fun item =>
              validateValue engine (getField schema (js "items")) item.1
                (path ++ js "/" ++ ofNat item.2)
          | _ => []) ++
        [js "oneOf", js "anyOf"].flatMap fun combiner =>
          if (getField schema combiner).isUndefined then []
          else
            let branches := itemsOf (getField schema combiner)
            let matchCount := branches.attach.countP fun branch =>
              (validateValue engine branch.1 value path).isEmpty
            let ok := if combiner = js "oneOf" then matchCount == 1 else decide (matchCount ≥ 1)
            if ok then []
            else [⟨path, combiner, js "value did not satisfy " ++ combiner, .undefined⟩]
    else typeErrors schema value path
  | _ => []
termination_by sizeOf schema
decreasing_by
  · exact Nat.lt_of_le_of_lt (sizeOf_ownProperties _ _) (sizeOf_getField _ _)
  · exact sizeOf_getField _ _
  · exact sizeOf_getField _ _
  · exact Nat.lt_trans (sizeOf_of_mem_itemsOf branch.2) (sizeOf_getField _ _)

/-- A schema that was found to be supported, and its hash. -/
structure CompiledGateSchema (N : Type) where
  schema : JsValue N
  hash : JsString

def compileGateSchema (engine : RegExpEngine) (sha256 : JsString → JsString)
    (schema : JsValue N) : Except JsString (CompiledGateSchema N) := do
  assertSupportedGateSchema engine schema
  return ⟨schema, sha256 schema.canonicalJson⟩

def CompiledGateSchema.validate (engine : RegExpEngine) (compiled : CompiledGateSchema N)
    (answer : JsValue N) : List (SchemaError N) :=
  if (utf8 answer.canonicalJson).length > maxAnswerBytes then
    [⟨js "#", js "maxAnswerBytes", js "answer too large", .undefined⟩]
  else validateValue engine compiled.schema answer (js "#")

structure WorkflowGateValidationError (N : Type) where
  code : JsString
  gate_id : JsString
  schema_hash : JsString
  errors : List (SchemaError N)

/-- `validateGateAnswer`; none is `null`. -/
def validateGateAnswer (engine : RegExpEngine) (compiled : CompiledGateSchema N)
    (gateId : JsString) (answer : JsValue N) : Option (WorkflowGateValidationError N) :=
  let errors := compiled.validate engine answer
  if errors.isEmpty then none
  else some ⟨js "invalid_workflow_gate_answer", gateId, compiled.hash, errors⟩

end WorkflowGate
end GajaeCode
