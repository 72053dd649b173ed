import GajaeCode.JsonValue
import GajaeCode.Sha256

/-! # The intent contract of a deep interview

The manifest part of `packages/coding-agent/src/gjc-runtime/deep-interview-state.ts`: a contract
is an object whose digest is the hash of its items in canonical form, bound to the hash of the
answer that confirmed it.

`localeCompare` is a parameter: the order it gives to two texts depends on the host.
-/
namespace GajaeCode
open JsString JsValue

/-- Strict equality of numbers, and the number 0. -/
class JsNumberEquality (N : Type) where
  zero : N
  /-- `n === m`. -/
  same : N → N → Bool

instance : JsNumberEquality Nat where
  zero := 0
  same n m := n == m

namespace DeepInterview
variable {N : Type}

/-- What a call throws: an error with its message, or an error of the language. -/
inductive Thrown where
  | error (message : JsString)
  | typeError
  deriving DecidableEq

section Values
variable [JsNumberEquality N]

/-- `isPlainObject(value) ? value : {}`, by its own fields. -/
def fieldsOf : JsValue N → JsFields N
  | .object fields => fields
  | _ => []

/-- `a === b`, where no object is compared with itself. -/
def strictEquals : JsValue N → JsValue N → Bool
  | .undefined, .undefined => true
  | .null, .null => true
  | .boolean b, .boolean b' => b == b'
  | .number n, .number n' => JsNumberEquality.same n n'
  | .string s, .string s' => s == s'
  | _, _ => false

omit [JsNumberEquality N] in
@[simp] theorem fieldsOf_object (fields : JsFields N) : fieldsOf (.object fields) = fields := rfl

theorem strictEquals_string {v : JsValue N} {s : JsString} (h : strictEquals v (.string s) = true) :
    v = .string s := by
  cases v with
  | string s' => rw [eq_of_beq h]
  | _ => exact absurd h (by simp [strictEquals])

end Values

def DEEP_INTERVIEW_INTENT_CATEGORIES : List JsString :=
  [js "artifact", js "surface", js "integration", js "constraint"]

def MAX_INTENT_ITEMS : Nat := 64

def MAX_INTENT_STATEMENT_LENGTH : Nat := 1000

def MAX_INTENT_EVIDENCE_LENGTH : Nat := 80

/-- `[a-z0-9]` -/
def isIdStart (u : CodeUnit) : Bool := (0x61 ≤ u && u ≤ 0x7a) || isDigit u

/-- The same, or one of `.`, `_`, `/` and `-`. -/
def isIdUnit (u : CodeUnit) : Bool := isIdStart u || [0x2e, 0x5f, 0x2f, 0x2d].contains u

/-- `INTENT_ID_RE` -/
def isIntentId (id : JsString) : Bool :=
  DEEP_INTERVIEW_INTENT_CATEGORIES.any fun category =>
    (category ++ js ":").isPrefixOf id &&
      match id.drop (category ++ js ":").length with
      | [] => false
      | u :: rest => isIdStart u && rest.length ≤ 127 && rest.all isIdUnit

/-- `[a-f0-9]` -/
def isHashUnit (u : CodeUnit) : Bool := (0x61 ≤ u && u ≤ 0x66) || isDigit u

/-- `ANSWER_HASH_RE` -/
def isAnswerHash (text : JsString) : Bool := text.length == 64 && text.all isHashUnit

def isCanonicalDeepInterviewAnswerHash : JsValue N → Bool
  | .string text => isAnswerHash text
  | _ => false

def evidenceOf (answerHashValue : JsString) : JsString := js "answer_hash:" ++ answerHashValue

def isEvidenceReference (value : JsValue N) (answerHashValue : JsString) : Bool :=
  match value with
  | .string text => text.length ≤ MAX_INTENT_EVIDENCE_LENGTH && text == evidenceOf answerHashValue
  | _ => false

structure IntentItem (N : Type) where
  id : JsString
  category : JsValue N
  statement : JsString

def IntentItem.toValue (item : IntentItem N) : JsValue N :=
  .object [(js "id", .string item.id), (js "category", item.category),
    (js "statement", .string item.statement)]

/-- `assertIntentItem`, of an item that has its three fields. -/
def assertIntentItem (item : IntentItem N) : Except Thrown Unit :=
  if !isIntentId item.id then .error (.error (js "invalid intent id"))
  else
    match item.category with
    | .string category =>
      if category ∈ DEEP_INTERVIEW_INTENT_CATEGORIES ∧
          (category ++ js ":").isPrefixOf item.id then
        if trim item.statement = [] ∨ MAX_INTENT_STATEMENT_LENGTH < item.statement.length then
          .error (.error (js "intent item " ++ item.id ++ js " requires a bounded statement"))
        else .ok ()
      else .error (.error (js "invalid intent category"))
    | _ => .error (.error (js "invalid intent category"))

/-- `{ id: item.id.trim(), category: item.category, statement: item.statement.trim() }` -/
def canonicalIntentItem : JsValue N → Except Thrown (IntentItem N)
  | .object fields =>
    match getField fields (js "id"), getField fields (js "statement") with
    | .string id, .string statement =>
      .ok ⟨trim id, getField fields (js "category"), trim statement⟩
    | _, _ => .error .typeError
  | _ => .error .typeError

/-- Every item is checked, and that its id is a new one. -/
def assertItems : List JsString → List (IntentItem N) → Except Thrown Unit
  | _, [] => .ok ()
  | ids, item :: items => do
    assertIntentItem item
    if item.id ∈ ids then .error (.error (js "duplicate intent id: " ++ item.id))
    else assertItems (item.id :: ids) items

structure IntentManifest (N : Type) where
  items : List (IntentItem N)
  digest : JsString
  confirmationAnswerHash : JsString
  confirmationEvidence : JsString

section Manifests
variable [JsNumber N] [JsNumberEquality N] (localeCompare : JsString → JsString → Int)

def canonicalIntentItems (items : List (JsValue N)) : Except Thrown (List (IntentItem N)) :=
  (items.mapM canonicalIntentItem).map fun items =>
    items.mergeSort fun left right => localeCompare left.id right.id ≤ 0

def deepInterviewIntentManifestDigest (items : List (JsValue N)) : Except Thrown JsString :=
  (canonicalIntentItems localeCompare items).map fun items =>
    Sha256.hexDigest (jsonText (.array (items.map IntentItem.toValue)))

/-- `value === 0` -/
def isZero (value : JsValue N) : Bool := strictEquals value (.number JsNumberEquality.zero)

def createDeepInterviewIntentManifest (items round answerHash : JsValue N) :
    Except Thrown (IntentManifest N) :=
  match items with
  | .array items =>
    if items = [] ∨ MAX_INTENT_ITEMS < items.length then
      .error (.error (js "intent manifest requires bounded items"))
    else
      match isZero round && isCanonicalDeepInterviewAnswerHash answerHash, answerHash with
      | true, .string hash => do
        let canonical ← canonicalIntentItems localeCompare items
        assertItems [] canonical
        let digest ← deepInterviewIntentManifestDigest localeCompare
          (canonical.map IntentItem.toValue)
        .ok ⟨canonical, digest, hash, evidenceOf hash⟩
      | _, _ => .error (.error
          (js "intent confirmation requires Round 0 " ++ js "canonical answer hash"))
  | _ => .error (.error (js "intent manifest requires bounded items"))

def assertDeepInterviewIntentManifest (value : JsValue N) : Except Thrown Unit :=
  match value with
  | .object fields =>
    match getField fields (js "items") with
    | .array _ =>
      if fields.length = 6 ∧
          strictEquals (getField fields (js "version")) (.number JsNumber.one) = true then do
        let manifest ← createDeepInterviewIntentManifest localeCompare
          (getField fields (js "items")) (getField fields (js "confirmation_round"))
          (getField fields (js "confirmation_answer_hash"))
        if strictEquals (getField fields (js "digest")) (.string manifest.digest) &&
            isZero (getField fields (js "confirmation_round")) &&
            isEvidenceReference (getField fields (js "confirmation_evidence"))
              manifest.confirmationAnswerHash then .ok ()
        else .error (.error (js "intent contract integrity mismatch"))
      else .error (.error (js "invalid intent contract"))
    | _ => .error (.error (js "invalid intent contract"))
  | _ => .error (.error (js "invalid intent contract"))

variable {localeCompare}

theorem answerHash_of_create {items round answerHash : JsValue N} {manifest : IntentManifest N}
    (h : createDeepInterviewIntentManifest localeCompare items round answerHash = .ok manifest) :
    ∃ hash, answerHash = .string hash := by
  unfold createDeepInterviewIntentManifest at h
  cases items with
  | array items =>
    dsimp only at h
    split_ifs at h
    split at h
    · rename_i hash _
      exact ⟨hash, rfl⟩
    · cases h
  | _ => cases h

/-- A valid contract has a digest and the hash of an answer. -/
theorem texts_of_assert {value : JsValue N}
    (h : assertDeepInterviewIntentManifest localeCompare value = .ok ()) :
    ∃ digest hash, getField (fieldsOf value) (js "digest") = .string digest ∧
      getField (fieldsOf value) (js "confirmation_answer_hash") = .string hash := by
  unfold assertDeepInterviewIntentManifest at h
  cases value with
  | object fields =>
    dsimp only at h
    split at h
    · split_ifs at h
      cases hcreate : createDeepInterviewIntentManifest localeCompare
          (getField fields (js "items")) (getField fields (js "confirmation_round"))
          (getField fields (js "confirmation_answer_hash")) with
      | error thrown =>
        rw [hcreate] at h
        cases h
      | ok manifest =>
        obtain ⟨hash, hhash⟩ := answerHash_of_create hcreate
        rw [hcreate] at h
        dsimp only [Bind.bind, Except.bind] at h
        split_ifs at h with hsame
        rw [Bool.and_eq_true, Bool.and_eq_true] at hsame
        exact ⟨manifest.digest, hash, strictEquals_string hsame.1.1, hhash⟩
    · cases h
  | _ => cases h

end Manifests
end DeepInterview
end GajaeCode
