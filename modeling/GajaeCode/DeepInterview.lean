import GajaeCode.IntentManifest
import GajaeCode.Runs

/-! # Envelopes of a deep interview

`packages/coding-agent/src/gjc-runtime/deep-interview-state.ts`: how an envelope is brought into
its canonical shape, and how an incoming one is merged into it or put in its place.

Objects are their own fields.  That is what a spread, `Object.entries` and `JSON.stringify` see;
an assignment to `__proto__` sets the prototype and no field (`assignField`).

A contract in the state of an envelope is locked: no later call changes what it says
(`intentContract_locked`).
-/
namespace GajaeCode
open JsString JsValue List

namespace DeepInterview
variable {N : Type}
variable {k : JsString} {fields : JsFields N}
variable {inner : JsFields N} {value v : JsValue N} {key : JsString}

def TRANSCRIPT_STATE_FIELDS : List JsString :=
  [js "rounds", js "established_facts", js "current_ambiguity", js "ambiguity_floor", js "topology",
    js "ontology_snapshots", js "auto_researched_rounds", js "auto_answered_rounds",
    js "architect_failures"]

def HOISTED_STATE_FIELDS : List JsString :=
  [js "initial_idea", js "initial_context_summary", js "codebase_context",
    js "challenge_modes_used", js "interview_id", js "type", js "language", js "threshold",
    js "threshold_source"]

def ENVELOPE_RESERVED_STATE_KEYS : List JsString :=
  [js "state", js "receipt", js "skill", js "version", js "updated_at", js "active",
    js "current_phase", js "state_revision", js "session_id"]

/-- A field of the envelope that the state lacks is put into it. -/
def hoist (envelope inner : JsFields N) (field : JsString) : JsFields N :=
  if (getField inner field).isUndefined ∧ ¬ (getField envelope field).isUndefined then
    setField inner field (getField envelope field)
  else inner

def isArray : JsValue N → Bool
  | .array _ => true
  | _ => false

/-- `if (!Array.isArray(inner[field])) inner[field] = []` -/
def ensureArray (inner : JsFields N) (field : JsString) : JsFields N :=
  if isArray (getField inner field) then inner else setField inner field (.array [])

def normalizeDeepInterviewEnvelope (value : JsValue N) : JsFields N :=
  let envelope := fieldsOf value
  let inner := fieldsOf (getField envelope (js "state"))
  let (envelope, inner) := TRANSCRIPT_STATE_FIELDS.foldl
    (fun (envelope, inner) field => (eraseField envelope field, hoist envelope inner field))
    (envelope, inner)
  let inner := HOISTED_STATE_FIELDS.foldl (hoist envelope) inner
  let inner := ENVELOPE_RESERVED_STATE_KEYS.foldl eraseField inner
  let inner := ensureArray (ensureArray inner (js "rounds")) (js "established_facts")
  setField envelope (js "state") (.object inner)

def nonEmptyString : JsValue N → Bool
  | .string text => trim text ≠ []
  | _ => false

/-- `record[field]`, where it is a string that is not blank. -/
def textField (record : JsFields N) (field : JsString) : Option JsString :=
  match getField record field with
  | .string text => if nonEmptyString (.string text : JsValue N) then some text else none
  | _ => none

/-- `record[key] = value`, where `__proto__` is no field unless it is one already. -/
def assignField (record : JsFields N) (key : JsString) (value : JsValue N) : JsFields N :=
  if key = js "__proto__" ∧ (record.lookup key).isNone then record else setField record key value

section Rounds
variable [JsNumber N] [JsNumberEquality N]

/-- `deriveRoundKey(undefined, ...)` -/
def deriveRoundKey (roundId : Option JsString) (round : JsString) (questionId : Option JsString) :
    JsString :=
  match roundId with
  | some roundId => js "nointerview::rid:" ++ roundId
  | none => js "nointerview::r:" ++ round ++ js "::q:" ++ questionId.getD (js "noqid")

/-- Durable merge key for a round, or none when the record is not addressable. -/
def durableRoundKey (record : JsFields N) : Option JsString :=
  match textField record (js "round_key") with
  | some key => some key
  | none =>
    let roundId := textField record (js "round_id")
    let questionId := textField record (js "question_id")
    if roundId.isSome ∨ questionId.isSome then
      let round := match getField record (js "round") with
        | .number n => JsNumber.text n
        | _ => js "0"
      some (deriveRoundKey roundId round questionId)
    else none

mutual
/-- `deepEqual(a, b)`, by structure. -/
def deepEqual : JsValue N → JsValue N → Bool
  | .array items, .array items' => items.length == items'.length && itemsEqual items items'
  | .object fields, .object fields' => fields.length == fields'.length && fieldsEqual fields fields'
  | a, b => strictEquals a b
def itemsEqual : List (JsValue N) → List (JsValue N) → Bool
  | a :: as, b :: bs => deepEqual a b && itemsEqual as bs
  | _, _ => true
def fieldsEqual : JsFields N → JsFields N → Bool
  | [], _ => true
  | (key, a) :: as, bs => deepEqual a (getField bs key) && fieldsEqual as bs
end

/-- Merge a later round record into an earlier one for the same durable key. -/
def mergeRoundPair (existing incoming : JsFields N) : JsFields N :=
  let merged := incoming.foldl (fun merged (key, value) =>
    if value.isUndefined then merged else assignField merged key value) existing
  let isScored (record : JsFields N) :=
    strictEquals (getField record (js "lifecycle")) (.string (js "scored"))
  let merged :=
    if isScored existing ∧ ¬ isScored incoming then
      setField merged (js "lifecycle") (.string (js "scored"))
    else merged
  [js "question_hash", js "answer_hash", js "question_text"].foldl (fun merged field =>
    if ¬ nonEmptyString (getField incoming field) ∧ nonEmptyString (getField existing field) then
      setField merged field (getField existing field)
    else merged) merged

/-- The rounds so far, and where the round of a key stands. -/
structure Rounds (N : Type) where
  result : List (JsFields N)
  indexByKey : List (JsString × Nat)

def Rounds.add (rounds : Rounds N) (record : JsFields N) : Rounds N :=
  match durableRoundKey record with
  | some key =>
    match rounds.indexByKey.lookup key with
    | none =>
      let stored :=
        if nonEmptyString (getField record (js "round_key")) then record
        else setField record (js "round_key") (.string key)
      ⟨rounds.result ++ [stored], (key, rounds.result.length) :: rounds.indexByKey⟩
    | some index =>
      { rounds with result := rounds.result.modify index fun round => mergeRoundPair round record }
  | none =>
    -- a record without an identity is kept, an exact copy of one is not kept twice
    if rounds.result.any fun item => deepEqual (.object item) (.object record) then rounds
    else { rounds with result := rounds.result ++ [record] }

def mergeDeepInterviewRounds (existing incoming : List (JsFields N)) : List (JsFields N) :=
  ((existing ++ incoming).foldl Rounds.add ⟨[], []⟩).result

end Rounds

def asRecordArray : JsValue N → List (JsFields N)
  | .array items => items.filterMap fun item =>
    match item with
    | .object fields => some fields
    | _ => none
  | _ => []

section Merge
variable [JsNumber N] [JsNumberEquality N] (localeCompare : JsString → JsString → Int)

/-- What becomes of the contract: the incoming state, with the existing contract in it where it
brings none. -/
def lockContract (existingState incomingState : JsFields N) : Except Thrown (JsFields N) :=
  let existing := getField existingState (js "intent_contract")
  if existing.isUndefined then .ok incomingState
  else do
    assertDeepInterviewIntentManifest localeCompare existing
    match incomingState.lookup (js "intent_contract") with
    | none => .ok (setField incomingState (js "intent_contract") existing)
    | some .null => .error (.error (js "locked intent contract cannot be deleted"))
    | some incoming => do
      assertDeepInterviewIntentManifest localeCompare incoming
      let same (field : JsString) :=
        strictEquals (getField (fieldsOf incoming) field) (getField (fieldsOf existing) field)
      if same (js "digest") && same (js "confirmation_answer_hash") then .ok incomingState
      else .error (.error (js "locked intent contract cannot be replaced"))

/-- A contract that is required stays required. -/
def lockRequired (existingState incomingState : JsFields N) : JsFields N :=
  match getField existingState (js "intent_contract_required") with
  | .boolean true => setField incomingState (js "intent_contract_required") (.boolean true)
  | _ => incomingState

/-- `if (value === null) delete merged[key]; else merged[key] = value;` -/
def mergeField (merged : JsFields N) (key : JsString) (value : JsValue N) : JsFields N :=
  match value with
  | .null => eraseField merged key
  | value => assignField merged key value

/-- The fields of the two envelopes, but for their states. -/
def mergeEnvelopeFields (existing incoming : JsFields N) : JsFields N :=
  let merged := existing.foldl (fun merged (key, value) =>
    if key = js "state" then merged else assignField merged key value) []
  incoming.foldl (fun merged (key, value) =>
    if key = js "state" then merged else mergeField merged key value) merged

def mergeState (existingState incomingState : JsFields N) (incomingHasEstablishedFacts : Bool) :
    JsFields N :=
  let mergedState := incomingState.foldl (fun mergedState (key, value) =>
    if key = js "rounds" then mergedState
    else if key = js "established_facts" ∧ ¬ incomingHasEstablishedFacts then mergedState
    else mergeField mergedState key value) existingState
  let rounds := mergeDeepInterviewRounds (asRecordArray (getField existingState (js "rounds")))
    (asRecordArray (getField incomingState (js "rounds")))
  setField mergedState (js "rounds") (.array (rounds.map JsValue.object))

def stateOf (envelope : JsFields N) : JsFields N := fieldsOf (getField envelope (js "state"))

def hasEstablishedFacts (incoming : JsValue N) : Bool :=
  ((stateOf (fieldsOf incoming)).lookup (js "established_facts")).isSome ||
    ((fieldsOf incoming).lookup (js "established_facts")).isSome

def mergeDeepInterviewEnvelope (existing incoming : JsValue N) (replace : Bool) :
    Except Thrown (JsFields N) := do
  let normalizedIncoming := normalizeDeepInterviewEnvelope incoming
  let normalizedExisting := normalizeDeepInterviewEnvelope existing
  let existingState := stateOf normalizedExisting
  let incomingState ← lockContract localeCompare existingState (stateOf normalizedIncoming)
  let incomingState := lockRequired existingState incomingState
  if replace then .ok (setField normalizedIncoming (js "state") (.object incomingState))
  else
    let merged := mergeEnvelopeFields normalizedExisting normalizedIncoming
    let mergedState := mergeState existingState incomingState (hasEstablishedFacts incoming)
    .ok (setField merged (js "state") (.object mergedState))

end Merge

theorem lookup_eraseField (fields : JsFields N) {k' : JsString} (h : k' ≠ k) :
    (eraseField fields k).lookup k' = fields.lookup k' := by
  unfold eraseField
  induction fields with
  | nil => rfl
  | cons f fields ih =>
    by_cases hf : f.1 = k
    · have hne : (k' == f.1) = false := beq_eq_false_iff_ne.mpr (hf ▸ h)
      rw [filter_cons_of_neg (by simpa using hf), ih, lookup_cons, hne]
    · rw [filter_cons_of_pos (by simpa using hf), lookup_cons, lookup_cons, ih]

theorem lookup_hoist (envelope inner : JsFields N) {field : JsString} (h : k ≠ field) :
    (hoist envelope inner field).lookup k = inner.lookup k := by
  unfold hoist
  split_ifs
  · rw [lookup_setField, if_neg h]
  · rfl

theorem lookup_ensureArray (inner : JsFields N) {field : JsString} (h : k ≠ field) :
    (ensureArray inner field).lookup k = inner.lookup k := by
  unfold ensureArray
  split_ifs
  · rfl
  · rw [lookup_setField, if_neg h]

theorem lookup_assignField (record : JsFields N) (value : JsValue N) (h : k ≠ key) :
    (assignField record key value).lookup k = record.lookup k := by
  unfold assignField
  split_ifs
  · rfl
  · rw [lookup_setField, if_neg h]

theorem lookup_mergeField (merged : JsFields N) (value : JsValue N) (h : k ≠ key) :
    (mergeField merged key value).lookup k = merged.lookup k := by
  unfold mergeField
  split
  · exact lookup_eraseField merged h
  · exact lookup_assignField merged _ h

/-- What no step of a loop touches, the loop does not touch. -/
theorem lookup_foldl {step : JsFields N → JsString → JsFields N}
    (hstep : ∀ record field, k ≠ field → (step record field).lookup k = record.lookup k)
    {fields : List JsString} (h : k ∉ fields) (record : JsFields N) :
    (fields.foldl step record).lookup k = record.lookup k := by
  induction fields generalizing record with
  | nil => rfl
  | cons field fields ih =>
    rw [mem_cons, not_or] at h
    rw [foldl_cons, ih h.2, hstep record field h.1]

theorem stateOf_setField (envelope inner : JsFields N) :
    stateOf (setField envelope (js "state") (.object inner)) = inner := by
  rw [stateOf, getField_setField, if_pos rfl, fieldsOf_object]

/-- A field that is in none of the lists. -/
def Untouched (k : JsString) : Prop :=
  k ∉ TRANSCRIPT_STATE_FIELDS ∧ k ∉ HOISTED_STATE_FIELDS ∧ k ∉ ENVELOPE_RESERVED_STATE_KEYS

theorem lookup_normalize (h : Untouched k) (value : JsValue N) :
    (stateOf (normalizeDeepInterviewEnvelope value)).lookup k =
      (stateOf (fieldsOf value)).lookup k := by
  obtain ⟨htranscript, hhoisted, hreserved⟩ := h
  have hrounds : k ≠ js "rounds" := fun heq => htranscript (heq ▸ mem_cons_self)
  have hfacts : k ≠ js "established_facts" := fun heq =>
    htranscript (heq ▸ mem_cons_of_mem _ mem_cons_self)
  have hmoved : ∀ (fields : List JsString) (out : JsFields N × JsFields N), k ∉ fields →
      (fields.foldl (fun (out : JsFields N × JsFields N) field =>
        (eraseField out.1 field, hoist out.1 out.2 field)) out).2.lookup k = out.2.lookup k := by
    intro fields
    induction fields with
    | nil => exact fun _ _ => rfl
    | cons field fields ih =>
      intro out hk
      rw [mem_cons, not_or] at hk
      rw [foldl_cons, ih _ hk.2]
      exact lookup_hoist out.1 out.2 hk.1
  unfold normalizeDeepInterviewEnvelope
  rw [stateOf_setField, lookup_ensureArray _ hfacts, lookup_ensureArray _ hrounds,
    lookup_foldl (fun record field => lookup_eraseField record) hreserved,
    lookup_foldl (fun record field => lookup_hoist _ record) hhoisted]
  exact hmoved _ _ htranscript

theorem KeysOrdered.erase (h : KeysOrdered fields) (k : JsString) :
    KeysOrdered (eraseField fields k) := h.sublist filter_sublist

theorem KeysOrdered.hoist (h : KeysOrdered inner) (envelope : JsFields N) (field : JsString) :
    KeysOrdered (hoist envelope inner field) := by
  unfold DeepInterview.hoist
  split_ifs
  · exact keysOrdered_setField h _ _
  · exact h

theorem KeysOrdered.ensureArray (h : KeysOrdered inner) (field : JsString) :
    KeysOrdered (ensureArray inner field) := by
  unfold DeepInterview.ensureArray
  split_ifs
  · exact h
  · exact keysOrdered_setField h _ _

theorem keysOrdered_stateOf (h : value.WellKeyed) : KeysOrdered (stateOf (fieldsOf value)) := by
  have hfields : ∀ v : JsValue N, v.WellKeyed → KeysOrdered (fieldsOf v) := by
    intro v hv
    cases v with
    | object fields => exact (wellKeyed_object.mp hv).1
    | _ => exact List.Pairwise.nil
  refine hfields _ ?_
  cases value with
  | object fields => exact wellKeyed_getField h _
  | _ => exact wellKeyed_undefined

theorem keysOrdered_normalize (h : value.WellKeyed) :
    KeysOrdered (stateOf (normalizeDeepInterviewEnvelope value)) := by
  unfold normalizeDeepInterviewEnvelope
  rw [stateOf_setField]
  refine KeysOrdered.ensureArray (KeysOrdered.ensureArray ?_ _) _
  refine foldlRecOn _ _ ?_ fun inner hinner field _ => KeysOrdered.erase hinner field
  refine foldlRecOn _ _ ?_ fun inner hinner field _ => KeysOrdered.hoist hinner _ field
  refine @foldlRecOn _ _ (fun out : JsFields N × JsFields N => KeysOrdered out.2) _ _ _
    (keysOrdered_stateOf h) fun out hout field _ => KeysOrdered.hoist hout _ field

theorem getField_of_lookup (h : fields.lookup k = some v) : getField fields k = v := by
  rw [getField, h]
  rfl

/-- A loop over the fields of a record takes what the record says of a key. -/
theorem lookup_foldl_fields {step : JsFields N → JsString × JsValue N → JsFields N}
    (hother : ∀ merged f, k ≠ f.1 → (step merged f).lookup k = merged.lookup k)
    (hsame : ∀ merged, (step merged (k, v)).lookup k = some v) (hkeys : KeysOrdered fields)
    (h : fields.lookup k = some v) (merged : JsFields N) :
    (fields.foldl step merged).lookup k = some v := by
  induction fields generalizing merged with
  | nil => cases h
  | cons f fields ih =>
    obtain ⟨hhead, htail⟩ := keysOrdered_cons.mp hkeys
    rw [foldl_cons]
    by_cases hk : k = f.1
    · -- the fields behind are others
      have hrest : ∀ record : JsFields N,
          (fields.foldl step record).lookup k = record.lookup k := fun record =>
        @foldlRecOn _ _ (fun out : JsFields N => out.lookup k = record.lookup k) _ _ _ rfl
          fun out hout f' hf' => (hother out f' (hk ▸ (hhead f' hf').1)).trans hout
      rw [lookup_cons, hk, beq_self_eq_true] at h
      obtain rfl := some.inj h
      have hf : f = (k, f.2) := by rw [hk]
      rw [hrest, hf]
      exact hsame merged
    · rw [lookup_cons, beq_eq_false_iff_ne.mpr hk] at h
      exact ih htail h _

section Locked
variable [JsNumber N] [JsNumberEquality N] {localeCompare : JsString → JsString → Int}
variable {existingState : JsFields N}
variable {incomingState result state : JsFields N} {replace : Bool}
    {incoming contract v : JsValue N}

variable (localeCompare) in
/-- A valid contract that says what the other one says. -/
structure SameContract (contract contract' : JsValue N) : Prop where
  valid : assertDeepInterviewIntentManifest localeCompare contract' = .ok ()
  digest : getField (fieldsOf contract') (js "digest") =
    getField (fieldsOf contract) (js "digest")
  confirmationAnswerHash : getField (fieldsOf contract') (js "confirmation_answer_hash") =
    getField (fieldsOf contract) (js "confirmation_answer_hash")

theorem SameContract.trans {contract' contract'' : JsValue N}
    (h : SameContract localeCompare contract contract')
    (h' : SameContract localeCompare contract' contract'') :
    SameContract localeCompare contract contract'' :=
  ⟨h'.valid, h'.digest.trans h.digest, h'.confirmationAnswerHash.trans h.confirmationAnswerHash⟩

/-- **What `lockContract` lets through** holds the contract that was there, or one that says the
same. -/
theorem lockContract_ok (hlocked : getField existingState (js "intent_contract") ≠ .undefined)
    (h : lockContract localeCompare existingState incomingState = .ok state) :
    ∃ contract, state.lookup (js "intent_contract") = some contract ∧
      SameContract localeCompare (getField existingState (js "intent_contract")) contract ∧
      (KeysOrdered incomingState → KeysOrdered state) := by
  unfold lockContract at h
  generalize getField existingState (js "intent_contract") = existing at hlocked h ⊢
  dsimp only at h
  rw [if_neg (by simpa using hlocked)] at h
  cases hvalid : assertDeepInterviewIntentManifest localeCompare existing with
  | error thrown =>
    rw [hvalid] at h
    cases h
  | ok out =>
    rw [hvalid] at h
    dsimp only [Bind.bind, Except.bind] at h
    split at h
    · obtain rfl := Except.ok.inj h
      refine ⟨existing, ?_, ⟨hvalid, rfl, rfl⟩, fun hkeys => keysOrdered_setField hkeys _ _⟩
      rw [lookup_setField, if_pos rfl]
    · cases h
    · rename_i incoming _ hincoming
      cases hvalid' : assertDeepInterviewIntentManifest localeCompare incoming with
      | error thrown =>
        rw [hvalid'] at h
        cases h
      | ok out' =>
        rw [hvalid'] at h
        dsimp only at h
        split_ifs at h with hsame
        obtain rfl := Except.ok.inj h
        obtain ⟨digest, hash, hdigest, hhash⟩ := texts_of_assert hvalid
        rw [hdigest, hhash, Bool.and_eq_true] at hsame
        refine ⟨incoming, hincoming, ⟨hvalid', ?_, ?_⟩, id⟩
        · rw [strictEquals_string hsame.1, hdigest]
        · rw [strictEquals_string hsame.2, hhash]

/-! ## One call -/

omit [JsNumber N] [JsNumberEquality N] in
theorem lockRequired_cases (existingState incomingState : JsFields N) :
    (getField existingState (js "intent_contract_required") = .boolean true ∧
        lockRequired existingState incomingState =
          setField incomingState (js "intent_contract_required") (.boolean true)) ∨
      (getField existingState (js "intent_contract_required") ≠ .boolean true ∧
        lockRequired existingState incomingState = incomingState) := by
  unfold lockRequired
  split
  · rename_i hreq
    exact .inl ⟨hreq, rfl⟩
  · rename_i hreq
    exact .inr ⟨hreq, rfl⟩

theorem lookup_mergeState {k : JsString} (hk : Untouched k) (hproto : k ≠ js "__proto__")
    (hv : v ≠ .null) (hkeys : KeysOrdered incomingState) (h : incomingState.lookup k = some v)
    (b : Bool) :
    (mergeState existingState incomingState b).lookup k = some v := by
  have hrounds : k ≠ js "rounds" := fun heq => hk.1 (heq ▸ mem_cons_self)
  have hfacts : k ≠ js "established_facts" := fun heq =>
    hk.1 (heq ▸ mem_cons_of_mem _ mem_cons_self)
  unfold mergeState
  dsimp only
  rw [lookup_setField, if_neg hrounds]
  refine lookup_foldl_fields (fun merged f hf => ?_) (fun merged => ?_) hkeys h _
  · split_ifs
    · rfl
    · rfl
    · exact lookup_mergeField merged f.2 hf
  · have hassign : mergeField merged k v = assignField merged k v := by
      unfold mergeField
      split
      · exact absurd rfl hv
      · rfl
    rw [if_neg hrounds, if_neg (fun hskip => hfacts hskip.1), hassign, assignField,
      if_neg (fun hskip => hproto hskip.1), lookup_setField, if_pos rfl]

def contractOf (envelope : JsFields N) : JsValue N :=
  getField (stateOf envelope) (js "intent_contract")

/-- `state.intent_contract_required === true` -/
def ContractRequired (envelope : JsFields N) : Prop :=
  getField (stateOf envelope) (js "intent_contract_required") = .boolean true

theorem not_null_of_valid (h : assertDeepInterviewIntentManifest localeCompare contract = .ok ()) :
    contract ≠ .undefined ∧ contract ≠ .null := by
  constructor <;> rintro rfl <;> cases h

/-- What a call that does not throw puts into the state. -/
theorem merge_ok {existing : JsValue N}
    (h : mergeDeepInterviewEnvelope localeCompare existing incoming replace = .ok result) :
    let existingState := stateOf (normalizeDeepInterviewEnvelope existing)
    ∃ state, lockContract localeCompare existingState
        (stateOf (normalizeDeepInterviewEnvelope incoming)) = .ok state ∧
      stateOf result = if replace then lockRequired existingState state
        else mergeState existingState (lockRequired existingState state)
          (hasEstablishedFacts incoming) := by
  unfold mergeDeepInterviewEnvelope at h
  dsimp only at h ⊢
  cases hlock : lockContract localeCompare (stateOf (normalizeDeepInterviewEnvelope existing))
      (stateOf (normalizeDeepInterviewEnvelope incoming)) with
  | error thrown =>
    rw [hlock] at h
    cases h
  | ok state =>
    rw [hlock] at h
    dsimp only [Bind.bind, Except.bind] at h
    cases replace with
    | true =>
      rw [if_pos rfl] at h
      refine ⟨state, rfl, ?_⟩
      rw [if_pos rfl, ← Except.ok.inj h, stateOf_setField]
    | false =>
      rw [if_neg Bool.false_ne_true] at h
      refine ⟨state, rfl, ?_⟩
      rw [if_neg Bool.false_ne_true, ← Except.ok.inj h, stateOf_setField]

/-- What the state of a call's result says of a key, where the incoming state says it. -/
theorem lookup_result {b : Bool} {k : JsString} (hk : Untouched k) (hproto : k ≠ js "__proto__")
    (hv : v ≠ .null) (hkeys : KeysOrdered state) (h : state.lookup k = some v) :
    (if replace then state else mergeState existingState state b).lookup k = some v := by
  cases replace with
  | true => exact h
  | false => exact lookup_mergeState hk hproto hv hkeys h b

/-- **One call** keeps the contract, and that it is required. -/
theorem merge_locked {existing : JsFields N}
    (hvalid : assertDeepInterviewIntentManifest localeCompare (contractOf existing) = .ok ())
    (hkeyed : incoming.WellKeyed)
    (h : mergeDeepInterviewEnvelope localeCompare (.object existing) incoming replace = .ok result)
    : SameContract localeCompare (contractOf existing) (contractOf result) ∧
      (ContractRequired existing → ContractRequired result) := by
  have hcontract : Untouched (js "intent_contract") := by
    unfold Untouched
    decide
  have hrequired : Untouched (js "intent_contract_required") := by
    unfold Untouched
    decide
  have hkept : ∀ k, Untouched k →
      getField (stateOf (normalizeDeepInterviewEnvelope (.object existing))) k =
        getField (stateOf existing) k := fun k hk => by
    rw [getField, lookup_normalize hk, fieldsOf_object, getField]
  obtain ⟨state, hlock, hstate⟩ := merge_ok h
  have hlocked : getField (stateOf (normalizeDeepInterviewEnvelope (.object existing)))
      (js "intent_contract") ≠ .undefined := by
    rw [hkept _ hcontract]
    exact (not_null_of_valid hvalid).1
  obtain ⟨contract, hlookup, hsame, hordered⟩ := lockContract_ok hlocked hlock
  rw [hkept _ hcontract] at hsame
  have hkeys := hordered (keysOrdered_normalize hkeyed)
  rcases lockRequired_cases (stateOf (normalizeDeepInterviewEnvelope (.object existing))) state
    with ⟨hreq, hrequires⟩ | ⟨hreq, hrequires⟩
  · rw [hrequires] at hstate
    have hkeys' : KeysOrdered (setField state (js "intent_contract_required") (.boolean true)) :=
      keysOrdered_setField hkeys _ _
    refine ⟨?_, fun _ => getField_of_lookup ?_⟩
    · have hcontract' : (stateOf result).lookup (js "intent_contract") = some contract := by
        rw [hstate]
        refine lookup_result hcontract (by decide) (not_null_of_valid hsame.valid).2 hkeys' ?_
        rw [lookup_setField, if_neg (by decide), hlookup]
      rw [show contractOf result = contract from getField_of_lookup hcontract']
      exact hsame
    · rw [hstate]
      refine lookup_result hrequired (by decide) (by simp) hkeys' ?_
      rw [lookup_setField, if_pos rfl]
  · rw [hrequires] at hstate
    refine ⟨?_, fun hrequired' => ?_⟩
    · have hcontract' : (stateOf result).lookup (js "intent_contract") = some contract := by
        rw [hstate]
        exact lookup_result hcontract (by decide) (not_null_of_valid hsame.valid).2 hkeys hlookup
      rw [show contractOf result = contract from getField_of_lookup hcontract']
      exact hsame
    · rw [hkept _ hrequired] at hreq
      exact absurd hrequired' hreq

/-- A call: what comes in, and whether it is to replace what is there. -/
structure Call (N : Type) where
  incoming : JsValue N
  replace : Bool

variable (localeCompare) in
/-- The envelope after a call; a call that throws leaves it. -/
def step (existing : JsFields N) (call : Call N) : JsFields N :=
  match mergeDeepInterviewEnvelope localeCompare (.object existing) call.incoming call.replace with
  | .ok result => result
  | .error _ => existing

theorem run_locked {envelope : JsFields N}
    (hvalid : assertDeepInterviewIntentManifest localeCompare (contractOf envelope) = .ok ())
    {calls : List (Call N)} (hkeyed : ∀ call ∈ calls, call.incoming.WellKeyed) :
    SameContract localeCompare (contractOf envelope)
        (contractOf (Runs.run (step localeCompare) envelope calls)) ∧ (ContractRequired envelope →
        ContractRequired (Runs.run (step localeCompare) envelope calls)) := by
  induction calls generalizing envelope with
  | nil => exact ⟨⟨hvalid, rfl, rfl⟩, id⟩
  | cons call calls ih =>
    obtain ⟨hcall, hcalls⟩ := forall_mem_cons.mp hkeyed
    rw [Runs.run_cons]
    have hstep : SameContract localeCompare (contractOf envelope)
        (contractOf (step localeCompare envelope call)) ∧
        (ContractRequired envelope → ContractRequired (step localeCompare envelope call)) := by
      unfold step
      cases hmerge : mergeDeepInterviewEnvelope localeCompare (.object envelope) call.incoming
          call.replace with
      | ok result => exact merge_locked hvalid hcall hmerge
      | error thrown => exact ⟨⟨hvalid, rfl, rfl⟩, id⟩
    obtain ⟨hsame, hrequired⟩ := ih hstep.1.valid hcalls
    exact ⟨hstep.1.trans hsame, hrequired ∘ hstep.2⟩

/-- **A locked contract cannot be changed by later writes.**  After any calls, the next one
throws, or yields an envelope whose contract is valid and says what the first one says; and if a
contract has been required at any time, it still is. -/
theorem intentContract_locked {envelope : JsFields N}
    (hvalid : assertDeepInterviewIntentManifest localeCompare (contractOf envelope) = .ok ())
    (calls : List (Call N)) (call : Call N)
    (hkeyed : ∀ c ∈ calls ++ [call], c.incoming.WellKeyed) :
    let existing := Runs.run (step localeCompare) envelope calls
    (∃ thrown, mergeDeepInterviewEnvelope localeCompare (.object existing) call.incoming
        call.replace = .error thrown) ∨
      ∃ result, mergeDeepInterviewEnvelope localeCompare (.object existing) call.incoming
          call.replace = .ok result ∧
        SameContract localeCompare (contractOf envelope) (contractOf result) ∧
        ∀ earlier, earlier <+: calls →
          ContractRequired (Runs.run (step localeCompare) envelope earlier) →
          ContractRequired result := by
  intro existing
  obtain ⟨hcalls, hcall⟩ := forall_mem_append.mp hkeyed
  have hsame := (run_locked hvalid hcalls).1
  cases hmerge : mergeDeepInterviewEnvelope localeCompare (.object existing) call.incoming
      call.replace with
  | error thrown => exact .inl ⟨thrown, rfl⟩
  | ok result =>
    obtain ⟨hresult, hrequired⟩ := merge_locked hsame.valid (hcall call mem_cons_self) hmerge
    refine .inr ⟨result, rfl, hsame.trans hresult, fun earlier hearlier hreq => hrequired ?_⟩
    obtain ⟨later, rfl⟩ := hearlier
    obtain ⟨hkeyed₁, hkeyed₂⟩ := forall_mem_append.mp hcalls
    have hvalid' := (run_locked hvalid hkeyed₁).1.valid
    have hlater := (run_locked hvalid' hkeyed₂).2 hreq
    rwa [← Runs.run_append] at hlater

end Locked

/-- An order of texts by their units. -/
def compareUnits (left right : JsString) : Int :=
  if left = right then 0 else if left < right then -1 else 1

/-- An envelope with a contract of one item. -/
def lockedEnvelope : JsFields Nat :=
  let answerHash := List.replicate 64 0x61
  let item := IntentItem.toValue ⟨js "artifact:cli", .string (js "artifact"), js "A CLI"⟩
  [(js "state", .object [(js "intent_contract", .object [(js "version", .number 1),
    (js "items", .array [item]), (js "digest", .string (js "aaf5258f57ee759b27ee6932ae591883" ++
      js "0526b996bd780c7d801b2ba1bb417994")), (js "confirmation_round", .number 0),
    (js "confirmation_answer_hash", .string answerHash),
    (js "confirmation_evidence", .string (evidenceOf answerHash))])])]

theorem intentContract_locked_replaced :
    (∃ thrown, mergeDeepInterviewEnvelope compareUnits (.object lockedEnvelope) .null true =
        .error thrown) ∨
      ∃ result, mergeDeepInterviewEnvelope compareUnits (.object lockedEnvelope) .null true =
          .ok result ∧ SameContract compareUnits (contractOf lockedEnvelope) (contractOf result) ∧
        ∀ earlier, earlier <+: [] →
          ContractRequired (Runs.run (step compareUnits) lockedEnvelope earlier) →
          ContractRequired result := by
  have hvalid : (assertDeepInterviewIntentManifest compareUnits
      (contractOf lockedEnvelope)).toBool = true := by
    decide +kernel
  cases hassert : assertDeepInterviewIntentManifest compareUnits (contractOf lockedEnvelope) with
  | error thrown =>
    rw [hassert] at hvalid
    cases hvalid
  | ok out => exact intentContract_locked hassert [] ⟨.null, true⟩ (by simp)

end DeepInterview
end GajaeCode
