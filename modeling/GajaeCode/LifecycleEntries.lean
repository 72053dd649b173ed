import Mathlib.Data.List.Sort
import GajaeCode.InsertionMap
import GajaeCode.JsonBytes
import GajaeCode.Sha256

/-! # Entries of the lifecycle ledger

What a row of the ledger is: an object with an identity, the hash of a request, a state
and a time, and any other fields a caller has given.  An entry carries the proof of what
its type promises; how large it may be, and whether the digests in it are right, is only
asked of rows that are read.

`canonicalJson` is the text a digest is taken of.  It is written by hand and differs from
`JSON.stringify` in one respect besides the order of keys: a field that is `undefined` is
not left out.
-/
namespace GajaeCode
open JsString JsValue JsonParse List

inductive LifecycleState where
  | accepted
  | effectStarted
  | awaitingReady
  | terminalOk
  | terminalError
  | terminalUncertain
  deriving DecidableEq

namespace LifecycleState

def name : LifecycleState → JsString
  | accepted => js "accepted"
  | effectStarted => js "effect_started"
  | awaitingReady => js "awaiting_ready"
  | terminalOk => js "terminal_ok"
  | terminalError => js "terminal_error"
  | terminalUncertain => js "terminal_uncertain"

def all : List LifecycleState :=
  [accepted, effectStarted, awaitingReady, terminalOk, terminalError, terminalUncertain]

def ofName (s : JsString) : Option LifecycleState := all.find? fun state => state.name == s

theorem ofName_name (state : LifecycleState) : ofName state.name = some state := by
  cases state <;> decide

theorem name_of_ofName {s : JsString} {state : LifecycleState} (h : ofName s = some state) :
    state.name = s := by
  simpa using find?_some h

def terminal (s : LifecycleState) : Bool := s == terminalOk || s == terminalError

def final (s : LifecycleState) : Bool := s.terminal || s == terminalUncertain

end LifecycleState

section Entries
variable {N : Type}

/-- The text of a string, and nothing for another value. -/
def asString : JsValue N → Option JsString
  | .string s => some s
  | _ => none

/-- A row of the ledger: an object with the fields every entry has. -/
structure LifecycleLedgerEntry (N : Type) where
  fields : JsFields N
  wellKeyed : WellKeyed (.object fields)
  identity : JsString
  requestHash : JsString
  state : LifecycleState
  identity_eq : getField fields (js "identity") = .string identity
  requestHash_eq : getField fields (js "requestHash") = .string requestHash
  state_eq : getField fields (js "state") = .string state.name

namespace LifecycleLedgerEntry

/-- `entry[key]` for the optional fields. -/
def get (entry : LifecycleLedgerEntry N) (key : JsString) : JsValue N := getField entry.fields key

theorem wellKeyed_get (entry : LifecycleLedgerEntry N) (key : JsString) :
    WellKeyed (entry.get key) := wellKeyed_getField entry.wellKeyed key

abbrev toValue (entry : LifecycleLedgerEntry N) : JsValue N := .object entry.fields

@[ext] theorem ext {entry entry' : LifecycleLedgerEntry N} (h : entry.fields = entry'.fields) :
    entry = entry' := by
  obtain ⟨fields, wellKeyed, identity, requestHash, state, hidentity, hhash, hstate⟩ := entry
  obtain ⟨fields', wellKeyed', identity', requestHash', state', hidentity', hhash', hstate'⟩ :=
    entry'
  obtain rfl : fields = fields' := h
  obtain rfl : identity = identity' := by
    rw [hidentity] at hidentity'
    exact JsValue.string.inj hidentity'
  obtain rfl : requestHash = requestHash' := by
    rw [hhash] at hhash'
    exact JsValue.string.inj hhash'
  obtain rfl : state = state' := by
    rw [hstate] at hstate'
    have := congrArg LifecycleState.ofName (JsValue.string.inj hstate')
    rw [LifecycleState.ofName_name, LifecycleState.ofName_name] at this
    exact some.inj this
  rfl

end LifecycleLedgerEntry

/-- The optional fields of an entry, as `transition` takes them. -/
structure TransitionFields (N : Type) where
  fields : JsFields N
  wellKeyed : WellKeyed (.object fields)
  no_identity : fields.lookup (js "identity") = none
  no_requestHash : fields.lookup (js "requestHash") = none
  no_state : fields.lookup (js "state") = none
  no_ts : fields.lookup (js "ts") = none

/-- A reading of `Date.now()`. -/
abbrev Timestamp (N : Type) [JsNumber N] := { n : N // JsNumber.isSafeInteger n = true }

end Entries

section Entries
variable {N : Type} [JsNumber N]

namespace LifecycleLedgerEntry

/-- `{ ...entry, ...fields, state, ts }`. -/
def update (entry : LifecycleLedgerEntry N) (fields : TransitionFields N)
    (state : LifecycleState) (ts : Timestamp N) : LifecycleLedgerEntry N where
  fields := setField (setField (spreadFields entry.fields fields.fields) (js "state")
    (.string state.name)) (js "ts") (.number ts.1)
  wellKeyed := wellKeyed_setField (wellKeyed_setField
    (wellKeyed_spreadFields entry.wellKeyed fields.wellKeyed) _ (wellKeyed_string _)) _
    (wellKeyed_number _)
  identity := entry.identity
  requestHash := entry.requestHash
  state := state
  identity_eq := by
    have hnodup := (wellKeyed_object.mp fields.wellKeyed).1.nodup
    rw [getField_setField, if_neg (by decide), getField_setField, if_neg (by decide),
      getField_spreadFields _ _ _ hnodup, fields.no_identity]
    exact entry.identity_eq
  requestHash_eq := by
    have hnodup := (wellKeyed_object.mp fields.wellKeyed).1.nodup
    rw [getField_setField, if_neg (by decide), getField_setField, if_neg (by decide),
      getField_spreadFields _ _ _ hnodup, fields.no_requestHash]
    exact entry.requestHash_eq
  state_eq := by
    rw [getField_setField, if_neg (by decide), getField_setField, if_pos rfl]

/-- `entry[key] = value` for an optional field. -/
def set (entry : LifecycleLedgerEntry N) (key : JsString) (value : JsValue N)
    (hvalue : WellKeyed value)
    (hkey : key ∉ [js "identity", js "requestHash", js "state"]) : LifecycleLedgerEntry N where
  fields := setField entry.fields key value
  wellKeyed := wellKeyed_setField entry.wellKeyed key hvalue
  identity := entry.identity
  requestHash := entry.requestHash
  state := entry.state
  identity_eq := by
    rw [getField_setField, if_neg (by rintro rfl; exact hkey (by simp)), entry.identity_eq]
  requestHash_eq := by
    rw [getField_setField, if_neg (by rintro rfl; exact hkey (by simp)), entry.requestHash_eq]
  state_eq := by
    rw [getField_setField, if_neg (by rintro rfl; exact hkey (by simp)), entry.state_eq]

/-- `{ version, identity, requestHash, state, ts }`. -/
def fresh (identity requestHash : JsString) (state : LifecycleState) (ts : Timestamp N) :
    LifecycleLedgerEntry N where
  fields := [(js "version", .number JsNumber.one), (js "identity", .string identity),
    (js "requestHash", .string requestHash), (js "state", .string state.name),
    (js "ts", .number ts.1)]
  wellKeyed := by
    have hkeys : List.Pairwise KeyBefore
        [js "version", js "identity", js "requestHash", js "state", js "ts"] := by decide
    refine wellKeyed_object.mpr ⟨?_, by simp⟩
    rw [KeysOrdered, ← List.pairwise_map]
    exact hkeys
  identity := identity
  requestHash := requestHash
  state := state
  identity_eq := rfl
  requestHash_eq := rfl
  state_eq := rfl

end LifecycleLedgerEntry

/-! ## What a row must be -/

def MAX_LIFECYCLE_LEDGER_JSON_DEPTH : Nat := 64
def MAX_LIFECYCLE_LEDGER_JSON_FIELDS : Nat := 1024

mutual
/-- Whether a value is small, counting on from `fields`; the count with its own fields, if
it is. -/
def isBoundedLedgerJson : JsValue N → Nat → Nat → Option Nat
  | .array items, depth, fields =>
    if MAX_LIFECYCLE_LEDGER_JSON_DEPTH < depth then none
    else if MAX_LIFECYCLE_LEDGER_JSON_FIELDS < items.length then none
    else areItemsBounded items (depth + 1) fields
  | .object record, depth, fields =>
    if MAX_LIFECYCLE_LEDGER_JSON_DEPTH < depth then none
    else if fields + record.length ≤ MAX_LIFECYCLE_LEDGER_JSON_FIELDS then
      areFieldsBounded record (depth + 1) (fields + record.length)
    else none
  | _, depth, fields => if MAX_LIFECYCLE_LEDGER_JSON_DEPTH < depth then none else some fields
def areItemsBounded : List (JsValue N) → Nat → Nat → Option Nat
  | [], _, fields => some fields
  | v :: vs, depth, fields =>
    (isBoundedLedgerJson v depth fields).bind fun fields => areItemsBounded vs depth fields
def areFieldsBounded : JsFields N → Nat → Nat → Option Nat
  | [], _, fields => some fields
  | (_, v) :: fs, depth, fields =>
    (isBoundedLedgerJson v depth fields).bind fun fields => areFieldsBounded fs depth fields
end

/-- The version of a record, or its state version, that is newer than this program. -/
def newerVersion : JsValue N → Option N
  | .object fields =>
    [getField fields (js "version"), getField fields (js "stateVersion")].findSome? fun
      | .number version =>
        if JsNumber.isFinite version && JsNumber.exceedsOne version then some version else none
      | _ => none
  | _ => none

/-- What `isLifecycleLedgerEntry` asks of the fields of an object, besides its size. -/
def hasEntryFields [DecidableEq N] (fields : JsFields N) : Bool :=
  (match getField fields (js "version") with
    | .number version => version == JsNumber.one
    | _ => false) &&
  (match getField fields (js "identity") with
    | .string identity => 0 < identity.length
    | _ => false) &&
  (match getField fields (js "requestHash") with
    | .string requestHash => 0 < requestHash.length
    | _ => false) &&
  (match getField fields (js "state") with
    | .string state => (LifecycleState.ofName state).isSome
    | _ => false) &&
  (match getField fields (js "ts") with
    | .number ts => JsNumber.isSafeInteger ts
    | _ => false)

def isLifecycleLedgerEntry [DecidableEq N] (value : JsValue N) : Bool :=
  match value with
  | .object fields => (isBoundedLedgerJson value 0 0).isSome && hasEntryFields fields
  | _ => false

mutual
/-- The text a value has inside a canonical text; `undefined` has none in JSON, and a
template string writes its name. -/
def canonicalJson : JsValue N → JsString
  | .undefined => js "undefined"
  | .array items => js "[" ++ joinComma (canonicalItems items) ++ js "]"
  | .object record =>
    js "\x7b" ++
      joinComma (((canonicalFields record).insertionSort fun f g => f.1 ≤ g.1).map Prod.snd) ++
      js "\x7d"
  | .null => js "null"
  | .boolean b => if b then js "true" else js "false"
  | .number n => if JsNumber.isFinite n then JsNumber.text n else js "null"
  | .string s => jsonStringify s
/-- `join` writes nothing for an item that is `undefined`. -/
def canonicalItems : List (JsValue N) → List JsString
  | [] => []
  | v :: vs => (if v.isUndefined then [] else canonicalJson v) :: canonicalItems vs
def canonicalFields : JsFields N → List (JsString × JsString)
  | [] => []
  | (k, v) :: fs => (k, jsonStringify k ++ js ":" ++ canonicalJson v) :: canonicalFields fs
end

/-- `createHash("sha256").update(canonicalJson(value)).digest("hex")`. -/
def canonicalDigest (value : JsValue N) : JsString := Sha256.hexDigest (canonicalJson value)

/-- `!value`. -/
def isFalsy : JsValue N → Bool
  | .undefined | .null => true
  | .boolean b => !b
  | .number n => JsNumber.isFalsy n
  | .string s => s.isEmpty
  | .array _ | .object _ => false

/-- The own fields that `{ ...value }` copies. -/
def ownFields : JsValue N → JsFields N
  | .object fields => fields
  | .array items => spreadFields [] (items.mapIdx fun i v => (ofNat i, v))
  | .string s => spreadFields [] (s.mapIdx fun i u => (ofNat i, .string [u]))
  | _ => []

omit [JsNumber N] in
theorem wellKeyed_nil : WellKeyed (.object [] : JsValue N) :=
  wellKeyed_object.mpr ⟨List.Pairwise.nil, by simp⟩

omit [JsNumber N] in
theorem wellKeyed_ownFields {value : JsValue N} (h : WellKeyed value) :
    WellKeyed (.object (ownFields value)) := by
  -- whatever is spread into a new object ends up in the order of keys
  have hspread : ∀ fields : JsFields N, (∀ f ∈ fields, WellKeyed f.2) →
      WellKeyed (.object (spreadFields [] fields)) := by
    intro fields hfields
    refine wellKeyed_object.mpr ⟨keysOrdered_spreadFields List.Pairwise.nil fields, fun f hf => ?_⟩
    rcases mem_spreadFields hf with hf | hf
    · exact absurd hf not_mem_nil
    · exact hfields f hf
  cases value with
  | object fields => exact h
  | array items =>
    rw [wellKeyed_array] at h
    refine hspread _ fun f hf => ?_
    obtain ⟨i, hi, rfl⟩ := mem_mapIdx.mp hf
    exact h _ (getElem_mem hi)
  | string s =>
    refine hspread _ fun f hf => ?_
    obtain ⟨i, hi, rfl⟩ := mem_mapIdx.mp hf
    exact wellKeyed_string _
  | _ => exact wellKeyed_nil

/-- The durable effects of an entry without their digest. -/
def effectsBody (effects : JsValue N) : JsFields N := eraseField (ownFields effects) (js "digest")

omit [JsNumber N] in
theorem wellKeyed_effectsBody {effects : JsValue N} (h : WellKeyed effects) :
    WellKeyed (.object (effectsBody effects)) :=
  wellKeyed_eraseField (wellKeyed_ownFields h) _

/-- Whether the response, if the state needs one, carries the digest of its text. -/
def hasValidResponseDigest (state : LifecycleState) (fields : JsFields N) : Bool :=
  let response := getField fields (js "response")
  (state == .terminalUncertain && response.isUndefined) ||
    (!response.isUndefined &&
      asString (getField fields (js "responseDigest")) == some (canonicalDigest response))

/-- Whether the durable effects, if there are any, carry the digest of the others. -/
def hasValidEffectsDigest (fields : JsFields N) : Bool :=
  let effects := getField fields (js "durableEffects")
  isFalsy effects ||
    asString (getField (ownFields effects) (js "digest")) ==
      some (canonicalDigest (.object (effectsBody effects)))

def hasValidTerminalDigests (entry : LifecycleLedgerEntry N) : Bool :=
  !entry.state.final ||
    (hasValidResponseDigest entry.state entry.fields && hasValidEffectsDigest entry.fields)

def isValidHistoryContinuation (previous : Option (LifecycleLedgerEntry N))
    (next : LifecycleLedgerEntry N) : Bool :=
  match previous with
  | none => next.state == .accepted
  | some previous =>
    if previous.requestHash ≠ next.requestHash ∨ previous.state.final then false
    else if previous.state = .accepted then true
    else next.state == .effectStarted || next.state == .awaitingReady || next.state.final

/-- A row that left a cleanup to be done later. -/
def isCleanupPending (entry : LifecycleLedgerEntry N) : Bool :=
  match entry.get (js "response") with
  | .object response =>
    (match getField response (js "ok") with
      | .boolean ok => !ok
      | _ => false) &&
    (match getField response (js "error") with
      | .object error =>
        asString (getField error (js "code")) == some (js "cleanup_pending") &&
          !(getField error (js "cleanup")).isUndefined
      | _ => false)
  | _ => false

def TransitionFields.none : TransitionFields N where
  fields := []
  wellKeyed := wellKeyed_nil
  no_identity := rfl
  no_requestHash := rfl
  no_state := rfl
  no_ts := rfl

def uncertainFrom (entry : LifecycleLedgerEntry N) (trusted : Bool) (now : Timestamp N) :
    LifecycleLedgerEntry N :=
  if trusted then entry.update .none .terminalUncertain now
  else .fresh entry.identity entry.requestHash .terminalUncertain now

/-- What the fields of an accepted object are. -/
structure EntryFields (fields : JsFields N) : Prop where
  version : getField fields (js "version") = .number JsNumber.one
  identity : ∃ s, getField fields (js "identity") = .string s ∧ s ≠ []
  requestHash : ∃ s, getField fields (js "requestHash") = .string s ∧ s ≠ []
  state : ∃ state : LifecycleState, getField fields (js "state") = .string state.name
  ts : ∃ n, getField fields (js "ts") = .number n ∧ JsNumber.isSafeInteger n = true

theorem hasEntryFields_iff [DecidableEq N] {fields : JsFields N} :
    hasEntryFields fields = true ↔ EntryFields fields := by
  unfold hasEntryFields
  simp only [Bool.and_eq_true]
  constructor
  · rintro ⟨⟨⟨⟨hversion, hidentity⟩, hhash⟩, hstate⟩, hts⟩
    refine ⟨?_, ?_, ?_, ?_, ?_⟩
    · cases h : getField fields (js "version") <;> simp_all
    · cases h : getField fields (js "identity") <;> simp_all [length_pos_iff]
    · cases h : getField fields (js "requestHash") <;> simp_all [length_pos_iff]
    · cases h : getField fields (js "state") with
      | string s =>
        rw [h] at hstate
        obtain ⟨state, hname⟩ := Option.isSome_iff_exists.mp hstate
        exact ⟨state, by rw [LifecycleState.name_of_ofName hname]⟩
      | _ => simp [h] at hstate
    · cases h : getField fields (js "ts") <;> simp_all
  · rintro ⟨hversion, ⟨s, hidentity, hs⟩, ⟨r, hhash, hr⟩, ⟨state, hstate⟩, ⟨n, hts, hn⟩⟩
    rw [hversion, hidentity, hhash, hstate, hts]
    simp only [LifecycleState.ofName_name, beq_self_eq_true, decide_eq_true_eq,
      length_pos_iff, Option.isSome_some, and_true]
    exact ⟨⟨⟨trivial, hs⟩, hr⟩, hn⟩

def entryOfFields (fields : JsFields N) (wellKeyed : WellKeyed (.object fields))
    (h : EntryFields fields) : LifecycleLedgerEntry N where
  fields := fields
  wellKeyed := wellKeyed
  identity := (asString (getField fields (js "identity"))).getD []
  requestHash := (asString (getField fields (js "requestHash"))).getD []
  state := ((asString (getField fields (js "state"))).bind LifecycleState.ofName).getD .accepted
  identity_eq := by
    obtain ⟨s, hs, -⟩ := h.identity
    rw [hs]
    rfl
  requestHash_eq := by
    obtain ⟨s, hs, -⟩ := h.requestHash
    rw [hs]
    rfl
  state_eq := by
    obtain ⟨state, hstate⟩ := h.state
    rw [hstate, asString, Option.bind_some, LifecycleState.ofName_name, Option.getD_some]

/-- The entry a value is, if `isLifecycleLedgerEntry` accepts it. -/
def toEntry [DecidableEq N] :
    (value : JsValue N) → WellKeyed value → Option (LifecycleLedgerEntry N)
  | .object fields, wellKeyed =>
    if h : isLifecycleLedgerEntry (.object fields) = true then
      some (entryOfFields fields wellKeyed
        (hasEntryFields_iff.mp (Bool.and_eq_true_iff.mp h).2))
    else none
  | _, _ => none

theorem toEntry_eq_some [DecidableEq N] {value : JsValue N} {wellKeyed : WellKeyed value}
    {entry : LifecycleLedgerEntry N} : toEntry value wellKeyed = some entry ↔
      value = entry.toValue ∧ isLifecycleLedgerEntry value = true := by
  constructor
  · intro h
    cases value with
    | object fields =>
      rw [toEntry] at h
      split_ifs at h with hvalid
      obtain rfl := some.inj h
      exact ⟨rfl, hvalid⟩
    | _ => cases h
  · rintro ⟨rfl, hvalid⟩
    rw [toEntry, dif_pos hvalid]
    exact congrArg some (LifecycleLedgerEntry.ext rfl)

end Entries
end GajaeCode
