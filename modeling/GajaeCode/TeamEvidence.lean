import GajaeCode.JsonValue
import Mathlib.Data.List.Dedup

/-! # Evidence of a completed task

The evidence part of `packages/coding-agent/src/gjc-runtime/team-store.ts`: what a worker hands in
is brought into a normal form in which at least one item is verified, and the strict gate says
which persisted evidence is accepted.

What the normal form keeps is in normal form (`normalize_toValue`), and the gate accepts it
(`isCanonicalCompletionEvidence_toValue`).
-/
namespace GajaeCode
open JsString JsValue List

namespace TeamTasks
variable {N : Type}
variable {value : JsValue N}
variable {out : Option JsString} {text : JsString}

/-- What the host's library decides: `Date.parse` (none for `NaN`), `path.isAbsolute`,
`localeCompare` and the full path of a task's claim file. -/
structure Host where
  parseDate : JsString → Option Int
  isAbsolute : JsString → Bool
  localeCompare : JsString → JsString → Int
  claimPath : JsString → JsString

/-- `[a-zA-Z0-9]` -/
def isIdStart (u : CodeUnit) : Bool :=
  (0x61 ≤ u && u ≤ 0x7a) || (0x41 ≤ u && u ≤ 0x5a) || isDigit u

/-- The same, or one of `_`, `.`, `:` and `-`. -/
def isIdUnit (u : CodeUnit) : Bool := isIdStart u || [0x5f, 0x2e, 0x3a, 0x2d].contains u

/-- `/^[a-zA-Z0-9][a-zA-Z0-9_.:-]*$/`, without two dots in a row. -/
def isSafeText (id : JsString) : Bool :=
  match id with
  | [] => false
  | u :: rest => isIdStart u && rest.all isIdUnit && !decide (js ".." <:+: id)

def isNonEmptyString : JsValue N → Bool
  | .string text => trim text ≠ []
  | _ => false

def isSafePersistedId : JsValue N → Bool
  | .string text => isNonEmptyString (.string text : JsValue N) && isSafeText text
  | _ => false

def isFiniteTimestamp (host : Host) : JsValue N → Bool
  | .string text => (host.parseDate text).isSome
  | _ => false

def isString : JsValue N → Bool
  | .string _ => true
  | _ => false

/-- `value === undefined || check(value)` -/
def optionally (check : JsValue N → Bool) (value : JsValue N) : Bool :=
  value.isUndefined || check value

/-- An array whose items pass a check. -/
def isArrayOf (check : JsValue N → Bool) : JsValue N → Bool
  | .array items => items.all check
  | _ => false

/-- `Object.keys(value).every(key => keys.has(key))` -/
def hasExactKeys (fields : JsFields N) (keys : List JsString) : Bool :=
  fields.all fun field => keys.contains field.1

/-- The fields that have a value: what an object is given, and what JSON keeps of it. -/
def definedFields (fields : JsFields N) : JsFields N :=
  fields.filter fun field => !field.2.isUndefined

def ofOption : Option JsString → JsValue N
  | some text => .string text
  | none => .undefined

theorem getField_definedFields {fields : JsFields N} (h : (fields.map Prod.fst).Nodup)
    (k : JsString) : getField (definedFields fields) k = getField fields k := by
  unfold definedFields
  induction fields with
  | nil => rfl
  | cons f fields ih =>
    rw [map_cons, nodup_cons] at h
    by_cases hf : f.2.isUndefined = true
    · rw [filter_cons_of_neg (by simp [hf]), ih h.2]
      by_cases hk : k = f.1
      · have hnone : fields.lookup k = none := lookup_eq_none_of_forall fun f' hf' heq =>
          h.1 (by rw [← hk, ← heq]; exact mem_map_of_mem hf')
        rw [getField, getField, hnone, lookup_cons, hk, beq_self_eq_true]
        exact (isUndefined_iff.mp hf).symm
      · rw [getField, getField, lookup_cons, beq_eq_false_iff_ne.mpr hk]
    · rw [filter_cons_of_pos (by simp [hf]), getField, getField, lookup_cons, lookup_cons]
      cases hkf : k == f.1 with
      | true => rfl
      | false => exact ih h.2

theorem hasExactKeys_definedFields {fields : JsFields N} {keys : List JsString}
    (h : ∀ f ∈ fields, f.1 ∈ keys) : hasExactKeys (definedFields fields) keys = true := by
  refine all_eq_true.mpr fun f hf => contains_iff_mem.mpr (h f ?_)
  exact (mem_filter.mp hf).1

/-! ## Normal evidence -/

structure EvidenceItem where
  kind : JsString
  status : JsString
  summary : JsString
  command : Option JsString
  artifact : Option JsString
  location : Option JsString
  output : Option JsString

structure CompletionEvidence where
  summary : JsString
  items : List EvidenceItem
  recordedBy : JsString
  recordedAt : JsString
  files : Option (List JsString)
  notes : Option JsString

def canonicalEvidenceKeys : List JsString :=
  [js "summary", js "items", js "files", js "notes", js "recorded_by", js "recorded_at"]

def canonicalEvidenceItemKeys : List JsString :=
  [js "kind", js "status", js "summary", js "command", js "artifact", js "location", js "output"]

def EvidenceItem.toValue (item : EvidenceItem) : JsValue N :=
  .object (definedFields [(js "kind", .string item.kind), (js "status", .string item.status),
    (js "summary", .string item.summary), (js "command", ofOption item.command),
    (js "artifact", ofOption item.artifact), (js "location", ofOption item.location),
    (js "output", ofOption item.output)])

def stringArray : Option (List JsString) → JsValue N
  | some texts => .array (texts.map JsValue.string)
  | none => .undefined

def CompletionEvidence.toValue (evidence : CompletionEvidence) : JsValue N :=
  .object (definedFields [(js "summary", .string evidence.summary),
    (js "items", .array (evidence.items.map EvidenceItem.toValue)),
    (js "recorded_by", .string evidence.recordedBy),
    (js "recorded_at", .string evidence.recordedAt), (js "files", stringArray evidence.files),
    (js "notes", ofOption evidence.notes)])

def evidenceError (id field : JsString) : JsString :=
  js "invalid_completion_evidence:" ++ id ++ js ":" ++ field

/-- `required(id, field, value)`, with the default maximum. -/
def required (id field : JsString) : JsValue N → Except JsString JsString
  | .string text =>
    if trim text = [] ∨ 4000 < (trim text).length then .error (evidenceError id field)
    else .ok (trim text)
  | _ => .error (evidenceError id field)

/-- `optional(id, field, value)`, with the default maximum. -/
def optional (id field : JsString) : JsValue N → Except JsString (Option JsString)
  | .undefined => .ok none
  | .null => .ok none
  | .string text =>
    if 8000 < (trim text).length then .error (evidenceError id field)
    else .ok (if trim text = [] then none else some (trim text))
  | _ => .error (evidenceError id field)

def evidenceKinds : List JsString := [js "command", js "inspection", js "artifact"]

def statusFits (kind status : JsString) : Bool :=
  if kind = js "command" then [js "passed", js "failed", js "not_run"].contains status
  else [js "verified", js "rejected"].contains status

def EvidenceItem.verified (item : EvidenceItem) : Bool :=
  if item.kind = js "command" then item.status = js "passed" else item.status = js "verified"

def normalizeItem (id : JsString) : JsValue N → Except JsString EvidenceItem
  | .object value => do
    let kind ← required id (js "items.kind") (getField value (js "kind"))
    if kind ∉ evidenceKinds then .error (evidenceError id (js "items.kind"))
    let status ← required id (js "items.status") (getField value (js "status"))
    if statusFits kind status = false then .error (evidenceError id (js "items.status"))
    let summary ← required id (js "items.summary") (getField value (js "summary"))
    let command ← optional id (js "items.command") (getField value (js "command"))
    let artifact ← optional id (js "items.artifact") (getField value (js "artifact"))
    let location ← optional id (js "items.location") (getField value (js "location"))
    let output ← optional id (js "items.output") (getField value (js "output"))
    if kind = js "command" ∧ command = none then .error (evidenceError id (js "items.command"))
    .ok ⟨kind, status, summary, command, artifact, location, output⟩
  | _ => .error (evidenceError id (js "items"))

/-- `file.trim().replace(/\\/g, "/")` -/
def slashed (file : JsString) : JsString := (trim file).map fun u => if u = 0x5c then 0x2f else u

/-- A file that is not one below the directory of the task. -/
def isBadFile (host : Host) (normalized : JsString) : Prop :=
  normalized = [] ∨ 0 ∈ normalized ∨ host.isAbsolute normalized = true ∨
    js ".." ∈ normalized.splitOn 0x2f

instance (host : Host) (normalized : JsString) : Decidable (isBadFile host normalized) :=
  inferInstanceAs (Decidable (_ ∨ _))

def normalizeFile (host : Host) (id : JsString) : JsValue N → Except JsString JsString
  | .string file =>
    if isBadFile host (slashed file) then .error (evidenceError id (js "files"))
    else .ok (slashed file)
  | _ => .error (evidenceError id (js "files"))

/-- `[...new Set(texts)].sort()` -/
def sortedSet (texts : List JsString) : List JsString :=
  texts.dedup.mergeSort fun left right => decide (left ≤ right)

def normalizeFiles (host : Host) (id : JsString) :
    JsValue N → Except JsString (Option (List JsString))
  | .undefined => .ok none
  | .null => .ok none
  | .array files => do
    let files ← files.mapM (normalizeFile host id)
    .ok (if files = [] then none else some (sortedSet files))
  | _ => .error (evidenceError id (js "files"))

def normalizeGjcTeamTaskCompletionEvidence (host : Host) (id owner : JsString) (input : JsValue N)
    (recordedAt : JsString) : Except JsString CompletionEvidence :=
  match input with
  | .object input =>
    match getField input (js "items") with
    | .array items => do
      if items = [] then .error (evidenceError id (js "items"))
      let items ← items.mapM (normalizeItem id)
      if items.any EvidenceItem.verified = false then
        .error (js "completion_evidence_no_verified_item:" ++ id)
      let files ← normalizeFiles host id (getField input (js "files"))
      let summary ← required id (js "summary") (getField input (js "summary"))
      let notes ← optional id (js "notes") (getField input (js "notes"))
      .ok ⟨summary, items, owner, recordedAt, files, notes⟩
    | _ => .error (evidenceError id (js "items"))
  | _ => .error (js "completion_evidence_required:" ++ id)

/-! ## What is normal stays as it is -/

/-- A text that is trimmed, not blank and not too long. -/
structure IsText (max : Nat) (text : JsString) : Prop where
  trimmed : trim text = text
  ne_nil : text ≠ []
  length_le : text.length ≤ max

theorem bind_ok {ε α β : Type} {x : Except ε α} {f : α → Except ε β} {b : β}
    (h : x >>= f = .ok b) : ∃ a, x = .ok a ∧ f a = .ok b := by
  cases x with
  | error err => cases h
  | ok a => exact ⟨a, rfl, h⟩

theorem isText_of_required {id field : JsString} (h : required id field value = .ok text) :
    IsText 4000 text := by
  cases value with
  | string text' =>
    rw [required] at h
    split_ifs at h with hbad
    obtain rfl := Except.ok.inj h
    rw [not_or, not_lt] at hbad
    exact ⟨trim_trim _, hbad.1, hbad.2⟩
  | _ => cases h

theorem required_of_isText (h : IsText 4000 text) (id field : JsString) :
    required id field (.string text : JsValue N) = .ok text := by
  rw [required, h.trimmed, if_neg]
  rw [not_or, not_lt]
  exact ⟨h.ne_nil, h.length_le⟩

theorem isText_of_optional {id field : JsString} (h : optional id field value = .ok out) :
    ∀ text ∈ out, IsText 8000 text := by
  intro text htext
  cases value with
  | string text' =>
    rw [optional] at h
    split_ifs at h with hlong hblank
    · rw [← Except.ok.inj h] at htext
      exact absurd htext (by simp)
    · rw [← Except.ok.inj h] at htext
      obtain rfl := some.inj htext
      exact ⟨trim_trim _, hblank, not_lt.mp hlong⟩
  | undefined =>
    rw [← Except.ok.inj h] at htext
    exact absurd htext (by simp)
  | null =>
    rw [← Except.ok.inj h] at htext
    exact absurd htext (by simp)
  | _ => cases h

theorem optional_of_isText (h : ∀ text ∈ out, IsText 8000 text) (id field : JsString) :
    optional id field (ofOption out : JsValue N) = .ok out := by
  cases out with
  | none => rfl
  | some text =>
    obtain ⟨htrimmed, hne, hlength⟩ := h text rfl
    rw [ofOption, optional, htrimmed, if_neg (not_lt.mpr hlength), if_neg hne]

structure EvidenceItem.Normal (item : EvidenceItem) : Prop where
  kind_mem : item.kind ∈ evidenceKinds
  kind : IsText 4000 item.kind
  status_fits : statusFits item.kind item.status = true
  status : IsText 4000 item.status
  summary : IsText 4000 item.summary
  command : ∀ text ∈ item.command, IsText 8000 text
  artifact : ∀ text ∈ item.artifact, IsText 8000 text
  location : ∀ text ∈ item.location, IsText 8000 text
  output : ∀ text ∈ item.output, IsText 8000 text
  has_command : item.kind = js "command" → item.command ≠ none

theorem normal_of_normalizeItem {id : JsString} {item : EvidenceItem}
    (h : normalizeItem id value = .ok item) : item.Normal := by
  cases value with
  | object value =>
    rw [normalizeItem] at h
    obtain ⟨kind, hkind, h⟩ := bind_ok h
    split_ifs at h with hmem
    case neg => cases h
    obtain ⟨status, hstatus, h⟩ := bind_ok h
    split_ifs at h with hfits
    case pos => cases h
    obtain ⟨summary, hsummary, h⟩ := bind_ok h
    obtain ⟨command, hcommand, h⟩ := bind_ok h
    obtain ⟨artifact, hartifact, h⟩ := bind_ok h
    obtain ⟨location, hlocation, h⟩ := bind_ok h
    obtain ⟨output, houtput, h⟩ := bind_ok h
    split_ifs at h with hhas
    case pos => cases h
    obtain rfl := Except.ok.inj h
    exact ⟨hmem, isText_of_required hkind, Bool.not_eq_false _ ▸ hfits,
      isText_of_required hstatus, isText_of_required hsummary, isText_of_optional hcommand,
      isText_of_optional hartifact, isText_of_optional hlocation, isText_of_optional houtput,
      fun hcmd hnone => hhas ⟨hcmd, hnone⟩⟩
  | _ => cases h

theorem fieldsOf_item (item : EvidenceItem) : ∃ fields : JsFields N,
    (item.toValue : JsValue N) = .object fields ∧ getField fields (js "kind") = .string item.kind ∧
      getField fields (js "status") = .string item.status ∧
      getField fields (js "summary") = .string item.summary ∧
      getField fields (js "command") = ofOption item.command ∧
      getField fields (js "artifact") = ofOption item.artifact ∧
      getField fields (js "location") = ofOption item.location ∧
      getField fields (js "output") = ofOption item.output ∧
      hasExactKeys fields canonicalEvidenceItemKeys = true := by
  refine ⟨_, rfl, ?_⟩
  have hkeys : ([js "kind", js "status", js "summary", js "command", js "artifact", js "location",
      js "output"] : List JsString).Nodup := by decide
  have hget := fun k => @getField_definedFields N [(js "kind", .string item.kind),
    (js "status", .string item.status), (js "summary", .string item.summary),
    (js "command", ofOption item.command), (js "artifact", ofOption item.artifact),
    (js "location", ofOption item.location), (js "output", ofOption item.output)] hkeys k
  simp only [hget]
  refine ⟨rfl, rfl, rfl, rfl, rfl, rfl, rfl, hasExactKeys_definedFields ?_⟩
  simp [canonicalEvidenceItemKeys]

theorem normalizeItem_toValue {item : EvidenceItem} (h : item.Normal) (id : JsString) :
    normalizeItem id (item.toValue : JsValue N) = .ok item := by
  obtain ⟨fields, hvalue, hkind, hstatus, hsummary, hcommand, hartifact, hlocation, houtput, -⟩ :=
    @fieldsOf_item N item
  have hhas : ¬ (item.kind = js "command" ∧ item.command = none) := fun hbad =>
    h.has_command hbad.1 hbad.2
  have hfits : ¬ statusFits item.kind item.status = false := by simp [h.status_fits]
  rw [hvalue, normalizeItem, hkind, hstatus, hsummary, hcommand, hartifact, hlocation, houtput,
    required_of_isText h.kind, required_of_isText h.status, required_of_isText h.summary,
    optional_of_isText h.command, optional_of_isText h.artifact, optional_of_isText h.location,
    optional_of_isText h.output]
  simp only [Bind.bind, Except.bind, if_neg (not_not.mpr h.kind_mem), if_neg hfits, if_neg hhas]

/-! ### Files -/

theorem trim_map {f : CodeUnit → CodeUnit} (hf : ∀ u, isWhitespace (f u) = isWhitespace u)
    (text : JsString) : trim (text.map f) = (trim text).map f := by
  have hcomp : isWhitespace ∘ f = isWhitespace := funext hf
  unfold trim trimEnd trimStart rdropWhile
  rw [dropWhile_map, hcomp, ← map_reverse, dropWhile_map, hcomp, map_reverse]

theorem slashed_slashed (file : JsString) : slashed (slashed file) = slashed file := by
  have hslash : ∀ u, isWhitespace (if u = 0x5c then 0x2f else u) = isWhitespace u := by
    intro u
    by_cases hu : u = 0x5c
    · rw [if_pos hu, hu]
      decide
    · rw [if_neg hu]
  unfold slashed
  rw [trim_map hslash, trim_trim, map_map]
  refine map_congr_left fun u _ => ?_
  by_cases hu : u = 0x5c
  · simp [hu]
  · simp [hu]

def NormalFile (host : Host) (file : JsString) : Prop := slashed file = file ∧ ¬ isBadFile host file

variable {host : Host}

theorem normalFile_of_normalizeFile {id file : JsString}
    (h : normalizeFile host id value = .ok file) : NormalFile host file := by
  cases value with
  | string text =>
    rw [normalizeFile] at h
    split_ifs at h with hbad
    obtain rfl := Except.ok.inj h
    exact ⟨slashed_slashed text, hbad⟩
  | _ => cases h

theorem normalizeFile_of_normal {file : JsString} (h : NormalFile host file) (id : JsString) :
    normalizeFile host id (.string file : JsValue N) = .ok file := by
  rw [normalizeFile, h.1, if_neg h.2]

theorem mem_sortedSet {texts : List JsString} : text ∈ sortedSet texts ↔ text ∈ texts := by
  unfold sortedSet
  rw [mem_mergeSort, mem_dedup]

theorem mapM_ok {α β : Type} {f : α → Except JsString β} {xs : List α} {ys : List β}
    (h : xs.mapM f = .ok ys) : (∀ y ∈ ys, ∃ x ∈ xs, f x = .ok y) ∧ (xs ≠ [] → ys ≠ []) := by
  induction xs generalizing ys with
  | nil =>
    rw [mapM_nil] at h
    obtain rfl := Except.ok.inj h
    exact ⟨fun y hy => absurd hy not_mem_nil, fun hne => absurd rfl hne⟩
  | cons x xs ih =>
    rw [mapM_cons] at h
    obtain ⟨y, hy, h⟩ := bind_ok h
    obtain ⟨ys', hys', h⟩ := bind_ok h
    obtain rfl := Except.ok.inj h
    refine ⟨fun y' hy' => ?_, fun _ => cons_ne_nil _ _⟩
    rcases mem_cons.mp hy' with rfl | hy'
    · exact ⟨x, mem_cons_self, hy⟩
    · obtain ⟨x', hx', heq⟩ := (ih hys').1 y' hy'
      exact ⟨x', mem_cons_of_mem _ hx', heq⟩

theorem mapM_map {α β : Type} {f : α → Except JsString β} {g : β → α} {ys : List β}
    (h : ∀ y ∈ ys, f (g y) = .ok y) : (ys.map g).mapM f = .ok ys := by
  induction ys with
  | nil => rfl
  | cons y ys ih =>
    obtain ⟨hy, hys⟩ := forall_mem_cons.mp h
    rw [map_cons, mapM_cons, hy, ih hys]
    rfl

/-! ### The whole -/

structure CompletionEvidence.Normal (host : Host) (evidence : CompletionEvidence) : Prop where
  summary : IsText 4000 evidence.summary
  items_ne_nil : evidence.items ≠ []
  items : ∀ item ∈ evidence.items, item.Normal
  verified : evidence.items.any EvidenceItem.verified = true
  files : ∀ files ∈ evidence.files, files ≠ [] ∧ ∀ file ∈ files, NormalFile host file
  notes : ∀ text ∈ evidence.notes, IsText 8000 text

theorem normal_of_normalizeFiles {id : JsString} {out : Option (List JsString)}
    (h : normalizeFiles host id value = .ok out) :
    ∀ files ∈ out, files ≠ [] ∧ ∀ file ∈ files, NormalFile host file := by
  intro files hfiles
  cases value with
  | undefined =>
    rw [← Except.ok.inj h] at hfiles
    exact absurd hfiles (by simp)
  | null =>
    rw [← Except.ok.inj h] at hfiles
    exact absurd hfiles (by simp)
  | array values =>
    rw [normalizeFiles] at h
    obtain ⟨normalized, hmap, h⟩ := bind_ok h
    split_ifs at h with hnil
    · rw [← Except.ok.inj h] at hfiles
      exact absurd hfiles (by simp)
    · rw [← Except.ok.inj h] at hfiles
      obtain rfl := some.inj hfiles
      obtain ⟨file, hfile⟩ := exists_mem_of_ne_nil _ hnil
      refine ⟨ne_nil_of_mem (mem_sortedSet.mpr hfile), fun file' hfile' => ?_⟩
      obtain ⟨value, -, hvalue⟩ := (mapM_ok hmap).1 file' (mem_sortedSet.mp hfile')
      exact normalFile_of_normalizeFile hvalue
  | _ => cases h

theorem normalizeFiles_of_normal {files : Option (List JsString)}
    (h : ∀ fs ∈ files, fs ≠ [] ∧ ∀ file ∈ fs, NormalFile host file) (id : JsString) :
    ∃ out, normalizeFiles host id (stringArray files : JsValue N) = .ok out := by
  cases files with
  | none => exact ⟨none, rfl⟩
  | some fs =>
    have hmap : (fs.map (JsValue.string (N := N))).mapM (normalizeFile host id) = .ok fs :=
      mapM_map fun file hfile => normalizeFile_of_normal ((h fs rfl).2 file hfile) id
    rw [stringArray, normalizeFiles, hmap]
    exact ⟨_, rfl⟩

theorem normal_of_normalize {id owner recordedAt : JsString} {input : JsValue N}
    {evidence : CompletionEvidence} (h : normalizeGjcTeamTaskCompletionEvidence host id owner input
      recordedAt = .ok evidence) :
    evidence.Normal host ∧ evidence.recordedBy = owner ∧ evidence.recordedAt = recordedAt := by
  unfold normalizeGjcTeamTaskCompletionEvidence at h
  cases input with
  | object fields =>
    dsimp only at h
    cases hitems : getField fields (js "items") with
    | array values =>
      rw [hitems] at h
      dsimp only at h
      split_ifs at h with hnil
      case pos => cases h
      obtain ⟨items, hmap, h⟩ := bind_ok h
      split_ifs at h with hverified
      case pos => cases h
      obtain ⟨files, hfiles, h⟩ := bind_ok h
      obtain ⟨summary, hsummary, h⟩ := bind_ok h
      obtain ⟨notes, hnotes, h⟩ := bind_ok h
      obtain rfl := Except.ok.inj h
      obtain ⟨hnormal, hne⟩ := mapM_ok hmap
      refine ⟨⟨isText_of_required hsummary, hne hnil, fun item hitem => ?_,
        Bool.not_eq_false _ ▸ hverified, normal_of_normalizeFiles hfiles,
        isText_of_optional hnotes⟩, rfl, rfl⟩
      obtain ⟨value, -, hvalue⟩ := hnormal item hitem
      exact normal_of_normalizeItem hvalue
    | _ =>
      rw [hitems] at h
      cases h
  | _ => cases h

theorem fieldsOf_evidence (evidence : CompletionEvidence) : ∃ fields : JsFields N,
    (evidence.toValue : JsValue N) = .object fields ∧
      getField fields (js "summary") = .string evidence.summary ∧
      getField fields (js "items") = .array (evidence.items.map EvidenceItem.toValue) ∧
      getField fields (js "recorded_by") = .string evidence.recordedBy ∧
      getField fields (js "recorded_at") = .string evidence.recordedAt ∧
      getField fields (js "files") = stringArray evidence.files ∧
      getField fields (js "notes") = ofOption evidence.notes ∧
      hasExactKeys fields canonicalEvidenceKeys = true := by
  refine ⟨_, rfl, ?_⟩
  have hkeys : ([js "summary", js "items", js "recorded_by", js "recorded_at", js "files",
      js "notes"] : List JsString).Nodup := by decide
  have hget := fun k => @getField_definedFields N [(js "summary", .string evidence.summary),
    (js "items", .array (evidence.items.map EvidenceItem.toValue)),
    (js "recorded_by", .string evidence.recordedBy),
    (js "recorded_at", .string evidence.recordedAt), (js "files", stringArray evidence.files),
    (js "notes", ofOption evidence.notes)] hkeys k
  simp only [hget]
  refine ⟨rfl, rfl, rfl, rfl, rfl, rfl, hasExactKeys_definedFields ?_⟩
  simp [canonicalEvidenceKeys]

/-- **Normal evidence passes again**, whoever recorded it. -/
theorem normalize_toValue {evidence : CompletionEvidence} (h : evidence.Normal host)
    (id owner recordedAt : JsString) : ∃ again, normalizeGjcTeamTaskCompletionEvidence host id owner
      (evidence.toValue : JsValue N) recordedAt = .ok again := by
  obtain ⟨fields, hvalue, hsummary, hitems, -, -, hfiles, hnotes, -⟩ :=
    @fieldsOf_evidence N evidence
  have hmap : (evidence.items.map (EvidenceItem.toValue (N := N))).mapM (normalizeItem id) =
      .ok evidence.items := mapM_map fun item hitem => normalizeItem_toValue (h.items item hitem) id
  have hne : ¬ evidence.items.map (EvidenceItem.toValue (N := N)) = [] := by simp [h.items_ne_nil]
  have hverified : ¬ evidence.items.any EvidenceItem.verified = false := by simp [h.verified]
  obtain ⟨files, hfiles'⟩ := normalizeFiles_of_normal (N := N) h.files id
  rw [hvalue, normalizeGjcTeamTaskCompletionEvidence, hitems]
  dsimp only
  rw [if_neg hne, hmap, hfiles, hfiles', hsummary, required_of_isText h.summary, hnotes,
    optional_of_isText h.notes]
  simp only [Bind.bind, Except.bind, if_neg hverified]
  exact ⟨_, rfl⟩

/-! ## The gate for persisted evidence -/

section Gate
variable [JsNumber N]

mutual
/-- `String(value)` -/
def stringOf : JsValue N → JsString
  | .undefined => js "undefined"
  | .null => js "null"
  | .boolean b => if b then js "true" else js "false"
  | .number n => JsNumber.text n
  | .string text => text
  | .array items => (js ",").intercalate (itemStrings items)
  | .object _ => js "[object Object]"
def itemStrings : List (JsValue N) → List JsString
  | [] => []
  | .undefined :: items => [] :: itemStrings items
  | .null :: items => [] :: itemStrings items
  | item :: items => stringOf item :: itemStrings items
end

/-- `value === text` -/
def equalsText (text : JsString) : JsValue N → Bool
  | .string text' => text' = text
  | _ => false

def isCanonicalItem : JsValue N → Bool
  | .object item =>
    let isCommand := equalsText (js "command") (getField item (js "kind"))
    hasExactKeys item canonicalEvidenceItemKeys &&
    isNonEmptyString (getField item (js "summary")) &&
    evidenceKinds.contains (stringOf (getField item (js "kind"))) &&
    (if isCommand then
      [js "passed", js "failed", js "not_run"].contains (stringOf (getField item (js "status")))
    else [js "verified", js "rejected"].contains (stringOf (getField item (js "status")))) &&
    optionally isNonEmptyString (getField item (js "command")) &&
    optionally isNonEmptyString (getField item (js "artifact")) &&
    optionally isNonEmptyString (getField item (js "location")) &&
    optionally isString (getField item (js "output")) &&
    (!isCommand || isNonEmptyString (getField item (js "command")))
  | _ => false

def isCanonicalCompletionEvidence (host : Host) : JsValue N → Bool
  | .object value =>
    hasExactKeys value canonicalEvidenceKeys &&
    isNonEmptyString (getField value (js "summary")) &&
    isSafePersistedId (getField value (js "recorded_by")) &&
    isFiniteTimestamp host (getField value (js "recorded_at")) &&
    (match getField value (js "items") with
      | .array items => !items.isEmpty && items.all isCanonicalItem
      | _ => false) &&
    optionally (isArrayOf isNonEmptyString) (getField value (js "files")) &&
    optionally isString (getField value (js "notes"))
  | _ => false

omit [JsNumber N] in
theorem isNonEmptyString_of_isText {max : Nat} {text : JsString} (h : IsText max text) :
    isNonEmptyString (.string text : JsValue N) = true := by
  simp [isNonEmptyString, h.trimmed, h.ne_nil]

omit [JsNumber N] in
theorem optionally_isNonEmptyString {max : Nat} {text : Option JsString}
    (h : ∀ t ∈ text, IsText max t) :
    optionally isNonEmptyString (ofOption text : JsValue N) = true := by
  cases text with
  | none => rfl
  | some t => simp [optionally, ofOption, isNonEmptyString_of_isText (h t rfl)]

theorem isCanonicalItem_toValue {item : EvidenceItem} (h : item.Normal) :
    isCanonicalItem (item.toValue : JsValue N) = true := by
  obtain ⟨fields, hvalue, hkind, hstatus, hsummary, hcommand, hartifact, hlocation, houtput,
    hkeys⟩ := @fieldsOf_item N item
  have hkindMem : evidenceKinds.contains item.kind = true := contains_iff_mem.mpr h.kind_mem
  have houtput' : optionally isString (ofOption item.output : JsValue N) = true := by
    cases item.output <;> rfl
  have hfits := h.status_fits
  unfold statusFits at hfits
  rw [hvalue, isCanonicalItem, hkind, hstatus, hsummary, hcommand, hartifact, hlocation, houtput]
  simp only [hkeys, isNonEmptyString_of_isText h.summary, stringOf, hkindMem, equalsText,
    optionally_isNonEmptyString h.command, optionally_isNonEmptyString h.artifact,
    optionally_isNonEmptyString h.location, houtput', Bool.true_and, Bool.and_true,
    decide_eq_true_eq, hfits]
  by_cases hcmd : item.kind = js "command"
  · cases hnone : item.command with
    | none => exact absurd hnone (h.has_command hcmd)
    | some text =>
      simp [ofOption, isNonEmptyString_of_isText (h.command text hnone)]
  · simp [hcmd]

theorem isCanonicalCompletionEvidence_toValue {host : Host} {evidence : CompletionEvidence}
    (h : evidence.Normal host)
    (hby : isSafePersistedId (.string evidence.recordedBy : JsValue N) = true)
    (hat : (host.parseDate evidence.recordedAt).isSome = true) :
    isCanonicalCompletionEvidence host (evidence.toValue : JsValue N) = true := by
  obtain ⟨fields, hvalue, hsummary, hitems, hrecordedBy, hrecordedAt, hfiles, hnotes, hkeys⟩ :=
    @fieldsOf_evidence N evidence
  have hitems' : (!(evidence.items.map (EvidenceItem.toValue (N := N))).isEmpty &&
      (evidence.items.map (EvidenceItem.toValue (N := N))).all isCanonicalItem) = true := by
    rw [Bool.and_eq_true, all_map, all_eq_true]
    exact ⟨by simp [h.items_ne_nil], fun item hitem => isCanonicalItem_toValue (h.items item hitem)⟩
  have hnotes' : optionally isString (ofOption evidence.notes : JsValue N) = true := by
    cases evidence.notes <;> rfl
  have hfiles' : optionally (isArrayOf isNonEmptyString)
      (stringArray evidence.files : JsValue N) = true := by
    cases hfs : evidence.files with
    | none => rfl
    | some files =>
      have hall : (files.map (JsValue.string (N := N))).all isNonEmptyString = true := by
        rw [all_map, all_eq_true]
        intro file hfile
        obtain ⟨hslashed, hbad⟩ := (h.files files hfs).2 file hfile
        have hblank : trim file ≠ [] := fun hblank => hbad (.inl (by
          rw [← hslashed, slashed, hblank, map_nil]))
        simpa [isNonEmptyString] using hblank
      simp [optionally, stringArray, isArrayOf, hall]
  rw [hvalue, isCanonicalCompletionEvidence, hsummary, hitems, hrecordedBy, hrecordedAt, hfiles,
    hnotes]
  simp only [hkeys, isNonEmptyString_of_isText h.summary, hby, isFiniteTimestamp, hat, hitems',
    hfiles', hnotes', Bool.and_true]

/-! ### Evidence is JSON -/

theorem asJson_definedFields {fields : JsFields N} (h : ∀ f ∈ fields, asJson f.2 = f.2) :
    asJson (.object (definedFields fields)) = .object (definedFields fields) := by
  rw [asJson_object, fieldsAsJson_eq]
  unfold definedFields
  rw [filter_filter]
  simp only [Bool.and_self]
  congr 1
  conv_rhs => rw [← map_id (fields.filter _)]
  refine map_congr_left fun f hf => ?_
  rw [h f (mem_filter.mp hf).1]
  rfl

theorem asJson_ofOption (text : Option JsString) :
    asJson (ofOption text : JsValue N) = ofOption text := by
  cases text <;> rfl

theorem asJson_array_of_forall {items : List (JsValue N)}
    (h : ∀ v ∈ items, v ≠ .undefined ∧ asJson v = v) : asJson (.array items) = .array items := by
  rw [asJson_array, itemsAsJson_eq]
  congr 1
  conv_rhs => rw [← map_id items]
  refine map_congr_left fun v hv => ?_
  rw [(h v hv).2, orNull_of_ne (h v hv).1, id]

theorem asJson_stringArray (texts : Option (List JsString)) :
    asJson (stringArray texts : JsValue N) = stringArray texts := by
  cases texts with
  | none => rfl
  | some texts =>
    refine asJson_array_of_forall fun v hv => ?_
    obtain ⟨text, -, rfl⟩ := mem_map.mp hv
    exact ⟨by simp, rfl⟩

theorem asJson_item (item : EvidenceItem) : asJson (item.toValue : JsValue N) = item.toValue := by
  refine asJson_definedFields ?_
  simp [asJson_ofOption]

theorem asJson_evidence (evidence : CompletionEvidence) :
    asJson (evidence.toValue : JsValue N) = evidence.toValue := by
  have hitems : asJson (.array (evidence.items.map (EvidenceItem.toValue (N := N)))) =
      .array (evidence.items.map EvidenceItem.toValue) := by
    refine asJson_array_of_forall fun v hv => ?_
    obtain ⟨item, -, rfl⟩ := mem_map.mp hv
    exact ⟨by simp [EvidenceItem.toValue], asJson_item item⟩
  refine asJson_definedFields ?_
  simp only [forall_mem_cons, asJson_string, asJson_ofOption, asJson_stringArray, hitems,
    not_mem_nil, false_imp_iff, implies_true, and_self]

end Gate

end TeamTasks
end GajaeCode
