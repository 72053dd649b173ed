import GajaeCode.TeamWrites

/-! # Which records the gate accepts

A record is checked field by field, and its claim against its status, owner and assignee.  An
operation sets some fields of a record and leaves the others, so what it writes is accepted if
the fields it sets pass (`Record.spread`) and the claim still fits.

The claim does not fit after a transition to `blocked`; apart from that, what is written is
accepted if the ids that come from outside are safe (`gate_accepts_iff`).
-/
namespace GajaeCode
open JsString JsValue List

namespace TeamTasks
variable {N : Type} [JsNumber N] [JsCounter N] {host : Host}
variable {fields : JsFields N} {keys : List JsString}
variable {kc : JsString × (JsValue N → Bool)} {us : JsFields N}

/-- A record with the keys of a task, and fields that are JSON. -/
structure Record (fields : JsFields N) : Prop where
  ordered : KeysOrdered fields
  keys : hasExactKeys fields canonicalTaskKeys = true
  json : ∀ f ∈ fields, asJson f.2 = f.2

omit [JsCounter N] in
theorem Record.getField_json (h : Record fields) (k : JsString) :
    asJson (getField fields k) = getField fields k := by
  unfold getField
  cases hk : fields.lookup k with
  | none => rfl
  | some v =>
    obtain ⟨before, after, hfields, -⟩ := lookup_eq_some_iff.mp hk
    exact h.json (k, v) (hfields ▸ mem_append_right _ mem_cons_self)

omit [JsCounter N] in
/-- Setting fields of a record keeps it one. -/
theorem Record.spread (h : Record fields)
    (hus : ∀ u ∈ us, u.1 ∈ canonicalTaskKeys ∧ asJson u.2 = u.2) :
    Record (spreadFields fields us) := by
  refine ⟨keysOrdered_spreadFields h.ordered us, ?_, fun f hf => ?_⟩
  · refine all_eq_true.mpr fun f hf => ?_
    rcases mem_spreadFields hf with hf | hf
    · exact all_eq_true.mp h.keys f hf
    · exact contains_iff_mem.mpr (hus f hf).1
  · rcases mem_spreadFields hf with hf | hf
    · exact h.json f hf
    · exact (hus f hf).2

/-- Every field passes its own check. -/
def Passes (host : Host) (fields : JsFields N) : Prop :=
  ∀ kc ∈ fieldChecks host, kc.2 (getField fields kc.1) = true

theorem lookup_of_mem_fieldChecks (h : kc ∈ fieldChecks host) :
    (fieldChecks host).lookup kc.1 = some kc.2 := by
  have hkeys : ((fieldChecks (N := N) host).map Prod.fst).Nodup := by
    unfold fieldChecks
    simp only [map_cons, map_nil]
    decide
  exact lookup_of_mem hkeys h

/-- All fields pass, but those of some keys. -/
def PassesBut (host : Host) (keys : List JsString) (fields : JsFields N) : Prop :=
  ∀ kc ∈ fieldChecks host, kc.1 ∉ keys → kc.2 (getField fields kc.1) = true

/-- Fields that are set need to pass only if they are not left out. -/
theorem passesBut_spread (hnodup : (us.map Prod.fst).Nodup)
    (hleft : PassesBut host (keys ++ us.map Prod.fst) fields)
    (hus : ∀ u ∈ us, u.1 ∉ keys → ∃ check, (u.1, check) ∈ fieldChecks host ∧ check u.2 = true) :
    PassesBut host keys (spreadFields fields us) := by
  intro kc hkc hkey
  rw [getField_spreadFields _ _ _ hnodup]
  cases hu : us.lookup kc.1 with
  | none =>
    refine hleft kc hkc fun hmem => ?_
    rcases mem_append.mp hmem with hmem | hmem
    · exact hkey hmem
    · obtain ⟨u, hmem, heq⟩ := mem_map.mp hmem
      have hne := lookup_eq_none_iff.mp hu u hmem
      exact absurd heq.symm (bne_iff_ne.mp hne)
  | some v =>
    obtain ⟨before, after, hsplit, -⟩ := lookup_eq_some_iff.mp hu
    obtain ⟨check, hmem, hcheck⟩ := hus (kc.1, v)
      (hsplit ▸ mem_append_right _ mem_cons_self) hkey
    have hsame : some check = some kc.2 :=
      (lookup_of_mem_fieldChecks hmem).symm.trans (lookup_of_mem_fieldChecks hkc)
    rw [← some.inj hsame]
    exact hcheck

theorem PassesBut.mono {keys' : List JsString} (h : PassesBut host keys fields)
    (hsub : keys ⊆ keys') : PassesBut host keys' fields :=
  fun kc hkc hkey => h kc hkc fun hmem => hkey (hsub hmem)

/-- Fields that are set may fail only where that is allowed. -/
theorem PassesBut.spread (h : PassesBut host keys fields) (hnodup : (us.map Prod.fst).Nodup)
    (hus : ∀ u ∈ us, u.1 ∉ keys → ∃ check, (u.1, check) ∈ fieldChecks host ∧ check u.2 = true) :
    PassesBut host keys (spreadFields fields us) :=
  passesBut_spread hnodup (h.mono (subset_append_left _ _)) hus

theorem Passes.but (h : Passes host fields) (keys : List JsString) :
    PassesBut host keys fields := fun kc hkc _ => h kc hkc

theorem PassesBut.passes (h : PassesBut host [] fields) :
    Passes host fields := fun kc hkc => h kc hkc not_mem_nil

/-- Setting fields to values that pass keeps a record passing. -/
theorem Passes.spread (h : Passes host fields) (hnodup : (us.map Prod.fst).Nodup)
    (hus : ∀ u ∈ us, ∃ check, (u.1, check) ∈ fieldChecks host ∧ check u.2 = true) :
    Passes host (spreadFields fields us) :=
  ((h.but []).spread hnodup fun u hu _ => hus u hu).passes

/-- The gate on a record: its id, its fields and its claim. -/
theorem gate_asJson (h : Record fields) (id : JsString) :
    isCanonicalPersistedGjcTeamTask host (asJson (.object fields)) id = true ↔
      equalsText id (getField fields (js "id")) = true ∧ Passes host fields ∧
        claimFits fields = true := by
  have hget : ∀ k, getField (fieldsAsJson fields) k = getField fields k := fun k => by
    rw [getField_fieldsAsJson h.ordered.nodup, h.getField_json]
  have hkeys : hasExactKeys (fieldsAsJson fields) canonicalTaskKeys = true := by
    refine all_eq_true.mpr fun f hf => ?_
    rw [fieldsAsJson_eq] at hf
    obtain ⟨f', hf', rfl⟩ := mem_map.mp hf
    exact all_eq_true.mp h.keys f' (mem_filter.mp hf').1
  rw [asJson_object, isCanonicalPersistedGjcTeamTask]
  unfold claimFits Passes
  simp only [hget, hkeys, Bool.true_and, Bool.and_eq_true, all_eq_true, and_assoc]

/-! ## Records that are read -/

/-- A file holds what `JSON.stringify` wrote of some record. -/
def JsonFile (value : JsValue N) : Prop :=
  ∃ fields : JsFields N, KeysOrdered fields ∧ value = asJson (.object fields)

/-- Every file of a task holds a record that the gate accepts for it. -/
def CanonicalStore (host : Host) (store : TeamStore N) : Prop :=
  ∀ file ∈ store.tasks, JsonFile file.2 ∧
    isCanonicalPersistedGjcTeamTask host file.2 file.1 = true

/-- A record that the gate accepts, in memory. -/
structure Accepted (host : Host) (fields : JsFields N) : Prop where
  record : Record fields
  passes : Passes host fields
  claim_fits : claimFits fields = true

omit [JsCounter N] in
/-- A file with the keys of a record is one. -/
theorem record_of_jsonFile (h : JsonFile (.object fields))
    (hkeys : hasExactKeys fields canonicalTaskKeys = true) : Record fields := by
  obtain ⟨written, hordered, heq⟩ := h
  rw [asJson_object] at heq
  obtain rfl := JsValue.object.inj heq
  refine ⟨?_, hkeys, fun f hf => ?_⟩
  · rw [fieldsAsJson_eq, KeysOrdered, pairwise_map]
    exact hordered.sublist filter_sublist
  · rw [fieldsAsJson_eq] at hf
    obtain ⟨f', -, rfl⟩ := mem_map.mp hf
    exact asJson_asJson f'.2

/-- What the gate accepts is an accepted record. -/
theorem accepted_of_gate {id : JsString} (h : JsonFile (.object fields))
    (hgate : isCanonicalPersistedGjcTeamTask host (.object fields) id = true) :
    Accepted host fields ∧ getField fields (js "id") = .string id := by
  rw [isCanonicalPersistedGjcTeamTask] at hgate
  simp only [Bool.and_eq_true] at hgate
  obtain ⟨⟨⟨hkeys, hid⟩, hchecks⟩, hclaim⟩ := hgate
  refine ⟨⟨record_of_jsonFile h hkeys, fun kc hkc => all_eq_true.mp hchecks kc hkc, hclaim⟩, ?_⟩
  cases hfield : getField fields (js "id") with
  | string text =>
    rw [hfield] at hid
    rw [of_decide_eq_true hid]
  | _ =>
    rw [hfield] at hid
    cases hid

theorem Passes.text (h : Passes host fields) (key : JsString)
    (hkey : (key, isString) ∈ fieldChecks (N := N) host) :
    ∃ text, getField fields key = .string text := by
  have hcheck := h _ hkey
  cases hfield : getField fields key with
  | string text => exact ⟨text, rfl⟩
  | _ =>
    dsimp only at hcheck
    rw [hfield] at hcheck
    cases hcheck

theorem Passes.version (h : Passes host fields) :
    ∃ n, getField fields (js "version") = .number n ∧ JsCounter.isPositiveInteger n = true := by
  have hcheck := h (js "version", isVersion) (by simp [fieldChecks])
  cases hfield : getField fields (js "version") with
  | number n =>
    dsimp only at hcheck
    rw [hfield] at hcheck
    exact ⟨n, rfl, hcheck⟩
  | _ =>
    dsimp only at hcheck
    rw [hfield] at hcheck
    cases hcheck

section
omit [JsNumber N] [JsCounter N]

theorem optionally_optionalString (v : JsValue N) :
    optionally isNonEmptyString (ofOption (optionalString v) : JsValue N) = true := by
  cases v with
  | string text =>
    rw [optionalString]
    split_ifs with hblank
    · rfl
    · simp [optionally, ofOption, isNonEmptyString, trim_trim, hblank]
  | _ => rfl

theorem optionally_optionalStringArray (v : JsValue N) : optionally (isArrayOf isNonEmptyString)
    (stringArray (optionalStringArray v) : JsValue N) = true := by
  cases v with
  | array items =>
    rw [optionalStringArray]
    split_ifs with hnil
    · rfl
    · refine Bool.or_eq_true_iff.mpr (.inr ?_)
      rw [stringArray, isArrayOf, all_map, all_eq_true]
      intro text htext
      obtain ⟨item, -, hitem⟩ := mem_filterMap.mp (mem_sortedSet.mp htext)
      cases item with
      | string raw =>
        rw [optionalString] at hitem
        split_ifs at hitem with hblank
        obtain rfl := some.inj hitem
        simp [isNonEmptyString, trim_trim, hblank]
      | _ => cases hitem
  | _ => rfl

end

theorem asJson_version {n : N} (h : JsCounter.isPositiveInteger n = true) :
    asJson (.number n) = .number n := by
  rw [asJson_number_of_finite (JsCounter.isFinite_of_isPositiveInteger n h),
    JsCounter.read_text_of_isPositiveInteger n h]

/-- A record that `normalizeGjcTeamTask` makes acceptable: what it sets may be missing, and its
texts and lists may be blank. -/
structure Normalizable (host : Host) (fields : JsFields N) : Prop where
  record : Record fields
  passes : PassesBut host normalizedKeys fields
  status : isStatus (getField fields (js "status")) = true
  subject : ∃ text, getField fields (js "subject") = ofOption text
  description : ∃ text, getField fields (js "description") = ofOption text
  title : ∃ text, getField fields (js "title") = .string text
  objective : ∃ text, getField fields (js "objective") = .string text
  version : ∃ n, getField fields (js "version") = .number n ∧
    JsCounter.isPositiveInteger n = true
  claim_fits : claimFits fields = true

omit [JsNumber N] [JsCounter N] in
theorem coalesce_ofOption (text : Option JsString) (other : JsString) :
    ∃ out, coalesce (ofOption text : JsValue N) (.string other) = .string out := by
  cases text with
  | none => exact ⟨other, rfl⟩
  | some text => exact ⟨text, rfl⟩

omit [JsCounter N] in
/-- Normalizing does not touch what the claim must fit. -/
theorem claimFits_normalize (h : claimFits fields = true) :
    claimFits (normalizeGjcTeamTask fields) = true := by
  unfold claimFits at h ⊢
  rw [getField_normalize fields (k := js "claim") (by decide),
    getField_normalize fields (k := js "owner") (by decide),
    getField_normalize fields (k := js "assignee") (by decide), status_normalize]
  by_cases hcomplete : equalsText (js "complete") (getField fields (js "status")) = true
  · -- a claim does not fit what is complete
    rw [if_pos hcomplete]
    rcases Bool.or_eq_true_iff.mp h with hnone | hfits
    · rw [hnone, Bool.true_or]
    · cases hfield : getField fields (js "status") with
      | string text =>
        rw [hfield] at hcomplete hfits
        obtain rfl := of_decide_eq_true hcomplete
        cases hfits
      | _ =>
        rw [hfield] at hcomplete
        cases hcomplete
  · rw [if_neg hcomplete]
    exact h

/-- Normalizing such a record makes it an accepted one. -/
theorem Normalizable.normalize (h : Normalizable host fields) :
    Accepted host (normalizeGjcTeamTask fields) := by
  obtain ⟨subject?, hsubject⟩ := h.subject
  obtain ⟨description?, hdescription⟩ := h.description
  obtain ⟨title, htitle⟩ := h.title
  obtain ⟨objective, hobjective⟩ := h.objective
  obtain ⟨n, hversion, hn⟩ := h.version
  obtain ⟨subject, hsubject'⟩ := @coalesce_ofOption N subject? title
  obtain ⟨description, hdescription'⟩ := @coalesce_ofOption N description? objective
  refine ⟨?_, ?_, claimFits_normalize h.claim_fits⟩
  · unfold normalizeGjcTeamTask
    rw [hsubject, hdescription, htitle, hobjective, hversion, hsubject', hdescription']
    refine h.record.spread ?_
    simp only [forall_mem_cons, asJson_string, coalesce, asJson_version hn,
      asJson_ofOption, asJson_stringArray, not_mem_nil, false_imp_iff, implies_true, and_true]
    refine ⟨⟨by decide, ?_⟩, by decide, by decide, by decide, by decide, by decide, by decide,
      by decide, by decide⟩
    split_ifs
    · rfl
    · exact h.record.getField_json (js "status")
  · unfold normalizeGjcTeamTask
    rw [hsubject, hdescription, htitle, hobjective, hversion, hsubject', hdescription']
    refine (passesBut_spread (by simp only [map_cons, map_nil]; decide) h.passes ?_).passes
    simp only [forall_mem_cons, coalesce, not_mem_nil, not_false_eq_true, true_imp_iff,
      false_imp_iff, implies_true, and_true]
    refine ⟨⟨isStatus, by simp [fieldChecks], ?_⟩, ⟨isString, by simp [fieldChecks], rfl⟩,
      ⟨isString, by simp [fieldChecks], rfl⟩, ⟨isString, by simp [fieldChecks], rfl⟩,
      ⟨isString, by simp [fieldChecks], rfl⟩, ⟨isVersion, by simp [fieldChecks], hn⟩,
      ⟨_, by simp [fieldChecks], optionally_optionalString _⟩,
      ⟨_, by simp [fieldChecks], optionally_optionalString _⟩,
      ⟨_, by simp [fieldChecks], optionally_optionalStringArray _⟩⟩
    split_ifs
    · rfl
    · exact h.status

/-- An accepted record can be normalized. -/
theorem Accepted.normalizable (h : Accepted host fields) : Normalizable host fields := by
  obtain ⟨subject, hsubject⟩ := h.passes.text (js "subject") (by simp [fieldChecks])
  obtain ⟨description, hdescription⟩ := h.passes.text (js "description") (by simp [fieldChecks])
  exact
    { record := h.record
      passes := h.passes.but _
      status := h.passes (js "status", isStatus) (by simp [fieldChecks])
      subject := ⟨some subject, hsubject⟩
      description := ⟨some description, hdescription⟩
      title := h.passes.text (js "title") (by simp [fieldChecks])
      objective := h.passes.text (js "objective") (by simp [fieldChecks])
      version := h.passes.version
      claim_fits := h.claim_fits }

omit [JsCounter N] in
theorem mem_list {store : TeamStore N} {task : JsFields N} :
    task ∈ store.list host ↔ ∃ file ∈ store.tasks, TeamStore.taskOfFile file = some task := by
  unfold TeamStore.list
  rw [mem_mergeSort, mem_filterMap]

omit [JsCounter N] in
theorem taskOfFile_eq_some {file : JsString × JsValue N} {task : JsFields N}
    (h : TeamStore.taskOfFile file = some task) :
    ∃ fields, file.2 = .object fields ∧ task = normalizeGjcTeamTask fields := by
  unfold TeamStore.taskOfFile at h
  split at h
  · next fields hfields =>
    split_ifs at h
    exact ⟨fields, hfields, (some.inj h).symm⟩
  · cases h

/-- So are all that are listed. -/
theorem accepted_of_mem_list {store : TeamStore N} (hstore : CanonicalStore host store)
    {task : JsFields N} (h : task ∈ store.list host) :
    Accepted host task ∧ getField task (js "id") = .string (textField task (js "id")) := by
  obtain ⟨⟨name, value⟩, hmem, htask⟩ := mem_list.mp h
  obtain ⟨fields, rfl, rfl⟩ := taskOfFile_eq_some htask
  obtain ⟨hjson, hgate⟩ := hstore _ hmem
  obtain ⟨haccepted, hid⟩ := accepted_of_gate hjson hgate
  refine ⟨haccepted.normalizable.normalize, ?_⟩
  have hid' : getField (normalizeGjcTeamTask fields) (js "id") = .string name := by
    rw [getField_normalize fields (by decide), hid]
  rw [textField, hid']

/-- So every record that is read is accepted. -/
theorem accepted_of_read {store : TeamStore N} (hstore : CanonicalStore host store)
    {id : JsString} {task : JsFields N} (h : store.read host id = some task) :
    Accepted host task ∧ getField task (js "id") = .string id := by
  obtain ⟨haccepted, hid⟩ := accepted_of_mem_list hstore (mem_of_find?_eq_some h)
  have hfound : textField task (js "id") = id := by
    unfold TeamStore.read at h
    simpa using find?_some h
  rw [hfound] at hid
  exact ⟨haccepted, hid⟩

/-- The gate accepts what is written of an acceptable record. -/
theorem gate_of_normalizable {task : JsFields N} (h : Normalizable host task) {id : JsString}
    (hid : getField task (js "id") = .string id) :
    isCanonicalPersistedGjcTeamTask host (asJson (.object (normalizeGjcTeamTask task))) id =
      true := by
  have haccepted := h.normalize
  refine (gate_asJson haccepted.record id).mpr ⟨?_, haccepted.passes, haccepted.claim_fits⟩
  rw [getField_normalize task (by decide), hid]
  exact decide_eq_true rfl

/-- What the gate has seen of a record that it accepts. -/
theorem check_of_gate (hordered : KeysOrdered fields) {id : JsString}
    (h : isCanonicalPersistedGjcTeamTask host (asJson (.object fields)) id = true)
    (hkc : kc ∈ fieldChecks host) : kc.2 (asJson (getField fields kc.1)) = true := by
  rw [asJson_object, isCanonicalPersistedGjcTeamTask] at h
  simp only [Bool.and_eq_true, all_eq_true] at h
  rw [← getField_fieldsAsJson hordered.nodup]
  exact h.1.2 kc hkc

omit [JsCounter N] in
theorem keysOrdered_normalizeTask (h : KeysOrdered fields) :
    KeysOrdered (normalizeGjcTeamTask fields) := keysOrdered_spreadFields h _

/-! ## Ids from outside -/

theorem isWhitespace_of_isIdStart {u : CodeUnit} (h : isIdStart u = true) :
    isWhitespace u = false := by
  unfold isIdStart isDigit at h
  unfold isWhitespace
  simp only [Bool.or_eq_true, Bool.and_eq_true, decide_eq_true_eq, Bool.or_eq_false_iff,
    Bool.and_eq_false_iff, beq_eq_false_iff_ne, decide_eq_false_iff_not, ne_eq,
    UInt16.le_iff_toNat_le, ← UInt16.toNat_inj, UInt16.reduceToNat] at h ⊢
  omega

/-- A safe id begins with a letter or digit, so it is not blank. -/
theorem trim_ne_nil_of_isSafeText {id : JsString} (h : isSafeText id = true) : trim id ≠ [] := by
  cases id with
  | nil => cases h
  | cons u rest =>
    simp only [isSafeText, Bool.and_eq_true] at h
    have hu := isWhitespace_of_isIdStart h.1.1
    have hstart : trimStart (u :: rest) = u :: rest := by
      rw [trimStart, dropWhile_cons_of_neg]
      simp [hu]
    rw [trim, hstart, trimEnd, ne_eq, rdropWhile_eq_nil_iff]
    intro hall
    have hblank := hall u mem_cons_self
    rw [hu] at hblank
    cases hblank

omit [JsNumber N] [JsCounter N] in
/-- An id that passed `assertSafeId` passes the gate. -/
theorem isSafePersistedId_of_isSafeText {id : JsString} (h : isSafeText id = true) :
    isSafePersistedId (.string id : JsValue N) = true := by
  rw [isSafePersistedId, h, Bool.and_true]
  simpa [isNonEmptyString] using trim_ne_nil_of_isSafeText h

theorem unit_taskId (n : Nat) :
    ∀ u ∈ js "task-" ++ JsString.ofNat n, isIdUnit u = true ∧ u ≠ 0x2e := by
  intro u hu
  rcases mem_append.mp hu with hu | hu
  · have hall : (js "task-").all (fun u => isIdUnit u && u != 0x2e) = true := rfl
    simpa using all_eq_true.mp hall u hu
  · have hdigit := isDigit_of_mem_ofNat n u hu
    refine ⟨by simp [isIdUnit, isIdStart, hdigit], ?_⟩
    rintro rfl
    exact absurd hdigit (by decide)

/-- The ids that `create` makes are safe. -/
theorem isSafeText_taskId (n : Nat) : isSafeText (js "task-" ++ JsString.ofNat n) = true := by
  have hdigits := unit_taskId n
  have hdots : ¬ js ".." <:+: js "task-" ++ JsString.ofNat n := fun h =>
    (hdigits 0x2e (h.subset (by decide))).2 rfl
  have hcons : js "task-" ++ JsString.ofNat n = 0x74 :: (js "ask-" ++ JsString.ofNat n) := rfl
  rw [hcons] at hdigits hdots ⊢
  rw [isSafeText, decide_eq_false hdots, Bool.not_false, Bool.and_true, Bool.and_eq_true]
  exact ⟨rfl, all_eq_true.mpr fun u hu => (hdigits u (mem_cons_of_mem _ hu)).1⟩

/-- The ids, where they are given, are safe. -/
def SafeIds (N : Type) (ids : Option (List JsString)) : Prop :=
  ∀ list ∈ ids, ∀ id ∈ list, isSafePersistedId (.string id : JsValue N) = true

section
omit [JsNumber N] [JsCounter N]

/-- The check on a list of ids, as a condition on the ids. -/
theorem safeIds_iff (ids : Option (List JsString)) :
    optionally (isArrayOf isSafePersistedId) (stringArray ids : JsValue N) = true ↔
      SafeIds N ids := by
  unfold SafeIds
  cases ids with
  | none => exact ⟨fun _ list hlist => absurd hlist (by simp), fun _ => rfl⟩
  | some list =>
    have hcheck : optionally (isArrayOf isSafePersistedId) (stringArray (some list) : JsValue N) =
        (list.map (JsValue.string (N := N))).all isSafePersistedId := rfl
    rw [hcheck, all_map, all_eq_true]
    simp

theorem safeOwner_iff (owner : Option JsString) :
    optionally isSafePersistedId (ofOption owner : JsValue N) = true ↔
      ∀ id ∈ owner, isSafePersistedId (.string id : JsValue N) = true := by
  cases owner with
  | none => exact ⟨fun _ id hid => absurd hid (by simp), fun _ => rfl⟩
  | some id => simp [optionally, ofOption]

end

theorem dependsOn_checked :
    (js "depends_on", optionally (isArrayOf isSafePersistedId)) ∈ fieldChecks (N := N) host := by
  simp [fieldChecks]

theorem blockedBy_checked :
    (js "blocked_by", optionally (isArrayOf isSafePersistedId)) ∈ fieldChecks (N := N) host := by
  simp [fieldChecks]

/-- The gate accepts no ids but safe ones. -/
theorem safeIds_of_gate (hordered : KeysOrdered fields) {id : JsString}
    (h : isCanonicalPersistedGjcTeamTask host (asJson (.object fields)) id = true) {key : JsString}
    (hkey : (key, optionally (isArrayOf isSafePersistedId)) ∈ fieldChecks (N := N) host)
    {ids : Option (List JsString)} (hfield : getField fields key = stringArray ids) :
    SafeIds N ids := by
  have hcheck := check_of_gate hordered h hkey
  dsimp only at hcheck
  rw [hfield, asJson_stringArray] at hcheck
  exact (safeIds_iff ids).mp hcheck

omit [JsNumber N] [JsCounter N] in
theorem getField_spread_defined (record : JsFields N) {fs : JsFields N}
    (hkeys : (fs.map Prod.fst).Nodup) (k : JsString) :
    getField (spreadFields record (definedFields fs)) k =
      if (getField fs k).isUndefined then getField record k else getField fs k := by
  have hsub : ((definedFields fs).map Prod.fst).Nodup :=
    hkeys.sublist (filter_sublist.map _)
  rw [getField_spreadFields _ _ _ hsub, ← getField_definedFields hkeys k]
  cases hk : (definedFields fs).lookup k with
  | none =>
    rw [getField, getField, hk]
    rfl
  | some v =>
    obtain ⟨before, after, hsplit, -⟩ := lookup_eq_some_iff.mp hk
    have hv : v.isUndefined = false := by
      have hmem : (k, v) ∈ definedFields fs := hsplit ▸ mem_append_right _ mem_cons_self
      simpa using (mem_filter.mp hmem).2
    rw [getField, getField, hk, Option.getD_some, Option.getD_some, hv, if_neg Bool.false_ne_true]

/-! ## Tasks that are created -/

section Create
variable {id subject description : JsString} {options : GjcTeamTaskMetadataInput}
  {createdAt updatedAt : Timestamp host}

omit [JsCounter N] in
theorem getField_newTask (k : JsString) :
    getField (newTask (N := N) host id subject description options createdAt updatedAt) k =
      (([(js "version", .number JsNumber.one), (js "created_at", .string createdAt.1),
        (js "updated_at", .string updatedAt.1)] : JsFields N).lookup k).getD
      (let option := getField ([(js "owner", ofOption options.owner),
          (js "lane", ofOption options.lane), (js "required_role", ofOption options.requiredRole),
          (js "allowed_roles", stringArray options.allowedRoles),
          (js "depends_on", stringArray options.dependsOn),
          (js "blocked_by", stringArray options.blockedBy)] : JsFields N) k
      if option.isUndefined then
        getField ([(js "id", .string id), (js "subject", .string subject),
          (js "description", .string description), (js "title", .string subject),
          (js "objective", .string description), (js "status", .string (js "pending"))] :
          JsFields N) k
      else option) := by
  unfold newTask GjcTeamTaskMetadataInput.toFields
  rw [getField_spreadFields _ _ _ (by simp only [map_cons, map_nil]; decide),
    getField_spread_defined _ (by simp only [map_cons, map_nil]; decide)]

/-- A new task has every key of a record, in order. -/
theorem record_newTask :
    Record (newTask (N := N) host id subject description options createdAt updatedAt) := by
  unfold newTask
  have hbase : Record ([(js "id", .string id), (js "subject", .string subject),
      (js "description", .string description), (js "title", .string subject),
      (js "objective", .string description), (js "status", .string (js "pending"))] :
      JsFields N) := by
    have hkeys : [js "id", js "subject", js "description", js "title", js "objective",
        js "status"].Pairwise KeyBefore := by decide
    refine ⟨keysOrdered_of_keys rfl hkeys, rfl, ?_⟩
    simp only [forall_mem_cons, asJson_string, not_mem_nil, false_imp_iff, implies_true, and_self]
  refine (hbase.spread fun u hu => ?_).spread ?_
  · have hall : ∀ u ∈ ([(js "owner", ofOption options.owner), (js "lane", ofOption options.lane),
        (js "required_role", ofOption options.requiredRole),
        (js "allowed_roles", stringArray options.allowedRoles),
        (js "depends_on", stringArray options.dependsOn),
        (js "blocked_by", stringArray options.blockedBy)] : JsFields N),
        u.1 ∈ canonicalTaskKeys ∧ asJson u.2 = u.2 := by
      simp only [forall_mem_cons, asJson_ofOption, asJson_stringArray, not_mem_nil,
        false_imp_iff, implies_true, and_true]
      decide
    exact hall u (mem_filter.mp hu).1
  · have hone : asJson (.number JsNumber.one : JsValue N) = .number JsNumber.one :=
      asJson_version JsCounter.isPositiveInteger_one
    simp only [forall_mem_cons, asJson_string, hone, not_mem_nil, false_imp_iff,
      implies_true, and_true]
    decide

/-- A new task passes every check if its ids are safe. -/
theorem normalizable_newTask (hid : isSafePersistedId (.string id : JsValue N) = true)
    (howner : ∀ owner ∈ options.owner, isSafePersistedId (.string owner : JsValue N) = true)
    (hdepends : SafeIds N options.dependsOn) (hblocked : SafeIds N options.blockedBy) :
    Normalizable host
      (newTask (N := N) host id subject description options createdAt updatedAt) where
  record := record_newTask
  passes kc hkc hnot := by
    have howner' := (safeOwner_iff options.owner).mpr howner
    have hdepends' := (safeIds_iff options.dependsOn).mpr hdepends
    have hblocked' := (safeIds_iff options.blockedBy).mpr hblocked
    rw [getField_newTask]
    simp only [fieldChecks, mem_cons, not_mem_nil, or_false] at hkc
    rcases hkc with rfl | rfl | rfl | rfl | rfl | rfl | rfl | rfl | rfl | rfl | rfl | rfl | rfl |
      rfl | rfl | rfl | rfl | rfl | rfl | rfl | rfl
    all_goals dsimp only at hnot
    all_goals try exact absurd (by decide) hnot
    · exact hid
    · exact createdAt.2.1
    · exact updatedAt.2.1
    · rfl
    · cases howner : options.owner with
      | none => rfl
      | some owner =>
        rw [howner] at howner'
        exact howner'
    · rfl
    · rfl
    · rfl
    · cases hids : options.dependsOn with
      | none => rfl
      | some ids =>
        rw [hids] at hdepends'
        exact hdepends'
    · cases hids : options.blockedBy with
      | none => rfl
      | some ids =>
        rw [hids] at hblocked'
        exact hblocked'
    · rfl
    · rfl
  status := by
    rw [getField_newTask]
    rfl
  subject := ⟨some subject, by rw [getField_newTask]; rfl⟩
  description := ⟨some description, by rw [getField_newTask]; rfl⟩
  title := ⟨subject, by rw [getField_newTask]; rfl⟩
  objective := ⟨description, by rw [getField_newTask]; rfl⟩
  version := ⟨JsNumber.one, by rw [getField_newTask]; rfl, JsCounter.isPositiveInteger_one⟩
  claim_fits := by
    rw [claimFits, getField_newTask]
    rfl

/-- What is written of a new task is accepted if the ids it is given are safe, and only then. -/
theorem create_accepted_iff (hid : isSafePersistedId (.string id : JsValue N) = true) :
    isCanonicalPersistedGjcTeamTask host (asJson (.object (normalizeGjcTeamTask
        (newTask (N := N) host id subject description options createdAt updatedAt)))) id = true ↔
      (∀ owner ∈ options.owner, isSafePersistedId (.string owner : JsValue N) = true) ∧
        SafeIds N options.dependsOn ∧ SafeIds N options.blockedBy := by
  constructor
  · intro hgate
    have hordered : KeysOrdered (normalizeGjcTeamTask
        (newTask (N := N) host id subject description options createdAt updatedAt)) :=
      keysOrdered_normalizeTask record_newTask.ordered
    refine ⟨?_, safeIds_of_gate hordered hgate dependsOn_checked ?_,
      safeIds_of_gate hordered hgate blockedBy_checked ?_⟩
    · have hcheck := check_of_gate hordered hgate
        (show (js "owner", optionally isSafePersistedId) ∈ fieldChecks host by simp [fieldChecks])
      dsimp only at hcheck
      rw [getField_normalize _ (by decide), getField_newTask] at hcheck
      refine (safeOwner_iff options.owner).mp ?_
      cases howner : options.owner with
      | none => rfl
      | some owner =>
        rw [howner] at hcheck
        exact hcheck
    · rw [getField_normalize _ (by decide), getField_newTask]
      cases options.dependsOn <;> rfl
    · rw [getField_normalize _ (by decide), getField_newTask]
      cases options.blockedBy <;> rfl
  · rintro ⟨howner, hdepends, hblocked⟩
    refine gate_of_normalizable (normalizable_newTask hid howner hdepends hblocked) ?_
    rw [getField_newTask]
    rfl

end Create

/-! ## Tasks that are updated -/

section Update
variable {task : JsFields N} {updates : TaskUpdates} {updatedAt : Timestamp host}

omit [JsNumber N] [JsCounter N] in
/-- An update leaves a text a text. -/
theorem text_updates {k : JsString} (hk : k ∈ updateTextKeys) {text : JsString}
    (h : getField task k = .string text) :
    ∃ out, (updates.toFields.lookup k).getD (getField task k) = ofOption out := by
  cases hlookup : updates.toFields.lookup k with
  | none => exact ⟨some text, h⟩
  | some v =>
    obtain ⟨before, after, hsplit, -⟩ := lookup_eq_some_iff.mp hlookup
    have hmem : (k, v) ∈ updates.toFields := hsplit ▸ mem_append_right _ mem_cons_self
    rcases mem_updates hmem with ⟨out, -, hv⟩ | ⟨roles, heq⟩ | ⟨ids, -, heq⟩ | ⟨ids, -, heq⟩
    · exact ⟨out, hv⟩
    all_goals
      rw [(Prod.mk.inj heq).1] at hk
      exact absurd hk (by decide)

/-- The version is counted up from a positive integer. -/
theorem nextVersion_of_passes (h : Passes host task) :
    ∃ n, nextVersion task = .number n ∧ JsCounter.isPositiveInteger n = true := by
  obtain ⟨n, hversion, hn⟩ := h.version
  refine ⟨JsCounter.increment n, ?_, JsCounter.isPositiveInteger_increment n hn⟩
  rw [nextVersion, hversion]

/-- An update sets known keys only. -/
theorem record_assembled (h : Accepted host task) :
    Record (assembledTask task updates updatedAt) := by
  obtain ⟨n, hnext, hn⟩ := nextVersion_of_passes h.passes
  obtain ⟨title, htitle⟩ := h.passes.text (js "title") (by simp [fieldChecks])
  obtain ⟨objective, hobjective⟩ := h.passes.text (js "objective") (by simp [fieldChecks])
  obtain ⟨title', htitle'⟩ := @coalesce_ofOption N (updates.subject.getD none) title
  obtain ⟨objective', hobjective'⟩ :=
    @coalesce_ofOption N (updates.description.getD none) objective
  unfold assembledTask
  rw [htitle, hobjective, htitle', hobjective', hnext]
  refine (h.record.spread fun u hu => ⟨?_, ?_⟩).spread ?_
  · have hkey := (keys_updates_sublist updates).subset (mem_map_of_mem hu)
    exact (show updateKeys ⊆ canonicalTaskKeys by decide) hkey
  · rcases mem_updates hu with ⟨out, -, hv⟩ | ⟨roles, heq⟩ | ⟨ids, -, heq⟩ | ⟨ids, -, heq⟩
    · rw [hv, asJson_ofOption]
    all_goals rw [heq, asJson_stringArray]
  · simp only [forall_mem_cons, asJson_string, asJson_version hn, not_mem_nil,
      false_imp_iff, implies_true, and_true]
    decide

/-- So does an updated one. -/
theorem normalizable_assembled (h : Accepted host task)
    (hdepends : ∀ ids ∈ updates.dependsOn, SafeIds N ids)
    (hblocked : ∀ ids ∈ updates.blockedBy, SafeIds N ids) :
    Normalizable host (assembledTask task updates updatedAt) := by
  obtain ⟨n, hnext, hn⟩ := nextVersion_of_passes h.passes
  obtain ⟨title, htitle⟩ := h.passes.text (js "title") (by simp [fieldChecks])
  obtain ⟨objective, hobjective⟩ := h.passes.text (js "objective") (by simp [fieldChecks])
  obtain ⟨subject, hsubject⟩ := h.passes.text (js "subject") (by simp [fieldChecks])
  obtain ⟨description, hdescription⟩ := h.passes.text (js "description") (by simp [fieldChecks])
  refine ⟨record_assembled h, ?_, ?_, ?_, ?_, ?_, ?_, ⟨n, ?_, hn⟩, ?_⟩
  · unfold assembledTask
    refine ((h.passes.but _).spread (nodup_updates updates) fun u hu hkey => ?_).spread
      (by simp only [map_cons, map_nil]; decide) ?_
    · rcases mem_updates hu with ⟨out, htext, -⟩ | ⟨roles, rfl⟩ | ⟨ids, hids, rfl⟩ |
        ⟨ids, hids, rfl⟩
      · exact absurd ((show updateTextKeys ⊆ normalizedKeys by decide) htext) hkey
      · exact absurd (show js "allowed_roles" ∈ normalizedKeys by decide) hkey
      · exact ⟨_, by simp [fieldChecks], (safeIds_iff ids).mpr (hdepends ids hids)⟩
      · exact ⟨_, by simp [fieldChecks], (safeIds_iff ids).mpr (hblocked ids hids)⟩
    · simp only [forall_mem_cons, not_mem_nil, false_imp_iff, implies_true, and_true]
      refine ⟨fun hkey => absurd (show js "title" ∈ normalizedKeys by decide) hkey,
        fun hkey => absurd (show js "objective" ∈ normalizedKeys by decide) hkey,
        fun hkey => absurd (show js "version" ∈ normalizedKeys by decide) hkey,
        fun _ => ⟨isFiniteTimestamp host, by simp [fieldChecks], updatedAt.2.1⟩⟩
  · rw [getField_assembled_of_not_mem (by decide)]
    exact h.passes (js "status", isStatus) (by simp [fieldChecks])
  · rw [getField_assembled]
    exact text_updates (by decide) hsubject
  · rw [getField_assembled]
    exact text_updates (by decide) hdescription
  · rw [getField_assembled, htitle]
    exact coalesce_ofOption _ _
  · rw [getField_assembled, hobjective]
    exact coalesce_ofOption _ _
  · rw [getField_assembled]
    exact hnext
  · have hclaim := h.claim_fits
    unfold claimFits at hclaim ⊢
    rw [getField_assembled_of_not_mem (k := js "claim") (by decide),
      getField_assembled_of_not_mem (k := js "owner") (by decide),
      getField_assembled_of_not_mem (k := js "assignee") (by decide),
      getField_assembled_of_not_mem (k := js "status") (by decide)]
    exact hclaim

theorem id_assembled {id : JsString} (hid : getField task (js "id") = .string id) :
    getField (assembledTask task updates updatedAt) (js "id") = .string id := by
  rw [getField_assembled_of_not_mem (by decide), hid]

/-- An update is accepted if the ids it gives are safe, and only then. -/
theorem update_accepted_iff (h : Accepted host task) {id : JsString}
    (hid : getField task (js "id") = .string id) :
    isCanonicalPersistedGjcTeamTask host
        (asJson (.object (normalizeGjcTeamTask (updatedTask host task updates updatedAt)))) id =
        true ↔
      (∀ ids ∈ updates.dependsOn, SafeIds N ids) ∧ ∀ ids ∈ updates.blockedBy, SafeIds N ids := by
  rw [updatedTask_eq]
  constructor
  · intro hgate
    have hordered : KeysOrdered (normalizeGjcTeamTask (normalizeGjcTeamTask
        (assembledTask task updates updatedAt))) :=
      keysOrdered_normalizeTask (keysOrdered_normalizeTask (record_assembled h).ordered)
    refine ⟨fun ids hids => safeIds_of_gate hordered hgate dependsOn_checked ?_,
      fun ids hids => safeIds_of_gate hordered hgate blockedBy_checked ?_⟩
    · rw [getField_normalize _ (by decide), getField_normalize _ (by decide), getField_assembled,
        lookup_updates (mem_updates_dependsOn hids)]
      rfl
    · rw [getField_normalize _ (by decide), getField_normalize _ (by decide), getField_assembled,
        lookup_updates (mem_updates_blockedBy hids)]
      rfl
  · rintro ⟨hdepends, hblocked⟩
    have hid' : getField (normalizeGjcTeamTask (assembledTask task updates updatedAt)) (js "id") =
        .string id := by rw [getField_normalize _ (by decide), id_assembled hid]
    exact gate_of_normalizable (normalizable_assembled h hdepends hblocked).normalize.normalizable
      hid'

end Update

/-! ## Tasks that change hands -/

section Change
variable {store : TeamStore N} {task : JsFields N}
variable {us : JsFields N}

/-- Setting fields of an accepted record to values that pass. -/
theorem Accepted.spread (h : Accepted host task) (hnodup : (us.map Prod.fst).Nodup)
    (hus : ∀ u ∈ us, u.1 ∈ canonicalTaskKeys ∧ asJson u.2 = u.2 ∧ ∃ check, (u.1, check) ∈
      fieldChecks host ∧ check u.2 = true) (hclaim : claimFits (spreadFields task us) = true) :
    Accepted host (spreadFields task us) :=
  ⟨h.record.spread fun u hu => ⟨(hus u hu).1, (hus u hu).2.1⟩,
    h.passes.spread hnodup fun u hu => (hus u hu).2.2, hclaim⟩

omit [JsNumber N] [JsCounter N] in
/-- Whether the claim fits is seen in four fields. -/
theorem claimFits_spread [JsNumber N] (hnodup : (us.map Prod.fst).Nodup) :
    claimFits (spreadFields task us) =
      (let field (k : JsString) : JsValue N := (us.lookup k).getD (getField task k)
      (field (js "claim")).isUndefined ||
        let owner := getField (fieldsOf (field (js "claim"))) (js "owner")
        equalsText (js "in_progress") (field (js "status")) &&
        sameText (field (js "owner")) owner && sameText (field (js "assignee")) owner) := by
  unfold claimFits
  simp only [getField_spreadFields _ _ _ hnodup]

omit [JsCounter N] in
theorem asJson_claimValue (worker : GjcTeamTaskWorker) (input : ClaimInput host) :
    asJson (claimValue host worker input : JsValue N) = claimValue host worker input := by
  rw [claimValue, asJson_object, fieldsAsJson_eq]
  rfl

omit [JsNumber N] [JsCounter N] in
/-- A claim that `claim` makes passes the check on claims. -/
theorem isCanonicalClaim_claimValue (worker : GjcTeamTaskWorker) (input : ClaimInput host) :
    isCanonicalPersistedGjcTeamTaskClaim host (claimValue host worker input : JsValue N) =
      true := by
  have howner : isSafePersistedId (.string worker.id : JsValue N) = true :=
    isSafePersistedId_of_isSafeText worker.id_safe
  have htoken : isNonEmptyString (.string input.token : JsValue N) = true := by
    simpa [isNonEmptyString] using input.token_ne_nil
  have hlease := input.leasedUntil.2.1
  simp only [claimValue, isCanonicalPersistedGjcTeamTaskClaim, Bool.and_eq_true]
  exact ⟨⟨⟨rfl, howner⟩, htoken⟩, hlease⟩

section
variable (h : Accepted host task)
variable {evidence : Option CompletionEvidence} {claimed : JsFields N} {now : Timestamp host}
include h

/-- A claim writes a record that is accepted. -/
theorem claimedTask_accepted (worker : GjcTeamTaskWorker) (input : ClaimInput host) :
    Accepted host (claimedTask host task worker input) := by
  obtain ⟨n, hnext, hn⟩ := nextVersion_of_passes h.passes
  have howner : optionally isSafePersistedId (.string worker.id : JsValue N) = true :=
    isSafePersistedId_of_isSafeText worker.id_safe
  have hclaim : optionally (isCanonicalPersistedGjcTeamTaskClaim host)
      (claimValue host worker input : JsValue N) = true :=
    Bool.or_eq_true_iff.mpr (.inr (isCanonicalClaim_claimValue worker input))
  have hnodup : [js "status", js "assignee", js "owner", js "claim", js "version",
      js "updated_at"].Nodup := by decide
  unfold claimedTask
  rw [hnext]
  refine h.spread hnodup ?_ ?_
  · simp only [forall_mem_cons, asJson_string, asJson_claimValue, asJson_version hn,
      not_mem_nil, false_imp_iff, implies_true, and_true, true_and]
    exact ⟨⟨by decide, isStatus, by simp [fieldChecks], rfl⟩,
      ⟨by decide, _, by simp [fieldChecks], howner⟩, ⟨by decide, _, by simp [fieldChecks], howner⟩,
      ⟨by decide, _, by simp [fieldChecks], hclaim⟩,
      ⟨by decide, isVersion, by simp [fieldChecks], hn⟩,
      ⟨by decide, isFiniteTimestamp host, by simp [fieldChecks], input.updatedAt.2.1⟩⟩
  · refine (claimFits_spread ?_).trans ?_
    · exact hnodup
    · show (false || (true && decide (worker.id = worker.id) && decide (worker.id = worker.id))) =
        true
      simp

/-- So does a release, -/
theorem releasedTask_accepted (updatedAt : Timestamp host) :
    Accepted host (releasedTask host task updatedAt) := by
  obtain ⟨n, hnext, hn⟩ := nextVersion_of_passes h.passes
  have hnodup : [js "status", js "assignee", js "claim", js "version",
      js "updated_at"].Nodup := by decide
  unfold releasedTask
  rw [hnext]
  refine h.spread hnodup ?_ ?_
  · simp only [forall_mem_cons, asJson_string, asJson_undefined, asJson_version hn,
      not_mem_nil, false_imp_iff, implies_true, and_true, true_and]
    exact ⟨⟨by decide, isStatus, by simp [fieldChecks], rfl⟩,
      ⟨by decide, optionally isSafePersistedId, by simp [fieldChecks], rfl⟩,
      ⟨by decide, optionally (isCanonicalPersistedGjcTeamTaskClaim host), by simp [fieldChecks],
        rfl⟩,
      ⟨by decide, isVersion, by simp [fieldChecks], hn⟩,
      ⟨by decide, isFiniteTimestamp host, by simp [fieldChecks], updatedAt.2.1⟩⟩
  · refine (claimFits_spread ?_).trans ?_
    · exact hnodup
    · rfl

/-- The owner of an accepted claim is safe. -/
theorem claimOwner_safe (hclaim : getField task (js "claim") = .object claimed) :
    isSafePersistedId (.string (textField claimed (js "owner")) : JsValue N) = true := by
  have hcheck := h.passes (js "claim", optionally (isCanonicalPersistedGjcTeamTaskClaim host))
    (by simp [fieldChecks])
  dsimp only at hcheck
  rw [hclaim] at hcheck
  simp only [optionally, isUndefined, Bool.false_or, isCanonicalPersistedGjcTeamTaskClaim,
    Bool.and_eq_true] at hcheck
  have howner := hcheck.1.1.2
  rw [textField]
  cases hfield : getField claimed (js "owner") with
  | string owner =>
    rw [hfield] at howner
    exact howner
  | _ =>
    rw [hfield] at howner
    cases howner

/-- and a transition to any status but `blocked`: -/
theorem transitionedTask_accepted {status : GjcTeamTaskStatus}
    (hclaim : (getField task (js "claim")).isUndefined = false)
    (hevidence : ∀ e ∈ evidence, isCanonicalCompletionEvidence host (e.toValue : JsValue N) = true)
    (hfits : status.terminal = true ∨ status = .inProgress) :
    Accepted host (transitionedTask host task status evidence now) := by
  obtain ⟨n, hnext, hn⟩ := nextVersion_of_passes h.passes
  refine h.spread (nodup_transition ..) (fun u hu => ?_) ?_
  · have hkey : u.1 ∈ canonicalTaskKeys := (show transitionKeys ⊆ canonicalTaskKeys by decide)
      ((keys_transition_sublist ..).subset (mem_map_of_mem hu))
    unfold transitionFields at hu
    rw [hnext] at hu
    simp only [mem_append, mem_cons, not_mem_nil, or_false] at hu
    rcases hu with ((rfl | rfl | rfl | rfl) | hu) | hu
    · refine ⟨hkey, rfl, isStatus, by simp [fieldChecks], ?_⟩
      cases status <;> rfl
    · refine ⟨hkey, ?_, optionally (isCanonicalPersistedGjcTeamTaskClaim host),
        by simp [fieldChecks], ?_⟩
      · dsimp only
        split_ifs
        · rfl
        · exact h.record.getField_json _
      · dsimp only
        split_ifs
        · rfl
        · exact h.passes (js "claim", optionally (isCanonicalPersistedGjcTeamTaskClaim host))
            (by simp [fieldChecks])
    · exact ⟨hkey, asJson_version hn, isVersion, by simp [fieldChecks], hn⟩
    · exact ⟨hkey, rfl, isFiniteTimestamp host, by simp [fieldChecks], now.2.1⟩
    · split_ifs at hu
      · obtain rfl := mem_singleton.mp hu
        exact ⟨hkey, rfl, optionally (isFiniteTimestamp host), by simp [fieldChecks], now.2.1⟩
      · cases hu
    · cases evidence with
      | none => cases hu
      | some e =>
        obtain rfl := mem_singleton.mp hu
        exact ⟨hkey, asJson_evidence e, optionally (isCanonicalCompletionEvidence host),
          by simp [fieldChecks], Bool.or_eq_true_iff.mpr (.inr (hevidence e rfl))⟩
  · show claimFits (transitionedTask host task status evidence now) = true
    have hbefore := h.claim_fits
    unfold claimFits at hbefore ⊢
    rw [hclaim, Bool.false_or] at hbefore
    rw [claim_transitioned, status_transitioned,
      getField_transitioned_of_not_mem (k := js "owner") (by decide),
      getField_transitioned_of_not_mem (k := js "assignee") (by decide)]
    rcases hfits with hterminal | rfl
    · rw [if_pos hterminal]
      rfl
    · simp only [Bool.and_eq_true] at hbefore ⊢
      simp only [GjcTeamTaskStatus.terminal, Bool.false_eq_true, if_false, hclaim, Bool.false_or,
        hbefore.1.2, hbefore.2]
      rfl

/-- a blocked task with a claim is refused. -/
theorem not_accepted_blocked {id : JsString} (hclaim : getField task (js "claim") = .object claimed)
    :
    isCanonicalPersistedGjcTeamTask host (asJson (.object (normalizeGjcTeamTask
      (transitionedTask host task .blocked evidence now)))) id = false := by
  have hordered : KeysOrdered (normalizeGjcTeamTask
      (transitionedTask host task .blocked evidence now)) :=
    keysOrdered_normalizeTask (keysOrdered_spreadFields h.record.ordered _)
  have hget : ∀ k, getField (fieldsAsJson (normalizeGjcTeamTask
      (transitionedTask host task .blocked evidence now))) k = asJson (getField
        (normalizeGjcTeamTask (transitionedTask host task .blocked evidence now)) k) :=
    getField_fieldsAsJson hordered.nodup
  rw [asJson_object, isCanonicalPersistedGjcTeamTask, Bool.and_eq_false_iff]
  refine .inr ?_
  unfold claimFits
  rw [hget (js "claim"), hget (js "status"), getField_normalize _ (by decide), claim_transitioned,
    status_normalize, status_transitioned,
    if_neg (show ¬ GjcTeamTaskStatus.blocked.terminal = true from Bool.false_ne_true), hclaim]
  rfl

end

end Change

/-! ## What the operations write -/

/-- The ids an operation is given are safe, and it does not block a claimed task. -/
def Operation.Fits (N : Type) : Operation N host → Prop
  | .create _ _ options _ _ =>
    (∀ owner ∈ options.owner, isSafePersistedId (.string owner : JsValue N) = true) ∧
      SafeIds N options.dependsOn ∧ SafeIds N options.blockedBy
  | .update _ updates _ =>
    (∀ ids ∈ updates.dependsOn, SafeIds N ids) ∧ ∀ ids ∈ updates.blockedBy, SafeIds N ids
  | .transition _ status _ _ _ _ => status ≠ .blocked
  | .claim _ _ _ => True
  | .release _ _ _ _ => True

section Written
variable {store : TeamStore N}
variable {value : JsValue N}
variable {op : Operation N host}

omit [JsCounter N] in
theorem writeTask_eq {task : JsFields N} {id file : JsString}
    (hid : getField task (js "id") = .string id) (hwrite : writeTask task = .task file value) :
    file = id ∧ value = asJson (.object (normalizeGjcTeamTask task)) := by
  obtain ⟨hfile, hvalue⟩ := Write.task.inj hwrite
  rw [textField, hid] at hfile
  exact ⟨hfile.symm, hvalue.symm⟩

/-- What is written of an accepted record passes the gate. -/
theorem gate_writeTask {task : JsFields N} (h : Accepted host task) {id file : JsString}
    (hid : getField task (js "id") = .string id) (hwrite : writeTask task = .task file value) :
    isCanonicalPersistedGjcTeamTask host value file = true := by
  obtain ⟨rfl, rfl⟩ := writeTask_eq hid hwrite
  exact gate_of_normalizable h.normalizable hid

/-- The evidence that a transition writes passes the check on evidence. -/
theorem Transitions.evidence_accepted {id token : JsString} {status : GjcTeamTaskStatus}
    {evidenceInput : JsValue N} {now : Timestamp host} {task : JsFields N}
    {evidence : Option CompletionEvidence}
    (h : Transitions store id status token evidenceInput now task evidence)
    (haccepted : Accepted host task) :
    ∀ e ∈ evidence, isCanonicalCompletionEvidence host (e.toValue : JsValue N) = true := by
  intro e he
  obtain ⟨claimed, hclaim, -⟩ := h.claim
  have hevidence := h.evidence
  split_ifs at hevidence with hcompleted
  · obtain ⟨e', heq, hnormal⟩ := hevidence
    rw [heq] at he
    obtain rfl := some.inj he
    obtain ⟨hnormal, hby, hat⟩ := normal_of_normalize hnormal
    rw [hclaim] at hby
    refine isCanonicalCompletionEvidence_toValue hnormal ?_ (hat ▸ now.2.1)
    rw [hby]
    exact claimOwner_safe haccepted hclaim
  · rw [hevidence] at he
    cases he

/-- The gate on what an operation writes, case by case. -/
theorem gate_written_iff (hstore : CanonicalStore host store) {task : JsFields N}
    (hwritten : Written store op task) {id : JsString} (hwrite : writeTask task = .task id value) :
    isCanonicalPersistedGjcTeamTask host value id = true ↔ op.Fits := by
  cases hwritten with
  | create =>
    have hsafe := isSafePersistedId_of_isSafeText (N := N)
      (isSafeText_taskId ((store.list host).length + 1))
    obtain ⟨rfl, rfl⟩ := writeTask_eq (by rw [getField_newTask]; rfl) hwrite
    exact create_accepted_iff hsafe
  | @update id updates updatedAt task hread =>
    obtain ⟨haccepted, hid⟩ := accepted_of_read hstore hread
    have hid' : getField (updatedTask host task updates updatedAt) (js "id") = .string id := by
      rw [updatedTask_eq, getField_normalize _ (by decide), id_assembled hid]
    obtain ⟨rfl, rfl⟩ := writeTask_eq hid' hwrite
    exact update_accepted_iff haccepted hid
  | claim hclaims =>
    obtain ⟨haccepted, hid⟩ := accepted_of_read hstore hclaims.read
    exact iff_of_true (gate_writeTask (claimedTask_accepted haccepted _ _)
      ((getField_claimed_of_not_mem (by decide)).trans hid) hwrite) trivial
  | @transition id status token workerId t evidenceInput now task evidence htoken hallowed =>
    obtain ⟨haccepted, hid⟩ := accepted_of_read hstore hallowed.read
    obtain ⟨claimed, hclaim, -⟩ := hallowed.claim
    have hid' : getField (transitionedTask host task status evidence now) (js "id") =
        .string id := by rw [getField_transitioned_of_not_mem (by decide), hid]
    rw [Operation.Fits]
    by_cases hblocked : status = .blocked
    · -- the claim stays, and does not fit what is blocked
      obtain ⟨rfl, rfl⟩ := writeTask_eq hid' hwrite
      rw [hblocked, not_accepted_blocked haccepted hclaim]
      simp
    · have hfits : status.terminal = true ∨ status = .inProgress := by
        have hpending := hallowed.ne_pending
        cases status with
        | pending => exact absurd rfl hpending
        | blocked => exact absurd rfl hblocked
        | inProgress => exact .inr rfl
        | completed | failed => exact .inl rfl
      exact iff_of_true (gate_writeTask (transitionedTask_accepted haccepted (by rw [hclaim]; rfl)
        (hallowed.evidence_accepted haccepted) hfits) hid' hwrite) hblocked
  | release hreleases =>
    obtain ⟨haccepted, hid⟩ := accepted_of_read hstore hreleases.read
    exact iff_of_true (gate_writeTask (releasedTask_accepted haccepted _)
      ((getField_released_of_not_mem (by decide)).trans hid) hwrite) trivial

/-- **The gate accepts what is written** of records that it accepts if the operation fits, and
only then. -/
theorem gate_accepts_iff (hstore : CanonicalStore host store) {op : Operation N host}
    {id : JsString} {value : JsValue N} (h : .task id value ∈ (op.outcome store).writes) :
    isCanonicalPersistedGjcTeamTask host value id = true ↔ op.Fits := by
  obtain ⟨task, hwritten, hwrite⟩ := written_of_mem h
  exact gate_written_iff hstore hwritten hwrite

/-- Records are written with their keys in order. -/
theorem keysOrdered_written (hstore : CanonicalStore host store) {task : JsFields N}
    (h : Written store op task) : KeysOrdered task := by
  cases h with
  | create => exact record_newTask.ordered
  | update hread =>
    exact keysOrdered_normalizeTask (record_assembled (accepted_of_read hstore hread).1).ordered
  | claim hclaims =>
    exact keysOrdered_spreadFields (accepted_of_read hstore hclaims.read).1.record.ordered _
  | transition htoken hallowed =>
    exact keysOrdered_spreadFields (accepted_of_read hstore hallowed.read).1.record.ordered _
  | release hreleases =>
    exact keysOrdered_spreadFields (accepted_of_read hstore hreleases.read).1.record.ordered _

omit [JsNumber N] [JsCounter N] in
theorem mem_setFile {files : List (JsString × JsValue N)} {name : JsString}
    {file : JsString × JsValue N} (h : file ∈ setFile files name value) :
    file = (name, value) ∨ file ∈ files := by
  induction files with
  | nil => exact .inl (mem_singleton.mp h)
  | cons f files ih =>
    rw [setFile] at h
    split_ifs at h
    · rcases mem_cons.mp h with rfl | h
      · exact .inl rfl
      · exact .inr (mem_cons_of_mem _ h)
    · rcases mem_cons.mp h with rfl | h
      · exact .inr mem_cons_self
      · rcases ih h with h | h
        · exact .inl h
        · exact .inr (mem_cons_of_mem _ h)

/-- **A store of accepted records stays one**, up to any of the writes of an operation that
fits. -/
theorem CanonicalStore.write (hstore : CanonicalStore host store) {op : Operation N host}
    (hfits : op.Fits) {writes : List (Write N)} (h : writes ⊆ (op.outcome store).writes) :
    CanonicalStore host (store.write writes) := by
  have hwrites : ∀ w ∈ writes, ∀ id value, w = .task id value →
      JsonFile value ∧ isCanonicalPersistedGjcTeamTask host value id = true := by
    rintro w hw id value rfl
    obtain ⟨task, hwritten, hwrite⟩ := written_of_mem (h hw)
    exact ⟨⟨_, keysOrdered_normalizeTask (keysOrdered_written hstore hwritten),
      (Write.task.inj hwrite).2.symm⟩, (gate_written_iff hstore hwritten hwrite).mpr hfits⟩
  clear h
  induction writes generalizing store with
  | nil => exact hstore
  | cons w writes ih =>
    rw [forall_mem_cons] at hwrites
    refine ih ?_ hwrites.2
    cases w with
    | task id value =>
      intro file hfile
      rcases mem_setFile hfile with rfl | hfile
      · exact hwrites.1 id value rfl
      · exact hstore file hfile
    | claim id value | unclaim id => exact hstore

end Written

/-- A host that knows one point in time. -/
def sampleHost : Host where
  parseDate text := if text = js "2026-01-01T00:00:00.000Z" then some 1767225600000 else none
  isAbsolute file := file.head? = some 0x2f
  localeCompare a b := if a = b then 0 else if a < b then -1 else 1
  claimPath id := js "/team/claims/" ++ id ++ js ".json"

def sampleTime : Timestamp sampleHost := ⟨js "2026-01-01T00:00:00.000Z", by decide⟩

def sampleCreate : Operation Nat sampleHost :=
  .create (js "subject") (js "description") ⟨none, none, none, none, none, none⟩ sampleTime
    sampleTime

theorem isSafeText_worker : isSafeText (js "worker-1") = true := by decide

def sampleClaim : Operation Nat sampleHost :=
  .claim ⟨js "worker-1", js "executor", js "executor", isSafeText_worker⟩ (some (js "task-1"))
    ⟨js "token-1", by decide, 1767225600000, sampleTime, sampleTime, none⟩

def sampleBlock : Operation Nat sampleHost :=
  .transition (js "task-1") .blocked (some (js "token-1")) (some (js "worker-1")) .undefined
    sampleTime

def sampleComplete : Operation Nat sampleHost :=
  .transition (js "task-1") .completed (some (js "token-1")) none
    (.object [(js "summary", .string (js "done")), (js "items", .array [.object
      [(js "kind", .string (js "inspection")), (js "status", .string (js "verified")),
        (js "summary", .string (js "read"))]])]) sampleTime

def createdStore : TeamStore Nat := TeamStore.empty.write (sampleCreate.outcome .empty).writes

def claimedStore : TeamStore Nat := createdStore.write (sampleClaim.outcome createdStore).writes

theorem canonical_empty : CanonicalStore sampleHost (TeamStore.empty : TeamStore Nat) :=
  fun _ h => absurd h not_mem_nil

theorem fits_sampleCreate : sampleCreate.Fits := by
  refine ⟨fun _ h => ?_, fun _ h => ?_, fun _ h => ?_⟩ <;> cases h

/-- A write of a record for which `p`. -/
def Write.taskHas {N : Type} (p : JsString → JsValue N → Bool) : Write N → Bool
  | .task id value => p id value
  | _ => false

/-- Finding a written record by evaluation. -/
theorem exists_task_of_any {N : Type} {writes : List (Write N)} {p : JsString → JsValue N → Bool}
    (h : writes.any (Write.taskHas p) = true) :
    ∃ id value, .task id value ∈ writes ∧ p id value = true := by
  obtain ⟨w, hw, hp⟩ := any_eq_true.mp h
  cases w with
  | task id value => exact ⟨id, value, hw, hp⟩
  | claim id value | unclaim id => cases hp

theorem canonical_claimedStore : CanonicalStore sampleHost claimedStore := by
  have hcreated : CanonicalStore sampleHost createdStore :=
    canonical_empty.write fits_sampleCreate (List.Subset.refl _)
  exact @CanonicalStore.write _ _ _ _ _ hcreated sampleClaim trivial _ (List.Subset.refl _)

/-- Completing a claimed task writes a record that the gate accepts. -/
theorem gate_accepts_iff_completed : ∃ id value,
    .task id value ∈ (sampleComplete.outcome claimedStore).writes ∧ id = js "task-1" ∧
      isCanonicalPersistedGjcTeamTask sampleHost value id = true := by
  have hcompleted : (sampleComplete.outcome claimedStore).writes.any
      (Write.taskHas fun id _ => id = js "task-1") = true := by with_unfolding_all rfl
  obtain ⟨id, value, hmem, hid⟩ := exists_task_of_any hcompleted
  exact ⟨id, value, hmem, of_decide_eq_true hid,
    (gate_accepts_iff canonical_claimedStore hmem).mpr (nomatch ·)⟩

/-- Blocking a claimed task writes a record that the gate does not accept. -/
theorem blocked_with_claim_rejected : CanonicalStore sampleHost claimedStore ∧
    ∃ id value, .task id value ∈ (sampleBlock.outcome claimedStore).writes ∧
      isCanonicalPersistedGjcTeamTask sampleHost value id = false := by
  have hblocked : (sampleBlock.outcome claimedStore).writes.any (Write.taskHas fun id value =>
      !isCanonicalPersistedGjcTeamTask sampleHost value id) = true := by with_unfolding_all rfl
  obtain ⟨id, value, hmem, hrejected⟩ := exists_task_of_any hblocked
  exact ⟨canonical_claimedStore, id, value, hmem, by simpa using hrejected⟩

end TeamTasks
end GajaeCode
