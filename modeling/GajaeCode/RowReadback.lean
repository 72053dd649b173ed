import GajaeCode.LedgerRows

/-! # What is left of a row

A reader takes a row as it was written, so what it asks of an entry it asks of what JSON
leaves of it.  Whatever was read once can be written and read again: it is no larger, its
fields are what they were, and the digests in it, which were right, still are.  Nothing
that was read is `undefined`, and that is what the last point rests on: the text a digest
is taken of keeps an `undefined` that JSON drops.
-/
namespace GajaeCode
open JsString JsValue JsonParse List

variable {N : Type}

/-- No part of the value is `undefined`. -/
inductive Defined : JsValue N → Prop
  | null : Defined .null
  | boolean (b : Bool) : Defined (.boolean b)
  | number (n : N) : Defined (.number n)
  | string (s : JsString) : Defined (.string s)
  | array {items : List (JsValue N)} (h : ∀ v ∈ items, Defined v) : Defined (.array items)
  | object {fields : JsFields N} (h : ∀ f ∈ fields, Defined f.2) : Defined (.object fields)

theorem Defined.ne {v : JsValue N} (h : Defined v) : v ≠ .undefined := by
  rintro rfl
  cases h

theorem Defined.isUndefined {v : JsValue N} (h : Defined v) : v.isUndefined = false := by
  rw [← Bool.not_eq_true, isUndefined_iff]
  exact h.ne

theorem Defined.fields {fields : JsFields N} (h : Defined (.object fields)) :
    ∀ f ∈ fields, Defined f.2 := by
  cases h
  assumption

theorem Defined.items {items : List (JsValue N)} (h : Defined (.array items)) :
    ∀ v ∈ items, Defined v := by
  cases h
  assumption

/-- A field of a value without gaps is missing or has none either. -/
theorem Defined.field {fields : JsFields N} (h : Defined (.object fields)) (k : JsString) :
    getField fields k = .undefined ∨ Defined (getField fields k) := by
  by_cases hmissing : getField fields k = .undefined
  · exact .inl hmissing
  · exact .inr (h.fields _ (LifecycleLedger.mem_of_getField rfl hmissing))

theorem built_defined : Built (Defined : JsValue N → Prop) where
  null := .null
  boolean := .boolean
  number := .number
  string := .string
  noItems := .array (by simp)
  item _ _ hitems hv := .array (forall_mem_append.mpr
    ⟨hitems.items, forall_mem_singleton.mpr hv⟩)
  noFields := .object (by simp)
  field _ _ _ hfields hv := .object fun f hf => by
    rcases mem_setField hf with rfl | hf
    · exact hv
    · exact hfields.fields f hf

theorem filter_defined {fields : JsFields N} (h : ∀ f ∈ fields, Defined f.2) :
    fields.filter (fun f => !f.2.isUndefined) = fields := by
  refine filter_eq_self.mpr fun f hf => ?_
  rw [(h f hf).isUndefined]
  rfl

theorem isObject_of_digest {effects : JsValue N} {digest : JsString}
    (h : asString (getField (ownFields effects) (js "digest")) = some digest) :
    ∃ fields, effects = .object fields := by
  -- the own fields of an array or a string have numerals for keys
  have hindexed : ∀ (fields : JsFields N), (∀ f ∈ fields, ∃ i, f.1 = ofNat i) →
      getField (spreadFields [] fields) (js "digest") = .undefined := by
    intro fields hfields
    by_contra hfound
    rcases mem_spreadFields (LifecycleLedger.mem_of_getField rfl hfound) with hmem | hmem
    · exact absurd hmem not_mem_nil
    · obtain ⟨i, hi⟩ := hfields _ hmem
      have hkey : js "digest" = ofNat i := hi
      have hletter : (0x0064 : CodeUnit) ∈ js "digest" := by decide
      rw [hkey] at hletter
      exact absurd (isDigit_of_mem_ofNat i _ hletter) (by decide)
  cases effects with
  | object fields => exact ⟨fields, rfl⟩
  | array items =>
    rw [ownFields, hindexed] at h
    · cases h
    · intro f hf
      obtain ⟨i, -, rfl⟩ := mem_mapIdx.mp hf
      exact ⟨i, rfl⟩
  | string s =>
    rw [ownFields, hindexed] at h
    · cases h
    · intro f hf
      obtain ⟨i, -, rfl⟩ := mem_mapIdx.mp hf
      exact ⟨i, rfl⟩
  | _ => cases h

/-! ## Size -/

theorem areFieldsBounded_eq (fields : JsFields N) (d f : Nat) :
    areFieldsBounded fields d f = areItemsBounded (fields.map Prod.snd) d f := by
  induction fields generalizing f with
  | nil => rfl
  | cons field fields ih =>
    rw [areFieldsBounded, map_cons, areItemsBounded]
    congr 1
    exact funext ih

/-- A value that fits at a depth fits with fewer fields before it, and leaves the count no
lower than it was. -/
structure Below (v' v : JsValue N) : Prop where
  bounded : ∀ d f r, isBoundedLedgerJson v d f = some r →
    ∀ f' ≤ f, ∃ r' ≤ r, isBoundedLedgerJson v' d f' = some r'

theorem bounded_items {items items' : List (JsValue N)} (h : Forall₂ Below items' items)
    {d f r : Nat} (hr : areItemsBounded items d f = some r) {f' : Nat} (hf : f' ≤ f) :
    ∃ r' ≤ r, areItemsBounded items' d f' = some r' := by
  induction h generalizing f f' with
  | nil =>
    obtain rfl := some.inj hr
    exact ⟨f', hf, rfl⟩
  | cons hv _ ih =>
    obtain ⟨f₁, hf₁, hr⟩ := Option.bind_eq_some_iff.mp hr
    obtain ⟨f₁', hle, hf₁'⟩ := hv.bounded _ _ _ hf₁ _ hf
    obtain ⟨r', hr', heq⟩ := ih hr hle
    exact ⟨r', hr', by rw [areItemsBounded, hf₁', Option.bind_some, heq]⟩

theorem Below.array {items items' : List (JsValue N)} (h : Forall₂ Below items' items) :
    Below (.array items') (.array items) where
  bounded d f r hr f' hf := by
    rw [isBoundedLedgerJson] at hr ⊢
    split_ifs at hr with hdepth hlong
    rw [if_neg hdepth, h.length_eq, if_neg hlong]
    exact bounded_items h hr hf

theorem Below.object {fields fields' : JsFields N}
    (h : Forall₂ Below (fields'.map Prod.snd) (fields.map Prod.snd)) :
    Below (.object fields') (.object fields) where
  bounded d f r hr f' hf := by
    have hlength : fields'.length = fields.length := by simpa using h.length_eq
    rw [isBoundedLedgerJson] at hr ⊢
    split_ifs at hr with hdepth hlong
    rw [if_neg hdepth, if_pos (by omega)]
    rw [areFieldsBounded_eq] at hr ⊢
    exact bounded_items h hr (by omega)

theorem le_of_isBounded (v : JsValue N) :
    ∀ d f r, isBoundedLedgerJson v d f = some r → d ≤ MAX_LIFECYCLE_LEDGER_JSON_DEPTH ∧ f ≤ r := by
  have hitems : ∀ items : List (JsValue N), (∀ v ∈ items, ∀ d f r,
      isBoundedLedgerJson v d f = some r → d ≤ MAX_LIFECYCLE_LEDGER_JSON_DEPTH ∧ f ≤ r) →
      ∀ d f r, areItemsBounded items d f = some r → f ≤ r := by
    intro items ih d f r hr
    induction items generalizing f with
    | nil => exact (some.inj hr).le
    | cons v items ihitems =>
      obtain ⟨hv, hvs⟩ := forall_mem_cons.mp ih
      obtain ⟨f₁, hf₁, hr⟩ := Option.bind_eq_some_iff.mp hr
      exact (hv _ _ _ hf₁).2.trans (ihitems hvs _ hr)
  induction v using deepInduction with
  | array items ih =>
    intro d f r hr
    rw [isBoundedLedgerJson] at hr
    split_ifs at hr with hdepth hlong
    exact ⟨not_lt.mp hdepth, hitems items ih _ _ _ hr⟩
  | object fields ih =>
    intro d f r hr
    rw [isBoundedLedgerJson] at hr
    split_ifs at hr with hdepth hlong
    rw [areFieldsBounded_eq] at hr
    have hle := hitems _ (forall_mem_map.mpr ih) _ _ _ hr
    exact ⟨not_lt.mp hdepth, by omega⟩
  | _ =>
    intro d f r hr
    rw [isBoundedLedgerJson] at hr
    · split_ifs at hr with hdepth
      exact ⟨not_lt.mp hdepth, (some.inj hr).le⟩
    all_goals simp

theorem below_of_plain {v' : JsValue N} (h : ∀ d f, isBoundedLedgerJson v' d f =
    if MAX_LIFECYCLE_LEDGER_JSON_DEPTH < d then none else some f) (v : JsValue N) :
    Below v' v where
  bounded d f r hr f' hf := by
    obtain ⟨hdepth, hle⟩ := le_of_isBounded v d f r hr
    exact ⟨f', hf.trans hle, by rw [h, if_neg (not_lt.mpr hdepth)]⟩

theorem below_refl (v : JsValue N) : Below v v := by
  induction v using deepInduction with
  | array items ih => exact .array (forall₂_same.mpr ih)
  | object fields ih => exact .object (forall₂_same.mpr (forall_mem_map.mpr ih))
  | _ => exact below_of_plain (fun d f => by rw [isBoundedLedgerJson]; all_goals simp) _

theorem Below.trans {v v' v'' : JsValue N} (h : Below v'' v') (h' : Below v' v) :
    Below v'' v where
  bounded d f r hr f' hf := by
    obtain ⟨r', hr', hbounded⟩ := h'.bounded d f r hr f' hf
    obtain ⟨r'', hr'', hbounded'⟩ := h.bounded d f' r' hbounded f' le_rfl
    exact ⟨r'', hr''.trans hr', hbounded'⟩

theorem Below.orNull {v v' : JsValue N} (h : Below v' v) : Below v'.orNull v := by
  by_cases hundefined : v' = .undefined
  · rw [hundefined]
    exact below_of_plain (fun d f => by rw [JsValue.orNull, isBoundedLedgerJson]; all_goals simp) v
  · rwa [orNull_of_ne hundefined]

/-- Fields that are `undefined` add nothing but themselves. -/
theorem below_filter (fields : JsFields N) :
    Below (.object (fields.filter fun f => !f.2.isUndefined)) (.object fields) where
  bounded d f r hr f' hf := by
    have hskip : ∀ (fields : JsFields N) (d f r : Nat), areFieldsBounded fields d f = some r →
        areFieldsBounded (fields.filter fun f => !f.2.isUndefined) d f = some r := by
      intro fields d f r hr
      induction fields generalizing f with
      | nil => exact hr
      | cons field fields ih =>
        obtain ⟨f₁, hf₁, hr⟩ := Option.bind_eq_some_iff.mp hr
        cases hundefined : field.2.isUndefined with
        | true =>
          rw [isUndefined_iff.mp hundefined, isBoundedLedgerJson] at hf₁
          · split_ifs at hf₁
            obtain rfl := some.inj hf₁
            rw [filter_cons_of_neg (by simp [hundefined])]
            exact ih _ hr
          all_goals simp
        | false =>
          rw [filter_cons_of_pos (by simp [hundefined]), areFieldsBounded, hf₁, Option.bind_some]
          exact ih _ hr
    obtain ⟨r', hr', hbounded⟩ := (below_refl _).bounded d f r hr f' hf
    have hlength := length_filter_le (fun f => !f.2.isUndefined) fields
    rw [isBoundedLedgerJson] at hbounded ⊢
    split_ifs at hbounded with hdepth hlong
    have hkept := hskip _ _ _ _ hbounded
    rw [areFieldsBounded_eq] at hkept
    obtain ⟨r'', hr'', hbounded'⟩ := bounded_items
      (forall₂_same.mpr fun v _ => below_refl v) hkept (Nat.add_le_add_left hlength f')
    rw [if_neg hdepth, if_pos (by omega), areFieldsBounded_eq]
    exact ⟨r'', hr''.trans hr', hbounded'⟩

theorem below_setField {fields : JsFields N} (hordered : KeysOrdered fields) {k : JsString}
    (hk : k ∈ fields.map Prod.fst) {v : JsValue N} (hv : ∀ d f, isBoundedLedgerJson v d f =
      if MAX_LIFECYCLE_LEDGER_JSON_DEPTH < d then none else some f) :
    Below (.object (setField fields k v)) (.object fields) := by
  refine .object ?_
  rw [forall₂_map_left_iff, forall₂_map_right_iff]
  induction fields with
  | nil => exact absurd hk not_mem_nil
  | cons f fs ih =>
    obtain ⟨hbefore, hrest⟩ := keysOrdered_cons.mp hordered
    rw [setField]
    by_cases hf : f.1 = k
    · rw [if_pos hf]
      exact .cons (below_of_plain hv _) (forall₂_same.mpr fun f _ => below_refl f.2)
    · have hmem : k ∈ fs.map Prod.fst :=
        (mem_cons.mp hk).resolve_left (Ne.symm hf)
      obtain ⟨f', hf', rfl⟩ := mem_map.mp hmem
      rw [if_neg hf, if_neg (by simp [(hbefore f' hf').2])]
      exact .cons (below_refl _) (ih hrest hmem)

variable [JsNumber N]

theorem canonicalItems_eq (items : List (JsValue N)) : canonicalItems items =
    items.map (fun v => if v.isUndefined then [] else canonicalJson v) := by
  induction items with
  | nil => rfl
  | cons v vs ih => rw [canonicalItems, ih, map_cons]

theorem canonicalFields_eq (fields : JsFields N) : canonicalFields fields =
    fields.map (fun f => (f.1, jsonStringify f.1 ++ js ":" ++ canonicalJson f.2)) := by
  induction fields with
  | nil => rfl
  | cons f fs ih => rw [canonicalFields, ih, map_cons]

/-- **Writing and reading a value without gaps leaves its canonical text.** -/
theorem canonicalJson_asJson {v : JsValue N} (h : Defined v) :
    canonicalJson (asJson v) = canonicalJson v := by
  induction h with
  | null | boolean b => rfl
  | number n =>
    by_cases hn : JsNumber.isFinite n = true
    · rw [asJson_number_of_finite hn, canonicalJson, canonicalJson, if_pos hn,
        if_pos (JsNumber.isFinite_read_text n hn), JsNumber.text_read_text n hn]
    · rw [asJson_number, if_neg hn, canonicalJson, canonicalJson, if_neg hn]
  | string s => rfl
  | array h ih =>
    rw [asJson_array, canonicalJson, canonicalJson, canonicalItems_eq, canonicalItems_eq,
      itemsAsJson_eq, map_map]
    congr 3
    refine map_congr_left fun v hv => ?_
    have hjson : asJson v ≠ .undefined := fun heq => (h v hv).ne (asJson_eq_undefined.mp heq)
    rw [Function.comp_apply, orNull_of_ne hjson, isUndefined_asJson, (h v hv).isUndefined,
      if_neg Bool.false_ne_true, if_neg Bool.false_ne_true, ih v hv]
  | object h ih =>
    rw [asJson_object, canonicalJson, canonicalJson, canonicalFields_eq, canonicalFields_eq,
      fieldsAsJson_eq, filter_defined h, map_map]
    congr 5
    refine map_congr_left fun f hf => ?_
    rw [Function.comp_apply, ih f hf]

theorem canonicalDigest_asJson {v : JsValue N} (h : Defined v) :
    canonicalDigest (asJson v) = canonicalDigest v := by
  rw [canonicalDigest, canonicalJson_asJson h, canonicalDigest]

theorem asString_asJson (v : JsValue N) : asString (asJson v) = asString v := by
  cases v with
  | number n =>
    rw [asJson_number]
    split_ifs <;> rfl
  | _ => rfl

theorem isFalsy_asJson {v : JsValue N} (h : isFalsy v = true) : isFalsy (asJson v) = true := by
  cases v with
  | number n =>
    rw [asJson_number]
    split_ifs with hn
    · rw [isFalsy, JsNumber.isFalsy_read_text n hn]
      exact h
    · rfl
  | array items | object fields => cases h
  | _ => exact h

theorem hasValidResponseDigest_asJson {state : LifecycleState} {fields : JsFields N}
    (hkeys : (fields.map Prod.fst).Nodup) (hdefined : Defined (.object fields))
    (h : hasValidResponseDigest state fields = true) :
    hasValidResponseDigest state (fieldsAsJson fields) = true := by
  unfold hasValidResponseDigest at h ⊢
  simp only at h ⊢
  rw [getField_fieldsAsJson hkeys, getField_fieldsAsJson hkeys, isUndefined_asJson, asString_asJson]
  rcases hdefined.field (js "response") with hmissing | hresponse
  · rw [hmissing] at h ⊢
    exact h
  · rwa [canonicalDigest_asJson hresponse]

theorem hasValidEffectsDigest_asJson {fields : JsFields N}
    (hwell : WellKeyed (.object fields)) (hdefined : Defined (.object fields))
    (h : hasValidEffectsDigest fields = true) :
    hasValidEffectsDigest (fieldsAsJson fields) = true := by
  unfold hasValidEffectsDigest at h ⊢
  simp only at h ⊢
  rw [getField_fieldsAsJson (wellKeyed_object.mp hwell).1.nodup]
  rcases Bool.or_eq_true_iff.mp h with hfalsy | hdigest
  · exact Bool.or_eq_true_iff.mpr (.inl (isFalsy_asJson hfalsy))
  · refine Bool.or_eq_true_iff.mpr (.inr ?_)
    rw [beq_iff_eq] at hdigest ⊢
    obtain ⟨effects, heffects⟩ := isObject_of_digest hdigest
    rw [heffects] at hdigest ⊢
    have hkeys := (wellKeyed_object.mp (heffects ▸ wellKeyed_getField hwell _)).1.nodup
    have hbody : Defined (.object (eraseField effects (js "digest"))) := by
      rcases hdefined.field (js "durableEffects") with hmissing | hfields
      · rw [heffects] at hmissing
        cases hmissing
      · exact .object fun f hf => (heffects ▸ hfields).fields f (mem_filter.mp hf).1
    rw [asJson_object, ownFields, getField_fieldsAsJson hkeys, asString_asJson, effectsBody,
      ownFields, ← fieldsAsJson_eraseField, ← asJson_object, canonicalDigest_asJson hbody]
    exact hdigest

/-- **What was read with right digests is read with right digests again.** -/
theorem hasValidTerminalDigests_asJson {e : LifecycleLedgerEntry N} (hdefined : Defined e.toValue)
    (h : hasValidTerminalDigests e = true) : hasValidTerminalDigests e.asJson = true := by
  unfold hasValidTerminalDigests at h ⊢
  rcases Bool.or_eq_true_iff.mp h with hopen | hdigests
  · exact Bool.or_eq_true_iff.mpr (.inl hopen)
  · obtain ⟨hresponse, heffects⟩ := Bool.and_eq_true_iff.mp hdigests
    refine Bool.or_eq_true_iff.mpr (.inr (Bool.and_eq_true_iff.mpr ⟨?_, ?_⟩))
    · exact hasValidResponseDigest_asJson (wellKeyed_object.mp e.wellKeyed).1.nodup hdefined
        hresponse
    · exact hasValidEffectsDigest_asJson e.wellKeyed hdefined heffects

/-! ## Rows -/

theorem below_asJson (v : JsValue N) : Below (asJson v) v := by
  induction v using deepInduction with
  | number n =>
    rw [asJson_number]
    split_ifs
    · exact below_of_plain (fun d f => by rw [isBoundedLedgerJson]; all_goals simp) _
    · exact below_of_plain (fun d f => by rw [isBoundedLedgerJson]; all_goals simp) _
  | array items ih =>
    rw [asJson_array, itemsAsJson_eq]
    refine .array ?_
    rw [forall₂_map_left_iff]
    exact forall₂_same.mpr fun v hv => (ih v hv).orNull
  | object fields ih =>
    rw [asJson_object, fieldsAsJson_eq]
    refine Below.trans (.object ?_) (below_filter fields)
    rw [map_map, forall₂_map_left_iff, forall₂_map_right_iff]
    exact forall₂_same.mpr fun f hf => ih f (mem_filter.mp hf).1
  | _ => exact below_refl _

namespace LifecycleLedger
variable [DecidableEq N] {e : LifecycleLedgerEntry N}
variable {fields : JsFields N} {line : List UInt8}

section
omit [DecidableEq N]

theorem newerVersion_eq_none : newerVersion (.object fields) = none ↔
    ∀ key ∈ [js "version", js "stateVersion"], ∀ n, getField fields key = .number n →
      (JsNumber.isFinite n && JsNumber.exceedsOne n) = false := by
  rw [newerVersion, findSome?_eq_none_iff]
  simp only [forall_mem_cons, not_mem_nil, false_imp_iff, implies_true, and_true]
  refine and_congr ?_ ?_
  · cases getField fields (js "version") <;> simp
  · cases getField fields (js "stateVersion") <;> simp

theorem entryFields_asJson (hkeys : (fields.map Prod.fst).Nodup) (h : EntryFields fields) :
    EntryFields (fieldsAsJson fields) where
  version := by
    rw [getField_fieldsAsJson hkeys, h.version, asJson_number_of_finite JsNumber.isFinite_one,
      JsNumber.read_text_one]
  identity := by
    obtain ⟨s, hs, hne⟩ := h.identity
    exact ⟨s, by rw [getField_fieldsAsJson hkeys, hs, asJson_string], hne⟩
  requestHash := by
    obtain ⟨s, hs, hne⟩ := h.requestHash
    exact ⟨s, by rw [getField_fieldsAsJson hkeys, hs, asJson_string], hne⟩
  state := by
    obtain ⟨state, hstate⟩ := h.state
    exact ⟨state, by rw [getField_fieldsAsJson hkeys, hstate, asJson_string]⟩
  ts := by
    obtain ⟨n, hn, hsafe⟩ := h.ts
    have hfinite := JsNumber.isFinite_of_isSafeInteger n hsafe
    refine ⟨_, by rw [getField_fieldsAsJson hkeys, hn, asJson_number_of_finite hfinite], ?_⟩
    rw [JsNumber.isSafeInteger_read_text n hfinite, hsafe]

end

/-- **What was read once is read again.** -/
theorem IsRow.asJson (h : IsRow e) : IsRow e.asJson := by
  obtain ⟨hversion, hentry⟩ := h
  obtain ⟨hbounded, hfields⟩ := Bool.and_eq_true_iff.mp hentry
  have hkeys := (wellKeyed_object.mp e.wellKeyed).1.nodup
  refine ⟨newerVersion_eq_none.mpr fun key hkey n hn => ?_,
    Bool.and_eq_true_iff.mpr ⟨?_, hasEntryFields_iff.mpr
      (entryFields_asJson hkeys (hasEntryFields_iff.mp hfields))⟩⟩
  · have hjson : JsValue.asJson (getField e.fields key) = .number n :=
      (getField_fieldsAsJson hkeys key).symm.trans hn
    cases hvalue : getField e.fields key with
    | number m =>
      rw [hvalue, asJson_number] at hjson
      split_ifs at hjson with hfinite
      obtain rfl := JsValue.number.inj hjson
      rw [JsNumber.isFinite_read_text m hfinite, JsNumber.exceedsOne_read_text m hfinite]
      have hnot := newerVersion_eq_none.mp hversion key hkey m hvalue
      rwa [hfinite] at hnot
    | _ => rw [hvalue] at hjson; cases hjson
  · obtain ⟨r, hr⟩ := Option.isSome_iff_exists.mp hbounded
    obtain ⟨r', -, hr'⟩ := (below_asJson e.toValue).bounded 0 0 r hr 0 le_rfl
    exact Option.isSome_of_eq_some hr'

/-- A row closed as uncertain is no larger than it was. -/
theorem IsRow.uncertainFrom (h : IsRow e) (now : Timestamp N) :
    IsRow (uncertainFrom e true now) := by
  obtain ⟨hversion, hentry⟩ := h
  obtain ⟨hbounded, hfields⟩ := Bool.and_eq_true_iff.mp hentry
  have hfields := hasEntryFields_iff.mp hfields
  obtain ⟨n, hn, -⟩ := hfields.ts
  have hordered := (wellKeyed_object.mp e.wellKeyed).1
  have hstate : js "state" ∈ e.fields.map Prod.fst :=
    mem_map_of_mem (mem_of_getField e.state_eq (by simp))
  have hts : js "ts" ∈ (setField e.fields (js "state")
      (.string LifecycleState.terminalUncertain.name)).map Prod.fst := by
    have hget : getField (setField e.fields (js "state")
        (.string LifecycleState.terminalUncertain.name)) (js "ts") = .number n := by
      rw [getField_setField, if_neg (by decide), hn]
    exact mem_map_of_mem (mem_of_getField hget (by simp))
  have hother : ∀ key, key ≠ js "state" → key ≠ js "ts" →
      getField (GajaeCode.uncertainFrom e true now).fields key = getField e.fields key := by
    intro key hs ht
    change getField (setField (setField e.fields _ _) _ _) key = _
    rw [getField_setField, if_neg ht, getField_setField, if_neg hs]
  refine ⟨newerVersion_eq_none.mpr fun key hkey m hm => ?_,
    Bool.and_eq_true_iff.mpr ⟨?_, hasEntryFields_iff.mpr ⟨?_, ?_, ?_, ?_, ?_⟩⟩⟩
  · have hkeys : ∀ key ∈ [js "version", js "stateVersion"], key ≠ js "state" ∧ key ≠ js "ts" := by
      decide
    rw [hother key (hkeys key hkey).1 (hkeys key hkey).2] at hm
    exact newerVersion_eq_none.mp hversion key hkey m hm
  · obtain ⟨r, hr⟩ := Option.isSome_iff_exists.mp hbounded
    have hbelow : Below (GajaeCode.uncertainFrom e true now).toValue e.toValue :=
      (below_setField (keysOrdered_setField hordered _ _) hts
        (fun d f => by rw [isBoundedLedgerJson]; all_goals simp)).trans
      (below_setField hordered hstate (fun d f => by rw [isBoundedLedgerJson]; all_goals simp))
    obtain ⟨r', -, hr'⟩ := hbelow.bounded 0 0 r hr 0 le_rfl
    exact Option.isSome_of_eq_some hr'
  · rw [hother _ (by decide) (by decide)]
    exact hfields.version
  · rw [hother _ (by decide) (by decide)]
    exact hfields.identity
  · rw [hother _ (by decide) (by decide)]
    exact hfields.requestHash
  · exact ⟨.terminalUncertain, (GajaeCode.uncertainFrom e true now).state_eq⟩
  · refine ⟨now.1, ?_, now.2⟩
    change getField (setField _ _ _) _ = _
    rw [getField_setField, if_pos rfl]

/-! ## Reading back -/

/-- A reader accepts what is left of the entry, as far as one row goes. -/
def ReadsBack (e : LifecycleLedgerEntry N) : Prop :=
  IsRow e.asJson ∧ hasValidTerminalDigests e.asJson = true

instance (e : LifecycleLedgerEntry N) : Decidable (IsRow e) := inferInstanceAs (Decidable (_ ∧ _))

instance (e : LifecycleLedgerEntry N) : Decidable (ReadsBack e) :=
  inferInstanceAs (Decidable (_ ∧ _))

/-- An entry carries digests with which it may be closed as uncertain. -/
def Closable (e : LifecycleLedgerEntry N) : Prop :=
  hasValidResponseDigest .terminalUncertain e.fields = true ∧
    hasValidEffectsDigest e.fields = true

theorem defined_of_readRow (h : readRow line = .entry e) : Defined e.toValue := by
  obtain ⟨text, -, hparse⟩ := Option.bind_eq_some_iff.mp (readRow_eq_entry.mp h).1
  exact built_defined.parse hparse

/-- **A row that was read with right digests reads back.** -/
theorem readsBack_of_readRow (h : readRow line = .entry e)
    (hdigests : hasValidTerminalDigests e = true) : ReadsBack e :=
  ⟨(readRow_eq_entry.mp h).2.asJson, hasValidTerminalDigests_asJson (defined_of_readRow h) hdigests⟩

/-- **Closing a row that was read gives a row that reads back, if the digests it carries
are right.** -/
theorem readsBack_uncertainFrom (h : IsRow e) (now : Timestamp N) :
    ReadsBack (uncertainFrom e true now) ↔ Closable e.asJson := by
  have hrow := (h.uncertainFrom now).asJson
  have hget : ∀ key, key ≠ js "state" → key ≠ js "ts" →
      getField (fieldsAsJson (GajaeCode.uncertainFrom e true now).fields) key =
        getField (fieldsAsJson e.fields) key := by
    intro key hs ht
    rw [LifecycleLedgerEntry.getField_asJson, LifecycleLedgerEntry.getField_asJson]
    change JsValue.asJson (getField (setField (setField e.fields _ _) _ _) key) = _
    rw [getField_setField, if_neg ht, getField_setField, if_neg hs]
    rfl
  have hdigests : hasValidTerminalDigests (GajaeCode.uncertainFrom e true now).asJson =
      (hasValidResponseDigest .terminalUncertain (fieldsAsJson e.fields) &&
        hasValidEffectsDigest (fieldsAsJson e.fields)) := by
    change (hasValidResponseDigest .terminalUncertain
        (fieldsAsJson (GajaeCode.uncertainFrom e true now).fields) &&
      hasValidEffectsDigest (fieldsAsJson (GajaeCode.uncertainFrom e true now).fields)) = _
    unfold hasValidResponseDigest hasValidEffectsDigest
    rw [hget _ (by decide) (by decide), hget _ (by decide) (by decide),
      hget _ (by decide) (by decide)]
  rw [ReadsBack, and_iff_right hrow, hdigests, Bool.and_eq_true, Closable]
  rfl

/-- A row with nothing but what every row has reads back, if it names a request and its
state needs no response. -/
theorem readsBack_fresh {identity requestHash : JsString} {state : LifecycleState}
    (hidentity : identity ≠ []) (hhash : requestHash ≠ []) (hstate : state.terminal = false)
    (ts : Timestamp N) :
    ReadsBack (.fresh identity requestHash state ts : LifecycleLedgerEntry N) := by
  generalize hfresh : (.fresh identity requestHash state ts : LifecycleLedgerEntry N) = e
  have hfields : EntryFields e.fields := by
    subst hfresh
    exact ⟨rfl, ⟨identity, rfl, hidentity⟩, ⟨requestHash, rfl, hhash⟩, ⟨state, rfl⟩, ts.1, rfl,
      ts.2⟩
  have hbounded : (isBoundedLedgerJson e.toValue 0 0).isSome = true := by
    subst hfresh
    rfl
  have hversion : newerVersion e.toValue = none := by
    refine newerVersion_eq_none.mpr fun key hkey n hn => ?_
    rcases mem_cons.mp hkey with rfl | hkey
    · rw [hfields.version] at hn
      rw [← JsValue.number.inj hn, JsNumber.exceedsOne_one, Bool.and_false]
    · rw [mem_singleton.mp hkey] at hn
      subst hfresh
      cases hn
  have hrow : IsRow e :=
    ⟨hversion, Bool.and_eq_true_iff.mpr ⟨hbounded, hasEntryFields_iff.mpr hfields⟩⟩
  refine ⟨hrow.asJson, ?_⟩
  have hdigests : hasValidTerminalDigests e = true := by
    subst hfresh
    cases state <;> first | rfl | cases hstate
  refine hasValidTerminalDigests_asJson (.object ?_) hdigests
  subst hfresh
  simp only [LifecycleLedgerEntry.fresh, forall_mem_cons]
  exact ⟨.number _, .string _, .string _, .string _, .number _, by simp⟩

omit [DecidableEq N] in
theorem isCleanupPending_asJson (e : LifecycleLedgerEntry N) :
    isCleanupPending e.asJson = isCleanupPending e := by
  have hobject : ∀ (fields : JsFields N), WellKeyed (.object fields) → ∀ key,
      getField (fieldsAsJson fields) key = JsValue.asJson (getField fields key) :=
    fun fields h key => getField_fieldsAsJson (wellKeyed_object.mp h).1.nodup key
  have hwell := e.wellKeyed_get (js "response")
  unfold isCleanupPending
  rw [e.get_asJson]
  cases hresponse : e.get (js "response") with
  | number n =>
    rw [asJson_number]
    split_ifs <;> rfl
  | object response =>
    rw [hresponse] at hwell
    simp only [asJson_object, hobject response hwell]
    have hwellError := wellKeyed_getField hwell (js "error")
    congr 1
    · cases getField response (js "ok") with
      | number n =>
        rw [asJson_number]
        split_ifs <;> rfl
      | _ => rfl
    · cases herror : getField response (js "error") with
      | number n =>
        rw [asJson_number]
        split_ifs <;> rfl
      | object error =>
        rw [herror] at hwellError
        simp only [asJson_object, hobject error hwellError, asString_asJson, isUndefined_asJson]
      | _ => rfl
  | _ => rfl

end LifecycleLedger
end GajaeCode
