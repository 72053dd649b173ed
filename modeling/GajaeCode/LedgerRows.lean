import GajaeCode.LedgerScan

/-! # Rows that were written

A row is written with `JSON.stringify` and read with `JSON.parse`, so what is read is
what is left of the entry by that (`LifecycleLedgerEntry.asJson`): the identity, the hash
and the state, and of the other fields what JSON keeps.  A row that a crash has cut is
no JSON at all, wherever the cut is.
-/
namespace GajaeCode
open JsString JsValue JsonParse List

variable {N : Type} [JsNumber N]

namespace LifecycleLedgerEntry
variable (e : LifecycleLedgerEntry N)

theorem getField_asJson (key : JsString) :
    getField (fieldsAsJson e.fields) key = JsValue.asJson (e.get key) :=
  getField_fieldsAsJson (wellKeyed_object.mp e.wellKeyed).1.nodup key

/-- An entry once it has been written and read back. -/
def asJson (e : LifecycleLedgerEntry N) : LifecycleLedgerEntry N where
  fields := fieldsAsJson e.fields
  wellKeyed := wellKeyed_asJson e.wellKeyed
  identity := e.identity
  requestHash := e.requestHash
  state := e.state
  identity_eq := (e.getField_asJson _).trans (congrArg JsValue.asJson e.identity_eq)
  requestHash_eq := (e.getField_asJson _).trans (congrArg JsValue.asJson e.requestHash_eq)
  state_eq := (e.getField_asJson _).trans (congrArg JsValue.asJson e.state_eq)

@[simp] theorem asJson_identity : e.asJson.identity = e.identity := rfl
@[simp] theorem asJson_requestHash : e.asJson.requestHash = e.requestHash := rfl
@[simp] theorem asJson_state : e.asJson.state = e.state := rfl

theorem get_asJson (key : JsString) :
    e.asJson.get key = JsValue.asJson (e.get key) := e.getField_asJson key

end LifecycleLedgerEntry

namespace LifecycleLedger

/-- A row that a reader accepts as an entry. -/
def IsRow [DecidableEq N] (e : LifecycleLedgerEntry N) : Prop :=
  newerVersion e.toValue = none ∧ isLifecycleLedgerEntry e.toValue = true

theorem readRow_eq_entry [DecidableEq N] {line : List UInt8} {e : LifecycleLedgerEntry N} :
    readRow line = .entry e ↔ parseLifecycleJson line = some e.toValue ∧ IsRow e := by
  unfold readRow
  split
  · rename_i hparse
    simp [hparse]
  · rename_i value hparse
    constructor
    · intro h
      split at h
      · cases h
      · rename_i hversion
        split at h
        · cases h
        · rename_i entry hentry
          cases h
          obtain ⟨rfl, hvalid⟩ := toEntry_eq_some.mp hentry
          exact ⟨hparse, hversion, hvalid⟩
    · rintro ⟨hvalue, hversion, hvalid⟩
      obtain rfl := some.inj (hparse.symm.trans hvalue)
      rw [hversion]
      simp only
      rw [toEntry_eq_some.mpr ⟨rfl, hvalid⟩]

theorem readRow_eq_corrupt_of_parse [DecidableEq N] {line : List UInt8}
    (h : (parseLifecycleJson line : Option (JsValue N)) = none) :
    (readRow line : LedgerRow N) = .corrupt := by
  unfold readRow
  split
  · rfl
  · rename_i value hparse
    rw [h] at hparse
    cases hparse

theorem parse_row (e : LifecycleLedgerEntry N) :
    parseLifecycleJson (jsonBytes e.toValue) = some e.asJson.toValue :=
  parse_jsonBytes e.wellKeyed

/-- **A row that was written is read back.** -/
theorem readRow_row [DecidableEq N] {e : LifecycleLedgerEntry N} (h : IsRow e.asJson) :
    readRow (jsonBytes e.toValue) = .entry e.asJson :=
  readRow_eq_entry.mpr ⟨parse_row e, h⟩

theorem eq_asJson_of_readRow [DecidableEq N] {e e' : LifecycleLedgerEntry N}
    (h : readRow (jsonBytes e.toValue) = .entry e') : e' = e.asJson := by
  have hvalue := (parse_row e).symm.trans (readRow_eq_entry.mp h).1
  exact LifecycleLedgerEntry.ext (JsValue.object.inj (some.inj hvalue)).symm

/-- **A row that was cut is no entry.** -/
theorem readRow_cut [DecidableEq N] {e : LifecycleLedgerEntry N} {front back : List UInt8}
    (h : jsonBytes e.toValue = front ++ back) (hback : back ≠ []) :
    (readRow front : LedgerRow N) = .corrupt :=
  readRow_eq_corrupt_of_parse (parse_cut e.wellKeyed h hback)

/-- A part of a joined text stands in it between whole texts. -/
theorem exists_joinComma_eq {parts : List JsString} (h : ∀ part ∈ parts, OneLine part)
    {part : JsString} (hpart : part ∈ parts) : ∃ before after, WellFormed before ∧
      WellFormed after ∧ joinComma parts = before ++ part ++ after := by
  induction parts with
  | nil => exact absurd hpart not_mem_nil
  | cons first parts ih =>
    obtain ⟨hfirst, hparts⟩ := forall_mem_cons.mp h
    cases parts with
    | nil =>
      obtain rfl := mem_singleton.mp hpart
      exact ⟨[], [], trivial, trivial, by simp⟩
    | cons second parts =>
      rw [joinComma_cons_cons]
      rcases mem_cons.mp hpart with rfl | hpart
      · refine ⟨[], 0x002c :: joinComma (second :: parts), trivial, ?_, by simp⟩
        exact (wellFormed_cons (by decide) _).mpr (oneLine_joinComma hparts).1
      · obtain ⟨before, after, hbefore, hafter, heq⟩ := ih hparts hpart
        refine ⟨first ++ 0x002c :: before, after, ?_, hafter, by simp [heq]⟩
        exact wellFormed_append hfirst.1 ((wellFormed_cons (by decide) _).mpr hbefore)

omit [JsNumber N] in
theorem mem_of_getField {fields : JsFields N} {k : JsString} {v : JsValue N}
    (h : getField fields k = v) (hv : v ≠ .undefined) : (k, v) ∈ fields := by
  unfold getField at h
  cases hlookup : fields.lookup k with
  | none =>
    rw [hlookup] at h
    exact absurd h.symm hv
  | some w =>
    rw [hlookup] at h
    obtain rfl : w = v := h
    obtain ⟨before, after, heq, -⟩ := lookup_eq_some_iff.mp hlookup
    exact heq ▸ mem_append_right _ mem_cons_self

/-- The marker `readTerminal` looks for stands in every row of its identity. -/
theorem identityMarker_infix (e : LifecycleLedgerEntry N) :
    identityMarker e.identity <:+: jsonBytes e.toValue := by
  have hmem := mem_of_getField e.identity_eq (by simp)
  have htexts : ∀ part ∈ fieldTexts e.fields, OneLine part := by
    rw [fieldTexts_eq]
    refine forall_mem_map.mpr fun f _ => ?_
    exact ((oneLine_jsonStringify f.1).append (oneLine_of_all (by rfl))).append
      (oneLine_jsonText f.2)
  have hpart : js "\"identity\":" ++ jsonStringify e.identity ∈ fieldTexts e.fields := by
    rw [fieldTexts_eq]
    exact mem_map.mpr ⟨_, mem_filter.mpr ⟨hmem, rfl⟩, rfl⟩
  obtain ⟨before, after, hbefore, hafter, heq⟩ := exists_joinComma_eq htexts hpart
  have hopen : WellFormed (js "\x7b" ++ before) :=
    wellFormed_append (oneLine_of_all (by rfl)).1 hbefore
  have hclose : WellFormed (after ++ js "\x7d") :=
    wellFormed_append hafter (oneLine_of_all (by rfl)).1
  have hmarker := (htexts _ hpart).1
  have htext : jsonText e.toValue = (js "\x7b" ++ before) ++
      (js "\"identity\":" ++ jsonStringify e.identity) ++ (after ++ js "\x7d") := by
    rw [jsonText, heq]
    simp only [append_assoc]
  refine ⟨utf8 (js "\x7b" ++ before), utf8 (after ++ js "\x7d"), ?_⟩
  rw [jsonBytes, htext, utf8_append (wellFormed_append hopen hmarker) hclose,
    utf8_append hopen hmarker]
  rfl

theorem splitOn_eq_completeLines (file : List UInt8) :
    file.splitOn 0x0a = completeLines file ++ [tailOf file] := by
  have hne : file.splitOn 0x0a ≠ [] := splitOn_ne_nil _ _
  rw [completeLines, tailOf, getLastD_eq_getLast?, getLast?_eq_getLast_of_ne_nil hne,
    Option.getD_some, dropLast_append_getLast]

theorem rows_eq (file : List UInt8) : rows file =
    (completeLines file).filter (fun l => l ≠ []) ++ [tailOf file].filter (fun l => l ≠ []) := by
  rw [rows, splitOn_eq_completeLines, filter_append]

end LifecycleLedger
end GajaeCode
