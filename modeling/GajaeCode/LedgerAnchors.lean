import GajaeCode.LedgerFiles
import GajaeCode.LedgerSteps

/-! # Anchors

A compaction writes two rows of an identity: the one it was accepted with and, where that
is another, its latest.  So it needs the first for every identity it knows, under the hash
of the latest (`Anchored`).  A reader of the snapshot accepts all of it and ends with the
latest rows, except that of several accepted rows it has the first.
-/
namespace GajaeCode
open JsString JsValue JsonParse List

namespace LifecycleLedger
variable {N : Type}

/-- The first accepted row of an identity. -/
def anchorOf (entries : List (LifecycleLedgerEntry N)) (id : JsString) :
    Option (LifecycleLedgerEntry N) :=
  entries.find? fun e => e.identity == id && e.state == .accepted

theorem anchorOf_eq_some {entries : List (LifecycleLedgerEntry N)} {id : JsString}
    {a : LifecycleLedgerEntry N} (h : anchorOf entries id = some a) :
    a ∈ entries ∧ a.identity = id ∧ a.state = .accepted := by
  have hp := find?_some h
  rw [Bool.and_eq_true, beq_iff_eq, beq_iff_eq] at hp
  exact ⟨mem_of_find?_eq_some h, hp⟩

theorem anchorOf_eq_filter (entries : List (LifecycleLedgerEntry N)) (id : JsString) :
    anchorOf entries id =
      (entries.filter fun e => e.identity = id).find? fun e => e.state = .accepted := by
  rw [anchorOf, find?_filter]
  congr 1
  funext e
  simp [Bool.beq_eq_decide_eq]

theorem anchorOf_append {entries : List (LifecycleLedgerEntry N)} {id : JsString}
    {a : LifecycleLedgerEntry N} (h : anchorOf entries id = some a)
    (more : List (LifecycleLedgerEntry N)) : anchorOf (entries ++ more) id = some a := by
  rw [anchorOf, find?_append, ← anchorOf, h, Option.some_or]

theorem anchorOf_append_of_none {entries : List (LifecycleLedgerEntry N)} {id : JsString}
    (h : anchorOf entries id = none) (more : List (LifecycleLedgerEntry N)) :
    anchorOf (entries ++ more) id = anchorOf more id := by
  rw [anchorOf, find?_append, ← anchorOf, h, Option.none_or, anchorOf]

/-- Every identity in the map has an accepted row with the hash of its latest. -/
def Anchored (entries : List (LifecycleLedgerEntry N))
    (byIdentity : InsertionMap JsString (LifecycleLedgerEntry N)) : Prop :=
  ∀ id e, byIdentity.get id = some e → e.identity = id ∧
    ∃ a, anchorOf entries id = some a ∧ a.requestHash = e.requestHash

/-- The row that is to be appended goes on with an identity that is known. -/
def GoesOn (byIdentity : InsertionMap JsString (LifecycleLedgerEntry N))
    (e : LifecycleLedgerEntry N) : Prop :=
  ∃ prior, byIdentity.get e.identity = some prior ∧ e.requestHash = prior.requestHash

section
variable {entries : List (LifecycleLedgerEntry N)}
    {byIdentity : InsertionMap JsString (LifecycleLedgerEntry N)} (h : Anchored entries byIdentity)
include h

theorem Anchored.set {e : LifecycleLedgerEntry N} (he : GoesOn byIdentity e) :
    Anchored entries (byIdentity.set e.identity e) := by
  intro id e' hget
  rw [InsertionMap.get_set] at hget
  split_ifs at hget with hid
  · obtain rfl := some.inj hget
    obtain ⟨prior, hprior, hhash⟩ := he
    obtain ⟨-, a, ha, hash⟩ := h _ _ hprior
    exact ⟨hid.symm, a, hid ▸ ha, hash.trans hhash.symm⟩
  · exact h id e' hget

theorem Anchored.append (more : List (LifecycleLedgerEntry N)) :
    Anchored (entries ++ more) byIdentity := by
  intro id e hget
  obtain ⟨hid, a, ha, hash⟩ := h id e hget
  exact ⟨hid, a, anchorOf_append ha more, hash⟩

theorem Anchored.accept {e : LifecycleLedgerEntry N} (hstate : e.state = .accepted)
    (hnew : anchorOf entries e.identity = none) :
    Anchored (entries ++ [e]) (byIdentity.set e.identity e) := by
  intro id e' hget
  rw [InsertionMap.get_set] at hget
  split_ifs at hget with hid
  · obtain rfl := some.inj hget
    subst hid
    refine ⟨rfl, e, ?_, rfl⟩
    rw [anchorOf_append_of_none hnew, anchorOf, find?_singleton, hstate]
    simp
  · exact h.append [e] id e' hget

end

/-! ## What a compaction writes -/

section Compact
variable {ledger : LifecycleLedger N}

/-- The anchor of an identity is its first accepted row with the hash of its latest. -/
theorem get_anchors (ledger : LifecycleLedger N) (r : Option (LifecycleLedgerEntry N))
    (id : JsString) : (ledger.anchors r).get id = ledger.entries.find? fun e =>
      (e.identity == id && e.state == .accepted) &&
        some e.requestHash == ((ledger.compacted r).get id).map (·.requestHash) := by
  have hlatest : ∀ e : LifecycleLedgerEntry N,
      (if r.map (·.identity) = some e.identity then r else ledger.byIdentity.get e.identity) =
        (ledger.compacted r).get e.identity := by
    intro e
    cases r with
    | none => rfl
    | some r =>
      rw [compacted, InsertionMap.get_set, Option.map_some]
      simp only [Option.some.injEq, eq_comm]
  have hfold : ∀ (es : List (LifecycleLedgerEntry N))
      (m : InsertionMap JsString (LifecycleLedgerEntry N)),
      (es.foldl (fun anchors entry =>
        if entry.state = .accepted ∧ (anchors.get entry.identity).isNone ∧ some entry.requestHash =
              ((ledger.compacted r).get entry.identity).map (·.requestHash) then
          anchors.set entry.identity entry
        else anchors) m).get id = (m.get id).or (es.find? fun e =>
          (e.identity == id && e.state == .accepted) &&
            some e.requestHash == ((ledger.compacted r).get id).map (·.requestHash)) := by
    intro es
    induction es with
    | nil => exact fun m => Option.or_none.symm
    | cons e es ih =>
      intro m
      rw [foldl_cons, ih, find?_cons]
      by_cases hid : e.identity = id
      · subst hid
        cases hget : m.get e.identity with
        | some a => simp [hget]
        | none =>
          simp only [Option.isNone_none, true_and, beq_self_eq_true, Bool.true_and, Option.none_or]
          by_cases hcond : e.state = .accepted ∧ some e.requestHash =
              ((ledger.compacted r).get e.identity).map (·.requestHash)
          · rw [if_pos hcond, InsertionMap.get_set, if_pos rfl, Option.some_or]
            simp [hcond.1, ← hcond.2]
          · rw [if_neg hcond, hget, Option.none_or]
            have hnot : (e.state == .accepted && some e.requestHash ==
                ((ledger.compacted r).get e.identity).map (·.requestHash)) = false := by
              rw [← Bool.not_eq_true, Bool.and_eq_true, beq_iff_eq, beq_iff_eq]
              exact hcond
            rw [hnot]
      · have hother : (e.identity == id) = false := beq_eq_false_iff_ne.mpr hid
        rw [hother, Bool.false_and, Bool.false_and]
        congr 1
        split_ifs
        · rw [InsertionMap.get_set, if_neg (Ne.symm hid)]
        · rfl
  have hstart := hfold ledger.entries .empty
  rw [InsertionMap.get_empty, Option.none_or] at hstart
  rw [← hstart, anchors]
  simp only [hlatest]

/-- Where every identity has an anchor, it is its first accepted row. -/
theorem get_anchors_of_anchored {r : Option (LifecycleLedgerEntry N)}
    (h : Anchored ledger.entries (ledger.compacted r)) {id : JsString}
    {e : LifecycleLedgerEntry N} (he : (ledger.compacted r).get id = some e) :
    (ledger.anchors r).get id = anchorOf ledger.entries id := by
  obtain ⟨-, a, ha, hash⟩ := h id e he
  rw [get_anchors, ha, he, Option.map_some]
  obtain ⟨hp, before, after, hentries, hbefore⟩ := find?_eq_some_iff_append.mp ha
  refine find?_eq_some_iff_append.mpr ⟨?_, before, after, hentries, fun b hb => ?_⟩
  · rw [hp, hash, beq_self_eq_true]
    rfl
  · have hnot := hbefore b hb
    rw [Bool.not_eq_true'] at hnot ⊢
    rw [hnot, Bool.false_and]

def snapshotRows (anchors : InsertionMap JsString (LifecycleLedgerEntry N))
    (item : JsString × LifecycleLedgerEntry N) : List (LifecycleLedgerEntry N) :=
  (anchors.get item.1).toList ++ if item.2.state = .accepted then [] else [item.2]

theorem snapshotOf_eq_some {anchors : InsertionMap JsString (LifecycleLedgerEntry N)}
    {items : List (JsString × LifecycleLedgerEntry N)}
    {snapshot : List (LifecycleLedgerEntry N)} : snapshotOf anchors items = some snapshot ↔
      (∀ item ∈ items, (anchors.get item.1).isSome = true) ∧
        items.flatMap (snapshotRows anchors) = snapshot := by
  induction items generalizing snapshot with
  | nil => simp [snapshotOf]
  | cons item items ih =>
    obtain ⟨id, latest⟩ := item
    rw [snapshotOf, forall_mem_cons, flatMap_cons, snapshotRows]
    cases hanchor : anchors.get id with
    | none => simp
    | some a =>
      simp only [Option.bind_eq_bind, Option.bind_some, Option.isSome_some, true_and,
        Option.toList_some, singleton_append]
      constructor
      · intro h
        obtain ⟨rest, hrest, hpure⟩ := Option.bind_eq_some_iff.mp h
        obtain ⟨hall, hrows⟩ := ih.mp hrest
        refine ⟨hall, ?_⟩
        rw [hrows, ← some.inj hpure]
        split_ifs <;> rfl
      · rintro ⟨hall, rfl⟩
        rw [ih.mpr ⟨hall, rfl⟩, Option.bind_some]
        split_ifs <;> rfl

theorem of_get_anchors {r : Option (LifecycleLedgerEntry N)} {id : JsString}
    {a : LifecycleLedgerEntry N} (h : (ledger.anchors r).get id = some a) :
    a ∈ ledger.entries ∧ a.identity = id ∧ a.state = .accepted ∧
      some a.requestHash = ((ledger.compacted r).get id).map (·.requestHash) := by
  rw [get_anchors] at h
  have hp := find?_some h
  simp only [Bool.and_eq_true, beq_iff_eq] at hp
  exact ⟨mem_of_find?_eq_some h, hp.1.1, hp.1.2, hp.2⟩

variable [JsNumber N]

/-- **Where every identity has an anchor, only the limits can stop a compaction.** -/
theorem compact_error {r : Option (LifecycleLedgerEntry N)}
    (h : Anchored ledger.entries (ledger.compacted r)) {err : LedgerError N}
    (herr : ledger.compact r = .error err) : err = .compactionTooLong := by
  have hall : ∀ item ∈ (ledger.compacted r).entries,
      ((ledger.anchors r).get item.1).isSome = true := by
    intro item hitem
    have hget := InsertionMap.get_of_mem_entries hitem
    obtain ⟨-, a, ha, -⟩ := h _ _ hget
    rw [get_anchors_of_anchored h hget, ha]
    rfl
  unfold compact at herr
  simp only at herr
  rw [snapshotOf_eq_some.mpr ⟨hall, rfl⟩] at herr
  simp only at herr
  split_ifs at herr
  exact (Except.error.inj herr).symm

/-- What a successful compaction has written. -/
structure Compacted (ledger : LifecycleLedger N) (r : Option (LifecycleLedgerEntry N))
    (ledger' : LifecycleLedger N) : Prop where
  anchor : ∀ id e, (ledger.compacted r).get id = some e →
    ∃ a, (ledger.anchors r).get id = some a ∧ a.requestHash = e.requestHash
  entries : ledger'.entries =
    (ledger.compacted r).entries.flatMap (snapshotRows (ledger.anchors r))
  byIdentity : ledger'.byIdentity = ledger.compacted r
  file : ledger'.file = ledger'.entries.flatMap rowLine
  writes : ledger'.writes = ledger.writes ++ [.snapshot ledger'.entries]
  limits : ledger'.limits = ledger.limits
  rowCount : ledger'.rowCount = ledger'.entries.length
  byteCount : ledger'.byteCount = ledger'.file.length
  rowsFit : ledger'.rowCount ≤ ledger.limits.maxRows
  bytesFit : ledger'.byteCount ≤ ledger.limits.maxBytes
  linesFit : ∀ e ∈ ledger'.entries, (jsonBytes e.toValue).length ≤ ledger.limits.maxLineBytes

theorem compacted_of_compact {r : Option (LifecycleLedgerEntry N)} {ledger' : LifecycleLedger N}
    (h : ledger.compact r = .ok ledger') : Compacted ledger r ledger' := by
  obtain ⟨snapshot, hsnapshot, hrows, hbytes, hlines, rfl⟩ := compact_eq_ok h
  obtain ⟨hall, hflat⟩ := snapshotOf_eq_some.mp hsnapshot
  refine ⟨fun id e he => ?_, hflat.symm, rfl, rfl, rfl, rfl, rfl, rfl, hrows, hbytes, hlines⟩
  obtain ⟨a, ha⟩ := Option.isSome_iff_exists.mp (hall _ (InsertionMap.mem_entries_iff.mpr he))
  obtain ⟨-, -, -, hhash⟩ := of_get_anchors ha
  rw [he, Option.map_some] at hhash
  exact ⟨a, ha, some.inj hhash⟩

namespace Compacted
variable {r : Option (LifecycleLedgerEntry N)} {ledger' : LifecycleLedger N}

section
variable (h : Compacted ledger r ledger') (hkeyed : Keyed (ledger.compacted r))
include h hkeyed

/-- The rows of an identity that is known are its anchor and, where it is another row, its
latest. -/
theorem filter_entries (id : JsString) : ledger'.entries.filter (fun e => e.identity = id) =
      (((ledger.compacted r).get id).map fun latest =>
        snapshotRows (ledger.anchors r) (id, latest)).getD [] := by
  rw [h.entries]
  refine InsertionMap.filter_flatMap _ (fun item hitem e he => ?_) id
  rcases mem_append.mp he with he | he
  · exact (of_get_anchors (Option.mem_toList.mp he)).2.1
  · split_ifs at he
    · exact absurd he not_mem_nil
    · rw [mem_singleton.mp he]
      exact hkeyed _ _ (InsertionMap.get_of_mem_entries hitem)

theorem anchorOf_entries {id : JsString} {e : LifecycleLedgerEntry N}
    (he : (ledger.compacted r).get id = some e) :
    anchorOf ledger'.entries id = (ledger.anchors r).get id := by
  obtain ⟨a, ha, -⟩ := h.anchor id e he
  obtain ⟨-, -, hstate, -⟩ := of_get_anchors ha
  rw [anchorOf_eq_filter, h.filter_entries hkeyed, he, Option.map_some, Option.getD_some,
    snapshotRows, ha, Option.toList_some, singleton_append,
    find?_cons_of_pos (by simpa using hstate)]

theorem anchored : Anchored ledger'.entries ledger'.byIdentity := by
  intro id e he
  rw [h.byIdentity] at he
  obtain ⟨a, ha, hash⟩ := h.anchor id e he
  exact ⟨hkeyed id e he, a, by rw [h.anchorOf_entries hkeyed he, ha], hash⟩

end

/-- Every row of a snapshot is a row there was, or the latest of an identity. -/
theorem mem_entries (h : Compacted ledger r ledger') {e : LifecycleLedgerEntry N}
    (he : e ∈ ledger'.entries) :
    e ∈ ledger.entries ∨ ∃ id, (ledger.compacted r).get id = some e := by
  rw [h.entries] at he
  obtain ⟨item, hitem, he⟩ := mem_flatMap.mp he
  rcases mem_append.mp he with he | he
  · exact .inl (of_get_anchors (Option.mem_toList.mp he)).1
  · split_ifs at he
    · exact absurd he not_mem_nil
    · rw [mem_singleton.mp he]
      exact .inr ⟨item.1, InsertionMap.get_of_mem_entries hitem⟩

variable [DecidableEq N]

section
variable (h : Compacted ledger r ledger')
include h

theorem fileEvents_eq (hread : ∀ e ∈ ledger'.entries, ReadsBack e) :
    fileEvents ledger'.file = ledger'.entries.map fun e => some e.asJson := by
  rw [h.file, fileEvents, rows_flatMap, map_map]
  exact map_congr_left fun e he => rowEvent_row (hread e he).1

section
variable (hkeyed : Keyed (ledger.compacted r))
include hkeyed

theorem track_eq (hread : ∀ e ∈ ledger'.entries, ReadsBack e) (id : JsString) :
    fileTrack ledger'.file id = ledgerRules.track id
      (((((ledger.compacted r).get id).map fun latest =>
        snapshotRows (ledger.anchors r) (id, latest)).getD []).map fun e => some e.asJson) := by
  rw [fileTrack, h.fileEvents_eq hread, ← h.filter_entries hkeyed, ← ledgerRules.track_filter,
    filter_map]
  rfl

/-- **A reader of the snapshot ends with the latest row of an identity**, or with its anchor
where that is an accepted row as well. -/
theorem track_some (hread : ∀ e ∈ ledger'.entries, ReadsBack e) {id : JsString}
    {e : LifecycleLedgerEntry N} (he : (ledger.compacted r).get id = some e) :
    ∃ a, (ledger.anchors r).get id = some a ∧
      fileTrack ledger'.file id = ⟨some (if e.state = .accepted then a else e).asJson, false⟩ := by
  obtain ⟨a, ha, hash⟩ := h.anchor id e he
  obtain ⟨-, hid, hstate, -⟩ := of_get_anchors ha
  refine ⟨a, ha, ?_⟩
  have hrows : ∀ e' ∈ snapshotRows (ledger.anchors r) (id, e),
      hasValidTerminalDigests e'.asJson = true := by
    intro e' he'
    have hmem : e' ∈ ledger'.entries.filter (fun e => e.identity = id) := by
      rw [h.filter_entries hkeyed, he]
      exact he'
    exact (hread e' (mem_filter.mp hmem).1).2
  rw [h.track_eq hkeyed hread, he, Option.map_some, Option.getD_some]
  rw [snapshotRows, ha, Option.toList_some, singleton_append] at hrows ⊢
  obtain ⟨hanchor, hlatest⟩ := forall_mem_cons.mp hrows
  have hfirst : ledgerRules.accepts none a.asJson = true := by
    simp only [ledgerRules, hanchor, isValidHistoryContinuation,
      LifecycleLedgerEntry.asJson_state, hstate, beq_self_eq_true, Bool.and_self]
  by_cases haccepted : e.state = .accepted
  · rw [if_pos haccepted, if_pos haccepted, map_singleton]
    subst hid
    exact ledgerRules.step_accept (t := ⟨none, false⟩) rfl hfirst
  · rw [if_neg haccepted, if_neg haccepted, map_cons, map_singleton]
    rw [if_neg haccepted, forall_mem_singleton] at hlatest
    refine ledgerRules.track_pair hid (hkeyed id e he) hfirst ?_
    simp only [ledgerRules, hlatest, isValidHistoryContinuation,
      LifecycleLedgerEntry.asJson_state, LifecycleLedgerEntry.asJson_requestHash, hstate, hash]
    simp [LifecycleState.final, LifecycleState.terminal]

theorem track_none (hread : ∀ e ∈ ledger'.entries, ReadsBack e) {id : JsString}
    (he : (ledger.compacted r).get id = none) :
    fileTrack (N := N) ledger'.file id = ⟨none, false⟩ := by
  rw [h.track_eq hkeyed hread, he]
  rfl

theorem track_clean (hread : ∀ e ∈ ledger'.entries, ReadsBack e) (id : JsString) :
    (fileTrack (N := N) ledger'.file id).unclean = false := by
  cases he : (ledger.compacted r).get id with
  | none => rw [h.track_none hkeyed hread he]
  | some e =>
    obtain ⟨a, -, htrack⟩ := h.track_some hkeyed hread he
    rw [htrack]

/-- **A reader of the snapshot accepts all of it.** -/
theorem refusedRows_file (hread : ∀ e ∈ ledger'.entries, ReadsBack e) :
    refusedRows (N := N) [] (rows ledger'.file) = [] := by
  refine refusedRows_eq_nil fun line hline => ?_
  have hrows : line ∈ ledger'.entries.map fun e => jsonBytes e.toValue := by
    rw [← rows_flatMap, ← h.file]
    exact hline
  obtain ⟨e, he, rfl⟩ := mem_map.mp hrows
  exact ⟨e.asJson, rowEvent_row (hread e he).1, h.track_clean hkeyed hread e.identity⟩

end

theorem replayable (hread : ∀ e ∈ ledger'.entries, ReadsBack e) :
    Replayable ledger.limits N (rows ledger'.file) := by
  have hrows : rows ledger'.file = ledger'.entries.map fun e => jsonBytes e.toValue := by
    rw [h.file, rows_flatMap]
  rw [hrows]
  refine ⟨?_, forall_mem_map.mpr h.linesFit, forall_mem_map.mpr fun e he version => ?_⟩
  · rw [length_map, ← h.rowCount]
    exact h.rowsFit
  · rw [readRow_row (hread e he).1]
    simp

end

end Compacted
end Compact

end LifecycleLedger
end GajaeCode
