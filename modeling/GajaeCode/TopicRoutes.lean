import GajaeCode.TopicRegistry
import GajaeCode.Runs

/-! # Inbound routes are fail-closed

A route may be followed only if it leads to a session whose active record carries the
topic and no record of another session does.  `rebuildInboundRoutes` establishes this from
nothing, and all operations but one keep it.  The one is the commit of a created topic: it
consults the routes and the ambiguous topics, and both may have forgotten a record.
-/
namespace GajaeCode
open JsString List

namespace TopicRegistry
variable {N : Type}

def Carries (r : TopicRegistry N) (sessionId topicId : JsString) : Prop :=
  ∃ record, r.topics.get sessionId = some record ∧ record.topicId = topicId

/-- The session's topic it is, and not being deleted. -/
def ActiveTopic (r : TopicRegistry N) (sessionId topicId : JsString) : Prop :=
  ∃ record, r.topics.get sessionId = some record ∧ record.topicId = topicId ∧
    record.isDeletePending = false

/-- Every route leads to the session whose active topic it is, and which no record of
another session carries. -/
def FailClosed (r : TopicRegistry N) : Prop :=
  ∀ topicId sessionId, r.sessionForTopic topicId = some sessionId →
    r.ActiveTopic sessionId topicId ∧ ∀ other, r.Carries other topicId → other = sessionId

/-- No ambiguous topic has a route. -/
def Unambiguous (r : TopicRegistry N) : Prop :=
  ∀ topicId ∈ r.ambiguousTopicIds, r.sessionForTopic topicId = none

/-! ## Routes from scratch -/

section Scan

/-- What the first loop of `rebuildInboundRoutes` knows of the records it has seen. -/
structure Scanned (seen : List (JsString × TopicRecord N))
    (scan : InsertionMap JsString JsString × List JsString) : Prop where
  routed : ∀ topicId sessionId, scan.1.get topicId = some sessionId →
    ∃ record, (sessionId, record) ∈ seen ∧ record.topicId = topicId ∧
      record.isDeletePending = false
  accounted : ∀ e ∈ seen, e.2.topicId ∈ scan.2 ∨ scan.1.get e.2.topicId = some e.1

theorem mem_addFirst_of_mem {ks : List JsString} {k k' : JsString} (h : k ∈ ks) :
    k ∈ addFirst ks k' := mem_addFirst.mpr (.inl h)

section
variable {seen : List (JsString × TopicRecord N)}
    {scan : InsertionMap JsString JsString × List JsString} (h : Scanned seen scan)
    (e : JsString × TopicRecord N)
include h e

theorem Scanned.ambiguous :
    Scanned (seen ++ [e]) (scan.1, addFirst scan.2 e.2.topicId) where
  routed topicId sessionId hget := by
    obtain ⟨record, hmem, hrecord⟩ := h.routed topicId sessionId hget
    exact ⟨record, mem_append_left _ hmem, hrecord⟩
  accounted e' he' := by
    rcases mem_append.mp he' with hseen | hlast
    · exact (h.accounted e' hseen).imp_left mem_addFirst_of_mem
    · rw [mem_singleton.mp hlast]
      exact .inl (mem_addFirst.mpr (.inr rfl))

theorem Scanned.scanRoute : Scanned (seen ++ [e]) (scanRoute scan e) := by
  unfold TopicRegistry.scanRoute
  by_cases hpending : e.2.isDeletePending = true
  · rw [if_pos hpending]
    exact h.ambiguous e
  rw [if_neg hpending]
  by_cases htaken : (scan.1.get e.2.topicId).isSome = true
  · rw [if_pos htaken]
    exact h.ambiguous e
  rw [if_neg htaken]
  have hfree : scan.1.get e.2.topicId = none := by simpa using htaken
  constructor
  · intro topicId sessionId hget
    rw [InsertionMap.get_set] at hget
    by_cases htopic : topicId = e.2.topicId
    · rw [if_pos htopic] at hget
      obtain rfl := some.inj hget
      exact ⟨e.2, mem_append_right _ (mem_singleton.mpr rfl), htopic.symm,
        Bool.eq_false_iff.mpr hpending⟩
    · rw [if_neg htopic] at hget
      obtain ⟨record, hmem, hrecord⟩ := h.routed topicId sessionId hget
      exact ⟨record, mem_append_left _ hmem, hrecord⟩
  · intro e' he'
    rcases mem_append.mp he' with hseen | hlast
    · rcases h.accounted e' hseen with hmem | hget
      · exact .inl hmem
      · -- the topic of `e'` has a route already, so it is not the one that gets its first
        have hne : e'.2.topicId ≠ e.2.topicId := by
          intro heq
          rw [heq, hfree] at hget
          cases hget
        right
        rw [InsertionMap.get_set, if_neg hne]
        exact hget
    · rw [mem_singleton.mp hlast]
      right
      rw [InsertionMap.get_set, if_pos rfl]

end

theorem scanned_foldl (entries : List (JsString × TopicRecord N)) :
    Scanned entries (entries.foldl TopicRegistry.scanRoute (.empty, [])) := by
  induction entries using reverseRecOn with
  | nil =>
    constructor
    · intro topicId sessionId hget
      cases hget
    · intro e he
      cases he
  | append_singleton entries e ih =>
    rw [foldl_concat]
    exact ih.scanRoute e

end Scan

theorem get_filter_entries {m : InsertionMap JsString JsString} {p : JsString × JsString → Bool}
    (h : (m.entries.filter p |>.map Prod.fst).Nodup) {k v : JsString}
    (hget : (⟨m.entries.filter p, h⟩ : InsertionMap JsString JsString).get k = some v) :
    m.get k = some v ∧ p (k, v) = true := by
  obtain ⟨hmem, hp⟩ := mem_filter.mp (InsertionMap.mem_entries_iff.mpr hget)
  exact ⟨InsertionMap.mem_entries_iff.mp hmem, hp⟩

theorem unambiguous_rebuildInboundRoutes (r : TopicRegistry N) :
    r.rebuildInboundRoutes.Unambiguous := by
  intro topicId hambiguous
  cases hroute : r.rebuildInboundRoutes.sessionForTopic topicId with
  | none => rfl
  | some sessionId =>
    have hclear : topicId ∉ (r.topics.entries.foldl scanRoute (.empty, [])).2 := by
      simpa using (get_filter_entries _ hroute).2
    exact absurd hambiguous hclear

theorem failClosed_rebuildInboundRoutes (r : TopicRegistry N) :
    r.rebuildInboundRoutes.FailClosed := by
  intro topicId sessionId hroute
  obtain ⟨hget, hp⟩ := get_filter_entries _ hroute
  have hclear : topicId ∉ (r.topics.entries.foldl scanRoute (.empty, [])).2 := by
    simpa using hp
  have hscan := scanned_foldl r.topics.entries
  obtain ⟨record, hmem, hrecord⟩ := hscan.routed topicId sessionId hget
  refine ⟨⟨record, InsertionMap.mem_entries_iff.mp hmem, hrecord⟩, ?_⟩
  rintro other ⟨record', hget', rfl⟩
  -- a record with the topic is in the ambiguous set, or the route is its own
  rcases hscan.accounted (other, record') (InsertionMap.mem_entries_iff.mpr hget') with h | h
  · exact absurd h hclear
  · exact some.inj (h.symm.trans hget)

/-! ## What the operations do to routes -/

/-- Where the routes are fewer, and the records carry no more, routes stay fail-closed. -/
theorem FailClosed.of_fewer {r r' : TopicRegistry N} (h : r.FailClosed)
    (hroutes : ∀ topicId sessionId, r'.sessionForTopic topicId = some sessionId →
      r.sessionForTopic topicId = some sessionId ∧
        (r.ActiveTopic sessionId topicId → r'.ActiveTopic sessionId topicId))
    (hcarries : ∀ sessionId topicId, r'.Carries sessionId topicId → r.Carries sessionId topicId) :
    r'.FailClosed := by
  intro topicId sessionId hroute
  obtain ⟨hroute, hactive⟩ := hroutes topicId sessionId hroute
  obtain ⟨hsession, hothers⟩ := h topicId sessionId hroute
  exact ⟨hactive hsession, fun other hother => hothers other (hcarries other topicId hother)⟩

/-- What is asked of a record for the authority it gives. -/
def SameAuthority (record record' : TopicRecord N) : Prop :=
  record'.topicId = record.topicId ∧ record'.isDeletePending = record.isDeletePending ∧
    record'.authorityEpoch = record.authorityEpoch

section Records
variable {r r' : TopicRegistry N} {sessionId : JsString} {record record' : TopicRecord N}

theorem carries_set (htopics : r'.topics = r.topics.set sessionId record')
    (other topicId : JsString) : r'.Carries other topicId ↔
      if other = sessionId then record'.topicId = topicId else r.Carries other topicId := by
  unfold Carries
  rw [htopics, InsertionMap.get_set]
  split_ifs <;> simp

theorem activeTopic_set (htopics : r'.topics = r.topics.set sessionId record')
    (other topicId : JsString) : r'.ActiveTopic other topicId ↔
      if other = sessionId then record'.topicId = topicId ∧ record'.isDeletePending = false
      else r.ActiveTopic other topicId := by
  unfold ActiveTopic
  rw [htopics, InsertionMap.get_set]
  split_ifs <;> simp

theorem carries_erase (htopics : r'.topics = r.topics.erase sessionId) (other topicId : JsString) :
    r'.Carries other topicId ↔ other ≠ sessionId ∧ r.Carries other topicId := by
  unfold Carries
  rw [htopics, InsertionMap.get_erase]
  split_ifs with heq <;> simp [heq]

theorem activeTopic_erase (htopics : r'.topics = r.topics.erase sessionId)
    {other : JsString} (hne : other ≠ sessionId) (topicId : JsString) :
    r'.ActiveTopic other topicId ↔ r.ActiveTopic other topicId := by
  unfold ActiveTopic
  rw [htopics, InsertionMap.get_erase, if_neg hne]

/-- The record of one session is replaced by one that carries the same topic. -/
theorem carries_of_set (htopics : r'.topics = r.topics.set sessionId record')
    (hget : r.topics.get sessionId = some record) (htopic : record'.topicId = record.topicId)
    {other topicId : JsString} (h : r'.Carries other topicId) : r.Carries other topicId := by
  rw [carries_set htopics] at h
  split_ifs at h with heq
  · exact ⟨record, heq ▸ hget, htopic.symm.trans h⟩
  · exact h

/-- After the route of its record is withdrawn, no route leads to the session. -/
theorem FailClosed.unroute (h : r.FailClosed) (hget : r.topics.get sessionId = some record)
    (hroutes : r'.byTopic = (r.unroute sessionId record).byTopic) {topicId other : JsString}
    (hroute : r'.sessionForTopic topicId = some other) :
    r.sessionForTopic topicId = some other ∧ other ≠ sessionId := by
  rw [sessionForTopic, hroutes, TopicRegistry.unroute] at hroute
  by_cases hown : r.byTopic.get record.topicId = some sessionId
  · rw [if_pos hown] at hroute
    change (r.byTopic.erase record.topicId).get topicId = some other at hroute
    rw [InsertionMap.get_erase] at hroute
    split_ifs at hroute with heq
    refine ⟨hroute, ?_⟩
    rintro rfl
    obtain ⟨⟨found, hfound, hcarried, -⟩, -⟩ := h topicId other hroute
    obtain rfl := some.inj (hfound.symm.trans hget)
    exact heq hcarried.symm
  · rw [if_neg hown] at hroute
    refine ⟨hroute, ?_⟩
    rintro rfl
    obtain ⟨⟨found, hfound, hcarried, -⟩, -⟩ := h topicId other hroute
    obtain rfl := some.inj (hfound.symm.trans hget)
    exact hown (hcarried ▸ hroute)

end Records

theorem failClosed_congr {r r' : TopicRegistry N} (htopics : r'.topics = r.topics)
    (hroutes : r'.byTopic = r.byTopic) : r'.FailClosed ↔ r.FailClosed := by
  unfold FailClosed ActiveTopic Carries sessionForTopic
  rw [htopics, hroutes]

section
variable (r : TopicRegistry N) (sessionId : JsString) (record : TopicRecord N)
include r sessionId record

@[simp] theorem topics_unroute : (r.unroute sessionId record).topics = r.topics := by
  unfold unroute
  split_ifs <;> rfl

@[simp] theorem ambiguousTopicIds_unroute :
    (r.unroute sessionId record).ambiguousTopicIds = r.ambiguousTopicIds := by
  unfold unroute
  split_ifs <;> rfl

@[simp] theorem epochs_unroute : (r.unroute sessionId record).epochs = r.epochs := by
  unfold unroute
  split_ifs <;> rfl

@[simp] theorem inflight_unroute : (r.unroute sessionId record).inflight = r.inflight := by
  unfold unroute
  split_ifs <;> rfl

end

theorem byTopic_unroute_congr {r r' : TopicRegistry N} (hroutes : r'.byTopic = r.byTopic)
    {record record' : TopicRecord N} (htopic : record'.topicId = record.topicId)
    (sessionId : JsString) :
    (r'.unroute sessionId record').byTopic = (r.unroute sessionId record).byTopic := by
  unfold unroute
  rw [hroutes, htopic]
  split_ifs <;> simp only [hroutes]

section Deletion
variable {r : TopicRegistry N} {sessionId : JsString} {record : TopicRecord N}

section
variable (hget : r.topics.get sessionId = some record)
include hget

theorem topics_beginDelete : (r.beginDelete sessionId).1.topics =
      r.topics.set sessionId (record.fence (r.deletionEpoch sessionId)) := by
  rw [beginDelete, hget]
  exact topics_unroute _ _ _

theorem byTopic_beginDelete :
    (r.beginDelete sessionId).1.byTopic = (r.unroute sessionId record).byTopic := by
  rw [beginDelete, hget]
  apply byTopic_unroute_congr <;> rfl

theorem topics_delete : (r.delete sessionId).1.topics = r.topics.erase sessionId := by
  rw [delete, hget]
  exact congrArg (InsertionMap.erase · sessionId) (topics_unroute _ _ _)

theorem byTopic_delete : (r.delete sessionId).1.byTopic = (r.unroute sessionId record).byTopic := by
  rw [delete, hget]
  apply byTopic_unroute_congr <;> rfl

end

end Deletion

theorem FailClosed.beginDelete {r : TopicRegistry N} (h : r.FailClosed) (sessionId : JsString) :
    (r.beginDelete sessionId).1.FailClosed := by
  cases hget : r.topics.get sessionId with
  | none =>
    rw [TopicRegistry.beginDelete, hget]
    exact (failClosed_congr rfl rfl).mpr h
  | some record =>
    have htopics := topics_beginDelete hget
    refine h.of_fewer (fun topicId other hroute => ?_) (fun other topicId hcarries => ?_)
    · obtain ⟨hroute, hne⟩ := h.unroute hget (byTopic_beginDelete hget) hroute
      exact ⟨hroute, fun hactive => (activeTopic_set htopics _ _).mpr ((if_neg hne).mpr hactive)⟩
    · exact carries_of_set htopics hget rfl hcarries

theorem FailClosed.delete {r : TopicRegistry N} (h : r.FailClosed) (sessionId : JsString) :
    (r.delete sessionId).1.FailClosed := by
  cases hget : r.topics.get sessionId with
  | none =>
    rw [TopicRegistry.delete, hget]
    exact h
  | some record =>
    have htopics := topics_delete hget
    refine h.of_fewer (fun topicId other hroute => ?_) (fun other topicId hcarries => ?_)
    · obtain ⟨hroute, hne⟩ := h.unroute hget (byTopic_delete hget) hroute
      exact ⟨hroute, (activeTopic_erase htopics hne _).mpr⟩
    · exact ((carries_erase htopics _ _).mp hcarries).2

theorem FailClosed.settleDelete {r : TopicRegistry N} (h : r.FailClosed)
    (sessionId topicId : JsString) : (r.settleDelete sessionId topicId).1.FailClosed := by
  unfold TopicRegistry.settleDelete
  cases hget : r.topics.get sessionId with
  | none => exact h
  | some record =>
    simp only
    split_ifs with hrefused
    · exact h
    · rw [not_or, Bool.not_eq_false] at hrefused
      refine h.of_fewer (fun topic other hroute => ⟨hroute, fun hactive => ?_⟩)
        (fun other topic hcarries => ((carries_erase rfl _ _).mp hcarries).2)
      refine (activeTopic_erase rfl ?_ topic).mpr hactive
      -- a session whose topic is being deleted has no route
      rintro rfl
      obtain ⟨found, hfound, -, hnotPending⟩ := hactive
      obtain rfl := some.inj (hfound.symm.trans hget)
      exact absurd hrefused.2 (Bool.eq_false_iff.mp hnotPending)

theorem Note.sameAuthority {record record' : TopicRecord N} {n : Note N}
    (h : n.take record = some record') : SameAuthority record record' := by
  cases n <;> simp only [Note.take] at h <;> try split_ifs at h
  all_goals
    obtain rfl := some.inj h
    exact ⟨rfl, rfl, rfl⟩

theorem FailClosed.note {r : TopicRegistry N} (h : r.FailClosed) (sessionId : JsString)
    (n : Note N) : (r.note sessionId n).1.FailClosed := by
  unfold TopicRegistry.note
  cases hnoted : (r.topics.get sessionId).bind fun record => n.take record with
  | none => exact h
  | some record' =>
    obtain ⟨record, hget, hrecord⟩ := Option.bind_eq_some_iff.mp hnoted
    obtain ⟨htopic, hpending, -⟩ := Note.sameAuthority hrecord
    refine h.of_fewer (fun topicId other hroute => ⟨hroute, fun hactive => ?_⟩)
      (fun other topicId hcarries => carries_of_set rfl hget htopic hcarries)
    rw [activeTopic_set rfl]
    split_ifs with heq
    · obtain ⟨found, hfound, hcarried, hactive⟩ := heq ▸ hactive
      obtain rfl := some.inj (hfound.symm.trans hget)
      exact ⟨htopic.trans hcarried, hpending.trans hactive⟩
    · exact hactive

/-! ## The commit of a created topic -/

/-- What it takes for routes to be fail-closed when one record has been set and no route of
another session is new. -/
theorem failClosed_set_iff {r r' : TopicRegistry N} (h : r.FailClosed) {sessionId : JsString}
    {record : TopicRecord N} (htopics : r'.topics = r.topics.set sessionId record)
    (hold : ∀ topicId other, other ≠ sessionId → r'.sessionForTopic topicId = some other →
      r.sessionForTopic topicId = some other) : r'.FailClosed ↔
      (∀ topicId, r'.sessionForTopic topicId = some sessionId →
        record.topicId = topicId ∧ record.isDeletePending = false ∧
          ∀ other, r.Carries other topicId → other = sessionId) ∧
      ∀ other, r'.sessionForTopic record.topicId = some other → other = sessionId := by
  constructor
  · intro h'
    refine ⟨fun topicId hroute => ?_, fun other hroute => ?_⟩
    · obtain ⟨hactive, hcarriers⟩ := h' topicId sessionId hroute
      rw [activeTopic_set htopics, if_pos rfl] at hactive
      refine ⟨hactive.1, hactive.2, fun other hcarries => ?_⟩
      by_contra hne
      exact hne (hcarriers other ((carries_set htopics _ _).mpr ((if_neg hne).mpr hcarries)))
    · have hcarries : r'.Carries sessionId record.topicId :=
        (carries_set htopics _ _).mpr ((if_pos rfl).mpr rfl)
      exact ((h' _ other hroute).2 sessionId hcarries).symm
  · rintro ⟨hown, hothers⟩ topicId other hroute
    by_cases heq : other = sessionId
    · subst heq
      obtain ⟨htopic, hactive, hcarriers⟩ := hown topicId hroute
      refine ⟨(activeTopic_set htopics _ _).mpr ((if_pos rfl).mpr ⟨htopic, hactive⟩), ?_⟩
      intro carrier hcarries
      rw [carries_set htopics] at hcarries
      split_ifs at hcarries with hcarrier
      · exact hcarrier
      · exact hcarriers carrier hcarries
    · obtain ⟨hactive, hcarriers⟩ := h topicId other (hold topicId other heq hroute)
      refine ⟨(activeTopic_set htopics _ _).mpr ((if_neg heq).mpr hactive), ?_⟩
      intro carrier hcarries
      rw [carries_set htopics] at hcarries
      split_ifs at hcarries with hcarrier
      · exact absurd (hothers other (hcarries ▸ hroute)) heq
      · exact hcarriers carrier hcarries

/-- The commit of a topic can be routed without a second look at the records: if the
create was revoked, the topic has no route and neither has the session; otherwise the
session has no other topic's route, and a topic that is neither routed nor ambiguous is in
no record of another session. -/
def CommitSafe (r : TopicRegistry N) (sessionId topicId : JsString) (create : InflightCreate) :
    Prop :=
  if r.epochOf sessionId ≠ create.epoch then
    r.sessionForTopic topicId = none ∧ ∀ topic, r.sessionForTopic topic ≠ some sessionId
  else
    (∀ topic, r.sessionForTopic topic = some sessionId → topic = topicId) ∧
      (topicId ∉ r.ambiguousTopicIds → r.sessionForTopic topicId = none →
        ∀ other, r.Carries other topicId → other = sessionId)

section Commit
variable {r : TopicRegistry N} {sessionId topicId : JsString}

/-- A revoked create leaves its record behind, as one to be deleted. -/
theorem failClosed_commit_revoked (h : r.FailClosed) {record : TopicRecord N}
    (hpending : record.isDeletePending = true) :
    FailClosed { r with topics := r.topics.set sessionId record } ↔
      r.sessionForTopic record.topicId = none ∧
        ∀ topic, r.sessionForTopic topic ≠ some sessionId := by
  rw [failClosed_set_iff h rfl fun topic other _ hother => ?_]
  · constructor
    · rintro ⟨hown, hothers⟩
      have hnone : ∀ topic, r.sessionForTopic topic ≠ some sessionId := fun topic hroute =>
        absurd hpending (Bool.eq_false_iff.mp (hown topic hroute).2.1)
      refine ⟨Option.eq_none_iff_forall_ne_some.mpr fun other hroute => ?_, hnone⟩
      have hother := hothers other hroute
      exact hnone record.topicId (hother ▸ hroute)
    · rintro ⟨hfree, hnone⟩
      refine ⟨fun topic hroute => absurd hroute (hnone topic), fun other hroute => ?_⟩
      cases hfree.symm.trans hroute
  · exact hother

/-- A created topic that is known to be ambiguous gets no route. -/
theorem failClosed_commit_ambiguous (h : r.FailClosed) {record : TopicRecord N}
    (hactive : record.isDeletePending = false) (hfree : r.sessionForTopic record.topicId = none) :
    FailClosed { r with topics := r.topics.set sessionId record } ↔
      ∀ topic, r.sessionForTopic topic = some sessionId → topic = record.topicId := by
  rw [failClosed_set_iff h rfl fun topic other _ hother => ?_]
  · constructor
    · rintro ⟨hown, -⟩ topic hroute
      exact (hown topic hroute).1.symm
    · intro hroutes
      refine ⟨fun topic hroute => ⟨(hroutes topic hroute).symm, hactive, (h topic _ hroute).2⟩,
        fun other hroute => ?_⟩
      cases hfree.symm.trans hroute
  · exact hother

theorem failClosed_commit_taken (h : r.FailClosed) {record : TopicRecord N}
    {ambiguous : List JsString} :
    FailClosed { r with
        topics := r.topics.set sessionId record
        byTopic := r.byTopic.erase record.topicId
        ambiguousTopicIds := ambiguous } ↔
      ∀ topic, r.sessionForTopic topic = some sessionId → topic = record.topicId := by
  have hroute : ∀ topic, (r.byTopic.erase record.topicId).get topic =
      if topic = record.topicId then none else r.sessionForTopic topic :=
    InsertionMap.get_erase r.byTopic record.topicId
  rw [failClosed_set_iff h rfl fun topic other _ hother => ?_]
  · constructor
    · rintro ⟨hown, -⟩ topic hsession
      by_contra hne
      exact hne (hown topic ((hroute topic).trans ((if_neg hne).trans hsession))).1.symm
    · intro hroutes
      refine ⟨fun topic hsession => ?_, fun other hsession => ?_⟩
      · have hsession' := (hroute topic).symm.trans hsession
        split_ifs at hsession' with hne
        exact absurd (hroutes topic hsession') hne
      · have hsession' := (hroute record.topicId).symm.trans hsession
        rw [if_pos rfl] at hsession'
        cases hsession'
  · have hother' := (hroute topic).symm.trans hother
    split_ifs at hother'
    exact hother'

/-- A created topic that is neither ambiguous nor routed gets its route. -/
theorem failClosed_commit_free (h : r.FailClosed) {record : TopicRecord N}
    (hactive : record.isDeletePending = false) :
    FailClosed { r with
        topics := r.topics.set sessionId record
        byTopic := r.byTopic.set record.topicId sessionId } ↔
      (∀ topic, r.sessionForTopic topic = some sessionId → topic = record.topicId) ∧
        ∀ other, r.Carries other record.topicId → other = sessionId := by
  have hroute : ∀ topic, (r.byTopic.set record.topicId sessionId).get topic =
      if topic = record.topicId then some sessionId else r.sessionForTopic topic := fun topic =>
    InsertionMap.get_set r.byTopic record.topicId topic sessionId
  rw [failClosed_set_iff h rfl fun topic other hne hother => ?_]
  · constructor
    · rintro ⟨hown, -⟩
      refine ⟨fun topic hsession => ?_, ?_⟩
      · by_contra hne
        exact hne (hown topic ((hroute topic).trans ((if_neg hne).trans hsession))).1.symm
      · exact (hown record.topicId ((hroute _).trans (if_pos rfl))).2.2
    · rintro ⟨hroutes, hcarriers⟩
      refine ⟨fun topic hsession => ?_, fun other hsession => ?_⟩
      · have htopic : topic = record.topicId := by
          have hsession' := (hroute topic).symm.trans hsession
          by_contra hne
          rw [if_neg hne] at hsession'
          exact hne (hroutes topic hsession')
        exact ⟨htopic.symm, hactive, fun other hcarries => hcarriers other (htopic ▸ hcarries)⟩
      · have hsession' := (hroute record.topicId).symm.trans hsession
        rw [if_pos rfl] at hsession'
        exact (some.inj hsession').symm
  · have hother' := (hroute topic).symm.trans hother
    split_ifs at hother'
    · exact absurd (some.inj hother').symm hne
    · exact hother'

theorem failClosed_commitCreated_iff (hclear : r.Unambiguous) (h : r.FailClosed)
    (create : InflightCreate) (now : N) :
    (r.commitCreated sessionId topicId create now).1.FailClosed ↔
      r.CommitSafe sessionId topicId create := by
  unfold CommitSafe commitCreated
  change (if r.epochOf sessionId ≠ create.epoch then _ else _ :
    TopicRegistry N × Except TopicError (TopicRecord N)).1.FailClosed ↔ _
  by_cases hrevoked : r.epochOf sessionId ≠ create.epoch
  · have hpending : (r.createdRecord sessionId topicId create now).isDeletePending = true := by
      simp [createdRecord, TopicRecord.isDeletePending, hrevoked]
    rw [if_pos hrevoked, if_pos hrevoked]
    exact failClosed_commit_revoked h hpending
  have hactive : (r.createdRecord sessionId topicId create now).isDeletePending = false := by
    simp [createdRecord, TopicRecord.isDeletePending, hrevoked]
  rw [if_neg hrevoked, if_neg hrevoked, routeCreated]
  by_cases hambiguous : topicId ∈ r.ambiguousTopicIds
  · rw [if_pos hambiguous]
    refine (failClosed_commit_ambiguous h hactive (hclear topicId hambiguous)).trans ?_
    exact (and_iff_left fun hnot => absurd hambiguous hnot).symm
  rw [if_neg hambiguous]
  cases hroute : r.byTopic.get topicId with
  | some other =>
    rw [if_pos Option.isSome_some]
    refine (failClosed_commit_taken h).trans (and_iff_left fun _ hfree => ?_).symm
    cases hfree.symm.trans hroute
  | none =>
    rw [if_neg (by simp)]
    refine (failClosed_commit_free h hactive).trans (and_congr_right fun _ => ?_)
    exact ⟨fun hcarriers _ _ => hcarriers, fun hcarriers => hcarriers hambiguous hroute⟩

end Commit

/-! ## Runs -/

theorem Unambiguous.of_fewer {r r' : TopicRegistry N} (h : r.Unambiguous)
    (hambiguous : r'.ambiguousTopicIds = r.ambiguousTopicIds)
    (hroutes : ∀ topicId, r.sessionForTopic topicId = none → r'.sessionForTopic topicId = none) :
    r'.Unambiguous := by
  intro topicId hmem
  exact hroutes topicId (h topicId (hambiguous ▸ hmem))

theorem sessionForTopic_unroute {r r' : TopicRegistry N} {sessionId : JsString}
    {record : TopicRecord N} (hroutes : r'.byTopic = (r.unroute sessionId record).byTopic)
    {topicId : JsString} (h : r.sessionForTopic topicId = none) :
    r'.sessionForTopic topicId = none := by
  unfold sessionForTopic at h ⊢
  rw [hroutes, unroute]
  split_ifs
  · change (r.byTopic.erase record.topicId).get topicId = none
    rw [InsertionMap.get_erase, h, ite_self]
  · exact h

section
variable {r : TopicRegistry N} (h : r.Unambiguous)
include h

theorem Unambiguous.beginDelete (sessionId : JsString) :
    (r.beginDelete sessionId).1.Unambiguous := by
  cases hget : r.topics.get sessionId with
  | none =>
    rw [TopicRegistry.beginDelete, hget]
    exact h
  | some record =>
    refine h.of_fewer ?_ fun topicId => sessionForTopic_unroute (byTopic_beginDelete hget)
    rw [TopicRegistry.beginDelete, hget]
    exact ambiguousTopicIds_unroute _ _ _

theorem Unambiguous.delete (sessionId : JsString) : (r.delete sessionId).1.Unambiguous := by
  cases hget : r.topics.get sessionId with
  | none =>
    rw [TopicRegistry.delete, hget]
    exact h
  | some record =>
    refine h.of_fewer ?_ fun topicId => sessionForTopic_unroute (byTopic_delete hget)
    rw [TopicRegistry.delete, hget]
    exact ambiguousTopicIds_unroute _ _ _

theorem Unambiguous.routeCreated (sessionId topicId : JsString) :
    (r.routeCreated sessionId topicId).Unambiguous := by
  unfold TopicRegistry.routeCreated
  split_ifs with hambiguous
  · exact h
  · intro topic hmem
    change (r.byTopic.erase topicId).get topic = none
    rw [InsertionMap.get_erase]
    split_ifs with heq
    · rfl
    · exact h topic ((mem_addFirst.mp hmem).resolve_right heq)
  · intro topic hmem
    have hne : topic ≠ topicId := fun heq => hambiguous (heq ▸ hmem)
    change (r.byTopic.set topicId sessionId).get topic = none
    rw [InsertionMap.get_set, if_neg hne]
    exact h topic hmem

theorem Unambiguous.commitCreated (sessionId topicId : JsString) (create : InflightCreate) (now : N)
    : (r.commitCreated sessionId topicId create now).1.Unambiguous := by
  have hset : Unambiguous { r with
      topics := r.topics.set sessionId (r.createdRecord sessionId topicId create now) } := h
  unfold TopicRegistry.commitCreated
  simp only
  split_ifs
  · exact hset
  · exact hset.routeCreated sessionId topicId

end

/-- The routes and the records of a session stay what they are. -/
def SameRoutes (r r' : TopicRegistry N) : Prop :=
  r'.topics = r.topics ∧ r'.byTopic = r.byTopic ∧ r'.ambiguousTopicIds = r.ambiguousTopicIds

theorem SameRoutes.failClosed {r r' : TopicRegistry N} (h : SameRoutes r r') :
    r'.FailClosed ↔ r.FailClosed :=
  failClosed_congr h.1 h.2.1

theorem SameRoutes.unambiguous {r r' : TopicRegistry N} (h : SameRoutes r r') :
    r'.Unambiguous ↔ r.Unambiguous := by
  unfold Unambiguous sessionForTopic
  rw [h.2.1, h.2.2]

theorem sameRoutes_getOrCreateTopic (r : TopicRegistry N) (sessionId : JsString)
    (name : Option JsString) : SameRoutes r (r.getOrCreateTopic sessionId name).1 := by
  unfold getOrCreateTopic
  split
  · split_ifs <;> exact ⟨rfl, rfl, rfl⟩
  · split <;> exact ⟨rfl, rfl, rfl⟩

theorem sameRoutes_createRejects (r : TopicRegistry N) (sessionId : JsString) :
    SameRoutes r (r.createRejects sessionId) := by
  unfold createRejects
  split <;> exact ⟨rfl, rfl, rfl⟩

theorem sameRoutes_forgetInflight (r : TopicRegistry N) (sessionId : JsString) :
    SameRoutes r (r.forgetInflight sessionId) := by
  unfold forgetInflight
  split
  · exact ⟨rfl, rfl, rfl⟩
  · split_ifs <;> exact ⟨rfl, rfl, rfl⟩

theorem Unambiguous.note {r : TopicRegistry N} (h : r.Unambiguous) (sessionId : JsString)
    (n : Note N) : (r.note sessionId n).1.Unambiguous := by
  unfold TopicRegistry.note
  split <;> exact h

theorem Unambiguous.settleDelete {r : TopicRegistry N} (h : r.Unambiguous)
    (sessionId topicId : JsString) : (r.settleDelete sessionId topicId).1.Unambiguous := by
  unfold TopicRegistry.settleDelete
  split
  · exact h
  · split_ifs <;> exact h

theorem Unambiguous.createResolves {r : TopicRegistry N} (h : r.Unambiguous)
    (sessionId : JsString) (value : JsValue N) (now : N) :
    (r.createResolves sessionId value now).1.Unambiguous := by
  unfold TopicRegistry.createResolves
  cases r.awaited sessionId with
  | none => exact h
  | some create =>
    have hsettled : (r.settleInflight sessionId create).Unambiguous := h
    cases validTopicId value with
    | none => exact hsettled
    | some topicId => exact hsettled.commitCreated sessionId topicId create now

/-- The operation is no commit of a created topic, or one that `CommitSafe` allows. -/
def RoutesSafely (r : TopicRegistry N) : Operation N → Prop
  | .createResolves sessionId value _ => ∀ create topicId, r.awaited sessionId = some create →
      validTopicId value = some topicId → r.CommitSafe sessionId topicId create
  | _ => True

theorem failClosed_createResolves_iff {r : TopicRegistry N} (hclear : r.Unambiguous)
    (h : r.FailClosed) (sessionId : JsString) (value : JsValue N) (now : N) :
    (r.createResolves sessionId value now).1.FailClosed ↔
      r.RoutesSafely (.createResolves sessionId value now) := by
  show _ ↔ ∀ create topicId, r.awaited sessionId = some create →
    validTopicId value = some topicId → r.CommitSafe sessionId topicId create
  unfold createResolves
  cases r.awaited sessionId with
  | none => exact iff_of_true h fun create topicId hcreate => nomatch hcreate
  | some create =>
    have hsettled : (r.settleInflight sessionId create).FailClosed := h
    have hsettledClear : (r.settleInflight sessionId create).Unambiguous := hclear
    cases validTopicId value with
    | none => exact iff_of_true hsettled fun _ topicId _ htopic => nomatch htopic
    | some topicId =>
      refine (failClosed_commitCreated_iff hsettledClear hsettled create now).trans ?_
      constructor
      · rintro hsafe create' topicId' hcreate htopic
        obtain rfl := some.inj hcreate
        obtain rfl := some.inj htopic
        exact hsafe
      · exact fun hsafe => hsafe create topicId rfl rfl

variable (numbers : JsonNumbers N)

theorem unambiguous_step (r : TopicRegistry N) (op : Operation N) (h : r.Unambiguous) :
    (r.step numbers op).Unambiguous := by
  cases op with
  | load state => exact unambiguous_rebuildInboundRoutes _
  | getOrCreateTopic sessionId name =>
    exact (sameRoutes_getOrCreateTopic r sessionId name).unambiguous.mpr h
  | createResolves sessionId value now => exact h.createResolves sessionId value now
  | createRejects sessionId => exact (sameRoutes_createRejects r sessionId).unambiguous.mpr h
  | forgetInflight sessionId => exact (sameRoutes_forgetInflight r sessionId).unambiguous.mpr h
  | beginDelete sessionId => exact h.beginDelete sessionId
  | settleDelete sessionId topicId => exact h.settleDelete sessionId topicId
  | delete sessionId => exact h.delete sessionId
  | note sessionId n => exact h.note sessionId n

/-- Every operation but the commit of a created topic keeps routes fail-closed, and that
one does where it is safe. -/
theorem failClosed_step_iff {r : TopicRegistry N} (hclear : r.Unambiguous) (h : r.FailClosed)
    (op : Operation N) : (r.step numbers op).FailClosed ↔ r.RoutesSafely op := by
  cases op with
  | createResolves sessionId value now =>
    exact failClosed_createResolves_iff hclear h sessionId value now
  | load state => exact iff_of_true (failClosed_rebuildInboundRoutes _) trivial
  | getOrCreateTopic sessionId name =>
    exact iff_of_true ((sameRoutes_getOrCreateTopic r sessionId name).failClosed.mpr h) trivial
  | createRejects sessionId =>
    exact iff_of_true ((sameRoutes_createRejects r sessionId).failClosed.mpr h) trivial
  | forgetInflight sessionId =>
    exact iff_of_true ((sameRoutes_forgetInflight r sessionId).failClosed.mpr h) trivial
  | beginDelete sessionId => exact iff_of_true (h.beginDelete sessionId) trivial
  | settleDelete sessionId topicId => exact iff_of_true (h.settleDelete sessionId topicId) trivial
  | delete sessionId => exact iff_of_true (h.delete sessionId) trivial
  | note sessionId n => exact iff_of_true (h.note sessionId n) trivial

/-- **Routes are fail-closed in every state of a run exactly if every create that resolves
commits its topic safely.** -/
theorem failClosed_iff_routesSafely (state : TopicRegistryState N) (ops : List (Operation N)) :
    (∀ ops', ops' <+: ops → (Runs.run (step numbers) (create numbers state) ops').FailClosed) ↔
      Runs.Meets (step numbers) RoutesSafely (create numbers state) ops := by
  rw [← Runs.throughout_iff]
  exact Runs.throughout_iff_meets (unambiguous_step numbers)
    (fun r op hclear h => failClosed_step_iff numbers hclear h op)
    (unambiguous_rebuildInboundRoutes _) (failClosed_rebuildInboundRoutes _)

/-- Natural numbers in the place of JavaScript's. -/
def natNumbers : JsonNumbers Nat where
  zero := 0
  safeNat n := if n < 2 ^ 53 then some n else none
  finiteNonNegative _ := true

/-- A session `a` with topic 5. -/
def oneTopicState : TopicRegistryState Nat where
  topics := [(js "a", .object [(js "topicId", .string (js "5"))])]
  fences := []

/-- The topic of `a` is being deleted while one is created for `b`, and Telegram answers
with the same number. -/
def reusedTopicRun : List (Operation Nat) :=
  [.beginDelete (js "a"), .getOrCreateTopic (js "b") none,
    .createResolves (js "b") (.string (js "5")) 1]

theorem reused_topic_routed :
    ¬ (Runs.run (step natNumbers) (create natNumbers oneTopicState) reusedTopicRun).FailClosed := by
  intro h
  have hroute : (Runs.run (step natNumbers) (create natNumbers oneTopicState)
      reusedTopicRun).sessionForTopic (js "5") = some (js "b") := by decide
  have hcarried : ((Runs.run (step natNumbers) (create natNumbers oneTopicState)
      reusedTopicRun).topics.get (js "a")).map TopicRecord.topicId = some (js "5") := by
    decide
  obtain ⟨record, hget, htopic⟩ := Option.map_eq_some_iff.mp hcarried
  exact absurd ((h (js "5") (js "b") hroute).2 (js "a") ⟨record, hget, htopic⟩) (by decide)

end TopicRegistry
end GajaeCode
