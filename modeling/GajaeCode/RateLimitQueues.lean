import Mathlib.Data.List.Range
import Mathlib.Tactic.Ring
import GajaeCode.RateLimitPool

/-! # The queues of the send pool

Items get into the queues by `submit` and out of them by `takeNext`, `removeWhere`,
`removeById` and the replacement in `submit`.  For each there is one lemma that says what
is left, with all queues read as one list.
-/
namespace GajaeCode
open JsString List

namespace RateLimitPool
variable {R T : Type}

variable (p : RateLimitPool R T)

def queued : List (RateLimitItem R T) :=
  LANE_PRIORITY.flatMap fun lane => (p.lanes lane).map QueuedItem.item

/-- The queued items of all lanes but one. -/
def queuedElsewhere (lane : RateLimitLane) : List (RateLimitItem R T) :=
  (LANE_PRIORITY.filter (· ≠ lane)).flatMap fun lane => (p.lanes lane).map QueuedItem.item

theorem perm_filter_lanes {α : Type} (f : RateLimitLane → List α) (lane : RateLimitLane) :
    (LANE_PRIORITY.flatMap f).Perm (f lane ++ (LANE_PRIORITY.filter (· ≠ lane)).flatMap f) := by
  have hperm : LANE_PRIORITY.Perm (lane :: LANE_PRIORITY.filter (· ≠ lane)) := by
    cases lane <;> decide
  exact (hperm.flatMap_right f).trans (by rw [flatMap_cons])

theorem queued_perm (lane : RateLimitLane) :
    p.queued.Perm ((p.lanes lane).map QueuedItem.item ++ p.queuedElsewhere lane) :=
  perm_filter_lanes _ lane

theorem queued_setLane_perm (lane : RateLimitLane) (queue : List (QueuedItem R T)) :
    (p.setLane lane queue).queued.Perm (queue.map QueuedItem.item ++ p.queuedElsewhere lane) := by
  refine (queued_perm _ lane).trans ?_
  have helse : (p.setLane lane queue).queuedElsewhere lane = p.queuedElsewhere lane := by
    unfold queuedElsewhere
    refine flatMap_congr fun other hother => ?_
    have hne : other ≠ lane := by simpa using (mem_filter.mp hother).2
    rw [lanes_setLane, Function.update_of_ne hne]
  rw [helse, lanes_setLane, Function.update_self]

theorem queued_congr {p p' : RateLimitPool R T} (h : p'.lanes = p.lanes) :
    p'.queued = p.queued := by
  unfold queued
  rw [h]

@[simp] theorem queued_settle (p : RateLimitPool R T) (itemId : JsString)
    (disposition : RateLimitDisposition) : (p.settle itemId disposition).queued = p.queued :=
  queued_congr (lanes_settle ..)

theorem mem_queued {p : RateLimitPool R T} {item : RateLimitItem R T} :
    item ∈ p.queued ↔ ∃ lane, ∃ q ∈ p.lanes lane, q.item = item := by
  unfold queued
  simp [mem_LANE_PRIORITY]

section
variable {p : RateLimitPool R T} {lane : RateLimitLane} {i : Nat} {q : QueuedItem R T}
    (h : (p.lanes lane)[i]? = some q)
include h

theorem queued_eraseIdx_perm :
    p.queued.Perm (q.item :: (p.setLane lane ((p.lanes lane).eraseIdx i)).queued) := by
  obtain ⟨hi, rfl⟩ := List.getElem?_eq_some_iff.mp h
  refine (queued_perm p lane).trans ?_
  refine List.Perm.trans ?_ ((queued_setLane_perm p lane _).symm.cons _)
  have hone : (p.lanes lane).Perm ((p.lanes lane)[i] :: (p.lanes lane).eraseIdx i) :=
    (getElem_cons_eraseIdx_perm hi).symm
  exact (hone.map QueuedItem.item).append_right _

theorem queued_set_perm (q' : QueuedItem R T) :
    (q.item :: (p.setLane lane ((p.lanes lane).set i q')).queued).Perm (q'.item :: p.queued) := by
  obtain ⟨hi, rfl⟩ := List.getElem?_eq_some_iff.mp h
  have hset : ((p.lanes lane).set i q').Perm (q' :: (p.lanes lane).eraseIdx i) :=
    List.set_perm_cons_eraseIdx hi q'
  have hone : (p.lanes lane).Perm ((p.lanes lane)[i] :: (p.lanes lane).eraseIdx i) :=
    (getElem_cons_eraseIdx_perm hi).symm
  have hqueue : ((p.lanes lane)[i] :: (p.lanes lane).set i q').Perm (q' :: p.lanes lane) :=
    (hset.cons _).trans ((Perm.swap _ _ _).trans (hone.symm.cons _))
  refine ((queued_setLane_perm p lane _).cons _).trans ?_
  refine Perm.trans ?_ ((queued_perm p lane).symm.cons _)
  exact (hqueue.map QueuedItem.item).append_right _

end

/-! ## What the operations take out -/

/-- Queued items have different ids, and their promises are open. -/
structure OpenIds (p : RateLimitPool R T) : Prop where
  nodup : (p.queued.map RateLimitItem.id).Nodup
  isOpen : ∀ item ∈ p.queued, item.id ∈ p.settlements

/-- What is left of the queue of one pool in another, with all else that counts. -/
theorem OpenIds.of_sublist {p p' : RateLimitPool R T} (h : p.OpenIds)
    {items : List (RateLimitItem R T)} (hitems : items.Sublist p.queued)
    (hqueued : p'.queued.Perm items)
    (hsettlements : ∀ item ∈ items, item.id ∈ p.settlements → item.id ∈ p'.settlements) :
    p'.OpenIds where
  nodup := (hqueued.map _).nodup_iff.mpr (h.nodup.sublist (hitems.map _))
  isOpen item hitem := by
    have hmem := hqueued.mem_iff.mp hitem
    exact hsettlements item hmem (h.isOpen item (hitems.subset hmem))

section RemoveWhere
variable (p : RateLimitPool R T) (items : List (RateLimitItem R T))
  (disposition : RateLimitDisposition)

theorem lanes_foldl_settle :
    (items.foldl (fun p item => p.settle item.id disposition) p).lanes = p.lanes := by
  induction items generalizing p with
  | nil => rfl
  | cons item items ih => exact (ih _).trans (lanes_settle ..)

theorem bucket_foldl_settle :
    (items.foldl (fun p item => p.settle item.id disposition) p).bucket = p.bucket := by
  induction items generalizing p with
  | nil => rfl
  | cons item items ih => exact (ih _).trans (bucket_settle ..)

theorem mem_settlements_foldl_settle (itemId : JsString) :
    itemId ∈ (items.foldl (fun p item => p.settle item.id disposition) p).settlements ↔
      itemId ∈ p.settlements ∧ itemId ∉ items.map RateLimitItem.id := by
  induction items generalizing p with
  | nil => simp
  | cons item items ih =>
    rw [foldl_cons, ih, settlements_settle, map_cons, mem_cons, not_or,
      mem_filter, decide_eq_true_eq, and_assoc]

end RemoveWhere

section
variable {p : RateLimitPool R T} (predicate : RateLimitItem R T → Bool)
  (disposition : RateLimitDisposition)

theorem removed_eq : (p.removeWhere predicate disposition).2 = p.queued.filter predicate := by
  rw [removeWhere, queued, filter_flatMap]

theorem queued_removeWhere : (p.removeWhere predicate disposition).1.queued =
      p.queued.filter fun item => !predicate item := by
  rw [queued, queued, filter_flatMap]
  refine flatMap_congr fun lane _ => ?_
  rw [removeWhere, lanes_foldl_settle, filter_map]
  rfl

theorem queued_removeWhere_perm (p : RateLimitPool R T) (predicate : RateLimitItem R T → Bool)
    (disposition : RateLimitDisposition) : p.queued.Perm ((p.removeWhere predicate disposition).2 ++
      (p.removeWhere predicate disposition).1.queued) := by
  rw [removed_eq, queued_removeWhere]
  exact (filter_append_perm predicate p.queued).symm

theorem bucket_removeWhere : (p.removeWhere predicate disposition).1.bucket = p.bucket :=
  bucket_foldl_settle _ _ _

theorem mem_settlements_removeWhere (itemId : JsString) :
    itemId ∈ (p.removeWhere predicate disposition).1.settlements ↔
      itemId ∈ p.settlements ∧ itemId ∉ (p.queued.filter predicate).map RateLimitItem.id := by
  rw [← removed_eq predicate disposition]
  exact mem_settlements_foldl_settle _ _ _ itemId

theorem OpenIds.removeWhere (h : p.OpenIds) : (p.removeWhere predicate disposition).1.OpenIds := by
  refine h.of_sublist filter_sublist (Perm.of_eq (queued_removeWhere predicate disposition)) ?_
  intro item hitem hopen
  refine (mem_settlements_removeWhere predicate disposition item.id).mpr ⟨hopen, fun hremoved => ?_⟩
  -- an item with the id of a removed one is that one
  obtain ⟨other, hother, hid⟩ := mem_map.mp hremoved
  obtain ⟨hqueued, hkept⟩ := mem_filter.mp hitem
  obtain ⟨hqueued', hgone⟩ := mem_filter.mp hother
  obtain rfl := inj_on_of_nodup_map h.nodup hqueued' hqueued hid
  rw [hgone] at hkept
  cases hkept

end

theorem queued_removeById {p : RateLimitPool R T} (itemId : JsString) :
    p.queued.Perm ((p.removeById itemId).2.toList ++ (p.removeById itemId).1.queued) := by
  unfold removeById
  split
  · next lane i q hfind =>
    obtain ⟨⟨lane', i'⟩, -, hplace⟩ := Option.bind_eq_some_iff.mp hfind
    obtain ⟨q', hget, heq⟩ := Option.map_eq_some_iff.mp hplace
    obtain ⟨rfl, rfl, rfl⟩ : lane' = lane ∧ i' = i ∧ q' = q := by
      simpa using heq
    refine (queued_eraseIdx_perm hget).trans (Perm.of_eq ?_)
    simp only [Option.toList_some, singleton_append]
    rw [queued_settle]
  · exact Perm.refl _

theorem bucket_removeById (itemId : JsString) : (p.removeById itemId).1.bucket = p.bucket := by
  unfold removeById
  split
  · exact bucket_settle ..
  · rfl

theorem OpenIds.removeById {p : RateLimitPool R T} (h : p.OpenIds) (itemId : JsString) :
    (p.removeById itemId).1.OpenIds := by
  have hperm := queued_removeById (p := p) itemId
  have hnodup := (hperm.map RateLimitItem.id).nodup_iff.mp h.nodup
  rw [map_append] at hnodup
  refine ⟨hnodup.of_append_right, fun item hitem => ?_⟩
  have hqueued := hperm.mem_iff.mpr (mem_append_right _ hitem)
  have hopen := h.isOpen item hqueued
  revert hitem hnodup
  unfold RateLimitPool.removeById
  split
  · next lane i q hfind =>
    intro hnodup hitem
    rw [settlements_settle]
    refine mem_filter.mpr ⟨hopen, decide_eq_true fun heq => ?_⟩
    simp only [Option.toList_some, map_cons, map_nil, singleton_append, nodup_cons] at hnodup
    exact hnodup.1 (mem_map.mpr ⟨item, hitem, heq⟩)
  · exact fun _ _ => hopen

theorem OpenIds.settle {p : RateLimitPool R T} (h : p.OpenIds) {itemId : JsString}
    (hid : ∀ item ∈ p.queued, item.id ≠ itemId) (disposition : RateLimitDisposition) :
    (p.settle itemId disposition).OpenIds := by
  refine h.of_sublist (Sublist.refl _) (Perm.of_eq (queued_settle ..)) ?_
  intro item hitem hopen
  rw [settlements_settle]
  exact mem_filter.mpr ⟨hopen, decide_eq_true (hid item hitem)⟩

/-- The queued item that a new one replaces. -/
def existing (item : RateLimitItem R T) : Option (QueuedItem R T) :=
  (p.coalescesWith item).bind fun i => (p.lanes item.lane)[i]?

theorem existing_mem {p : RateLimitPool R T} {item : RateLimitItem R T} {q : QueuedItem R T}
    (h : p.existing item = some q) : q.item ∈ p.queued := by
  obtain ⟨i, -, hget⟩ := Option.bind_eq_some_iff.mp h
  exact mem_queued.mpr ⟨item.lane, q, mem_of_getElem? hget, rfl⟩

section Submit
variable {p : RateLimitPool R T} {item : RateLimitItem R T}

theorem queued_push_perm (p : RateLimitPool R T) (lane : RateLimitLane) (q : QueuedItem R T) :
    (p.setLane lane (p.lanes lane ++ [q])).queued.Perm (q.item :: p.queued) := by
  refine (queued_setLane_perm p lane _).trans ?_
  rw [map_append]
  refine Perm.trans ?_ ((queued_perm p lane).symm.cons _)
  exact (perm_append_singleton _ _).append_right _

theorem submit_cases (p : RateLimitPool R T) (item : RateLimitItem R T) :
    (p.existing item = none ∧ (p.submit item).1.queued.Perm (p.identified item :: p.queued) ∧
        (p.submit item).1.settlements = addFirst p.settlements (p.idFor item)) ∨
      ∃ q, p.existing item = some q ∧
        (q.item :: (p.submit item).1.queued).Perm (p.identified item :: p.queued) ∧
        (p.submit item).1.settlements =
          addFirst (p.settlements.filter (· ≠ q.item.id)) (p.idFor item) := by
  unfold existing submit
  cases hfound : p.coalescesWith item with
  | none => exact .inl ⟨rfl, queued_push_perm _ _ _, rfl⟩
  | some i =>
    simp only [Option.bind_some]
    cases hget : (p.lanes item.lane)[i]? with
    | none => exact .inl ⟨rfl, queued_push_perm _ _ _, rfl⟩
    | some q =>
      refine .inr ⟨q, rfl, ?_, ?_⟩
      · have hperm := queued_set_perm hget { q with item := p.identified item }
        refine Perm.trans (Perm.of_eq (congrArg (q.item :: ·) ?_)) hperm
        refine queued_congr ?_
        show Function.update (settle _ _ _).lanes item.lane _ = _
        rw [lanes_settle]
        rfl
      · show addFirst (settle _ _ _).settlements _ = _
        rw [settlements_settle]

theorem bucket_submit (p : RateLimitPool R T) (item : RateLimitItem R T) :
    (p.submit item).1.bucket = p.bucket := by
  unfold submit
  simp only
  split
  · exact bucket_settle ..
  · rfl

/-- The new item is queued, and the one it replaces is not. -/
theorem queued_submit (p : RateLimitPool R T) (item : RateLimitItem R T) :
    (((p.existing item).toList.map QueuedItem.item) ++ (p.submit item).1.queued).Perm
      (p.identified item :: p.queued) := by
  rcases submit_cases p item with ⟨hnone, hperm, -⟩ | ⟨q, hsome, hperm, -⟩
  · rw [hnone]
    exact hperm
  · rw [hsome]
    exact hperm

theorem id_identified (p : RateLimitPool R T) (item : RateLimitItem R T) :
    (p.identified item).id = p.idFor item := rfl

/-- The id of a new item must be none of those whose promise is open. -/
theorem OpenIds.submit (h : p.OpenIds) (hid : p.idFor item ∉ p.settlements) :
    (p.submit item).1.OpenIds := by
  have hnodup : ((p.identified item :: p.queued).map RateLimitItem.id).Nodup := by
    refine nodup_cons.mpr ⟨fun hmem => ?_, h.nodup⟩
    obtain ⟨other, hother, heq⟩ := mem_map.mp hmem
    have hopen := h.isOpen other hother
    rw [heq] at hopen
    exact hid hopen
  have hopens : ∀ other ∈ p.identified item :: p.queued,
      other.id = p.idFor item ∨ other.id ∈ p.settlements := by
    intro other hother
    rcases mem_cons.mp hother with rfl | hother
    · exact .inl rfl
    · exact .inr (h.isOpen other hother)
  rcases submit_cases p item with ⟨-, hperm, hsettlements⟩ | ⟨q, -, hperm, hsettlements⟩
  · refine ⟨(hperm.map _).nodup_iff.mpr hnodup, fun other hother => ?_⟩
    rw [hsettlements]
    exact mem_addFirst.mpr (hopens other (hperm.mem_iff.mp hother)).symm
  · have hcons := (hperm.map RateLimitItem.id).nodup_iff.mpr hnodup
    rw [map_cons, nodup_cons] at hcons
    refine ⟨hcons.2, fun other hother => ?_⟩
    rw [hsettlements]
    refine mem_addFirst.mpr ?_
    rcases hopens other (hperm.mem_iff.mp (mem_cons_of_mem _ hother)) with hnew | hopen
    · exact .inr hnew
    · refine .inl (mem_filter.mpr ⟨hopen, decide_eq_true fun heq => hcons.1 ?_⟩)
      exact mem_map.mpr ⟨other, hother, heq⟩

end Submit

theorem pickFairIndex_lt (cursor : Nat) {queue : List (QueuedItem R T)} (h : queue ≠ []) :
    (pickFairIndex cursor queue).1 < queue.length := by
  have hpos : 0 < queue.length := length_pos_iff.mpr h
  unfold pickFairIndex
  simp only
  split_ifs with hone
  · exact hpos
  · cases hfound : (range (queuedSessions queue).length).findSome? fun offset =>
        (queue.findIdx? fun q => (queuedSessions queue)[(cursor + offset) %
          (queuedSessions queue).length]? = some q.item.sessionId).map fun i =>
            (i, (cursor + offset + 1) % (queuedSessions queue).length) with
    | none => exact hpos
    | some found =>
      obtain ⟨offset, -, hoffset⟩ := exists_of_findSome?_eq_some hfound
      obtain ⟨i, hi, rfl⟩ := Option.map_eq_some_iff.mp hoffset
      exact (findIdx?_eq_some_iff_findIdx_eq.mp hi).1

/-- One item is taken out of the queues, and nothing else changes that counts. -/
structure TakesOut (p : RateLimitPool R T) (item : RateLimitItem R T) (p' : RateLimitPool R T) :
    Prop where
  queued : p.queued.Perm (item :: p'.queued)
  settlements : p'.settlements = p.settlements
  bucket : p'.bucket = p.bucket

theorem TakesOut.openIds {p p' : RateLimitPool R T} {item : RateLimitItem R T}
    (h : TakesOut p item p') (hopen : p.OpenIds) : p'.OpenIds := by
  have hnodup := (h.queued.map RateLimitItem.id).nodup_iff.mp hopen.nodup
  rw [map_cons, nodup_cons] at hnodup
  refine ⟨hnodup.2, fun other hother => ?_⟩
  rw [h.settlements]
  exact hopen.isOpen other (h.queued.mem_iff.mpr (mem_cons_of_mem _ hother))

/-- `takeFrom` throws for no queued item whose promise is open. -/
theorem takeFrom_cases {p : RateLimitPool R T} (h : p.OpenIds) (lanes : List RateLimitLane) :
    (p.takeFrom lanes = (p, .ok none) ∧ ∀ lane ∈ lanes, p.lanes lane = []) ∨
      ∃ item p', p.takeFrom lanes = (p', .ok (some item)) ∧ TakesOut p item p' := by
  induction lanes with
  | nil => exact .inl ⟨rfl, fun _ hlane => nomatch hlane⟩
  | cons lane lanes ih =>
    rw [takeFrom]
    by_cases hempty : p.lanes lane = []
    · rw [if_pos hempty]
      rcases ih with ⟨htake, hlanes⟩ | htakes
      · exact .inl ⟨htake, forall_mem_cons.mpr ⟨hempty, hlanes⟩⟩
      · exact .inr htakes
    · rw [if_neg hempty]
      right
      have hlt := pickFairIndex_lt (p.laneCursor lane) hempty
      have hget := getElem?_eq_getElem hlt
      have hperm := queued_eraseIdx_perm hget
      have hmem : ((p.lanes lane)[(pickFairIndex (p.laneCursor lane) (p.lanes lane)).1]).item ∈
          p.queued := hperm.mem_iff.mpr mem_cons_self
      simp only [hget]
      refine ⟨_, p.takePicked lane (pickFairIndex (p.laneCursor lane) (p.lanes lane)), ?_,
        hperm, rfl, rfl⟩
      have hopen := h.isOpen _ hmem
      exact Prod.ext rfl (congrArg (Except.map _) (if_pos hopen))

theorem queued_eq_nil {p : RateLimitPool R T} (h : ∀ lane ∈ LANE_PRIORITY, p.lanes lane = []) :
    p.queued = [] := by
  refine flatMap_eq_nil_iff.mpr fun lane hlane => ?_
  rw [h lane hlane, map_nil]

theorem takeNext_cases {p : RateLimitPool R T} (h : p.OpenIds) :
    (p.takeNext = (p, .ok none) ∧ p.queued = []) ∨
      ∃ item p', p.takeNext = (p', .ok (some item)) ∧ TakesOut p item p' :=
  (takeFrom_cases h LANE_PRIORITY).imp_left fun ⟨htake, hlanes⟩ => ⟨htake, queued_eq_nil hlanes⟩

theorem length_queued : p.queued.length = p.pending := by
  simp [queued, pending, length_flatMap]

section Drain
variable [Field R] [LinearOrder R]

theorem queued_refill (p : RateLimitPool R T) (nowMs : R) : (p.refill nowMs).queued = p.queued := by
  unfold refill
  split_ifs <;> rfl

theorem OpenIds.refill {p : RateLimitPool R T} (h : p.OpenIds) (nowMs : R) :
    (p.refill nowMs).OpenIds := by
  unfold RateLimitPool.refill
  split_ifs <;> exact ⟨h.nodup, h.isOpen⟩

/-- What the loop grants, it takes out of the queues at one token each; it stops when
there are no tokens or no items left. -/
structure Grants (p : RateLimitPool R T) (granted : List (RateLimitItem R T))
    (p' : RateLimitPool R T) : Prop where
  queued : p.queued.Perm (granted ++ p'.queued)
  openIds : p'.OpenIds
  capacity : p'.capacity = p.capacity
  refillPerSec : p'.refillPerSec = p.refillPerSec
  lastRefill : p'.lastRefill = p.lastRefill
  tokens : p'.tokens + granted.length = p.tokens
  nonneg : 0 ≤ p.tokens → 0 ≤ p'.tokens
  stops : p'.tokens < 1 ∨ p'.queued = []

variable [IsStrictOrderedRing R]

theorem grantLoop_grants {fuel : Nat} {p : RateLimitPool R T} (h : p.OpenIds)
    (hfuel : p.queued.length < fuel) (granted : List (RateLimitItem R T)) :
    ∃ more p', p.grantLoop fuel granted = (p', .ok (granted ++ more)) ∧ Grants p more p' := by
  induction fuel generalizing p granted with
  | zero => exact absurd hfuel (Nat.not_lt_zero _)
  | succ fuel ih =>
    rw [grantLoop]
    by_cases htokens : 1 ≤ p.tokens
    · rw [if_pos htokens]
      rcases takeNext_cases h with ⟨htake, hempty⟩ | ⟨item, p', htake, htakes⟩
      · rw [htake]
        refine ⟨[], p, by rw [append_nil], ⟨Perm.refl _, h, rfl, rfl, rfl, ?_, id, ?_⟩⟩
        · simp
        · exact .inr hempty
      · rw [htake]
        have hopen : OpenIds { p' with tokens := p'.tokens - 1 } :=
          ⟨(htakes.openIds h).nodup, (htakes.openIds h).isOpen⟩
        have hshorter : p'.queued.length < fuel := by
          have := htakes.queued.length_eq
          rw [length_cons] at this
          omega
        obtain ⟨more, p'', hloop, hgrants⟩ := ih hopen hshorter (granted ++ [item])
        have hbucket := htakes.bucket
        simp only [bucket, Prod.mk.injEq] at hbucket
        obtain ⟨hcapacity, hrefill, htokens', hlast⟩ := hbucket
        refine ⟨item :: more, p'', ?_, ?_⟩
        · rw [append_cons]
          exact hloop
        · refine ⟨?_, hgrants.openIds, hgrants.capacity.trans hcapacity,
            hgrants.refillPerSec.trans hrefill, hgrants.lastRefill.trans hlast, ?_, fun _ => ?_,
            hgrants.stops⟩
          · exact htakes.queued.trans (hgrants.queued.cons item)
          · have hsum : p''.tokens + more.length = p'.tokens - 1 := hgrants.tokens
            rw [length_cons, Nat.cast_succ, ← add_assoc, hsum, htokens']
            ring
          · apply hgrants.nonneg
            show 0 ≤ p'.tokens - 1
            rw [htokens']
            exact sub_nonneg.mpr htokens
    · rw [if_neg htokens]
      refine ⟨[], p, by rw [append_nil], ⟨Perm.refl _, h, rfl, rfl, rfl, ?_, id, ?_⟩⟩
      · simp
      · exact .inl (not_le.mp htokens)

/-- **A drain throws for no pool with open ids**; it reports what has expired and grants
from the rest. -/
theorem drainWithExpired_eq {p : RateLimitPool R T} (h : p.OpenIds) (nowMs : R) :
    ∃ granted p', p.drainWithExpired nowMs =
        (p', .ok ⟨granted, p.queued.filter (isExpired nowMs)⟩) ∧
      Grants ((p.refill nowMs).removeWhere (isExpired nowMs) .expired).1 granted p' := by
  have hopen := (h.refill nowMs).removeWhere (isExpired nowMs) .expired
  obtain ⟨granted, p', hloop, hgrants⟩ :=
    grantLoop_grants hopen (Nat.lt_succ_of_le (length_queued _).le) []
  refine ⟨granted, p', ?_, hgrants⟩
  simp only [drainWithExpired, hloop, removed_eq, queued_refill]
  rfl

end Drain

end RateLimitPool
end GajaeCode
