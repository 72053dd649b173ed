import Mathlib.Data.List.Basic
import Mathlib.Data.List.Perm.Subperm

/-! # Histories of a server

A server takes clients from a queue.  Its history is the list of its events, the latest
first: each says which client it served, if any, and which clients wait after it.

A history is `Fair` if between two services of a client with none of that client between
them, all others that wait all the time are served.  It is enough to look at each service
when it happens: nobody may wait for longer than the client served has been without
service (`fair_cons`).

A server that goes round its clients serves them in turn if its rounds go on as they
began (`Round.GoesOn`).  The invariant is that who was served while another one waited
comes behind it (`Rotates`).
-/
namespace GajaeCode
open List

structure ServiceEvent (K : Type) where
  served : Option K
  waiting : List K
  deriving DecidableEq

namespace ServiceHistory
variable {K : Type}
variable {history : List (ServiceEvent K)}

/-- Of two consecutive services of a client, whoever waits from one to the other is served
between them. -/
def Fair (history : List (ServiceEvent K)) : Prop :=
  ∀ later second between first earlier client,
    history = later ++ second :: (between ++ first :: earlier) →
    second.served = some client → first.served = some client →
    (∀ event ∈ between, event.served ≠ some client) →
    ∀ other, other ≠ client → (∀ event ∈ first :: between, other ∈ event.waiting) →
      ∃ event ∈ between, event.served = some other

theorem fair_nil : Fair ([] : List (ServiceEvent K)) := by
  intro later second between first earlier client heq
  exact absurd heq.symm (append_ne_nil_of_right_ne_nil _ (cons_ne_nil _ _))

variable [DecidableEq K]

/-- The clients that were served since another one has been waiting for its service. -/
def servedWhileWaiting (other : K) : List (ServiceEvent K) → List K
  | [] => []
  | event :: earlier =>
    if other ∈ event.waiting ∧ event.served ≠ some other then
      event.served.toList ++ servedWhileWaiting other earlier
    else []

/-- Nobody else has been waiting since before the client was served last. -/
def InTurn (history : List (ServiceEvent K)) (client : K) : Prop :=
  ∀ other, other ≠ client → client ∉ servedWhileWaiting other history

/-- The last service of a client counts for one who waits from then on. -/
theorem mem_servedWhileWaiting {client other : K} (hne : other ≠ client)
    {between earlier : List (ServiceEvent K)} {first : ServiceEvent K}
    (hfirst : first.served = some client) (hall : ∀ event ∈ first :: between, other ∈ event.waiting)
    (hother : ∀ event ∈ between, event.served ≠ some other) :
    client ∈ servedWhileWaiting other (between ++ first :: earlier) := by
  obtain ⟨hwaits, hall⟩ := forall_mem_cons.mp hall
  induction between with
  | nil =>
    have hserved : first.served ≠ some other := by
      rw [hfirst]
      exact fun h => hne (Option.some.inj h).symm
    rw [nil_append, servedWhileWaiting, if_pos ⟨hwaits, hserved⟩, hfirst]
    exact mem_cons_self
  | cons event between ih =>
    obtain ⟨hserved, hother⟩ := forall_mem_cons.mp hother
    obtain ⟨hwaiting, hall⟩ := forall_mem_cons.mp hall
    rw [cons_append, servedWhileWaiting, if_pos ⟨hwaiting, hserved⟩]
    exact mem_append_right _ (ih (forall_mem_cons.mpr ⟨hwaits, hall⟩) hother hall)

/-- **A history stays fair if who is served is in turn.** -/
theorem fair_cons {event : ServiceEvent K} (h : Fair history)
    (hturn : ∀ client, event.served = some client → InTurn history client) :
    Fair (event :: history) := by
  intro later second between first earlier client heq hsecond hfirst hnone other hne hall
  cases later with
  | cons e later =>
    obtain ⟨-, hrest⟩ := List.cons.inj heq
    exact h later second between first earlier client hrest hsecond hfirst hnone other hne hall
  | nil =>
    obtain ⟨rfl, rfl⟩ := List.cons.inj heq
    by_contra hcon
    refine hturn client hsecond other hne (mem_servedWhileWaiting hne hfirst hall ?_)
    exact fun e he hserved => hcon ⟨e, he, hserved⟩

/-! ## Rotation -/

/-- The clients that wait, as a server goes round them: those ahead are to be served in this
order, then those behind. -/
structure Round (K : Type) where
  ahead : List K
  behind : List K

namespace Round

def order (r : Round K) : List K := r.ahead ++ r.behind

/-- The client at the head goes behind the others when it is served. -/
def turned (r : Round K) : Option K → Round K
  | none => r
  | some client => ⟨r.ahead.tail, r.behind ++ [client]⟩

/-- After a service, if there was one, the round goes on in its order: clients may have left
those ahead, or those behind if none of these is left behind; new ones join at the end of
those ahead. -/
def GoesOn (r : Round K) (served : Option K) (r' : Round K) : Prop :=
  let due := r.turned served
  let kept := r'.ahead.filter (· ∈ due.order)
  let joined := r'.ahead.filter (· ∉ due.order)
  r'.ahead = kept ++ joined ∧ (joined = [] ∨ served = none) ∧
    (kept <+ due.ahead ∧ r'.behind = due.behind ∨ kept <+ due.order ∧ r'.behind = [])

instance (r : Round K) (served : Option K) (r' : Round K) : Decidable (r.GoesOn served r') :=
  inferInstanceAs (Decidable (_ ∧ _ ∧ _))

omit [DecidableEq K] in
theorem nodup_turned {r : Round K} {served : Option K} (hnodup : r.order.Nodup)
    (hserved : ∀ client ∈ served, r.ahead.head? = some client) : (r.turned served).order.Nodup := by
  cases served with
  | none => exact hnodup
  | some s =>
    obtain ⟨rest, hahead⟩ := head?_eq_some_iff.mp (hserved s rfl)
    rw [order, hahead, cons_append] at hnodup
    rw [order, turned, hahead, tail_cons, ← append_assoc]
    exact (perm_append_singleton s _).nodup_iff.mpr hnodup

end Round

/-- Who was served while another one waited comes behind it in the round. -/
def Comes (r : Round K) (other client : K) : Prop :=
  [other, client] <+ r.order ∨ client ∉ r.order ∧ other ∈ r.ahead

def Rotates (history : List (ServiceEvent K)) (r : Round K) : Prop :=
  ∀ other client, client ∈ servedWhileWaiting other history → Comes r other client

omit [DecidableEq K] in
/-- In a list without repetitions two elements of a part stand as in the whole. -/
theorem pair_sublist_of_sublist {l l' : List K} {x y : K} (hsub : l' <+ l) (hnodup : l.Nodup)
    (hpair : [x, y] <+ l) (hx : x ∈ l') (hy : y ∈ l') : [x, y] <+ l' := by
  classical
  have hpart : l' = l.filter (· ∈ l') := by
    have hfilter := hsub.filter (· ∈ l')
    rw [filter_eq_self.mpr (by simp)] at hfilter
    have hsubset : l.filter (· ∈ l') ⊆ l' := fun k hk => of_decide_eq_true (mem_filter.mp hk).2
    exact hfilter.eq_of_length_le (subperm_of_subset (hnodup.filter _) hsubset).length_le
  have hkept := hpair.filter (· ∈ l')
  rwa [filter_eq_self.mpr (by simp [hx, hy]), ← hpart] at hkept

theorem Rotates.inTurn {r : Round K} {client : K} (h : Rotates history r) (hnodup : r.order.Nodup)
    (hhead : r.ahead.head? = some client) : InTurn history client := by
  obtain ⟨rest, hahead⟩ := head?_eq_some_iff.mp hhead
  intro other hne hmem
  have horder : r.order = client :: (rest ++ r.behind) := by rw [Round.order, hahead, cons_append]
  rw [horder, nodup_cons] at hnodup
  rcases h other client hmem with hpair | ⟨hnot, -⟩
  · rw [horder] at hpair
    rcases cons_sublist_cons'.mp hpair with hpair | ⟨rfl, -⟩
    · exact hnodup.1 (hpair.subset (by simp))
    · exact hne rfl
  · exact hnot (horder ▸ mem_cons_self)

/-- The client served goes behind everyone it was served before. -/
theorem Rotates.turned {r : Round K} {event : ServiceEvent K} (h : Rotates history r)
    (hserved : ∀ client ∈ event.served, r.ahead.head? = some client) {other client : K}
    (hmem : client ∈ servedWhileWaiting other (event :: history))
    (hother : event.served = none ∨ other ∈ (r.turned event.served).order) :
    Comes (r.turned event.served) other client := by
  rw [servedWhileWaiting] at hmem
  split at hmem
  case isFalse => exact absurd hmem not_mem_nil
  case isTrue hwaits =>
    cases hevent : event.served with
    | none =>
      rw [hevent] at hmem
      exact h other client hmem
    | some s =>
      obtain ⟨rest, hahead⟩ := head?_eq_some_iff.mp (hserved s hevent)
      have horder : r.order = s :: (rest ++ r.behind) := by rw [Round.order, hahead, cons_append]
      have hne : other ≠ s := fun heq => hwaits.2 (heq ▸ hevent)
      have hturned : (r.turned (some s)).order = rest ++ r.behind ++ [s] := by
        rw [Round.order, Round.turned, hahead, tail_cons, append_assoc]
      rw [hevent, mem_append, Option.mem_toList, Option.some.injEq] at hmem
      rcases hmem with rfl | hmem
      · left
        rw [hevent, hturned] at hother
        have hrest : other ∈ rest ++ r.behind := by
          rcases hother with hother | hother
          · cases hother
          · exact (mem_append.mp hother).resolve_right fun h => hne (mem_singleton.mp h)
        rw [hturned]
        exact (singleton_sublist.mpr hrest).append (Sublist.refl [s])
      · rcases h other client hmem with hpair | ⟨hnot, hin⟩
        · left
          rw [horder] at hpair
          rw [hturned]
          exact ((cons_sublist_cons'.mp hpair).resolve_right fun heq => hne heq.1).trans
            (sublist_append_left _ _)
        · right
          rw [horder, mem_cons, not_or] at hnot
          rw [hahead] at hin
          refine ⟨?_, ?_⟩
          · rw [hturned, mem_append, mem_singleton, not_or]
            exact ⟨hnot.2, hnot.1⟩
          · rw [Round.turned, hahead]
            exact (mem_cons.mp hin).resolve_left hne

section
variable {due r' : Round K} {kept joined : List K} {other client : K}
    (hahead : r'.ahead = kept ++ joined) (hnew : ∀ k ∈ joined, k ∉ due.order)
    (hplace : kept <+ due.ahead ∧ r'.behind = due.behind ∨ kept <+ due.order ∧ r'.behind = [])
omit [DecidableEq K]

include hplace in
/-- Those that are left stand as they are due. -/
theorem left_sublist : kept ++ r'.behind <+ due.order := by
  rcases hplace with ⟨hsub, hbehind⟩ | ⟨hsub, hbehind⟩
  · rw [hbehind]
    exact hsub.append (Sublist.refl _)
  · rwa [hbehind, append_nil]

include hplace in
/-- Where the client has left, or is not back yet, who waited is ahead. -/
theorem mem_ahead_of_not_mem (hnodup : due.order.Nodup) (hcomes : Comes due other client)
    (hother : other ∈ r'.order) (hclient : client ∉ r'.order) : other ∈ r'.ahead := by
  refine (mem_append.mp hother).resolve_right fun hback => ?_
  rcases hplace with ⟨-, hbehind⟩ | ⟨-, hbehind⟩
  · rw [hbehind] at hback
    have hdisjoint := fun hfront => (nodup_append.mp hnodup).2.2 other hfront other hback rfl
    rcases hcomes with hpair | ⟨-, hfront⟩
    · obtain ⟨l₁, l₂, heq, h₁, h₂⟩ := sublist_append_iff.mp hpair
      cases l₁ with
      | nil =>
        refine hclient (mem_append_right _ (hbehind ▸ h₂.subset ?_))
        rw [nil_append] at heq
        simp [← heq]
      | cons k l₁ =>
        obtain ⟨rfl, -⟩ := List.cons.inj heq
        exact hdisjoint (h₁.subset mem_cons_self)
    · exact hdisjoint hfront
  · rw [hbehind] at hback
    exact not_mem_nil hback

include hahead

theorem left_or_joined {k : K} (hk : k ∈ r'.order) : k ∈ kept ++ r'.behind ∨ k ∈ joined := by
  rw [Round.order, hahead, mem_append, mem_append] at hk
  rw [mem_append]
  tauto

include hnew hplace

/-- Who is due ahead and is left stands ahead still. -/
theorem mem_kept_of_ahead (hnodup : due.order.Nodup)
    (hfront : other ∈ due.ahead) (hother : other ∈ r'.order) : other ∈ kept := by
  rcases left_or_joined hahead hother with hk | hk
  · refine (mem_append.mp hk).resolve_right fun hk => ?_
    rcases hplace with ⟨-, hbehind⟩ | ⟨-, hbehind⟩
    · exact (nodup_append.mp hnodup).2.2 other hfront other (hbehind ▸ hk) rfl
    · exact not_mem_nil (hbehind ▸ hk)
  · exact absurd (mem_append_left _ hfront) (hnew other hk)

/-- A client that is there comes behind who waited: it has been there, or it has joined. -/
theorem pair_of_mem (hnodup : due.order.Nodup) (hcomes : Comes due other client)
    (hother : other ∈ r'.order) (hclient : client ∈ r'.order) : [other, client] <+ r'.order := by
  have hleft := left_sublist hplace
  rcases hcomes with hpair | ⟨hnot, hfront⟩
  · have hstays : ∀ k ∈ [other, client], k ∈ r'.order → k ∈ kept ++ r'.behind := fun k hk hk' =>
      (left_or_joined hahead hk').resolve_right fun hj => hnew k hj (hpair.subset hk)
    refine (pair_sublist_of_sublist hleft hnodup hpair (hstays other (by simp) hother)
      (hstays client (by simp) hclient)).trans ?_
    rw [Round.order, hahead]
    exact (sublist_append_left _ _).append (Sublist.refl _)
  · have hjoins : client ∈ joined :=
      (left_or_joined hahead hclient).resolve_left fun hk => hnot (hleft.subset hk)
    have hold := mem_kept_of_ahead hahead hnew hplace hnodup hfront hother
    rw [Round.order, hahead]
    exact ((singleton_sublist.mpr hold).append (singleton_sublist.mpr hjoins)).trans
      (sublist_append_left _ _)

end

/-- **Rounds that go on serve in turn**: the invariant is kept by an event. -/
theorem Rotates.step {r r' : Round K} {event : ServiceEvent K} (h : Rotates history r)
    (hnodup : r.order.Nodup) (hserved : ∀ client ∈ event.served, r.ahead.head? = some client)
    (hwaiting : ∀ k ∈ event.waiting, k ∈ r'.order) (hon : r.GoesOn event.served r') :
    Rotates (event :: history) r' := by
  obtain ⟨hahead, hjoined, hplace⟩ := hon
  replace hnodup := Round.nodup_turned hnodup hserved
  have hnew : ∀ k ∈ r'.ahead.filter (· ∉ (r.turned event.served).order),
      k ∉ (r.turned event.served).order := fun k hk => by simpa using (mem_filter.mp hk).2
  intro other client hmem
  have hother : other ∈ r'.order := by
    rw [servedWhileWaiting] at hmem
    split at hmem
    case isTrue hwaits => exact hwaiting other hwaits.1
    case isFalse => exact absurd hmem not_mem_nil
  have hcomes : Comes (r.turned event.served) other client := by
    refine h.turned hserved hmem (hjoined.symm.imp id fun hnone => ?_)
    exact (left_sublist hplace).subset
      ((left_or_joined hahead hother).resolve_right fun hk => not_mem_nil (hnone ▸ hk))
  by_cases hclient : client ∈ r'.order
  · exact .inl (pair_of_mem hahead hnew hplace hnodup hcomes hother hclient)
  · exact .inr ⟨hclient, mem_ahead_of_not_mem hplace hnodup hcomes hother hclient⟩

end ServiceHistory
end GajaeCode
