import Mathlib.Data.List.Induction

/-! # Logs of records by key

A log of records, each about one key, that a reader replays key by key.  A record counts
if the reader accepts it after the last one that counted.  Some records may have been
lost, and the reader knows where: an event of the log is a record or nothing.  What is
lost may have been about any key, so from there on nothing more is accepted for a key
whose last record is not final; a record that is refused spoils its key as well.

A `Track` is what the reader knows of one key.  It depends on the records of that key and
on the losses only (`track_filter`), and once it is unclean it does not change any more.
-/
namespace GajaeCode
open List

/-- How a reader takes the records of a log. -/
structure LogRules (K E : Type) where
  key : E → K
  final : E → Bool
  /-- whether a record may follow the last one of its key -/
  accepts : Option E → E → Bool
  accepts_final : ∀ e e', final e = true → accepts (some e) e' = false

/-- What a reader knows of one key: its last accepted record, and whether something of it
may have been lost or was refused. -/
structure Track (E : Type) where
  latest : Option E
  unclean : Bool

namespace LogRules
variable {K E : Type} [DecidableEq K] (r : LogRules K E)
variable {events : List (Option E)} {t : Track E} {k : K}

/-- The last record of a key is there and leaves something open. -/
def unfinished (latest : Option E) : Bool := latest.any (fun e => !r.final e)

/-- One more event, seen from the key `k`. -/
def step (k : K) (t : Track E) : Option E → Track E
  | none => { t with unclean := t.unclean || r.unfinished t.latest }
  | some e =>
    if r.key e = k then
      if t.unclean || !r.accepts t.latest e then { t with unclean := true }
      else { t with latest := some e }
    else t

/-- What is known of `k` after the events. -/
def track (k : K) (events : List (Option E)) : Track E := events.foldl (r.step k) ⟨none, false⟩

theorem track_append (k : K) (events events' : List (Option E)) :
    r.track k (events ++ events') = events'.foldl (r.step k) (r.track k events) := by
  rw [track, foldl_append]
  rfl

theorem track_append_singleton (k : K) (events : List (Option E)) (event : Option E) :
    r.track k (events ++ [event]) = r.step k (r.track k events) event := by
  rw [track_append]
  rfl

theorem step_other {e : E} (h : r.key e ≠ k) (t : Track E) : r.step k t (some e) = t :=
  if_neg h

theorem step_accept {e : E} (hclean : t.unclean = false) (h : r.accepts t.latest e = true) :
    r.step (r.key e) t (some e) = ⟨some e, false⟩ := by
  obtain ⟨latest, unclean⟩ := t
  subst hclean
  rw [step, if_pos rfl, if_neg (by simpa using h)]

theorem step_refuse {e : E} (h : t.unclean = true ∨ r.accepts t.latest e = false) :
    r.step (r.key e) t (some e) = { t with unclean := true } := by
  rw [step, if_pos rfl, if_pos]
  rcases h with h | h <;> simp [h]

theorem step_lost_of_final (h : r.unfinished t.latest = false) (k : K) : r.step k t none = t := by
  obtain ⟨latest, unclean⟩ := t
  rw [step]
  simp only at h
  simp [h]

theorem step_of_unclean (h : t.unclean = true) (event : Option E) : r.step k t event = t := by
  obtain ⟨latest, unclean⟩ := t
  obtain rfl : unclean = true := h
  cases event with
  | none => rfl
  | some e =>
    by_cases hk : r.key e = k
    · subst hk
      exact r.step_refuse (.inl rfl)
    · exact r.step_other hk _

/-- **Only the records of a key and the losses matter for it.** -/
theorem track_filter (k : K) (events : List (Option E)) :
    r.track k (events.filter (fun event => event.all (fun e => r.key e = k))) =
      r.track k events := by
  induction events using reverseRecOn with
  | nil => rfl
  | append_singleton events event ih =>
    rw [filter_append, track_append_singleton]
    by_cases h : event.all (fun e => r.key e = k) = true
    · rw [filter_cons_of_pos h, filter_nil, track_append_singleton, ih]
    · rw [filter_cons_of_neg h, filter_nil, append_nil, ih]
      cases event with
      | none => exact absurd rfl h
      | some e =>
        have hk : r.key e ≠ k := by simpa using h
        rw [r.step_other hk]

theorem latest_track {e : E} (h : (r.track k events).latest = some e) :
    r.key e = k ∧ some e ∈ events := by
  induction events using reverseRecOn with
  | nil => cases h
  | append_singleton events event ih =>
    rw [track_append_singleton] at h
    have hbefore : (r.track k events).latest = some e →
        r.key e = k ∧ some e ∈ events ++ [event] := fun hlatest =>
      ⟨(ih hlatest).1, mem_append_left _ (ih hlatest).2⟩
    cases event with
    | none => exact hbefore h
    | some e' =>
      by_cases hk : r.key e' = k
      · rw [step, if_pos hk] at h
        split_ifs at h
        · exact hbefore h
        · obtain rfl := Option.some.inj h
          exact ⟨hk, mem_append_right _ (mem_singleton_self _)⟩
      · rw [r.step_other hk] at h
        exact hbefore h

/-- For a key that is unclean the rest of the log is lost. -/
theorem track_append_of_unclean (h : (r.track k events).unclean = true) (more : List (Option E)) :
    r.track k (events ++ more) = r.track k events := by
  rw [track_append]
  generalize r.track k events = t at h
  induction more with
  | nil => rfl
  | cons event more ih => rw [foldl_cons, r.step_of_unclean h, ih]

theorem latest_step_isSome (h : t.latest.isSome = true) (event : Option E) :
    (r.step k t event).latest.isSome = true := by
  cases event with
  | none => exact h
  | some e =>
    rw [step]
    split_ifs
    · exact h
    · rfl
    · exact h

theorem latest_isSome_append (h : (r.track k events).latest.isSome = true) (more : List (Option E))
    : (r.track k (events ++ more)).latest.isSome = true := by
  rw [track_append]
  generalize r.track k events = t at h
  induction more generalizing t with
  | nil => exact h
  | cons event more ih => exact ih _ (r.latest_step_isSome h event)

/-- What is known of a key whose one record is followed by another. -/
theorem track_pair {e e' : E} (he : r.key e = k) (he' : r.key e' = k) (h : r.accepts none e = true)
    (h' : r.accepts (some e) e' = true) : r.track k [some e, some e'] = ⟨some e', false⟩ := by
  subst he
  change r.step _ (r.step _ ⟨none, false⟩ (some e)) (some e') = _
  rw [r.step_accept rfl h, ← he', r.step_accept rfl h']

/-- Records that no reader accepts leave the last record of a key what it was. -/
theorem latest_append_of_refused (events : List (Option E)) {more : List (Option E)}
    (h : ∀ e, some e ∈ more → r.key e = k → ∀ latest, r.accepts latest e = false) :
    (r.track k (events ++ more)).latest = (r.track k events).latest := by
  rw [track_append]
  generalize r.track k events = t
  induction more generalizing t with
  | nil => rfl
  | cons event more ih =>
    rw [foldl_cons, ih (fun e he => h e (mem_cons_of_mem _ he))]
    cases event with
    | none => rfl
    | some e =>
      by_cases hk : r.key e = k
      · have hrefused := h e mem_cons_self hk
        subst hk
        rw [r.step_refuse (.inr (hrefused _))]
      · rw [r.step_other hk]

end LogRules
end GajaeCode
