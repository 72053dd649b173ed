import Mathlib.Data.List.Nodup
import Mathlib.Data.List.Perm.Subperm

/-! # Least-recently-used maps

A map that holds at most `max` keys.  Looking a key up or setting it makes it the
most recent one; setting a new key in a full map drops the least recent.  The
entries are kept most recent first.

The one question a user of such a map has is which keys are safe: a key is, as
long as only few other keys have been used since (`RecentAmong`).
-/
namespace GajaeCode
open scoped List

/-- A map with at most `max` keys, each once, most recent first. -/
structure LruCache (K V : Type) (max : Nat) where
  entries : List (K × V)
  nodup : (entries.map Prod.fst).Nodup
  bounded : entries.length ≤ max

namespace LruCache
variable {K V : Type} {max : Nat}

/-- The map without entries. -/
def empty : LruCache K V max := ⟨[], List.nodup_nil, Nat.zero_le _⟩

variable (c : LruCache K V max)

/-- The keys, most recent first. -/
def keys : List K := c.entries.map Prod.fst

variable [DecidableEq K]

def others (k : K) : List (K × V) := c.entries.filter (fun e => e.1 ≠ k)

/-- The value of a key, recency left as it is. -/
def peek (k : K) : Option V := c.entries.lookup k

theorem others_keys (k : K) : (c.others k).map Prod.fst = c.keys.filter (· ≠ k) := by
  rw [others, keys, List.filter_map]
  rfl

theorem nodup_cons_others (k : K) : (k :: (c.others k).map Prod.fst).Nodup := by
  rw [others_keys]
  exact List.nodup_cons.mpr ⟨by simp, c.nodup.filter _⟩

theorem mem_keys_iff {c : LruCache K V max} {k : K} : k ∈ c.keys ↔ ∃ v, c.peek k = some v := by
  unfold keys peek
  induction c.entries with
  | nil => simp
  | cons e es ih =>
    obtain ⟨k', v'⟩ := e
    by_cases h : k = k'
    · subst h
      simp
    · have hbeq : (k == k') = false := beq_eq_false_iff_ne.mpr h
      simp only [List.map_cons, List.mem_cons, h, false_or, List.lookup_cons, hbeq]
      exact ih

theorem length_others_lt {c : LruCache K V max} {k : K} (h : k ∈ c.keys) :
    (c.others k).length < c.entries.length := by
  obtain ⟨e, he, rfl⟩ := List.mem_map.mp h
  exact List.length_filter_lt_length_iff_exists.mpr ⟨e, he, by simp⟩

/-- Makes a key the most recent one, if it is there.  Together with `peek` this
is a lookup. -/
def touch (k : K) : LruCache K V max :=
  match h : c.peek k with
  | none => c
  | some v =>
    { entries := (k, v) :: c.others k
      nodup := c.nodup_cons_others k
      bounded := Nat.le_trans (length_others_lt (mem_keys_iff.mpr ⟨v, h⟩)) c.bounded }

/-- Sets a key and makes it the most recent one; the least recent key leaves
when there is no room. -/
def set (k : K) (v : V) : LruCache K V max where
  entries := ((k, v) :: c.others k).take max
  nodup := by
    rw [List.map_take]
    exact (c.nodup_cons_others k).sublist (List.take_sublist _ _)
  bounded := List.length_take_le _ _

/-- Changes the value of a key in place. -/
def modify (k : K) (f : V → V) : LruCache K V max where
  entries := c.entries.map (fun e => if e.1 = k then (e.1, f e.2) else e)
  nodup := by
    rw [List.map_map, show Prod.fst ∘ (fun e : K × V => if e.1 = k then (e.1, f e.2) else e) =
      Prod.fst by funext e; simp only [Function.comp]; split <;> rfl]
    exact c.nodup
  bounded := by rw [List.length_map]; exact c.bounded

theorem lookup_filter_ne {es : List (K × V)} {k p : K} (h : k ≠ p) :
    (es.filter (fun e => e.1 ≠ p)).lookup k = es.lookup k := by
  induction es with
  | nil => rfl
  | cons e es ih =>
    obtain ⟨k', v'⟩ := e
    by_cases hp : k' = p
    · subst hp
      have hbeq : (k == k') = false := beq_eq_false_iff_ne.mpr h
      rw [List.filter_cons_of_neg (by simp), List.lookup_cons, hbeq]
      exact ih
    · rw [List.filter_cons_of_pos (by simpa using hp), List.lookup_cons, List.lookup_cons, ih]

theorem peek_touch (p k : K) : (c.touch p).peek k = c.peek k := by
  unfold touch
  split
  · rfl
  · rename_i w hw
    by_cases h : k = p
    · subst h
      have hfirst : ((k, w) :: c.others k).lookup k = some w := by simp
      exact hfirst.trans hw.symm
    · have hbeq : (k == p) = false := beq_eq_false_iff_ne.mpr h
      rw [peek, List.lookup_cons, hbeq]
      exact lookup_filter_ne h

theorem peek_set_empty (hmax : 0 < max) (p k : K) (v : V) :
    ((empty : LruCache K V max).set p v).peek k = if k = p then some v else none := by
  have hentries : ((empty : LruCache K V max).set p v).entries = [(p, v)] :=
    List.take_of_length_le hmax
  rw [peek, hentries, List.lookup_cons]
  by_cases h : k = p
  · rw [if_pos h, beq_iff_eq.mpr h]
  · rw [if_neg h, beq_eq_false_iff_ne.mpr h]
    rfl

/-! ## Which keys are safe -/

/-- The key `k` is present with value `v`, and every more recent key is among
`P`. -/
def RecentAmong (P : List K) (c : LruCache K V max) (k : K) (v : V) : Prop :=
  ∃ newer older, c.entries = newer ++ (k, v) :: older ∧ ∀ e ∈ newer, e.1 ∈ P

section Recent
variable {P : List K} {c : LruCache K V max} {k p : K} {v w : V}
variable {newer older : List (K × V)}

omit [DecidableEq K] in
/-- In a map with distinct keys, the entries before one have other keys. -/
theorem ne_of_mem_newer (h : c.entries = newer ++ (k, v) :: older) {e : K × V} (he : e ∈ newer) :
    e.1 ≠ k := by
  have hnodup := c.nodup
  rw [h, List.map_append, List.map_cons, List.nodup_append] at hnodup
  exact hnodup.2.2 e.1 (List.mem_map_of_mem he) k List.mem_cons_self

theorem lookup_append_of_ne (h : ∀ e ∈ newer, e.1 ≠ k) :
    (newer ++ (k, v) :: older).lookup k = some v := by
  induction newer with
  | nil => simp
  | cons e newer ih =>
    obtain ⟨k', v'⟩ := e
    have hne : k ≠ k' := fun heq => h (k', v') List.mem_cons_self heq.symm
    have hbeq : (k == k') = false := beq_eq_false_iff_ne.mpr hne
    rw [List.cons_append, List.lookup_cons, hbeq]
    exact ih (fun e he => h e (List.mem_cons_of_mem _ he))

theorem RecentAmong.peek (h : RecentAmong P c k v) : c.peek k = some v := by
  obtain ⟨newer, older, hentries, _⟩ := h
  rw [LruCache.peek, hentries]
  exact lookup_append_of_ne (fun e he => ne_of_mem_newer hentries he)

theorem recentAmong_touch_self (h : c.peek k = some v) : RecentAmong P (c.touch k) k v := by
  refine ⟨[], c.others k, ?_, by simp⟩
  unfold touch
  split
  · rename_i hnone
    rw [h] at hnone
    cases hnone
  · rename_i v' hsome
    obtain rfl : v = v' := Option.some.inj (h.symm.trans hsome)
    rfl

theorem others_of_entries (h : c.entries = newer ++ (k, v) :: older) (hp : k ≠ p) :
    c.others p = newer.filter (fun e => e.1 ≠ p) ++ (k, v) :: older.filter (fun e => e.1 ≠ p) := by
  rw [others, h, List.filter_append, List.filter_cons_of_pos (by simpa using hp)]

theorem RecentAmong.touch (h : RecentAmong P c k v) (hp : p ∈ P) :
    RecentAmong P (c.touch p) k v := by
  by_cases heq : k = p
  · subst heq
    exact recentAmong_touch_self h.peek
  · obtain ⟨newer, older, hentries, hnewer⟩ := h
    unfold LruCache.touch
    split
    · exact ⟨newer, older, hentries, hnewer⟩
    · rename_i w _
      refine ⟨(p, w) :: newer.filter (fun e => e.1 ≠ p), older.filter (fun e => e.1 ≠ p), ?_, ?_⟩
      · simp only [others_of_entries hentries heq, List.cons_append]
      · intro e he
        rcases List.mem_cons.mp he with rfl | he
        · exact hp
        · exact hnewer e (List.mem_filter.mp he).1

/-- Setting another key of `P` keeps `k` safe, if `P` fits into the map. -/
theorem RecentAmong.set (h : RecentAmong P c k v) (hp : p ∈ P) (hk : k ∈ P) (hne : k ≠ p)
    (hlen : P.length ≤ max) : RecentAmong P (c.set p w) k v := by
  obtain ⟨newer, older, hentries, hnewer⟩ := h
  have hothers := others_of_entries hentries hne
  -- the keys up to `k` are distinct members of `P`
  have hkeys : (p :: ((newer.filter (fun e => e.1 ≠ p)).map Prod.fst ++ [k])).Nodup := by
    have hnodup := c.nodup_cons_others p
    rw [hothers, List.map_append, List.map_cons] at hnodup
    refine hnodup.sublist (List.Sublist.cons_cons _ ?_)
    exact (List.Sublist.refl _).append (List.Sublist.cons_cons _ (List.nil_sublist _))
  have hsub : (p :: ((newer.filter (fun e => e.1 ≠ p)).map Prod.fst ++ [k])) ⊆ P := by
    intro x hx
    rcases List.mem_cons.mp hx with rfl | hx
    · exact hp
    · rcases List.mem_append.mp hx with hx | hx
      · obtain ⟨e, he, rfl⟩ := List.mem_map.mp hx
        exact hnewer e (List.mem_filter.mp he).1
      · obtain rfl := List.mem_singleton.mp hx
        exact hk
  have hroom : (newer.filter (fun e => e.1 ≠ p)).length + 2 ≤ max := by
    have hle := (List.subperm_of_subset hkeys hsub).length_le
    simp only [List.length_cons, List.length_append, List.length_map, List.length_nil] at hle
    omega
  refine ⟨(p, w) :: newer.filter (fun e => e.1 ≠ p), (older.filter (fun e => e.1 ≠ p)).take
      (max - ((newer.filter (fun e => e.1 ≠ p)).length + 2)), ?_, ?_⟩
  · have hsplit : max = ((p, w) :: newer.filter (fun e => e.1 ≠ p)).length +
        ((max - ((newer.filter (fun e => e.1 ≠ p)).length + 2)) + 1) := by
      rw [List.length_cons]
      omega
    simp only [LruCache.set, hothers]
    rw [← List.cons_append, hsplit, List.take_length_add_append, List.take_succ_cons]
    congr 3
    rw [List.length_cons]
    omega
  · intro e he
    rcases List.mem_cons.mp he with rfl | he
    · exact hp
    · exact hnewer e (List.mem_filter.mp he).1

theorem RecentAmong.modify (h : RecentAmong P c k v) (hne : k ≠ p) (f : V → V) :
    RecentAmong P (c.modify p f) k v := by
  obtain ⟨newer, older, hentries, hnewer⟩ := h
  refine ⟨newer.map (fun e => if e.1 = p then (e.1, f e.2) else e),
    older.map (fun e => if e.1 = p then (e.1, f e.2) else e), ?_, ?_⟩
  · simp only [LruCache.modify, hentries, List.map_append, List.map_cons, if_neg hne]
  · intro e he
    obtain ⟨e', he', rfl⟩ := List.mem_map.mp he
    have hkey : (if e'.1 = p then (e'.1, f e'.2) else e').1 = e'.1 := by
      split <;> rfl
    rw [hkey]
    exact hnewer e' he'

end Recent
end LruCache
end GajaeCode
