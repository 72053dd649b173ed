import Mathlib.Data.List.Nodup
import Mathlib.Data.List.Perm.Basic
import Mathlib.Data.List.Induction

/-! # Maps in insertion order

A map whose keys are listed in the order in which they were first set, as the `Map` of
JavaScript lists them.  Setting a key again replaces its value in place.

The keys after a sequence of settings are the first occurrences in it (`firsts`), so two
such sequences can be compared key by key and their listings follow.
-/
namespace GajaeCode
open List

/-- A map with its keys, each once, in the order they were first set. -/
structure InsertionMap (K V : Type) where
  entries : List (K × V)
  nodup : (entries.map Prod.fst).Nodup

section Firsts
variable {K : Type} [DecidableEq K]
variable {ks : List K}

/-- Adds a key at the end, unless it is there. -/
def addFirst (ks : List K) (k : K) : List K := if k ∈ ks then ks else ks ++ [k]

def firsts (ks : List K) : List K := ks.foldl addFirst []

@[simp] theorem firsts_nil : firsts ([] : List K) = [] := rfl

theorem firsts_append_singleton (ks : List K) (k : K) :
    firsts (ks ++ [k]) = addFirst (firsts ks) k := by
  rw [firsts, foldl_append]
  rfl

@[simp] theorem mem_addFirst {k k' : K} : k' ∈ addFirst ks k ↔ k' ∈ ks ∨ k' = k := by
  unfold addFirst
  by_cases h : k ∈ ks
  · rw [if_pos h]
    constructor
    · exact .inl
    · rintro (h' | rfl)
      · exact h'
      · exact h
  · rw [if_neg h, mem_append, mem_singleton]

@[simp] theorem mem_firsts {k : K} : k ∈ firsts ks ↔ k ∈ ks := by
  induction ks using reverseRecOn with
  | nil => rfl
  | append_singleton ks k' ih =>
    rw [firsts_append_singleton, mem_addFirst, ih, mem_append, mem_singleton]

theorem filter_addFirst (p : K → Bool) (ks : List K) (k : K) :
    (addFirst ks k).filter p = if p k then addFirst (ks.filter p) k else ks.filter p := by
  unfold addFirst
  by_cases hk : p k = true
  · by_cases hmem : k ∈ ks
    · rw [if_pos hmem, if_pos hk, if_pos (mem_filter.mpr ⟨hmem, hk⟩)]
    · have hnot : k ∉ ks.filter p := fun h => hmem (mem_filter.mp h).1
      rw [if_neg hmem, if_pos hk, if_neg hnot, filter_append, filter_cons_of_pos hk, filter_nil]
  · rw [if_neg hk]
    split_ifs
    · rfl
    · rw [filter_append, filter_cons_of_neg hk, filter_nil, append_nil]

theorem filter_firsts (p : K → Bool) (ks : List K) :
    (firsts ks).filter p = firsts (ks.filter p) := by
  induction ks using reverseRecOn with
  | nil => rfl
  | append_singleton ks k ih =>
    rw [firsts_append_singleton, filter_addFirst, ih, filter_append]
    by_cases hk : p k = true
    · rw [if_pos hk, filter_cons_of_pos hk, filter_nil, firsts_append_singleton]
    · rw [if_neg hk, filter_cons_of_neg hk, filter_nil, append_nil]

/-- Leaving out elements whose key has occurred before does not change the first
occurrences. -/
theorem firsts_map_filter {E : Type} (key : E → K) (q : E → Bool) (es : List E)
    (h : ∀ before e after, es = before ++ e :: after → q e = false → key e ∈ before.map key) :
    firsts ((es.filter q).map key) = firsts (es.map key) := by
  induction es using reverseRecOn with
  | nil => rfl
  | append_singleton es e ih =>
    have hes : firsts ((es.filter q).map key) = firsts (es.map key) := by
      apply ih
      rintro before e' after rfl hq
      exact h before e' (after ++ [e]) (by simp) hq
    rw [filter_append, map_append, map_append, map_singleton, firsts_append_singleton]
    by_cases hq : q e = true
    · rw [filter_cons_of_pos hq, filter_nil, map_singleton, firsts_append_singleton, hes]
    · have hmem : key e ∈ es.map key := h es e [] rfl (Bool.not_eq_true _ ▸ hq)
      rw [filter_cons_of_neg hq, filter_nil, map_nil, append_nil, hes,
        addFirst, if_pos (mem_firsts.mpr hmem)]

end Firsts

namespace InsertionMap
variable {K V : Type}
variable {m : InsertionMap K V}
variable {m' : InsertionMap K V} {W : Type} {k : K} {v : V}

def empty : InsertionMap K V := ⟨[], List.nodup_nil⟩

/-- The keys, in the order they were first set. -/
def keys (m : InsertionMap K V) : List K := m.entries.map Prod.fst

/-- The values, in the order of their keys. -/
def values (m : InsertionMap K V) : List V := m.entries.map Prod.snd

variable [DecidableEq K]

def get (m : InsertionMap K V) (k : K) : Option V := m.entries.lookup k

/-- Sets a key: in place if it is there, at the end otherwise. -/
def setEntries (es : List (K × V)) (k : K) (v : V) : List (K × V) :=
  match es with
  | [] => [(k, v)]
  | e :: es => if e.1 = k then (k, v) :: es else e :: setEntries es k v

theorem keys_setEntries (es : List (K × V)) (k : K) (v : V) :
    (setEntries es k v).map Prod.fst = addFirst (es.map Prod.fst) k := by
  unfold addFirst
  induction es with
  | nil => rfl
  | cons e es ih =>
    rw [setEntries]
    by_cases he : e.1 = k
    · rw [if_pos he, if_pos (by simp [he]), map_cons, map_cons, he]
    · rw [if_neg he, map_cons, ih]
      have hmem : k ∈ (e :: es).map Prod.fst ↔ k ∈ es.map Prod.fst := by
        rw [map_cons, mem_cons, or_iff_right (Ne.symm he)]
      by_cases hk : k ∈ es.map Prod.fst
      · rw [if_pos hk, if_pos (hmem.mpr hk), map_cons]
      · rw [if_neg hk, if_neg (fun h => hk (hmem.mp h)), map_cons, cons_append]

theorem nodup_addFirst {ks : List K} (h : ks.Nodup) (k : K) : (addFirst ks k).Nodup := by
  unfold addFirst
  by_cases hk : k ∈ ks
  · rwa [if_pos hk]
  · rw [if_neg hk]
    exact nodup_append.mpr ⟨h, nodup_singleton k, fun a ha b hb hab =>
      hk (mem_singleton.mp hb ▸ hab ▸ ha)⟩

theorem nodup_firsts (ks : List K) : (firsts ks).Nodup := by
  induction ks using reverseRecOn with
  | nil => exact nodup_nil
  | append_singleton ks k ih => exact firsts_append_singleton ks k ▸ nodup_addFirst ih k

def set (m : InsertionMap K V) (k : K) (v : V) : InsertionMap K V where
  entries := setEntries m.entries k v
  nodup := keys_setEntries m.entries k v ▸ nodup_addFirst m.nodup k

@[simp] theorem keys_set (m : InsertionMap K V) (k : K) (v : V) :
    (m.set k v).keys = addFirst m.keys k :=
  keys_setEntries m.entries k v

@[simp] theorem get_empty (k : K) : (empty : InsertionMap K V).get k = none := rfl

theorem get_set (m : InsertionMap K V) (k k' : K) (v : V) :
    (m.set k v).get k' = if k' = k then some v else m.get k' := by
  change (setEntries m.entries k v).lookup k' = if k' = k then some v else m.entries.lookup k'
  induction m.entries with
  | nil =>
    rw [setEntries, lookup_cons]
    by_cases h : k' = k
    · rw [h, beq_self_eq_true, if_pos rfl]
    · rw [beq_eq_false_iff_ne.mpr h, if_neg h]
  | cons e es ih =>
    rw [setEntries]
    by_cases he : e.1 = k
    · rw [if_pos he]
      by_cases h : k' = k
      · subst h
        simp
      · have hk : (k' == k) = false := beq_eq_false_iff_ne.mpr h
        have hk' : (k' == e.1) = false := beq_eq_false_iff_ne.mpr (he ▸ h)
        rw [if_neg h, lookup_cons, lookup_cons, hk, hk']
    · rw [if_neg he, lookup_cons, lookup_cons, ih]
      by_cases h : k' = k
      · have hk' : (k' == e.1) = false := beq_eq_false_iff_ne.mpr (h ▸ Ne.symm he)
        rw [hk', if_pos h]
      · rw [if_neg h, if_neg h]

theorem get_of_mem_entries {e : K × V} (h : e ∈ m.entries) : m.get e.1 = some e.2 := by
  obtain ⟨entries, nodup⟩ := m
  change entries.lookup e.1 = some e.2
  change e ∈ entries at h
  induction entries with
  | nil => exact absurd h not_mem_nil
  | cons e' es ih =>
    rw [map_cons, nodup_cons] at nodup
    rw [lookup_cons]
    rcases mem_cons.mp h with rfl | hmem
    · rw [beq_self_eq_true]
    · have hne : e.1 ≠ e'.1 := fun heq => nodup.1 (heq ▸ mem_map_of_mem hmem)
      rw [beq_eq_false_iff_ne.mpr hne]
      exact ih nodup.2 hmem

theorem mem_entries_iff : (k, v) ∈ m.entries ↔ m.get k = some v := by
  refine ⟨fun h => get_of_mem_entries h, fun h => ?_⟩
  obtain ⟨before, after, hentries, -⟩ := lookup_eq_some_iff.mp h
  rw [hentries]
  exact mem_append_right _ mem_cons_self

theorem get_eq_none (h : k ∉ m.keys) : m.get k = none := by
  apply lookup_eq_none_iff.mpr
  intro e he
  exact bne_iff_ne.mpr fun heq => h (heq ▸ mem_map_of_mem he)

theorem mem_keys_of_get (h : m.get k = some v) : k ∈ m.keys :=
  mem_map_of_mem (mem_entries_iff.mpr h)

def erase (m : InsertionMap K V) (k : K) : InsertionMap K V where
  entries := m.entries.filter (fun e => e.1 ≠ k)
  nodup := m.nodup.sublist (List.filter_sublist.map Prod.fst)

theorem get_erase (m : InsertionMap K V) (k k' : K) :
    (m.erase k).get k' = if k' = k then none else m.get k' := by
  by_cases h : k' = k
  · rw [if_pos h]
    apply get_eq_none
    intro hmem
    obtain ⟨e, he, hk⟩ := mem_map.mp hmem
    exact absurd (hk.trans h) (by simpa using (mem_filter.mp he).2)
  · rw [if_neg h]
    apply Option.ext
    intro v
    rw [← mem_entries_iff, ← mem_entries_iff, erase, mem_filter]
    exact and_iff_left (by simpa using h)

theorem get_foldl_erase (m : InsertionMap K V) (ks : List K) (k : K) :
    (ks.foldl erase m).get k = if k ∈ ks then none else m.get k := by
  induction ks generalizing m with
  | nil => rfl
  | cons k' ks ih =>
    rw [foldl_cons, ih, get_erase]
    by_cases hk : k = k'
    · simp [hk]
    · simp [hk]

/-- Every entry of one map set in another. -/
def union (m m' : InsertionMap K V) : InsertionMap K V :=
  m'.entries.foldl (fun m item => m.set item.1 item.2) m

theorem get_union (m m' : InsertionMap K V) (k : K) :
    (m.union m').get k = (m'.get k).or (m.get k) := by
  obtain ⟨entries, nodup⟩ := m'
  change (entries.foldl _ m).get k = (entries.lookup k).or (m.get k)
  induction entries generalizing m with
  | nil => rfl
  | cons item items ih =>
    rw [map_cons, nodup_cons] at nodup
    rw [foldl_cons, ih _ nodup.2, lookup_cons, get_set]
    by_cases hk : k = item.1
    · have hlast : items.lookup k = none := by
        refine lookup_eq_none_iff.mpr fun item' hitem' => bne_iff_ne.mpr fun heq => nodup.1 ?_
        rw [← hk, heq]
        exact mem_map_of_mem hitem'
      rw [hlast, if_pos hk, beq_iff_eq.mpr hk]
      rfl
    · rw [if_neg hk, beq_eq_false_iff_ne.mpr hk]

/-! ## Listings -/

/-- If every entry lists elements of its key, the elements of one key are those its entry
lists. -/
theorem filter_flatMap {E : Type} {key : E → K} (f : K × V → List E)
    (h : ∀ item ∈ m.entries, ∀ e ∈ f item, key e = item.1) (k : K) :
    (m.entries.flatMap f).filter (fun e => key e = k) =
      ((m.get k).map fun v => f (k, v)).getD [] := by
  obtain ⟨entries, nodup⟩ := m
  change (entries.flatMap f).filter _ = ((entries.lookup k).map _).getD []
  change ∀ item ∈ entries, ∀ e ∈ f item, key e = item.1 at h
  induction entries with
  | nil => rfl
  | cons item items ih =>
    rw [map_cons, nodup_cons] at nodup
    obtain ⟨hitem, hitems⟩ := forall_mem_cons.mp h
    rw [flatMap_cons, filter_append, ih nodup.2 hitems, lookup_cons]
    by_cases hk : k = item.1
    · have hnone : items.lookup k = none := lookup_eq_none_iff.mpr fun other hother =>
        bne_iff_ne.mpr fun heq => nodup.1 (hk ▸ heq ▸ mem_map_of_mem hother)
      have hall : (f item).filter (fun e => key e = k) = f item :=
        filter_eq_self.mpr fun e he => by simp [hitem e he, hk]
      rw [hnone, hall, hk, beq_self_eq_true]
      simp
    · have hnil : (f item).filter (fun e => key e = k) = [] :=
        filter_eq_nil_iff.mpr fun e he => by simp [hitem e he, Ne.symm hk]
      rw [hnil, beq_eq_false_iff_ne.mpr hk, nil_append]

/-- The first value with a property, after a key was set: the new value, the first one
before, or a later one, since the value that was replaced was the first. -/
theorem find?_values_set {r : V} {p : V → Bool} (h : (m.set k v).values.find? p = some r) :
    r = v ∨ m.values.find? p = some r ∨
      ∃ w, m.get k = some w ∧ m.values.find? p = some w ∧ p v = false := by
  obtain ⟨entries, nodup⟩ := m
  change ((setEntries entries k v).map Prod.snd).find? p = some r at h
  change r = v ∨ (entries.map Prod.snd).find? p = some r ∨
    ∃ w, entries.lookup k = some w ∧ (entries.map Prod.snd).find? p = some w ∧ p v = false
  clear nodup
  induction entries with
  | nil =>
    rw [setEntries, map_singleton, find?_singleton] at h
    split_ifs at h
    exact .inl (Option.some.inj h).symm
  | cons e es ih =>
    rw [setEntries] at h
    rw [map_cons, find?_cons, lookup_cons]
    by_cases he : e.1 = k
    · rw [if_pos he, map_cons, find?_cons] at h
      have hk : (k == e.1) = true := beq_iff_eq.mpr he.symm
      rw [hk]
      cases hv : p v with
      | true =>
        rw [hv] at h
        exact .inl (Option.some.inj h).symm
      | false =>
        rw [hv] at h
        cases he' : p e.2 with
        | true => exact .inr (.inr ⟨e.2, rfl, rfl, rfl⟩)
        | false => exact .inr (.inl h)
    · rw [if_neg he, map_cons, find?_cons] at h
      have hk : (k == e.1) = false := beq_eq_false_iff_ne.mpr (Ne.symm he)
      rw [hk]
      cases he' : p e.2 with
      | true =>
        rw [he'] at h
        exact .inr (.inl h)
      | false =>
        rw [he'] at h
        exact ih h

/-- Changes the values, with the keys in their places. -/
def mapValues (m : InsertionMap K V) (f : V → V) : InsertionMap K V where
  entries := m.entries.map fun e => (e.1, f e.2)
  nodup := by
    rw [List.map_map]
    exact m.nodup

theorem get_mapValues (m : InsertionMap K V) (f : V → V) (k : K) :
    (m.mapValues f).get k = (m.get k).map f := by
  change (m.entries.map fun e => (e.1, f e.2)).lookup k = (m.entries.lookup k).map f
  induction m.entries with
  | nil => rfl
  | cons e es ih =>
    rw [map_cons, lookup_cons, lookup_cons]
    by_cases h : k = e.1
    · simp [h]
    · simp [beq_eq_false_iff_ne.mpr h, ih]

/-- A listing of the values is one of the keys, looked up one by one. -/
theorem filterMap_values (m : InsertionMap K V) (f : V → Option W) :
    m.values.filterMap f = m.keys.filterMap (fun k => (m.get k).bind f) := by
  rw [values, keys, filterMap_map, filterMap_map]
  apply filterMap_congr
  intro e he
  change f e.2 = (m.get e.1).bind f
  rw [get_of_mem_entries he, Option.bind_some]

/-- Two maps that show the same at every key list the same values, in an order of their
own. -/
theorem filterMap_values_perm {f : V → Option W} (h : ∀ k, (m.get k).bind f = (m'.get k).bind f) :
    (m.values.filterMap f).Perm (m'.values.filterMap f) := by
  set g : K → Option W := fun k => (m.get k).bind f with hg
  have hg' : (fun k => (m'.get k).bind f) = g := funext fun k => (h k).symm
  have hshown : ∀ ks : List K,
      ks.filterMap g = (ks.filter (fun k => (g k).isSome)).filterMap g := by
    intro ks
    rw [filterMap_filter]
    apply filterMap_congr
    intro k _
    cases g k <;> rfl
  rw [filterMap_values, filterMap_values, hg', hshown m.keys, hshown m'.keys]
  apply Perm.filterMap
  apply (perm_ext_iff_of_nodup (m.nodup.filter _) (m'.nodup.filter _)).mpr
  intro k
  change k ∈ m.keys.filter _ ↔ k ∈ m'.keys.filter _
  have hmem : ∀ m'' : InsertionMap K V, (∀ k, (m''.get k).bind f = g k) →
      (k ∈ m''.keys.filter (fun k => (g k).isSome) ↔ (g k).isSome = true) := by
    intro m'' hm''
    rw [mem_filter, and_iff_right_iff_imp]
    intro hsome
    by_contra hk
    rw [← hm'', get_eq_none hk] at hsome
    exact absurd hsome Bool.false_ne_true
  rw [hmem m (fun _ => rfl), hmem m' (fun k => (h k).symm)]

/-- If the keys that show something come in the same order, so do the values. -/
theorem filterMap_values_eq {f : V → Option W} (p : K → Bool)
    (hkeys : m.keys.filter p = m'.keys.filter p) (h : ∀ k, (m.get k).bind f = (m'.get k).bind f)
    (hhidden : ∀ k, p k = false → (m.get k).bind f = none) :
    m.values.filterMap f = m'.values.filterMap f := by
  have hshown : ∀ ks : List K, ks.filterMap (fun k => (m.get k).bind f) =
      (ks.filter p).filterMap (fun k => (m.get k).bind f) := by
    intro ks
    rw [filterMap_filter]
    apply filterMap_congr
    intro k _
    by_cases hp : p k = true
    · rw [if_pos hp]
    · rw [if_neg hp, hhidden k (Bool.not_eq_true _ ▸ hp)]
  rw [filterMap_values, filterMap_values, ← funext h, hshown, hkeys, ← hshown]

section Run
variable {E : Type} (key : E → K) (value : Option V → E → V)

/-- Sets the key of every element, to a value that may depend on the one before. -/
def setAll (m : InsertionMap K V) (es : List E) : InsertionMap K V :=
  es.foldl (fun m e => m.set (key e) (value (m.get (key e)) e)) m

theorem setAll_append_singleton (m : InsertionMap K V) (es : List E) (e : E) :
    m.setAll key value (es ++ [e]) = (m.setAll key value es).set (key e)
      (value ((m.setAll key value es).get (key e)) e) := by
  rw [setAll, foldl_append]
  rfl

theorem keys_setAll_empty (es : List E) :
    ((empty : InsertionMap K V).setAll key value es).keys = firsts (es.map key) := by
  induction es using reverseRecOn with
  | nil => rfl
  | append_singleton es e ih =>
    rw [setAll_append_singleton, keys_set, ih, map_append, map_singleton, firsts_append_singleton]

/-- The value of a key depends on its own elements only. -/
theorem get_setAll (m : InsertionMap K V) (es : List E) (k : K) : (m.setAll key value es).get k =
      (es.filter (fun e => key e = k)).foldl (fun v e => some (value v e)) (m.get k) := by
  induction es using reverseRecOn with
  | nil => rfl
  | append_singleton es e ih =>
    rw [setAll_append_singleton, get_set, filter_append, foldl_append]
    by_cases hk : key e = k
    · subst hk
      rw [if_pos rfl, ih, filter_cons_of_pos (by simp), filter_nil, foldl_cons, foldl_nil]
    · rw [if_neg (Ne.symm hk), ih, filter_cons_of_neg (by simpa using hk), filter_nil, foldl_nil]

end Run
end InsertionMap
end GajaeCode
