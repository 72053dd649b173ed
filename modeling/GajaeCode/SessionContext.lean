import Mathlib.Data.List.Nodup
import Mathlib.Data.List.Chain
import GajaeCode.JsString

/-! # The context of a session

`buildSessionContext` of `packages/coding-agent/src/session/session-manager.ts`, as far
as it builds messages.  Entries form a tree by their parents; the path from the leaf to
the root is the conversation.  The latest compaction on the path stands for what was
before it: its summary comes first, then the entries it kept, then those after it.

Messages are objects and two entries may hold equal ones, so a message of the context
is taken together with the id of its entry (the source associates the two as well).
-/
namespace GajaeCode
open JsString List

/-- The roles the compaction code tells apart. -/
inductive MessageRole where
  | user | assistant | toolResult | bashExecution | hookMessage | branchSummary
  | compactionSummary | other
  deriving DecidableEq

/-- What an entry of the session tree is.  `M` is the rest of a message, `C` the content
of a custom message, `H` a provider's replacement history; every kind of entry that
holds settings only is `settings`. -/
inductive TreeEntryBody (M C H : Type) where
  | message (role : MessageRole) (message : M)
  | customMessage (content : C)
  | branchSummary (summary fromId : JsString)
  | compaction (summary : JsString) (shortSummary : Option JsString) (tokensBefore : Nat)
      (firstKeptEntryId : JsString) (replacementHistory : Option H)
  | settings
  deriving DecidableEq

structure TreeEntry (M C H : Type) where
  id : JsString
  parentId : Option JsString
  timestamp : JsString
  body : TreeEntryBody M C H
  deriving DecidableEq

/-- `AgentMessage`: a stored message, or one made from an entry. -/
inductive AgentMessage (M C H : Type) where
  | stored (role : MessageRole) (message : M)
  | custom (content : C) (timestamp : JsString)
  | branchSummary (summary fromId timestamp : JsString)
  | compactionSummary (summary : JsString) (tokensBefore : Nat) (timestamp : JsString)
      (shortSummary : Option JsString) (providerPayload : Option H)
  deriving DecidableEq

/-- A message, with the entry it comes from. -/
structure ContextMessage (M C H : Type) where
  entryId : JsString
  message : AgentMessage M C H
  deriving DecidableEq

variable {M C H : Type}

namespace TreeEntry

def isCompaction (e : TreeEntry M C H) : Bool :=
  match e.body with
  | .compaction .. => true
  | _ => false

def isMessage (e : TreeEntry M C H) : Bool :=
  match e.body with
  | .message .. => true
  | _ => false

/-- `appendMessage`: what an entry adds to the context.  A branch summary without text
adds nothing. -/
def contextMessage (e : TreeEntry M C H) : Option (ContextMessage M C H) :=
  match e.body with
  | .message role message => some ⟨e.id, .stored role message⟩
  | .customMessage content => some ⟨e.id, .custom content e.timestamp⟩
  | .branchSummary summary fromId =>
      if summary = [] then none else some ⟨e.id, .branchSummary summary fromId e.timestamp⟩
  | .compaction .. | .settings => none

end TreeEntry

/-- `byId.get(id)`: a later entry with the same id replaces an earlier one. -/
def entryById (entries : List (TreeEntry M C H)) (id : JsString) : Option (TreeEntry M C H) :=
  entries.reverse.find? (fun e => e.id = id)

/-- The parent, if the entry names one. -/
def parentEntry (entries : List (TreeEntry M C H)) (e : TreeEntry M C H) :
    Option (TreeEntry M C H) :=
  match e.parentId with
  | none | some [] => none
  | some parentId => entryById entries parentId

/-- The walk from an entry to the root, with the ids visited.  Every step visits another
id, so as many steps as there are entries are enough. -/
def walkToRoot (entries : List (TreeEntry M C H)) :
    Nat → List JsString → Option (TreeEntry M C H) → List (TreeEntry M C H)
  | 0, _, _ => []
  | _ + 1, _, none => []
  | fuel + 1, visited, some current =>
      if current.id ∈ visited then []
      else current ::
        walkToRoot entries fuel (current.id :: visited) (parentEntry entries current)

/-- The path from the root to the last entry. -/
def sessionPath (entries : List (TreeEntry M C H)) : List (TreeEntry M C H) :=
  (walkToRoot entries (entries.length + 1) [] entries.getLast?).reverse

def latestCompaction (path : List (TreeEntry M C H)) : Option (TreeEntry M C H) :=
  path.reverse.find? TreeEntry.isCompaction

/-- The kept messages: from the entry `firstKeptEntryId` on. -/
def keptMessages (firstKeptEntryId : JsString) (before : List (TreeEntry M C H)) :
    List (ContextMessage M C H) :=
  (before.dropWhile (fun e => e.id ≠ firstKeptEntryId)).filterMap TreeEntry.contextMessage

def contextMessages (path : List (TreeEntry M C H)) : List (ContextMessage M C H) :=
  match latestCompaction path with
  | none => path.filterMap TreeEntry.contextMessage
  | some compaction =>
    match compaction.body with
    | .compaction summary shortSummary tokensBefore firstKeptEntryId replacementHistory =>
      let compactionIdx := path.findIdx (fun e => e.isCompaction && e.id = compaction.id)
      let summaryMessage := ⟨compaction.id,
        .compactionSummary summary tokensBefore compaction.timestamp shortSummary
          replacementHistory⟩
      let kept :=
        if replacementHistory.isSome then []
        else keptMessages firstKeptEntryId (path.take compactionIdx)
      summaryMessage ::
        (kept ++ (path.drop (compactionIdx + 1)).filterMap TreeEntry.contextMessage)
    | _ => []

/-- `buildSessionContext(entries).messages`. -/
def buildSessionContext (entries : List (TreeEntry M C H)) : List (ContextMessage M C H) :=
  contextMessages (sessionPath entries)

/-- The entries are a path from a root to a leaf: every entry names the one before it as
its parent, the first one none, and the ids are distinct. -/
structure IsRootedPath (path : List (TreeEntry M C H)) : Prop where
  nodup : (path.map TreeEntry.id).Nodup
  named : ∀ e ∈ path, e.id ≠ []
  root : ∀ e rest, path = e :: rest → e.parentId = none
  linked : path.IsChain (fun e e' => e'.parentId = some e.id)

theorem entryById_of_mem {entries : List (TreeEntry M C H)} {e : TreeEntry M C H}
    (hnodup : (entries.map TreeEntry.id).Nodup) (he : e ∈ entries) :
    entryById entries e.id = some e := by
  have hsame : ∀ e' ∈ entries, e'.id = e.id → e' = e := fun e' he' hid =>
    inj_on_of_nodup_map hnodup he' he hid
  cases hfind : entries.reverse.find? (fun e' => e'.id = e.id) with
  | none =>
    have := find?_eq_none.mp hfind e (mem_reverse.mpr he)
    simp at this
  | some e' =>
    have hmem := mem_reverse.mp (mem_of_find?_eq_some hfind)
    have hid : e'.id = e.id := by simpa using find?_some hfind
    rw [entryById, hfind, hsame e' hmem hid]

theorem walkToRoot_path {entries front : List (TreeEntry M C H)} {e : TreeEntry M C H}
    (hpath : IsRootedPath entries) (hfront : front ++ [e] <+: entries) {fuel : Nat}
    (hfuel : front.length < fuel) {visited : List JsString}
    (hvisited : ∀ e' ∈ front ++ [e], e'.id ∉ visited) :
    walkToRoot entries fuel visited (some e) = (front ++ [e]).reverse := by
  induction front using reverseRecOn generalizing e fuel visited with
  | nil =>
    obtain ⟨fuel, rfl⟩ : ∃ f, fuel = f + 1 := ⟨fuel - 1, by simp at hfuel; omega⟩
    obtain ⟨rest, hrest⟩ := hfront
    have hroot : e.parentId = none := hpath.root e rest hrest.symm
    rw [walkToRoot, if_neg (hvisited e (by simp)), parentEntry, hroot]
    cases fuel <;> rfl
  | append_singleton front parent ih =>
    rw [length_append, length_singleton] at hfuel
    obtain ⟨fuel, rfl⟩ : ∃ f, fuel = f + 1 := ⟨fuel - 1, by omega⟩
    have hnodup := Nodup.sublist ((hfront.sublist).map TreeEntry.id) hpath.nodup
    have hfront' : front ++ [parent] <+: entries :=
      (prefix_append _ [e]).trans hfront
    have hparentMem : parent ∈ entries := hfront'.subset (by simp)
    have hlink : e.parentId = some parent.id := by
      obtain ⟨rest, hrest⟩ := hfront
      have hchain := hpath.linked
      rw [← hrest] at hchain
      have hlast := hchain.left_of_append
      rw [append_assoc] at hlast
      simpa using hlast.right_of_append
    have hparent : parentEntry entries e = some parent := by
      rw [parentEntry, hlink]
      cases hid : parent.id with
      | nil => exact absurd hid (hpath.named parent hparentMem)
      | cons u us =>
        simp only
        rw [← hid]
        exact entryById_of_mem hpath.nodup hparentMem
    rw [walkToRoot, if_neg (hvisited e (by simp)), hparent, ih hfront' (by omega)]
    · simp
    · intro e' he' hmem
      rcases mem_cons.mp hmem with hid | hmem
      · rw [map_append, nodup_append] at hnodup
        exact hnodup.2.2 e'.id (mem_map_of_mem he') e.id (by simp) hid
      · exact hvisited e' (mem_append_left _ he') hmem

/-- **A rooted path is its own path.** -/
theorem sessionPath_of_isRootedPath {path : List (TreeEntry M C H)} (hpath : IsRootedPath path) :
    sessionPath path = path := by
  rcases eq_nil_or_concat path with rfl | ⟨front, e, rfl⟩
  · rfl
  · rw [concat_eq_append] at hpath ⊢
    have hfuel : front.length < (front ++ [e]).length + 1 := by
      rw [length_append]
      omega
    rw [sessionPath, getLast?_concat,
      walkToRoot_path hpath prefix_rfl hfuel (by simp), reverse_reverse]

end GajaeCode
