import GajaeCode.JsString
import GajaeCode.LruCache

/-! # The session's read cache

`packages/coding-agent/src/edit/file-read-cache.ts`.  Per path the cache holds
the lines the model has been shown.  A run of lines that contradicts the snapshot
replaces it; one that agrees is merged into it.  The 30 most recently used paths
are kept.
-/
namespace GajaeCode
open JsString

/-- `Map<number, string>` from line numbers, which start at 1, to contents: every
key once, in the order of first insertion. -/
structure LineMap where
  entries : List (Nat × JsString)
  nodup : (entries.map Prod.fst).Nodup
deriving DecidableEq

namespace LineMap

/-- `new Map()`. -/
def empty : LineMap := ⟨[], List.nodup_nil⟩

/-- `map.get(line)`. -/
def get (m : LineMap) (line : Nat) : Option JsString := m.entries.lookup line

/-- `map.set(line, content)`. -/
def set (m : LineMap) (line : Nat) (content : JsString) : LineMap :=
  if h : line ∈ m.entries.map Prod.fst then
    { entries := m.entries.map (fun e => if e.1 = line then (e.1, content) else e)
      nodup := by
        rw [List.map_map, show Prod.fst ∘ (fun e : Nat × JsString =>
          if e.1 = line then (e.1, content) else e) = Prod.fst by
            funext e; simp only [Function.comp]; split <;> rfl]
        exact m.nodup }
  else
    { entries := m.entries ++ [(line, content)]
      nodup := by
        rw [List.map_append, List.nodup_append]
        refine ⟨m.nodup, List.nodup_singleton _, ?_⟩
        intro a ha b hb heq
        obtain rfl : b = line := by simpa using hb
        exact h (heq ▸ ha) }

/-- Setting every entry in turn; `new Map(entries)` starts from the empty map. -/
def setAll (m : LineMap) (entries : List (Nat × JsString)) : LineMap :=
  entries.foldl (fun m e => m.set e.1 e.2) m

end LineMap

def hasConflict (existing : LineMap) (incoming : List (Nat × JsString)) : Bool :=
  incoming.any (fun e => (existing.get e.1).any (fun prior => prior ≠ e.2))

def maxPathsPerSession : Nat := 30

/-- `FileReadCache`.  The time of recording is written and never read. -/
abbrev FileReadCache := LruCache JsString LineMap maxPathsPerSession

namespace FileReadCache

/-- `#record`.  Every lookup of the path makes it the most recent one. -/
def record (cache : FileReadCache) (absPath : JsString) (entries : List (Nat × JsString)) :
    FileReadCache :=
  match cache.peek absPath with
  | some existing =>
      if hasConflict existing entries then
        (cache.touch absPath).set absPath (LineMap.empty.setAll entries)
      else (cache.touch absPath).modify absPath (fun m => m.setAll entries)
  | none => cache.set absPath (LineMap.empty.setAll entries)

def recordContiguous (cache : FileReadCache) (absPath : JsString) (startLine : Nat)
    (lines : List JsString) : FileReadCache :=
  if lines.length = 0 then cache
  else cache.record absPath (lines.mapIdx (fun idx line => (startLine + idx, line)))

/-- Recording one path of `P` leaves the snapshots of the others alone, as long
as `P` fits into the cache. -/
theorem recentAmong_recordContiguous {P : List JsString} {cache : FileReadCache}
    {k absPath : JsString} {snapshot : LineMap} (h : LruCache.RecentAmong P cache k snapshot)
    (habs : absPath ∈ P) (hk : k ∈ P) (hne : k ≠ absPath) (hlen : P.length ≤ maxPathsPerSession)
    (startLine : Nat) (lines : List JsString) :
    LruCache.RecentAmong P (cache.recordContiguous absPath startLine lines) k snapshot := by
  unfold recordContiguous
  split
  · exact h
  · unfold record
    split
    · split
      · exact (h.touch habs).set habs hk hne hlen
      · exact (h.touch habs).modify hne _
    · exact h.set habs hk hne hlen

end FileReadCache
end GajaeCode
