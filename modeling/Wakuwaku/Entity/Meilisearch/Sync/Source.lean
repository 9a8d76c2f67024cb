import Wakuwaku.Entity.Meilisearch.Write

/-! # Syncing an index with its source

A projection turns rows of the source into documents of an index. Syncing reads the source and writes
the index; it fails with the first error of either. -/

namespace Wakuwaku.Entity.Meilisearch.Sync

open Wakuwaku.Meilisearch

/-- How the rows of a source become the documents of an index, with the text of a key. -/
structure Projection (K Row D : Type) where
  index : SearchIndex K D
  key : Row → K
  project : Row → Option D
  toString : K → String

/-- Why syncing an index failed. -/
inductive SyncError (E : Type) where
  | source (error : E)
  | meilisearch (error : Error)
  | stuckScan (key : String)

variable {ε E α : Type}

/-- A computation that can fail. -/
abbrev Syncing (ε E α : Type) : Type := ExceptT (SyncError E) (Async ε) α

/-- A request to the source, with `?`. -/
def trySource (request : Async ε (Except E α)) : Syncing ε E α :=
  ExceptT.mk do return (← request).mapError .source

/-- A request to Meilisearch, with `?`. -/
def tryMeili (request : Async ε (Except Error α)) : Syncing ε E α :=
  ExceptT.mk do return (← request).mapError .meilisearch

variable {t : List ε} {a : α}

theorem trySource_iff {request : Async ε (Except E α)} :
    (trySource request).run t (some (.ok a)) ↔ request t (some (.ok a)) := by
  refine Async.bind_iff.trans ⟨?_, fun h => ⟨.ok a, t, [], h, Async.pure_iff.mpr ⟨rfl, rfl⟩, by simp⟩⟩
  rintro ⟨r, u, v, hr, hv, rfl⟩
  obtain ⟨rfl, hr'⟩ := Async.pure_iff.mp hv
  cases r with
  | error e => cases hr'
  | ok b =>
    cases hr'
    rwa [List.append_nil]

theorem tryMeili_iff {request : Async ε (Except Error α)} :
    (tryMeili request : Syncing ε E α).run t (some (.ok a)) ↔ request t (some (.ok a)) := by
  refine Async.bind_iff.trans ⟨?_, fun h => ⟨.ok a, t, [], h, Async.pure_iff.mpr ⟨rfl, rfl⟩, by simp⟩⟩
  rintro ⟨r, u, v, hr, hv, rfl⟩
  obtain ⟨rfl, hr'⟩ := Async.pure_iff.mp hv
  cases r with
  | error e => cases hr'
  | ok b =>
    cases hr'
    rwa [List.append_nil]

end Wakuwaku.Entity.Meilisearch.Sync
