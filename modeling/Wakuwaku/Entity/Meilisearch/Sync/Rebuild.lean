import Wakuwaku.Entity.Meilisearch.Sync.Source
import Mathlib.Algebra.Group.Nat.Defs

/-! # Rebuilding an index from its whole source

`rebuild` fills a copy of the index from a scan of the source, page by page, with one write in flight
while it reads the next page. It then swaps the copy with the live index and deletes the copy, which
holds the old documents. -/

namespace Wakuwaku.Entity.Meilisearch.Sync

open Wakuwaku.Meilisearch

structure RebuildOptions where
  /-- Rows per page read from the source, and documents per write. -/
  batchSize : ℕ
  batchSize_pos : 0 < batchSize
  /-- How long to wait for each task. -/
  taskTimeout : ℕ
  /-- How often to check whether a task has run. -/
  pollInterval : ℕ

/-- What a rebuild did. -/
structure Rebuilt where
  startedAt : ℕ
  documents : ℕ

/-- What a rebuild does, with the answers. -/
inductive Event (K E Row D : Type) where
  | now (answer : Option ℕ)
  | page (after : Option K) (limit : ℕ) (answer : Option (Except E (List Row)))
  | meili (event : Meilisearch.Event K D)

variable {K E Row D : Type}

/-- Suffix of the uid of the copy an index is rebuilt in. -/
def copySuffix : String := "__wakuwaku_rebuild"

/-- `result`, with a failed task of error code `code` counted as a success. -/
def tolerate (result : Except Error Unit) (code : ErrorCode) : Except Error Unit :=
  match result with
  | .error (.meilisearch code') => if code' = code then .ok () else result
  | _ => result

def usizeSaturatingAdd (a b : ℕ) : ℕ := min (a + b) (2 ^ 64 - 1)

section

variable [DecidableEq K] (projection : Projection K Row D) (options : RebuildOptions)

def settle (task : ℕ) : Async (Event K E Row D) (Except Error Unit) :=
  wait .meili task options.taskTimeout (some options.pollInterval)

/-- State of the loop over the pages: the key the last page ended at, the documents written so far and
the write in flight. -/
structure Filling (K : Type) where
  after : Option K
  documents : ℕ
  pending : Option ℕ

/-- Read the rows whose key comes after `after`. -/
def readPage (after : Option K) (limit : ℕ) : Syncing (Event K E Row D) E (List Row) :=
  trySource (Async.call (.page after limit))

def settlePending : Option ℕ → Syncing (Event K E Row D) E Unit
  | some task => tryMeili (settle options task)
  | none => pure ()

/-- Write the documents of a page to the copy. -/
def writeBatch (copy : String) (state : Filling K) (batch : List D) : Syncing (Event K E Row D) E (Filling K) := do
  let task ← tryMeili (upsert .meili projection.index copy batch)
  -- one write stays in flight while the next page is read
  settlePending options state.pending
  return { state with
    documents := usizeSaturatingAdd state.documents batch.length
    pending := some task }

/-- One page of the loop: go on after its last key, or stop after the last page. -/
def fillPage (copy : String) (state : Filling K) : Syncing (Event K E Row D) E (Filling K ⊕ Filling K) := do
  let rows ← readPage state.after options.batchSize
  match rows.getLast? with
  | none => return .inr state
  | some last =>
    if state.after = some (projection.key last) then
      throw (.stuckScan (projection.toString (projection.key last)))
    else do
      let batch := rows.filterMap projection.project
      let state ← if batch.isEmpty then pure state else writeBatch projection options copy state batch
      if rows.length < options.batchSize then return .inr state
      else return .inl { state with after := some (projection.key last) }

/-- Rebuild the index of `projection` from every row of the source, and swap it with the live index. -/
def rebuild : Syncing (Event K E Row D) E Rebuilt := do
  let live := projection.index.uid
  let primaryKey := projection.index.primaryKey
  let copy := live ++ copySuffix
  let startedAt ← (Async.call .now : Async (Event K E Row D) ℕ)
  let delete ← tryMeili (enqueue .meili (.on copy .deleteIndex))
  tryMeili (do return tolerate (← settle options delete) .indexNotFound)
  let create ← tryMeili (enqueue .meili (.on copy (.createIndex primaryKey)))
  tryMeili (settle options create)
  let settings ← tryMeili (applySettings .meili copy)
  tryMeili (settle options settings)
  let filled ← Async.tryLoop (fillPage projection options copy) ⟨none, 0, none⟩
  settlePending options filled.pending
  let create ← tryMeili (enqueue .meili (.on live (.createIndex primaryKey)))
  tryMeili (do return tolerate (← settle options create) .indexAlreadyExists)
  let swap ← tryMeili (enqueue .meili (.swapIndexes live copy))
  tryMeili (settle options swap)
  -- the copy now holds the old documents
  let delete ← tryMeili (enqueue .meili (.on copy .deleteIndex))
  tryMeili (settle options delete)
  return ⟨startedAt, filled.documents⟩

end

end Wakuwaku.Entity.Meilisearch.Sync
