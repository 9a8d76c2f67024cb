import Wakuwaku.Entity.Meilisearch.Sync.Source
import Wakuwaku.Meilisearch.LastWrite
import Mathlib.Data.List.Dedup

/-! # Reindexing documents by key

`Indexer.process` loads the rows of some keys from the source, writes the documents they project to and
deletes the rest. It then waits for its writes, unless told not to. -/

namespace Wakuwaku.Entity.Meilisearch.Sync

open Wakuwaku.Meilisearch

/-- Reindexes documents by key. -/
structure Indexer (K Row D : Type) where
  projection : Projection K Row D
  /-- How long to wait for each write, in nanoseconds, if at all. -/
  wait : Option ℕ

/-- What one reindexing did. -/
structure Reindexed where
  upserted : ℕ
  deleted : ℕ

namespace Indexer

variable {K E Row D : Type}

def defaultTaskTimeout : ℕ := 30 * 1000000000

def new (projection : Projection K Row D) : Indexer K Row D := ⟨projection, some defaultTaskTimeout⟩

def waitTimeout (indexer : Indexer K Row D) (timeout : ℕ) : Indexer K Row D :=
  { indexer with wait := some timeout }

def withoutWaiting (indexer : Indexer K Row D) : Indexer K Row D := { indexer with wait := none }

/-- What a reindexing does, with the answers. -/
inductive Event (K E Row D : Type) where
  | load (keys : List K) (answer : Option (Except E (List Row)))
  | meili (event : Meilisearch.Event K D)

section

variable [DecidableEq K] (projection : Projection K Row D)

/-- The documents that `rows` project to. -/
def documents (rows : List Row) : List D := rows.filterMap projection.project

/-- The keys of the rows that project to nothing, and those of `keys` without a row, in some order. -/
def deleted (keys : List K) (rows : List Row) : List K :=
  (rows.filter fun row => (projection.project row).isNone).map projection.key ++
    keys.dedup.filter fun k => k ∉ rows.map projection.key

def waitEach (timeout : ℕ) : List ℕ → Syncing (Event K E Row D) E Unit
  | [] => pure ()
  | task :: tasks => do
    tryMeili (Meilisearch.wait .meili task timeout none)
    waitEach timeout tasks

/-- The id of the task that `request` enqueues, unless there is nothing to write. -/
def enqueueUnless (nothing : Bool) (request : Async (Event K E Row D) (Except Error ℕ)) :
    Syncing (Event K E Row D) E (List ℕ) :=
  if nothing then pure [] else do return [← tryMeili request]

/-- Reindex `keys`. -/
def process (indexer : Indexer K Row D) (keys : List K) : Syncing (Event K E Row D) E Reindexed := do
  let index := indexer.projection.index
  if keys.isEmpty then return ⟨0, 0⟩
  else do
    let rows ← trySource (Async.call (.load keys))
    let documents := documents indexer.projection rows
    let deleted := deleted indexer.projection keys rows
    let upserts ← enqueueUnless documents.isEmpty (upsert .meili index index.uid documents)
    let deletes ← enqueueUnless deleted.isEmpty (delete .meili index.uid deleted)
    match indexer.wait with
    | none => pure ()
    | some timeout => waitEach timeout (upserts ++ deletes)
    return ⟨documents.length, deleted.length⟩

end

/-! ### What a call does -/

def enqueued (uid : String) (q : Operation K D × ℕ) : Event K E Row D :=
  .meili (.enqueue (.on uid q.1) (some (.ok q.2)))

def awaited (timeout id : ℕ) : Event K E Row D := .meili (.waitForTask id none timeout (some (.ok .succeeded)))

variable {t : List (Event K E Row D)} {ids : List ℕ} {timeout : ℕ}

theorem enqueueUnless_iff {nothing : Bool} {uid : String} {operation : Operation K D} :
    (enqueueUnless nothing (enqueue .meili (.on uid operation))).run t (some (.ok ids)) ↔
      ids.length = (if nothing then [] else [operation]).length ∧
        t = ((if nothing then [] else [operation]).zip ids).map (enqueued uid) := by
  cases nothing with
  | true =>
    refine Async.tryPure_iff.trans ?_
    simp [and_comm]
  | false =>
    refine Async.tryBind_iff.trans ⟨?_, ?_⟩
    · rintro ⟨id, u, v, hu, hv, rfl⟩
      obtain ⟨rfl, rfl⟩ := Async.tryPure_iff.mp hv
      rw [Async.call_iff.mp (tryMeili_iff.mp hu)]
      exact ⟨rfl, rfl⟩
    · rintro ⟨hlen, rfl⟩
      obtain ⟨id, rfl⟩ := List.length_eq_one_iff.mp hlen
      exact ⟨id, [_], [], tryMeili_iff.mpr (Async.call_iff.mpr rfl), Async.tryPure_iff.mpr ⟨rfl, rfl⟩, rfl⟩

theorem wait_iff {id : ℕ} :
    (Meilisearch.wait Event.meili id timeout none : Async (Event K E Row D) _) t (some (.ok ())) ↔
      t = [awaited timeout id] := by
  refine Async.bind_iff.trans ⟨?_, ?_⟩
  · rintro ⟨status, u, v, hu, hv, rfl⟩
    obtain ⟨rfl, hstatus⟩ := Async.pure_iff.mp hv
    have hcall : u = [.meili (.waitForTask id none timeout (some status))] := Async.call_iff.mp hu
    rw [List.append_nil, hcall]
    rcases status with e | _ | _ | _ | code
    · cases hstatus
    · cases hstatus
    · cases hstatus
    · rfl
    · cases hstatus
  · rintro rfl
    exact ⟨.ok .succeeded, [_], [], Async.call_iff.mpr rfl, Async.pure_iff.mpr ⟨rfl, rfl⟩, rfl⟩

theorem exists_append {m n : ℕ} (h : ids.length = m + n) :
    ∃ upserts deletes, ids = upserts ++ deletes ∧ upserts.length = m ∧ deletes.length = n := by
  refine ⟨ids.take m, ids.drop m, (List.take_append_drop m ids).symm, ?_, ?_⟩
  · rw [List.length_take]
    omega
  · rw [List.length_drop]
    omega

theorem waitEach_iff : (waitEach timeout ids : Syncing (Event K E Row D) E Unit).run t (some (.ok ())) ↔
    t = ids.map (awaited timeout) := by
  induction ids generalizing t with
  | nil => exact Async.tryPure_iff.trans (and_iff_left rfl)
  | cons id ids ih =>
    refine Async.tryBind_iff.trans ⟨?_, ?_⟩
    · rintro ⟨_, u, v, hu, hv, rfl⟩
      obtain rfl : u = [awaited timeout id] := wait_iff.mp (tryMeili_iff.mp hu)
      obtain rfl : v = ids.map (awaited timeout) := ih.mp hv
      rfl
    · rintro rfl
      exact ⟨(), [_], _, tryMeili_iff.mpr (wait_iff.mpr rfl), ih.mpr rfl, rfl⟩

variable {projection : Projection K Row D} {keys : List K} {rows : List Row} {k : K} {row? : Option Row}

theorem mem_documents {d : D} : d ∈ documents projection rows ↔ ∃ row ∈ rows, projection.project row = some d :=
  List.mem_filterMap

section

variable [DecidableEq K]

/-- The writes of a call that loaded `rows`. -/
def writes (projection : Projection K Row D) (keys : List K) (rows : List Row) : List (Operation K D) :=
  (if (documents projection rows).isEmpty then []
    else [.addOrReplace (documents projection rows) projection.index.primaryKey]) ++
  (if (deleted projection keys rows).isEmpty then [] else [.deleteDocuments (deleted projection keys rows)])

theorem mem_deleted : k ∈ deleted projection keys rows ↔
    (∃ row ∈ rows, projection.project row = none ∧ projection.key row = k) ∨
      k ∈ keys ∧ ∀ row ∈ rows, projection.key row ≠ k := by
  simp [deleted, List.mem_append, and_assoc]

theorem mem_writes {operation : Operation K D} : operation ∈ writes projection keys rows ↔
    (documents projection rows ≠ [] ∧
      operation = .addOrReplace (documents projection rows) projection.index.primaryKey) ∨
    (deleted projection keys rows ≠ [] ∧ operation = .deleteDocuments (deleted projection keys rows)) := by
  unfold writes
  rw [List.mem_append]
  refine or_congr ?_ ?_ <;> split_ifs with h <;> simp_all

section Value

variable (hkey : ∀ row d, projection.project row = some d → projection.index.key d = projection.key row)

include hkey

/-- A call writes documents of its keys only. -/
theorem mem_keys_of_mem_writes (hrows : ∀ row ∈ rows, projection.key row ∈ keys) {operation : Operation K D}
    {d : Option D} (hmem : operation ∈ writes projection keys rows)
    (hvalue : operation.value projection.index.key k = some d) : k ∈ keys := by
  rcases mem_writes.mp hmem with ⟨-, rfl⟩ | ⟨-, rfl⟩
  · obtain ⟨d', hd', hk, -⟩ := Operation.of_value_addOrReplace hvalue
    obtain ⟨row, hmem, hproject⟩ := mem_documents.mp hd'
    rw [hkey row d' hproject] at hk
    exact hk ▸ hrows row hmem
  · rw [Operation.value_deleteDocuments] at hvalue
    split_ifs at hvalue with hk
    rcases mem_deleted.mp hk with ⟨row, hmem, -, hk⟩ | ⟨hk, -⟩
    · exact hk ▸ hrows row hmem
    · exact hk

variable (hrow : ∀ row, row ∈ rows ∧ projection.key row = k ↔ row? = some row)

include hrow

/-- A write of a document writes what the row loaded for it projects to. -/
theorem eq_of_mem_writes {operation : Operation K D} {d : Option D}
    (hmem : operation ∈ writes projection keys rows)
    (hvalue : operation.value projection.index.key k = some d) : d = row?.bind projection.project := by
  rcases mem_writes.mp hmem with ⟨-, rfl⟩ | ⟨-, rfl⟩
  · obtain ⟨d', hd', hk, rfl⟩ := Operation.of_value_addOrReplace hvalue
    obtain ⟨row, hmem, hproject⟩ := mem_documents.mp hd'
    rw [hkey row d' hproject] at hk
    rw [(hrow row).mp ⟨hmem, hk⟩]
    exact hproject.symm
  · rw [Operation.value_deleteDocuments] at hvalue
    split_ifs at hvalue with hk
    obtain rfl := Option.some.inj hvalue
    rcases mem_deleted.mp hk with ⟨row, hmem, hproject, hk⟩ | ⟨-, hnone⟩
    · rw [(hrow row).mp ⟨hmem, hk⟩]
      exact hproject.symm
    · cases row? with
      | none => rfl
      | some row =>
        obtain ⟨hmem, hk⟩ := (hrow row).mpr rfl
        exact absurd hk (hnone row hmem)

/-- A call writes the document of each of its keys. -/
theorem exists_mem_writes (hk : k ∈ keys) : ∃ operation ∈ writes projection keys rows,
    operation.value projection.index.key k = some (row?.bind projection.project) := by
  suffices h : ∃ operation ∈ writes projection keys rows, (operation.value projection.index.key k).isSome by
    obtain ⟨operation, hmem, hsome⟩ := h
    obtain ⟨d, hd⟩ := Option.isSome_iff_exists.mp hsome
    exact ⟨operation, hmem, eq_of_mem_writes hkey hrow hmem hd ▸ hd⟩
  by_cases hd : k ∈ deleted projection keys rows
  · refine ⟨_, mem_writes.mpr (.inr ⟨List.ne_nil_of_mem hd, rfl⟩), ?_⟩
    rw [Operation.value_deleteDocuments, if_pos hd]
    rfl
  · -- a row of the key was loaded, and it projects to a document
    obtain ⟨row, hmem, hrk⟩ : ∃ row ∈ rows, projection.key row = k := by
      by_contra hnone
      exact hd (mem_deleted.mpr (.inr ⟨hk, fun row hmem hrk => hnone ⟨row, hmem, hrk⟩⟩))
    cases hproject : projection.project row with
    | none => exact absurd (mem_deleted.mpr (.inl ⟨row, hmem, hproject, hrk⟩)) hd
    | some d =>
      have hdoc : d ∈ documents projection rows := mem_documents.mpr ⟨row, hmem, hproject⟩
      exact ⟨_, mem_writes.mpr (.inl ⟨List.ne_nil_of_mem hdoc, rfl⟩),
        Operation.value_addOrReplace_isSome hdoc ((hkey row d hproject).trans hrk)⟩

end Value

variable {indexer : Indexer K Row D} {report : Reindexed}

theorem process_nil : (indexer.process [] : Syncing (Event K E Row D) E Reindexed).run t (some (.ok report)) ↔
    t = [] ∧ report = ⟨0, 0⟩ := Async.tryPure_iff

/-- A call that waits and succeeds loads, enqueues its writes and is told that they succeeded. -/
theorem process_iff (hwait : indexer.wait = some timeout) {keys : List K} (hkeys : keys ≠ []) :
    (indexer.process keys).run t (some (.ok report)) ↔ ∃ rows ids,
      ids.length = (writes indexer.projection keys rows).length ∧
      t = .load keys (some (.ok rows)) ::
        (((writes indexer.projection keys rows).zip ids).map (enqueued indexer.projection.index.uid) ++
          ids.map (awaited timeout)) ∧
      report = ⟨(documents indexer.projection rows).length, (deleted indexer.projection keys rows).length⟩ := by
  have hif : keys.isEmpty = false := by simpa using hkeys
  simp only [process, hif, hwait, Bool.false_eq_true, if_false]
  refine Async.tryBind_iff.trans ⟨?_, ?_⟩
  · rintro ⟨rows, u, v, hload, h, rfl⟩
    obtain ⟨upserts, u₁, v₁, h₁, h', rfl⟩ := Async.tryBind_iff.mp h
    obtain ⟨deletes, u₂, v₂, h₂, h'', rfl⟩ := Async.tryBind_iff.mp h'
    obtain ⟨_, u₃, v₃, h₃, hreport, rfl⟩ := Async.tryBind_iff.mp h''
    obtain ⟨rfl, rfl⟩ := Async.tryPure_iff.mp hreport
    obtain ⟨hupserts, rfl⟩ := enqueueUnless_iff.mp h₁
    obtain ⟨hdeletes, rfl⟩ := enqueueUnless_iff.mp h₂
    obtain rfl : u = [.load keys (some (.ok rows))] := Async.call_iff.mp (trySource_iff.mp hload)
    obtain rfl : u₃ = (upserts ++ deletes).map (awaited timeout) := waitEach_iff.mp h₃
    refine ⟨rows, upserts ++ deletes, ?_, ?_, rfl⟩
    · unfold writes
      rw [List.length_append, List.length_append, hupserts, hdeletes]
    · unfold writes
      rw [List.zip_append hupserts.symm]
      simp
  · rintro ⟨rows, ids, hlen, rfl, rfl⟩
    unfold writes at hlen ⊢
    rw [List.length_append] at hlen
    obtain ⟨upserts, deletes, rfl, hupserts, hdeletes⟩ := exists_append hlen
    rw [List.zip_append hupserts.symm, List.map_append, List.map_append]
    refine ⟨rows, [_], _, trySource_iff.mpr (Async.call_iff.mpr rfl), ?_, rfl⟩
    refine Async.tryBind_iff.mpr ⟨upserts, _, _, enqueueUnless_iff.mpr ⟨hupserts, rfl⟩, ?_, List.append_assoc ..⟩
    refine Async.tryBind_iff.mpr ⟨deletes, _, _, enqueueUnless_iff.mpr ⟨hdeletes, rfl⟩, ?_, rfl⟩
    exact Async.tryBind_iff.mpr ⟨(), _, [], waitEach_iff.mpr rfl, Async.tryPure_iff.mpr ⟨rfl, rfl⟩, by simp⟩

end

end Indexer

end Wakuwaku.Entity.Meilisearch.Sync
