import Wakuwaku.World
import Wakuwaku.Entity.Meilisearch.Sync.Hook

/-! # What one reindexing writes

The requested keys are sorted into the documents of the rows that project to one and the keys to delete, with
none left over and none twice (`sorts`). So the index ends as the rows that were loaded say (`process_sorts`),
whatever the order of the keys and the rows. -/

namespace Wakuwaku.Entity.Meilisearch.Sync.Indexer

open Wakuwaku.Meilisearch World

variable {K E Row D : Type} {keys : List K} {rows : List Row} {done : List (Task K D)}

/-! ### What a call asks for -/

/-- The task that an event asks for. -/
def Event.task? : Event K E Row D → Option (Task K D)
  | .load _ _ => none
  | .meili (.enqueue task _) => some task
  | .meili (.waitForTask _ _ _ _) => none

/-- The tasks that were asked for. -/
def asked (t : List (Event K E Row D)) : List (Task K D) := t.filterMap Event.task?

/-- The call has loaded `rows` and asked for `done`. -/
structure Asked (keys : List K) (rows : List Row) (done : List (Task K D)) (t : List (Event K E Row D)) : Prop where
  loads : ∀ keys' answer, .load keys' answer ∈ t ↔ keys' = keys ∧ answer = some (.ok rows)
  asked : asked t = done

theorem Asked.enqueue {t : List (Event K E Row D)} (h : Asked keys rows done t)
    (task : Task K D) (answer : Option (Except Error ℕ)) :
    Asked keys rows (done ++ [task]) (t ++ [.meili (.enqueue task answer)]) where
  loads keys' answer := by simp [h.loads]
  asked := by
    rw [← h.asked]
    simp [Indexer.asked, Event.task?]

theorem Asked.wait {t : List (Event K E Row D)} (h : Asked keys rows done t) {id : ℕ}
    {interval : Option ℕ} {timeout : ℕ} {answer : Option (Except Error TaskStatus)} :
    Asked keys rows done (t ++ [.meili (.waitForTask id interval timeout answer)]) where
  loads keys' answer := by simp [h.loads]
  asked := by
    rw [← h.asked]
    simp [Indexer.asked, Event.task?]

/-! ### The sorted keys -/

/-- At most one row of each requested key, and no other row. -/
structure LoadOf (projection : Projection K Row D) (keys : List K) (rows : List Row) : Prop where
  once : (rows.map projection.key).Nodup
  requested : ∀ row ∈ rows, projection.key row ∈ keys

/-- `documents` and `deleted` sort `keys` by what their rows project to. -/
structure Sorts (projection : Projection K Row D) (keys : List K) (rows : List Row) (documents : List D)
    (deleted : List K) : Prop where
  written : ∀ d, d ∈ documents ↔ ∃ row ∈ rows, projection.project row = some d
  writtenOnce : (documents.map projection.index.key).Nodup
  removed : ∀ k, k ∈ deleted ↔ k ∈ keys ∧ ∀ row ∈ rows, projection.key row = k → projection.project row = none
  removedOnce : deleted.Nodup
  disjoint : ∀ k ∈ documents.map projection.index.key, k ∉ deleted
  all : ∀ k, k ∈ keys ↔ k ∈ documents.map projection.index.key ∨ k ∈ deleted

variable {projection : Projection K Row D}

theorem LoadOf.eq_of_key (h : LoadOf projection keys rows) {row row' : Row} (hrow : row ∈ rows) (hrow' : row' ∈ rows)
    (he : projection.key row = projection.key row') : row = row' :=
  List.inj_on_of_nodup_map h.once hrow hrow' he

section

variable (hkey : ∀ row d, projection.project row = some d → projection.index.key d = projection.key row)

include hkey

theorem mem_map_documents {k : K} : k ∈ (documents projection rows).map projection.index.key ↔
    ∃ row ∈ rows, projection.key row = k ∧ projection.project row ≠ none := by
  simp only [List.mem_map, mem_documents, Option.ne_none_iff_exists']
  constructor
  · rintro ⟨d, ⟨row, hrow, hproject⟩, rfl⟩
    exact ⟨row, hrow, (hkey row d hproject).symm, d, hproject⟩
  · rintro ⟨row, hrow, rfl, d, hproject⟩
    exact ⟨d, ⟨row, hrow, hproject⟩, hkey row d hproject⟩

theorem nodup_documents (h : LoadOf projection keys rows) :
    ((documents projection rows).map projection.index.key).Nodup := by
  have hsub : ((documents projection rows).map projection.index.key).Sublist (rows.map projection.key) := by
    clear h
    induction rows with
    | nil => exact .slnil
    | cons row rows ih =>
      unfold documents at ih ⊢
      cases hproject : projection.project row with
      | none =>
        rw [List.filterMap_cons_none hproject]
        exact ih.cons _
      | some d =>
        rw [List.filterMap_cons_some hproject, List.map_cons, List.map_cons, hkey row d hproject]
        exact ih.cons_cons _
  exact h.once.sublist hsub

end

variable [DecidableEq K]

theorem mem_deleted_iff (h : LoadOf projection keys rows) {k : K} : k ∈ deleted projection keys rows ↔
    k ∈ keys ∧ ∀ row ∈ rows, projection.key row = k → projection.project row = none := by
  rw [mem_deleted]
  constructor
  · rintro (⟨row, hrow, hproject, rfl⟩ | ⟨hk, hnone⟩)
    · refine ⟨h.requested row hrow, fun row' hrow' hk => ?_⟩
      rwa [h.eq_of_key hrow' hrow hk]
    · exact ⟨hk, fun row hrow hk => absurd hk (hnone row hrow)⟩
  · rintro ⟨hk, hnone⟩
    by_cases hrow : ∃ row ∈ rows, projection.key row = k
    · obtain ⟨row, hrow, hk⟩ := hrow
      exact .inl ⟨row, hrow, hnone row hrow hk, hk⟩
    · exact .inr ⟨hk, fun row hrow' hk => hrow ⟨row, hrow', hk⟩⟩

theorem nodup_deleted (h : LoadOf projection keys rows) : (deleted projection keys rows).Nodup := by
  unfold deleted
  refine List.nodup_append.mpr ⟨h.once.sublist (List.filter_sublist.map _), (List.nodup_dedup _).filter _, ?_⟩
  rintro a ha b hb rfl
  obtain ⟨row, hrow, rfl⟩ := List.mem_map.mp ha
  have hmissing := (List.mem_filter.mp hb).2
  simp only [decide_eq_true_eq] at hmissing
  exact hmissing (List.mem_map_of_mem (List.mem_of_mem_filter hrow))

/-- **The requested keys are sorted.** -/
theorem sorts (hkey : ∀ row d, projection.project row = some d → projection.index.key d = projection.key row)
    (h : LoadOf projection keys rows) :
    Sorts projection keys rows (documents projection rows) (deleted projection keys rows) where
  written _ := mem_documents
  writtenOnce := nodup_documents hkey h
  removed _ := mem_deleted_iff h
  removedOnce := nodup_deleted h
  disjoint k hk hdeleted := by
    obtain ⟨row, hrow, hk, hproject⟩ := (mem_map_documents hkey).mp hk
    exact hproject (((mem_deleted_iff h).mp hdeleted).2 row hrow hk)
  all k := by
    rw [mem_map_documents hkey, mem_deleted_iff h]
    constructor
    · intro hk
      by_cases hrow : ∃ row ∈ rows, projection.key row = k ∧ projection.project row ≠ none
      · exact .inl hrow
      · refine .inr ⟨hk, fun row hmem hkrow => ?_⟩
        by_contra hproject
        exact hrow ⟨row, hmem, hkrow, hproject⟩
    · rintro (⟨row, hrow, rfl, -⟩ | ⟨hk, -⟩)
      · exact h.requested row hrow
      · exact hk

/-- The tasks of the writes of a call that loaded `rows`. -/
def tasks (projection : Projection K Row D) (keys : List K) (rows : List Row) : List (Task K D) :=
  (writes projection keys rows).map (.on projection.index.uid)

/-- A call that has succeeded has asked for the tasks of the rows it loaded, and reports them. -/
def Finished (projection : Projection K Row D) (keys : List K) (report : Reindexed) (t : List (Event K E Row D)) :
    Prop :=
  ∃ rows, Asked keys rows (tasks projection keys rows) t ∧
    report = ⟨(documents projection rows).length, (deleted projection keys rows).length⟩

end Wakuwaku.Entity.Meilisearch.Sync.Indexer
