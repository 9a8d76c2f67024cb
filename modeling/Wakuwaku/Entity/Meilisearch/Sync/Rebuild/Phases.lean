import Wakuwaku.World
import Wakuwaku.Entity.Meilisearch.Sync.Rebuild
import Wakuwaku.Meilisearch.Tasks

/-! # The phases of a rebuild

The world of a rebuild is the server and the rows read so far. Up to the swap every task concerns the copy,
apart from the creation of the live index, so the documents of the live index stay. The swap is one task.
A phase says which tasks may be left and what the indexes hold; every phase survives the moves of the
server. -/

namespace Wakuwaku.Entity.Meilisearch.Sync

open Wakuwaku.Meilisearch

variable {K E Row D α β : Type}

/-! ### The world -/

/-- The server, and the rows the pages gave. -/
structure State (K Row D : Type) where
  server : Server K D
  read : List Row

inductive Answered (s : State K Row D) : Event K E Row D → State K Row D → Prop
  | now (answer) : Answered s (.now answer) s
  | page (after limit rows) :
    Answered s (.page after limit (some (.ok rows))) { s with read := s.read ++ rows }
  | noPage (after limit) {answer} (h : ∀ rows, answer ≠ some (.ok rows)) :
    Answered s (.page after limit answer) s
  | meili {event server} (h : s.server.Answers event server) :
    Answered s (.meili event) { s with server := server }

/-- A request failed, or a wait ended without success. -/
def Event.Failed : Event K E Row D → Prop
  | .page _ _ (some (.error _)) => True
  | .meili (.enqueue _ (some (.error _))) => True
  | .meili (.waitForTask _ _ _ (some (.error _))) => True
  | .meili (.waitForTask _ _ _ (some (.ok status))) => status ≠ .succeeded
  | _ => False

/-- The copy of an index. -/
def copyOf (projection : Projection K Row D) : String := projection.index.uid ++ copySuffix

/-- The swap of the live index with its copy. -/
def swapTask (projection : Projection K Row D) : Task K D :=
  .swapIndexes projection.index.uid (copyOf projection)

/-- A swap with an id from `first` on is still to run, or took effect. -/
def SwapStands (projection : Projection K Row D) (first : ℕ) (server : Server K D) : Prop :=
  (∃ id, (id, swapTask projection) ∈ server.queue) ∨
    ∃ id, first ≤ id ∧ server.ended id = some (swapTask projection, .ok ())

theorem uid_ne_copy (projection : Projection K Row D) : projection.index.uid ≠ copyOf projection := by
  intro h
  have hlength := congrArg String.length h
  simp [copyOf, copySuffix] at hlength

/-- The documents of rows: those they project to, by key. -/
def documentsOf [DecidableEq K] (projection : Projection K Row D) (rows : List Row) : Documents K D :=
  insertAll projection.index.key (fun _ => none) (rows.filterMap projection.project)

def world [DecidableEq K] (projection : Projection K Row D) : World (State K Row D) (Event K E Row D) :=
  ⟨Answered, fun s s' => s.server.Moves projection.index.key s'.server ∧ s'.read = s.read⟩

section

variable (projection : Projection K Row D)

/-! ### The phases -/

def OnCopy (task : Task K D) : Prop := ∃ operation, task = .on (copyOf projection) operation

/-- A task on the copy, or the creation of the live index. -/
def Harmless (task : Task K D) : Prop :=
  OnCopy projection task ∨ ∃ primaryKey, task = .on projection.index.uid (.createIndex primaryKey)

/-- The documents of the live index are `old`, and will stay. -/
def Untouched (old : Documents K D) (server : Server K D) : Prop :=
  server.documents projection.index.uid = old ∧ ∀ q ∈ server.queue, Harmless projection q.2

/-- What holds up to the swap. -/
structure Frame (old : Documents K D) (first : ℕ) (server : Server K D) : Prop where
  live : server.documents projection.index.uid = old
  fresh : server.Fresh
  first : first ≤ server.next

/-- Tasks on the copy may be left from before. -/
structure Leftover (old : Documents K D) (first : ℕ) (server : Server K D) : Prop
    extends Frame projection old first server where
  onCopy : ∀ q ∈ server.queue, OnCopy projection q.2

/-- The deletion of the copy is the last task, or it has run and the copy is gone if it existed. -/
structure Deleting (old : Documents K D) (first id : ℕ) (server : Server K D) : Prop
    extends Leftover projection old first server where
  left : (∃ before, server.queue = before ++ [(id, .on (copyOf projection) .deleteIndex)]) ∨
    (server.queue = [] ∧ ∃ result, server.ended id = some (.on (copyOf projection) .deleteIndex, result) ∧
      (result = .ok () ∨ result = .error .indexNotFound → server.indexes (copyOf projection) = none))

/-- The live index is being created, while the copy holds `new`. -/
structure Creating (old new : Documents K D) (first id : ℕ) (server : Server K D) : Prop
    extends Frame projection old first server where
  copy : server.indexes (copyOf projection) = some new
  left : (∃ primaryKey, server.queue = [(id, .on projection.index.uid (.createIndex primaryKey))]) ∨
    (server.queue = [] ∧ ∃ task result, server.ended id = some (task, result) ∧
      (result = .ok () ∨ result = .error .indexAlreadyExists →
        server.indexes projection.index.uid ≠ none))

/-- Both indexes exist, and the copy holds `new`. -/
structure Ready (old new : Documents K D) (first : ℕ) (server : Server K D) : Prop
    extends Frame projection old first server where
  copy : server.indexes (copyOf projection) = some new
  exists_ : server.indexes projection.index.uid ≠ none
  queue : server.queue = []

/-- The swap is left, took effect or failed. -/
structure Swapping (old new : Documents K D) (first id : ℕ) (server : Server K D) : Prop where
  fresh : server.Fresh
  first : first ≤ id
  left : (server.queue = [(id, swapTask projection)] ∧ server.documents projection.index.uid = old ∧
      server.indexes projection.index.uid ≠ none ∧ server.indexes (copyOf projection) = some new) ∨
    (server.queue = [] ∧ server.ended id = some (swapTask projection, .ok ()) ∧
      server.documents projection.index.uid = new) ∨
    (server.queue = [] ∧ (∃ code, server.ended id = some (swapTask projection, .error code)) ∧
      server.documents projection.index.uid = old)

/-- The live index holds `new`, and will. -/
structure Swapped (new : Documents K D) (first : ℕ) (server : Server K D) : Prop where
  fresh : server.Fresh
  stands : ∃ id, first ≤ id ∧ server.ended id = some (swapTask projection, .ok ())
  live : server.documents projection.index.uid = new
  onCopy : ∀ q ∈ server.queue, OnCopy projection q.2

end

/-! ### From phase to phase -/

variable {projection : Projection K Row D} {old new : Documents K D} {first : ℕ} {server server' : Server K D}

theorem Frame.push (h : Frame projection old first server) (task : Task K D) :
    Frame projection old first (server.push task) :=
  ⟨h.live, h.fresh.push task, Nat.le_succ_of_le h.first⟩

theorem Leftover.untouched (h : Leftover projection old first server) : Untouched projection old server :=
  ⟨h.live, fun q hq => .inl (h.onCopy q hq)⟩

theorem Leftover.push (h : Leftover projection old first server) (operation : Operation K D) :
    Leftover projection old first (server.push (.on (copyOf projection) operation)) := by
  refine ⟨h.toFrame.push _, fun q hq => ?_⟩
  rcases List.mem_append.mp hq with hq | hq
  · exact h.onCopy q hq
  · rw [List.mem_singleton.mp hq]
    exact ⟨operation, rfl⟩

theorem Leftover.delete (h : Leftover projection old first server) :
    Deleting projection old first server.next (server.push (.on (copyOf projection) .deleteIndex)) :=
  ⟨h.push _, .inl ⟨server.queue, rfl⟩⟩

theorem Creating.untouched {id : ℕ} (h : Creating projection old new first id server) :
    Untouched projection old server := by
  refine ⟨h.live, fun q hq => ?_⟩
  rcases h.left with ⟨primaryKey, hqueue⟩ | ⟨hqueue, -⟩
  · rw [hqueue] at hq
    exact .inr ⟨primaryKey, by rw [List.mem_singleton.mp hq]⟩
  · rw [hqueue] at hq
    cases hq

theorem Creating.settled {id : ℕ} (h : Creating projection old new first id server)
    (hended : ∃ task result, server.ended id = some (task, result) ∧
      (result = .ok () ∨ result = .error .indexAlreadyExists)) :
    Ready projection old new first server := by
  obtain ⟨task, result, hend, hresult⟩ := hended
  rcases h.left with ⟨primaryKey, hqueue⟩ | ⟨hqueue, task', result', hend', hlive⟩
  · have hnone := (h.fresh.queued (id, .on projection.index.uid (.createIndex primaryKey))
      (by rw [hqueue]; simp)).2
    rw [hend] at hnone
    cases hnone
  · obtain ⟨-, rfl⟩ := Prod.mk.inj (Option.some.inj (hend.symm.trans hend'))
    exact ⟨h.toFrame, h.copy, hlive hresult, hqueue⟩

theorem Ready.untouched (h : Ready projection old new first server) : Untouched projection old server :=
  ⟨h.live, by simp [h.queue]⟩

theorem Ready.swap (h : Ready projection old new first server) :
    Swapping projection old new first server.next (server.push (swapTask projection)) := by
  refine ⟨h.fresh.push _, h.first, .inl ⟨?_, h.live, h.exists_, h.copy⟩⟩
  unfold Server.push
  rw [h.queue, List.nil_append]

theorem Swapping.settled {id : ℕ} (h : Swapping projection old new first id server)
    (hended : ∃ task, server.ended id = some (task, .ok ())) : Swapped projection new first server := by
  obtain ⟨task, hend⟩ := hended
  rcases h.left with ⟨hqueue, -⟩ | ⟨hqueue, hend', hlive⟩ | ⟨-, ⟨code, hend'⟩, -⟩
  · have hnone := (h.fresh.queued (id, swapTask projection) (by rw [hqueue]; simp)).2
    rw [hend] at hnone
    cases hnone
  · exact ⟨h.fresh, ⟨id, h.first, hend'⟩, hlive, by simp [hqueue]⟩
  · cases (Prod.mk.inj (Option.some.inj (hend.symm.trans hend'))).2

/-- A swap that does not stand has failed. -/
theorem Swapping.untouched {id : ℕ} (h : Swapping projection old new first id server)
    (hstands : ¬ SwapStands projection first server) : Untouched projection old server := by
  rcases h.left with ⟨hqueue, -⟩ | ⟨-, hend, -⟩ | ⟨hqueue, -, hlive⟩
  · exact absurd (.inl ⟨id, by rw [hqueue]; simp⟩) hstands
  · exact absurd (.inr ⟨id, h.first, hend⟩) hstands
  · exact ⟨hlive, by simp [hqueue]⟩

theorem Swapped.push (h : Swapped projection new first server) (operation : Operation K D) :
    Swapped projection new first (server.push (.on (copyOf projection) operation)) := by
  refine ⟨h.fresh.push _, h.stands, h.live, fun q hq => ?_⟩
  rcases List.mem_append.mp hq with hq | hq
  · exact h.onCopy q hq
  · rw [List.mem_singleton.mp hq]
    exact ⟨operation, rfl⟩

/-! ### Moves of the server -/

variable [DecidableEq K]

theorem Harmless.documents {task : Task K D} {result : Except ErrorCode Unit}
    (h : Harmless projection task)
    (hends : task.Ends projection.index.key server.indexes result server'.indexes) :
    server'.documents projection.index.uid = server.documents projection.index.uid := by
  unfold Server.documents
  rcases h with ⟨operation, rfl⟩ | ⟨primaryKey, rfl⟩
  · obtain ⟨documents, -, hindexes⟩ := hends.of_on
    rw [hindexes, Function.update_of_ne (uid_ne_copy projection)]
  · obtain ⟨documents, hop, hindexes⟩ := hends.of_on
    rw [hindexes, Function.update_self]
    -- a created index is empty, like an absent one
    cases hop with
    | done h =>
      cases hlive : server.indexes projection.index.uid with
      | none => rw [hlive] at h; cases h; rfl
      | some documents => rw [hlive] at h; cases h
    | failed h => rfl
    | aborted code => rfl

theorem Untouched.moves (h : Untouched projection old server)
    (hm : server.Moves projection.index.key server') : Untouched projection old server' := by
  obtain ⟨id, task, result, hmem, hends, -, -, hqueue⟩ := hm.exists_ends
  exact ⟨((h.2 _ hmem).documents hends).trans h.1, fun q hq => h.2 q (hqueue q hq)⟩

theorem Frame.moves (h : Frame projection old first server)
    (hqueue : ∀ q ∈ server.queue, Harmless projection q.2)
    (hm : server.Moves projection.index.key server') : Frame projection old first server' := by
  obtain ⟨id, task, result, hmem, hends, -, hnext, -⟩ := hm.exists_ends
  exact ⟨((hqueue _ hmem).documents hends).trans h.live, h.fresh.moves hm, hnext ▸ h.first⟩

/-! ### Tasks on the copy -/

variable (projection)

/-- The operations `todo` on the copy, which held `c`, have run or are left in the queue. -/
structure Copying (old : Documents K D) (first : ℕ) (c : Option (Documents K D))
    (todo : List (ℕ × Operation K D)) (server : Server K D) : Prop extends Frame projection old first server where
  working : Working projection.index.key (copyOf projection) c todo server

variable {projection}

theorem Copying.untouched {c : Option (Documents K D)} {todo : List (ℕ × Operation K D)}
    (h : Copying projection old first c todo server) : Untouched projection old server :=
  ⟨h.live, fun q hq => .inl (h.working.on q hq)⟩

theorem Copying.moves {c : Option (Documents K D)} {todo : List (ℕ × Operation K D)}
    (h : Copying projection old first c todo server) (hm : server.Moves projection.index.key server') :
    Copying projection old first c todo server' :=
  ⟨h.toFrame.moves h.untouched.2 hm, h.working.moves h.fresh hm⟩

theorem Copying.push {c : Option (Documents K D)} {todo : List (ℕ × Operation K D)}
    (h : Copying projection old first c todo server) (operation : Operation K D) :
    Copying projection old first c (todo ++ [(server.next, operation)])
      (server.push (.on (copyOf projection) operation)) :=
  ⟨h.toFrame.push _, h.working.push operation⟩

theorem Copying.settled {c : Option (Documents K D)} {q : ℕ × Operation K D} {todo : List (ℕ × Operation K D)}
    (h : Copying projection old first c (q :: todo) server)
    (hended : ∃ task, server.ended q.1 = some (task, .ok ())) :
    ∃ c', q.2.apply projection.index.key c = .ok c' ∧ Copying projection old first c' todo server := by
  obtain ⟨c', hc, hworking⟩ := h.working.settled h.fresh hended
  exact ⟨c', hc, h.toFrame, hworking⟩

/-- The copy is complete, and the live index is to be created. -/
theorem Copying.create {documents : Documents K D} (h : Copying projection old first (some documents) [] server)
    (primaryKey : String) : Creating projection old documents first server.next
      (server.push (.on projection.index.uid (.createIndex primaryKey))) := by
  obtain ⟨hqueue, hcopy⟩ := h.working.eq_of_nil
  refine ⟨h.toFrame.push _, hcopy, .inl ⟨primaryKey, ?_⟩⟩
  unfold Server.push
  rw [hqueue]
  rfl

/-! ### The other phases -/

theorem Leftover.moves (h : Leftover projection old first server)
    (hm : server.Moves projection.index.key server') : Leftover projection old first server' := by
  obtain ⟨-, -, -, -, -, -, -, hqueue⟩ := hm.exists_ends
  exact ⟨h.toFrame.moves h.untouched.2 hm, fun q hq => h.onCopy q (hqueue q hq)⟩

theorem Deleting.moves {id : ℕ} (h : Deleting projection old first id server)
    (hm : server.Moves projection.index.key server') : Deleting projection old first id server' := by
  refine ⟨h.toLeftover.moves hm, ?_⟩
  rcases h.left with ⟨before, hqueue⟩ | ⟨hqueue, -⟩
  · cases before with
    | nil =>
      obtain ⟨result, documents, hop, rfl⟩ := hm.on hqueue (by simp)
      refine .inr ⟨rfl, result, Function.update_self .., fun hresult => ?_⟩
      refine (Function.update_self ..).trans ?_
      cases hop with
      | done h =>
        cases hc : server.indexes (copyOf projection) with
        | none => rw [hc] at h; cases h
        | some documents => rw [hc] at h; cases h; rfl
      | failed h =>
        cases hc : server.indexes (copyOf projection) with
        | none => rfl
        | some documents => rw [hc] at h; cases h
      | aborted code => rcases hresult with hresult | hresult <;> cases hresult
    | cons b before =>
      obtain ⟨id', task⟩ := b
      obtain ⟨operation, rfl⟩ := h.onCopy (id', task) (by rw [hqueue]; simp)
      obtain ⟨result, documents, -, rfl⟩ := hm.on hqueue fun q hq =>
        h.onCopy q (by rw [hqueue]; exact List.mem_cons_of_mem _ hq)
      exact .inl ⟨before, rfl⟩
  · exact absurd hqueue hm.queue_ne_nil

/-- The deletion has succeeded, or there was no copy. -/
theorem Deleting.settled {id : ℕ} (h : Deleting projection old first id server)
    (hended : ∃ task result, server.ended id = some (task, result) ∧
      (result = .ok () ∨ result = .error .indexNotFound)) :
    Copying projection old first none [] server := by
  obtain ⟨task, result, hend, hresult⟩ := hended
  refine ⟨h.toFrame, [], [], rfl, ?_, by simp, ?_⟩
  · rcases h.left with ⟨before, hqueue⟩ | ⟨hqueue, -⟩
    · have hnone := (h.fresh.queued (id, .on (copyOf projection) .deleteIndex) (by rw [hqueue]; simp)).2
      rw [hend] at hnone
      cases hnone
    · exact hqueue
  · rcases h.left with ⟨before, hqueue⟩ | ⟨-, result', hend', hgone⟩
    · have hnone := (h.fresh.queued (id, .on (copyOf projection) .deleteIndex) (by rw [hqueue]; simp)).2
      rw [hend] at hnone
      cases hnone
    · obtain ⟨-, rfl⟩ := Prod.mk.inj (Option.some.inj (hend.symm.trans hend'))
      exact hgone hresult

theorem Creating.moves {id : ℕ} (h : Creating projection old new first id server)
    (hm : server.Moves projection.index.key server') : Creating projection old new first id server' := by
  have hframe := h.toFrame.moves h.untouched.2 hm
  rcases h.left with ⟨primaryKey, hqueue⟩ | ⟨hqueue, -⟩
  · obtain ⟨result, indexes, hends, rfl⟩ := hm.head hqueue (by simp)
    obtain ⟨documents, hop, rfl⟩ := hends.of_on
    refine ⟨hframe, ?_, .inr ⟨rfl, _, result, Function.update_self .., fun hresult => ?_⟩⟩
    · exact (Function.update_of_ne (uid_ne_copy projection).symm ..).trans h.copy
    · show Function.update server.indexes _ documents projection.index.uid ≠ none
      rw [Function.update_self]
      cases hop with
      | done h =>
        cases hc : server.indexes projection.index.uid with
        | none => rw [hc] at h; cases h; simp
        | some documents => rw [hc] at h; cases h
      | failed h =>
        cases hc : server.indexes projection.index.uid with
        | none => rw [hc] at h; cases h
        | some documents => simp
      | aborted code => rcases hresult with hresult | hresult <;> cases hresult
  · exact absurd hqueue hm.queue_ne_nil

theorem Swapping.moves {id : ℕ} (h : Swapping projection old new first id server)
    (hm : server.Moves projection.index.key server') : Swapping projection old new first id server' := by
  refine ⟨h.fresh.moves hm, h.first, ?_⟩
  rcases h.left with ⟨hqueue, hlive, hexists, hcopy⟩ | ⟨hqueue, -⟩ | ⟨hqueue, -⟩
  · obtain ⟨result, indexes, hends, rfl⟩ := hm.head hqueue (by simp)
    obtain ⟨documents, hdocuments⟩ := Option.ne_none_iff_exists'.mp hexists
    rcases hends.of_swap hdocuments hcopy with ⟨rfl, rfl⟩ | ⟨⟨code, rfl⟩, rfl⟩
    · refine .inr (.inl ⟨rfl, Function.update_self .., ?_⟩)
      have hupdated : ∀ d : Option (Documents K D), Function.update (Function.update server.indexes
          projection.index.uid (some new)) (copyOf projection) d projection.index.uid = some new := fun d =>
        (Function.update_of_ne (uid_ne_copy projection) ..).trans (Function.update_self ..)
      exact congrArg (Option.getD · fun _ => none) (hupdated _)
    · exact .inr (.inr ⟨rfl, ⟨code, Function.update_self ..⟩, hlive⟩)
  · exact absurd hqueue hm.queue_ne_nil
  · exact absurd hqueue hm.queue_ne_nil

theorem Swapped.moves (h : Swapped projection new first server)
    (hm : server.Moves projection.index.key server') : Swapped projection new first server' := by
  obtain ⟨id, task, result, hmem, hends, -, -, hqueue⟩ := hm.exists_ends
  obtain ⟨id', hfirst, hended⟩ := h.stands
  exact ⟨h.fresh.moves hm, ⟨id', hfirst, hm.ended h.fresh hended⟩,
    (Harmless.documents (.inl (h.onCopy _ hmem)) hends).trans h.live, fun q hq => h.onCopy q (hqueue q hq)⟩

end Wakuwaku.Entity.Meilisearch.Sync
