import Wakuwaku.Async
import Mathlib.Logic.Function.Basic
import Mathlib.Data.Nat.Notation

/-! # Meilisearch

An index holds documents, one for each primary key. A write is enqueued as a task and runs later; it may
then fail. Tasks that share an index run in the order they were enqueued. A client asks for a task to be
enqueued and for the status of a task; a request may fail, also one that reached the server. -/

namespace Wakuwaku.Meilisearch

variable {K D ε : Type}

inductive ErrorCode where
  | indexNotFound
  | indexAlreadyExists
  | other (code : String)
deriving DecidableEq

/-- Why a request or a task failed. -/
inductive Error where
  | meilisearch (code : ErrorCode)
  | timeout
  | other (text : String)

/-! ### Tasks -/

/-- The documents of an index. -/
abbrev Documents (K D : Type) : Type := K → Option D

/-- What a task does to one index. -/
inductive Operation (K D : Type) where
  | createIndex (primaryKey : String)
  | deleteIndex
  | updateSettings
  | addOrReplace (documents : List D) (primaryKey : String)
  | deleteDocuments (keys : List K)

inductive Task (K D : Type) where
  | on (uid : String) (operation : Operation K D)
  | swapIndexes (a b : String)

def Task.indexes : Task K D → List String
  | .on uid _ => [uid]
  | .swapIndexes a b => [a, b]

section Apply

variable [DecidableEq K] (key : D → K)

/-- Documents with those of `batch` added, each replacing one with its key. -/
def insertAll (documents : Documents K D) (batch : List D) : Documents K D :=
  batch.foldl (fun documents d => Function.update documents (key d) (some d)) documents

/-- Documents without those of `keys`. -/
def eraseAll (documents : Documents K D) (keys : List K) : Documents K D :=
  fun k => if k ∈ keys then none else documents k

/-- An operation on an index, which may be absent. -/
def Operation.apply : Operation K D → Option (Documents K D) → Except ErrorCode (Option (Documents K D))
  | .createIndex _, none => .ok (some fun _ => none)
  | .createIndex _, some _ => .error .indexAlreadyExists
  | .deleteIndex, some _ => .ok none
  | .deleteIndex, none => .error .indexNotFound
  | .updateSettings, documents => .ok (some (documents.getD fun _ => none))
  | .addOrReplace batch _, documents => .ok (some (insertAll key (documents.getD fun _ => none) batch))
  | .deleteDocuments keys, some documents => .ok (some (eraseAll documents keys))
  | .deleteDocuments _, none => .error .indexNotFound

def Task.apply (indexes : String → Option (Documents K D)) :
    Task K D → Except ErrorCode (String → Option (Documents K D))
  | .on uid operation => (operation.apply key (indexes uid)).map (Function.update indexes uid)
  | .swapIndexes a b =>
    match indexes a, indexes b with
    | some documents, some documents' =>
      .ok (Function.update (Function.update indexes a (some documents')) b (some documents))
    | _, _ => .error .indexNotFound

/-- How an operation ends: with its effect, or without any. -/
inductive Operation.Ends (operation : Operation K D) (documents : Option (Documents K D)) :
    Except ErrorCode Unit → Option (Documents K D) → Prop
  | done {documents'} (h : operation.apply key documents = .ok documents') :
    Ends operation documents (.ok ()) documents'
  | failed {code} (h : operation.apply key documents = .error code) :
    Ends operation documents (.error code) documents
  | aborted (code : String) : Ends operation documents (.error (.other code)) documents

/-- How a task ends: with its effect, or without any. -/
inductive Task.Ends (task : Task K D) (indexes : String → Option (Documents K D)) :
    Except ErrorCode Unit → (String → Option (Documents K D)) → Prop
  | done {indexes'} (h : task.apply key indexes = .ok indexes') : Ends task indexes (.ok ()) indexes'
  | failed {code} (h : task.apply key indexes = .error code) : Ends task indexes (.error code) indexes
  | aborted (code : String) : Ends task indexes (.error (.other code)) indexes

theorem Task.apply_on {uid : String} {operation : Operation K D} {indexes : String → Option (Documents K D)}
    {documents : Option (Documents K D)} (h : operation.apply key (indexes uid) = .ok documents) :
    (Task.on uid operation).apply key indexes = .ok (Function.update indexes uid documents) :=
  congrArg (Except.map (Function.update indexes uid)) h

theorem Task.apply_on_error {uid : String} {operation : Operation K D}
    {indexes : String → Option (Documents K D)} {code : ErrorCode}
    (h : operation.apply key (indexes uid) = .error code) : (Task.on uid operation).apply key indexes = .error code :=
  congrArg (Except.map (Function.update indexes uid)) h

variable {key} {indexes indexes' : String → Option (Documents K D)} {result : Except ErrorCode Unit}

/-- A task on one index does to it what its operation does, and nothing else. -/
theorem Task.Ends.of_on {uid : String} {operation : Operation K D}
    (h : (Task.on uid operation).Ends key indexes result indexes') :
    ∃ documents, operation.Ends key (indexes uid) result documents ∧
      indexes' = Function.update indexes uid documents := by
  cases h with
  | done h =>
    simp only [Task.apply] at h
    cases ha : operation.apply key (indexes uid) with
    | error code => rw [ha] at h; cases h
    | ok documents =>
      rw [ha] at h
      cases h
      exact ⟨documents, .done ha, rfl⟩
  | failed h =>
    simp only [Task.apply] at h
    cases ha : operation.apply key (indexes uid) with
    | error code =>
      rw [ha] at h
      cases h
      exact ⟨indexes uid, .failed ha, (Function.update_eq_self ..).symm⟩
    | ok documents => rw [ha] at h; cases h
  | aborted code => exact ⟨indexes uid, .aborted code, (Function.update_eq_self ..).symm⟩

/-- A swap exchanges the documents of two indexes, or fails. -/
theorem Task.Ends.of_swap {a b : String} {documents documents' : Documents K D}
    (h : (Task.swapIndexes a b).Ends key indexes result indexes') (ha : indexes a = some documents)
    (hb : indexes b = some documents') :
    (result = .ok () ∧
      indexes' = Function.update (Function.update indexes a (some documents')) b (some documents)) ∨
    (∃ code, result = .error code) ∧ indexes' = indexes := by
  cases h with
  | done h =>
    simp only [Task.apply, ha, hb] at h
    cases h
    exact .inl ⟨rfl, rfl⟩
  | failed h => exact .inr ⟨⟨_, rfl⟩, rfl⟩
  | aborted code => exact .inr ⟨⟨_, rfl⟩, rfl⟩

end Apply

/-! ### The server -/

/-- The indexes, the tasks still to run, how the others ended, and the next task's id. -/
structure Server (K D : Type) where
  indexes : String → Option (Documents K D)
  queue : List (ℕ × Task K D)
  ended : ℕ → Option (Task K D × Except ErrorCode Unit)
  next : ℕ

namespace Server

/-- What a search of an index finds. -/
def documents (server : Server K D) (uid : String) : Documents K D :=
  (server.indexes uid).getD fun _ => none

def push (server : Server K D) (task : Task K D) : Server K D :=
  { server with queue := server.queue ++ [(server.next, task)], next := server.next + 1 }

/-- A task has run: the first that is left of each of its indexes. -/
inductive Moves [DecidableEq K] (key : D → K) (server : Server K D) : Server K D → Prop
  | run {before id task after result indexes} (hqueue : server.queue = before ++ (id, task) :: after)
    (hfirst : ∀ q ∈ before, ∀ uid ∈ task.indexes, uid ∉ q.2.indexes)
    (hends : task.Ends key server.indexes result indexes) :
    Moves key server { server with
      indexes := indexes
      queue := before ++ after
      ended := Function.update server.ended id (some (task, result)) }

/-- Ids are new: no task that is left has ended, and none from the next on is used. -/
structure Fresh (server : Server K D) : Prop where
  nodup : (server.queue.map Prod.fst).Nodup
  queued : ∀ q ∈ server.queue, q.1 < server.next ∧ server.ended q.1 = none
  unused : ∀ id, server.next ≤ id → server.ended id = none

end Server

/-! ### Requests -/

inductive TaskStatus where
  | enqueued
  | processing
  | succeeded
  | failed (code : ErrorCode)

/-- A request with its answer, `none` if it was cut off. -/
inductive Event (K D : Type) where
  | enqueue (task : Task K D) (answer : Option (Except Error ℕ))
  | waitForTask (id : ℕ) (interval : Option ℕ) (timeout : ℕ) (answer : Option (Except Error TaskStatus))

/-- Answers to a wait for `id`: the status it has, or an error that is about the request. -/
def Server.Tells (server : Server K D) (id : ℕ) : Option (Except Error TaskStatus) → Prop
  | some (.ok .succeeded) => ∃ task, server.ended id = some (task, .ok ())
  | some (.ok (.failed code)) => ∃ task, server.ended id = some (task, .error code)
  | some (.error (.meilisearch code)) => code ≠ .indexNotFound ∧ code ≠ .indexAlreadyExists
  | _ => True

inductive Server.Answers (server : Server K D) : Event K D → Server K D → Prop
  | accepted (task) : Answers server (.enqueue task (some (.ok server.next))) (server.push task)
  | lost (task) {answer} (h : ∀ id, answer ≠ some (.ok id)) :
    Answers server (.enqueue task answer) (server.push task)
  | refused (task) {answer} (h : ∀ id, answer ≠ some (.ok id)) :
    Answers server (.enqueue task answer) server
  | told {id interval timeout answer} (h : server.Tells id answer) :
    Answers server (.waitForTask id interval timeout answer) server

section Client

variable (emit : Event K D → ε)

/-- Ask for a task to be enqueued; the answer is its id. -/
def enqueue (task : Task K D) : Async ε (Except Error ℕ) := .call fun answer => emit (.enqueue task answer)

def waitForTask (id : ℕ) (interval : Option ℕ) (timeout : ℕ) : Async ε (Except Error TaskStatus) :=
  .call fun answer => emit (.waitForTask id interval timeout answer)

end Client

/-! ### Moves of the queue -/

section Moves

variable [DecidableEq K] {key : D → K} {server server' : Server K D}

/-- If every other task shares an index with the first, that is the one that runs. -/
theorem Server.Moves.head {id : ℕ} {task : Task K D} {rest : List (ℕ × Task K D)}
    (h : Moves key server server') (hqueue : server.queue = (id, task) :: rest)
    (hshare : ∀ q ∈ rest, ∃ uid ∈ q.2.indexes, uid ∈ task.indexes) :
    ∃ result indexes, task.Ends key server.indexes result indexes ∧ server' = { server with
      indexes := indexes
      queue := rest
      ended := Function.update server.ended id (some (task, result)) } := by
  obtain ⟨hqueue', hfirst, hends⟩ := h
  rename_i before id' task' after result indexes
  cases before with
  | nil =>
    rw [hqueue, List.nil_append, List.cons.injEq, Prod.mk.injEq] at hqueue'
    obtain ⟨⟨rfl, rfl⟩, rfl⟩ := hqueue'
    exact ⟨result, indexes, hends, rfl⟩
  | cons b before =>
    rw [hqueue, List.cons_append, List.cons.injEq] at hqueue'
    obtain ⟨rfl, rfl⟩ := hqueue'
    obtain ⟨uid, huid, hshared⟩ := hshare (id', task') (by simp)
    exact absurd hshared (hfirst _ List.mem_cons_self uid huid)

theorem Server.Moves.queue_ne_nil (h : Moves key server server') : server.queue ≠ [] := by
  obtain ⟨hqueue, -, -⟩ := h
  rw [hqueue]
  simp

/-- The task that ran was left, and the others still are. -/
theorem Server.Moves.exists_ends (h : Moves key server server') :
    ∃ id task result, (id, task) ∈ server.queue ∧
      task.Ends key server.indexes result server'.indexes ∧
      server'.ended = Function.update server.ended id (some (task, result)) ∧
      server'.next = server.next ∧ ∀ q ∈ server'.queue, q ∈ server.queue := by
  obtain ⟨hqueue, -, hends⟩ := h
  rename_i before id task after result indexes
  refine ⟨id, task, result, by rw [hqueue]; simp, hends, rfl, rfl, fun q hq => ?_⟩
  rw [hqueue]
  rcases List.mem_append.mp hq with hq | hq <;> simp [hq]

/-- How a task ended stays. -/
theorem Server.Moves.ended (h : Moves key server server') (hfresh : server.Fresh) {id : ℕ}
    {outcome : Task K D × Except ErrorCode Unit} (hended : server.ended id = some outcome) :
    server'.ended id = some outcome := by
  obtain ⟨id', task, result, hmem, -, hended', -⟩ := h.exists_ends
  have hne : id ≠ id' := by
    rintro rfl
    rw [(hfresh.queued _ hmem).2] at hended
    cases hended
  rw [hended', Function.update_of_ne hne, hended]

/-- Running a task keeps the ids new. -/
theorem Server.Fresh.moves (h : server.Fresh) (hm : Moves key server server') : server'.Fresh := by
  obtain ⟨hqueue, -, hends⟩ := hm
  rename_i before id task after result indexes
  obtain ⟨hnodup, hqueued, hunused⟩ := h
  have hmem : (id, task) ∈ server.queue := by rw [hqueue]; simp
  have hsub : ∀ q ∈ before ++ after, q ∈ server.queue ∧ q.1 ≠ id := by
    rw [hqueue] at hnodup ⊢
    intro q hq
    simp only [List.map_append, List.map_cons, List.nodup_append, List.nodup_cons] at hnodup
    rcases List.mem_append.mp hq with hq | hq
    · exact ⟨by simp [hq], hnodup.2.2 _ (List.mem_map_of_mem hq) _ List.mem_cons_self⟩
    · refine ⟨by simp [hq], fun he => hnodup.2.1.1 ?_⟩
      exact he ▸ List.mem_map_of_mem hq
  refine ⟨?_, fun q hq => ?_, fun i hi => ?_⟩
  · rw [hqueue] at hnodup
    have hrest : (before ++ after).Sublist (before ++ (id, task) :: after) :=
      (List.Sublist.refl before).append (List.sublist_cons_self _ after)
    exact hnodup.sublist (hrest.map Prod.fst)
  · obtain ⟨hq, hne⟩ := hsub q hq
    exact ⟨(hqueued q hq).1, (Function.update_of_ne hne ..).trans (hqueued q hq).2⟩
  · have hne : i ≠ id := Nat.ne_of_gt (Nat.lt_of_lt_of_le (hqueued _ hmem).1 hi)
    exact (Function.update_of_ne hne ..).trans (hunused i hi)

end Moves

theorem Server.Fresh.push {server : Server K D} (h : server.Fresh) (task : Task K D) :
    (server.push task).Fresh := by
  refine ⟨?_, fun q hq => ?_, fun id hid => h.unused id (Nat.le_of_succ_le hid)⟩
  · unfold Server.push
    rw [List.map_append, List.nodup_append]
    refine ⟨h.nodup, by simp, fun a ha b hb => ?_⟩
    obtain ⟨q, hq, rfl⟩ := List.mem_map.mp ha
    obtain rfl : b = server.next := by simpa using hb
    exact Nat.ne_of_lt (h.queued q hq).1
  · rcases List.mem_append.mp hq with hq | hq
    · exact ⟨Nat.lt_succ_of_lt (h.queued q hq).1, (h.queued q hq).2⟩
    · rw [List.mem_singleton.mp hq]
      exact ⟨Nat.lt_succ_self _, h.unused _ (Nat.le_refl _)⟩

end Wakuwaku.Meilisearch
