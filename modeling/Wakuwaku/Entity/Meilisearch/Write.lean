import Wakuwaku.Meilisearch.Server

/-! # Writing documents and waiting for tasks

Every write outputs the id of the task it enqueued. `wait` says whether a task has run: it succeeded,
failed with the task's error, or the wait failed, for example by its timeout. A task whose wait timed
out keeps running. -/

namespace Wakuwaku.Entity.Meilisearch

open Wakuwaku.Meilisearch

variable {K D ε : Type}

/-- The index of a type: its uid, the attribute with the primary key, and the key of a document. Its
settings are left out. -/
structure SearchIndex (K D : Type) where
  uid : String
  primaryKey : String
  key : D → K

variable (emit : Event K D → ε)

/-- Add or replace `documents` in the index `uid`, which holds documents of `index`. -/
def upsert (index : SearchIndex K D) (uid : String) (documents : List D) : Async ε (Except Error ℕ) :=
  enqueue emit (.on uid (.addOrReplace documents index.primaryKey))

/-- Delete the documents of `keys` from the index `uid`. -/
def delete (uid : String) (keys : List K) : Async ε (Except Error ℕ) :=
  enqueue emit (.on uid (.deleteDocuments keys))

/-- Write the settings of an index to the index `uid`. -/
def applySettings (uid : String) : Async ε (Except Error ℕ) := enqueue emit (.on uid .updateSettings)

/-- What a wait makes of the status of its task. -/
def result : TaskStatus → Except Error Unit
  | .succeeded => .ok ()
  | .failed code => .error (.meilisearch code)
  -- `waitForTask` returns only once the task has run
  | .enqueued => .error .timeout
  | .processing => .error .timeout

/-- Wait for `task`, polling every `interval`. -/
def wait (task timeout : ℕ) (interval : Option ℕ) : Async ε (Except Error Unit) := do
  return (← waitForTask emit task interval timeout).bind result

end Wakuwaku.Entity.Meilisearch
