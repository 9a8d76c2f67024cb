import Wakuwaku.Meilisearch.Server
import Mathlib.Data.List.Induction

/-! # The last write of a document

`Operation.value` is what an operation makes of the document of a key. A document is what the last task
that writes it made of it: `LastWrite` says so of a task that is queued or has run, and holds until another
task that writes the document is enqueued. -/

namespace Wakuwaku.Meilisearch

variable {K D : Type} [DecidableEq K] (key : D → K)

/-! ### Operations -/

/-- What an operation makes of the document of `k`, `none` if it leaves it as it was. -/
def Operation.value (k : K) : Operation K D → Option (Option D)
  | .createIndex _ => none
  | .updateSettings => none
  | .deleteIndex => some none
  | .addOrReplace batch _ => (insertAll key (fun _ => none) batch k).map some
  | .deleteDocuments keys => if k ∈ keys then some none else none

variable {key} {k : K}

/-- The document of a key after a batch is one of the batch, or the one before it. -/
theorem insertAll_cases (key : D → K) (k : K) (documents : Documents K D) (batch : List D) :
    ((∀ d ∈ batch, key d ≠ k) ∧ insertAll key documents batch k = documents k) ∨
      ∃ d ∈ batch, key d = k ∧ insertAll key documents batch k = some d := by
  induction batch using List.reverseRecOn with
  | nil => exact .inl ⟨by simp, rfl⟩
  | append_singleton batch d ih =>
    have hlast : insertAll key documents (batch ++ [d]) =
        Function.update (insertAll key documents batch) (key d) (some d) := by simp [insertAll]
    rw [hlast]
    by_cases hk : key d = k
    · refine .inr ⟨d, by simp, hk, ?_⟩
      rw [← hk, Function.update_self]
    · rw [Function.update_of_ne (Ne.symm hk)]
      rcases ih with ⟨hnone, h⟩ | ⟨d', hmem, hd', h⟩
      · refine .inl ⟨fun d' hd' => ?_, h⟩
        rcases List.mem_append.mp hd' with hd' | hd'
        · exact hnone d' hd'
        · rwa [List.mem_singleton.mp hd']
      · exact .inr ⟨d', List.mem_append_left _ hmem, hd', h⟩

/-- Where a batch has a document, it does not matter what was there. -/
theorem insertAll_eq (documents : Documents K D) (batch : List D) :
    insertAll key documents batch k =
      ((insertAll key (fun _ => none) batch k).map some).getD (documents k) := by
  induction batch using List.reverseRecOn with
  | nil => rfl
  | append_singleton batch d ih =>
    have hlast : ∀ documents, insertAll key documents (batch ++ [d]) =
        Function.update (insertAll key documents batch) (key d) (some d) := by simp [insertAll]
    rw [hlast, hlast]
    by_cases hk : k = key d
    · rw [hk, Function.update_self, Function.update_self]
      rfl
    · rw [Function.update_of_ne hk, Function.update_of_ne hk]
      exact ih

theorem Operation.apply_value {operation : Operation K D} {c c' : Option (Documents K D)}
    (h : operation.apply key c = .ok c') :
    (c'.getD fun _ => none) k = (operation.value key k).getD ((c.getD fun _ => none) k) := by
  cases operation with
  | createIndex primaryKey =>
    cases c with
    | none => cases h; rfl
    | some documents => cases h
  | deleteIndex =>
    cases c with
    | none => cases h
    | some documents => cases h; rfl
  | updateSettings => cases h; rfl
  | addOrReplace batch primaryKey =>
    cases h
    exact insertAll_eq _ batch
  | deleteDocuments keys =>
    cases c with
    | none => cases h
    | some documents =>
      cases h
      unfold Operation.value
      by_cases hk : k ∈ keys <;> simp [eraseAll, hk]

variable (key) in
/-- The index after operations that all succeed. -/
def applyAll (operations : List (Operation K D)) (index : Option (Documents K D)) :
    Except ErrorCode (Option (Documents K D)) :=
  operations.foldlM (fun index operation => operation.apply key index) index

/-- An upsert writes the documents of its batch. -/
theorem Operation.of_value_addOrReplace {batch : List D} {primaryKey : String} {d : Option D}
    (h : (Operation.addOrReplace batch primaryKey).value key k = some d) : ∃ d' ∈ batch, key d' = k ∧ d = some d' := by
  change (insertAll key (fun _ => none) batch k).map some = some d at h
  rcases insertAll_cases key k (fun _ => none) batch with ⟨-, hnone⟩ | ⟨d', hd', hk, hd⟩
  · rw [hnone] at h
    cases h
  · rw [hd] at h
    exact ⟨d', hd', hk, (Option.some.inj h).symm⟩

theorem Operation.value_addOrReplace_isSome {batch : List D} {primaryKey : String} {d : D} (hd : d ∈ batch)
    (hk : key d = k) : ((Operation.addOrReplace batch primaryKey).value key k).isSome := by
  show ((insertAll key (fun _ => none) batch k).map some).isSome
  rcases insertAll_cases key k (fun _ => none) batch with ⟨hnone, -⟩ | ⟨d', -, -, hd'⟩
  · exact absurd hk (hnone d hd)
  · rw [hd']
    rfl

theorem Operation.value_deleteDocuments {keys : List K} :
    (Operation.deleteDocuments keys : Operation K D).value key k = if k ∈ keys then some none else none := rfl

/-! ### Tasks -/

variable (key) in
/-- A task that does not touch the document of `k` in the index `uid`. -/
def Task.Leaves (uid : String) (k : K) : Task K D → Prop
  | .on uid' operation => uid' = uid → operation.value key k = none
  | .swapIndexes a b => a ≠ uid ∧ b ≠ uid

variable {uid : String} {task : Task K D} {server server' : Server K D} {n : ℕ} {d : Option D}

theorem Task.leaves_of_not_mem (h : uid ∉ task.indexes) : task.Leaves key uid k := by
  cases task with
  | on uid' operation =>
    rintro rfl
    exact absurd List.mem_cons_self h
  | swapIndexes a b =>
    simp only [Task.indexes, List.mem_cons, List.not_mem_nil, or_false, not_or] at h
    exact ⟨Ne.symm h.1, Ne.symm h.2⟩

theorem Task.Ends.leaves {indexes indexes' : String → Option (Documents K D)} {result : Except ErrorCode Unit}
    (h : task.Ends key indexes result indexes') (hleaves : task.Leaves key uid k) :
    ((indexes' uid).getD fun _ => none) k = ((indexes uid).getD fun _ => none) k := by
  cases task with
  | on uid' operation =>
    obtain ⟨documents, hends, rfl⟩ := h.of_on
    by_cases hu : uid' = uid
    · subst hu
      rw [Function.update_self]
      cases hends with
      | done h =>
        rw [Operation.apply_value h, hleaves rfl]
        rfl
      | failed h => rfl
      | aborted code => rfl
    · rw [Function.update_of_ne (Ne.symm hu)]
  | swapIndexes a b =>
    cases h with
    | done h =>
      simp only [Task.apply] at h
      split at h
      · cases h
        rw [Function.update_of_ne (Ne.symm hleaves.2), Function.update_of_ne (Ne.symm hleaves.1)]
      · cases h
    | failed h => rfl
    | aborted code => rfl

/-! ### The last write -/

/-- The task `n` makes `d` of the document of `k` and is the last to touch it. -/
inductive LastWrite (key : D → K) (uid : String) (k : K) (d : Option D) (n : ℕ) (server : Server K D) : Prop
  | queued {before after operation} (hqueue : server.queue = before ++ (n, .on uid operation) :: after)
    (hvalue : operation.value key k = some d) (hafter : ∀ q ∈ after, q.2.Leaves key uid k)
  | ran {task result} (hended : server.ended n = some (task, result))
    (hvalue : result = .ok () → server.documents uid k = d) (hqueue : ∀ q ∈ server.queue, q.2.Leaves key uid k)

namespace LastWrite

theorem push_self {operation : Operation K D} (h : operation.value key k = some d) :
    LastWrite key uid k d server.next (server.push (.on uid operation)) :=
  .queued rfl h (by simp)

theorem push (h : LastWrite key uid k d n server) (hleaves : task.Leaves key uid k) :
    LastWrite key uid k d n (server.push task) := by
  cases h with
  | @queued before after operation hqueue hvalue hafter =>
    have hpush : (server.push task).queue = before ++ (n, .on uid operation) :: (after ++ [(server.next, task)]) := by
      unfold Server.push
      rw [hqueue, List.append_assoc, List.cons_append]
    refine .queued hpush hvalue fun q hq => ?_
    rcases List.mem_append.mp hq with hq | hq
    · exact hafter q hq
    · rwa [List.mem_singleton.mp hq]
  | ran hended hvalue hqueue =>
    refine .ran hended hvalue fun q hq => ?_
    rcases List.mem_append.mp hq with hq | hq
    · exact hqueue q hq
    · rwa [List.mem_singleton.mp hq]

/-- The task that makes `d` of the document has run. -/
theorem runs {operation : Operation K D} {before after : List (ℕ × Task K D)} {result : Except ErrorCode Unit}
    {indexes : String → Option (Documents K D)} (hvalue : operation.value key k = some d)
    (hfirst : ∀ q ∈ before, uid ∉ q.2.indexes) (hafter : ∀ q ∈ after, q.2.Leaves key uid k)
    (hends : (Task.on uid operation).Ends key server.indexes result indexes) :
    LastWrite key uid k d n { server with
      indexes := indexes
      queue := before ++ after
      ended := Function.update server.ended n (some (.on uid operation, result)) } := by
  refine .ran (Function.update_self ..) (fun hresult => ?_) fun q hq => ?_
  · obtain ⟨documents, hop, rfl⟩ := hends.of_on
    show ((Function.update server.indexes uid documents uid).getD fun _ => none) k = d
    rw [Function.update_self]
    cases hop with
    | done h =>
      rw [Operation.apply_value h, hvalue]
      rfl
    | failed h => cases hresult
    | aborted code => cases hresult
  · rcases List.mem_append.mp hq with hq | hq
    · exact Task.leaves_of_not_mem (hfirst q hq)
    · exact hafter q hq

theorem moves (h : LastWrite key uid k d n server) (hfresh : server.Fresh) (hm : server.Moves key server') :
    LastWrite key uid k d n server' := by
  cases h with
  | ran hended hvalue hqueue =>
    have hstays := hm.ended hfresh hended
    obtain ⟨id, task, result, hmem, hends, -, -, hsub⟩ := hm.exists_ends
    refine .ran hstays (fun hok => ?_) fun q hq => hqueue q (hsub q hq)
    exact (hends.leaves (hqueue _ hmem)).trans (hvalue hok)
  | @queued before after operation hqueue hvalue hafter =>
    obtain ⟨hqueue', hfirst, hends⟩ := hm
    rename_i before' id task after' result indexes
    have hsplit := hqueue.symm.trans hqueue'
    rcases List.append_eq_append_iff.mp hsplit with ⟨mid, rfl, hmid⟩ | ⟨mid, rfl, hmid⟩
    · cases mid with
      | nil =>
        -- the write itself runs
        obtain ⟨hsame, rfl⟩ := List.cons.inj hmid
        cases hsame
        exact runs hvalue (by simpa [Task.indexes] using hfirst) hafter hends
      | cons q mid =>
        -- a task behind the write runs
        obtain ⟨rfl, rfl⟩ := List.cons.inj hmid
        have hqueue : before ++ (n, Task.on uid operation) :: mid ++ after' =
            before ++ (n, .on uid operation) :: (mid ++ after') := by simp
        refine .queued hqueue hvalue fun q hq => hafter q ?_
        rcases List.mem_append.mp hq with hq | hq <;> simp [hq]
    · cases mid with
      | nil =>
        obtain ⟨hsame, rfl⟩ := List.cons.inj hmid
        cases hsame
        exact runs hvalue (by simpa [Task.indexes] using hfirst) hafter hends
      | cons q mid =>
        -- a task in front of the write runs
        obtain ⟨rfl, rfl⟩ := List.cons.inj hmid
        have hqueue : before' ++ (mid ++ (n, Task.on uid operation) :: after) =
            before' ++ mid ++ (n, .on uid operation) :: after := by simp
        exact .queued hqueue hvalue hafter

/-- Once the last write has succeeded, the document is what it made of it. -/
theorem settled (h : LastWrite key uid k d n server) (hfresh : server.Fresh)
    (hended : ∃ task, server.ended n = some (task, .ok ())) : server.documents uid k = d := by
  obtain ⟨task, hok⟩ := hended
  cases h with
  | @queued before after operation hqueue hvalue hafter =>
    have hmem : (n, Task.on uid operation) ∈ server.queue := by rw [hqueue]; simp
    have hnone : server.ended n = none := (hfresh.queued _ hmem).2
    rw [hok] at hnone
    cases hnone
  | ran hended hvalue hqueue =>
    have hsame := hok.symm.trans hended
    cases hsame
    exact hvalue rfl

end LastWrite

end Wakuwaku.Meilisearch
