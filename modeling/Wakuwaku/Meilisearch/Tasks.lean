import Wakuwaku.Meilisearch.Server

/-! # The tasks of one index

While every task in the queue is on one index they run in order. `Working` says what the index held
before a list of operations of which some have run; once the first has succeeded it can be taken off
(`Working.settled`). -/

namespace Wakuwaku.Meilisearch

variable {K D : Type} {server server' : Server K D}

/-- A task on one index. -/
def taskOn (uid : String) (q : ℕ × Operation K D) : ℕ × Task K D := (q.1, .on uid q.2)

variable [DecidableEq K] (key : D → K) (uid : String)

/-- `now` is what the index holds, if it held `c` before the operations `done` and they succeeded. -/
def Content (ended : ℕ → Option (Task K D × Except ErrorCode Unit)) (now : Option (Documents K D)) :
    Option (Documents K D) → List (ℕ × Operation K D) → Prop
  | c, [] => now = c
  | c, q :: done => ended q.1 = some ((taskOn uid q).2, .ok ()) →
    ∃ c', q.2.apply key c = .ok c' ∧ Content ended now c' done

/-- The operations `todo` on the index, which held `c`, have run or are left in the queue. -/
def Working (c : Option (Documents K D)) (todo : List (ℕ × Operation K D)) (server : Server K D) : Prop :=
  ∃ done rest, todo = done ++ rest ∧ server.queue = rest.map (taskOn uid) ∧
    (∀ q ∈ done, ∃ result, server.ended q.1 = some ((taskOn uid q).2, result)) ∧
    Content key uid server.ended (server.indexes uid) c done

variable {key uid} {c : Option (Documents K D)} {todo : List (ℕ × Operation K D)}

/-- The first of tasks that are all on one index runs. -/
theorem Server.Moves.on {id : ℕ} {operation : Operation K D} {rest : List (ℕ × Task K D)}
    (hm : server.Moves key server') (hqueue : server.queue = (id, .on uid operation) :: rest)
    (hrest : ∀ q ∈ rest, ∃ operation, q.2 = .on uid operation) :
    ∃ result documents, operation.Ends key (server.indexes uid) result documents ∧ server' = { server with
      indexes := Function.update server.indexes uid documents
      queue := rest
      ended := Function.update server.ended id (some (.on uid operation, result)) } := by
  obtain ⟨result, indexes, hends, rfl⟩ := hm.head hqueue fun q hq => by
    obtain ⟨operation', ho⟩ := hrest q hq
    exact ⟨uid, by simp [ho, Task.indexes], by simp [Task.indexes]⟩
  obtain ⟨documents, hop, rfl⟩ := hends.of_on
  exact ⟨result, documents, hop, rfl⟩

theorem Content.congr {ended ended' : ℕ → Option (Task K D × Except ErrorCode Unit)}
    {now : Option (Documents K D)} {done : List (ℕ × Operation K D)} (h : Content key uid ended now c done)
    (he : ∀ q ∈ done, ended' q.1 = ended q.1) : Content key uid ended' now c done := by
  induction done generalizing c with
  | nil => exact h
  | cons q done ih =>
    intro hq
    rw [he q List.mem_cons_self] at hq
    obtain ⟨c', hc, hdone⟩ := h hq
    exact ⟨c', hc, ih hdone fun q' hq' => he q' (List.mem_cons_of_mem _ hq')⟩

/-- One more operation ends. -/
theorem Content.snoc {ended : ℕ → Option (Task K D × Except ErrorCode Unit)} {now now' : Option (Documents K D)}
    {done : List (ℕ × Operation K D)} {q : ℕ × Operation K D} (h : Content key uid ended now c done)
    (hq : ended q.1 = some ((taskOn uid q).2, .ok ()) → q.2.apply key now = .ok now') :
    Content key uid ended now' c (done ++ [q]) := by
  induction done generalizing c with
  | nil =>
    obtain rfl : now = c := h
    exact fun he => ⟨now', hq he, rfl⟩
  | cons q' done ih =>
    intro he
    obtain ⟨c', hc, hdone⟩ := h he
    exact ⟨c', hc, ih hdone⟩

namespace Working

theorem on (h : Working key uid c todo server) : ∀ q ∈ server.queue, ∃ operation, q.2 = .on uid operation := by
  obtain ⟨done, rest, -, hqueue, -, -⟩ := h
  rw [hqueue]
  intro q hq
  obtain ⟨q, -, rfl⟩ := List.mem_map.mp hq
  exact ⟨q.2, rfl⟩

theorem moves (h : Working key uid c todo server) (hfresh : server.Fresh) (hm : server.Moves key server') :
    Working key uid c todo server' := by
  obtain ⟨done, rest, rfl, hqueue, hended, hcontent⟩ := h
  cases rest with
  | nil => exact absurd hqueue hm.queue_ne_nil
  | cons q rest =>
    obtain ⟨result, documents, hop, rfl⟩ := hm.on hqueue fun q hq => by
      obtain ⟨q, -, rfl⟩ := List.mem_map.mp hq
      exact ⟨q.2, rfl⟩
    have hnew : server.ended q.1 = none := (hfresh.queued (taskOn uid q) (by rw [hqueue]; simp)).2
    have hne : ∀ q' ∈ done, q'.1 ≠ q.1 := by
      intro q' hq' he
      obtain ⟨result', hr⟩ := hended q' hq'
      rw [he, hnew] at hr
      cases hr
    have hkeep : ∀ q' ∈ done, Function.update server.ended q.1 (some ((taskOn uid q).2, result)) q'.1 =
        server.ended q'.1 := fun q' hq' => Function.update_of_ne (hne q' hq') ..
    refine ⟨done ++ [q], rest, by simp, rfl, fun q' hq' => ?_, ?_⟩
    · rcases List.mem_append.mp hq' with hq' | hq'
      · obtain ⟨result', hr⟩ := hended q' hq'
        exact ⟨result', (hkeep q' hq').trans hr⟩
      · rw [List.mem_singleton.mp hq']
        exact ⟨result, Function.update_self ..⟩
    · show Content key uid _ (Function.update server.indexes uid documents uid) c _
      rw [Function.update_self]
      refine (hcontent.congr hkeep).snoc fun he => ?_
      have hresult : result = .ok () := by
        rw [Function.update_self] at he
        exact (Prod.mk.inj (Option.some.inj he)).2
      subst hresult
      cases hop with
      | done h => exact h

/-- One more operation is enqueued. -/
theorem push (h : Working key uid c todo server) (operation : Operation K D) :
    Working key uid c (todo ++ [(server.next, operation)]) (server.push (.on uid operation)) := by
  obtain ⟨done, rest, rfl, hqueue, hended, hcontent⟩ := h
  refine ⟨done, rest ++ [(server.next, operation)], by simp, ?_, hended, hcontent⟩
  simp [Server.push, hqueue, taskOn]

/-- The first of the operations has succeeded. -/
theorem settled {q : ℕ × Operation K D} (h : Working key uid c (q :: todo) server) (hfresh : server.Fresh)
    (hended : ∃ task, server.ended q.1 = some (task, .ok ())) :
    ∃ c', q.2.apply key c = .ok c' ∧ Working key uid c' todo server := by
  obtain ⟨task, hok⟩ := hended
  obtain ⟨done, rest, hsplit, hqueue, hdone, hcontent⟩ := h
  cases done with
  | nil =>
    rw [List.nil_append] at hsplit
    have hmem : taskOn uid q ∈ server.queue := by rw [hqueue, ← hsplit]; simp
    have hnone : server.ended q.1 = none := (hfresh.queued _ hmem).2
    rw [hok] at hnone
    cases hnone
  | cons q' done =>
    obtain ⟨rfl, rfl⟩ := List.cons.inj hsplit
    obtain ⟨result, hr⟩ := hdone q List.mem_cons_self
    have hresult := hok.symm.trans hr
    obtain ⟨rfl, rfl⟩ := Prod.mk.inj (Option.some.inj hresult)
    obtain ⟨c', hc, hrest⟩ := hcontent hok
    exact ⟨c', hc, done, rest, rfl, hqueue, fun q' hq' => hdone q' (List.mem_cons_of_mem _ hq'), hrest⟩

/-- Nothing is left. -/
theorem eq_of_nil (h : Working key uid c [] server) : server.queue = [] ∧ server.indexes uid = c := by
  obtain ⟨done, rest, hsplit, hqueue, -, hcontent⟩ := h
  obtain ⟨rfl, rfl⟩ := List.append_eq_nil_iff.mp hsplit.symm
  exact ⟨hqueue, hcontent⟩

end Working

end Wakuwaku.Meilisearch
