import Wakuwaku.World
import Wakuwaku.Entity.Meilisearch.Sync.Hook

/-! # Concurrent calls of the indexer

Any number of calls of `Indexer.process` run while rows of the source are written and Meilisearch runs its
tasks. `step_cases` says what the next event of a call is. `Loaded` and `Written` say what the calls have
loaded and written: each of their steps keeps both. -/

namespace Wakuwaku.Entity.Meilisearch.Sync.Indexer

open Wakuwaku.Meilisearch

variable {ι K E Row D : Type}

/-! ### The world -/

/-- The source, Meilisearch, and from which rows the calls work. -/
structure State (ι K Row D : Type) where
  source : K → Option Row
  /-- How often the row of a key has been written. -/
  version : K → ℕ
  server : Server K D
  /-- The version of the row of a key that a call has loaded. -/
  loaded : ι → K → Option ℕ
  /-- The newest version of the row of a key that a write of its document was made from. -/
  newest : K → ℕ

section

variable [DecidableEq K] (projection : Projection K Row D)

namespace State

/-- The row of `k` is written, or deleted. -/
def write (s : State ι K Row D) (k : K) (row : Option Row) : State ι K Row D :=
  { s with
    source := Function.update s.source k row
    version := Function.update s.version k (s.version k + 1) }

/-- The call `i` asks for `event`, and Meilisearch is then `server`. -/
def request (s : State ι K Row D) (i : ι) (event : Meilisearch.Event K D) (server : Server K D) : State ι K Row D :=
  { s with
    server := server
    newest := match event with
      | .enqueue (.on _ operation) _ => fun k =>
        if (operation.value projection.index.key k).isSome then max (s.newest k) ((s.loaded i k).getD 0) else s.newest k
      | _ => s.newest }

variable {s : State ι K Row D} {k k' : K} {row : Option Row}

theorem write_source_self : (s.write k row).source k = row := Function.update_self ..

theorem write_source_of_ne (h : k' ≠ k) : (s.write k row).source k' = s.source k' := Function.update_of_ne h ..

theorem write_version_self : (s.write k row).version k = s.version k + 1 := Function.update_self ..

theorem write_version_of_ne (h : k' ≠ k) : (s.write k row).version k' = s.version k' := Function.update_of_ne h ..

section Newest

variable {projection} {i : ι} {uid : String} {operation : Operation K D} {answer : Option (Except Error ℕ)}
  {server : Server K D}

theorem newest_request {d : Option D} {version : ℕ} (hvalue : operation.value projection.index.key k = some d)
    (hloaded : s.loaded i k = some version) :
    (s.request projection i (.enqueue (.on uid operation) answer) server).newest k = max (s.newest k) version := by
  simp [request, hvalue, hloaded]

theorem newest_request_of_eq_none (hvalue : operation.value projection.index.key k = none) :
    (s.request projection i (.enqueue (.on uid operation) answer) server).newest k = s.newest k := by
  simp [request, hvalue]

theorem le_newest_request :
    s.newest k ≤ (s.request projection i (.enqueue (.on uid operation) answer) server).newest k := by
  show _ ≤ if (operation.value projection.index.key k).isSome then _ else _
  split_ifs
  · exact Nat.le_max_left _ _
  · exact Nat.le_refl _

end Newest

variable [DecidableEq ι]

/-- The call `i` loads the rows of `keys`. -/
def load (s : State ι K Row D) (i : ι) (keys : List K) : State ι K Row D :=
  { s with loaded := Function.update s.loaded i fun k => if k ∈ keys then some (s.version k) else s.loaded i k }

variable {i j : ι} {keys : List K}

theorem load_self : (s.load i keys).loaded i k = if k ∈ keys then some (s.version k) else s.loaded i k := by
  simp [load]

theorem load_of_ne (h : j ≠ i) : (s.load i keys).loaded j = s.loaded j := Function.update_of_ne h ..

end State

variable [DecidableEq ι]

inductive Answered (s : State ι K Row D) : ι × Event K E Row D → State ι K Row D → Prop
  | load {i keys rows} (h : ∀ row, row ∈ rows ↔ ∃ k ∈ keys, s.source k = some row) :
    Answered s (i, .load keys (some (.ok rows))) (s.load i keys)
  | unloaded {i keys answer} (h : ∀ rows, answer ≠ some (.ok rows)) : Answered s (i, .load keys answer) s
  | meili {i event server} (h : s.server.Answers event server) :
    Answered s (i, .meili event) (s.request projection i event server)

/-- A row of the source is written, or Meilisearch runs a task. -/
inductive Moves (s : State ι K Row D) : State ι K Row D → Prop
  | write (k) (row : Option Row) (h : ∀ r, row = some r → projection.key r = k) : Moves s (s.write k row)
  | run {server} (h : s.server.Moves projection.index.key server) : Moves s { s with server := server }

/-- Requests of calls, between writes of the source and tasks. -/
def world : World (State ι K Row D) (ι × Event K E Row D) := ⟨Answered projection, Moves projection⟩

/-- A write of a document is not enqueued behind one that was made from a newer version of its row. -/
def InOrder (s : State ι K Row D) : ι × Event K E Row D → Prop
  | (i, .meili (.enqueue (.on _ operation) _)) => ∀ k version,
    (operation.value projection.index.key k).isSome → s.loaded i k = some version → s.newest k ≤ version
  | _ => True

def inOrder : World (State ι K Row D) (ι × Event K E Row D) :=
  (world projection).restrict fun s e _ => InOrder projection s e

/-- No call has begun. -/
structure Started (s : State ι K Row D) : Prop where
  keyed : ∀ k row, s.source k = some row → projection.key row = k
  fresh : s.server.Fresh
  loaded : ∀ i k, s.loaded i k = none
  newest : ∀ k, s.newest k = 0

/-- The events of the call `i`. -/
def eventsOf (i : ι) (t : List (ι × Event K E Row D)) : List (Event K E Row D) :=
  (t.filter fun q => q.1 = i).map Prod.snd

end

variable [DecidableEq ι] {i j : ι} {t u : List (ι × Event K E Row D)} {e : Event K E Row D}

theorem eventsOf_append : eventsOf i (t ++ u) = eventsOf i t ++ eventsOf i u := by simp [eventsOf]

@[simp]
theorem eventsOf_append_self : eventsOf i (t ++ [(i, e)]) = eventsOf i t ++ [e] := by simp [eventsOf]

theorem eventsOf_append_of_ne (h : j ≠ i) : eventsOf i (t ++ [(j, e)]) = eventsOf i t := by simp [eventsOf, h]

theorem mem_eventsOf : e ∈ eventsOf i t ↔ (i, e) ∈ t := by simp [eventsOf]

variable [DecidableEq K] {projection : Projection K Row D} {calls : ι → List K} {s s' : State ι K Row D}

/-! ### What the calls have done -/

/-- The call `i` has loaded `rows` first. -/
def Loads (calls : ι → List K) (t : List (ι × Event K E Row D)) (i : ι) (rows : List Row) : Prop :=
  (eventsOf i t).head? = some (.load (calls i) (some (.ok rows)))

variable (projection calls) in
/-- Each call has done what a call does that succeeds. -/
def Begun (t : List (ι × Event K E Row D)) : Prop := ∀ i, eventsOf i t = [] ∨ ∃ rows rest,
  eventsOf i t = .load (calls i) (some (.ok rows)) :: rest ∧ ∀ e ∈ rest,
    (∃ operation ∈ writes projection (calls i) rows, ∃ id, e = enqueued projection.index.uid (operation, id)) ∨
      ∃ timeout id, e = awaited timeout id

theorem Begun.of_append (h : Begun projection calls (t ++ u)) : Begun projection calls t := by
  intro i
  have hi := h i
  rw [eventsOf_append] at hi
  cases hev : eventsOf i t with
  | nil => exact .inl rfl
  | cons e rest =>
    rw [hev] at hi
    obtain hnil | ⟨rows, rest', hsplit, hrest⟩ := hi
    · cases hnil
    · obtain ⟨rfl, rfl⟩ := List.cons.inj hsplit
      exact .inr ⟨rows, rest, rfl, fun e he => hrest e (List.mem_append_left _ he)⟩

/-- The next event of a call: its load, one of its writes or one of its waits. -/
theorem step_cases {e : ι × Event K E Row D} (h : Begun projection calls (t ++ [e]))
    (hs : (world projection).step s e s') :
    (∃ i rows, e = (i, .load (calls i) (some (.ok rows))) ∧ eventsOf i t = [] ∧
      (∀ row, row ∈ rows ↔ ∃ k ∈ calls i, s.source k = some row) ∧ s' = s.load i (calls i)) ∨
    (∃ i rows operation, e = (i, enqueued projection.index.uid (operation, s.server.next)) ∧ Loads calls t i rows ∧
      operation ∈ writes projection (calls i) rows ∧
      s' = s.request projection i (.enqueue (.on projection.index.uid operation) (some (.ok s.server.next)))
        (s.server.push (.on projection.index.uid operation))) ∨
    ∃ i timeout id task, e = (i, awaited timeout id) ∧ eventsOf i t ≠ [] ∧
      s.server.ended id = some (task, .ok ()) ∧ s' = s := by
  obtain ⟨i, e⟩ := e
  have hi := h i
  rw [eventsOf_append_self] at hi
  obtain hnil | ⟨rows, rest, hsplit, hrest⟩ := hi
  · simp at hnil
  cases hev : eventsOf i t with
  | nil =>
    rw [hev] at hsplit
    obtain ⟨rfl, -⟩ := List.cons.inj hsplit
    cases hs with
    | load hrows => exact .inl ⟨i, rows, rfl, hev, hrows, rfl⟩
    | unloaded hnot => exact absurd rfl (hnot rows)
  | cons e' rest' =>
    rw [hev] at hsplit
    obtain ⟨rfl, rfl⟩ := List.cons.inj hsplit
    obtain ⟨operation, hmem, id, rfl⟩ | ⟨timeout, id, rfl⟩ := hrest e (by simp)
    · cases hs with
      | meili hanswer =>
        cases hanswer with
        | accepted => exact .inr (.inl ⟨i, rows, operation, rfl, by rw [Loads, hev]; rfl, hmem, rfl⟩)
        | lost _ hnot => exact absurd rfl (hnot id)
        | refused _ hnot => exact absurd rfl (hnot id)
    · cases hs with
      | meili hanswer =>
        cases hanswer with
        | told htells =>
          obtain ⟨task, hended⟩ := htells
          exact .inr (.inr ⟨i, timeout, id, task, rfl, by rw [hev]; simp, hended, rfl⟩)

/-! ### What the calls have loaded -/

variable (projection calls) in
/-- What a call that loaded `rows` knows about each of its keys. -/
structure Knows (s : State ι K Row D) (i : ι) (rows : List Row) : Prop where
  others : ∀ k, k ∉ calls i → s.loaded i k = none
  keys : ∀ row ∈ rows, projection.key row ∈ calls i
  own : ∀ k ∈ calls i, ∃ version row?, s.loaded i k = some version ∧
    (∀ row, row ∈ rows ∧ projection.key row = k ↔ row? = some row) ∧
    version ≤ s.version k ∧ (version = s.version k → row? = s.source k)

variable (projection calls) in
/-- What the calls have loaded, after the events `t`. -/
structure Loaded (t : List (ι × Event K E Row D)) (s : State ι K Row D) : Prop where
  keyed : ∀ k row, s.source k = some row → projection.key row = k
  unloaded : ∀ i, eventsOf i t = [] → ∀ k, s.loaded i k = none
  knows : ∀ i rows, Loads calls t i rows → Knows projection calls s i rows

omit [DecidableEq K] [DecidableEq ι] in
theorem Knows.congr {rows : List Row} (h : Knows projection calls s i rows) (hsource : s'.source = s.source)
    (hversion : s'.version = s.version) (hloaded : s'.loaded = s.loaded) : Knows projection calls s' i rows := by
  obtain ⟨hothers, hkeys, hown⟩ := h
  exact ⟨by rwa [hloaded], hkeys, by rwa [hloaded, hversion, hsource]⟩

namespace Loaded

theorem load (h : Loaded projection calls t s) (hi : eventsOf i t = []) {rows : List Row}
    (hrows : ∀ row, row ∈ rows ↔ ∃ k ∈ calls i, s.source k = some row) :
    Loaded projection calls (t ++ [(i, .load (calls i) (some (.ok rows)))]) (s.load i (calls i)) := by
  refine ⟨h.keyed, fun j hj => ?_, fun j rows' hj => ?_⟩
  · by_cases hne : i = j
    · subst hne
      simp at hj
    · rw [eventsOf_append_of_ne hne] at hj
      rw [State.load_of_ne (Ne.symm hne)]
      exact h.unloaded j hj
  · by_cases hne : i = j
    · subst hne
      unfold Loads at hj
      rw [eventsOf_append_self, hi] at hj
      cases hj
      refine ⟨fun k hk => ?_, fun row hrow => ?_, fun k hk => ?_⟩
      · rw [State.load_self, if_neg hk]
        exact h.unloaded i hi k
      · obtain ⟨k, hk, hsource⟩ := (hrows row).mp hrow
        exact h.keyed k row hsource ▸ hk
      · refine ⟨s.version k, s.source k, by rw [State.load_self, if_pos hk],
          fun row => ⟨?_, fun hrow => ?_⟩, Nat.le_refl _, fun _ => rfl⟩
        · rintro ⟨hrow, rfl⟩
          obtain ⟨k, -, hsource⟩ := (hrows row).mp hrow
          rw [h.keyed k row hsource]
          exact hsource
        · exact ⟨(hrows row).mpr ⟨k, hk, hrow⟩, h.keyed k row hrow⟩
    · unfold Loads at hj
      rw [eventsOf_append_of_ne hne] at hj
      obtain ⟨hothers, hkeys, hown⟩ := h.knows j rows' hj
      have hloaded : (s.load i (calls i)).loaded j = s.loaded j := State.load_of_ne (Ne.symm hne)
      exact ⟨by rwa [hloaded], hkeys, by rwa [hloaded]⟩

omit [DecidableEq K] in
/-- A request changes nothing about the rows. -/
theorem request (h : Loaded projection calls t s) (hi : eventsOf i t ≠ []) (hsource : s'.source = s.source)
    (hversion : s'.version = s.version) (hloaded : s'.loaded = s.loaded) :
    Loaded projection calls (t ++ [(i, e)]) s' := by
  have hhead : ∀ j, (eventsOf j (t ++ [(i, e)])).head? = (eventsOf j t).head? := by
    intro j
    by_cases hne : i = j
    · subst hne
      rw [eventsOf_append_self, List.head?_append_of_ne_nil _ hi]
    · rw [eventsOf_append_of_ne hne]
  refine ⟨fun k => hsource ▸ h.keyed k, fun j hj => ?_, fun j rows hj => ?_⟩
  · rw [hloaded]
    refine h.unloaded j ?_
    rw [← List.head?_eq_none_iff, ← hhead j, hj]
    rfl
  · unfold Loads at hj
    rw [hhead j] at hj
    exact (h.knows j rows hj).congr hsource hversion hloaded

/-- A row written is newer than those loaded. -/
theorem write (h : Loaded projection calls t s) {k : K} {row : Option Row}
    (hrow : ∀ r, row = some r → projection.key r = k) : Loaded projection calls t (s.write k row) := by
  refine ⟨fun k' r hr => ?_, h.unloaded, fun i rows hi => ?_⟩
  · by_cases hk : k' = k
    · subst hk
      exact hrow r (State.write_source_self.symm.trans hr)
    · exact h.keyed k' r ((State.write_source_of_ne hk).symm.trans hr)
  · obtain ⟨hothers, hkeys, hown⟩ := h.knows i rows hi
    refine ⟨hothers, hkeys, fun k' hk' => ?_⟩
    obtain ⟨version, row?, hloaded, hrows, hle, hsame⟩ := hown k' hk'
    refine ⟨version, row?, hloaded, hrows, ?_⟩
    by_cases hk : k' = k
    · subst hk
      rw [State.write_version_self]
      exact ⟨by omega, fun _ => by omega⟩
    · rw [State.write_version_of_ne hk, State.write_source_of_ne hk]
      exact ⟨hle, hsame⟩

end Loaded

/-! ### What the calls have written -/

variable (projection) in
/-- The call `i` has enqueued the task `id`, which makes `d` of the document of `k`. -/
def Writes (t : List (ι × Event K E Row D)) (i : ι) (id : ℕ) (k : K) (d : Option D) : Prop :=
  ∃ operation, (i, enqueued projection.index.uid (operation, id)) ∈ t ∧
    operation.value projection.index.key k = some d

variable (projection) in
/-- What the calls have written, after the events `t`. -/
structure Written (t : List (ι × Event K E Row D)) (s : State ι K Row D) : Prop where
  fresh : s.server.Fresh
  newest : ∀ i id k d version, Writes projection t i id k d → s.loaded i k = some version → version ≤ s.newest k
  last : ∀ k, (∀ i id d, ¬ Writes projection t i id k d) ∨
    ∃ i id d version, Writes projection t i id k d ∧
      LastWrite projection.index.key projection.index.uid k d id s.server ∧
      s.loaded i k = some version ∧ s.newest k ≤ version
  told : ∀ i timeout id, (i, awaited timeout id) ∈ t → ∃ task, s.server.ended id = some (task, .ok ())

section Events

omit [DecidableEq ι]

variable {id : ℕ} {k : K} {d : Option D}

theorem writes_load {keys : List K} {answer : Option (Except E (List Row))} :
    Writes projection (t ++ [(j, .load keys answer)]) i id k d ↔ Writes projection t i id k d := by
  simp [Writes, enqueued]

theorem writes_awaited {timeout n : ℕ} :
    Writes projection (t ++ [(j, awaited timeout n)]) i id k d ↔ Writes projection t i id k d := by
  simp [Writes, enqueued, awaited]

theorem writes_enqueued {operation : Operation K D} {n : ℕ} :
    Writes projection (t ++ [(j, enqueued projection.index.uid (operation, n))]) i id k d ↔
      Writes projection t i id k d ∨ i = j ∧ id = n ∧ operation.value projection.index.key k = some d := by
  constructor
  · rintro ⟨operation', he, hvalue⟩
    rcases List.mem_append.mp he with he | he
    · exact .inl ⟨operation', he, hvalue⟩
    · cases List.mem_singleton.mp he
      exact .inr ⟨rfl, rfl, hvalue⟩
  · rintro (⟨operation', he, hvalue⟩ | ⟨rfl, rfl, hvalue⟩)
    · exact ⟨operation', List.mem_append_left _ he, hvalue⟩
    · exact ⟨operation, by simp, hvalue⟩

end Events

namespace Written

theorem load (h : Written projection t s) (hi : eventsOf i t = []) {keys : List K} {rows : List Row} :
    Written projection (t ++ [(i, .load keys (some (.ok rows)))]) (s.load i keys) := by
  have hold : ∀ {j id k d}, Writes projection t j id k d → (s.load i keys).loaded j = s.loaded j := by
    rintro j id k d ⟨operation, he, -⟩
    refine State.load_of_ne fun hji => ?_
    rw [hji, ← mem_eventsOf, hi] at he
    cases he
  refine ⟨h.fresh, fun j id k d version hw hloaded => ?_, fun k => ?_, fun j timeout id he => ?_⟩
  · rw [writes_load] at hw
    rw [hold hw] at hloaded
    exact h.newest j id k d version hw hloaded
  · simp only [writes_load]
    refine (h.last k).imp_right fun ⟨j, id, d, version, hw, hlast, hloaded, hle⟩ => ?_
    exact ⟨j, id, d, version, hw, hlast, by rwa [hold hw], hle⟩
  · rcases List.mem_append.mp he with he | he
    · exact h.told j timeout id he
    · cases List.mem_singleton.mp he

omit [DecidableEq ι]

theorem enqueue (h : Written projection t s) {operation : Operation K D} {e : Event K E Row D}
    (he : e = enqueued projection.index.uid (operation, s.server.next)) (horder : InOrder projection s (i, e))
    (hloaded : ∀ k d, operation.value projection.index.key k = some d → ∃ version, s.loaded i k = some version) :
    Written projection (t ++ [(i, e)])
      (s.request projection i (.enqueue (.on projection.index.uid operation) (some (.ok s.server.next)))
        (s.server.push (.on projection.index.uid operation))) := by
  subst he
  refine ⟨h.fresh.push _, fun j id k d version hw hj => ?_, fun k => ?_, fun j timeout id he => ?_⟩
  · rcases writes_enqueued.mp hw with hw | ⟨rfl, -, hvalue⟩
    · exact Nat.le_trans (h.newest j id k d version hw hj) State.le_newest_request
    · have hi : s.loaded j k = some version := hj
      rw [State.newest_request hvalue hi]
      exact Nat.le_max_right _ _
  · simp only [writes_enqueued]
    cases hvalue : operation.value projection.index.key k with
    | none =>
      -- the document is not touched
      rcases h.last k with hnone | ⟨j, id, d, version, hw, hlast, hj, hle⟩
      · refine .inl fun j id d hw => ?_
        rcases hw with hw | ⟨-, -, hd⟩
        · exact hnone j id d hw
        · cases hd
      · refine .inr ⟨j, id, d, version, .inl hw, hlast.push fun _ => hvalue, hj, ?_⟩
        rw [State.newest_request_of_eq_none hvalue]
        exact hle
    | some d =>
      obtain ⟨version, hi⟩ := hloaded k d hvalue
      refine .inr ⟨i, s.server.next, d, version, .inr ⟨rfl, rfl, rfl⟩, .push_self hvalue, hi, ?_⟩
      have hle := horder k version (by rw [hvalue]; rfl) hi
      rw [State.newest_request hvalue hi]
      exact Nat.max_le.mpr ⟨hle, Nat.le_refl _⟩
  · rcases List.mem_append.mp he with he | he
    · exact h.told j timeout id he
    · cases List.mem_singleton.mp he

theorem await (h : Written projection t s) {timeout id : ℕ} {task : Task K D}
    (hended : s.server.ended id = some (task, .ok ())) :
    Written projection (t ++ [(i, (awaited timeout id : Event K E Row D))]) s := by
  refine ⟨h.fresh, fun j id' k d version hw => h.newest j id' k d version (writes_awaited.mp hw), fun k => ?_,
    fun j timeout' id' he => ?_⟩
  · simp only [writes_awaited]
    exact h.last k
  · rcases List.mem_append.mp he with he | he
    · exact h.told j timeout' id' he
    · cases List.mem_singleton.mp he
      exact ⟨task, hended⟩

theorem run (h : Written projection t s) {server : Server K D} (hm : s.server.Moves projection.index.key server) :
    Written projection t { s with server := server } := by
  refine ⟨h.fresh.moves hm, h.newest, fun k => ?_, fun i timeout id he => ?_⟩
  · refine (h.last k).imp_right fun ⟨i, id, d, version, hw, hlast, hrest⟩ => ?_
    exact ⟨i, id, d, version, hw, hlast.moves h.fresh hm, hrest⟩
  · obtain ⟨task, hended⟩ := h.told i timeout id he
    exact ⟨task, hm.ended h.fresh hended⟩

end Written

end Wakuwaku.Entity.Meilisearch.Sync.Indexer
