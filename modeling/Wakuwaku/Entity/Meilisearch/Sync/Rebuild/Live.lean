import Wakuwaku.Entity.Meilisearch.Sync.Rebuild.Phases

/-! # The live index during a rebuild

At every moment the live index holds its old documents or those of all rows read. If a rebuild succeeds
it holds the latter. If a rebuild fails it holds the old ones, unless a request or a wait failed although
the swap was enqueued or had taken effect. -/

namespace Wakuwaku.Entity.Meilisearch.Sync

open Wakuwaku.Meilisearch World

variable {K E Row D α : Type} [DecidableEq K]

section

variable (projection : Projection K Row D) (old : Documents K D) (first : ℕ) (strict : Prop)

/-- The world in which, if `strict`, nothing fails once the swap stands. -/
def guarded : World (State K Row D) (Event K E Row D) :=
  (world projection).restrict fun _ e s' => strict → SwapStands projection first s'.server → ¬ e.Failed

/-- A stable statement about the server and the rows read. -/
abbrev Phase (E : Type) : Type := Assertion (guarded (E := E) projection first strict)

/-- What holds at every moment. -/
def Safe (server : Server K D) (read : List Row) : Prop :=
  Untouched projection old server ∨ (∃ id, Swapping projection old (documentsOf projection read) first id server) ∨
    Swapped projection (documentsOf projection read) first server

variable {projection first strict}

/-- An assertion about the server and the rows read. -/
def about (P : Server K D → List Row → Prop)
    (h : ∀ {server server' read}, P server read → server.Moves projection.index.key server' → P server' read) :
    Phase projection first strict E where
  holds s := P s.server s.read
  stable hs hm := hm.2 ▸ h hs hm.1

variable {old}

theorem Safe.moves {server server' : Server K D} {read : List Row} (h : Safe projection old first server read)
    (hm : server.Moves projection.index.key server') : Safe projection old first server' read := by
  rcases h with h | ⟨id, h⟩ | h
  · exact .inl (h.moves hm)
  · exact .inr (.inl ⟨id, h.moves hm⟩)
  · exact .inr (.inr (h.moves hm))

variable (projection old first strict)

def safe : Phase projection first strict E := about (Safe projection old first) Safe.moves

/-- What holds once the rebuild has failed. -/
def failed : Phase projection first strict E :=
  about (fun server read => Untouched projection old server ∨ ¬ strict ∧ Safe projection old first server read)
    fun h hm => h.imp (·.moves hm) fun ⟨hs, h⟩ => ⟨hs, h.moves hm⟩

variable {projection old first strict}

theorem safe_of_failed (s : State K Row D) (h : failed (E := E) projection old first strict s) :
    safe (E := E) projection old first strict s :=
  h.elim .inl And.right

/-! ### Requests and waits -/

/-- A failure is one the claim is about. -/
def MayFail (projection : Projection K Row D) (first : ℕ) (strict : Prop) (server : Server K D) : Prop :=
  strict → ¬ SwapStands projection first server

variable {p : Phase projection first strict E} {task : Task K D} {options : RebuildOptions}

theorem triple_enqueue {q : ℕ → Phase projection first strict E}
    (hsafe : ∀ s, p s → Safe projection old first s.server s.read)
    (hqsafe : ∀ id s, q id s → Safe projection old first s.server s.read)
    (haccepted : ∀ s, p s → q s.server.next { s with server := s.server.push task })
    (hlost : ∀ s, p s → MayFail projection first strict (s.server.push task) →
      failed (E := E) projection old first strict { s with server := s.server.push task })
    (hrefused : ∀ s, p s → MayFail projection first strict s.server → failed (E := E) projection old first strict s) :
    Triple (safe projection old first strict) p (tryMeili (enqueue .meili task) : Syncing (Event K E Row D) E ℕ).run
      (outcome (failed projection old first strict) q) := by
  refine Triple.mapError safe_of_failed hqsafe (Triple.call hsafe ?_ ?_)
  · rintro s a s' hs ⟨hanswered, hallowed⟩
    cases hanswered with
    | meili h =>
      cases h with
      | accepted => exact ⟨hqsafe _ _ (haccepted s hs), haccepted s hs⟩
      | lost _ hnot =>
        cases a with
        | ok id => exact absurd rfl (hnot id)
        | error e =>
          have h := hlost s hs fun hstrict hstands => hallowed hstrict hstands trivial
          exact ⟨safe_of_failed _ h, h⟩
      | refused _ hnot =>
        cases a with
        | ok id => exact absurd rfl (hnot id)
        | error e =>
          have h := hrefused s hs fun hstrict hstands => hallowed hstrict hstands trivial
          exact ⟨safe_of_failed _ h, h⟩
  · rintro s s' hs ⟨hanswered, -⟩
    cases hanswered with
    | meili h =>
      cases h with
      | lost _ _ => exact hqsafe _ _ (haccepted s hs)
      | refused _ _ => exact hsafe s hs

/-- What a wait for a task can tell. -/
theorem triple_wait {id : ℕ} {q : Except Error Unit → Phase projection first strict E}
    (hsafe : ∀ s, p s → Safe projection old first s.server s.read)
    (hqsafe : ∀ r s, q r s → Safe projection old first s.server s.read)
    (hok : ∀ s, p s → (∃ task, s.server.ended id = some (task, .ok ())) → q (.ok ()) s)
    (hcode : ∀ s code, p s → (∃ task, s.server.ended id = some (task, .error code)) →
      MayFail projection first strict s.server → q (.error (.meilisearch code)) s)
    (herror : ∀ s e, p s → (∀ code, e = .meilisearch code → code ≠ .indexNotFound ∧ code ≠ .indexAlreadyExists) →
      MayFail projection first strict s.server → q (.error e) s) :
    Triple (safe projection old first strict) p (settle options id) q := by
  have htimeout : ∀ s, p s → MayFail projection first strict s.server → q (.error .timeout) s :=
    fun s hs hmay => herror s _ hs (fun code he => by cases he) hmay
  refine Triple.bind (q := fun r => q (r.bind result)) (Triple.call hsafe ?_ ?_) fun r =>
    Triple.pure fun s h => ⟨hqsafe _ s h, h⟩
  · rintro s a s' hs ⟨hanswered, hallowed⟩
    suffices h : q (a.bind result) s' from ⟨hqsafe _ s' h, h⟩
    cases hanswered with
    | meili h =>
      cases h with
      | told htells =>
        rcases a with e | _ | _ | _ | code
        · refine herror s e hs (fun code he => ?_) fun hstrict hstands => hallowed hstrict hstands trivial
          subst he
          exact htells
        · exact htimeout s hs fun hstrict hstands => hallowed hstrict hstands nofun
        · exact htimeout s hs fun hstrict hstands => hallowed hstrict hstands nofun
        · exact hok s hs htells
        · exact hcode s code hs htells fun hstrict hstands => hallowed hstrict hstands nofun
  · rintro s s' hs ⟨hanswered, -⟩
    cases hanswered with
    | meili h =>
      cases h with
      | told htells => exact hsafe s hs

/-- A wait that must succeed. -/
theorem triple_settle {id : ℕ} {q : Phase projection first strict E}
    (hsafe : ∀ s, p s → Safe projection old first s.server s.read)
    (hqsafe : ∀ s, q s → Safe projection old first s.server s.read)
    (hok : ∀ s, p s → (∃ task, s.server.ended id = some (task, .ok ())) → q s)
    (hfailed : ∀ s, p s → MayFail projection first strict s.server → failed (E := E) projection old first strict s) :
    Triple (safe projection old first strict) p (tryMeili (settle options id) : Syncing (Event K E Row D) E Unit).run
      (outcome (failed projection old first strict) fun _ => q) := by
  refine Triple.mapError safe_of_failed (fun _ => hqsafe)
    (triple_wait hsafe ?_ hok (fun s _ hs _ hmay => hfailed s hs hmay) fun s _ hs _ hmay => hfailed s hs hmay)
  rintro (e | _) s h
  · exact safe_of_failed s h
  · exact hqsafe s h

/-- A wait that may end with the error `code`. -/
theorem triple_tolerate {id : ℕ} {code : ErrorCode} {q : Phase projection first strict E}
    (hcode : code = .indexNotFound ∨ code = .indexAlreadyExists)
    (hsafe : ∀ s, p s → Safe projection old first s.server s.read)
    (hqsafe : ∀ s, q s → Safe projection old first s.server s.read)
    (hok : ∀ s, p s → (∃ task result, s.server.ended id = some (task, result) ∧
      (result = .ok () ∨ result = .error code)) → q s)
    (hfailed : ∀ s, p s → MayFail projection first strict s.server → failed (E := E) projection old first strict s) :
    Triple (safe projection old first strict) p
      (tryMeili (do return tolerate (← settle options id) code) : Syncing (Event K E Row D) E Unit).run
      (outcome (failed projection old first strict) fun _ => q) := by
  let settled : Except Error Unit → Phase projection first strict E :=
    outcome (failed projection old first strict) fun _ => q
  have hsettled : ∀ r s, settled r s → Safe projection old first s.server s.read := by
    rintro (e | _) s h
    · exact safe_of_failed s h
    · exact hqsafe s h
  refine Triple.mapError safe_of_failed (fun _ => hqsafe) (Triple.bind (q := fun r => settled (tolerate r code))
    (triple_wait hsafe (fun r => hsettled (tolerate r code)) ?_ ?_ ?_) fun r => ?_)
  · rintro s hs ⟨task, hend⟩
    exact hok s hs ⟨task, _, hend, .inl rfl⟩
  · rintro s code' hs ⟨task, hend⟩ hmay
    by_cases hc : code' = code
    · rw [tolerate, if_pos hc]
      exact hok s hs ⟨task, _, hend, .inr (by rw [hc])⟩
    · rw [tolerate, if_neg hc]
      exact hfailed s hs hmay
  · intro s e hs hother hmay
    have hkept : tolerate (.error e) code = .error e := by
      cases e with
      | meilisearch code' =>
        have hne : code' ≠ code := by
          rintro rfl
          exact hcode.elim (hother _ rfl).1 (hother _ rfl).2
        rw [tolerate, if_neg hne]
      | timeout => rfl
      | other text => rfl
    rw [hkept]
    exact hfailed s hs hmay
  · exact Triple.pure fun s h => ⟨hsettled _ s h, h⟩

/-! ### Filling the copy -/

/-- A write of documents to the copy. -/
def writing (projection : Projection K Row D) (q : ℕ × List D) : ℕ × Operation K D :=
  (q.1, .addOrReplace q.2 projection.index.primaryKey)

/-- The writes `ids` are in flight. After them the copy holds the documents of all rows read but `rows`. -/
def Filled (projection : Projection K Row D) (old : Documents K D) (first : ℕ) (ids : List ℕ) (rows : List Row)
    (server : Server K D) (read : List Row) : Prop :=
  ∃ (start : Documents K D) (todo : List (ℕ × List D)),
    Copying projection old first (some start) (todo.map (writing projection)) server ∧
    todo.map Prod.fst = ids ∧ ∃ init, read = init ++ rows ∧
      todo.foldl (fun documents q => insertAll projection.index.key documents q.2) start =
        documentsOf projection init

variable {server server' : Server K D} {ids : List ℕ} {rows read : List Row}

theorem Filled.moves (h : Filled projection old first ids rows server read)
    (hm : server.Moves projection.index.key server') : Filled projection old first ids rows server' read := by
  obtain ⟨start, todo, hcopying, h⟩ := h
  exact ⟨start, todo, hcopying.moves hm, h⟩

theorem Filled.untouched (h : Filled projection old first ids rows server read) :
    Untouched projection old server := by
  obtain ⟨start, todo, hcopying, -⟩ := h
  exact hcopying.untouched

theorem Filled.page (h : Filled projection old first ids [] server read) (rows : List Row) :
    Filled projection old first ids rows server (read ++ rows) := by
  obtain ⟨start, todo, hcopying, hids, init, hread, hfold⟩ := h
  rw [List.append_nil] at hread
  exact ⟨start, todo, hcopying, hids, init, by rw [hread], hfold⟩

theorem documentsOf_append (init rows : List Row) : documentsOf projection (init ++ rows) =
    insertAll projection.index.key (documentsOf projection init) (rows.filterMap projection.project) := by
  unfold documentsOf insertAll
  rw [List.filterMap_append, List.foldl_append]

/-- Rows that project to nothing need no write. -/
theorem Filled.skip (h : Filled projection old first ids rows server read)
    (hempty : rows.filterMap projection.project = []) : Filled projection old first ids [] server read := by
  obtain ⟨start, todo, hcopying, hids, init, hread, hfold⟩ := h
  refine ⟨start, todo, hcopying, hids, init ++ rows, by rw [List.append_nil, hread], ?_⟩
  rw [documentsOf_append, hempty, hfold]
  rfl

/-- The documents of the rows are enqueued. -/
theorem Filled.push (h : Filled projection old first ids rows server read) :
    Filled projection old first (ids ++ [server.next]) [] (server.push (.on (copyOf projection)
      (.addOrReplace (rows.filterMap projection.project) projection.index.primaryKey))) read := by
  obtain ⟨start, todo, hcopying, rfl, init, hread, hfold⟩ := h
  refine ⟨start, todo ++ [(server.next, rows.filterMap projection.project)], ?_, by simp, init ++ rows,
    by rw [List.append_nil, hread], ?_⟩
  · have hpush := hcopying.push (.addOrReplace (rows.filterMap projection.project) projection.index.primaryKey)
    rwa [List.map_append]
  · rw [List.foldl_append, hfold, documentsOf_append]
    rfl

/-- The first write in flight has succeeded. -/
theorem Filled.settled {id : ℕ} (h : Filled projection old first (id :: ids) rows server read)
    (hended : ∃ task, server.ended id = some (task, .ok ())) :
    Filled projection old first ids rows server read := by
  obtain ⟨start, todo, hcopying, hids, h⟩ := h
  cases todo with
  | nil => cases hids
  | cons q todo =>
    obtain ⟨rfl, rfl⟩ := List.cons.inj hids
    obtain ⟨c', hc, hrest⟩ := hcopying.settled hended
    cases hc
    exact ⟨_, todo, hrest, rfl, h⟩

/-- Nothing is in flight: the copy is complete. -/
theorem Filled.create {primaryKey : String} (h : Filled projection old first [] [] server read) :
    Creating projection old (documentsOf projection read) first server.next
      (server.push (.on projection.index.uid (.createIndex primaryKey))) := by
  obtain ⟨start, todo, hcopying, hids, init, hread, hfold⟩ := h
  obtain rfl := List.map_eq_nil_iff.mp hids
  rw [hread, List.append_nil, ← hfold]
  exact hcopying.create primaryKey

def filled (projection : Projection K Row D) (old : Documents K D) (first : ℕ) (strict : Prop) (ids : List ℕ)
    (rows : List Row) : Phase projection first strict E := about (Filled projection old first ids rows) Filled.moves

theorem filled_safe {ids : List ℕ} {rows : List Row} (s : State K Row D)
    (h : filled (E := E) projection old first strict ids rows s) : Safe projection old first s.server s.read :=
  .inl (Filled.untouched h)

theorem triple_readPage {after : Option K} {limit : ℕ} {ids : List ℕ} :
    Triple (safe (E := E) projection old first strict) (filled projection old first strict ids [])
      (readPage after limit).run
      (outcome (failed projection old first strict) fun rows => filled projection old first strict ids rows) := by
  refine Triple.mapError safe_of_failed (fun _ => filled_safe) (Triple.call filled_safe ?_ ?_)
  · rintro s a s' hs ⟨hanswered, -⟩
    cases hanswered with
    | page _ _ rows => exact ⟨.inl (Filled.untouched hs), Filled.page hs rows⟩
    | noPage _ _ hnot =>
      cases a with
      | ok rows => exact absurd rfl (hnot rows)
      | error e => exact ⟨filled_safe s hs, .inl (Filled.untouched hs)⟩
  · rintro s s' hs ⟨hanswered, -⟩
    cases hanswered with
    | noPage _ _ hnot => exact filled_safe s hs

theorem triple_settlePending {pending : Option ℕ} {ids : List ℕ} :
    Triple (safe (E := E) projection old first strict) (filled projection old first strict (pending.toList ++ ids) [])
      (settlePending options pending).run
      (outcome (failed projection old first strict) fun _ => filled projection old first strict ids []) := by
  cases pending with
  | none => exact Triple.tryPure fun s h => ⟨filled_safe s h, h⟩
  | some task =>
    exact triple_settle filled_safe filled_safe (fun s hs hended => Filled.settled hs hended)
      fun s hs _ => .inl (Filled.untouched hs)

theorem triple_writeBatch {state : Filling K} {rows : List Row} :
    Triple (safe (E := E) projection old first strict)
      (filled projection old first strict state.pending.toList rows)
      (writeBatch projection options (copyOf projection) state (rows.filterMap projection.project)).run
      (outcome (failed projection old first strict) fun state =>
        filled projection old first strict state.pending.toList []) := by
  refine Triple.tryBind safe_of_failed (q := fun id =>
    filled projection old first strict (state.pending.toList ++ [id]) []) ?_ fun id => ?_
  · exact triple_enqueue filled_safe (fun _ => filled_safe) (fun s hs => Filled.push hs)
      (fun s hs _ => .inl (Filled.untouched (Filled.push hs))) fun s hs _ => .inl (Filled.untouched hs)
  · refine Triple.tryBind safe_of_failed triple_settlePending fun _ => ?_
    exact Triple.tryPure fun s h => ⟨filled_safe s h, h⟩

theorem triple_fillPage (options : RebuildOptions) (state : Filling K) :
    Triple (safe (E := E) projection old first strict)
      (filled projection old first strict state.pending.toList [])
      (fillPage projection options (copyOf projection) state).run
      (outcome (failed projection old first strict) (Sum.elim
        (fun state => filled projection old first strict state.pending.toList [])
        fun state => filled projection old first strict state.pending.toList [])) := by
  refine Triple.tryBind safe_of_failed triple_readPage fun rows => ?_
  cases hlast : rows.getLast? with
  | none =>
    obtain rfl := List.getLast?_eq_none_iff.mp hlast
    exact Triple.tryPure (a := Sum.inr state) fun s h => ⟨filled_safe s h, h⟩
  | some last =>
    by_cases hstuck : state.after = some (projection.key last)
    · simp only [if_pos hstuck]
      exact Triple.pure (a := Except.error _) fun s h => ⟨filled_safe s h, .inl (Filled.untouched h)⟩
    · simp only [if_neg hstuck]
      have hnext : ∀ state : Filling K, Triple (safe (E := E) projection old first strict)
          (filled projection old first strict state.pending.toList [])
          (if rows.length < options.batchSize then pure (.inr state)
            else pure (.inl { state with after := some (projection.key last) }) : Syncing (Event K E Row D) E _).run
          (outcome (failed projection old first strict) (Sum.elim
            (fun state : Filling K => filled projection old first strict state.pending.toList [])
            fun state : Filling K => filled projection old first strict state.pending.toList [])) := by
        intro state
        by_cases hend : rows.length < options.batchSize
        · rw [if_pos hend]
          exact Triple.tryPure (a := Sum.inr state) fun s h => ⟨filled_safe s h, h⟩
        · rw [if_neg hend]
          exact Triple.tryPure (a := Sum.inl _) fun s h => ⟨filled_safe s h, h⟩
      by_cases hempty : (rows.filterMap projection.project).isEmpty
      · rw [if_pos hempty]
        refine Triple.tryBind safe_of_failed (Triple.tryPure fun s h => ⟨filled_safe s h, ?_⟩) hnext
        exact Filled.skip h (List.isEmpty_iff.mp hempty)
      · rw [if_neg hempty]
        exact Triple.tryBind safe_of_failed triple_writeBatch hnext

/-! ### The whole rebuild -/

section Phases

variable (projection old first strict)

def started : Phase projection first strict E :=
  about (fun server read => Leftover projection old first server ∧ read = []) fun h hm => ⟨h.1.moves hm, h.2⟩

def deleting (id : ℕ) : Phase projection first strict E :=
  about (fun server read => Deleting projection old first id server ∧ read = []) fun h hm => ⟨h.1.moves hm, h.2⟩

def copying (c : Option (Documents K D)) (todo : List (ℕ × Operation K D)) : Phase projection first strict E :=
  about (fun server read => Copying projection old first c todo server ∧ read = []) fun h hm => ⟨h.1.moves hm, h.2⟩

def creating (id : ℕ) : Phase projection first strict E :=
  about (fun server read => Creating projection old (documentsOf projection read) first id server) Creating.moves

def ready : Phase projection first strict E :=
  about (fun server read => Ready projection old (documentsOf projection read) first server)
    fun h hm => absurd h.queue hm.queue_ne_nil

def swapping (id : ℕ) : Phase projection first strict E :=
  about (fun server read => Swapping projection old (documentsOf projection read) first id server) Swapping.moves

def swapped : Phase projection first strict E :=
  about (fun server read => Swapped projection (documentsOf projection read) first server) Swapped.moves

variable {projection old first strict}

theorem started_safe (s : State K Row D) (h : started (E := E) projection old first strict s) :
    Safe projection old first s.server s.read := .inl h.1.untouched

theorem deleting_safe (id : ℕ) (s : State K Row D) (h : deleting (E := E) projection old first strict id s) :
    Safe projection old first s.server s.read := .inl h.1.untouched

theorem copying_safe {c : Option (Documents K D)} {todo : List (ℕ × Operation K D)} (s : State K Row D)
    (h : copying (E := E) projection old first strict c todo s) : Safe projection old first s.server s.read :=
  .inl h.1.untouched

theorem creating_safe (id : ℕ) (s : State K Row D) (h : creating (E := E) projection old first strict id s) :
    Safe projection old first s.server s.read := .inl (Creating.untouched h)

theorem ready_safe (s : State K Row D) (h : ready (E := E) projection old first strict s) :
    Safe projection old first s.server s.read := .inl (Ready.untouched h)

theorem swapping_safe (id : ℕ) (s : State K Row D) (h : swapping (E := E) projection old first strict id s) :
    Safe projection old first s.server s.read := .inr (.inl ⟨id, h⟩)

theorem swapped_safe (s : State K Row D) (h : swapped (E := E) projection first strict s) :
    Safe projection old first s.server s.read := .inr (.inr h)

/-- A failure while the swap stands is not one the claim is about. -/
theorem failed_of_stands {s : State K Row D} (h : Safe projection old first s.server s.read)
    (hstands : SwapStands projection first s.server) (hmay : MayFail projection first strict s.server) :
    failed (E := E) projection old first strict s := .inr ⟨fun hstrict => hmay hstrict hstands, h⟩

theorem swapping_failed {id : ℕ} (s : State K Row D) (h : swapping (E := E) projection old first strict id s)
    (hmay : MayFail projection first strict s.server) : failed (E := E) projection old first strict s := by
  by_cases hstrict : strict
  · exact .inl (Swapping.untouched h (hmay hstrict))
  · exact .inr ⟨hstrict, swapping_safe id s h⟩

/-- One write to the copy, up to its end. -/
theorem triple_copying {c c' : Option (Documents K D)} {operation : Operation K D}
    (hc : operation.apply projection.index.key c = .ok c') {f : Syncing (Event K E Row D) E α}
    {r : α → Phase projection first strict E}
    (hf : Triple (safe projection old first strict) (copying projection old first strict c' []) f.run
      (outcome (failed projection old first strict) r)) :
    Triple (safe projection old first strict) (copying projection old first strict c [])
      (do let task ← tryMeili (enqueue .meili (.on (copyOf projection) operation))
          tryMeili (settle options task)
          f : Syncing (Event K E Row D) E α).run
      (outcome (failed projection old first strict) r) := by
  refine Triple.tryBind safe_of_failed (q := fun id => copying projection old first strict c [(id, operation)])
    ?_ fun id => ?_
  · exact triple_enqueue copying_safe (fun _ => copying_safe) (fun s hs => ⟨hs.1.push _, hs.2⟩)
      (fun s hs _ => .inl (hs.1.push _).untouched) fun s hs _ => .inl hs.1.untouched
  · refine Triple.tryBind safe_of_failed ?_ fun _ => hf
    refine triple_settle copying_safe copying_safe (fun s hs hended => ?_) fun s hs _ => .inl hs.1.untouched
    obtain ⟨c'', hc', hrest⟩ := hs.1.settled hended
    obtain rfl : c'' = c' := Except.ok.inj (hc'.symm.trans hc)
    exact ⟨hrest, hs.2⟩

end Phases

theorem triple_rebuild : Triple (safe (E := E) projection old first strict) (started projection old first strict)
    (rebuild projection options).run
    (outcome (failed projection old first strict) fun _ => swapped projection first strict) := by
  refine Triple.tryBind safe_of_failed (q := fun _ => started projection old first strict)
    (Triple.lift (fun _ => started_safe) (Triple.call started_safe ?_ ?_)) fun startedAt => ?_
  · rintro s a s' hs ⟨hanswered, -⟩
    cases hanswered with
    | now => exact ⟨started_safe s hs, hs⟩
  · rintro s s' hs ⟨hanswered, -⟩
    cases hanswered with
    | now => exact started_safe s hs
  -- a leftover copy goes, after what is left to do on it
  refine Triple.tryBind safe_of_failed (q := fun id => deleting projection old first strict id)
    (triple_enqueue started_safe deleting_safe (fun s hs => ⟨hs.1.delete, hs.2⟩)
      (fun s hs _ => .inl (hs.1.push _).untouched) fun s hs _ => .inl hs.1.untouched) fun delete => ?_
  refine Triple.tryBind safe_of_failed (triple_tolerate (q := copying projection old first strict none [])
    (.inl rfl) (deleting_safe delete) copying_safe (fun s hs hended => ⟨hs.1.settled hended, hs.2⟩)
    fun s hs _ => .inl hs.1.untouched) fun _ => ?_
  refine triple_copying rfl (triple_copying rfl ?_)
  -- the copy is filled
  have hstart : ∀ s, copying (E := E) projection old first strict (some fun _ => none) [] s →
      filled (E := E) projection old first strict [] [] s := fun s hs =>
    ⟨fun _ => none, [], hs.1, rfl, [], hs.2, rfl⟩
  have hloop := Triple.tryLoop
    (fun state : Filling K => filled (E := E) projection old first strict state.pending.toList [])
    (fun state : Filling K => filled projection old first strict state.pending.toList []) safe_of_failed
    (fun _ => filled_safe) (fun _ => filled_safe) (triple_fillPage options) ⟨none, 0, none⟩
  refine Triple.tryBind safe_of_failed (hloop.imp hstart fun _ _ h => h) fun filling => ?_
  refine Triple.tryBind safe_of_failed (q := fun _ => filled projection old first strict [] []) ?_ fun _ => ?_
  · exact triple_settlePending.imp (fun s h => by rwa [List.append_nil]) fun _ _ h => h
  -- the live index is created if needed
  refine Triple.tryBind safe_of_failed (q := fun id => creating projection old first strict id)
    (triple_enqueue filled_safe creating_safe (fun s hs => Filled.create hs)
      (fun s hs _ => .inl (Filled.create hs).untouched) fun s hs _ => .inl (Filled.untouched hs)) fun create => ?_
  refine Triple.tryBind safe_of_failed (triple_tolerate (q := ready projection old first strict)
    (.inr rfl) (creating_safe create) ready_safe (fun s hs hended => Creating.settled hs hended)
    fun s hs _ => .inl (Creating.untouched hs)) fun _ => ?_
  -- the swap; from here on a failure may come too late
  refine Triple.tryBind safe_of_failed (q := fun id => swapping projection old first strict id)
    (triple_enqueue ready_safe swapping_safe (fun s hs => Ready.swap hs)
      (fun s hs hmay => swapping_failed _ (Ready.swap hs) hmay)
      fun s hs _ => .inl (Ready.untouched hs)) fun swap => ?_
  refine Triple.tryBind safe_of_failed (q := fun _ => swapped projection first strict)
    (triple_settle (swapping_safe swap) swapped_safe (fun s hs hended => Swapping.settled hs hended)
      fun s hs hmay => swapping_failed s hs hmay) fun _ => ?_
  refine Triple.tryBind safe_of_failed (q := fun _ => swapped projection first strict)
    (triple_enqueue swapped_safe (fun _ => swapped_safe) (fun s hs => Swapped.push hs _)
      (fun s hs hmay => failed_of_stands (.inr (.inr (Swapped.push hs _))) (.inr hs.stands) hmay)
      fun s hs hmay => failed_of_stands (swapped_safe s hs) (.inr hs.stands) hmay) fun delete => ?_
  refine Triple.tryBind safe_of_failed (q := fun _ => swapped projection first strict)
    (triple_settle swapped_safe swapped_safe (fun s hs _ => hs)
      fun s hs hmay => failed_of_stands (swapped_safe s hs) (.inr hs.stands) hmay) fun _ => ?_
  exact Triple.tryPure fun s hs => ⟨swapped_safe s hs, hs⟩

/-- The live index holds its old documents or those of all rows read at every moment, and the latter once
the rebuild has succeeded. Once it has failed the live index holds the old ones, if nothing failed while
the swap stood. -/
theorem rebuild_live (projection : Projection K Row D) (options : RebuildOptions) (server : Server K D)
    (hfresh : server.Fresh) (hqueue : ∀ q ∈ server.queue, OnCopy projection q.2)
    {t : List (Event K E Row D)} {o : Option (Except (SyncError E) Rebuilt)} {s : State K Row D}
    (ht : (rebuild projection options).run t o) (hr : (world projection).Runs ⟨server, []⟩ t s) :
    (s.server.documents projection.index.uid = server.documents projection.index.uid ∨
      s.server.documents projection.index.uid = documentsOf projection s.read) ∧
    (∀ rebuilt, o = some (.ok rebuilt) →
      s.server.documents projection.index.uid = documentsOf projection s.read) ∧
    ∀ e, o = some (.error e) →
      ((world projection).restrict fun _ event s' =>
        SwapStands projection server.next s'.server → ¬ event.Failed).Runs ⟨server, []⟩ t s →
      s.server.documents projection.index.uid = server.documents projection.index.uid := by
  have hstart : ∀ strict, started (E := E) projection (server.documents projection.index.uid) server.next strict
      ⟨server, []⟩ := fun _ => ⟨⟨⟨rfl, hfresh, Nat.le_refl _⟩, hqueue⟩, rfl⟩
  have hloose : (guarded projection server.next False).Runs ⟨server, []⟩ t s :=
    hr.mono (fun _ _ _ h => ⟨h, False.elim⟩) fun _ _ h => h
  obtain ⟨hsafe, hdone⟩ := triple_rebuild (hstart False) ht hloose
  refine ⟨?_, fun rebuilt ho => (hdone _ ho).live, fun e ho hkept => ?_⟩
  · rcases hsafe with h | ⟨id, h⟩ | h
    · exact .inl h.1
    · rcases h.left with ⟨-, h, -⟩ | ⟨-, -, h⟩ | ⟨-, -, h⟩
      · exact .inl h
      · exact .inr h
      · exact .inl h
    · exact .inr h.live
  · have hstrict : (guarded projection server.next True).Runs ⟨server, []⟩ t s :=
      hkept.mono (fun _ _ _ h => ⟨h.1, fun _ => h.2⟩) fun _ _ h => h
    rcases (triple_rebuild (hstart True) ht hstrict).2 _ ho with h | ⟨h, -⟩
    · exact h.1
    · exact absurd trivial h

end

/-! ### What can happen in a rebuild -/

/-- The server once the task just enqueued has run. -/
def ranNow (server : Server K D) (task : Task K D) (result : Except ErrorCode Unit)
    (indexes : String → Option (Documents K D)) : Server K D :=
  ⟨indexes, [], Function.update server.ended server.next (some (task, result)), server.next + 1⟩

section Reaches

variable {projection : Projection K Row D} {options : RebuildOptions} {server : Server K D} {task : Task K D}
  {indexes : String → Option (Documents K D)} {read : List Row} {f : Syncing (Event K E Row D) E α}
  {r : Except (SyncError E) α} {s' : State K Row D}
  {allowed : State K Row D → Event K E Row D → State K Row D → Prop}

theorem reaches_enqueue {result : Except ErrorCode Unit} (hquiet : ∀ s e s', ¬ e.Failed → allowed s e s')
    (hqueue : server.queue = []) (hends : task.Ends projection.index.key server.indexes result indexes) :
    ((world projection).restrict allowed).Reaches
      (tryMeili (enqueue .meili task) : Syncing (Event K E Row D) E ℕ).run ⟨server, read⟩
      (.ok server.next) ⟨ranNow server task result indexes, read⟩ := by
  have hpush : (server.push task).queue = [] ++ (server.next, task) :: [] := by
    unfold Server.push
    rw [hqueue]
  have hmoves : (server.push task).Moves projection.index.key (ranNow server task result indexes) :=
    .run hpush (by simp) hends
  have haccepted : ((world (E := E) projection).restrict allowed).Reaches (enqueue .meili task) ⟨server, read⟩
      (.ok server.next) ⟨server.push task, read⟩ :=
    Reaches.call ⟨.meili (.accepted task), hquiet _ _ _ id⟩
  have hmoved : ((world (E := E) projection).restrict allowed).Reaches (enqueue .meili task) ⟨server, read⟩
      (.ok server.next) ⟨ranNow server task result indexes, read⟩ := haccepted.move ⟨hmoves, rfl⟩
  exact Reaches.bind hmoved Reaches.pure

/-- A request whose task runs at once, and the wait for it. -/
theorem reaches_write (hquiet : ∀ s e s', ¬ e.Failed → allowed s e s') (hqueue : server.queue = [])
    (happly : task.apply projection.index.key server.indexes = .ok indexes)
    (hf : ((world projection).restrict allowed).Reaches f.run ⟨ranNow server task (.ok ()) indexes, read⟩ r s') :
    ((world projection).restrict allowed).Reaches (do
      let id ← tryMeili (enqueue .meili task)
      tryMeili (settle options id)
      f : Syncing (Event K E Row D) E α).run ⟨server, read⟩ r s' := by
  have htells : (ranNow server task (.ok ()) indexes).Tells server.next (some (.ok .succeeded)) :=
    ⟨task, Function.update_self ..⟩
  refine Reaches.tryBind (reaches_enqueue hquiet hqueue (.done happly)) (Reaches.tryBind (a := ()) ?_ hf)
  exact Reaches.bind (Reaches.bind
    (Reaches.call ⟨.meili (.told htells), hquiet _ _ _ fun h => h rfl⟩) Reaches.pure) Reaches.pure

/-- A request whose task fails at once with a tolerated error. -/
theorem reaches_tolerated {code : ErrorCode} (hquiet : ∀ s e s', ¬ e.Failed → allowed s e s')
    (hwait : ∀ e s, s.server = ranNow server task (.error code) server.indexes → allowed s e s)
    (hqueue : server.queue = []) (happly : task.apply projection.index.key server.indexes = .error code)
    (hf : ((world projection).restrict allowed).Reaches f.run
      ⟨ranNow server task (.error code) server.indexes, read⟩ r s') :
    ((world projection).restrict allowed).Reaches (do
      let id ← tryMeili (enqueue .meili task)
      tryMeili (do return tolerate (← settle options id) code)
      f : Syncing (Event K E Row D) E α).run ⟨server, read⟩ r s' := by
  have htells : (ranNow server task (.error code) server.indexes).Tells server.next (some (.ok (.failed code))) :=
    ⟨task, Function.update_self ..⟩
  have htolerate : tolerate (Except.mapError Error.meilisearch (.error code)) code = .ok () := if_pos rfl
  refine Reaches.tryBind (reaches_enqueue hquiet hqueue (.failed happly)) (Reaches.tryBind (a := ()) ?_ hf)
  refine Reaches.bind (a := Except.ok ()) ?_ Reaches.pure
  rw [← htolerate]
  exact Reaches.bind (Reaches.bind
    (Reaches.call ⟨.meili (.told htells), hwait _ _ rfl⟩) Reaches.pure) Reaches.pure

end Reaches

/-! ### The start of a rebuild -/

section Start

variable {projection : Projection K Row D} {options : RebuildOptions} {server : Server K D}
  {documents : Documents K D} {first : ℕ}

omit [DecidableEq K] in
theorem not_swapStands_ranNow {task : Task K D} {result : Except ErrorCode Unit}
    {indexes : String → Option (Documents K D)} (h : ¬ SwapStands projection first server)
    (hne : task ≠ swapTask projection) :
    ¬ SwapStands projection first (ranNow server task result indexes) := by
  rintro (⟨id, hid⟩ | ⟨id, hid, hend⟩)
  · cases hid
  · by_cases hnext : id = server.next
    · have hself : (ranNow server task result indexes).ended server.next = some (task, result) :=
        Function.update_self ..
      rw [hnext, hself] at hend
      exact hne (Prod.mk.inj (Option.some.inj hend)).1
    · exact h (.inr ⟨id, hid, (Function.update_of_ne hnext ..).symm.trans hend⟩)

/-- The server once the copy is there, with its settings, if there was none. -/
def copied (projection : Projection K Row D) (server : Server K D) : Server K D :=
  let copy := copyOf projection
  let empty : Option (Documents K D) := some fun _ => none
  let deleted := ranNow server (.on copy .deleteIndex) (.error .indexNotFound) server.indexes
  let created := ranNow deleted (.on copy (.createIndex projection.index.primaryKey)) (.ok ())
    (Function.update server.indexes copy empty)
  ranNow created (.on copy .updateSettings) (.ok ()) (Function.update created.indexes copy empty)

omit [DecidableEq K] in
theorem copied_live : (copied projection server).indexes projection.index.uid =
    server.indexes projection.index.uid :=
  (Function.update_of_ne (uid_ne_copy projection) ..).trans (Function.update_of_ne (uid_ne_copy projection) ..)

omit [DecidableEq K] in
theorem copied_copy : (copied projection server).indexes (copyOf projection) = some fun _ => none :=
  Function.update_self ..

omit [DecidableEq K] in
theorem not_swapStands_copied (h : ¬ SwapStands projection first server) :
    ¬ SwapStands projection first (copied projection server) :=
  not_swapStands_ranNow (not_swapStands_ranNow (not_swapStands_ranNow h nofun) nofun) nofun

variable (projection options) in
/-- What a rebuild does once the copy has its settings. -/
def scanAndSwap (startedAt : ℕ) : Syncing (Event K E Row D) E Rebuilt := do
  let live := projection.index.uid
  let copy := copyOf projection
  let filled ← Async.tryLoop (fillPage projection options copy) ⟨none, 0, none⟩
  settlePending options filled.pending
  let create ← tryMeili (enqueue .meili (.on live (.createIndex projection.index.primaryKey)))
  tryMeili (do return tolerate (← settle options create) .indexAlreadyExists)
  let swap ← tryMeili (enqueue .meili (.swapIndexes live copy))
  tryMeili (settle options swap)
  let delete ← tryMeili (enqueue .meili (.on copy .deleteIndex))
  tryMeili (settle options delete)
  return ⟨startedAt, filled.documents⟩

/-- A rebuild can come to its scan. -/
theorem reaches_scan {allowed : State K Row D → Event K E Row D → State K Row D → Prop}
    (hquiet : ∀ s e s', ¬ e.Failed → allowed s e s')
    (hbefore : ∀ s e s', ¬ SwapStands projection first s'.server → allowed s e s')
    (hstands : ¬ SwapStands projection first server) (hqueue : server.queue = [])
    (hcopy : server.indexes (copyOf projection) = none) {r : Except (SyncError E) Rebuilt} {s' : State K Row D}
    (h : ((world projection).restrict allowed).Reaches (scanAndSwap projection options 0).run
      ⟨copied projection server, []⟩ r s') :
    ((world projection).restrict allowed).Reaches (rebuild projection options).run ⟨server, []⟩ r s' := by
  let copy := copyOf projection
  let empty : Option (Documents K D) := some fun _ => none
  let created := Function.update server.indexes copy empty
  have hdelete : (Task.on copy .deleteIndex).apply projection.index.key server.indexes = .error .indexNotFound :=
    Task.apply_on_error _ (by rw [hcopy]; rfl)
  have hcreate : (Task.on copy (.createIndex projection.index.primaryKey)).apply projection.index.key
      server.indexes = .ok created := Task.apply_on _ (by rw [hcopy]; rfl)
  have hcreated : created copy = empty := Function.update_self ..
  have hsettings : (Task.on copy .updateSettings).apply projection.index.key created =
      .ok (Function.update created copy empty) := Task.apply_on _ (by rw [hcreated]; rfl)
  refine Reaches.tryBind (a := 0) (Reaches.bind (Reaches.call ⟨.now (some 0), hquiet _ _ _ id⟩) Reaches.pure) ?_
  refine reaches_tolerated hquiet (fun e s hs => hbefore s e s ?_) hqueue hdelete
    (reaches_write hquiet rfl hcreate (reaches_write hquiet rfl hsettings h))
  rw [hs]
  exact not_swapStands_ranNow hstands nofun

end Start

/-! ### Failures before and after the swap -/

/-- What a rebuild from an empty source does after its swap. -/
def deleteCopy (projection : Projection K Row D) (options : RebuildOptions) (startedAt : ℕ) :
    Syncing (Event K E Row D) E Rebuilt := do
  let delete ← tryMeili (enqueue .meili (.on (copyOf projection) .deleteIndex))
  tryMeili (settle options delete)
  return ⟨startedAt, 0⟩

/-- The world, written as one that allows every step. -/
abbrev unguarded (projection : Projection K Row D) : World (State K Row D) (Event K E Row D) :=
  (world projection).restrict fun _ _ _ => True

/-- A rebuild from an empty source can come to its last step with the live index already empty. -/
theorem reaches_swap (projection : Projection K Row D) (options : RebuildOptions) {server : Server K D}
    {documents : Documents K D} (hqueue : server.queue = [])
    (hstands : ¬ SwapStands projection server.next server)
    (hlive : server.indexes projection.index.uid = some documents)
    (hcopy : server.indexes (copyOf projection) = none) :
    ∃ server' : Server K D, server'.documents projection.index.uid = (fun _ => none) ∧
      ∀ r s', (unguarded (E := E) projection).Reaches (deleteCopy projection options 0).run ⟨server', []⟩ r s' →
        (unguarded projection).Reaches (rebuild projection options).run ⟨server, []⟩ r s' := by
  let live := projection.index.uid
  let copy := copyOf projection
  let empty : Option (Documents K D) := some fun _ => none
  let set := copied projection server
  have hkept : set.indexes live = some documents := copied_live.trans hlive
  let ready := ranNow set (.on live (.createIndex projection.index.primaryKey)) (.error .indexAlreadyExists)
    set.indexes
  have hexists : (Task.on live (.createIndex projection.index.primaryKey)).apply projection.index.key
      set.indexes = .error .indexAlreadyExists := Task.apply_on_error _ (by rw [hkept]; rfl)
  let swapped := ranNow ready (.swapIndexes live copy) (.ok ())
    (Function.update (Function.update set.indexes live empty) copy (some documents))
  have hswap : (Task.swapIndexes live copy).apply projection.index.key set.indexes =
      .ok (Function.update (Function.update set.indexes live empty) copy (some documents)) := by
    simp only [Task.apply, hkept, show set.indexes copy = empty from copied_copy, empty]
  have hpage : (unguarded (E := E) projection).Reaches (fillPage projection options copy ⟨none, 0, none⟩).run
      ⟨set, []⟩ (.ok (.inr ⟨none, 0, none⟩)) ⟨set, []⟩ := Reaches.tryBind
    (Reaches.bind (Reaches.call ⟨.page none options.batchSize [], trivial⟩) Reaches.pure) Reaches.pure
  refine ⟨swapped, ?_, fun r s' h => ?_⟩
  · have hempty : swapped.indexes live = empty :=
      (Function.update_of_ne (uid_ne_copy projection) ..).trans (Function.update_self ..)
    unfold Server.documents
    rw [hempty]
    rfl
  · refine reaches_scan (fun _ _ _ _ => trivial) (fun _ _ _ _ => trivial) hstands hqueue hcopy ?_
    refine Reaches.tryBind (Reaches.tryLoop hpage) (Reaches.tryBind Reaches.pure ?_)
    exact reaches_tolerated (fun _ _ _ _ => trivial) (fun _ _ _ => trivial) rfl hexists
      (reaches_write (fun _ _ _ _ => trivial) rfl hswap h)

/-- Rows and documents are numbers, each its own key. -/
def posts : Projection ℕ ℕ ℕ := ⟨⟨"posts", "id", id⟩, id, some, fun _ => "post"⟩

def postsDocuments : Documents ℕ ℕ := fun k => if k = 7 then some 7 else none

/-- Document 7 is live, and there is no copy. -/
def postsServer : Server ℕ ℕ :=
  ⟨fun uid => if uid = "posts" then some postsDocuments else none, [], fun _ => none, 0⟩

def postsOptions : RebuildOptions := ⟨2, Nat.two_pos, 600000, 200⟩

theorem postsServer_live : postsServer.indexes "posts" = some postsDocuments := by
  simp [postsServer]

theorem postsServer_copy : postsServer.indexes (copyOf posts) = none := by
  have hne : copyOf posts ≠ "posts" := (uid_ne_copy posts).symm
  simp [postsServer, hne]

theorem postsServer_stands : ¬ SwapStands posts 0 postsServer := by
  simp [SwapStands, postsServer]

/-- Rows 1 and 2 are written to the copy, and the next page can't be read: document 7 stays live. -/
theorem rebuild_live_posts : ∃ (t : List (Event ℕ Unit ℕ ℕ)) (s : State ℕ ℕ ℕ),
    (rebuild posts postsOptions).run t (some (.error (.source ()))) ∧ (world posts).Runs ⟨postsServer, []⟩ t s ∧
    s.read = [1, 2] ∧ s.server.documents (copyOf posts) 1 = some 1 ∧
    s.server.documents "posts" = postsServer.documents "posts" := by
  let allowed : State ℕ ℕ ℕ → Event ℕ Unit ℕ ℕ → State ℕ ℕ ℕ → Prop := fun _ e s' =>
    SwapStands posts 0 s'.server → ¬ e.Failed
  have hquiet : ∀ s e s', ¬ e.Failed → allowed s e s' := fun _ _ _ h _ => h
  have hbefore : ∀ s e s', ¬ SwapStands posts 0 s'.server → allowed s e s' := fun _ _ _ h h' => absurd h' h
  let set := copied posts postsServer
  let task : Task ℕ ℕ := .on (copyOf posts) (.addOrReplace [1, 2] "id")
  let indexes := Function.update set.indexes (copyOf posts) (some (insertAll id (fun _ => none) [1, 2]))
  have happly : task.apply posts.index.key set.indexes = .ok indexes :=
    Task.apply_on _ (by rw [show set.indexes (copyOf posts) = _ from copied_copy]; rfl)
  have hpage : ((world posts).restrict allowed).Reaches (fillPage posts postsOptions (copyOf posts) ⟨none, 0, none⟩).run
      ⟨set, []⟩ (.ok (.inl ⟨some 2, 2, some set.next⟩)) ⟨ranNow set task (.ok ()) indexes, [1, 2]⟩ := by
    refine Reaches.tryBind (Reaches.bind (Reaches.call ⟨.page none 2 [1, 2], fun _ => id⟩) Reaches.pure) ?_
    refine Reaches.tryBind (a := (⟨none, 2, some set.next⟩ : Filling ℕ)) ?_ Reaches.pure
    exact Reaches.tryBind (reaches_enqueue hquiet rfl (.done happly)) (Reaches.tryBind Reaches.pure Reaches.pure)
  have hnot : ¬ SwapStands posts 0 (ranNow set task (.ok ()) indexes) :=
    not_swapStands_ranNow (not_swapStands_copied postsServer_stands) nofun
  have hnoPage : ∀ rows : List ℕ, (some (.error ()) : Option (Except Unit (List ℕ))) ≠ some (.ok rows) := nofun
  have hfails : ((world posts).restrict allowed).Reaches
      (fillPage posts postsOptions (copyOf posts) ⟨some 2, 2, some set.next⟩).run
      ⟨ranNow set task (.ok ()) indexes, [1, 2]⟩ (.error (.source ()))
      ⟨ranNow set task (.ok ()) indexes, [1, 2]⟩ :=
    Reaches.tryFail (Reaches.bind
      (Reaches.call ⟨.noPage (some 2) 2 hnoPage, fun hstands => absurd hstands hnot⟩) Reaches.pure)
  obtain ⟨t, ht, hr⟩ := reaches_scan hquiet hbefore postsServer_stands rfl postsServer_copy
    (Reaches.tryFail (Reaches.tryAgain hpage (Reaches.tryStop hfails)))
  have hruns : (world posts).Runs ⟨postsServer, []⟩ t _ := hr.mono (fun _ _ _ => And.left) fun _ _ => id
  refine ⟨t, _, ht, hruns, rfl, ?_, ?_⟩
  · have hcopy : (ranNow set task (.ok ()) indexes).indexes (copyOf posts) =
        some (insertAll id (fun _ => none) [1, 2]) := Function.update_self (copyOf posts) _ set.indexes
    unfold Server.documents
    rw [hcopy]
    rfl
  · exact (rebuild_live posts postsOptions postsServer ⟨by simp [postsServer], by simp [postsServer],
      fun _ _ => rfl⟩ (by simp [postsServer]) ht hruns).2.2 _ rfl hr

/-- The deletion of the copy is refused after the swap: the rebuild fails, and the documents are gone. -/
theorem rebuild_fails_late : ∃ (t : List (Event ℕ Unit ℕ ℕ)) (e : SyncError Unit) (s : State ℕ ℕ ℕ),
    (rebuild posts postsOptions).run t (some (.error e)) ∧ (world posts).Runs ⟨postsServer, []⟩ t s ∧
    s.server.documents "posts" ≠ postsServer.documents "posts" := by
  obtain ⟨server, hempty, hreach⟩ := reaches_swap (E := Unit) posts postsOptions
    rfl postsServer_stands postsServer_live postsServer_copy
  have hrefused : (unguarded (E := Unit) posts).Reaches (deleteCopy posts postsOptions 0).run ⟨server, []⟩
      (.error (.meilisearch .timeout)) ⟨server, []⟩ :=
    Reaches.tryFail (Reaches.bind (a := Except.error .timeout)
      (Reaches.call ⟨.meili (.refused _ fun id h => by cases h), trivial⟩) Reaches.pure)
  obtain ⟨t, ht, hr⟩ := hreach _ _ hrefused
  refine ⟨t, _, _, ht, hr.mono (fun _ _ _ => And.left) fun _ _ => id, fun h => ?_⟩
  have hseven : postsServer.documents "posts" 7 = some 7 := by
    unfold Server.documents
    rw [postsServer_live]
    rfl
  have hnone : server.documents "posts" 7 = none := congrFun hempty 7
  rw [← h] at hseven
  cases hnone.symm.trans hseven

end Wakuwaku.Entity.Meilisearch.Sync
