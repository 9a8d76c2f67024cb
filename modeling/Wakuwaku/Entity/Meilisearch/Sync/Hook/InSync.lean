import Wakuwaku.Entity.Meilisearch.Sync.Hook.Calls

/-! # Concurrent reindexing

Between the load of a call and its writes another call can load a newer row and write its document; the
older document then replaces the newer one (`process_out_of_sync`). While no write of a document is
enqueued behind one made from a newer row, the last write of a document is made from the newest row loaded,
so the index ends in sync with the source (`process_in_sync`). -/

namespace Wakuwaku.Entity.Meilisearch.Sync.Indexer

open Wakuwaku.Meilisearch

variable {ι K E Row D : Type} [DecidableEq ι] [DecidableEq K] {projection : Projection K Row D}
  {calls : ι → List K} {i : ι} {t : List (ι × Event K E Row D)} {s : State ι K Row D}

/-! ### Runs -/

variable {start : State ι K Row D}

/-- What the calls have loaded and written, at every moment of a run in order. -/
theorem runs_tracked (hkey : ∀ row d, projection.project row = some d → projection.index.key d = projection.key row)
    (hstart : Started projection start) (hrun : (inOrder projection).Runs start t s)
    (hbegun : Begun projection calls t) : Loaded projection calls t s ∧ Written projection t s := by
  induction hrun with
  | nil =>
    refine ⟨⟨hstart.keyed, fun i _ => hstart.loaded i, nofun⟩, hstart.fresh, ?_, fun k => .inl ?_, nofun⟩
    · rintro i id k d version ⟨operation, he, -⟩
      cases he
    · rintro i id d ⟨operation, he, -⟩
      cases he
  | move _ hm ih =>
    obtain ⟨hloaded, hwritten⟩ := ih hbegun
    cases hm with
    | write k row hrow => exact ⟨hloaded.write hrow, hwritten.fresh, hwritten.newest, hwritten.last, hwritten.told⟩
    | run hm =>
      exact ⟨⟨hloaded.keyed, hloaded.unloaded, fun i rows hi => (hloaded.knows i rows hi).congr rfl rfl rfl⟩,
        hwritten.run hm⟩
  | step _ hs ih =>
    obtain ⟨hloaded, hwritten⟩ := ih hbegun.of_append
    obtain ⟨hanswered, horder⟩ := hs
    obtain ⟨i, rows, rfl, hi, hrows, rfl⟩ | ⟨i, rows, operation, rfl, hi, hmem, rfl⟩ |
      ⟨i, timeout, id, task, rfl, hi, hended, rfl⟩ := step_cases hbegun hanswered
    · exact ⟨hloaded.load hi hrows, hwritten.load hi⟩
    · have hknows := hloaded.knows i rows hi
      refine ⟨hloaded.request ?_ rfl rfl rfl, hwritten.enqueue rfl horder fun k d hvalue => ?_⟩
      · rintro hnil
        rw [Loads, hnil] at hi
        cases hi
      · obtain ⟨version, -, hversion, -⟩ := hknows.own k (mem_keys_of_mem_writes hkey hknows.keys hmem hvalue)
        exact ⟨version, hversion⟩
    · exact ⟨hloaded.request hi rfl rfl rfl, hwritten.await hended⟩

/-- A call that has succeeded. -/
theorem begun_of_process {timeout : ι → ℕ} (hcalls : ∀ i, ∃ report,
    (process ⟨projection, some (timeout i)⟩ (calls i)).run (eventsOf i t) (some (.ok report))) :
    Begun projection calls t := by
  intro i
  obtain ⟨report, hreport⟩ := hcalls i
  by_cases hnil : calls i = []
  · rw [hnil] at hreport
    exact .inl (process_nil.mp hreport).1
  · obtain ⟨rows, ids, -, ht, -⟩ := (process_iff rfl hnil).mp hreport
    refine .inr ⟨rows, _, ht, fun e he => ?_⟩
    rcases List.mem_append.mp he with he | he
    · obtain ⟨⟨operation, id⟩, hq, rfl⟩ := List.mem_map.mp he
      exact .inl ⟨operation, (List.of_mem_zip hq).1, id, rfl⟩
    · obtain ⟨id, -, rfl⟩ := List.mem_map.mp he
      exact .inr ⟨timeout i, id, rfl⟩

/-- A call that has succeeded has written the document of each of its keys. -/
theorem exists_writes {timeout : ι → ℕ} {report : Reindexed}
    (hkey : ∀ row d, projection.project row = some d → projection.index.key d = projection.key row)
    (hcall : (process ⟨projection, some (timeout i)⟩ (calls i)).run (eventsOf i t) (some (.ok report)))
    (hloaded : Loaded projection calls t s) {k : K} (hk : k ∈ calls i) : ∃ id d, Writes projection t i id k d := by
  obtain ⟨rows, ids, hlen, ht, -⟩ := (process_iff rfl (List.ne_nil_of_mem hk)).mp hcall
  have hloads : Loads calls t i rows := by
    unfold Loads
    rw [ht]
    rfl
  obtain ⟨version, row?, -, hrows, -⟩ := (hloaded.knows i rows hloads).own k hk
  obtain ⟨operation, hmem, hvalue⟩ := exists_mem_writes hkey hrows hk
  have hzip : operation ∈ ((writes projection (calls i) rows).zip ids).map Prod.fst := by
    rw [List.map_fst_zip (Nat.le_of_eq hlen.symm)]
    exact hmem
  obtain ⟨⟨operation', id⟩, hq, rfl⟩ := List.mem_map.mp hzip
  refine ⟨id, _, operation', mem_eventsOf.mp ?_, hvalue⟩
  rw [ht]
  exact List.mem_cons_of_mem _ (List.mem_append_left _ (List.mem_map_of_mem hq))

/-- A call that has succeeded was told that its writes succeeded. -/
theorem exists_awaited {timeout : ι → ℕ} {report : Reindexed}
    (hcall : (process ⟨projection, some (timeout i)⟩ (calls i)).run (eventsOf i t) (some (.ok report)))
    {id : ℕ} {k : K} {d : Option D} (hw : Writes projection t i id k d) : (i, awaited (timeout i) id) ∈ t := by
  obtain ⟨operation, he, -⟩ := hw
  rw [← mem_eventsOf] at he ⊢
  by_cases hnil : calls i = []
  · rw [hnil] at hcall
    rw [(process_nil.mp hcall).1] at he
    cases he
  · obtain ⟨rows, ids, -, ht, -⟩ := (process_iff rfl hnil).mp hcall
    rw [ht] at he ⊢
    have hid : id ∈ ids := by
      rcases List.mem_cons.mp he with he | he
      · cases he
      rcases List.mem_append.mp he with he | he
      · obtain ⟨⟨operation', id'⟩, hq, heq⟩ := List.mem_map.mp he
        cases heq
        exact (List.of_mem_zip hq).2
      · obtain ⟨id', -, heq⟩ := List.mem_map.mp he
        cases heq
    exact List.mem_cons_of_mem _ (List.mem_append_right _ (List.mem_map_of_mem hid))

/-- A call writes what the row it loaded projects to. -/
theorem eq_of_writes (hkey : ∀ row d, projection.project row = some d → projection.index.key d = projection.key row)
    (hbegun : Begun projection calls t) (hloaded : Loaded projection calls t s) {id : ℕ} {k : K} {d : Option D}
    (hw : Writes projection t i id k d) : ∃ version row?, s.loaded i k = some version ∧
      d = row?.bind projection.project ∧ version ≤ s.version k ∧ (version = s.version k → row? = s.source k) := by
  obtain ⟨operation, he, hvalue⟩ := hw
  rw [← mem_eventsOf] at he
  obtain hnil | ⟨rows, rest, ht, hrest⟩ := hbegun i
  · rw [hnil] at he
    cases he
  have hloads : Loads calls t i rows := by
    unfold Loads
    rw [ht]
    rfl
  rw [ht] at he
  have hmem : operation ∈ writes projection (calls i) rows := by
    rcases List.mem_cons.mp he with he | he
    · cases he
    obtain ⟨operation', hmem, id', heq⟩ | ⟨timeout, id', heq⟩ := hrest _ he
    · cases heq
      exact hmem
    · cases heq
  have hknows := hloaded.knows i rows hloads
  obtain ⟨version, row?, hversion, hrows, hle, hsame⟩ :=
    hknows.own k (mem_keys_of_mem_writes hkey hknows.keys hmem hvalue)
  exact ⟨version, row?, hversion, eq_of_mem_writes hkey hrows hmem hvalue, hle, hsame⟩

/-- **Concurrent reindexing in order ends in sync.** Once all calls have succeeded, and each row was loaded
after it was last written, the index holds what the rows project to. -/
theorem process_in_sync (timeout : ι → ℕ) (calls : ι → List K)
    (hkey : ∀ row d, projection.project row = some d → projection.index.key d = projection.key row)
    (hstart : Started projection start) (hrun : (inOrder (E := E) projection).Runs start t s)
    (hcalls : ∀ i, ∃ report,
      (process ⟨projection, some (timeout i)⟩ (calls i)).run (eventsOf i t) (some (.ok report)))
    (hcurrent : ∀ k, (∃ i, k ∈ calls i) → ∃ i, s.loaded i k = some (s.version k)) {k : K} (hk : ∃ i, k ∈ calls i) :
    s.server.documents projection.index.uid k = (s.source k).bind projection.project := by
  have hbegun := begun_of_process hcalls
  obtain ⟨hloaded, hwritten⟩ := runs_tracked hkey hstart hrun hbegun
  -- the call that loaded the current row has written its document
  obtain ⟨i, hi⟩ := hcurrent k hk
  have hki : k ∈ calls i := by
    by_contra hnot
    obtain hnil | ⟨rows, rest, ht, -⟩ := hbegun i
    · rw [hloaded.unloaded i hnil] at hi
      cases hi
    · have hloads : Loads calls t i rows := by
        unfold Loads
        rw [ht]
        rfl
      rw [(hloaded.knows i rows hloads).others k hnot] at hi
      cases hi
  obtain ⟨report, hreport⟩ := hcalls i
  obtain ⟨id, d, hw⟩ := exists_writes hkey hreport hloaded hki
  have hnewest := hwritten.newest i id k d _ hw hi
  -- so the last write was made from the current row
  rcases hwritten.last k with hnone | ⟨j, id', d', version, hw', hlast, hj, hle⟩
  · exact absurd hw (hnone i id d)
  obtain ⟨version', row?, hj', rfl, hbound, hsame⟩ := eq_of_writes hkey hbegun hloaded hw'
  obtain rfl : version' = version := Option.some.inj (hj'.symm.trans hj)
  rw [← hsame (by omega)]
  obtain ⟨report', hreport'⟩ := hcalls j
  obtain ⟨task, hended⟩ := hwritten.told j _ id' (exists_awaited hreport' hw')
  exact hlast.settled hwritten.fresh ⟨task, hended⟩

/-! ### Two calls -/

/-- A write whose task runs at once, and the wait for it. -/
theorem runs_write {allowed : State ι K Row D → ι × Event K E Row D → State ι K Row D → Prop} (i : ι)
    (timeout : ℕ) (operation : Operation K D) {documents : Option (Documents K D)}
    (hrun : ((world projection).restrict allowed).Runs start t s) (hqueue : s.server.queue = [])
    (happly : operation.apply projection.index.key (s.server.indexes projection.index.uid) = .ok documents)
    (henqueue : ∀ s', allowed s (i, enqueued projection.index.uid (operation, s.server.next)) s')
    (hawait : ∀ n n' id, allowed n (i, awaited timeout id) n') : ∃ s',
    ((world projection).restrict allowed).Runs start
      (t ++ [(i, enqueued projection.index.uid (operation, s.server.next))] ++
        [(i, awaited timeout s.server.next)]) s' ∧
    s'.source = s.source ∧ s'.version = s.version ∧ s'.loaded = s.loaded ∧ s'.server.queue = [] ∧
    s'.server.next = s.server.next + 1 ∧ s'.server.indexes projection.index.uid = documents ∧
    ∀ k, s'.newest k ≤ max (s.newest k) ((s.loaded i k).getD 0) := by
  have hpush : (s.server.push (.on projection.index.uid operation)).queue =
      [] ++ (s.server.next, .on projection.index.uid operation) :: [] := by
    unfold Server.push
    rw [hqueue]
  have hends : (Task.on projection.index.uid operation).Ends projection.index.key s.server.indexes (.ok ()) _ :=
    .done (Task.apply_on _ happly)
  have henqueued := hrun.step ⟨.meili (.accepted (.on projection.index.uid operation)), henqueue _⟩
  have hran := henqueued.move (.run (.run hpush (by simp) hends))
  refine ⟨_, hran.step ⟨.meili (.told ⟨_, Function.update_self ..⟩), hawait ..⟩, rfl, rfl, rfl, rfl, rfl, ?_,
    fun k => ?_⟩
  · exact Function.update_self ..
  · show (if (operation.value projection.index.key k).isSome then max (s.newest k) ((s.loaded i k).getD 0)
      else s.newest k) ≤ _
    split_ifs
    · exact Nat.le_refl _
    · exact Nat.le_max_left _ _

/-- An article is its own document: its key and its text. -/
def articles : Projection ℕ (ℕ × ℕ) (ℕ × ℕ) := ⟨⟨"articles", "id", Prod.fst⟩, Prod.fst, some, fun _ => "article"⟩

/-- Article 1 has the text 10 and is not yet indexed. -/
def articlesState (ι : Type) : State ι ℕ (ℕ × ℕ) (ℕ × ℕ) :=
  ⟨fun k => if k = 1 then some (1, 10) else none, fun _ => 0, ⟨fun _ => none, [], fun _ => none, 0⟩,
    fun _ _ => none, fun _ => 0⟩

omit [DecidableEq ι] in
theorem articlesState_started : Started articles (articlesState ι) := by
  refine ⟨fun k row h => ?_, ⟨by simp [articlesState], by simp [articlesState], fun _ _ => rfl⟩, fun _ _ => rfl,
    fun _ => rfl⟩
  change (if k = 1 then some (1, 10) else none) = some row at h
  split_ifs at h with hk
  cases h
  exact hk.symm

omit [DecidableEq ι] in
theorem articlesState_row {row : ℕ × ℕ} :
    row ∈ [(1, 10)] ↔ ∃ k ∈ [1], (articlesState ι).source k = some row := by
  simp [articlesState, eq_comm]

theorem writes_articles (n : ℕ) : writes articles [1] [(1, n)] = [.addOrReplace [(1, n)] "id"] := by
  simp [writes, documents, deleted, articles]

/-- A call for article 1 that finds the text `n`. -/
theorem process_articles (n id : ℕ) : ((new articles).process [1]).run
    ([.load [1] (some (.ok [(1, n)])), enqueued "articles" (.addOrReplace [(1, n)] "id", id),
      awaited defaultTaskTimeout id] : List (Event ℕ Unit (ℕ × ℕ) (ℕ × ℕ))) (some (.ok ⟨1, 0⟩)) := by
  refine (process_iff rfl (by simp)).mpr ⟨[(1, n)], [id], ?_, ?_, ?_⟩
  · show _ = (writes articles [1] [(1, n)]).length
    rw [writes_articles]
    rfl
  · show _ = _ :: (((writes articles [1] [(1, n)]).zip [id]).map _ ++ _)
    rw [writes_articles]
    rfl
  · simp [documents, deleted, new, articles]

/-- One call has loaded the row of article 1, the row was written, and another call has loaded it again. -/
def articlesLoaded : State Bool ℕ (ℕ × ℕ) (ℕ × ℕ) :=
  (((articlesState Bool).load true [1]).write 1 (some (1, 20))).load false [1]

theorem runs_articlesLoaded {allowed : State Bool ℕ (ℕ × ℕ) (ℕ × ℕ) →
      Bool × Event ℕ Unit (ℕ × ℕ) (ℕ × ℕ) → State Bool ℕ (ℕ × ℕ) (ℕ × ℕ) → Prop}
    (hload : ∀ s i keys answer s', allowed s (i, .load keys answer) s') :
    ((world articles).restrict allowed).Runs (articlesState Bool)
      [(true, .load [1] (some (.ok [(1, 10)]))), (false, .load [1] (some (.ok [(1, 20)])))] articlesLoaded := by
  have hold : ((world (E := Unit) articles).restrict allowed).Runs (articlesState Bool) ([] ++ [_])
      ((articlesState Bool).load true [1]) :=
    World.Runs.nil.step ⟨.load fun _ => articlesState_row, hload _ true _ _ _⟩
  have hwrite := hold.move (.write 1 (some (1, 20)) fun r hr => by cases hr; rfl)
  refine hwrite.step ⟨.load fun row => ?_, hload _ false _ _ _⟩
  simp [State.write_source_self, eq_comm]

theorem articlesLoaded_row : articlesLoaded.source 1 = some (1, 20) := rfl

theorem articlesLoaded_current : articlesLoaded.loaded false 1 = some (articlesLoaded.version 1) := rfl

theorem articlesLoaded_old (k : ℕ) : (articlesLoaded.loaded true k).getD 0 = 0 := by
  show (if k ∈ [1] then some 0 else none : Option ℕ).getD 0 = 0
  split_ifs <;> rfl

/-- One call loads the row of article 1, the row is written, and a second call loads it; the first call
writes the old text, then the second call writes the new one. -/
theorem process_in_sync_articles : ∃ (t : List (Bool × Event ℕ Unit (ℕ × ℕ) (ℕ × ℕ)))
    (s : State Bool ℕ (ℕ × ℕ) (ℕ × ℕ)), (inOrder articles).Runs (articlesState Bool) t s ∧
      t.map Prod.fst = [true, false, true, true, false, false] ∧ s.version 1 = 1 ∧ s.loaded true 1 = some 0 ∧
      s.server.documents "articles" 1 = (s.source 1).bind articles.project := by
  have hloads : (inOrder (E := Unit) articles).Runs (articlesState Bool) _ articlesLoaded :=
    runs_articlesLoaded fun _ _ _ _ _ => trivial
  obtain ⟨s', hrun', -, hversion', hloaded', hqueue', hnext', -, hnewest'⟩ := runs_write true
    defaultTaskTimeout (.addOrReplace [(1, 10)] "id") hloads rfl rfl (fun _ _ _ _ _ => Nat.zero_le _)
    fun _ _ _ => trivial
  have hzero : ∀ k, s'.newest k = 0 := by
    intro k
    have h := hnewest' k
    rw [articlesLoaded_old] at h
    exact Nat.le_zero.mp h
  obtain ⟨s, hrun, -, hversion, hloaded, -⟩ := runs_write false
    defaultTaskTimeout (.addOrReplace [(1, 20)] "id") hrun' hqueue' rfl
    (fun _ k _ _ _ => (hzero k).symm ▸ Nat.zero_le _) fun _ _ _ => trivial
  refine ⟨_, s, hrun, rfl, ?_, ?_, process_in_sync (fun _ => defaultTaskTimeout) (fun _ => [1]) ?_
    articlesState_started hrun (fun i => ⟨⟨1, 0⟩, ?_⟩) ?_ ⟨true, by simp⟩⟩
  · rw [hversion, hversion']
    rfl
  · rw [hloaded, hloaded']
    rfl
  · rintro row d hd
    cases hd
    rfl
  · cases i with
    | true => exact process_articles 10 0
    | false =>
      rw [hnext']
      exact process_articles 20 1
  · rintro k ⟨-, hk⟩
    obtain rfl := List.mem_singleton.mp hk
    refine ⟨false, ?_⟩
    rw [hloaded, hloaded', hversion, hversion']
    exact articlesLoaded_current

/-- One call loads the row of article 1, the row is written, a second call loads and writes it and
succeeds, and then the first call writes the old text and succeeds. -/
theorem process_out_of_sync : ∃ (t : List (Bool × Event ℕ Unit (ℕ × ℕ) (ℕ × ℕ)))
    (s : State Bool ℕ (ℕ × ℕ) (ℕ × ℕ)), (world articles).Runs (articlesState Bool) t s ∧
      (∀ i, ∃ report, ((new articles).process [1]).run (eventsOf i t) (some (.ok report))) ∧
      (∃ i, s.loaded i 1 = some (s.version 1)) ∧
      s.server.documents "articles" 1 ≠ (s.source 1).bind articles.project := by
  have hloads : ((world (E := Unit) articles).restrict fun _ _ _ => True).Runs (articlesState Bool) _
      articlesLoaded := runs_articlesLoaded fun _ _ _ _ _ => trivial
  obtain ⟨s', hrun', hsource', hversion', hloaded', hqueue', hnext', hdocuments', -⟩ := runs_write false
    defaultTaskTimeout (.addOrReplace [(1, 20)] "id") hloads rfl rfl (fun _ => trivial) fun _ _ _ => trivial
  obtain ⟨s, hrun, hsource, hversion, hloaded, -, -, hdocuments, -⟩ := runs_write true
    defaultTaskTimeout (.addOrReplace [(1, 10)] "id") hrun' hqueue' rfl (fun _ => trivial)
    fun _ _ _ => trivial
  refine ⟨_, s, hrun.mono (fun _ _ _ h => h.1) fun _ _ h => h, fun i => ⟨⟨1, 0⟩, ?_⟩, ⟨false, ?_⟩, ?_⟩
  · cases i with
    | false => exact process_articles 20 0
    | true =>
      rw [hnext']
      exact process_articles 10 1
  · rw [hloaded, hloaded', hversion, hversion']
    exact articlesLoaded_current
  · have hten : s.server.documents articles.index.uid 1 = some (1, 10) := by
      unfold Server.documents
      rw [hdocuments, hdocuments']
      rfl
    show s.server.documents articles.index.uid 1 ≠ _
    rw [hten, hsource, hsource', articlesLoaded_row]
    decide

end Wakuwaku.Entity.Meilisearch.Sync.Indexer
