import Wakuwaku.Keyset
import Wakuwaku.Entity.Meilisearch.Sync.Rebuild.Phases

/-! # The scan of a rebuild

The source answers a page with the first rows it holds at that moment after the given key, in ascending
order of their keys, and changes at any time. The server answers as it likes. The log keeps the events of
a rebuild, each with the contents of the source. `Complete` says what has been done once the swap is
requested: a scan of the whole source, with every document written and every write awaited. -/

namespace Wakuwaku.Entity.Meilisearch.Sync

open Wakuwaku.Meilisearch World Keyset

variable {K E Row D α : Type}

/-! ### Events -/

def Event.isPage : Event K E Row D → Bool
  | .page _ _ _ => true
  | _ => false

/-- The rows of a page that was read. -/
def Event.rows : Event K E Row D → Option (List Row)
  | .page _ _ (some (.ok rows)) => some rows
  | _ => none

/-- The documents a request adds or replaces, with the uid of their index. -/
def Event.upsert : Event K E Row D → Option (String × List D)
  | .meili (.enqueue (.on uid (.addOrReplace documents _)) _) => some (uid, documents)
  | _ => none

/-- A request was answered with the id of its task. -/
def Event.Accepted (id : ℕ) : Event K E Row D → Prop
  | .meili (.enqueue _ (some (.ok answer))) => answer = id
  | _ => False

/-- A wait for the task was told that it has succeeded. -/
def Event.Succeeded (id : ℕ) : Event K E Row D → Prop
  | .meili (.waitForTask task _ _ (some (.ok .succeeded))) => task = id
  | _ => False

/-- A request to swap the live index with its copy. -/
def Event.IsSwap (projection : Projection K Row D) : Event K E Row D → Prop
  | .meili (.enqueue task _) => task = swapTask projection
  | _ => False

/-- An event that reads no page, writes no documents and requests no swap. -/
structure Event.Plain (projection : Projection K Row D) (event : Event K E Row D) : Prop where
  isPage : event.isPage = false
  upsert : event.upsert = none
  swap : ¬ event.IsSwap projection

theorem Event.rows_eq_none {event : Event K E Row D} (h : event.isPage = false) : event.rows = none := by
  cases event with
  | page => cases h
  | _ => rfl

variable [LinearOrder K] (projection : Projection K Row D)

/-! ### The source and the log -/

/-- What the source and the server can answer. -/
def Event.Possible (contents : Contents projection.key) : Event K E Row D → Prop
  | .page after limit (some (.ok rows)) => rows = contents.page after limit
  | _ => True

/-- The source, whose rows are inserted, deleted and updated at any time. -/
def changing : World (Contents projection.key) (Event K E Row D) :=
  ⟨fun contents event contents' => event.Possible projection contents ∧ contents' = contents, fun _ _ => True⟩

/-- Events, each with the contents of the source. -/
abbrev Log (E : Type) : Type := List (Contents projection.key × Event K E Row D)

variable {projection}

/-- The pages that were read, each with the contents it was read from. -/
def pagesOf (log : Log projection E) : List (Read projection.key) :=
  log.filterMap fun q => q.2.rows.map fun rows => (q.1, rows)

/-- How many pages were asked for. -/
def countPages (log : Log projection E) : ℕ := log.countP fun q => q.2.isPage

/-- The documents written, with the uids of their indexes, one list a request. -/
def upsertsOf (log : Log projection E) : List (String × List D) := log.filterMap fun q => q.2.upsert

/-- Every write of documents was accepted as a task, and a wait for it has succeeded since, if it is not one
of `pending`. -/
def Awaited (pending : List ℕ) (log : Log projection E) : Prop :=
  ∀ q after, q :: after <:+ log → q.2.upsert ≠ none →
    ∃ id, q.2.Accepted id ∧ (id ∈ pending ∨ ∃ q' ∈ after, q'.2.Succeeded id)

section Snoc

variable {log : Log projection E} {q : Contents projection.key × Event K E Row D} {pending : List ℕ}

theorem pagesOf_page {contents : Contents projection.key} {after : Option K} {limit : ℕ} {rows : List Row} :
    pagesOf (log ++ [(contents, .page after limit (some (.ok rows)))]) = pagesOf log ++ [(contents, rows)] :=
  List.filterMap_append

theorem pagesOf_of_none (h : q.2.rows = none) : pagesOf (log ++ [q]) = pagesOf log := by
  unfold pagesOf
  rw [List.filterMap_append]
  simp [h]

theorem pagesOf_snoc (h : q.2.isPage = false) : pagesOf (log ++ [q]) = pagesOf log :=
  pagesOf_of_none (Event.rows_eq_none h)

theorem countPages_page (h : q.2.isPage = true) : countPages (log ++ [q]) = countPages log + 1 := by
  unfold countPages
  rw [List.countP_append, List.countP_singleton, if_pos h]

theorem countPages_snoc (h : q.2.isPage = false) : countPages (log ++ [q]) = countPages log := by
  unfold countPages
  rw [List.countP_append]
  simp [h]

theorem upsertsOf_snoc (h : q.2.upsert = none) : upsertsOf (log ++ [q]) = upsertsOf log := by
  unfold upsertsOf
  rw [List.filterMap_append]
  simp [h]

/-- The last event, or one of those before it. -/
theorem suffix_snoc {q' : Contents projection.key × Event K E Row D} {after : Log projection E}
    (h : q' :: after <:+ log ++ [q]) : (q' = q ∧ after = []) ∨ ∃ init, after = init ++ [q] ∧ q' :: init <:+ log := by
  rcases List.suffix_concat_iff.mp h with hnil | ⟨init, hinit, hsuffix⟩
  · cases hnil
  · cases init with
    | nil => exact .inl ⟨(List.cons.inj hinit).1, (List.cons.inj hinit).2⟩
    | cons q'' init =>
      obtain ⟨rfl, rfl⟩ := List.cons.inj hinit
      exact .inr ⟨init, rfl, hsuffix⟩

/-- The writes in flight stay in flight or settle. -/
theorem Awaited.mono {pending' : List ℕ} (h : Awaited pending log)
    (hpending : ∀ id ∈ pending, id ∈ pending' ∨ q.2.Succeeded id)
    (hq : q.2.upsert ≠ none → ∃ id ∈ pending', q.2.Accepted id) : Awaited pending' (log ++ [q]) := by
  intro q' after hsuffix hupsert
  rcases suffix_snoc hsuffix with ⟨rfl, rfl⟩ | ⟨init, rfl, hinit⟩
  · obtain ⟨id, hid, haccepted⟩ := hq hupsert
    exact ⟨id, haccepted, .inl hid⟩
  · obtain ⟨id, haccepted, hdone⟩ := h q' init hinit hupsert
    refine ⟨id, haccepted, ?_⟩
    rcases hdone with hid | ⟨q'', hq'', hsucceeded⟩
    · exact (hpending id hid).imp_right fun hs => ⟨q, List.mem_append_right _ List.mem_cons_self, hs⟩
    · exact .inr ⟨q'', List.mem_append_left _ hq'', hsucceeded⟩

theorem Awaited.snoc (h : Awaited pending log) (hq : q.2.upsert = none) : Awaited pending (log ++ [q]) :=
  h.mono (fun _ => .inl) fun hupsert => absurd hq hupsert

/-- One more write is in flight. -/
theorem Awaited.write {id : ℕ} (h : Awaited pending log) (hq : q.2.Accepted id) :
    Awaited (pending ++ [id]) (log ++ [q]) :=
  h.mono (fun _ hid => .inl (List.mem_append_left _ hid)) fun _ => ⟨id, by simp, hq⟩

/-- The first write in flight has succeeded. -/
theorem Awaited.settled {id : ℕ} (h : Awaited (id :: pending) log) (hq : q.2.Succeeded id)
    (hupsert : q.2.upsert = none) : Awaited pending (log ++ [q]) := by
  refine h.mono (fun id' hid' => ?_) fun hne => absurd hupsert hne
  rcases List.mem_cons.mp hid' with rfl | hid'
  · exact .inr hq
  · exact .inl hid'

end Snoc

/-! ### What holds during a scan -/

section

variable (options : RebuildOptions) (log : Log projection E)

/-- Pages were read one after the other, all full but the last. One more may have been asked for. -/
def Reading : Prop := ∃ before after, Scan options.batchSize before after ∧ countPages log ≤ before.length + 1 ∧
  (pagesOf log = before ∨
    ∃ contents : Contents projection.key, pagesOf log = before ++ [(contents, contents.page after options.batchSize)])

/-- The whole source was read, and every document written and awaited. -/
structure Complete : Prop where
  /-- A key that was there at every page was read once, whatever its row was. -/
  once : ∀ k, (∀ read ∈ pagesOf log, ∃ row ∈ read.1.rows, projection.key row = k) →
    ∃ row, (rowsOf (pagesOf log)).filter (fun row => projection.key row = k) = [row]
  /-- A row that was there at every page was read once. -/
  kept : ∀ row, (∀ read ∈ pagesOf log, row ∈ read.1.rows) →
    (rowsOf (pagesOf log)).filter (fun row' => projection.key row' = projection.key row) = [row]
  /-- The documents of the rows read were written to the copy, in order, each in one request. -/
  upserts : ∃ batches : List (List D), upsertsOf log = batches.map (copyOf projection, ·) ∧
    batches.flatten = (rowsOf (pagesOf log)).filterMap projection.project
  awaited : Awaited [] log

/-- What holds at every moment. -/
structure InOrder : Prop where
  reading : Reading options log
  complete : ∀ before q, before ++ [q] <+: log → q.2.IsSwap projection → Complete before

/-- The documents of the rows read but `todo` were written to the copy; they are `count`. The tasks `ids` are in
flight. -/
structure Written (count : ℕ) (ids : List ℕ) (todo : List Row) : Prop where
  upserts : ∃ (batches : List (List D)) (done : List Row), upsertsOf log = batches.map (copyOf projection, ·) ∧
    rowsOf (pagesOf log) = done ++ todo ∧ batches.flatten = done.filterMap projection.project ∧
    count = min (done.filterMap projection.project).length (2 ^ 64 - 1)
  awaited : Awaited ids log
  noSwap : ∀ q ∈ log, ¬ q.2.IsSwap projection

/-- Between two pages. -/
structure Between (state : Filling K) : Prop where
  scan : Scan options.batchSize (pagesOf log) state.after
  count : countPages log = (pagesOf log).length
  written : Written log state.documents state.pending.toList []

/-- After a page with the rows `rows`. -/
structure Paged (after : Option K) (rows : List Row) : Prop where
  scan : ∃ before contents, Scan options.batchSize before after ∧
    rows = Contents.page contents after options.batchSize ∧ pagesOf log = before ++ [(contents, rows)] ∧
    countPages log = before.length + 1

/-- After the last page, with the tasks `ids` in flight. -/
structure Ended (count : ℕ) (ids : List ℕ) : Prop where
  finished : Finished options.batchSize (pagesOf log)
  reading : Reading options log
  written : Written log count ids []

/-- Once every write was awaited. -/
structure Settled (count : ℕ) : Prop where
  inOrder : InOrder options log
  complete : Complete log
  count : count = min ((rowsOf (pagesOf log)).filterMap projection.project).length (2 ^ 64 - 1)

end

section Steps

variable {options : RebuildOptions} {log : Log projection E} {q : Contents projection.key × Event K E Row D}
  {count id : ℕ} {ids : List ℕ} {rows todo : List Row} {after : Option K} {state : Filling K} {last : Row}

/-! ### What an event leaves -/

theorem Reading.snoc (h : Reading options log) (hq : q.2.isPage = false) : Reading options (log ++ [q]) := by
  unfold Reading
  rwa [pagesOf_snoc hq, countPages_snoc hq]

theorem Complete.snoc (h : Complete log) (hq : q.2.isPage = false) (hupsert : q.2.upsert = none) :
    Complete (log ++ [q]) := by
  obtain ⟨honce, hkept, hupserts, hawaited⟩ := h
  refine ⟨?_, ?_, ?_, hawaited.snoc hupsert⟩
  · rwa [pagesOf_snoc hq]
  · rwa [pagesOf_snoc hq]
  · rwa [pagesOf_snoc hq, upsertsOf_snoc hupsert]

theorem InOrder.snoc (h : InOrder options log) (hq : q.2.isPage = false)
    (hswap : q.2.IsSwap projection → Complete log) : InOrder options (log ++ [q]) := by
  refine ⟨h.reading.snoc hq, fun before q' hinit hq' => ?_⟩
  rcases List.prefix_concat_iff.mp hinit with heq | hinit
  · obtain ⟨rfl, hlast⟩ := List.append_inj' heq rfl
    obtain rfl := (List.cons.inj hlast).1
    exact hswap hq'
  · exact h.complete before q' hinit hq'

theorem Written.snoc (h : Written log count ids todo) (hq : q.2.Plain projection) :
    Written (log ++ [q]) count ids todo := by
  refine ⟨?_, h.awaited.snoc hq.upsert, ?_⟩
  · rw [pagesOf_snoc hq.isPage, upsertsOf_snoc hq.upsert]
    exact h.upserts
  · intro q' hq'
    rcases List.mem_append.mp hq' with hq' | hq'
    · exact h.noSwap q' hq'
    · rw [List.mem_singleton.mp hq']
      exact hq.swap

theorem Between.snoc (h : Between options log state) (hq : q.2.Plain projection) :
    Between options (log ++ [q]) state := by
  refine ⟨?_, ?_, h.written.snoc hq⟩
  · rw [pagesOf_snoc hq.isPage]
    exact h.scan
  · rw [pagesOf_snoc hq.isPage, countPages_snoc hq.isPage]
    exact h.count

theorem Paged.snoc (h : Paged options log after rows) (hq : q.2.isPage = false) :
    Paged options (log ++ [q]) after rows := by
  refine ⟨?_⟩
  rw [pagesOf_snoc hq, countPages_snoc hq]
  exact h.scan

theorem Settled.snoc (h : Settled options log count) (hq : q.2.isPage = false) (hupsert : q.2.upsert = none) :
    Settled options (log ++ [q]) count := by
  refine ⟨h.inOrder.snoc hq fun _ => h.complete, h.complete.snoc hq hupsert, ?_⟩
  rw [pagesOf_snoc hq]
  exact h.count

/-! ### Writes -/

/-- A page adds rows to write. -/
theorem Written.page {contents : Contents projection.key} {limit : ℕ} (h : Written log count ids []) :
    Written (log ++ [(contents, .page after limit (some (.ok rows)))]) count ids rows := by
  obtain ⟨⟨batches, done, hbatches, hdone, hflatten, hcount⟩, hawaited, hno⟩ := h
  refine ⟨⟨batches, done, ?_, ?_, hflatten, hcount⟩, hawaited.snoc rfl, ?_⟩
  · rwa [upsertsOf_snoc rfl]
  · rw [pagesOf_page, rowsOf_append, rowsOf_singleton, hdone, List.append_nil]
  · intro q hq
    rcases List.mem_append.mp hq with hq | hq
    · exact hno q hq
    · rw [List.mem_singleton.mp hq]
      exact not_false

/-- Rows that project to nothing need no write. -/
theorem Written.skip (h : Written log count ids rows) (hempty : rows.filterMap projection.project = []) :
    Written log count ids [] := by
  obtain ⟨⟨batches, done, hbatches, hdone, hflatten, hcount⟩, hawaited, hno⟩ := h
  refine ⟨⟨batches, done ++ rows, hbatches, by rw [hdone, List.append_nil], ?_, ?_⟩, hawaited, hno⟩
  · rw [List.filterMap_append, hempty, List.append_nil, hflatten]
  · rw [List.filterMap_append, hempty, List.append_nil, hcount]

theorem usizeSaturatingAdd_min (n m : ℕ) :
    usizeSaturatingAdd (min n (2 ^ 64 - 1)) m = min (n + m) (2 ^ 64 - 1) := by
  unfold usizeSaturatingAdd
  omega

/-- The documents of the rows are enqueued. -/
theorem Written.write {contents : Contents projection.key} {primaryKey : String} (h : Written log count ids rows) :
    Written (log ++ [(contents, .meili (.enqueue (.on (copyOf projection)
        (.addOrReplace (rows.filterMap projection.project) primaryKey)) (some (.ok id))))])
      (usizeSaturatingAdd count (rows.filterMap projection.project).length) (ids ++ [id]) [] := by
  obtain ⟨⟨batches, done, hbatches, hdone, hflatten, hcount⟩, hawaited, hno⟩ := h
  refine ⟨⟨batches ++ [rows.filterMap projection.project], done ++ rows, ?_, ?_, ?_, ?_⟩, hawaited.write rfl, ?_⟩
  · unfold upsertsOf at hbatches ⊢
    rw [List.filterMap_append, hbatches, List.map_append]
    rfl
  · rw [pagesOf_snoc rfl, hdone, List.append_nil]
  · rw [List.flatten_append, hflatten, List.filterMap_append]
    simp
  · rw [hcount, usizeSaturatingAdd_min, List.filterMap_append, List.length_append]
  · intro q hq
    rcases List.mem_append.mp hq with hq | hq
    · exact hno q hq
    · rw [List.mem_singleton.mp hq]
      nofun

/-- The first write in flight has succeeded. -/
theorem Written.settled (h : Written log count (id :: ids) todo) (hq : q.2.Plain projection)
    (hsucceeded : q.2.Succeeded id) : Written (log ++ [q]) count ids todo := by
  have hkept := h.snoc hq
  exact ⟨hkept.upserts, h.awaited.settled hsucceeded hq.upsert, hkept.noSwap⟩

/-- The first write in flight has succeeded. -/
theorem Ended.await (h : Ended options log count (id :: ids)) (hq : q.2.Plain projection)
    (hsucceeded : q.2.Succeeded id) : Ended options (log ++ [q]) count ids := by
  refine ⟨?_, h.reading.snoc hq.isPage, h.written.settled hq hsucceeded⟩
  rw [pagesOf_snoc hq.isPage]
  exact h.finished

/-! ### Moments -/

theorem InOrder.of_noSwap (h : Reading options log) (hno : ∀ q ∈ log, ¬ q.2.IsSwap projection) :
    InOrder options log := by
  refine ⟨h, fun before q hinit hq => ?_⟩
  exact absurd hq (hno q (hinit.subset (by simp)))

theorem Between.reading (h : Between options log state) : Reading options log :=
  ⟨pagesOf log, state.after, h.scan, by rw [h.count]; omega, .inl rfl⟩

theorem Between.inOrder (h : Between options log state) : InOrder options log :=
  .of_noSwap h.reading h.written.noSwap

/-- The next page is read. -/
theorem Between.page {contents : Contents projection.key} (h : Between options log state)
    (hrows : rows = contents.page state.after options.batchSize) :
    Paged options (log ++ [(contents, .page state.after options.batchSize (some (.ok rows)))]) state.after rows := by
  refine ⟨pagesOf log, contents, h.scan, hrows, pagesOf_page, ?_⟩
  rw [countPages_page rfl, h.count]

/-- The next page cannot be read. -/
theorem Between.noPage {contents : Contents projection.key} {limit : ℕ} {answer : Option (Except E (List Row))}
    (h : Between options log state) (hnot : ∀ rows, answer ≠ some (.ok rows)) :
    InOrder options (log ++ [(contents, .page after limit answer)]) := by
  refine .of_noSwap ⟨pagesOf log, state.after, h.scan, Nat.le_of_eq ?_, .inl (pagesOf_of_none ?_)⟩ fun q hq => ?_
  · rw [countPages_page rfl, h.count]
  · rcases answer with - | e | rows
    · rfl
    · rfl
    · exact absurd rfl (hnot rows)
  · rcases List.mem_append.mp hq with hq | hq
    · exact h.written.noSwap q hq
    · rw [List.mem_singleton.mp hq]
      exact not_false

theorem Paged.reading (h : Paged options log after rows) : Reading options log := by
  obtain ⟨before, contents, hscan, rfl, hpages, hcount⟩ := h.scan
  exact ⟨before, after, hscan, Nat.le_of_eq hcount, .inr ⟨contents, hpages⟩⟩

theorem Ended.inOrder (h : Ended options log count ids) : InOrder options log :=
  .of_noSwap h.reading h.written.noSwap

/-- A page does not end where the one before it ended. -/
theorem Paged.not_stuck (h : Paged options log after rows) (hlast : rows.getLast? = some last) :
    after ≠ some (projection.key last) := by
  obtain ⟨before, contents, -, rfl, -, -⟩ := h.scan
  rintro rfl
  exact lt_irrefl _ (comesAfter_some.mp (Contents.comesAfter_of_page (List.mem_of_getLast? hlast)))

/-- A full page: the scan goes on after its last key. -/
theorem Paged.between (h : Paged options log after rows) (hfull : options.batchSize ≤ rows.length)
    (hlast : rows.getLast? = some last) (hwritten : Written log state.documents state.pending.toList []) :
    Between options log { state with after := some (projection.key last) } := by
  obtain ⟨before, contents, hscan, rfl, hpages, hcount⟩ := h.scan
  refine ⟨?_, ?_, hwritten⟩
  · rw [hpages]
    exact .page contents hscan hfull hlast
  · rw [hpages, hcount, List.length_append, List.length_singleton]

/-- A short page: the scan ends. -/
theorem Paged.ended (h : Paged options log after rows) (hshort : rows.length < options.batchSize)
    (hwritten : Written log count ids []) : Ended options log count ids := by
  refine ⟨?_, h.reading, hwritten⟩
  obtain ⟨before, contents, hscan, rfl, hpages, -⟩ := h.scan
  exact ⟨before, after, contents, hscan, hshort, hpages⟩

/-- The source has been read in full, and nothing is in flight. -/
theorem Ended.settled (h : Ended options log count []) : Settled options log count := by
  obtain ⟨⟨batches, done, hbatches, hdone, hflatten, hcount⟩, hawaited, -⟩ := h.written
  rw [List.append_nil] at hdone
  refine ⟨h.inOrder, ⟨fun _ => h.finished.once, fun _ => h.finished.kept, ⟨batches, hbatches, ?_⟩, hawaited⟩, ?_⟩
  · rw [hflatten, hdone]
  · rw [hcount, hdone]

end Steps

end Wakuwaku.Entity.Meilisearch.Sync
