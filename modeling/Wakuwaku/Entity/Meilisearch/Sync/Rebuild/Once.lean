import Wakuwaku.Entity.Meilisearch.Sync.Rebuild.Live
import Wakuwaku.Entity.Meilisearch.Sync.Rebuild.Scan
import Mathlib.Data.Nat.Basic

/-! # A rebuild scans every row once

Whatever is inserted, deleted or updated while a rebuild runs, the pages it reads are those of one scan, and
the swap is requested only after the whole scan is written (`rebuild_once`). A source that stays is read in
as few pages as there are batches. -/

namespace Wakuwaku.Entity.Meilisearch.Sync

open Wakuwaku.Meilisearch World Keyset

variable {K E Row D α : Type}

/-! ### Events of requests and waits -/

theorem all_enqueue {quiet : Event K E Row D → Prop} {task : Task K D}
    (h : ∀ answer, quiet (.meili (.enqueue task answer))) : Async.All quiet (enqueue .meili task) :=
  Async.all_call h

theorem all_settle {quiet : Event K E Row D → Prop} {options : RebuildOptions} {task : ℕ}
    (h : ∀ interval timeout answer, quiet (.meili (.waitForTask task interval timeout answer))) :
    Async.All quiet (settle options task) :=
  (Async.all_call fun answer => h _ _ answer).bind fun _ => Async.all_pure _

variable [LinearOrder K] {projection : Projection K Row D} {options : RebuildOptions}

/-! ### Assertions about the log -/

variable (projection options) in
/-- The rows `todo` of the page just read are to be written, and the tasks `ids` are in flight. -/
def Writing (after : Option K) (rows : List Row) (count : ℕ) (ids : List ℕ) (todo : List Row)
    (log : Log projection E) : Prop :=
  Paged options log after rows ∧ Written log count ids todo

theorem Writing.inOrder {after : Option K} {rows todo : List Row} {count : ℕ} {ids : List ℕ} {log : Log projection E}
    (h : Writing projection options after rows count ids todo log) : InOrder options log :=
  .of_noSwap h.1.reading h.2.noSwap

variable (projection) in
/-- A stable statement about the log. -/
abbrev OnLog (E : Type) : Type := Assertion (recorded (changing (E := E) projection))

def onLog (P : Log projection E → Prop) : OnLog projection E := ⟨fun s => P s.2, fun h hm => hm.2 ▸ h⟩

section

variable (projection options)

def inOrder : OnLog projection E := onLog (InOrder options)

/-- What holds once a rebuild has failed. -/
def brokenOff (e : SyncError E) : OnLog projection E :=
  onLog fun log => InOrder options log ∧ ∀ key, e ≠ .stuckScan key

def between (state : Filling K) : OnLog projection E := onLog fun log => Between options log state

def ended (state : Filling K) : OnLog projection E :=
  onLog fun log => Ended options log state.documents state.pending.toList

def allSettled (count : ℕ) : OnLog projection E := onLog fun log => Settled options log count

end

theorem brokenOff_inOrder (e : SyncError E) (s : Contents projection.key × Log projection E)
    (h : brokenOff projection options e s) : inOrder projection options s := h.1

/-! ### Requests and waits -/

variable {P Q : Log projection E → Prop} {id : ℕ}

/-- A computation whose events all keep `P`. -/
theorem scan_kept {m : Async (Event K E Row D) α} (quiet : Event K E Row D → Prop) (hquiet : Async.All quiet m)
    (hP : ∀ log, P log → InOrder options log) (hkeep : ∀ log q, quiet q.2 → P log → P (log ++ [q])) :
    Triple (inOrder projection options) (onLog P) m fun _ => onLog P := by
  refine Triple.of_all quiet hquiet (fun s => hP s.2) ?_ fun _ _ _ _ hs => hs
  rintro s e s' hs he ⟨-, hlog⟩
  show P s'.2
  rw [hlog]
  exact hkeep s.2 (s.1, e) he hs

theorem scan_request {request : Async (Event K E Row D) (Except Error α)} (quiet : Event K E Row D → Prop)
    (hquiet : Async.All quiet request) (hP : ∀ log, P log → InOrder options log)
    (hkeep : ∀ log q, quiet q.2 → P log → P (log ++ [q])) :
    Triple (inOrder projection options) (onLog P) (tryMeili request : Syncing (Event K E Row D) E α).run
      (outcomes (brokenOff projection options) fun _ => onLog P) := by
  refine Triple.mapExcept brokenOff_inOrder (fun _ s => hP s.2)
    ((scan_kept quiet hquiet hP hkeep).imp (fun _ h => h) fun r s h => ?_)
  cases r with
  | error e => exact ⟨hP s.2 h, nofun⟩
  | ok a => exact h

/-- A wait that must succeed. -/
theorem scan_settle (hP : ∀ log, P log → InOrder options log) (hQ : ∀ log, Q log → InOrder options log)
    (hok : ∀ log q, q.2.Plain projection → q.2.Succeeded id → P log → Q (log ++ [q])) :
    Triple (inOrder projection options) (onLog P) (tryMeili (settle options id) : Syncing (Event K E Row D) E Unit).run
      (outcomes (brokenOff projection options) fun _ => onLog Q) := by
  let settled : Except Error Unit → Assertion (recorded (changing (E := E) projection)) :=
    outcomes (fun e => brokenOff projection options (.meilisearch e)) fun _ => onLog Q
  have hsettled : ∀ r s, settled r s → InOrder options s.2 := by
    rintro (e | _) s h
    · exact h.1
    · exact hQ s.2 h
  refine Triple.mapExcept brokenOff_inOrder (fun _ s => hQ s.2) (Triple.bind (q := fun r => settled (r.bind result))
    (Triple.call (fun s => hP s.2) ?_ ?_) fun r => Triple.pure fun s h => ⟨hsettled _ s h, h⟩)
  · rintro s a s' hs ⟨-, hlog⟩
    suffices h : settled (a.bind result) s' from ⟨hsettled _ s' h, h⟩
    have hin : InOrder options s'.2 := hlog ▸ (hP s.2 hs).snoc rfl nofun
    rcases a with e | _ | _ | _ | code
    · exact ⟨hin, nofun⟩
    · exact ⟨hin, nofun⟩
    · exact ⟨hin, nofun⟩
    · show Q s'.2
      rw [hlog]
      exact hok s.2 _ ⟨rfl, rfl, not_false⟩ rfl hs
    · exact ⟨hin, nofun⟩
  · rintro s s' hs ⟨-, hlog⟩
    show InOrder options s'.2
    rw [hlog]
    exact (hP s.2 hs).snoc rfl nofun

/-! ### Filling the copy -/

variable {rows : List Row} {state : Filling K} {last : Row}

/-- The documents of a page are enqueued. -/
theorem scan_upsert {batch : List D} {Q : ℕ → Log projection E → Prop} (hP : ∀ log, P log → InOrder options log)
    (hQ : ∀ id log, Q id log → InOrder options log)
    (hok : ∀ log contents id, P log → Q id (log ++ [(contents, .meili (.enqueue
      (.on (copyOf projection) (.addOrReplace batch projection.index.primaryKey)) (some (.ok id))))])) :
    Triple (inOrder projection options) (onLog P)
      (tryMeili (upsert .meili projection.index (copyOf projection) batch) : Syncing (Event K E Row D) E ℕ).run
      (outcomes (brokenOff projection options) fun id => onLog (Q id)) := by
  unfold upsert enqueue
  refine Triple.mapExcept brokenOff_inOrder (fun id s => hQ id s.2) (Triple.call (fun s => hP s.2) ?_ ?_)
  · rintro s a s' hs ⟨-, hlog⟩
    cases a with
    | error e =>
      have hin : InOrder options s'.2 := hlog ▸ (hP s.2 hs).snoc rfl nofun
      exact ⟨hin, hin, nofun⟩
    | ok id =>
      have h : Q id s'.2 := hlog ▸ hok s.2 s.1 id hs
      exact ⟨hQ id s'.2 h, h⟩
  · rintro s s' hs ⟨-, hlog⟩
    show InOrder options s'.2
    rw [hlog]
    exact (hP s.2 hs).snoc rfl nofun

theorem scan_readPage : Triple (inOrder projection options) (between (E := E) projection options state)
    (readPage state.after options.batchSize).run
    (outcomes (brokenOff projection options) fun rows =>
      onLog (Writing projection options state.after rows state.documents state.pending.toList rows)) := by
  refine Triple.mapExcept brokenOff_inOrder (fun _ s => Writing.inOrder)
    (Triple.call (fun s h => Between.inOrder h) ?_ ?_)
  · rintro s a s' hs ⟨⟨hpossible, -⟩, hlog⟩
    cases a with
    | error e =>
      have hin : InOrder options s'.2 := hlog ▸ Between.noPage hs nofun
      exact ⟨hin, hin, nofun⟩
    | ok rows =>
      have h : Writing projection options state.after rows state.documents state.pending.toList rows s'.2 :=
        hlog ▸ ⟨Between.page hs hpossible, hs.written.page⟩
      exact ⟨h.inOrder, h⟩
  · rintro s s' hs ⟨-, hlog⟩
    show InOrder options s'.2
    rw [hlog]
    exact Between.noPage hs nofun

/-- The write in flight is awaited. -/
theorem scan_settlePending (P : List ℕ → Log projection E → Prop) (pending : Option ℕ) (ids : List ℕ)
    (hP : ∀ ids log, P ids log → InOrder options log)
    (hok : ∀ id ids log q, q.2.Plain projection → q.2.Succeeded id → P (id :: ids) log → P ids (log ++ [q])) :
    Triple (inOrder projection options) (onLog (P (pending.toList ++ ids))) (settlePending options pending).run
      (outcomes (brokenOff projection options) fun _ => onLog (P ids)) := by
  cases pending with
  | none => exact Triple.pure (a := Except.ok ()) fun s h => ⟨hP _ s.2 h, h⟩
  | some id => exact scan_settle (hP _) (hP _) fun log q => hok id ids log q

theorem scan_writeBatch {after : Option K} : Triple (inOrder projection options)
    (onLog (E := E) (Writing projection options after rows state.documents state.pending.toList rows))
    (writeBatch projection options (copyOf projection) state (rows.filterMap projection.project)).run
    (outcomes (brokenOff projection options) fun state =>
      onLog (Writing projection options after rows state.documents state.pending.toList [])) := by
  let count := usizeSaturatingAdd state.documents (rows.filterMap projection.project).length
  refine Triple.bindExcept brokenOff_inOrder (q := fun id =>
    onLog (Writing projection options after rows count (state.pending.toList ++ [id]) [])) ?_ fun id => ?_
  · exact scan_upsert (fun _ => Writing.inOrder) (fun _ _ => Writing.inOrder) fun log contents id h =>
      ⟨h.1.snoc rfl, h.2.write⟩
  · refine Triple.bindExcept brokenOff_inOrder (q := fun _ =>
      onLog (Writing projection options after rows count [id] [])) ?_ fun _ => ?_
    · exact scan_settlePending (fun ids => Writing projection options after rows count ids []) _ _
        (fun _ _ => Writing.inOrder) fun id ids log q hplain hsucceeded h =>
          ⟨h.1.snoc hplain.isPage, h.2.settled hplain hsucceeded⟩
    · exact Triple.pure (a := Except.ok _) fun s h => ⟨Writing.inOrder h, h⟩

/-- The end of a round: go on after the last key of a full page, or stop after a short one. -/
theorem scan_next (after : Option K) (hlast : rows.getLast? = some last) (state : Filling K) :
    Triple (inOrder projection options)
      (onLog (E := E) (Writing projection options after rows state.documents state.pending.toList []))
      (if rows.length < options.batchSize then pure (.inr state)
        else pure (.inl { state with after := some (projection.key last) }) : Syncing (Event K E Row D) E _).run
      (outcomes (brokenOff projection options)
        (Sum.elim (between projection options) (ended projection options))) := by
  by_cases hshort : rows.length < options.batchSize
  · rw [if_pos hshort]
    exact Triple.pure (a := Except.ok (Sum.inr state)) fun s h => ⟨Writing.inOrder h, h.1.ended hshort h.2⟩
  · rw [if_neg hshort]
    exact Triple.pure (a := Except.ok (Sum.inl _)) fun s h =>
      ⟨Writing.inOrder h, h.1.between (Nat.le_of_not_lt hshort) hlast h.2⟩

theorem scan_fillPage (state : Filling K) :
    Triple (inOrder projection options) (between (E := E) projection options state)
      (fillPage projection options (copyOf projection) state).run
      (outcomes (brokenOff projection options)
        (Sum.elim (between projection options) (ended projection options))) := by
  refine Triple.bindExcept brokenOff_inOrder scan_readPage fun rows => ?_
  cases hlast : rows.getLast? with
  | none =>
    obtain rfl := List.getLast?_eq_none_iff.mp hlast
    refine Triple.pure (a := Except.ok (Sum.inr state)) fun s h => ⟨Writing.inOrder h, ?_⟩
    exact h.1.ended options.batchSize_pos h.2
  | some last =>
    by_cases hstuck : state.after = some (projection.key last)
    · exact fun s t o s' hs => absurd hstuck (Paged.not_stuck hs.1 hlast)
    · simp only [if_neg hstuck]
      by_cases hempty : (rows.filterMap projection.project).isEmpty
      · rw [if_pos hempty]
        refine Triple.bindExcept brokenOff_inOrder (Triple.pure (a := Except.ok state) fun s h =>
          ⟨Writing.inOrder h, ?_⟩) (scan_next state.after hlast)
        exact ⟨h.1, h.2.skip (List.isEmpty_iff.mp hempty)⟩
      · rw [if_neg hempty]
        exact Triple.bindExcept brokenOff_inOrder scan_writeBatch (scan_next state.after hlast)

/-! ### The whole rebuild -/

theorem Between.start : Between options ([] : Log projection E) ⟨none, 0, none⟩ :=
  ⟨.start, rfl, ⟨[], [], rfl, rfl, rfl, rfl⟩, fun q after h => by simp at h, by simp⟩

/-- Before the scan. -/
theorem scan_before {request : Async (Event K E Row D) (Except Error α)}
    (hplain : Async.All (Event.Plain projection) request) :
    Triple (inOrder projection options) (between projection options state)
      (tryMeili request : Syncing (Event K E Row D) E α).run
      (outcomes (brokenOff projection options) fun _ => between projection options state) :=
  scan_request (Event.Plain projection) hplain (fun _ h => h.inOrder) fun _ _ hq h => h.snoc hq

/-- After the scan; the request may be the swap. -/
theorem scan_after {request : Async (Event K E Row D) (Except Error α)} {count : ℕ}
    (hquiet : Async.All (fun event => event.isPage = false ∧ event.upsert = none) request) :
    Triple (inOrder projection options) (allSettled projection options count)
      (tryMeili request : Syncing (Event K E Row D) E α).run
      (outcomes (brokenOff projection options) fun _ => allSettled projection options count) :=
  scan_request _ hquiet (fun _ h => h.inOrder) fun _ _ hq h => h.snoc hq.1 hq.2

/-- Whatever the source and the server do, a rebuild is in order at every moment. -/
theorem scan_rebuild : Triple (inOrder projection options) (between (E := E) projection options ⟨none, 0, none⟩)
    (rebuild projection options).run
    (outcomes (brokenOff projection options) fun rebuilt => allSettled projection options rebuilt.documents) := by
  have hwait : ∀ task, Async.All (Event.Plain projection) (settle (E := E) options task) := fun task =>
    all_settle fun interval timeout answer => ⟨rfl, rfl, not_false⟩
  have hquiet : ∀ task, Async.All (fun event : Event K E Row D => event.isPage = false ∧ event.upsert = none)
      (settle options task) := fun task => all_settle fun interval timeout answer => ⟨rfl, rfl⟩
  refine Triple.bindExcept brokenOff_inOrder (q := fun _ => between projection options ⟨none, 0, none⟩)
    ?_ fun startedAt => ?_
  · exact Triple.bind (scan_kept (Event.Plain projection) (Async.all_call fun answer => ⟨rfl, rfl, not_false⟩)
      (fun _ h => h.inOrder) fun _ _ hq h => h.snoc hq) fun startedAt =>
        Triple.pure (a := Except.ok startedAt) fun s h => ⟨Between.inOrder h, h⟩
  refine Triple.bindExcept brokenOff_inOrder
    (scan_before (all_enqueue fun answer => ⟨rfl, rfl, nofun⟩)) fun delete => ?_
  refine Triple.bindExcept brokenOff_inOrder
    (scan_before ((hwait delete).bind fun _ => Async.all_pure _)) fun _ => ?_
  refine Triple.bindExcept brokenOff_inOrder
    (scan_before (all_enqueue fun answer => ⟨rfl, rfl, nofun⟩)) fun create => ?_
  refine Triple.bindExcept brokenOff_inOrder (scan_before (hwait create)) fun _ => ?_
  refine Triple.bindExcept brokenOff_inOrder
    (scan_before (all_enqueue fun answer => ⟨rfl, rfl, nofun⟩)) fun settings => ?_
  refine Triple.bindExcept brokenOff_inOrder (scan_before (hwait settings)) fun _ => ?_
  -- the copy is filled
  refine Triple.bindExcept brokenOff_inOrder (Triple.loopExcept (between projection options)
    (ended projection options) brokenOff_inOrder (fun _ _ h => Between.inOrder h) (fun _ _ h => Ended.inOrder h)
    scan_fillPage ⟨none, 0, none⟩) fun filled => ?_
  refine Triple.bindExcept brokenOff_inOrder (q := fun _ => allSettled projection options filled.documents)
    ?_ fun _ => ?_
  · have hend := scan_settlePending
      (fun ids (log : Log projection E) => Ended options log filled.documents ids) filled.pending []
      (fun _ _ h => h.inOrder) fun id ids log q hplain hsucceeded h => h.await hplain hsucceeded
    refine hend.imp (fun s h => ?_) fun r s h => ?_
    · show Ended options s.2 filled.documents (filled.pending.toList ++ [])
      rwa [List.append_nil]
    · cases r with
      | error e => exact h
      | ok _ => exact Ended.settled h
  refine Triple.bindExcept brokenOff_inOrder (scan_after (all_enqueue fun answer => ⟨rfl, rfl⟩)) fun create => ?_
  refine Triple.bindExcept brokenOff_inOrder
    (scan_after ((hquiet create).bind fun _ => Async.all_pure _)) fun _ => ?_
  refine Triple.bindExcept brokenOff_inOrder (scan_after (all_enqueue fun answer => ⟨rfl, rfl⟩)) fun swap => ?_
  refine Triple.bindExcept brokenOff_inOrder (scan_after (hquiet swap)) fun _ => ?_
  refine Triple.bindExcept brokenOff_inOrder (scan_after (all_enqueue fun answer => ⟨rfl, rfl⟩)) fun delete => ?_
  refine Triple.bindExcept brokenOff_inOrder (scan_after (hquiet delete)) fun _ => ?_
  exact Triple.pure (a := Except.ok _) fun s h => ⟨Settled.inOrder h, h⟩

theorem Reading.ascending {log : Log projection E} (h : Reading options log) :
    (rowsOf (pagesOf log)).Pairwise fun row row' => projection.key row < projection.key row' := by
  obtain ⟨before, after, hscan, -, hpages | ⟨contents, hpages⟩⟩ := h
  · rw [hpages]
    exact hscan.ascending
  · rw [hpages]
    exact hscan.ascending_page hscan.ascending contents

/-- A source that stays has room for so many pages. -/
theorem Reading.count_le {log : Log projection E} {rows : List Row} (h : Reading options log)
    (hrows : ∀ read ∈ pagesOf log, read.1.rows = rows) :
    countPages log ≤ rows.length / options.batchSize + 1 := by
  obtain ⟨before, after, hscan, hcount, hpages⟩ := h
  have hbefore : ∀ read ∈ before, read ∈ pagesOf log := by
    rcases hpages with hpages | ⟨contents, hpages⟩
    · rw [hpages]
      exact fun _ => id
    · rw [hpages]
      exact fun _ => List.mem_append_left _
  exact Nat.le_trans hcount (Nat.succ_le_succ (hscan.length_le_div options.batchSize_pos
    fun read hread => hrows read (hbefore read hread)))

/-- Whatever happens to the source and whatever the server answers, a rebuild never reports a stuck scan and
reads no key twice; once it requests the swap, and when it succeeds, the scan is complete; and its documents
are counted up to the greatest `usize`. From a source that stays it reads at most one page more than there are
full batches, so the loop ends. -/
theorem rebuild_once (projection : Projection K Row D) (options : RebuildOptions)
    {contents contents' : Contents projection.key} {t : List (Event K E Row D)}
    {o : Option (Except (SyncError E) Rebuilt)} {log : Log projection E}
    (ht : (rebuild projection options).run t o)
    (hr : (recorded (changing projection)).Runs (contents, []) t (contents', log)) :
    (∀ key, o ≠ some (.error (.stuckScan key))) ∧
    ((rowsOf (pagesOf log)).map projection.key).Nodup ∧
    (∀ before q, before ++ [q] <+: log → q.2.IsSwap projection → Complete before) ∧
    (∀ rebuilt, o = some (.ok rebuilt) → Complete log ∧ rebuilt.documents =
      min ((rowsOf (pagesOf log)).filterMap projection.project).length (2 ^ 64 - 1)) ∧
    ∀ rows, (∀ read ∈ pagesOf log, read.1.rows = rows) →
      countPages log ≤ rows.length / options.batchSize + 1 := by
  have hstart : between (E := E) projection options ⟨none, 0, none⟩ (contents, []) := Between.start
  obtain ⟨hin, hdone⟩ := scan_rebuild hstart ht hr
  have hinOrder : InOrder options log := hin
  refine ⟨fun key ho => ?_, ?_, hinOrder.complete, fun rebuilt ho => ?_, fun rows => hinOrder.reading.count_le⟩
  · exact (hdone _ ho).2 key rfl
  · exact List.pairwise_map.mpr (hinOrder.reading.ascending.imp ne_of_lt)
  · have hsettled : Settled options log rebuilt.documents := hdone _ ho
    exact ⟨hsettled.complete, hsettled.count⟩

/-! ### A source that stays -/

variable (projection) in
/-- The source while nothing changes it. -/
def still : World (Contents projection.key) (Event K E Row D) :=
  ⟨fun contents event contents' => event.Possible projection contents ∧ contents' = contents, fun _ _ => False⟩

variable {contents contents' : Contents projection.key}

theorem runs_still {t : List (Event K E Row D)} (h : (still projection).Runs contents t contents') :
    contents' = contents ∧
      (recorded (changing projection)).Runs (contents, []) t (contents', t.map fun event => (contents, event)) := by
  induction h with
  | nil => exact ⟨rfl, .nil⟩
  | move _ hm _ => exact hm.elim
  | step _ hs ih =>
    obtain ⟨rfl, hr⟩ := ih
    exact ⟨hs.2, hr.step ⟨hs, List.map_append⟩⟩

theorem contents_of_still {t : List (Event K E Row D)} {read : Read projection.key}
    (h : read ∈ pagesOf (t.map fun event => (contents, event))) : read.1 = contents := by
  obtain ⟨q, hq, hpage⟩ := List.mem_filterMap.mp h
  obtain ⟨event, -, rfl⟩ := List.mem_map.mp hq
  obtain ⟨rows, -, rfl⟩ := Option.map_eq_some_iff.mp hpage
  rfl

theorem still_enqueue (task : Task K D) (id : ℕ) : (still (E := E) projection).Reaches
    (tryMeili (enqueue .meili task) : Syncing (Event K E Row D) E ℕ).run contents (.ok id) contents :=
  Reaches.bind (a := Except.ok id) (Reaches.call ⟨trivial, rfl⟩) Reaches.pure

theorem still_settle (task : ℕ) :
    (still (E := E) projection).Reaches (settle options task) contents (.ok ()) contents :=
  Reaches.bind (a := Except.ok .succeeded) (Reaches.call ⟨trivial, rfl⟩) Reaches.pure

theorem still_trySettle (task : ℕ) : (still (E := E) projection).Reaches
    (tryMeili (settle options task) : Syncing (Event K E Row D) E Unit).run contents (.ok ()) contents :=
  Reaches.bind (still_settle task) Reaches.pure

theorem still_tolerate (task : ℕ) (code : ErrorCode) : (still (E := E) projection).Reaches
    (tryMeili (do return tolerate (← settle options task) code) : Syncing (Event K E Row D) E Unit).run
    contents (.ok ()) contents :=
  Reaches.bind (a := Except.ok ()) (Reaches.bind (still_settle task) Reaches.pure) Reaches.pure

theorem still_settlePending (pending : Option ℕ) : (still (E := E) projection).Reaches
    (settlePending options pending : Syncing (Event K E Row D) E Unit).run contents (.ok ()) contents := by
  cases pending with
  | none => exact Reaches.pure
  | some task => exact still_trySettle task

variable (options contents)

theorem still_writeBatch (copy : String) (state : Filling K) (batch : List D) :
    ∃ state' : Filling K, (still (E := E) projection).Reaches
      (writeBatch projection options copy state batch : Syncing (Event K E Row D) E (Filling K)).run
      contents (.ok state') contents :=
  ⟨_, Reaches.tryBind (still_enqueue _ 0) (Reaches.tryBind (still_settlePending _) Reaches.pure)⟩

theorem still_next (rows : List Row) (k : K) (state : Filling K) : ∃ r : Filling K ⊕ Filling K,
    (still (E := E) projection).Reaches
    (if rows.length < options.batchSize then pure (.inr state)
      else pure (.inl { state with after := some k }) : Syncing (Event K E Row D) E _).run
    contents (.ok r) contents ∧ ∀ next, r = .inl next → next.after = some k := by
  by_cases hshort : rows.length < options.batchSize
  · rw [if_pos hshort]
    exact ⟨.inr state, Reaches.pure, nofun⟩
  · rw [if_neg hshort]
    refine ⟨.inl _, Reaches.pure, fun next hnext => ?_⟩
    rw [← Sum.inl.inj hnext]

/-- A round of the loop: it stops, or fewer rows are left. -/
theorem still_fillPage (state : Filling K) : ∃ r, (still (E := E) projection).Reaches
    (fillPage projection options (copyOf projection) state).run contents (.ok r) contents ∧
      ∀ next, r = .inl next →
        (contents.rows.filter fun row => comesAfter (projection.key row) next.after).length <
          (contents.rows.filter fun row => comesAfter (projection.key row) state.after).length := by
  have hpage : (still (E := E) projection).Reaches (readPage state.after options.batchSize).run contents
      (.ok (contents.page state.after options.batchSize)) contents :=
    Reaches.bind (a := Except.ok _) (Reaches.call ⟨rfl, rfl⟩) Reaches.pure
  cases hlast : (contents.page state.after options.batchSize).getLast? with
  | none =>
    refine ⟨.inr state, Reaches.tryBind hpage ?_, nofun⟩
    simp only [hlast]
    exact Reaches.pure
  | some last =>
    have hstuck : state.after ≠ some (projection.key last) := by
      intro hstuck
      have hafter := Contents.comesAfter_of_page (List.mem_of_getLast? hlast)
      rw [hstuck, comesAfter_some] at hafter
      exact lt_irrefl _ hafter
    suffices h : ∃ r, (still (E := E) projection).Reaches
        (fillPage projection options (copyOf projection) state).run contents (.ok r) contents ∧
          ∀ next, r = .inl next → next.after = some (projection.key last) by
      obtain ⟨r, hround, hnext⟩ := h
      exact ⟨r, hround, fun next hr => by rw [hnext next hr]; exact Contents.length_after_lt hlast⟩
    by_cases hempty : ((contents.page state.after options.batchSize).filterMap projection.project).isEmpty
    · obtain ⟨r, hround, hnext⟩ := still_next (E := E) options contents
        (contents.page state.after options.batchSize) (projection.key last) state
      refine ⟨r, Reaches.tryBind hpage ?_, hnext⟩
      simp only [hlast, if_neg hstuck, if_pos hempty]
      exact Reaches.tryBind Reaches.pure hround
    · obtain ⟨state', hwrite⟩ := still_writeBatch (E := E) options contents (copyOf projection) state
        ((contents.page state.after options.batchSize).filterMap projection.project)
      obtain ⟨r, hround, hnext⟩ := still_next (E := E) options contents
        (contents.page state.after options.batchSize) (projection.key last) state'
      refine ⟨r, Reaches.tryBind hpage ?_, hnext⟩
      simp only [hlast, if_neg hstuck, if_neg hempty]
      exact Reaches.tryBind hwrite hround

theorem still_fill (state : Filling K) : ∃ filled, (still (E := E) projection).Reaches
    (Async.tryLoop (fillPage projection options (copyOf projection)) state).run contents (.ok filled) contents := by
  induction hn : (contents.rows.filter fun row => comesAfter (projection.key row) state.after).length
    using Nat.strongRecOn generalizing state with
  | ind n ih =>
    obtain ⟨r, hround, hless⟩ := still_fillPage (E := E) options contents state
    cases r with
    | inr filled => exact ⟨filled, Reaches.tryLoop hround⟩
    | inl state' =>
      obtain ⟨filled, hfilled⟩ := ih _ (hn ▸ hless state' rfl) state' rfl
      exact ⟨filled, Reaches.tryAgain hround hfilled⟩

/-- A rebuild of any source can succeed. -/
theorem exists_rebuild (projection : Projection K Row D) (options : RebuildOptions)
    (contents : Contents projection.key) : ∃ (t : List (Event K E Row D)) (rebuilt : Rebuilt),
    (rebuild projection options).run t (some (.ok rebuilt)) ∧
      (recorded (changing projection)).Runs (contents, []) t (contents, t.map fun event => (contents, event)) := by
  obtain ⟨filled, hfilled⟩ := still_fill (E := E) options contents ⟨none, 0, none⟩
  have hreaches : (still (E := E) projection).Reaches (rebuild projection options).run contents
      (.ok ⟨0, filled.documents⟩) contents := by
    refine Reaches.tryBind (a := 0) (Reaches.bind (Reaches.call (a := 0) ⟨trivial, rfl⟩) Reaches.pure) ?_
    refine Reaches.tryBind (still_enqueue _ 0) (Reaches.tryBind (still_tolerate _ _) ?_)
    refine Reaches.tryBind (still_enqueue _ 0) (Reaches.tryBind (still_trySettle _) ?_)
    refine Reaches.tryBind (still_enqueue _ 0) (Reaches.tryBind (still_trySettle _) ?_)
    refine Reaches.tryBind hfilled (Reaches.tryBind (still_settlePending _) ?_)
    refine Reaches.tryBind (still_enqueue _ 0) (Reaches.tryBind (still_tolerate _ _) ?_)
    refine Reaches.tryBind (still_enqueue _ 0) (Reaches.tryBind (still_trySettle _) ?_)
    exact Reaches.tryBind (still_enqueue _ 0) (Reaches.tryBind (still_trySettle _) Reaches.pure)
  obtain ⟨t, ht, hr⟩ := hreaches
  exact ⟨t, _, ht, (runs_still hr).2⟩

/-- The posts `0` to `n - 1`. -/
def firstPosts (n : ℕ) : Contents posts.key := ⟨List.range n, List.pairwise_lt_range⟩

def pairOptions : RebuildOptions := ⟨2, by decide, 600000, 200⟩

/-- Three posts in pages of two. -/
theorem rebuild_once_posts : ∃ (t : List (Event ℕ Unit ℕ ℕ)) (rebuilt : Rebuilt) (log : Log posts Unit),
    (rebuild posts pairOptions).run t (some (.ok rebuilt)) ∧
    (recorded (changing posts)).Runs (firstPosts 3, []) t (firstPosts 3, log) ∧
    Complete log ∧ rebuilt.documents = min ((rowsOf (pagesOf log)).filterMap posts.project).length (2 ^ 64 - 1) ∧
    countPages log ≤ 2 := by
  obtain ⟨t, rebuilt, ht, hr⟩ := exists_rebuild (E := Unit) posts pairOptions (firstPosts 3)
  obtain ⟨-, -, -, hdone, hcount⟩ := rebuild_once posts pairOptions ht hr
  obtain ⟨hcomplete, hdocuments⟩ := hdone rebuilt rfl
  refine ⟨t, rebuilt, _, ht, hr, hcomplete, hdocuments, hcount (List.range 3) fun read hread => ?_⟩
  rw [contents_of_still hread]
  rfl

/-- A rebuild can read any number of posts. -/
theorem exists_rebuild_posts (n : ℕ) : ∃ (t : List (Event ℕ Unit ℕ ℕ)) (rebuilt : Rebuilt) (log : Log posts Unit),
    (rebuild posts postsOptions).run t (some (.ok rebuilt)) ∧
    (recorded (changing posts)).Runs (firstPosts n, []) t (firstPosts n, log) ∧ rebuilt.documents ≤ 2 ^ 64 - 1 ∧
    n ≤ ((rowsOf (pagesOf log)).filterMap posts.project).length := by
  obtain ⟨t, rebuilt, ht, hr⟩ := exists_rebuild (E := Unit) posts postsOptions (firstPosts n)
  have hstart : between (E := Unit) posts postsOptions ⟨none, 0, none⟩ (firstPosts n, []) := Between.start
  have hsettled := (scan_rebuild hstart ht hr).2 _ rfl
  refine ⟨t, rebuilt, _, ht, hr, ?_, ?_⟩
  · rw [hsettled.count]
    exact min_le_right _ _
  · have hread : List.range n ⊆ rowsOf (pagesOf (t.map fun event => (firstPosts n, event))) := by
      intro row hrow
      have hkept := hsettled.complete.kept row fun read hread => by
        rw [contents_of_still hread]
        exact hrow
      exact List.mem_of_mem_filter (hkept ▸ List.mem_singleton_self row)
    have hle := (List.nodup_range.subperm hread).length_le
    have hall : (rowsOf (pagesOf (t.map fun event => (firstPosts n, event)))).filterMap posts.project =
        rowsOf (pagesOf (t.map fun event => (firstPosts n, event))) := List.filterMap_some
    rw [List.length_range] at hle
    rwa [hall]

/-- From `2 ^ 64` rows on the documents are more than a `usize` counts. -/
theorem documents_saturate : ∃ (t : List (Event ℕ Unit ℕ ℕ)) (rebuilt : Rebuilt) (log : Log posts Unit),
    (rebuild posts postsOptions).run t (some (.ok rebuilt)) ∧
    (recorded (changing posts)).Runs (firstPosts (2 ^ 64), []) t (firstPosts (2 ^ 64), log) ∧
    rebuilt.documents ≠ ((rowsOf (pagesOf log)).filterMap posts.project).length := by
  obtain ⟨t, rebuilt, log, ht, hr, hle, hrows⟩ := exists_rebuild_posts (2 ^ 64)
  exact ⟨t, rebuilt, log, ht, hr, by omega⟩

end Wakuwaku.Entity.Meilisearch.Sync
