import Wakuwaku.Entity.Sqlx.Transaction.Flow
import Mathlib.Data.List.Basic

/-! # How a driven transaction ends

The history of an open transaction holds queries and steps only, and no query after an error that
aborted the transaction (`Opened`). `Tx::end` on a terminal state adds the end and one `COMMIT` or
`ROLLBACK` (`Closing`). Every run of the driver under a hook is therefore a history of an open
transaction, closed by at most one end, its closing request and the hook (`Run`), and what the
caller and the hook get is what `close` makes of them. -/

namespace Wakuwaku.Entity.Sqlx.Transaction

open Wakuwaku.Session

variable {F : TxFlow}

/-! ### Kinds of events -/

/-- A query whose error ended the transaction on the server. -/
def TxEvent.aborts : TxEvent F → Bool
  | .query _ result => Transaction.aborts F result
  | _ => false

def TxEvent.isQuery : TxEvent F → Bool
  | .query _ _ => true
  | _ => false

/-- The result of a `COMMIT`. -/
def TxEvent.commit? : TxEvent F → Option (Except SqlxError Unit)
  | .commit result => some result
  | _ => none

/-- The end of an `ended` event. -/
def TxEvent.end? : TxEvent F → Option (TxEnd F.Commit F.Abort F.Report)
  | .ended last => some last
  | _ => none

/-- The final state the hook gets. -/
def TxEvent.hook? : TxEvent F → Option (TxFinalState F.Report)
  | .hook state => some state
  | _ => none

/-- An event of a transaction that is still open. -/
def TxEvent.isOpen : TxEvent F → Bool
  | .acquire _ | .begin _ _ | .step _ | .query _ _ => true
  | _ => false

/-- `finished` gives back every end, and every other state unchanged. -/
structure TxFlow.Lawful (F : TxFlow) : Prop where
  ofEnd : ∀ last, F.finished (F.ofEnd last) = .inr last
  left : ∀ s s', F.finished s = .inl s' → s' = s

/-- What became of a transaction, by the result of `COMMIT` if it was sent. -/
def outcome {R : Type} : Option (Except SqlxError Unit) → R → TxFinalState R
  | some (.ok ()), report => .committed report
  | some (.error error), report =>
    if error.isDatabase then .rolledBack report else .commitUnknown report
  | none, report => .rolledBack report

theorem report_outcome {R : Type} (commit : Option (Except SqlxError Unit)) (report : R) :
    (outcome commit report).report = report := by
  rcases commit with _ | error | _
  · rfl
  · cases error <;> rfl
  · rfl

theorem close_report_of_inl {state state' : F.State} {aborted : Bool}
    {commit : Option (Except SqlxError Unit)} (h : F.finished state = .inl state') :
    (close state aborted commit).report = none := by
  simp only [close, h]

/-- Whatever end `finished` gives the second time, the hook gets what became of the transaction. -/
theorem close_report_of_inr {state : F.State} {aborted : Bool}
    {commit : Option (Except SqlxError Unit)} {last : TxEnd F.Commit F.Abort F.Report}
    (h : F.finished state = .inr last) :
    (close state aborted commit).report = some (outcome commit last.report) := by
  unfold close
  rw [h]
  rcases last with ⟨output, report⟩ | ⟨output, report⟩ <;> rcases commit with _ | error | _
  · cases aborted <;> rfl
  · cases error <;> rfl
  · rfl
  · rfl
  · cases error <;> rfl
  · rfl

namespace Ends

/-! ### Open and closed transactions -/

/-- The history of an open transaction. -/
structure Opened (t : List (TxEvent F)) (aborted : Bool) : Prop where
  isOpen : ∀ e ∈ t, e.isOpen = true
  aborted : aborted = t.any TxEvent.aborts
  silent : t.Pairwise fun x y => x.aborts = true → y.isQuery = false
  stepped : ∀ s, .step s ∈ t → ∃ s', F.finished s' = .inl s

/-- The request that closes a transaction with an end, and the result of `COMMIT` if it is one. -/
inductive Closing : TxEnd F.Commit F.Abort F.Report → Bool → TxEvent F →
    Option (Except SqlxError Unit) → Prop where
  | commit (output report result) :
    Closing (.commit output report) false (.commit result) (some result)
  | aborted (output report result) : Closing (.commit output report) true (.rollback result) none
  | rollback (output report aborted result) :
    Closing (.rollback output report) aborted (.rollback result) none

/-- The history of a transaction that `Tx::end` closed. -/
def Closed (s : TxState F) (t : List (TxEvent F)) : Prop :=
  ∃ before last closing, t = before ++ [.ended last, closing] ∧ Opened before s.aborted ∧
    Closing last s.aborted closing s.commit ∧ s.state = F.ofEnd last ∧ s.isOpen = false

/-- What a step leaves: the transaction open, or closed. -/
def Stepped (s : TxState F) (t : List (TxEvent F)) : Prop :=
  s.isOpen = true ∧ Opened t s.aborted ∨ Closed s t

/-- What `Tx::end` leaves: the transaction open with a state to step, or closed. -/
def EndLeft (s : TxState F) (t : List (TxEvent F)) : Prop :=
  s.isOpen = true ∧ Opened t s.aborted ∧ (∃ s', F.finished s' = .inl s.state) ∨ Closed s t

theorem EndLeft.stepped {s : TxState F} {t : List (TxEvent F)} (h : EndLeft s t) : Stepped s t := by
  rcases h with ⟨ho, h, -⟩ | h
  · exact Or.inl ⟨ho, h⟩
  · exact Or.inr h

/-- One more event keeps a transaction open, if it is no query after an abort. -/
theorem Opened.snoc {t : List (TxEvent F)} {a : Bool} (h : Opened t a) (e : TxEvent F)
    (ho : e.isOpen = true) (hq : a = true → e.isQuery = false)
    (hs : ∀ s, e = .step s → ∃ s', F.finished s' = .inl s) : Opened (t ++ [e]) (a || e.aborts) where
  isOpen := by
    intro x hx
    rcases List.mem_append.mp hx with hx | hx
    · exact h.isOpen x hx
    · rw [List.mem_singleton.mp hx]; exact ho
  aborted := by simp [h.aborted]
  silent := by
    refine List.pairwise_append.mpr ⟨h.silent, List.pairwise_singleton _ _, fun x hx y hy hxa => ?_⟩
    rw [List.mem_singleton.mp hy]
    refine hq ?_
    rw [h.aborted, List.any_eq_true]
    exact ⟨x, hx, hxa⟩
  stepped := by
    intro s hm
    rcases List.mem_append.mp hm with hm | hm
    · exact h.stepped s hm
    · exact hs s (List.mem_singleton.mp hm).symm

theorem opened_nil : Opened ([] : List (TxEvent F)) false :=
  ⟨by simp, rfl, List.Pairwise.nil, by simp⟩

/-! ### What each function does to the history -/

theorem spec_run (server : Server F) (tx : Tx) (query : F.Query) :
    Spec (fun t => Opened t tx.aborted) (tx.run server query) fun r t => Opened t r.1.aborted := by
  unfold Tx.run
  by_cases ha : tx.aborted = true
  · rw [if_pos ha]
    exact spec_pure fun t ht => ht
  · rw [if_neg ha]
    refine Spec.bind (q := fun result t => Opened t (aborts F result)) ?_ fun result => ?_
    · refine spec_call fun t result ht => ?_
      have h := ht.snoc (.query query result) rfl (fun h => absurd h ha) (by simp)
      simpa [ha, TxEvent.aborts] using h
    · refine spec_pure fun t ht => ?_
      cases hr : aborts F result <;> simpa [hr, ha] using ht

theorem spec_close (server : Server F) (tx : Tx) (last : TxEnd F.Commit F.Abort F.Report)
    {before : List (TxEvent F)} : Spec (fun t => t = before) (tx.close server last) fun commit t =>
      ∃ closing, t = before ++ [closing] ∧ Closing last tx.aborted closing commit := by
  rintro t rfl
  unfold Tx.close
  cases last with
  | rollback output report => exact ⟨_, rfl, Closing.rollback _ _ _ _⟩
  | commit output report =>
    cases ha : tx.aborted with
    | true => exact ⟨_, rfl, Closing.aborted _ _ _⟩
    | false => exact ⟨_, rfl, Closing.commit _ _ _⟩

theorem spec_endState (server : Server F) (tx : Tx) (state : F.State) :
    Spec (fun t => Opened t tx.aborted) (tx.endState server state) EndLeft := by
  unfold Tx.endState
  cases hf : F.finished state with
  | inl s => exact spec_pure fun t ht => Or.inl ⟨rfl, ht, state, hf⟩
  | inr last =>
    intro t ht
    obtain ⟨closing, he, hc⟩ := spec_close server tx last (t ++ [.ended last]) rfl
    refine Or.inr ⟨t, last, closing, ?_, ht, hc, rfl, rfl⟩
    exact he.trans (List.append_assoc _ _ _)

theorem spec_exec (server : Server F) : ∀ (body : StepProg F.toQueries F.State) (tx : Tx),
    Spec (fun t => Opened t tx.aborted) (body.exec server tx) Stepped
  | .run query next, tx =>
    Spec.bind (spec_run server tx query) fun r => spec_exec server (next r.2) r.1
  | .isAborted next, tx => spec_exec server (next tx.aborted) tx
  | .withState _, _ => spec_pure fun _ ht => Or.inl ⟨rfl, ht⟩
  | .endState state, tx => (spec_endState server tx state).imp (fun _ h => h) fun _ _ h => h.stepped

theorem spec_step (server : Server F) (tx : Tx) (state : F.State)
    (hs : ∃ s', F.finished s' = .inl state) :
    Spec (fun t => Opened t tx.aborted) (step server tx state) Stepped := by
  refine Spec.bind (q := fun _ t => Opened t tx.aborted) (spec_emit fun t ht => ?_) fun _ =>
    spec_exec server (F.step state) tx
  have h := ht.snoc (.step state) rfl (fun _ => rfl) fun s he => by cases he; exact hs
  simpa [TxEvent.aborts] using h

/-! ### Runs of the driver -/

/-- What `drive` leaves: the transaction still open, not begun, or closed with what `close` makes of
its end. -/
def Driven (result : Option (Done F)) (t : List (TxEvent F)) : Prop :=
  match result with
  | none => ∃ a, Opened t a
  | some done => (∃ error a, done = .notBegun error ∧ Opened t a) ∨
      ∃ s, Closed s t ∧ done = close s.state s.aborted s.commit

theorem intoOpen_inr {s : TxState F} {done : Done F} {t : List (TxEvent F)} (h : Stepped s t)
    (hd : s.intoOpen = .inr done) : Driven (some done) t := by
  unfold TxState.intoOpen at hd
  rcases h with ⟨ho, -⟩ | h
  · rw [if_pos ho] at hd
    cases hd
  · obtain ⟨-, -, -, -, -, -, -, ho⟩ := id h
    rw [if_neg (by simp [ho])] at hd
    cases hd
    exact Or.inr ⟨s, h, rfl⟩

theorem intoOpen_inl {s : TxState F} {tx : Tx} {state : F.State} {t : List (TxEvent F)}
    (h : Stepped s t) (hd : s.intoOpen = .inl (tx, state)) :
    Opened t tx.aborted ∧ state = s.state ∧ s.isOpen = true := by
  unfold TxState.intoOpen at hd
  rcases h with ⟨ho, h⟩ | ⟨-, -, -, -, -, -, -, ho⟩
  · rw [if_pos ho] at hd
    cases hd
    exact ⟨h, rfl, ho⟩
  · rw [if_neg (by simp [ho])] at hd
    cases hd

theorem spec_driveLoop (server : Server F) : ∀ (fuel : ℕ) (tx : Tx) (state : F.State),
    Spec (fun t => Opened t tx.aborted) (driveLoop server fuel tx state) Driven
  | 0, tx, _ => spec_pure fun _ ht => ⟨tx.aborted, ht⟩
  | fuel + 1, tx, state => by
    unfold driveLoop
    refine Spec.bind (spec_endState server tx state) fun s => ?_
    cases hd : s.intoOpen with
    | inr done => exact spec_pure fun t ht => intoOpen_inr ht.stepped hd
    | inl next =>
      obtain ⟨tx, state⟩ := next
      intro t ht
      obtain ⟨ho, rfl, hopen⟩ := intoOpen_inl ht.stepped hd
      have hs : ∃ s', F.finished s' = .inl s.state := by
        rcases ht with ⟨-, -, hs⟩ | ⟨-, -, -, -, -, -, -, hc⟩
        · exact hs
        · rw [hopen] at hc; cases hc
      refine Spec.bind (spec_step server tx s.state hs) (fun s => ?_) t ho
      cases hd : s.intoOpen with
      | inr done => exact spec_pure fun t ht => intoOpen_inr ht hd
      | inl next =>
        intro t ht
        exact spec_driveLoop server fuel _ _ t (intoOpen_inl ht hd).1

theorem spec_begin (server : Server F) : ∀ statements : List String,
    Spec (fun t => Opened t false) (begin server statements) fun _ t => Opened t false
  | [] => spec_pure fun _ ht => ht
  | statement :: rest => by
    refine Spec.bind (q := fun _ t => Opened t false) (spec_call fun t r ht => ?_) fun r => ?_
    · simpa [TxEvent.aborts] using ht.snoc (.begin statement r) rfl (by simp) (by simp)
    · cases r with
      | error error => exact spec_pure fun _ ht => ht
      | ok => exact spec_begin server rest

theorem spec_drive (server : Server F) (fuel : ℕ) (flow : F.State) :
    Spec (fun t => Opened t false) (drive server fuel flow) Driven := by
  refine Spec.bind (q := fun _ t => Opened t false) (spec_call fun t r ht => ?_) fun r => ?_
  · simpa [TxEvent.aborts] using ht.snoc (.acquire r) rfl (by simp) (by simp)
  cases r with
  | error error => exact spec_pure fun _ ht => Or.inl ⟨error, false, rfl, ht⟩
  | ok =>
    refine Spec.bind (spec_begin server _) fun r => ?_
    cases r with
    | error error => exact spec_pure fun _ ht => Or.inl ⟨error, false, rfl, ht⟩
    | ok => exact spec_driveLoop server fuel ⟨false⟩ flow

/-- What the hook adds: the final state it gets, and perhaps a call of `onError`. -/
inductive Hooked : Option (TxFinalState F.Report) → List (TxEvent F) → Prop where
  | none : Hooked none []
  | done (state) : Hooked (some state) [.hook state]
  | failed (state) : Hooked (some state) [.hook state, .onError]

theorem spec_runHook (after : AfterTransaction F) (report : Option (TxFinalState F.Report))
    {before : List (TxEvent F)} : Spec (fun t => t = before) (after.runHook report) fun _ t =>
      ∃ hooks, t = before ++ hooks ∧ Hooked report hooks := by
  cases report with
  | none => exact spec_pure fun t ht => ⟨[], by simp [ht], .none⟩
  | some state =>
    refine Spec.bind (q := fun _ t => t = before ++ [.hook state])
      (spec_call fun t _ ht => by rw [ht]) fun fails => ?_
    cases fails with
    | false => exact spec_pure fun t ht => ⟨_, ht, .done state⟩
    | true => exact spec_emit fun t ht => ⟨_, by rw [ht, List.append_assoc]; rfl, .failed state⟩

/-- The runs of `AfterTransaction::process`: still running, not begun, or an open transaction with
its end, the closing request and the hook. -/
inductive Run : Option (Except TxError (TxOutput F.Commit F.Abort)) → List (TxEvent F) → Prop where
  | running {t a} (h : Opened t a) : Run none t
  | notBegun {t a} (error : SqlxError) (h : Opened t a) : Run (some (.error (.begin error))) t
  | ended {before last closing a commit hooks} (h : Opened before a)
    (hc : Closing last a closing commit) (hh : Hooked (close (F.ofEnd last) a commit).report hooks) :
    Run (some (close (F.ofEnd last) a commit).output) (before ++ .ended last :: closing :: hooks)

theorem run_process (after : AfterTransaction F) (fuel : ℕ) (flow : F.State) :
    Run ((after.process fuel flow).run []).1 ((after.process fuel flow).run []).2 := by
  refine Spec.bind (r := Run) (spec_drive after.inner fuel flow) (fun result => ?_) [] opened_nil
  cases result with
  | none => exact spec_pure fun t ⟨a, ht⟩ => .running ht
  | some done =>
    rintro t (⟨error, a, rfl, ht⟩ | ⟨s, ⟨before, last, closing, rfl, hb, hc, hs, -⟩, rfl⟩)
    · exact .notBegun error ht
    obtain ⟨hooks, he, hh⟩ := spec_runHook after (close s.state s.aborted s.commit).report _ rfl
    rw [hs] at hh
    have h := Run.ended hb hc hh
    simp only [← hs] at h
    refine Eq.subst (motive := Run _) (he.trans (List.append_assoc _ _ _)).symm h

/-! ### What a run shows -/

section Shape

variable {t before hooks : List (TxEvent F)} {a : Bool} {closing : TxEvent F}
  {last : TxEnd F.Commit F.Abort F.Report} {commit : Option (Except SqlxError Unit)}
  {report : Option (TxFinalState F.Report)}
  {output : Option (Except TxError (TxOutput F.Commit F.Abort))}

theorem Opened.filterMap {γ : Type} (h : Opened t a) {f : TxEvent F → Option γ}
    (hf : ∀ e : TxEvent F, e.isOpen = true → f e = none) : t.filterMap f = [] :=
  List.filterMap_eq_nil_iff.mpr fun e he => hf e (h.isOpen e he)

theorem commit?_of_isOpen {e : TxEvent F} (h : e.isOpen = true) : e.commit? = none := by
  cases e <;> first | rfl | cases h

theorem end?_of_isOpen {e : TxEvent F} (h : e.isOpen = true) : e.end? = none := by
  cases e <;> first | rfl | cases h

theorem hook?_of_isOpen {e : TxEvent F} (h : e.isOpen = true) : e.hook? = none := by
  cases e <;> first | rfl | cases h

theorem isOpen_of_ended (hc : Closing last a closing commit) (hh : Hooked report hooks) :
    ∀ e ∈ .ended last :: closing :: hooks, e.isOpen = false := by
  cases hc <;> cases hh <;> simp [TxEvent.isOpen]

theorem isQuery_of_isOpen {e : TxEvent F} (h : e.isOpen = false) : e.isQuery = false := by
  cases e <;> first | rfl | cases h

theorem aborts_of_isOpen {e : TxEvent F} (h : e.isOpen = false) : e.aborts = false := by
  cases e <;> first | rfl | cases h

/-- A run that ended sent what closes its end, and handed over what `close` reports. -/
theorem filterMap_ended (h : Opened before a) (hc : Closing last a closing commit)
    (hh : Hooked report hooks) :
    (before ++ .ended last :: closing :: hooks).filterMap TxEvent.commit? = commit.toList ∧
      (before ++ .ended last :: closing :: hooks).filterMap TxEvent.end? = [last] ∧
        (before ++ .ended last :: closing :: hooks).filterMap TxEvent.hook? = report.toList := by
  simp only [List.filterMap_append, h.filterMap fun _ => commit?_of_isOpen,
    h.filterMap fun _ => end?_of_isOpen, h.filterMap fun _ => hook?_of_isOpen]
  cases hc <;> cases hh <;> exact ⟨rfl, rfl, rfl⟩

theorem mem_filterMap_commit? {r : Except SqlxError Unit} :
    r ∈ t.filterMap TxEvent.commit? ↔ .commit r ∈ t := by
  rw [List.mem_filterMap]
  constructor
  · rintro ⟨e, he, hr⟩
    cases e with
    | commit r' => cases hr; exact he
    | _ => cases hr
  · exact fun h => ⟨_, h, rfl⟩

theorem mem_filterMap_hook? {state : TxFinalState F.Report} :
    state ∈ t.filterMap TxEvent.hook? ↔ .hook state ∈ t := by
  rw [List.mem_filterMap]
  constructor
  · rintro ⟨e, he, hr⟩
    cases e with
    | hook state' => cases hr; exact he
    | _ => cases hr
  · exact fun h => ⟨_, h, rfl⟩

/-- Only the closing request of a run that ended can be a `COMMIT`. -/
theorem commit_position (h : Opened before a) (hh : Hooked report hooks) {r : Except SqlxError Unit}
    {start rest : List (TxEvent F)}
    (ht : before ++ .ended last :: closing :: hooks = start ++ .commit r :: rest) :
    start = before ++ [.ended last] ∧ closing = .commit r := by
  have hb : .commit r ∉ before := fun hm => by simpa [TxEvent.isOpen] using h.isOpen _ hm
  have hk : .commit r ∉ hooks := by cases hh <;> simp
  rcases List.append_eq_append_iff.mp ht with ⟨mid, rfl, he⟩ | ⟨mid, rfl, he⟩
  · rcases mid with _ | ⟨x, _ | ⟨y, mid⟩⟩
    · cases he
    · cases he
      exact ⟨rfl, rfl⟩
    · simp only [List.cons_append, List.cons.injEq] at he
      exact absurd (by simp [he.2.2]) hk
  · rcases mid with _ | ⟨x, mid⟩
    · cases he
    · cases he
      exact absurd (by simp) hb

/-- **`COMMIT` is sent at most once.** -/
theorem length_commit (h : Run output t) : (t.filterMap TxEvent.commit?).length ≤ 1 := by
  cases h with
  | running h => simp [h.filterMap fun _ => commit?_of_isOpen]
  | notBegun error h => simp [h.filterMap fun _ => commit?_of_isOpen]
  | @ended _ _ _ _ commit _ h hc hh =>
    rw [(filterMap_ended h hc hh).1]
    cases commit <;> simp

/-- **`COMMIT` follows a commit end at once, in a transaction that no query aborted.** -/
theorem commit_after_end (h : Run output t) {r : Except SqlxError Unit} {rest : List (TxEvent F)}
    (ht : t = before ++ .commit r :: rest) :
    (∃ output report, before.getLast? = some (.ended (.commit output report))) ∧
      before.any TxEvent.aborts = false := by
  have hmem : .commit r ∈ t := by simp [ht]
  have hopen : ∀ {a}, Opened t a → False := fun h => by
    simpa [TxEvent.isOpen] using h.isOpen _ hmem
  cases h with
  | running h => exact (hopen h).elim
  | notBegun error h => exact (hopen h).elim
  | @ended before' last closing a commit hooks h hc hh =>
    obtain ⟨rfl, hlast⟩ : before = before' ++ [.ended last] ∧ closing = .commit r :=
      commit_position h hh ht
    subst hlast
    cases hc with
    | commit output report =>
      refine ⟨⟨output, report, by simp⟩, ?_⟩
      simp [← h.aborted, TxEvent.aborts]

/-- **After an aborting error no further query is sent.** -/
theorem silent_after_abort (h : Run output t) :
    t.Pairwise fun x y => x.aborts = true → y.isQuery = false := by
  cases h with
  | running h => exact h.silent
  | notBegun error h => exact h.silent
  | @ended before last closing _ _ hooks h hc hh =>
    have hend := isOpen_of_ended hc hh
    refine List.pairwise_append.mpr ⟨h.silent, ?_, ?_⟩
    · refine List.pairwise_of_forall_mem_list fun x hx y _ hab => ?_
      rw [aborts_of_isOpen (hend x hx)] at hab
      cases hab
    · exact fun x _ y hy _ => isQuery_of_isOpen (hend y hy)

/-- **The final state the hook gets is what became of the transaction.** -/
theorem hook_reports (h : Run output t) {state : TxFinalState F.Report} (hs : .hook state ∈ t) :
    ((∃ report, state = .committed report) ↔ .commit (.ok ()) ∈ t) ∧
      ((∃ report, state = .commitUnknown report) ↔
        ∃ error, .commit (.error error) ∈ t ∧ error.isDatabase = false) ∧
      ((∃ report, state = .rolledBack report) ↔ .commit (.ok ()) ∉ t ∧
        ¬ ∃ error, .commit (.error error) ∈ t ∧ error.isDatabase = false) := by
  have hopen : ∀ {a}, Opened t a → False := fun h => by simpa [TxEvent.isOpen] using h.isOpen _ hs
  cases h with
  | running h => exact (hopen h).elim
  | notBegun error h => exact (hopen h).elim
  | @ended before last closing a commit hooks h hc hh =>
    obtain ⟨hcommit, -, hhook⟩ := filterMap_ended h hc hh
    rw [← mem_filterMap_hook?, hhook, Option.mem_toList] at hs
    simp only [← mem_filterMap_commit?, hcommit, Option.mem_toList]
    cases hf : F.finished (F.ofEnd last) with
    | inl s => rw [close_report_of_inl hf] at hs; cases hs
    | inr last' =>
      rw [close_report_of_inr hf] at hs
      cases hs
      rcases commit with _ | error | _
      · simp [outcome]
      · cases he : error.isDatabase <;> simp [outcome, he]
      · simp [outcome]

/-- **A lawful flow is never stepped in a terminal state.** -/
theorem step_not_terminal (hF : F.Lawful) (h : Run output t) {s : F.State} (hs : .step s ∈ t) :
    F.finished s = .inl s := by
  have hopen : ∀ {t : List (TxEvent F)} {a}, Opened t a → .step s ∈ t → F.finished s = .inl s := by
    intro t a h hs
    obtain ⟨s', hs'⟩ := h.stepped s hs
    have he := hF.left s' s hs'
    rwa [← he] at hs'
  cases h with
  | running h => exact hopen h hs
  | notBegun error h => exact hopen h hs
  | ended h hc hh =>
    rcases List.mem_append.mp hs with hs | hs
    · exact hopen h hs
    · simpa [TxEvent.isOpen] using isOpen_of_ended hc hh _ hs

/-- What `close` makes of a lawful flow's end. -/
theorem close_lawful (hF : F.Lawful) (hc : Closing last a closing commit) :
    (close (F.ofEnd last) a commit).output ≠ .error .endMismatch ∧
      (∀ o, (close (F.ofEnd last) a commit).output = .ok (.committed o) →
        ∃ report, last = .commit o report) ∧
      ∀ o, (close (F.ofEnd last) a commit).output = .ok (.rolledBack o) →
        ∃ report, last = .rollback o report := by
  unfold close
  rw [hF.ofEnd]
  cases hc with
  | commit output report result =>
    rcases result with error | _
    · cases error <;> simp
    · simp
  | aborted output report result => simp
  | rollback output report aborted result => simp

/-- **A run of a lawful flow that ended hands over one report, that of its end.** -/
theorem lawful_end (hF : F.Lawful) {result : Except TxError (TxOutput F.Commit F.Abort)}
    (h : Run (some result) t) (hb : ∀ error, result ≠ .error (.begin error)) :
    ∃ last state, t.filterMap TxEvent.end? = [last] ∧ t.filterMap TxEvent.hook? = [state] ∧
      state.report = last.report ∧ result ≠ .error .endMismatch ∧
      (∀ o, result = .ok (.committed o) → ∃ report, last = .commit o report) ∧
      ∀ o, result = .ok (.rolledBack o) → ∃ report, last = .rollback o report := by
  cases h with
  | notBegun error h => exact absurd rfl (hb error)
  | @ended before last closing a commit hooks h hc hh =>
    obtain ⟨-, hend, hhook⟩ := filterMap_ended h hc hh
    rw [close_report_of_inr (hF.ofEnd last)] at hhook
    exact ⟨last, _, hend, hhook, report_outcome _ _, close_lawful hF hc⟩

end Shape

/-- **Transactions end as reported.** In every run of every flow, `COMMIT` is sent at most once,
right after a commit end and only if no query aborted the transaction; after an aborting error no
query is sent; and a final state the hook gets is what became of the transaction. A lawful flow is
moreover never stepped in a terminal state, never ends in `EndMismatch`, gives back the output of
its own end, and every run of it that began and ended hands the report of that end to the hook,
once. -/
theorem ends_as_reported (F : TxFlow) (after : AfterTransaction F) (fuel : ℕ) (flow : F.State) :
    let output := ((after.process fuel flow).run []).1
    let t := ((after.process fuel flow).run []).2
    (t.filterMap TxEvent.commit?).length ≤ 1 ∧
      (∀ before r rest, t = before ++ .commit r :: rest →
        (∃ output report, before.getLast? = some (.ended (.commit output report))) ∧
          before.any TxEvent.aborts = false) ∧
      (t.Pairwise fun x y => x.aborts = true → y.isQuery = false) ∧
      (∀ state, .hook state ∈ t →
        ((∃ report, state = .committed report) ↔ .commit (.ok ()) ∈ t) ∧
        ((∃ report, state = .commitUnknown report) ↔
          ∃ error, .commit (.error error) ∈ t ∧ error.isDatabase = false) ∧
        ((∃ report, state = .rolledBack report) ↔ .commit (.ok ()) ∉ t ∧
          ¬ ∃ error, .commit (.error error) ∈ t ∧ error.isDatabase = false)) ∧
      (F.Lawful →
        (∀ s, .step s ∈ t → F.finished s = .inl s) ∧
        ∀ result, output = some result → (∀ error, result ≠ .error (.begin error)) →
          ∃ last state, t.filterMap TxEvent.end? = [last] ∧ t.filterMap TxEvent.hook? = [state] ∧
            state.report = last.report ∧ result ≠ .error .endMismatch ∧
            (∀ o, result = .ok (.committed o) → ∃ report, last = .commit o report) ∧
            ∀ o, result = .ok (.rolledBack o) → ∃ report, last = .rollback o report) := by
  intro output t
  have h : Run output t := run_process after fuel flow
  refine ⟨length_commit h, fun before r rest ht => commit_after_end h ht, silent_after_abort h,
    fun state hs => hook_reports h hs, fun hF => ⟨fun s hs => step_not_terminal hF h hs, ?_⟩⟩
  intro result hr hb
  exact lawful_end hF (hr ▸ h) hb

/-! ### A flow that runs one query and commits on success -/

/-- Adds to an account; gives back the rows affected. -/
def creditQueries : Queries where
  Query := Unit
  Output _ := ℕ
  Error _ := SqlxError
  asSqlxError := some
  fromSqlx := id

/-- The start of the bonus flow, or its end. -/
def bonus : TxFlow where
  toQueries := creditQueries
  State := Option (TxEnd ℕ String String)
  Entities := String
  capability := [.write "account"]
  database := postgres
  Commit := ℕ
  Abort := String
  Report := String
  isolation := none
  ofEnd := some
  step _ := .run () fun
    | .ok rows => .withState (some (.commit rows "credited"))
    | .error _ => .withState (some (.rollback "failed" "nothing"))
  finished
    | some last => .inr last
    | none => .inl none

theorem bonus_lawful : bonus.Lawful where
  ofEnd _ := rfl
  left s s' h := by
    cases s with
    | none => cases h; rfl
    | some last => cases h

/-- A hooked database whose `COMMIT` gets lost. -/
def lossy : AfterTransaction bonus where
  inner := ⟨fun _ => .ok (), fun _ _ => .ok (), fun _ _ => .ok (1 : ℕ), fun _ => .error (.io "reset"),
    fun _ => .ok ()⟩
  hookFails _ _ := false

theorem ends_as_reported_lossy : ∃ last state,
    ((lossy.process 2 none).run []).2.filterMap TxEvent.end? = [last] ∧
      ((lossy.process 2 none).run []).2.filterMap TxEvent.hook? = [state] ∧
        state.report = last.report := by
  obtain ⟨-, -, -, -, h⟩ := ends_as_reported bonus lossy 2 none
  obtain ⟨last, state, hl, hs, hr, -⟩ := (h bonus_lawful).2 (.error (.commitUnknown (.io "reset"))) rfl
    (by simp)
  exact ⟨last, state, hl, hs, hr⟩

end Ends

end Wakuwaku.Entity.Sqlx.Transaction
