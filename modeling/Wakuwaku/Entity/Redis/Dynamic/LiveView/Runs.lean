import Wakuwaku.Entity.Redis.Dynamic.LiveView.Log
import Mathlib.Data.List.Forall2

/-! # Runs of the clients of a live view

Any number of clients create, commit to and remove one live view; each of their queries runs alone.
In every state reached the keys hold a `Kept` with at most `maxDiffs` diffs (`Run.holds`), the
successful commits since the last creation have the parents 1, 2, … (`Run.chain_eq`), and if each
committed body is its parent's body with the diff applied, the log decodes to the latest body
(`Run.decodes`). -/

namespace Wakuwaku.Entity.Redis.Dynamic.LiveView

open Wakuwaku.Redis Wakuwaku.Entity.Redis Wakuwaku.Entity.Redis.Dynamic

variable {B D : Type}

/-- What a client may ask for. -/
inductive Op (B D : Type) where
  | create (body : B)
  | commit (parent : ℕ) (diff : D) (body : B)
  | remove

/-- What it is answered. -/
inductive Outcome where
  | created (done : Bool)
  | commit (result : Commit)
  | removed (present : Bool)
  deriving DecidableEq, Repr

/-- One query of a client. -/
def Op.exec (view : LiveView B D) (name : Bytes) : Op B D → Action Outcome
  | .create body => do return .created (← view.create name body)
  | .commit parent diff body => do return .commit (← view.commit name parent diff body)
  | .remove => do return .removed (← view.remove name)

/-- What happened: the query and its answer, or its error. -/
abbrev Event (B D : Type) : Type := Op B D × Except Error Outcome

/-- The head is at `version`. -/
def HeadAt (view : LiveView B D) (name : Bytes) (keys : Keyspace) (version : ℕ) : Prop :=
  ∃ fields, keys (view.keys name).1 = some (.hash fields) ∧
    fields versionField = some (decimal version)

/-- The runs that start without the view and whose versions stay below 2^53. -/
inductive Run (view : LiveView B D) (name : Bytes) : List (Event B D) → Keyspace → Prop where
  | start {keys} (head : keys (view.keys name).1 = none) (log : keys (view.keys name).2 = none) :
    Run view name [] keys
  | step {events keys} (op : Op B D) (run : Run view name events keys)
    (range : ∀ version, HeadAt view name (op.exec view name keys).2 version → version < 2 ^ 53) :
    Run view name (events ++ [(op, (op.exec view name keys).1)]) (op.exec view name keys).2

/-- The body of the view after some events: the last one created or committed, if it was not
removed. -/
def bodyStep (body : Option B) : Event B D → Option B
  | (.create created, .ok (.created true)) => some created
  | (.commit _ _ committed, .ok (.commit (.committed _))) => some committed
  | (.remove, .ok _) => none
  | _ => body

/-- The parents of the successful commits since the last creation. -/
def chainStep (chain : List ℕ) : Event B D → List ℕ
  | (.create _, .ok (.created true)) => []
  | (.commit parent _ _, .ok (.commit (.committed _))) => chain ++ [parent]
  | _ => chain

/-- Each committed body is the body at its parent with the diff applied. -/
def Honest (view : LiveView B D) (events : List (Event B D)) : Prop :=
  ∀ before parent diff body version rest,
    events = before ++ (.commit parent diff body, .ok (.commit (.committed version))) :: rest →
      ∃ old, before.foldl bodyStep none = some old ∧ body = view.apply old diff

/-! ### One query -/

variable {view : LiveView B D} {name : Bytes} {keys : Keyspace}

theorem keys_ne (view : LiveView B D) (name : Bytes) : (view.keys name).1 ≠ (view.keys name).2 :=
  taggedPair_ne (by decide)

/-- The view's keys hold `k`. -/
abbrev HoldsAt (view : LiveView B D) (name : Bytes) (keys : Keyspace) : Option Kept → Prop :=
  Holds keys (view.keys name).1 (view.keys name).2

theorem headAt_iff {k : Kept} (h : HoldsAt view name keys (some k)) {version : ℕ} :
    HeadAt view name keys version ↔ version = k.version := by
  obtain ⟨⟨fields, hh, hv, -⟩, -⟩ := h
  constructor
  · rintro ⟨fields', hh', hv'⟩
    rw [hh] at hh'
    cases hh'
    rw [hv] at hv'
    exact (decimal_injective (Option.some.inj hv')).symm
  · rintro rfl
    exact ⟨fields, hh, hv⟩

theorem not_headAt (h : HoldsAt view name keys none) {version : ℕ} :
    ¬ HeadAt view name keys version := by
  rintro ⟨fields, hh, -⟩
  rw [h.1] at hh
  cases hh

theorem create_of_error (body : B) {e : Error} (hb : view.body.serialize body = .error e) :
    view.create name body keys = (.error e, keys) := by
  unfold LiveView.create
  rw [hb]
  rfl

theorem create_of_none {body : B} {bytes : Bytes} (h : HoldsAt view name keys none)
    (hb : view.body.serialize body = .ok bytes) : ∃ keys',
      view.create name body keys = (.ok true, keys') ∧
        HoldsAt view name keys' (some (Kept.created bytes)) := by
  obtain ⟨keys', hc, hk⟩ := createScript_of_none (keys_ne view name) h bytes
  refine ⟨keys', ?_, hk⟩
  unfold LiveView.create
  rw [hb, bind_ofResult_ok, bind_of_ok hc]
  rfl

theorem create_of_some {k : Kept} {body : B} {bytes : Bytes} (h : HoldsAt view name keys (some k))
    (hb : view.body.serialize body = .ok bytes) : view.create name body keys = (.ok false, keys) := by
  unfold LiveView.create
  rw [hb, bind_ofResult_ok, bind_of_ok (createScript_of_some h bytes)]
  rfl

theorem commit_of_diff_error (parent : ℕ) {diff : D} (body : B) {e : Error}
    (hd : view.diff.serialize diff = .error e) :
    view.commit name parent diff body keys = (.error e, keys) := by
  unfold LiveView.commit
  rw [hd]
  rfl

theorem commit_of_body_error (parent : ℕ) {diff : D} {body : B} {dbytes : Bytes} {e : Error}
    (hd : view.diff.serialize diff = .ok dbytes) (hb : view.body.serialize body = .error e) :
    view.commit name parent diff body keys = (.error e, keys) := by
  unfold LiveView.commit
  rw [hd, hb]
  rfl

section Commit

variable {diff : D} {body : B} {dbytes bytes : Bytes} (hd : view.diff.serialize diff = .ok dbytes)
  (hb : view.body.serialize body = .ok bytes)
include hd hb

theorem commit_of_none (h : HoldsAt view name keys none) (parent : ℕ) :
    view.commit name parent diff body keys = (.ok .absent, keys) := by
  unfold LiveView.commit
  rw [hd, hb, bind_ofResult_ok, bind_ofResult_ok, bind_of_ok (commitScript_of_none h _ _ _ _)]
  rfl

theorem commit_of_conflict {k : Kept} (h : HoldsAt view name keys (some k)) {parent : ℕ}
    (hp : parent ≠ k.version) :
    view.commit name parent diff body keys = (.ok (.conflict k.version), keys) := by
  unfold LiveView.commit
  rw [hd, hb, bind_ofResult_ok, bind_ofResult_ok, bind_of_ok (commitScript_of_conflict h hp _ _ _)]
  rfl

theorem commit_of_version {k : Kept} (h : HoldsAt view name keys (some k)) : ∃ keys',
    view.commit name k.version diff body keys = (.ok (.committed (k.version + 1)), keys') ∧
      HoldsAt view name keys' (some (k.committed view.maxDiffs dbytes bytes)) := by
  obtain ⟨keys', hc, hk⟩ := commitScript_of_version (keys_ne view name) h dbytes bytes view.maxDiffs
  refine ⟨keys', ?_, hk⟩
  unfold LiveView.commit
  rw [hd, hb, bind_ofResult_ok, bind_ofResult_ok, bind_of_ok hc]
  rfl

end Commit

theorem remove_of_holds {k : Option Kept} (h : HoldsAt view name keys k) : ∃ keys',
    view.remove name keys = (.ok k.isSome, keys') ∧ HoldsAt view name keys' none := by
  obtain ⟨keys', hu, hk⟩ := unlink_keys (keys_ne view name) h
  refine ⟨keys', ?_, hk⟩
  unfold LiveView.remove
  rw [bind_of_ok hu]
  cases k <;> rfl

/-- What a query does to the keys: it creates the view, commits to it, removes it, or changes
nothing. -/
inductive Stepped (view : LiveView B D) (name : Bytes) (keys : Keyspace) :
    Option Kept → Op B D → Except Error Outcome → Option Kept → Keyspace → Prop where
  | created {body bytes keys'} (hb : view.body.serialize body = .ok bytes)
    (h : HoldsAt view name keys' (some (Kept.created bytes))) :
    Stepped view name keys none (.create body) (.ok (.created true)) (some (Kept.created bytes)) keys'
  | committed {k : Kept} {diff body dbytes bytes keys'}
    (hd : view.diff.serialize diff = .ok dbytes) (hb : view.body.serialize body = .ok bytes)
    (h : HoldsAt view name keys' (some (k.committed view.maxDiffs dbytes bytes))) :
    Stepped view name keys (some k) (.commit k.version diff body)
      (.ok (.commit (.committed (k.version + 1)))) (some (k.committed view.maxDiffs dbytes bytes)) keys'
  | removed {k present keys'} (h : HoldsAt view name keys' none) :
    Stepped view name keys k .remove (.ok (.removed present)) none keys'
  | unchanged {k op result} (hcreate : result ≠ .ok (.created true))
    (hcommit : ∀ version, result ≠ .ok (.commit (.committed version))) (hremove : op ≠ .remove) :
    Stepped view name keys k op result k keys

/-- **One query changes the keys as `Stepped` says.** -/
theorem stepped (op : Op B D) {k : Option Kept} (h : HoldsAt view name keys k) :
    ∃ k', Stepped view name keys k op (op.exec view name keys).1 k' (op.exec view name keys).2 := by
  cases op with
  | create body =>
    rw [Op.exec]
    cases hb : view.body.serialize body with
    | error e =>
      rw [bind_of_error (create_of_error body hb)]
      exact ⟨k, .unchanged (by simp) (by simp) (by simp)⟩
    | ok bytes =>
      cases k with
      | none =>
        obtain ⟨keys', hc, hk⟩ := create_of_none h hb
        rw [bind_of_ok hc]
        exact ⟨_, .created hb hk⟩
      | some k =>
        rw [bind_of_ok (create_of_some h hb)]
        exact ⟨_, .unchanged (by simp) (by simp) (by simp)⟩
  | commit parent diff body =>
    rw [Op.exec]
    cases hd : view.diff.serialize diff with
    | error e =>
      rw [bind_of_error (commit_of_diff_error parent body hd)]
      exact ⟨k, .unchanged (by simp) (by simp) (by simp)⟩
    | ok dbytes =>
      cases hb : view.body.serialize body with
      | error e =>
        rw [bind_of_error (commit_of_body_error parent hd hb)]
        exact ⟨k, .unchanged (by simp) (by simp) (by simp)⟩
      | ok bytes =>
        cases k with
        | none =>
          rw [bind_of_ok (commit_of_none hd hb h parent)]
          exact ⟨_, .unchanged (by simp) (by simp) (by simp)⟩
        | some k =>
          by_cases hp : parent = k.version
          · obtain ⟨keys', hc, hk⟩ := commit_of_version hd hb h
            rw [hp, bind_of_ok hc]
            exact ⟨_, .committed hd hb hk⟩
          · rw [bind_of_ok (commit_of_conflict hd hb h hp)]
            exact ⟨_, .unchanged (by simp) (by simp) (by simp)⟩
  | remove =>
    obtain ⟨keys', hr, hk⟩ := remove_of_holds h
    rw [Op.exec]
    rw [bind_of_ok hr]
    exact ⟨none, .removed hk⟩

/-! ### Runs -/

/-- What every state of a run shows of the keys. -/
structure Kept.Fits (view : LiveView B D) (k : Kept) : Prop where
  base : 1 ≤ k.base
  diffs : k.diffs.length ≤ view.maxDiffs
  version : k.version < 2 ^ 53

/-- What one query preserves. -/
theorem Stepped.holds {k k' : Option Kept} {op : Op B D} {result : Except Error Outcome}
    {keys' : Keyspace} (hs : Stepped view name keys k op result k' keys') (h : HoldsAt view name keys k)
    (hfits : ∀ kept, k = some kept → kept.Fits view)
    (range : ∀ version, HeadAt view name keys' version → version < 2 ^ 53) :
    HoldsAt view name keys' k' ∧ ∀ kept, k' = some kept → kept.Fits view := by
  cases hs with
  | created hb hk =>
    refine ⟨hk, ?_⟩
    rintro _ ⟨⟩
    exact ⟨Nat.le_refl 1, Nat.zero_le _, range _ ((headAt_iff hk).mpr rfl)⟩
  | @committed k diff body dbytes bytes keys' hd hb hk =>
    refine ⟨hk, ?_⟩
    rintro _ ⟨⟩
    exact ⟨Kept.base_committed _ _ _ (hfits k rfl).base, Kept.length_committed _ _ _ _,
      range _ ((headAt_iff hk).mpr rfl)⟩
  | removed hk => exact ⟨hk, by simp⟩
  | unchanged => exact ⟨h, hfits⟩

/-- The parents of the commits that led to what the keys hold. -/
def chainOf (k : Kept) : List ℕ := List.range' 1 (k.version - 1)

theorem Stepped.chain {k k' : Option Kept} {op : Op B D} {result : Except Error Outcome}
    {keys' : Keyspace} (hs : Stepped view name keys k op result k' keys') {chain : List ℕ}
    (hfits : ∀ kept, k = some kept → kept.Fits view)
    (hc : ∀ kept, k = some kept → chain = chainOf kept) :
    ∀ kept, k' = some kept → chainStep chain (op, result) = chainOf kept := by
  cases hs with
  | created hb hk => rintro _ ⟨⟩; rfl
  | @committed k diff body dbytes bytes keys' hd hb hk =>
    rintro _ ⟨⟩
    have hv : 1 ≤ k.version := Nat.le_trans (hfits k rfl).base (Nat.le_add_right _ _)
    rw [chainOf, Kept.version_committed, show k.version + 1 - 1 = k.version - 1 + 1 by omega,
      List.range'_concat, ← chainOf, ← hc k rfl]
    show chain ++ [k.version] = _
    rw [show 1 + 1 * (k.version - 1) = k.version by omega]
  | removed hk => simp
  | unchanged hcreate hcommit hremove =>
    intro kept hk
    rw [← hc kept hk]
    unfold chainStep
    split
    · next h => exact absurd (congrArg Prod.snd h) hcreate
    · next h => exact absurd (congrArg Prod.snd h) (hcommit _)
    · rfl

/-- The log decodes: from the base, through the diffs, to the body of the head. -/
def Decodes (view : LiveViewDiff B D) (k : Kept) (body : B) : Prop :=
  ∃ base diffs, view.body.deserialize k.baseBody = .ok base ∧
    List.Forall₂ (fun bytes diff => view.diff.deserialize bytes = .ok diff) k.diffs diffs ∧
      diffs.foldl view.apply base = body ∧ view.body.deserialize k.body = .ok body

theorem Decodes.created (hround : view.body.RoundTrips) {body : B} {bytes : Bytes}
    (hb : view.body.serialize body = .ok bytes) :
    Decodes view.toLiveViewDiff (Kept.created bytes) body :=
  ⟨body, [], hround.deserialize hb, .nil, rfl, hround.deserialize hb⟩

theorem Decodes.committed {k : Kept} {old : B} (h : Decodes view.toLiveViewDiff k old)
    (hround : view.body.RoundTrips) (hdiff : view.diff.RoundTrips) {diff : D} {body : B}
    {dbytes bytes : Bytes} (hd : view.diff.serialize diff = .ok dbytes)
    (hb : view.body.serialize body = .ok bytes) (hbody : body = view.apply old diff) :
    Decodes view.toLiveViewDiff (k.committed view.maxDiffs dbytes bytes) body := by
  obtain ⟨base, diffs, hbase, hdiffs, hfold, -⟩ := h
  unfold Kept.committed
  split_ifs
  · exact ⟨body, [], hround.deserialize hb, .nil, rfl, hround.deserialize hb⟩
  · refine ⟨base, diffs ++ [diff], hbase, ?_, ?_, hround.deserialize hb⟩
    · exact List.rel_append hdiffs (.cons (hdiff.deserialize hd) .nil)
    · rw [List.foldl_append, hfold, hbody]
      rfl

/-- The keys hold a log that decodes to `body`, or nothing. -/
def Shows (view : LiveViewDiff B D) (k : Option Kept) (body : Option B) : Prop :=
  match k, body with
  | none, none => True
  | some k, some body => Decodes view k body
  | _, _ => False

theorem Stepped.shows {k k' : Option Kept} {op : Op B D} {result : Except Error Outcome}
    {keys' : Keyspace} (hs : Stepped view name keys k op result k' keys')
    (hround : view.body.RoundTrips) (hdiff : view.diff.RoundTrips) {last : Option B}
    (h : Shows view.toLiveViewDiff k last)
    (honest : ∀ parent diff body version, (op, result) =
      (.commit parent diff body, .ok (.commit (.committed version))) →
        ∃ old, last = some old ∧ body = view.apply old diff) :
    Shows view.toLiveViewDiff k' (bodyStep last (op, result)) := by
  cases hs with
  | created hb hk => exact Decodes.created hround hb
  | @committed k diff body dbytes bytes keys' hd hb hk =>
    obtain ⟨old, rfl, hbody⟩ := honest _ _ _ _ rfl
    exact Decodes.committed h hround hdiff hd hb hbody
  | removed hk => trivial
  | unchanged hcreate hcommit hremove =>
    have hbody : bodyStep last (op, result) = last := by
      unfold bodyStep
      split
      · next h => exact absurd (congrArg Prod.snd h) hcreate
      · next h => exact absurd (congrArg Prod.snd h) (hcommit _)
      · next h => exact absurd (congrArg Prod.fst h) hremove
      · rfl
    rw [hbody]
    exact h

theorem Honest.init {events : List (Event B D)} {event : Event B D}
    (h : Honest view (events ++ [event])) : Honest view events :=
  fun before parent diff body version rest he =>
    h before parent diff body version (rest ++ [event]) (by rw [he, List.append_assoc, List.cons_append])

theorem Honest.last {events : List (Event B D)} {event : Event B D}
    (h : Honest view (events ++ [event])) : ∀ parent diff body version, event =
      (.commit parent diff body, .ok (.commit (.committed version))) →
        ∃ old, events.foldl bodyStep none = some old ∧ body = view.apply old diff :=
  fun parent diff body version he => h events parent diff body version [] (by rw [he])

/-- **In every state of a run the keys hold nothing or a log that fits**; the commits since the
creation form one chain, and in an honest run the log decodes to the latest body. -/
theorem Run.holds {events : List (Event B D)} (run : Run view name events keys) :
    ∃ k, HoldsAt view name keys k ∧ (∀ kept, k = some kept → kept.Fits view) ∧
      (∀ kept, k = some kept → events.foldl chainStep [] = chainOf kept) ∧
      (view.body.RoundTrips → view.diff.RoundTrips → Honest view events →
        Shows view.toLiveViewDiff k (events.foldl bodyStep none)) := by
  induction run with
  | start head log => exact ⟨none, ⟨head, log⟩, by simp, by simp, fun _ _ _ => trivial⟩
  | @step events keys op run range ih =>
    obtain ⟨k, h, hfits, hchain, hshows⟩ := ih
    obtain ⟨k', hs⟩ := stepped op h
    obtain ⟨h', hfits'⟩ := hs.holds h hfits range
    refine ⟨k', h', hfits', ?_, fun hround hdiff honest => ?_⟩
    · rw [List.foldl_append]
      exact hs.chain hfits hchain
    · rw [List.foldl_append]
      exact hs.shows hround hdiff (hshows hround hdiff honest.init) honest.last

end Wakuwaku.Entity.Redis.Dynamic.LiveView
