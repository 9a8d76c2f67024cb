import Wakuwaku.Entity.Redis.Dynamic.LiveView.Runs

/-! # What readers of a live view see

The latest version comes from the head, the history from the log. `get` and `history` read back what
the keys hold, and in every state of an honest run the history leads to what `get` outputs
(`history_equals_head`). -/

namespace Wakuwaku.Entity.Redis.Dynamic.LiveView

open Wakuwaku.Redis Wakuwaku.Entity.Redis Wakuwaku.Entity.Redis.Dynamic

variable {B D : Type} {view : LiveView B D} {name : Bytes} {keys : Keyspace} {k : Kept}

/-! ### The head -/

theorem parseVersion_decimal {n : ℕ} (hn : n < 2 ^ 53) : parseVersion (decimal n) = .ok n := by
  unfold parseVersion
  rw [parseU64_decimal (by omega)]

theorem get_of_none (h : HoldsAt view name keys none) : view.get name keys = (.ok none, keys) := by
  unfold LiveView.get readHead
  rw [bind_of_ok (hmget_of_none _ h.1)]
  rfl

theorem get_of_some (h : HoldsAt view name keys (some k)) (hv : k.version < 2 ^ 53) {body : B}
    (hb : view.body.deserialize k.body = .ok body) :
    view.get name keys = (.ok (some ⟨k.version, body⟩), keys) := by
  obtain ⟨⟨fields, hh, hver, hbody⟩, -⟩ := h
  unfold LiveView.get readHead
  rw [bind_of_ok (hmget_of_hash _ hh)]
  simp only [List.map_cons, List.map_nil, hver, hbody]
  rw [parseVersion_decimal hv, bind_ofResult_ok, hb, bind_ofResult_ok, pure_apply]

theorem version_of_none (h : HoldsAt view name keys none) :
    view.version name keys = (.ok none, keys) := by
  unfold LiveView.version
  rw [bind_of_ok (hget_of_none _ h.1)]
  rfl

theorem version_of_some (h : HoldsAt view name keys (some k)) (hv : k.version < 2 ^ 53) :
    view.version name keys = (.ok (some k.version), keys) := by
  obtain ⟨⟨fields, hh, hver, -⟩, -⟩ := h
  unfold LiveView.version
  rw [bind_of_ok (hget_of_hash _ hh), hver]
  show (ofResult (parseVersion (decimal k.version)) >>= fun v => pure (some v)) keys = _
  rw [parseVersion_decimal hv, bind_ofResult_ok, pure_apply]

/-! ### The log -/

theorem checkedSucc_of_lt {n : ℕ} (hn : n + 1 < 2 ^ 64) : checkedSucc n = some (n + 1) := if_pos hn

theorem saturatingSucc_of_lt {n : ℕ} (hn : n + 1 < 2 ^ 64) : saturatingSucc n = n + 1 := by
  unfold saturatingSucc
  omega

theorem parseEvent_of_diff (view : LiveView B D) {n : ℕ} {bytes : Bytes} {diff : D} (hn : n + 1 < 2 ^ 64)
    (hd : view.diff.deserialize bytes = .ok diff) :
    parseEvent view.toLiveViewDiff (entryOf ⟨⟨n + 1, 0⟩, [(diffEntry, bytes)]⟩) n =
      .ok (.diff (n + 1) diff) := by
  have hget : (entryOf ⟨⟨n + 1, 0⟩, [(diffEntry, bytes)]⟩).get diffEntry = some bytes := by
    rw [get_entryOf]
    simp
  unfold parseEvent entryVersion
  rw [hget, checkedSucc_of_lt hn]
  simp only [entryOf, ne_eq, not_true_eq_false, if_false, bind, Except.bind, if_true, hd]
  rfl

theorem parseDiffs_of_diffs {bytes : List Bytes} {diffs : List D} {n : ℕ}
    (hd : List.Forall₂ (fun b d => view.diff.deserialize b = .ok d) bytes diffs)
    (hn : n + bytes.length < 2 ^ 64) :
    parseDiffs view.toLiveViewDiff ((Kept.diffEntries n bytes).map entryOf) n = .ok diffs := by
  induction hd generalizing n with
  | nil => rfl
  | cons hb hrest ih =>
    rw [List.length_cons] at hn
    have hev := parseEvent_of_diff view (n := n) (by omega) hb
    simp only [Kept.diffEntries, List.map_cons, parseDiffs, hev, bind, Except.bind,
      ih (n := n + 1) (by omega)]
    rfl

theorem baseFields_get (k : Kept) :
    (entryOf ⟨⟨k.base, 0⟩, k.baseFields⟩).get baseEntry = some k.baseBody := by
  rw [get_entryOf]
  simp [Kept.baseFields]

theorem parsable_entries (hv : k.version < 2 ^ 53) : ∀ entry ∈ k.entries, Parsable entry := by
  intro entry he
  have hid : entry.id ∈ k.entries.map StreamEntry.id := List.mem_map_of_mem he
  rw [k.map_id_entries] at hid
  obtain ⟨v, hmem, hid⟩ := List.mem_map.mp hid
  have hle : v < k.base + (k.diffs.length + 1) := by
    have := List.mem_range'_1.mp hmem
    omega
  have hver : v < 2 ^ 53 := by
    unfold Kept.version at hv
    omega
  refine ⟨?_, ?_⟩
  · rw [← hid]
    show v < 2 ^ 64
    omega
  · rw [← hid]
    show 0 < 2 ^ 64
    omega

theorem history_of_none (h : HoldsAt view name keys none) :
    view.history name keys = (.ok none, keys) := by
  unfold LiveView.history
  rw [bind_of_ok (xrange_of_none h.2)]
  rfl

/-- **The history reads back the base and the diffs.** -/
theorem history_of_some (h : HoldsAt view name keys (some k)) (hv : k.version < 2 ^ 53) {base : B}
    {diffs : List D} (hb : view.body.deserialize k.baseBody = .ok base)
    (hd : List.Forall₂ (fun b d => view.diff.deserialize b = .ok d) k.diffs diffs) :
    view.history name keys = (.ok (some ⟨⟨k.base, base⟩, diffs⟩), keys) := by
  have hparse : parseHistory view.toLiveViewDiff (k.entries.map entryOf) =
      .ok (some ⟨⟨k.base, base⟩, diffs⟩) := by
    have hversion : entryVersion (entryOf ⟨⟨k.base, 0⟩, k.baseFields⟩) = .ok k.base := rfl
    have hlen : k.base + k.diffs.length < 2 ^ 64 := by
      unfold Kept.version at hv
      omega
    simp only [Kept.entries, List.map_cons, parseHistory, baseFields_get, hversion, hb, bind,
      Except.bind, parseDiffs_of_diffs hd hlen]
    rfl
  unfold LiveView.history
  rw [bind_of_ok (xrange_of_stream h.2), parseRange_reply (parsable_entries hv), bind_ofResult_ok,
    hparse]
  rfl

theorem intoLatest_eq (diffs : List D) {base : Versioned B} (hn : base.version + diffs.length < 2 ^ 64) :
    History.intoLatest view.toLiveViewDiff ⟨base, diffs⟩ =
      ⟨base.version + diffs.length, diffs.foldl view.apply base.body⟩ := by
  unfold History.intoLatest
  induction diffs generalizing base with
  | nil => rfl
  | cons d rest ih =>
    rw [List.length_cons] at hn
    simp only [List.foldl_cons, List.length_cons]
    rw [saturatingSucc_of_lt (by omega), ih (by show base.version + 1 + rest.length < _; omega)]
    simp only [Versioned.mk.injEq, and_true]
    omega

/-! ### Every state of a run -/

theorem mem_diffEntries {n : ℕ} {diffs : List Bytes} {entry : StreamEntry}
    (h : entry ∈ Kept.diffEntries n diffs) : ∃ diff, entry.fields = [(diffEntry, diff)] := by
  induction diffs generalizing n with
  | nil => cases h
  | cons d rest ih =>
    rcases List.mem_cons.mp h with rfl | h
    · exact ⟨d, rfl⟩
    · exact ih h

/-- The shape of the two keys: both absent, or the head at version `v`, and a log with the IDs
`b-0, …, v-0` that starts with a base and goes on with at most `maxDiffs` diffs. -/
def WellShaped (view : LiveView B D) (name : Bytes) (keys : Keyspace) : Prop :=
  (keys (view.keys name).1 = none ∧ keys (view.keys name).2 = none) ∨
    ∃ b v stream first rest body, 1 ≤ b ∧ b ≤ v ∧ HeadAt view name keys v ∧
      keys (view.keys name).2 = some (.stream stream) ∧ stream.entries = first :: rest ∧
      stream.entries.map StreamEntry.id = (List.range' b (v + 1 - b)).map (fun n => ⟨n, 0⟩) ∧
      first.fields.head? = some (baseEntry, body) ∧
      (∀ entry ∈ rest, ∃ diff, entry.fields = [(diffEntry, diff)]) ∧ rest.length ≤ view.maxDiffs

theorem wellShaped {k : Option Kept} (h : HoldsAt view name keys k)
    (hfits : ∀ kept, k = some kept → kept.Fits view) : WellShaped view name keys := by
  cases k with
  | none => exact Or.inl h
  | some k =>
    have hf := hfits k rfl
    refine Or.inr ⟨k.base, k.version, _, _, _, k.baseBody, hf.base, Nat.le_add_right _ _,
      (headAt_iff h).mpr rfl, h.2, rfl, ?_, rfl, fun entry he => mem_diffEntries he, ?_⟩
    · rw [k.map_id_entries, Kept.version]
      rw [show k.base + k.diffs.length + 1 - k.base = k.diffs.length + 1 by omega]
    · rw [Kept.length_diffEntries]
      exact hf.diffs

/-- What a commit does in a state of a run: it succeeds exactly at the parent of the head, and
changes nothing otherwise. -/
theorem commit_iff {k : Option Kept} (h : HoldsAt view name keys k) (parent : ℕ) (diff : D) (body : B) :
    (∀ dbytes bytes, view.diff.serialize diff = .ok dbytes → view.body.serialize body = .ok bytes →
      HeadAt view name keys parent →
        (view.commit name parent diff body keys).1 = .ok (.committed (parent + 1)) ∧
          HeadAt view name (view.commit name parent diff body keys).2 (parent + 1)) ∧
    (∀ version, (view.commit name parent diff body keys).1 = .ok (.committed version) →
      HeadAt view name keys parent) ∧
    ((∀ version, (view.commit name parent diff body keys).1 ≠ .ok (.committed version)) →
      (view.commit name parent diff body keys).2 = keys) := by
  cases hd : view.diff.serialize diff with
  | error e => simp [commit_of_diff_error parent body hd]
  | ok dbytes =>
    cases hb : view.body.serialize body with
    | error e => simp [commit_of_body_error parent hd hb]
    | ok bytes =>
      cases k with
      | none => simp [commit_of_none hd hb h, not_headAt h]
      | some k =>
        rw [headAt_iff h]
        by_cases hp : parent = k.version
        · subst hp
          obtain ⟨keys', hc, hk⟩ := commit_of_version hd hb h
          rw [hc]
          refine ⟨fun _ _ _ _ _ => ⟨rfl, (headAt_iff hk).mpr ?_⟩, fun _ _ => rfl, ?_⟩
          · exact (Kept.version_committed _ _ _ _).symm
          · exact fun hne => absurd rfl (hne _)
        · simp [commit_of_conflict hd hb h hp, hp]

/-- **The history of a live view equals its head.** In every state of every run of creations,
commits and removals the keys are well shaped; a commit succeeds exactly if its parent is the version
of the head, moves it to the next one, and changes nothing otherwise; the successful commits since
the creation have the parents 1, 2, …, up to the version before the head's. If moreover each
committed body is its parent's with the diff applied, `history` and `get` succeed, and the history
leads to what `get` outputs. -/
theorem history_equals_head (view : LiveView B D) (name : Bytes) (events : List (Event B D))
    (keys : Keyspace) (run : Run view name events keys) :
    WellShaped view name keys ∧
    (∀ parent diff body,
      (∀ dbytes bytes, view.diff.serialize diff = .ok dbytes → view.body.serialize body = .ok bytes →
        HeadAt view name keys parent →
          (view.commit name parent diff body keys).1 = .ok (.committed (parent + 1)) ∧
            HeadAt view name (view.commit name parent diff body keys).2 (parent + 1)) ∧
      (∀ version, (view.commit name parent diff body keys).1 = .ok (.committed version) →
        HeadAt view name keys parent) ∧
      ((∀ version, (view.commit name parent diff body keys).1 ≠ .ok (.committed version)) →
        (view.commit name parent diff body keys).2 = keys)) ∧
    (∀ version, HeadAt view name keys version →
      events.foldl chainStep [] = List.range' 1 (version - 1)) ∧
    (view.body.RoundTrips → view.diff.RoundTrips → Honest view events → ∃ latest history,
      view.get name keys = (.ok latest, keys) ∧ view.history name keys = (.ok history, keys) ∧
        history.map (History.intoLatest view.toLiveViewDiff) = latest) := by
  obtain ⟨k, h, hfits, hchain, hshows⟩ := run.holds
  refine ⟨wellShaped h hfits, commit_iff h, ?_, fun hround hdiff honest => ?_⟩
  · intro version hv
    cases k with
    | none => exact absurd hv (not_headAt h)
    | some k =>
      rw [(headAt_iff h).mp hv]
      exact hchain k rfl
  · have hs := hshows hround hdiff honest
    cases k with
    | none => exact ⟨none, none, get_of_none h, history_of_none h, rfl⟩
    | some k =>
      cases hb : events.foldl bodyStep none with
      | none => rw [hb] at hs; exact hs.elim
      | some body =>
        rw [hb] at hs
        obtain ⟨base, diffs, hbase, hdiffs, hfold, hlast⟩ := hs
        have hv := (hfits k rfl).version
        refine ⟨_, _, get_of_some h hv hlast, history_of_some h hv hbase hdiffs, ?_⟩
        have hlen : diffs.length = k.diffs.length := hdiffs.length_eq.symm
        have hlt : k.base + diffs.length < 2 ^ 64 := by
          unfold Kept.version at hv
          omega
        rw [Option.map_some, intoLatest_eq diffs hlt, hfold, hlen]
        rfl

/-! ### A counter -/

theorem honest_nil : Honest view [] := by
  intro before parent diff body version rest he
  exact absurd he.symm (by simp)

theorem Honest.snoc {events : List (Event B D)} {event : Event B D} (h : Honest view events)
    (hlast : ∀ parent diff body version, event =
      (.commit parent diff body, .ok (.commit (.committed version))) →
        ∃ old, events.foldl bodyStep none = some old ∧ body = view.apply old diff) :
    Honest view (events ++ [event]) := by
  intro before parent diff body version rest he
  rcases List.eq_nil_or_concat rest with rfl | ⟨rest, last, rfl⟩
  · obtain ⟨rfl, hev⟩ := List.append_inj' he rfl
    exact hlast parent diff body version (List.cons.inj hev).1
  · rw [List.concat_eq_append, ← List.cons_append, ← List.append_assoc] at he
    exact h before parent diff body version rest (List.append_inj' he rfl).1

/-- Numbers in decimal. -/
def natCodec : Codec ℕ where
  toBytes n := .ok (decimal n)
  fromBytes bytes := match parseDigits bytes with
    | some n => .ok n
    | none => .error "no number"

theorem natCodec_roundTrips : natCodec.RoundTrips := by
  intro n bytes h
  cases h
  simp only [natCodec, parseDigits_decimal]

/-- Counters whose log keeps no diff. -/
def counter : LiveView ℕ ℕ where
  body := natCodec
  diff := natCodec
  apply := (· + ·)
  space := "counter"
  maxDiffs := 0

/-- A run goes on with a query whose result is known. -/
theorem Run.extend {events : List (Event B D)} {keys' : Keyspace} (run : Run view name events keys)
    (op : Op B D) {result : Except Error Outcome} (he : op.exec view name keys = (result, keys'))
    (h : HoldsAt view name keys' (some k)) (hv : k.version < 2 ^ 53) :
    Run view name (events ++ [(op, result)]) keys' := by
  have hrun := Run.step op run fun version hver => by
    rw [he] at hver
    rw [(headAt_iff h).mp hver]
    exact hv
  rwa [he] at hrun

/-- A creation and a commit, which squashes the log. -/
def counterEvents : List (Event ℕ ℕ) :=
  [(.create 5, .ok (.created true)), (.commit 1 2 7, .ok (.commit (.committed 2)))]

theorem counter_run : ∃ keys, Run counter [] counterEvents keys := by
  have hnone : HoldsAt counter [] (fun _ => none) none := ⟨rfl, rfl⟩
  have hdecimal : ∀ n, natCodec.serialize n = .ok (decimal n) := fun _ => rfl
  obtain ⟨keys, hc, hk⟩ := create_of_none hnone (hdecimal 5)
  obtain ⟨keys', hc', hk'⟩ := commit_of_version (hdecimal 2) (hdecimal 7) hk
  refine ⟨keys', ?_⟩
  have h1 := (Run.start rfl rfl).extend (.create 5) (bind_of_ok hc) hk (by decide)
  refine h1.extend (.commit 1 2 7) (bind_of_ok hc') hk' ?_
  rw [Kept.version_committed]
  decide

theorem counter_honest : Honest counter counterEvents := by
  have h1 : Honest counter ([] ++ [(.create 5, .ok (.created true))]) := honest_nil.snoc (by simp)
  refine h1.snoc fun parent diff body version he => ?_
  cases he
  exact ⟨5, rfl, rfl⟩

theorem history_equals_head_counter : ∃ keys latest history,
    Run counter [] counterEvents keys ∧ counter.get [] keys = (.ok latest, keys) ∧
      counter.history [] keys = (.ok history, keys) ∧
        history.map (History.intoLatest counter.toLiveViewDiff) = latest := by
  obtain ⟨keys, run⟩ := counter_run
  obtain ⟨-, -, -, h⟩ := history_equals_head counter [] counterEvents keys run
  obtain ⟨latest, history, hg, hh, he⟩ := h natCodec_roundTrips natCodec_roundTrips counter_honest
  exact ⟨keys, latest, history, run, hg, hh, he⟩

end Wakuwaku.Entity.Redis.Dynamic.LiveView
