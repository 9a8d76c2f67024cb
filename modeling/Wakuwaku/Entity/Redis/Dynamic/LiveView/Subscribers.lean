import Wakuwaku.Entity.Redis.Dynamic.LiveView.Subscription

/-! # Subscribers of a live view converge

Clients create and commit to one live view while a subscriber subscribes, resumes at a version it
holds and receives, in any order and with batches of any size. A subscriber that has read nothing, or
only entries that a squash took away since, still goes on: what it has read and what the log holds
both follow the committed bodies (`Synced`, `Recorded`), so every event moves it to a committed body
(`subscribers_converge`). -/

namespace Wakuwaku.Entity.Redis.Dynamic.LiveView

open Wakuwaku.Redis Wakuwaku.Entity.Redis Wakuwaku.Entity.Redis.Dynamic

variable {B D : Type}

/-! ### Writers and a subscriber -/

/-- A subscriber: its subscription, the version it started from and the events it was given. -/
structure Subscriber (B D : Type) where
  subscription : LiveViewSubscription
  start : Versioned B
  seen : List (LiveViewEvent B D)

/-- What a subscriber holds. -/
def Subscriber.latest (view : LiveViewDiff B D) (sub : Subscriber B D) : Versioned B :=
  sub.seen.foldl (Versioned.update view) sub.start

/-- The keys, what the writers did, and the subscriber. -/
structure Followed (B D : Type) where
  keys : Keyspace
  events : List (Event B D)
  subscriber : Option (Subscriber B D)

/-- The body at a version, as the writers committed it. -/
def Followed.bodyAt (s : Followed B D) (version : ℕ) : Option B :=
  LiveView.bodyAt (s.events.foldl bodiesStep []) version

inductive Move (B D : Type) where
  | write (op : Op B D)
  | subscribe
  | resume (held : Versioned B)
  | recv (protocol : Protocol) (batch : ℕ)

/-- One step: a writer creates or commits, or the subscriber subscribes, resumes at a version it
holds, or reads at most `batch` entries, if it needs any, and receives. -/
inductive Follow (view : LiveView B D) (name : Bytes) : Followed B D → Move B D → Followed B D → Prop
  | write {s} (op : Op B D) (hop : op ≠ .remove)
    (range : ∀ version, HeadAt view name (op.exec view name s.keys).2 version → version < 2 ^ 53) :
    Follow view name s (.write op) ⟨(op.exec view name s.keys).2,
      s.events ++ [(op, (op.exec view name s.keys).1)], s.subscriber⟩
  | subscribed {s latest subscription keys}
    (h : view.subscribe name s.keys = (.ok (some (latest, subscription)), keys)) :
    Follow view name s .subscribe ⟨keys, s.events, some ⟨subscription, latest, []⟩⟩
  | absent {s keys} (h : view.subscribe name s.keys = (.ok none, keys)) :
    Follow view name s .subscribe ⟨keys, s.events, s.subscriber⟩
  | resumed {s held} (h : s.bodyAt held.version = some held.body) :
    Follow view name s (.resume held) ⟨s.keys, s.events, some ⟨view.resume name held.version, held, []⟩⟩
  | received {s sub protocol batch event next keys} (hsub : s.subscriber = some sub) (hbatch : 0 < batch)
    (h : sub.subscription.recv view.toLiveViewDiff protocol batch s.keys = (.ok (some event, next), keys)) :
    Follow view name s (.recv protocol batch)
      ⟨keys, s.events, some ⟨next, sub.start, sub.seen ++ [event]⟩⟩
  | waiting {s sub protocol batch next keys} (hsub : s.subscriber = some sub) (hbatch : 0 < batch)
    (h : sub.subscription.recv view.toLiveViewDiff protocol batch s.keys = (.ok (none, next), keys)) :
    Follow view name s (.recv protocol batch) ⟨keys, s.events, some ⟨next, sub.start, sub.seen⟩⟩

/-! ### What a subscriber has read -/

/-- An event that moves what a subscriber holds to a later committed body, and to the next one unless
it is a snapshot. -/
def Advances (view : LiveViewDiff B D) (bodyAt : ℕ → Option B) (held : Versioned B)
    (event : LiveViewEvent B D) : Prop :=
  held.version < (held.update view event).version ∧
  bodyAt (held.update view event).version = some (held.update view event).body ∧
  ((held.update view event).version ≠ held.version + 1 → event = .snapshot (held.update view event))

/-- A subscriber holds a committed body, and the entries it has read follow it. -/
structure Synced (view : LiveViewDiff B D) (bodies : List B) (log : Bytes) (sub : Subscriber B D) :
    Prop where
  key : sub.subscription.cursor.key = log
  seq : sub.subscription.cursor.after.seq = 0
  version : (sub.latest view).version = sub.subscription.version
  body : bodyAt bodies (sub.latest view).version = some (sub.latest view).body
  pending : Follows view bodies sub.subscription.version sub.subscription.cursor.pending
    sub.subscription.cursor.after.ms
  start : bodyAt bodies sub.start.version = some sub.start.body
  seen : ∀ before event rest, sub.seen = before ++ event :: rest →
    Advances view (bodyAt bodies) (before.foldl (Versioned.update view) sub.start) event

variable {view : LiveView B D} {name log : Bytes} {keys : Keyspace} {bodies : List B}
  {sub : Subscriber B D}

theorem Synced.append {view : LiveViewDiff B D} (h : Synced view bodies log sub) (last : B) :
    Synced view (bodies ++ [last]) log sub := by
  refine ⟨h.key, h.seq, h.version, bodyAt_append h.body last, h.pending.append last,
    bodyAt_append h.start last, fun before event rest he => ?_⟩
  obtain ⟨hlt, hbody, hsnapshot⟩ := h.seen before event rest he
  exact ⟨hlt, bodyAt_append hbody last, hsnapshot⟩

/-- A subscription that starts at a committed body. -/
theorem synced_new (view : LiveViewDiff B D) {start : Versioned B}
    (h : bodyAt bodies start.version = some start.body) :
    Synced view bodies log ⟨.new log start.version, start, []⟩ :=
  ⟨rfl, rfl, rfl, h, .nil _, h, by simp⟩

/-- The subscriber after an event. -/
theorem Synced.snoc {view : LiveViewDiff B D} (h : Synced view bodies log sub)
    {cursor : StreamCursor} {event : LiveViewEvent B D} {body : B} (hkey : cursor.key = log)
    (hseq : cursor.after.seq = 0) (hlt : sub.subscription.version < event.version)
    (hcommitted : bodyAt bodies event.version = some body)
    (hupdate : (sub.latest view).update view event = ⟨event.version, body⟩)
    (hsnapshot : event.version ≠ sub.subscription.version + 1 → event = .snapshot ⟨event.version, body⟩)
    (hrest : Follows view bodies event.version cursor.pending cursor.after.ms) :
    Synced view bodies log ⟨⟨cursor, event.version⟩, sub.start, sub.seen ++ [event]⟩ := by
  have hlatest : Subscriber.latest view ⟨⟨cursor, event.version⟩, sub.start, sub.seen ++ [event]⟩ =
      ⟨event.version, body⟩ := by
    unfold Subscriber.latest
    rw [List.foldl_append]
    exact hupdate
  refine ⟨hkey, hseq, by rw [hlatest], by rw [hlatest]; exact hcommitted, hrest, h.start, ?_⟩
  intro before e rest he
  rcases List.eq_nil_or_concat rest with rfl | ⟨rest, last, rfl⟩
  · obtain ⟨rfl, hcons⟩ := List.append_inj' he rfl
    obtain rfl := (List.cons.inj hcons).1
    unfold Advances
    rw [show sub.seen.foldl (Versioned.update view) sub.start = sub.latest view from rfl, hupdate, h.version]
    exact ⟨hlt, hcommitted, hsnapshot⟩
  · rw [List.concat_eq_append, ← List.cons_append, ← List.append_assoc] at he
    exact h.seen before e rest (List.append_inj' he rfl).1

/-! ### One round of `recv` -/

section Recv

variable (h : Synced view.toLiveViewDiff bodies log sub) (hrange : bodies.length < 2 ^ 53)
include h hrange

/-- The entry that the cursor gives becomes an event. -/
theorem recv_of_next {protocol : Protocol} {batch : ℕ} {entry : Entry} {cursor : StreamCursor}
    (hnext : sub.subscription.cursor.next protocol batch 0 0 keys = (.ok (some entry, cursor), keys))
    (hkey : cursor.key = log) (hseq : cursor.after.seq = 0)
    (hf : Follows view.toLiveViewDiff bodies sub.subscription.version (entry :: cursor.pending)
      cursor.after.ms) :
    ∃ event next, sub.subscription.recv view.toLiveViewDiff protocol batch keys =
        (.ok (some event, next), keys) ∧
      Synced view.toLiveViewDiff bodies log ⟨next, sub.start, sub.seen ++ [event]⟩ := by
  cases hf with
  | @cons _ v' _ _ _ body sound hv hread hrest =>
    have hle := le_length_of_bodyAt h.body
    obtain ⟨event, hparse, hversion, hupdate, hsnapshot⟩ := parseEvent_of_sound sound h.body (by omega)
      (h.version ▸ hread)
    rw [h.version] at hparse hsnapshot
    subst hversion
    refine ⟨event, ⟨cursor, event.version⟩, ?_, h.snoc hkey hseq hv sound.committed hupdate hsnapshot hrest⟩
    unfold LiveViewSubscription.recv
    rw [bind_of_ok hnext]
    simp only [hparse, bind_ofResult_ok, pure_apply]

/-- **A round of `recv` gives the next event, or the subscriber is at the head.** -/
theorem recv_of_synced {k : Kept} (hlog : keys log = some (.stream ⟨k.entries, ⟨k.version, 0⟩⟩))
    (hr : Recorded view.toLiveViewDiff bodies k) (protocol : Protocol) {batch : ℕ} (hbatch : 0 < batch) :
    (sub.subscription.recv view.toLiveViewDiff protocol batch keys =
        (.ok (none, sub.subscription), keys) ∧ (sub.latest view.toLiveViewDiff).version = k.version) ∨
    ∃ event next, sub.subscription.recv view.toLiveViewDiff protocol batch keys =
        (.ok (some event, next), keys) ∧
      Synced view.toLiveViewDiff bodies log ⟨next, sub.start, sub.seen ++ [event]⟩ := by
  cases hp : sub.subscription.cursor.pending with
  | cons entry rest =>
    refine Or.inr (recv_of_next h hrange (next_of_pending protocol batch 0 0 hp) h.key h.seq ?_)
    exact hp ▸ h.pending
  | nil =>
    have hms : sub.subscription.cursor.after.ms = sub.subscription.version := by
      have hpending := h.pending
      rw [hp] at hpending
      exact hpending.eq_of_nil.symm
    have hafter : sub.subscription.cursor.after = ⟨sub.subscription.version, 0⟩ :=
      EntryId.mk.injEq .. ▸ ⟨hms, h.seq⟩
    have hle : sub.subscription.version ≤ k.version := by
      rw [hr.version, ← h.version]
      exact le_length_of_bodyAt h.body
    have hs : streamAt sub.subscription.cursor.key keys =
        (.ok ⟨k.entries, ⟨k.version, 0⟩⟩, keys) := streamAt_of_stream (h.key ▸ hlog)
    have hf := hr.entries.after (Nat.zero_le _) hle
    rw [← hafter] at hf
    by_cases hnil : Stream.after ⟨k.entries, ⟨k.version, 0⟩⟩ sub.subscription.cursor.after = []
    · -- The log ends at the version of the subscription.
      refine Or.inl ⟨?_, ?_⟩
      · unfold LiveViewSubscription.recv
        rw [bind_of_ok (next_of_nil protocol hp hs not_blockRefused_forever hnil)]
        rfl
      · rw [show (k.entries.filter fun entry => sub.subscription.cursor.after.streamId.lt entry.id) = [] from
          hnil] at hf
        rw [h.version]
        exact hf.eq_of_nil
    · -- A batch of the entries after it is read.
      have hparse := parsable_entries (k := k) (hr.version ▸ hrange)
      obtain ⟨entry, rest, htake, hnext⟩ := next_of_cons protocol hp hs not_blockRefused_forever hbatch hparse hnil
      obtain ⟨w, hw⟩ := hf.take batch
      have hbatchEntries : (((k.entries.filter fun entry =>
          sub.subscription.cursor.after.streamId.lt entry.id).map entryOf).take batch) =
            entryOf entry :: rest.map entryOf := by
        rw [← List.map_take]
        exact congrArg (List.map entryOf) htake
      rw [hbatchEntries] at hw
      have hlast : (entryOf ((entry :: rest).getLast (List.cons_ne_nil _ _))).id = ⟨w, 0⟩ := by
        rw [← hw.getLast (List.cons_ne_nil _ _)]
        exact congrArg Entry.id (List.getLast_map (f := entryOf) (l := entry :: rest) (by simp)).symm
      rw [hlast] at hnext
      exact Or.inr (recv_of_next h hrange hnext h.key rfl hw)

end Recv

/-! ### Runs -/

/-- What the writers keep and the subscriber has read, in a state of a run. -/
structure Tracked (view : LiveView B D) (name : Bytes) (s : Followed B D) (k : Option Kept) : Prop where
  holds : HoldsAt view name s.keys k
  fits : ∀ kept, k = some kept → kept.Fits view
  records : Records view.toLiveViewDiff (s.events.foldl bodiesStep []) k
  synced : ∀ sub, s.subscriber = some sub →
    Synced view.toLiveViewDiff (s.events.foldl bodiesStep []) (view.keys name).2 sub

variable {s s' : Followed B D} {k : Option Kept}

/-- A subscriber is only where the view is. -/
theorem Tracked.exists_kept (h : Tracked view name s k) (hsub : s.subscriber = some sub) :
    ∃ kept, k = some kept := by
  cases k with
  | some kept => exact ⟨kept, rfl⟩
  | none =>
    have hnil : s.events.foldl bodiesStep [] = [] := h.records
    have hbody := (h.synced sub hsub).body
    rw [hnil] at hbody
    have hle := le_length_of_bodyAt hbody
    rw [Nat.le_zero.mp hle] at hbody
    cases hbody

theorem Tracked.length_lt {kept : Kept} (h : Tracked view name s (some kept)) :
    (s.events.foldl bodiesStep []).length < 2 ^ 53 := by
  have hr : Recorded view.toLiveViewDiff (s.events.foldl bodiesStep []) kept := h.records
  rw [← hr.version]
  exact (h.fits kept rfl).version

theorem Tracked.subscribe_of_none (h : Tracked view name s none) :
    view.subscribe name s.keys = (.ok none, s.keys) := by
  unfold LiveView.subscribe
  exact bind_of_ok (get_of_none h.holds)

theorem Tracked.subscribe_of_some {kept : Kept} (h : Tracked view name s (some kept)) :
    ∃ latest : Versioned B, s.bodyAt latest.version = some latest.body ∧ view.subscribe name s.keys =
      (.ok (some (latest, .new (view.keys name).2 latest.version)), s.keys) := by
  have hr : Recorded view.toLiveViewDiff (s.events.foldl bodiesStep []) kept := h.records
  obtain ⟨body, hbody, hhead⟩ := hr.head
  refine ⟨⟨kept.version, body⟩, hbody, ?_⟩
  unfold LiveView.subscribe
  exact bind_of_ok (get_of_some h.holds (h.fits kept rfl).version hhead)

theorem Tracked.recv {kept : Kept} (h : Tracked view name s (some kept)) (hsub : s.subscriber = some sub)
    (protocol : Protocol) {batch : ℕ} (hbatch : 0 < batch) :
    (sub.subscription.recv view.toLiveViewDiff protocol batch s.keys =
        (.ok (none, sub.subscription), s.keys) ∧
      (sub.latest view.toLiveViewDiff).version = kept.version) ∨
    ∃ event next, sub.subscription.recv view.toLiveViewDiff protocol batch s.keys =
        (.ok (some event, next), s.keys) ∧
      Synced view.toLiveViewDiff (s.events.foldl bodiesStep []) (view.keys name).2
        ⟨next, sub.start, sub.seen ++ [event]⟩ :=
  recv_of_synced (h.synced sub hsub) h.length_lt h.holds.2 h.records protocol hbatch

/-- What one write preserves. -/
theorem Tracked.write (h : Tracked view name s k) (hround : view.body.RoundTrips)
    (hdiff : view.diff.RoundTrips) {op : Op B D} (hop : op ≠ .remove)
    (range : ∀ version, HeadAt view name (op.exec view name s.keys).2 version → version < 2 ^ 53)
    (honest : Honest view (s.events ++ [(op, (op.exec view name s.keys).1)])) :
    ∃ k', Tracked view name ⟨(op.exec view name s.keys).2,
      s.events ++ [(op, (op.exec view name s.keys).1)], s.subscriber⟩ k' := by
  obtain ⟨k', hs⟩ := stepped op h.holds
  obtain ⟨hholds, hfits⟩ := hs.holds h.holds h.fits range
  obtain ⟨hrecords, hgrow⟩ := hs.records hop hround hdiff h.records fun parent diff body version he => by
    rw [← foldl_bodyStep s.events []]
    exact honest.last parent diff body version he
  refine ⟨k', hholds, hfits, ?_, fun sub hsub => ?_⟩
  · rw [List.foldl_append]
    exact hrecords
  · have hsynced := h.synced sub hsub
    rw [List.foldl_append, List.foldl_cons, List.foldl_nil]
    rcases hgrow with hsame | ⟨last, hlast⟩
    · rw [hsame]
      exact hsynced
    · rw [hlast]
      exact hsynced.append last

/-- **What one step preserves.** -/
theorem Tracked.follow (h : Tracked view name s k) (hround : view.body.RoundTrips)
    (hdiff : view.diff.RoundTrips) {move : Move B D} (hs : Follow view name s move s')
    (honest : Honest view s'.events) : ∃ k', Tracked view name s' k' := by
  cases hs with
  | write op hop range => exact h.write hround hdiff hop range honest
  | @subscribed latest subscription keys hsubscribe =>
    cases k with
    | none =>
      rw [h.subscribe_of_none] at hsubscribe
      cases hsubscribe
    | some kept =>
      obtain ⟨held, hbody, hok⟩ := h.subscribe_of_some
      rw [hok] at hsubscribe
      cases hsubscribe
      refine ⟨some kept, h.holds, h.fits, h.records, ?_⟩
      rintro _ ⟨⟩
      exact synced_new _ hbody
  | @absent keys hsubscribe =>
    cases k with
    | none =>
      rw [h.subscribe_of_none] at hsubscribe
      cases hsubscribe
      exact ⟨none, h⟩
    | some kept =>
      obtain ⟨held, hbody, hok⟩ := h.subscribe_of_some
      rw [hok] at hsubscribe
      cases hsubscribe
  | @resumed held hheld =>
    refine ⟨k, h.holds, h.fits, h.records, ?_⟩
    rintro _ ⟨⟩
    exact synced_new _ hheld
  | @received sub protocol batch event next keys hsub hbatch hrecv =>
    obtain ⟨kept, rfl⟩ := h.exists_kept hsub
    rcases h.recv hsub protocol hbatch with ⟨hwait, -⟩ | ⟨event', next', hok, hsynced⟩
    · rw [hwait] at hrecv
      cases hrecv
    · rw [hok] at hrecv
      cases hrecv
      refine ⟨some kept, h.holds, h.fits, h.records, ?_⟩
      rintro _ ⟨⟩
      exact hsynced
  | @waiting sub protocol batch next keys hsub hbatch hrecv =>
    obtain ⟨kept, rfl⟩ := h.exists_kept hsub
    rcases h.recv hsub protocol hbatch with ⟨hwait, -⟩ | ⟨event', next', hok, hsynced⟩
    · rw [hwait] at hrecv
      cases hrecv
      refine ⟨some kept, h.holds, h.fits, h.records, ?_⟩
      rintro _ ⟨⟩
      exact h.synced sub hsub
    · rw [hok] at hrecv
      cases hrecv

theorem Honest.of_follow {move : Move B D} (hs : Follow view name s move s')
    (honest : Honest view s'.events) : Honest view s.events := by
  cases hs with
  | write op hop range => exact honest.init
  | subscribed h => exact honest
  | absent h => exact honest
  | resumed h => exact honest
  | received hsub hbatch h => exact honest
  | waiting hsub hbatch h => exact honest

/-- **Subscribers of a live view converge.** In every state of a run of creations, commits whose
bodies are their parents' with the diffs applied, subscriptions, resumptions and reads, from absent
keys: `subscribe` succeeds; the subscriber started from a committed body, and each event moved it to a
later committed body, the next one unless the event is a snapshot; `recv` succeeds with batches of
any size, and what it waits with is the latest version. -/
theorem subscribers_converge (view : LiveView B D) (hround : view.body.RoundTrips)
    (hdiff : view.diff.RoundTrips) (name : Bytes) {keys : Keyspace} {moves : List (Move B D)}
    {s : Followed B D} (hhead : keys (view.keys name).1 = none) (hlog : keys (view.keys name).2 = none)
    (run : Steps (Follow view name) ⟨keys, [], none⟩ moves s) (honest : Honest view s.events) :
    (∃ result, view.subscribe name s.keys = (.ok result, s.keys)) ∧
    ∀ sub, s.subscriber = some sub →
      s.bodyAt sub.start.version = some sub.start.body ∧
      (∀ before event rest, sub.seen = before ++ event :: rest →
        Advances view.toLiveViewDiff s.bodyAt
          (before.foldl (Versioned.update view.toLiveViewDiff) sub.start) event) ∧
      ∀ protocol batch, 0 < batch → ∃ result next,
        sub.subscription.recv view.toLiveViewDiff protocol batch s.keys = (.ok (result, next), s.keys) ∧
          (result = none →
            view.get name s.keys = (.ok (some (sub.latest view.toLiveViewDiff)), s.keys)) := by
  have htracked : Honest view s.events → ∃ k, Tracked view name s k := by
    refine Steps.invariant (p := fun _ s => Honest view s.events → ∃ k, Tracked view name s k)
      (fun _ => ⟨none, ⟨hhead, hlog⟩, by simp, by rfl, by simp⟩) (fun _ ih hs honest => ?_) run
    obtain ⟨k, h⟩ := ih (honest.of_follow hs)
    exact h.follow hround hdiff hs honest
  obtain ⟨k, h⟩ := htracked honest
  refine ⟨?_, fun sub hsub => ?_⟩
  · cases k with
    | none => exact ⟨none, h.subscribe_of_none⟩
    | some kept =>
      obtain ⟨latest, -, hok⟩ := h.subscribe_of_some
      exact ⟨_, hok⟩
  · have hsynced := h.synced sub hsub
    refine ⟨hsynced.start, hsynced.seen, fun protocol batch hbatch => ?_⟩
    obtain ⟨kept, rfl⟩ := h.exists_kept hsub
    rcases h.recv hsub protocol hbatch with ⟨hwait, hversion⟩ | ⟨event, next, hok, -⟩
    · refine ⟨none, _, hwait, fun _ => ?_⟩
      have hr : Recorded view.toLiveViewDiff (s.events.foldl bodiesStep []) kept := h.records
      obtain ⟨body, hbody, hdes⟩ := hr.head
      have hlatest : sub.latest view.toLiveViewDiff = ⟨kept.version, body⟩ := by
        have hheld := hsynced.body
        rw [hversion, hbody] at hheld
        exact Versioned.mk.injEq .. ▸ ⟨hversion, (Option.some.inj hheld).symm⟩
      rw [hlatest]
      exact get_of_some h.holds (h.fits kept rfl).version hdes
    · exact ⟨some event, next, hok, by simp⟩

/-! ### A subscriber of a counter -/

theorem Op.create_ne_remove (body : B) : (Op.create body : Op B D) ≠ .remove := by simp

theorem Op.commit_ne_remove (parent : ℕ) (diff : D) (body : B) : Op.commit parent diff body ≠ .remove := by
  simp

/-- A write whose result is known. -/
theorem Follow.of_exec {op : Op B D} (hop : op ≠ .remove) {result : Except Error Outcome} {kept : Kept}
    (he : op.exec view name s.keys = (result, keys)) (h : HoldsAt view name keys (some kept))
    (hv : kept.version < 2 ^ 53) :
    Follow view name s (.write op) ⟨keys, s.events ++ [(op, result)], s.subscriber⟩ := by
  have hs := Follow.write (s := s) op hop fun version hver => by
    rw [he] at hver
    rw [(headAt_iff h).mp hver]
    exact hv
  rwa [he] at hs

/-- A subscription between the creation and a commit that squashes the log. -/
def counterMoves : List (Move ℕ ℕ) := [.write (.create 5), .subscribe, .write (.commit 1 2 7)]

theorem counter_followed : ∃ keys, Steps (Follow counter []) ⟨fun _ => none, [], none⟩ counterMoves
    ⟨keys, counterEvents, some ⟨.new (counter.keys []).2 1, ⟨1, 5⟩, []⟩⟩ := by
  have hnone : HoldsAt counter [] (fun _ => none) none := ⟨rfl, rfl⟩
  have hdecimal : ∀ n, natCodec.serialize n = .ok (decimal n) := fun _ => rfl
  obtain ⟨keys, hc, hk⟩ := create_of_none hnone (hdecimal 5)
  obtain ⟨keys', hc', hk'⟩ := commit_of_version (hdecimal 2) (hdecimal 7) hk
  have hget := get_of_some hk (by decide) (natCodec_roundTrips.deserialize (hdecimal 5))
  have h1 := Steps.nil.snoc (Follow.of_exec (s := ⟨fun _ => none, [], none⟩) (Op.create_ne_remove 5)
    (bind_of_ok hc) hk (by decide))
  have h2 := h1.snoc (Follow.subscribed (bind_of_ok hget))
  refine ⟨keys', h2.snoc (Follow.of_exec (Op.commit_ne_remove 1 2 7) (bind_of_ok hc') hk' ?_)⟩
  rw [Kept.version_committed]
  decide

theorem subscribers_converge_counter : ∃ s sub result next,
    Steps (Follow counter []) ⟨fun _ => none, [], none⟩ counterMoves s ∧ s.subscriber = some sub ∧
      s.bodyAt 2 = some 7 ∧
      sub.subscription.recv counter.toLiveViewDiff .resp3 128 s.keys = (.ok (result, next), s.keys) := by
  obtain ⟨keys, run⟩ := counter_followed
  obtain ⟨-, h⟩ := subscribers_converge counter natCodec_roundTrips natCodec_roundTrips [] rfl rfl run
    counter_honest
  obtain ⟨-, -, hrecv⟩ := h _ rfl
  obtain ⟨result, next, hok, -⟩ := hrecv .resp3 128 (by decide)
  exact ⟨_, _, result, next, run, rfl, rfl, hok⟩

end Wakuwaku.Entity.Redis.Dynamic.LiveView
