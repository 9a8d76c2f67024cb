import Wakuwaku.Redis.Local
import Wakuwaku.Entity.Redis.Items
import Wakuwaku.Entity.Redis.Collection.Cache.Runs
import Wakuwaku.Entity.Redis.Collection.Lock.Exclusion
import Wakuwaku.Entity.Redis.Dynamic.LiveView.Subscription
import Wakuwaku.Entity.Redis.Dynamic.StreamBuffer.Contents

/-! # Items do not influence each other

Every query of a structure keeps to the keys of its item (`Query.within`), and items of different kinds or
texts share no key (`disjoint_keys`). So what other clients do to other items never shows: a query is
answered as if there were no others (`items_alone`). -/

namespace Wakuwaku.Entity.Redis

open Wakuwaku.Redis Wakuwaku.Entity.Redis.Collection Wakuwaku.Entity.Redis.Dynamic

variable {B D : Type} {keys : Set Bytes} {key : Bytes}

/-! ### Caches -/

theorem unlinkKey_within (hkey : key ∈ keys) : Command.Within keys (unlinkKey key) :=
  (exec_within (unlink_within (by simpa using hkey))).bind fun _ => .pure _

theorem CacheOp.within {codec : Codec B} {space : String} {name : Bytes} (hkey : Cache.key ⟨space, 0⟩ name ∈ keys)
    (op : CacheOp B) : Command.Within keys (op.exec codec space name) := by
  cases op with
  | get =>
    refine Command.Within.bind ?_ fun _ => .pure _
    refine (atKey_within hkey _).bind fun found => ?_
    cases found with
    | none => exact .pure _
    | some bytes => exact (Command.Within.ofResult _).bind fun _ => .pure _
  | put ttl body =>
    refine Command.Within.bind ?_ fun _ => .pure _
    exact (Command.Within.ofResult _).bind fun _ => atKey_within hkey _
  | remove => exact (unlinkKey_within hkey).bind fun _ => .pure _

theorem getIfChangedScript_within (hkey : key ∈ keys) (known : Bytes) :
    Command.Within keys (getIfChangedScript key known) := by
  refine (exec_within (hget_within hkey _)).bind fun hash => ?_
  cases hash with
  | none => exact .pure _
  | some hash =>
    show Command.Within keys (if hash = known then _ else _)
    split
    · exact .pure _
    · refine (exec_within (hget_within hkey _)).bind fun body => ?_
      cases body with
      | none => exact .pure _
      | some body => exact .pure _

theorem HashedOp.within {codec : Codec B} {blake3 : Bytes → Hash} {space : String} {name : Bytes}
    (hkey : HashedCache.key ⟨space, 0⟩ name ∈ keys) (op : HashedOp B) :
    Command.Within keys (op.exec codec blake3 space name) := by
  cases op with
  | get =>
    refine Command.Within.bind ?_ fun _ => .pure _
    refine (exec_within (hmget_within hkey _)).bind fun found => ?_
    split
    · exact (Command.Within.ofResult _).bind fun _ => .pure _
    · exact .pure _
    · exact .fail _
  | hash =>
    refine Command.Within.bind ?_ fun _ => .pure _
    refine (exec_within (hget_within hkey _)).bind fun found => ?_
    cases found with
    | none => exact .pure _
    | some hash => exact (Command.Within.ofResult _).bind fun _ => .pure _
  | getIfChanged known =>
    refine Command.Within.bind ?_ fun _ => .pure _
    exact (getIfChangedScript_within hkey _).bind fun _ => .ofResult _
  | put ttl body =>
    refine Command.Within.bind ?_ fun _ => .pure _
    refine (Command.Within.ofResult _).bind fun _ => ?_
    exact ((exec_within (hset_within hkey _)).multi (atKey_within hkey _)).bind fun _ => .pure _
  | remove => exact (unlinkKey_within hkey).bind fun _ => .pure _

/-! ### Locks and buckets -/

theorem releaseScript_within (hkey : key ∈ keys) (token : Bytes) : Command.Within keys (releaseScript key token) := by
  refine (atKey_within hkey _).bind fun found => ?_
  split
  · exact atKey_within hkey _
  · exact .pure _

theorem extendScript_within (hkey : key ∈ keys) (token : Bytes) (ttl : ℕ) :
    Command.Within keys (extendScript key token ttl) := by
  refine (atKey_within hkey _).bind fun found => ?_
  split
  · exact atKey_within hkey _
  · exact .pure _

theorem Collection.LockOp.within {space : String} {name : Bytes} (hkey : lockKey space name ∈ keys) (op : LockOp) :
    Command.Within keys (op.exec space name) := by
  cases op with
  | tryLock ttl token =>
    refine Command.Within.bind ?_ fun _ => .pure _
    exact (atKey_within hkey _).bind fun _ => .pure _
  | extend ttl token => exact (extendScript_within hkey _ _).bind fun _ => .pure _
  | release token => exact (releaseScript_within hkey _).bind fun _ => .pure _

theorem pexpireText_within (hkey : key ∈ keys) (text : Bytes) : Command.Within keys (pexpireText key text) := by
  unfold pexpireText
  split
  · exact .fail _
  · exact atKey_within hkey _
  · exact atKey_within hkey _

theorem outlive_within (hkey : key ∈ keys) (numbers : LuaNumbers) (ttl : ℕ) :
    Command.Within keys (outlive numbers key ttl) := by
  refine (atKey_within hkey _).bind fun left => ?_
  split
  · exact (pexpireText_within hkey _).bind fun _ => .pure _
  · exact .pure _

section RwLock

variable {writer readers : Bytes} (hw : writer ∈ keys) (hr : readers ∈ keys)
include hw hr

theorem readAcquireScript_within (numbers : LuaNumbers) (token : Bytes) (ttl : ℕ) :
    Command.Within keys (readAcquireScript numbers writer readers token ttl) := by
  refine luaNow_within.bind fun now => (atKey_within hw _).bind fun held => ?_
  split
  · exact .pure _
  · refine (atSortedSet_within hr _).bind fun _ => (atSortedSet_within hr _).bind fun _ => ?_
    exact (outlive_within hr numbers _).bind fun _ => .pure _

theorem writeAcquireScript_within (token : Bytes) (ttl : ℕ) :
    Command.Within keys (writeAcquireScript writer readers token ttl) := by
  refine luaNow_within.bind fun now => (atSortedSet_within hr _).bind fun _ => ?_
  refine (atSortedSet_within hr _).bind fun _ => ?_
  split
  · exact .pure _
  · refine (atKey_within hw _).bind fun set => ?_
    split
    · exact .pure _
    · exact .pure _

end RwLock

theorem readExtendScript_within (hkey : key ∈ keys) (numbers : LuaNumbers) (token : Bytes) (ttl : ℕ) :
    Command.Within keys (readExtendScript numbers key token ttl) := by
  refine luaNow_within.bind fun now => (atSortedSet_within hkey _).bind fun expiry => ?_
  cases expiry with
  | none => exact .pure _
  | some expiry =>
    show Command.Within keys (if expiry ≤ now then _ else _)
    split
    · exact .pure _
    · exact (atSortedSet_within hkey _).bind fun _ => (outlive_within hkey numbers _).bind fun _ => .pure _

theorem readReleaseScript_within (hkey : key ∈ keys) (token : Bytes) :
    Command.Within keys (readReleaseScript key token) := by
  refine luaNow_within.bind fun now => (atSortedSet_within hkey _).bind fun expiry => ?_
  cases expiry with
  | none => exact .pure _
  | some expiry =>
    refine (atSortedSet_within hkey _).bind fun _ => ?_
    split
    · exact .pure _
    · exact .pure _

theorem Collection.LeaseOp.within {space : String} {name : Bytes} (hw : (RwLock.keys ⟨space, 0⟩ name).1 ∈ keys)
    (hr : (RwLock.keys ⟨space, 0⟩ name).2 ∈ keys) (numbers : LuaNumbers) (op : LeaseOp) :
    Command.Within keys (op.exec numbers space name) := by
  cases op with
  | tryRead ttl token =>
    refine Command.Within.bind ?_ fun _ => .pure _
    exact (readAcquireScript_within hw hr numbers _ _).bind fun _ => .pure _
  | tryWrite ttl token =>
    refine Command.Within.bind ?_ fun _ => .pure _
    exact (writeAcquireScript_within hw hr _ _).bind fun _ => .pure _
  | extendRead ttl token => exact (readExtendScript_within hr numbers _ _).bind fun _ => .pure _
  | extendWrite ttl token => exact (extendScript_within hw _ _).bind fun _ => .pure _
  | releaseRead token => exact (readReleaseScript_within hr _).bind fun _ => .pure _
  | releaseWrite token => exact (releaseScript_within hw _).bind fun _ => .pure _

/-- A query of a client, on a bucket. -/
inductive BucketOp where
  | acquire (cost : ℕ)
  | reset

inductive BucketAnswer where
  | admission (admission : Admission)
  | reset (used : Bool)

def BucketOp.exec (nums : NumberText) (bucket : TokenBucket) (name : Bytes) : BucketOp → Command BucketAnswer
  | .acquire cost => do return .admission (← bucket.acquire nums name cost)
  | .reset => do return .reset (← bucket.reset name)

theorem storeBucket_within (hkey : key ∈ keys) (nums : NumberText) (capacity refill periodUs tokens now : ℚ) :
    Command.Within keys (storeBucket nums key capacity refill periodUs tokens now) :=
  (exec_within (hset_within hkey _)).bind fun _ => (pexpireText_within hkey _).bind fun _ => .pure _

theorem acquireScript_within (hkey : key ∈ keys) (nums : NumberText) (capacity refill periodUs cost : ℚ) :
    Command.Within keys (acquireScript nums key capacity refill periodUs cost) := by
  refine luaNow_within.bind fun now => (exec_within (hmget_within hkey _)).bind fun state => ?_
  dsimp only
  split
  · exact .pure _
  · split
    · exact (storeBucket_within hkey _ _ _ _ _ _).bind fun _ => .pure _
    · exact (storeBucket_within hkey _ _ _ _ _ _).bind fun _ => .pure _

theorem BucketOp.within {bucket : TokenBucket} {name : Bytes} (hkey : bucket.key name ∈ keys) (nums : NumberText)
    (op : BucketOp) : Command.Within keys (op.exec nums bucket name) := by
  cases op with
  | acquire cost =>
    refine Command.Within.bind ?_ fun _ => .pure _
    exact (acquireScript_within hkey _ _ _ _ _).bind fun _ => .pure _
  | reset =>
    refine Command.Within.bind ?_ fun _ => .pure _
    exact (atKey_within hkey _).bind fun _ => .pure _

/-! ### Pipes -/

/-- What the two ends of a pipe do. -/
inductive PipeOp (B : Type) where
  | send (body : B)
  | close
  | recv (closed : Bool)

inductive PipeAnswer (B : Type) where
  | sent
  | received (body : Option B) (closed : Bool)

def PipeOp.exec (pipe : Pipe B) (name : Bytes) : PipeOp B → Command (PipeAnswer B)
  | .send body => do
    pipe.send name body
    return .sent
  | .close => do
    pipe.close name
    return .sent
  | .recv closed => do
    let (body, receiver) ← PipeReceiver.recv pipe.codec { pipe.receive name with closed }
    return .received body receiver.closed

theorem push_within (hkey : key ∈ keys) (value : Bytes) (ttl : ℕ) : Command.Within keys (push key value ttl) :=
  (atKey_within hkey _).bind fun _ => (atKey_within hkey _).bind fun _ => .pure _

theorem recv_within {codec : Codec B} {receiver : PipeReceiver} (hm : receiver.messages ∈ keys)
    (hc : receiver.close ∈ keys) : Command.Within keys (receiver.recv codec) := by
  unfold PipeReceiver.recv
  split
  · exact .pure _
  · refine (blpop_within (by simp [hm, hc])).bind fun popped => ?_
    match popped with
    | none => exact .fail _
    | some (from_, body) =>
      show Command.Within keys (if from_ = receiver.close then _ else _)
      split
      · exact .pure _
      · exact (Command.Within.ofResult _).bind fun _ => .pure _

theorem PipeOp.within {pipe : Pipe B} {name : Bytes} (hm : (pipe.keys name).1 ∈ keys)
    (hc : (pipe.keys name).2 ∈ keys) (op : PipeOp B) : Command.Within keys (op.exec pipe name) := by
  cases op with
  | send body =>
    refine Command.Within.bind ?_ fun _ => .pure _
    exact (Command.Within.ofResult _).bind fun _ => push_within hm _ _
  | close => exact (push_within hc _ _).bind fun _ => .pure _
  | recv closed => exact Command.Within.bind (recv_within hm hc) fun _ => .pure _

/-! ### Live views -/

theorem next_within {cursor : StreamCursor} (hkey : cursor.key ∈ keys) (protocol : Protocol) (batch now block : ℕ) :
    Action.Within keys (cursor.next protocol batch now block) := by
  unfold StreamCursor.next
  split
  · exact .pure _
  · refine (xread_within hkey _ _ _ _ _).bind fun reply => (Action.Within.ofResult _).bind fun entries => ?_
    cases entries with
    | none => exact .pure _
    | some entries => exact .pure _

/-- What clients ask about a live view. A subscription is the version it has reached, with the entries it has
read. -/
inductive LiveViewOp (B D : Type) where
  | write (op : LiveView.Op B D)
  | get
  | version
  | history
  | subscribe
  | recv (protocol : Protocol) (batch : ℕ) (after : EntryId) (pending : List Entry) (reached : ℕ)

inductive LiveViewAnswer (B D : Type) where
  | written (outcome : LiveView.Outcome)
  | latest (held : Option (Versioned B))
  | version (version : Option ℕ)
  | history (history : Option (History B D))
  | subscribed (latest : Option (Versioned B × LiveViewSubscription))
  | received (event : Option (LiveViewEvent B D)) (subscription : LiveViewSubscription)

def LiveViewOp.exec (view : LiveView B D) (name : Bytes) : LiveViewOp B D → Action (LiveViewAnswer B D)
  | .write op => do return .written (← op.exec view name)
  | .get => do return .latest (← view.get name)
  | .version => do return .version (← view.version name)
  | .history => do return .history (← view.history name)
  | .subscribe => do return .subscribed (← view.subscribe name)
  | .recv protocol batch after pending reached => do
    let (event, subscription) ← LiveViewSubscription.recv view.toLiveViewDiff protocol batch
      ⟨⟨(view.keys name).2, after, pending⟩, reached⟩
    return .received event subscription

section LiveView

variable {head log : Bytes} (hh : head ∈ keys) (hl : log ∈ keys)
include hh hl

theorem createScript_within (body : Bytes) : Action.Within keys (createScript head log body) := by
  refine (existsKey_within hh).bind fun held => ?_
  split
  · exact .pure _
  · refine (hset_within hh _).bind fun _ => (unlink_within (by simpa using hl)).bind fun _ => ?_
    exact (xadd_within hl _ _).bind fun _ => .pure _

omit hh hl in
theorem tonumber_within (text : Bytes) : Action.Within keys (tonumber text) := by
  unfold tonumber
  split
  · exact .pure _
  · exact .fail _

omit hh in
theorem extendLog_within (version diff body maxDiffs : Bytes) :
    Action.Within keys (extendLog log version diff body maxDiffs) := by
  refine (xlen_within hl).bind fun length => (tonumber_within _).bind fun bound => ?_
  split
  · exact (xtrimAll_within hl).bind fun _ => xadd_within hl _ _
  · exact xadd_within hl _ _

theorem commitScript_within (parent diff body maxDiffs : Bytes) :
    Action.Within keys (commitScript head log parent diff body maxDiffs) := by
  refine (hget_within hh _).bind fun current => ?_
  cases current with
  | none => exact .pure _
  | some current =>
    show Action.Within keys (if current ≠ parent then _ else _)
    split
    · exact (tonumber_within _).bind fun _ => .pure _
    · refine (tonumber_within _).bind fun _ => (hset_within hh _).bind fun _ => ?_
      exact (extendLog_within hl _ _ _ _).bind fun _ => (tonumber_within _).bind fun _ => .pure _

omit hl in
theorem readHead_within (codec : Codec B) : Action.Within keys (readHead codec head) := by
  refine (hmget_within hh _).bind fun found => ?_
  split
  · exact (Action.Within.ofResult _).bind fun _ => (Action.Within.ofResult _).bind fun _ => .pure _
  · exact .pure _
  · exact .ofResult _

end LiveView

theorem LiveViewOp.within {view : LiveView B D} {name : Bytes} (hh : (view.keys name).1 ∈ keys)
    (hl : (view.keys name).2 ∈ keys) (op : LiveViewOp B D) : Action.Within keys (op.exec view name) := by
  cases op with
  | write op =>
    refine Action.Within.bind ?_ fun _ => .pure _
    cases op with
    | create body =>
      refine Action.Within.bind ?_ fun _ => .pure _
      exact (Action.Within.ofResult _).bind fun _ => (createScript_within hh hl _).bind fun _ => .pure _
    | commit parent diff body =>
      refine Action.Within.bind ?_ fun _ => .pure _
      refine (Action.Within.ofResult _).bind fun _ => (Action.Within.ofResult _).bind fun _ => ?_
      exact (commitScript_within hh hl _ _ _ _).bind fun _ => .ofResult _
    | remove =>
      refine Action.Within.bind ?_ fun _ => .pure _
      exact (unlink_within (by simp [hh, hl])).bind fun _ => .pure _
  | get => exact (readHead_within hh _).bind fun _ => .pure _
  | version =>
    refine Action.Within.bind ?_ fun _ => .pure _
    refine (hget_within hh _).bind fun version => ?_
    cases version with
    | none => exact .pure _
    | some version => exact (Action.Within.ofResult _).bind fun _ => .pure _
  | history =>
    refine Action.Within.bind ?_ fun _ => .pure _
    exact (xrange_within hl).bind fun _ => (Action.Within.ofResult _).bind fun _ => .ofResult _
  | subscribe =>
    refine Action.Within.bind ?_ fun _ => .pure _
    refine (readHead_within hh _).bind fun latest => ?_
    cases latest with
    | none => exact .pure _
    | some latest => exact .pure _
  | recv protocol batch after pending reached =>
    refine Action.Within.bind ?_ fun _ => .pure _
    refine (next_within hl _ _ _ _).bind fun step => ?_
    obtain ⟨entry, cursor⟩ := step
    cases entry with
    | none => exact .pure _
    | some entry => exact (Action.Within.ofResult _).bind fun _ => .pure _

/-! ### Stream buffers -/

/-- What clients ask about a stream buffer. A subscription is the index it has reached, with the entries it
has read. -/
inductive BufferOp (B : Type) where
  | append (body : B)
  | finish
  | read (first : ℕ)
  | remove
  | recv (protocol : Protocol) (batch : ℕ) (after : EntryId) (pending : List Entry) (ended : Bool)
  | check (after : EntryId) (pending : List Entry) (ended : Bool)

inductive BufferAnswer (B : Type) where
  | appended (index : Option ℕ)
  | finished (done : Bool)
  | contents (contents : Contents B)
  | removed (present : Bool)
  | round (round : Round B) (subscription : StreamBufferSubscription)

def BufferOp.exec (buffer : StreamBuffer B) (name : Bytes) : BufferOp B → Command (BufferAnswer B)
  | .append body => do return .appended (← buffer.append name body)
  | .finish => do return .finished (← buffer.finish name)
  | .read first => do return .contents (← buffer.read name first)
  | .remove => do return .removed (← buffer.remove name)
  | .recv protocol batch after pending ended => do
    let (round, subscription) ← StreamBufferSubscription.read buffer.codec protocol batch
      ⟨⟨buffer.key name, after, pending⟩, buffer.ttl, ended⟩
    return .round round subscription
  | .check after pending ended => do
    let (round, subscription) ← StreamBufferSubscription.check ⟨⟨buffer.key name, after, pending⟩, buffer.ttl, ended⟩
    return .round round subscription

theorem addEntry_within (hkey : key ∈ keys) (fields : List (Bytes × Bytes)) (ttl : ℕ) :
    Command.Within keys (addEntry key fields ttl) := by
  refine (exec_within (xrevrangeLast_within hkey)).bind fun last => ?_
  split
  · exact .pure _
  · refine (exec_within (xlen_within hkey)).bind fun length => ?_
    refine (exec_within (xadd_within hkey _ _)).bind fun _ => ?_
    exact (atKey_within hkey _).bind fun _ => .pure _

theorem BufferOp.within {buffer : StreamBuffer B} {name : Bytes} (hkey : buffer.key name ∈ keys)
    (op : BufferOp B) : Command.Within keys (op.exec buffer name) := by
  cases op with
  | append body =>
    refine Command.Within.bind ?_ fun _ => .pure _
    refine (Command.Within.ofResult _).bind fun _ => Command.Within.bind ?_ fun _ => .pure _
    refine (addEntry_within hkey _ _).bind fun index => ?_
    cases index with
    | none => exact .pure _
    | some index => exact .pure _
  | finish =>
    refine Command.Within.bind ?_ fun _ => .pure _
    refine Command.Within.bind ?_ fun _ => .pure _
    refine (addEntry_within hkey _ _).bind fun index => ?_
    cases index with
    | none => exact .pure _
    | some index => exact .pure _
  | read first =>
    refine Command.Within.bind ?_ fun _ => .pure _
    refine (exec_within (xrangeFrom_within hkey _)).bind fun _ => ?_
    exact (Command.Within.ofResult _).bind fun _ => .ofResult _
  | remove =>
    refine Command.Within.bind ?_ fun _ => .pure _
    exact (exec_within (unlink_within (by simpa using hkey))).bind fun _ => .pure _
  | recv protocol batch after pending ended =>
    refine Command.Within.bind ?_ fun _ => .pure _
    unfold StreamBufferSubscription.read
    split
    · exact .pure _
    · refine (execAt_within fun _ => next_within hkey _ _ _ _).bind fun step => ?_
      obtain ⟨entry, cursor⟩ := step
      cases entry with
      | none => exact .pure _
      | some entry =>
        dsimp only
        split
        · exact .pure _
        · exact .pure _
        · exact .pure _
  | check after pending ended =>
    refine Command.Within.bind ?_ fun _ => .pure _
    refine (atKey_within hkey _).bind fun held => ?_
    split
    · exact .pure _
    · exact .pure _

/-! ### All of them -/

/-- A query on an item of a structure. -/
inductive Query : Type 1 where
  | cache {B : Type} (codec : Codec B) (space : String) (name : Bytes) (op : CacheOp B)
  | hashedCache {B : Type} (codec : Codec B) (blake3 : Bytes → Hash) (space : String) (name : Bytes) (op : HashedOp B)
  | lock (space : String) (name : Bytes) (op : LockOp)
  | rwLock (numbers : LuaNumbers) (space : String) (name : Bytes) (op : LeaseOp)
  | tokenBucket (nums : NumberText) (bucket : TokenBucket) (name : Bytes) (op : BucketOp)
  | pipe {B : Type} (ends : Pipe B) (name : Bytes) (op : PipeOp B)
  | liveView {B D : Type} (view : LiveView B D) (name : Bytes) (op : LiveViewOp B D)
  | streamBuffer {B : Type} (buffer : StreamBuffer B) (name : Bytes) (op : BufferOp B)

namespace Query

/-- The structure that is asked. The keys do not depend on its TTL. -/
def target : Query → Structure
  | .cache _ space _ _ => .cache ⟨space, 0⟩
  | .hashedCache _ _ space _ _ => .hashedCache ⟨space, 0⟩
  | .lock space _ _ => .lock ⟨space, 0⟩
  | .rwLock _ space _ _ => .rwLock ⟨space, 0⟩
  | .tokenBucket _ bucket _ _ => .tokenBucket bucket
  | .pipe ends _ _ => .pipe ends
  | .liveView view _ _ => .liveView view
  | .streamBuffer buffer _ _ => .streamBuffer buffer

def name : Query → Bytes
  | .cache _ _ name _ | .hashedCache _ _ _ name _ | .lock _ name _ | .rwLock _ _ name _ | .tokenBucket _ _ name _
  | .pipe _ name _ | .liveView _ name _ | .streamBuffer _ name _ => name

def Answer : Query → Type
  | .cache (B := B) _ _ _ _ => CacheAnswer B
  | .hashedCache (B := B) _ _ _ _ _ => HashedAnswer B
  | .lock _ _ _ => Bool
  | .rwLock _ _ _ _ => Bool
  | .tokenBucket _ _ _ _ => BucketAnswer
  | .pipe (B := B) _ _ _ => PipeAnswer B
  | .liveView (B := B) (D := D) _ _ _ => LiveViewAnswer B D
  | .streamBuffer (B := B) _ _ _ => BufferAnswer B

def exec : (query : Query) → Command query.Answer
  | .cache codec space name op => op.exec codec space name
  | .hashedCache codec blake3 space name op => op.exec codec blake3 space name
  | .lock space name op => op.exec space name
  | .rwLock numbers space name op => op.exec numbers space name
  | .tokenBucket nums bucket name op => op.exec nums bucket name
  | .pipe ends name op => op.exec ends name
  | .liveView view name op => Redis.exec (op.exec view name)
  | .streamBuffer buffer name op => op.exec buffer name

end Query

/-- The item of a query: the kind of its structure and the text of its keys. -/
def Query.item (query : Query) : Kind × Bytes := (query.target.kind, itemText query.target.space query.name)

/-- The keys of an item. -/
def keysOf (item : Kind × Bytes) : Set Bytes := fun key => ∃ wrap ∈ item.1.wraps, key = wrapText item.1 wrap item.2

theorem Query.mem_keysOf {query : Query} (h : key ∈ query.target.keys query.name) : key ∈ keysOf query.item := by
  rw [Structure.keys_eq] at h
  obtain ⟨wrap, hwrap, rfl⟩ := List.mem_map.mp h
  exact ⟨wrap, hwrap, rfl⟩

/-- **Items share no key.** -/
theorem disjoint_keys {i j : Kind × Bytes} (hne : i ≠ j) : ∀ key ∈ keysOf i, key ∉ keysOf j := by
  rintro key ⟨v, hv, rfl⟩ ⟨w, hw, hkey⟩
  obtain ⟨a, ha⟩ := List.getElem?_of_mem hv
  obtain ⟨b, hb⟩ := List.getElem?_of_mem hw
  obtain ⟨hkind, -, htext⟩ := (wrapText_inj ha hb).mp hkey
  exact hne (Prod.ext hkind htext)

/-- **A query keeps to the keys of its item.** -/
theorem Query.within (query : Query) : Command.Within (keysOf query.item) query.exec := by
  have first : ∀ key rest, query.target.keys query.name = key :: rest → key ∈ keysOf query.item :=
    fun key rest h => Query.mem_keysOf (h ▸ List.mem_cons_self)
  have second : ∀ key other, query.target.keys query.name = [other, key] → key ∈ keysOf query.item :=
    fun key other h => Query.mem_keysOf (h ▸ List.mem_cons_of_mem _ (List.mem_singleton_self _))
  cases query with
  | cache codec space name op => exact op.within (first _ _ rfl)
  | hashedCache codec blake3 space name op => exact op.within (first _ _ rfl)
  | lock space name op => exact op.within (first _ _ rfl)
  | rwLock numbers space name op => exact op.within (first _ _ rfl) (second _ _ rfl) numbers
  | tokenBucket nums bucket name op => exact op.within (first _ _ rfl) nums
  | pipe ends name op => exact op.within (first _ _ rfl) (second _ _ rfl)
  | liveView view name op => exact exec_within (op.within (first _ _ rfl) (second _ _ rfl))
  | streamBuffer buffer name op => exact op.within (first _ _ rfl)

/-- The queries on the items of all structures. -/
def service : Service (Kind × Bytes) Query where
  item := Query.item
  Output := Query.Answer
  run := Query.exec

/-- **An item is served as if it were alone.** Clients query any items of any structures while time passes.
The queries about one item get the same answers if all other queries are left out, and the same is stored at
its keys in the end. -/
theorem items_alone (item : Kind × Bytes) (beats : List (Beat Query)) (server : Server) :
    (service.serve beats server).1.filter (fun answer => decide (answer.1.item = item)) =
        (service.serve (beats.filter (service.about item)) server).1 ∧
      (service.serve beats server).2.AgreeOn (keysOf item)
        (service.serve (beats.filter (service.about item)) server).2 :=
  Service.serve_alone Query.within (fun _ _ => disjoint_keys) item beats (.refl _ _)

end Wakuwaku.Entity.Redis
