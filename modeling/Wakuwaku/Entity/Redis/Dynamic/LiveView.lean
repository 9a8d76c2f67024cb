import Wakuwaku.Entity.Redis.Dynamic.Entries

/-! # Live views

A live view is a body at a version, starting at 1, with the diffs that led to it. Its head is a hash
with the latest version and body, its log a stream whose first entry holds a base body and whose
other entries hold one diff each. The two scripts and the queries below are those of the source; the
numbers of the scripts are exact, as Lua's are below 2^53. -/

namespace Wakuwaku.Entity.Redis.Dynamic

open Wakuwaku.Redis Wakuwaku.Entity.Redis

/-! ### Bodies and versions -/

/-- A body that changes by diffs, with the codecs of both. -/
structure LiveViewDiff (B D : Type) where
  body : Codec B
  diff : Codec D
  apply : B → D → B

/-- A body at a version. -/
structure Versioned (B : Type) where
  version : ℕ
  body : B
  deriving DecidableEq, Repr

/-- A change of a live view seen by a subscription. -/
inductive LiveViewEvent (B D : Type) where
  | diff (version : ℕ) (diff : D)
  | snapshot (snapshot : Versioned B)

/-- Move to the version of an event. -/
def Versioned.update {B D : Type} (view : LiveViewDiff B D) (latest : Versioned B) :
    LiveViewEvent B D → Versioned B
  | .diff version diff => ⟨version, view.apply latest.body diff⟩
  | .snapshot snapshot => snapshot

/-- The history of a live view: its oldest version and the diffs to the latest one. -/
structure History (B D : Type) where
  base : Versioned B
  diffs : List D

/-- `u64::checked_add(1)`. -/
def checkedSucc (n : ℕ) : Option ℕ := if n + 1 < 2 ^ 64 then some (n + 1) else none

/-- Apply the diffs to the base. -/
def History.intoLatest {B D : Type} (view : LiveViewDiff B D) (history : History B D) : Versioned B :=
  history.diffs.foldl
    (fun latest diff => ⟨saturatingSucc latest.version, view.apply latest.body diff⟩) history.base

/-- Output of a commit. -/
inductive Commit where
  | committed (version : ℕ)
  | conflict (head : ℕ)
  | absent
  deriving DecidableEq, Repr

/-! ### Fields and scripts -/

/-- Field of the head holding its version. -/
def versionField : Bytes := asBytes "v"

/-- Field of the head holding its body. -/
def bodyField : Bytes := asBytes "b"

/-- Field of a history entry holding the body at its version. -/
def baseEntry : Bytes := asBytes "base"

/-- Field of a history entry holding the diff to its version. -/
def diffEntry : Bytes := asBytes "diff"

/-- Lua's `tonumber`, used as a number right after. -/
def tonumber (text : Bytes) : Action ℕ :=
  match parseDigits text with
  | some n => return n
  | none => fail (.server "ERR user_script: attempt to perform arithmetic on a nil value")

/-- The script `CREATE` with head `KEYS[1]`, log `KEYS[2]` and body `ARGV[1]`. -/
def createScript (head log body : Bytes) : Action ℕ := do
  if ← existsKey head then
    return 0
  else
    hset head [(versionField, asBytes "1"), (bodyField, body)]
    let _ ← unlink [log]
    xadd log (asBytes "1-0") [(baseEntry, body)]
    return 1

/-- The part of `COMMIT` that adds a version to the log: a log that already holds the diffs it may is
replaced by a base entry with the body and the diff. -/
def extendLog (log version diff body maxDiffs : Bytes) : Action Unit := do
  if (← xlen log) > (← tonumber maxDiffs) then
    xtrimAll log
    xadd log (version ++ asBytes "-0") [(baseEntry, body), (diffEntry, diff)]
  else
    xadd log (version ++ asBytes "-0") [(diffEntry, diff)]

/-- The script `COMMIT` with head `KEYS[1]`, log `KEYS[2]`, parent `ARGV[1]`, diff `ARGV[2]`, body
`ARGV[3]` and the number of diffs the log holds at most in `ARGV[4]`. -/
def commitScript (head log parent diff body maxDiffs : Bytes) : Action (List ℕ) := do
  match ← hget head versionField with
  | none => return [0]
  | some current =>
    if current ≠ parent then
      return [1, ← tonumber current]
    else
      let version := decimal ((← tonumber current) + 1)
      hset head [(versionField, version), (bodyField, body)]
      extendLog log version diff body maxDiffs
      return [2, ← tonumber version]

/-! ### The queries -/

/-- Live views with bodies `B` and diffs `D` in a namespace, whose log holds at most `maxDiffs` diffs
after its base. -/
structure LiveView (B D : Type) extends LiveViewDiff B D where
  space : String
  maxDiffs : ℕ

variable {B D : Type}

/-- The head and log keys of `name`. -/
def LiveView.keys (view : LiveView B D) (name : Bytes) : Bytes × Bytes :=
  taggedPair "LiveView" view.space name (asBytes ":h") (asBytes ":l")

def LiveView.create (view : LiveView B D) (name : Bytes) (body : B) : Action Bool := do
  let body ← ofResult (view.body.serialize body)
  let created ← createScript (view.keys name).1 (view.keys name).2 body
  return created ≠ 0

/-- A version as the client reads it from a field. -/
def parseVersion (bytes : Bytes) : Except Error ℕ :=
  match parseU64 bytes with
  | some n => .ok n
  | none => .error (.unexpectedReturnType "Response was of incompatible type"
      "Could not convert from string.")

/-- Read the head. -/
def readHead (codec : Codec B) (head : Bytes) : Action (Option (Versioned B)) := do
  match ← hmget head [versionField, bodyField] with
  | [some version, some body] =>
    let version ← ofResult (parseVersion version)
    let body ← ofResult (codec.deserialize body)
    return some ⟨version, body⟩
  | [none, none] => return none
  | _ => ofResult (.error (corrupted "live view head lacks its version or body"))

def LiveView.get (view : LiveView B D) (name : Bytes) : Action (Option (Versioned B)) :=
  readHead view.body (view.keys name).1

def LiveView.version (view : LiveView B D) (name : Bytes) : Action (Option ℕ) := do
  match ← hget (view.keys name).1 versionField with
  | none => return none
  | some version => return some (← ofResult (parseVersion version))

/-- The version of a history entry, from its ID. -/
def entryVersion (entry : Entry) : Except Error ℕ :=
  if entry.id.seq ≠ 0 then .error (corrupted "live view history entry ID is not <version>-0")
  else .ok entry.id.ms

/-- The event a history entry stands for, seen from version `current`: its diff if it follows
`current`, its base body otherwise. -/
def parseEvent (view : LiveViewDiff B D) (entry : Entry) (current : ℕ) :
    Except Error (LiveViewEvent B D) := do
  let version ← entryVersion entry
  match if some version = checkedSucc current then entry.get diffEntry else none with
  | some diff => return .diff version (← view.diff.deserialize diff)
  | none =>
    match entry.get baseEntry with
    | none => .error (corrupted "live view diff doesn't follow the previous version")
    | some body => return .snapshot ⟨version, ← view.body.deserialize body⟩

/-- The diffs of the entries after version `version`. -/
def parseDiffs (view : LiveViewDiff B D) : List Entry → ℕ → Except Error (List D)
  | [], _ => .ok []
  | entry :: rest, version => do
    match ← parseEvent view entry version with
    | .diff next diff => return diff :: (← parseDiffs view rest next)
    | .snapshot _ => .error (corrupted "live view history has a base after its start")

/-- The history that the entries of a log stand for. -/
def parseHistory (view : LiveViewDiff B D) : List Entry → Except Error (Option (History B D))
  | [] => .ok none
  | first :: entries =>
    match first.get baseEntry with
    | none => .error (corrupted "live view history doesn't start with a base")
    | some base => do
      let version ← entryVersion first
      let body ← view.body.deserialize base
      return some ⟨⟨version, body⟩, ← parseDiffs view entries version⟩

def LiveView.history (view : LiveView B D) (name : Bytes) : Action (Option (History B D)) := do
  let reply ← xrange (view.keys name).2
  let entries ← ofResult (parseRange reply)
  ofResult (parseHistory view.toLiveViewDiff entries)

/-- The answer to a commit. -/
def parseCommit : List ℕ → Except Error Commit
  | [0] => .ok .absent
  | [1, head] => .ok (.conflict head)
  | [2, version] => .ok (.committed version)
  | _ => .error (corrupted "unexpected live view commit reply")

def LiveView.commit (view : LiveView B D) (name : Bytes) (parent : ℕ) (diff : D) (body : B) :
    Action Commit := do
  let diff ← ofResult (view.diff.serialize diff)
  let body ← ofResult (view.body.serialize body)
  let reply ← commitScript (view.keys name).1 (view.keys name).2 (decimal parent) diff body
    (decimal view.maxDiffs)
  ofResult (parseCommit reply)

def LiveView.remove (view : LiveView B D) (name : Bytes) : Action Bool := do
  let removed ← unlink [(view.keys name).1, (view.keys name).2]
  return removed > 0

end Wakuwaku.Entity.Redis.Dynamic
