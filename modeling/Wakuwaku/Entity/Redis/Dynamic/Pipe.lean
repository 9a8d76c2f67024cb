import Wakuwaku.Redis.Server
import Wakuwaku.Entity.Redis.Keys

/-! # Pipes

One-way message pipes from one sender to one receiver. The messages are one list, the mark of the
close another, and each expires a TTL after something was last pushed to it. -/

namespace Wakuwaku.Entity.Redis.Dynamic

open Wakuwaku.Redis Wakuwaku.Entity.Redis

variable {B : Type}

/-- Pipes of messages `B` in a namespace, abandoned after `ttl` without a message. -/
structure Pipe (B : Type) where
  space : String
  ttl : ℕ
  codec : Codec B

/-- The message and close keys of `name`. -/
def Pipe.keys (pipe : Pipe B) (name : Bytes) : Bytes × Bytes :=
  taggedPair "Pipe" pipe.space name (asBytes ":m") (asBytes ":c")

/-- Push `value` to the list `key` and restart its TTL, atomically. What the transaction did before a
command that fails stays. -/
def push (key value : Bytes) (ttl : ℕ) : Command Unit := do
  let _ ← rpush key value
  let _ ← pexpire key (millis ttl)

/-- Send `body` through `name`. -/
def Pipe.send (pipe : Pipe B) (name : Bytes) (body : B) : Command Unit := do
  let body ← Command.ofResult (pipe.codec.serialize body)
  push (pipe.keys name).1 body pipe.ttl

/-- Close `name`: its receiver ends after taking the messages sent before. -/
def Pipe.close (pipe : Pipe B) (name : Bytes) : Command Unit := push (pipe.keys name).2 [] pipe.ttl

/-- The receiving end of a pipe. -/
structure PipeReceiver where
  messages : Bytes
  close : Bytes
  ttl : ℕ
  closed : Bool
  deriving DecidableEq

/-- Receive the messages of `name`. -/
def Pipe.receive (pipe : Pipe B) (name : Bytes) : PipeReceiver :=
  ⟨(pipe.keys name).1, (pipe.keys name).2, pipe.ttl, false⟩

/-- Take the next message, when the server replies: none once the sender closed the pipe. It fails if
the wait timed out. -/
def PipeReceiver.recv (codec : Codec B) (receiver : PipeReceiver) : Command (Option B × PipeReceiver) := do
  if receiver.closed then
    return (none, receiver)
  else
    match ← blpop [receiver.messages, receiver.close] with
    | none => Command.fail (gone "the pipe received nothing for its whole TTL")
    | some (key, body) =>
      if key = receiver.close then
        return (none, { receiver with closed := true })
      else
        let body ← Command.ofResult (codec.deserialize body)
        return (some body, receiver)

/-! ### What the queries do -/

section Spec

variable {server : Server} {key : Bytes} {values : List Bytes} {expires : Option ℕ}

/-- The value is pushed, whether or not the TTL is in range. -/
theorem push_of_eq (h : server.db key = listOf values expires) (value : Bytes) (ttl : ℕ) :
    ∃ result expires', push key value ttl server =
      (result, server.put key (some ⟨.list (values ++ [value]), expires'⟩)) := by
  obtain ⟨length, expires', hpush⟩ := rpush_of_eq h value
  unfold push
  rw [Command.bind_of_ok hpush]
  generalize hserver : server.put key (some ⟨.list (values ++ [value]), expires'⟩) = pushed
  have hdb : pushed.db key = some ⟨.list (values ++ [value]), expires'⟩ := by
    rw [← hserver, Server.db_put_self]
  by_cases hout : outOfRange pushed.now (millis ttl)
  · obtain ⟨error, hexpire⟩ := pexpire_of_out key hout
    exact ⟨.error error, expires', by rw [Command.bind_of_error hexpire, hserver]⟩
  · have hexpire := pexpire_of_some hdb (millis_pos ttl) (Nat.not_le.mp hout)
    refine ⟨.ok (), some (pushed.now + millis ttl), ?_⟩
    rw [Command.bind_of_ok hexpire, ← hserver, Server.put_put]
    rfl

variable {codec : Codec B} {receiver : PipeReceiver}

theorem recv_of_closed (h : receiver.closed = true) :
    receiver.recv codec server = (.ok (none, receiver), server) := by
  unfold PipeReceiver.recv
  rw [if_pos h]
  rfl

section Open

variable (hopen : receiver.closed = false)
include hopen

/-- The first message. -/
theorem recv_of_message (hne : receiver.messages ≠ receiver.close) {bytes : Bytes} {rest : List Bytes} {body : B}
    (h : server.db receiver.messages = listOf (bytes :: rest) expires)
    (hbody : codec.deserialize bytes = .ok body) : receiver.recv codec server =
      (.ok (some body, receiver), server.put receiver.messages (listOf rest expires)) := by
  have hpop : blpop [receiver.messages, receiver.close] server =
      (.ok (some (receiver.messages, bytes)), server.put receiver.messages (listOf rest expires)) := by
    rw [blpop, Command.bind_of_ok (lpop_of_cons h)]
    rfl
  unfold PipeReceiver.recv
  rw [if_neg (by simp [hopen]), Command.bind_of_ok hpop]
  simp only [if_neg hne, hbody]
  rfl

/-- The close, if there is no message. -/
theorem recv_of_close (hm : server.db receiver.messages = none) {bytes : Bytes} {rest : List Bytes}
    (h : server.db receiver.close = listOf (bytes :: rest) expires) : receiver.recv codec server =
      (.ok (none, { receiver with closed := true }), server.put receiver.close (listOf rest expires)) := by
  have hpop : blpop [receiver.messages, receiver.close] server =
      (.ok (some (receiver.close, bytes)), server.put receiver.close (listOf rest expires)) := by
    rw [blpop, Command.bind_of_ok (lpop_of_nil hm)]
    simp only [blpop]
    rw [Command.bind_of_ok (lpop_of_cons h)]
    rfl
  unfold PipeReceiver.recv
  rw [if_neg (by simp [hopen]), Command.bind_of_ok hpop]
  simp only [if_pos]
  rfl

theorem recv_of_empty (hm : server.db receiver.messages = none) (hc : server.db receiver.close = none) :
    receiver.recv codec server =
      (.error (gone "the pipe received nothing for its whole TTL"), server) := by
  have hpop : blpop [receiver.messages, receiver.close] server = (.ok none, server) := by
    rw [blpop, Command.bind_of_ok (lpop_of_nil hm)]
    simp only [blpop]
    rw [Command.bind_of_ok (lpop_of_nil hc)]
    rfl
  unfold PipeReceiver.recv
  rw [if_neg (by simp [hopen]), Command.bind_of_ok hpop]
  rfl

end Open

end Spec

end Wakuwaku.Entity.Redis.Dynamic
