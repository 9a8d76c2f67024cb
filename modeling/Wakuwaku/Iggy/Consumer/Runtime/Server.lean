import Wakuwaku.Iggy.Consumer.Runtime.Task

/-! # The Iggy server of a partition task

The server holds the main and the retry partition, each with the offset that the consumer stored.
Producers append to the main partition at any time (`Server.world`). A request that failed or was cut
off may have been carried out. -/

namespace Wakuwaku.Iggy.Consumer

open Wakuwaku.Iggy.Events World

variable {I : IggyHeaders} {P O : Type}

/-! ### Partitions -/

/-- The messages of a partition, in the order of their offsets. -/
structure TopicPartition (I : IggyHeaders) (P : Type) where
  messages : List (PolledMessage I P)
  /-- The offset of the next message. -/
  next : ℕ
  /-- The offset that the consumer stored. -/
  stored : Option ℕ
  sorted : messages.Pairwise fun message message' => message.offset < message'.offset
  below : ∀ message ∈ messages, message.offset < next

/-- The messages of a batch, with offsets from `next` on. -/
def numbered (next : ℕ) (batch : List (I.IggyMessage × P)) : List (PolledMessage I P) :=
  (batch.zipIdx next).map fun entry => ⟨entry.2, entry.1.1, entry.1.2⟩

theorem offset_numbered {next : ℕ} {batch : List (I.IggyMessage × P)} {message : PolledMessage I P}
    (h : message ∈ numbered next batch) : next ≤ message.offset ∧ message.offset < next + batch.length := by
  obtain ⟨entry, he, rfl⟩ := List.mem_map.mp h
  have h := List.mem_zipIdx he
  exact ⟨h.1, h.2.1⟩

theorem pairwise_numbered (next : ℕ) (batch : List (I.IggyMessage × P)) :
    (numbered next batch).Pairwise fun message message' => message.offset < message'.offset := by
  rw [numbered, List.pairwise_map]
  induction batch generalizing next with
  | nil => exact .nil
  | cons entry rest ih =>
    rw [List.zipIdx_cons]
    refine List.pairwise_cons.mpr ⟨fun e he => ?_, ih (next + 1)⟩
    exact (List.mem_zipIdx he).1

namespace TopicPartition

/-- The messages from an offset on. -/
def rest (partition : TopicPartition I P) (first : ℕ) : List (PolledMessage I P) :=
  partition.messages.filter (first ≤ ·.offset)

def append (partition : TopicPartition I P) (batch : List (I.IggyMessage × P)) : TopicPartition I P where
  messages := partition.messages ++ numbered partition.next batch
  next := partition.next + batch.length
  stored := partition.stored
  sorted := by
    refine List.pairwise_append.mpr ⟨partition.sorted, pairwise_numbered _ _, fun m hm m' hm' => ?_⟩
    exact (partition.below m hm).trans_le (offset_numbered hm').1
  below m hm := by
    rcases List.mem_append.mp hm with hm | hm
    · exact (partition.below m hm).trans_le (Nat.le_add_right _ _)
    · exact (offset_numbered hm).2

variable {partition : TopicPartition I P} {batch : List (PolledMessage I P)} {first : ℕ}

theorem mem_rest {message : PolledMessage I P} :
    message ∈ partition.rest first ↔ message ∈ partition.messages ∧ first ≤ message.offset := by
  rw [rest, List.mem_filter, decide_eq_true_eq]

theorem pairwise_batch (h : batch <+: partition.rest first) :
    batch.Pairwise fun message message' => message.offset < message'.offset :=
  (partition.sorted.filter _).sublist h.sublist

/-- A poll skips no message. -/
theorem mem_batch (h : batch <+: partition.rest first) {last message : PolledMessage I P}
    (hlast : batch.getLast? = some last) (hm : message ∈ partition.messages)
    (hfirst : first ≤ message.offset) (hle : message.offset ≤ last.offset) : message ∈ batch := by
  obtain ⟨more, hmore⟩ := h
  have hmem := mem_rest.mpr ⟨hm, hfirst⟩
  rw [← hmore] at hmem
  rcases List.mem_append.mp hmem with hmem | hmem
  · exact hmem
  · have hsorted := partition.sorted.filter fun message => decide (first ≤ message.offset)
    rw [show partition.messages.filter _ = _ from hmore.symm] at hsorted
    have hlt := (List.pairwise_append.mp hsorted).2.2 last (List.mem_of_getLast? hlast) message hmem
    omega

end TopicPartition

/-! ### The server -/

structure Server (I : IggyHeaders) (P : Type) where
  main : TopicPartition I P
  retry : TopicPartition I P

namespace Server

def get (server : Server I P) : Topic → TopicPartition I P
  | .main => server.main
  | .retry => server.retry

/-- The server with a stored offset. -/
def put (server : Server I P) (topic : Topic) (offset : ℕ) : Server I P :=
  match topic with
  | .main => { server with main := { server.main with stored := some offset } }
  | .retry => { server with retry := { server.retry with stored := some offset } }

/-- What an event does to the server, and how it answers. -/
inductive Step : Server I P → TaskEvent I P O → Server I P → Prop where
  | storedOffset {server topic answer}
      (h : ∀ stored, answer = some (.ok stored) → stored = (server.get topic).stored) :
      Step server (.storedOffset topic answer) server
  | poll {server topic} {cursor : Cursor} {count answer}
      (h : ∀ batch, answer = some (.ok batch) →
        batch <+: (server.get topic).rest cursor.nextOrZero ∧ batch.length ≤ count) :
      Step server (.poll topic cursor count answer) server
  | stored {server topic offset answer} :
      Step server (.store topic offset answer) (server.put topic offset)
  | notStored {server topic offset answer} (h : answer ≠ some (.ok ())) :
      Step server (.store topic offset answer) server
  | sent {server messages answer} :
      Step server (.send messages answer) { server with retry := server.retry.append messages }
  | notSent {server messages answer} (h : answer ≠ some (.ok ())) :
      Step server (.send messages answer) server
  | execute {server key call} : Step server (.execute key call) server
  | retry {server run call} : Step server (.retry run call) server
  | ran {server outcomes} : Step server (.ran outcomes) server
  | backlogFull {server failed} : Step server (.backlogFull failed) server

/-- Producers append to the main partition. -/
def Produced (published : PolledMessage I P → Prop) (server server' : Server I P) : Prop :=
  ∃ batch, (∀ message ∈ numbered server.main.next batch, published message) ∧
    server' = { server with main := server.main.append batch }

/-- The server as the world of a task, with messages that are `published`. -/
def world (published : PolledMessage I P → Prop) : World (Server I P) (TaskEvent I P O) :=
  ⟨Step, Produced published⟩

/-- A poll of the retry partition that returns no messages has reached its end. -/
def EndReached (server : Server I P) (event : TaskEvent I P O) (_ : Server I P) : Prop :=
  ∀ cursor count, event = .poll .retry cursor count (some (.ok [])) →
    server.retry.rest cursor.nextOrZero = []

end Server

/-- A server and what was done there, each event with the server it found. -/
abbrev Moment (I : IggyHeaders) (P O : Type) : Type := Server I P × List (Server I P × TaskEvent I P O)

/-- A server nothing was asked for yet. -/
def Server.opening (server : Server I P) : Moment I P O := (server, [])

end Wakuwaku.Iggy.Consumer
