import Wakuwaku.Steps
import Wakuwaku.Entity.Redis.Dynamic.Pipe
import Mathlib.Data.List.Forall2

/-! # What the receiver of a pipe gets

A sender sends and then closes while a receiver receives and time passes. What the receiver has got,
with what is still in the list, is in the order it was sent (`Flows`). The list of messages may expire
before the mark of the close: then the receiver ends without the messages it has not taken
(`pipe_lost`). In a run that never passes the deadline of the messages it ends after all of them
(`pipe_delivers`). -/

namespace Wakuwaku.Entity.Redis.Dynamic

open Wakuwaku.Redis Wakuwaku.Entity.Redis

variable {B : Type}

/-! ### Runs -/

/-- The server and the receiver, with the messages pushed so far, whether the pipe was closed, and
what the receiver output. -/
structure Piped (B : Type) where
  server : Server
  receiver : PipeReceiver
  sent : List B
  closed : Bool
  outputs : List (Option B)

inductive PipeMove (B : Type) where
  | pass (clock : ℕ)
  | send (body : B)
  | close
  | recv

/-- What a send pushes. -/
def pushed (pipe : Pipe B) (body : B) : List B :=
  match pipe.codec.serialize body with
  | .ok _ => [body]
  | .error _ => []

/-- Time passes, the sender sends or closes, or the receiver receives. -/
inductive PipeStep (pipe : Pipe B) (name : Bytes) : Piped B → PipeMove B → Piped B → Prop
  | pass {s clock} (h : s.server.clock ≤ clock) :
    PipeStep pipe name s (.pass clock) { s with server := s.server.advance clock }
  | send {s body result server} (hopen : s.closed = false)
    (h : pipe.send name body s.server = (result, server)) :
    PipeStep pipe name s (.send body) { s with server, sent := s.sent ++ pushed pipe body }
  | close {s result server} (hopen : s.closed = false) (h : pipe.close name s.server = (result, server)) :
    PipeStep pipe name s .close { s with server, closed := true }
  | received {s output receiver server}
    (h : s.receiver.recv pipe.codec s.server = (.ok (output, receiver), server)) :
    PipeStep pipe name s .recv { s with server, receiver, outputs := s.outputs ++ [output] }
  | failed {s error server} (h : s.receiver.recv pipe.codec s.server = (.error error, server)) :
    PipeStep pipe name s .recv { s with server }

/-- Time does not pass the deadline of the messages. -/
def Timely (pipe : Pipe B) (name : Bytes) (s : Piped B) : PipeMove B → Prop
  | .pass clock => ∀ deadline, deadlineOf (s.server.db (pipe.keys name).1) = some deadline →
      clock / 1000 ≤ deadline
  | _ => True

/-- A fresh pipe. -/
def Pipe.fresh (pipe : Pipe B) (name : Bytes) (server : Server) : Piped B :=
  ⟨server, pipe.receive name, [], false, []⟩

/-- The messages that the receiver output. -/
def Piped.received (s : Piped B) : List B := s.outputs.filterMap id

/-! ### Messages on their way -/

/-- The list holds `queue`, and what was received before it is what was sent, in order, but for what
expired. Without a close there is no mark of it, and at the end of the pipe there is no message. -/
structure Flows (pipe : Pipe B) (name : Bytes) (s : Piped B) (queue : List B) : Prop where
  receiver : s.receiver = ⟨(pipe.keys name).1, (pipe.keys name).2, pipe.ttl, s.receiver.closed⟩
  messages : ∃ values expires, s.server.db (pipe.keys name).1 = listOf values expires ∧
    List.Forall₂ (fun bytes body => pipe.codec.deserialize bytes = .ok body) values queue
  close : ∃ values expires, s.server.db (pipe.keys name).2 = listOf values expires ∧
    (s.closed = false → values = [])
  ended : s.receiver.closed = true ∨ none ∈ s.outputs → s.closed = true ∧ queue = []
  outputs : ∃ n, s.outputs = s.received.map some ++ List.replicate n none
  order : (s.received ++ queue).Sublist s.sent

variable {pipe : Pipe B} {name : Bytes} {s s' : Piped B} {queue : List B}

theorem pipeKeys_ne (pipe : Pipe B) (name : Bytes) : (pipe.keys name).1 ≠ (pipe.keys name).2 :=
  taggedPair_ne (by decide)

/-- A list at a later time: as it was, or gone with its deadline. -/
theorem listOf_advance {server : Server} {key : Bytes} {values : List Bytes} {expires : Option ℕ} (clock : ℕ)
    (h : server.db key = listOf values expires) :
    (server.advance clock).db key = listOf values expires ∧
      (∀ deadline, deadlineOf (server.db key) = some deadline → clock / 1000 ≤ deadline) ∨
    (server.advance clock).db key = none ∧ (values = [] ∨
      ∃ deadline, deadlineOf (server.db key) = some deadline ∧ deadline < clock / 1000) := by
  rcases server.db_advance key clock with ⟨hsame, hlive⟩ | ⟨hgone, hnone | hpast⟩
  · exact Or.inl ⟨hsame.trans h, hlive⟩
  · refine Or.inr ⟨hgone, Or.inl ?_⟩
    by_contra hne
    rw [hnone, listOf_of_ne_nil hne] at h
    cases h
  · exact Or.inr ⟨hgone, Or.inr hpast⟩

/-- **Time passes**: the messages stay, or all of them are lost. -/
theorem Flows.pass {clock : ℕ} (h : Flows pipe name s queue) :
    ∃ queue', Flows pipe name { s with server := s.server.advance clock } queue' ∧
      (Timely pipe name s (.pass clock) → queue' = queue) := by
  obtain ⟨values, expires, hdb, hqueue⟩ := h.messages
  obtain ⟨marks, expires', hmark, hopen⟩ := h.close
  have hclose : ∃ values expires, (s.server.advance clock).db (pipe.keys name).2 = listOf values expires ∧
      (s.closed = false → values = []) := by
    rcases listOf_advance clock hmark with ⟨hsame, -⟩ | ⟨hgone, -⟩
    · exact ⟨marks, expires', hsame, hopen⟩
    · exact ⟨[], none, hgone, fun _ => rfl⟩
  rcases listOf_advance clock hdb with ⟨hsame, -⟩ | ⟨hgone, hwhy⟩
  · exact ⟨queue, ⟨h.receiver, ⟨values, expires, hsame, hqueue⟩, hclose, h.ended, h.outputs, h.order⟩, fun _ => rfl⟩
  · refine ⟨[], ⟨h.receiver, ⟨[], none, hgone, .nil⟩, hclose, fun he => ⟨(h.ended he).1, rfl⟩,
      h.outputs, ?_⟩, fun htimely => ?_⟩
    · rw [List.append_nil]
      exact (List.sublist_append_left _ _).trans h.order
    · rcases hwhy with hnil | ⟨deadline, hd, hlt⟩
      · subst hnil
        cases hqueue
        rfl
      · exact absurd (htimely deadline hd) (Nat.not_le.mpr hlt)

/-- **A send** puts the message behind the others. -/
theorem Flows.send {body : B} {result : Except Error Unit} {server : Server} (h : Flows pipe name s queue)
    (hround : pipe.codec.RoundTrips) (hopen : s.closed = false)
    (hs : pipe.send name body s.server = (result, server)) :
    Flows pipe name { s with server, sent := s.sent ++ pushed pipe body } (queue ++ pushed pipe body) := by
  unfold pushed
  unfold Pipe.send at hs
  have hended : ¬ (s.receiver.closed = true ∨ none ∈ s.outputs) := fun he => by
    rw [(h.ended he).1] at hopen
    cases hopen
  cases hb : pipe.codec.serialize body with
  | error error =>
    rw [hb] at hs
    obtain ⟨rfl, rfl⟩ := Prod.mk.inj hs
    simp only [List.append_nil]
    exact h
  | ok bytes =>
    rw [hb] at hs
    obtain ⟨values, expires, hdb, hqueue⟩ := h.messages
    obtain ⟨pushResult, expires', hpush⟩ := push_of_eq hdb bytes pipe.ttl
    have hserver : server = _ := (congrArg Prod.snd hs).symm.trans (congrArg Prod.snd hpush)
    subst hserver
    refine ⟨h.receiver, ⟨values ++ [bytes], expires', ?_, ?_⟩, ?_, fun he => absurd he hended, h.outputs, ?_⟩
    · exact (Server.db_put_self _ _ _).trans (listOf_of_ne_nil (by simp) _).symm
    · exact List.rel_append hqueue (.cons (hround.deserialize hb) .nil)
    · rw [Server.db_put_of_ne _ _ (pipeKeys_ne pipe name).symm]
      exact h.close
    · rw [← List.append_assoc]
      exact h.order.append (List.Sublist.refl _)

/-- **The close** leaves its mark. -/
theorem Flows.closing {result : Except Error Unit} {server : Server} (h : Flows pipe name s queue)
    (hopen : s.closed = false) (hs : pipe.close name s.server = (result, server)) :
    Flows pipe name { s with server, closed := true } queue := by
  obtain ⟨values, expires, hdb, -⟩ := h.close
  obtain ⟨pushResult, expires', hpush⟩ := push_of_eq hdb [] pipe.ttl
  have hserver : server = _ := (congrArg Prod.snd hs).symm.trans (congrArg Prod.snd hpush)
  subst hserver
  have hended : ¬ (s.receiver.closed = true ∨ none ∈ s.outputs) := fun he => by
    rw [(h.ended he).1] at hopen
    cases hopen
  refine ⟨h.receiver, ?_, ⟨values ++ [[]], expires', ?_, by simp⟩, fun he => absurd he hended,
    h.outputs, h.order⟩
  · rw [Server.db_put_of_ne _ _ (pipeKeys_ne pipe name)]
    exact h.messages
  · exact (Server.db_put_self _ _ _).trans (listOf_of_ne_nil (by simp) _).symm

/-- What a recv does: it ends, takes the first message, finds the close without a message before it,
or finds nothing. -/
theorem Flows.recv (h : Flows pipe name s queue) :
    s.receiver.recv pipe.codec s.server = (.ok (none, s.receiver), s.server) ∧
        s.closed = true ∧ queue = [] ∨
      (∃ body rest values expires, queue = body :: rest ∧
        List.Forall₂ (fun bytes body => pipe.codec.deserialize bytes = .ok body) values rest ∧
        s.receiver.recv pipe.codec s.server = (.ok (some body, s.receiver),
          s.server.put (pipe.keys name).1 (listOf values expires))) ∨
      (∃ marks expires, queue = [] ∧ s.closed = true ∧ s.receiver.recv pipe.codec s.server =
        (.ok (none, { s.receiver with closed := true }),
          s.server.put (pipe.keys name).2 (listOf marks expires))) ∨
      ∃ error, s.receiver.recv pipe.codec s.server = (.error error, s.server) := by
  have hmessages : s.receiver.messages = (pipe.keys name).1 := congrArg PipeReceiver.messages h.receiver
  have hkey : s.receiver.close = (pipe.keys name).2 := congrArg PipeReceiver.close h.receiver
  by_cases hend : s.receiver.closed = true
  · exact Or.inl ⟨recv_of_closed hend, h.ended (Or.inl hend)⟩
  have hopen : s.receiver.closed = false := by simpa using hend
  have hne : s.receiver.messages ≠ s.receiver.close := by
    rw [hmessages, hkey]
    exact pipeKeys_ne pipe name
  obtain ⟨values, expires, hdb, hqueue⟩ := h.messages
  obtain ⟨marks, expires', hmark, hclosed⟩ := h.close
  rw [← hmessages] at hdb
  rw [← hkey] at hmark
  cases hqueue with
  | cons hbody hrest =>
    refine Or.inr (Or.inl ⟨_, _, _, expires, rfl, hrest, ?_⟩)
    rw [← hmessages]
    exact recv_of_message hopen hne hdb hbody
  | nil =>
    cases marks with
    | nil => exact Or.inr (Or.inr (Or.inr ⟨_, recv_of_empty hopen hdb hmark⟩))
    | cons mark rest =>
      refine Or.inr (Or.inr (Or.inl ⟨rest, expires', rfl, ?_, ?_⟩))
      · by_contra hs
        cases hclosed (by simpa using hs)
      · rw [← hkey]
        exact recv_of_close hopen hdb hmark

theorem received_append (outputs : List (Option B)) (output : Option B) :
    (outputs ++ [output]).filterMap id = outputs.filterMap id ++ output.toList := by
  cases output <;> simp

/-- **A recv** hands out the first message, or ends when there is none. -/
theorem Flows.recv_ok {output : Option B} {receiver : PipeReceiver} {server : Server}
    (h : Flows pipe name s queue)
    (hr : s.receiver.recv pipe.codec s.server = (.ok (output, receiver), server)) : ∃ queue',
      queue = output.toList ++ queue' ∧
        Flows pipe name { s with server, receiver, outputs := s.outputs ++ [output] } queue' := by
  obtain ⟨n, hn⟩ := h.outputs
  have hnone : ∃ n, s.outputs ++ [none] =
      ((s.outputs ++ [none]).filterMap id).map some ++ List.replicate n none := by
    refine ⟨n + 1, ?_⟩
    rw [received_append, Option.toList_none, List.append_nil, List.replicate_succ', ← List.append_assoc]
    exact congrArg (· ++ [none]) hn
  have horder : ((s.outputs ++ [none]).filterMap id ++ queue).Sublist s.sent := by
    rw [received_append, Option.toList_none, List.append_nil]
    exact h.order
  rcases h.recv with ⟨he, hc, rfl⟩ | ⟨body, rest, values, expires, rfl, hrest, he⟩ |
    ⟨marks, expires, rfl, hc, he⟩ | ⟨error, he⟩
  · cases hr.symm.trans he
    exact ⟨[], rfl, h.receiver, h.messages, h.close, fun _ => ⟨hc, rfl⟩, hnone, horder⟩
  · cases hr.symm.trans he
    have hended : ¬ (s.receiver.closed = true ∨ none ∈ s.outputs) := fun hend => by
      cases (h.ended hend).2
    have hzero : n = 0 := by
      by_contra hne
      exact hended (Or.inr (by rw [hn]; simp [hne]))
    refine ⟨rest, rfl, h.receiver, ⟨values, expires, Server.db_put_self _ _ _, hrest⟩, ?_,
      fun hend => absurd (by simpa using hend) hended, ⟨0, ?_⟩, ?_⟩
    · rw [Server.db_put_of_ne _ _ (pipeKeys_ne pipe name).symm]
      exact h.close
    · subst hzero
      show s.outputs ++ [some body] = ((s.outputs ++ [some body]).filterMap id).map some ++ _
      rw [received_append, Option.toList_some, List.map_append, List.replicate_zero, List.append_nil]
      exact congrArg (· ++ [some body]) (hn.trans (List.append_nil _))
    · show ((s.outputs ++ [some body]).filterMap id ++ rest).Sublist s.sent
      rw [received_append, Option.toList_some, List.append_assoc]
      exact h.order
  · cases hr.symm.trans he
    refine ⟨[], rfl, ?_, ?_, ⟨marks, expires, Server.db_put_self _ _ _, fun hopen => ?_⟩,
      fun _ => ⟨hc, rfl⟩, hnone, horder⟩
    · rw [h.receiver]
    · rw [Server.db_put_of_ne _ _ (pipeKeys_ne pipe name)]
      exact h.messages
    · rw [hc] at hopen
      cases hopen
  · cases hr.symm.trans he

/-- A recv that fails changes nothing. -/
theorem Flows.recv_error {error : Error} {server : Server} (h : Flows pipe name s queue)
    (hr : s.receiver.recv pipe.codec s.server = (.error error, server)) : server = s.server := by
  rcases h.recv with ⟨he, -⟩ | ⟨body, rest, values, expires, -, -, he⟩ | ⟨marks, expires, -, -, he⟩ |
    ⟨error', he⟩
  · cases hr.symm.trans he
  · cases hr.symm.trans he
  · cases hr.symm.trans he
  · exact congrArg Prod.snd (hr.symm.trans he)

/-- **One step** keeps the order, and loses nothing if time does not pass the deadline of the
messages. -/
theorem Flows.step (hround : pipe.codec.RoundTrips) {move : PipeMove B} (h : Flows pipe name s queue)
    (hs : PipeStep pipe name s move s') : ∃ queue', Flows pipe name s' queue' ∧
      (Timely pipe name s move → s.received ++ queue = s.sent → s'.received ++ queue' = s'.sent) := by
  cases hs with
  | pass _ =>
    obtain ⟨queue', h', hsame⟩ := h.pass
    refine ⟨queue', h', fun htimely hall => ?_⟩
    rw [hsame htimely]
    exact hall
  | @send body _ _ hopen hs =>
    refine ⟨_, h.send hround hopen hs, fun _ hall => ?_⟩
    show s.received ++ (queue ++ pushed pipe body) = s.sent ++ pushed pipe body
    rw [← List.append_assoc, hall]
  | close hopen hs => exact ⟨queue, h.closing hopen hs, fun _ hall => hall⟩
  | received hr =>
    obtain ⟨queue', rfl, h'⟩ := h.recv_ok hr
    refine ⟨queue', h', fun _ hall => ?_⟩
    show (s.outputs ++ [_]).filterMap id ++ queue' = s.sent
    rw [received_append, List.append_assoc]
    exact hall
  | failed hr =>
    obtain rfl := h.recv_error hr
    exact ⟨queue, h, fun _ hall => hall⟩

/-! ### What the receiver got -/

section Delivers

variable {server : Server} {moves : List (PipeMove B)}

theorem Flows.fresh (hm : server.db (pipe.keys name).1 = none) (hc : server.db (pipe.keys name).2 = none) :
    Flows pipe name (pipe.fresh name server) [] where
  receiver := rfl
  messages := ⟨[], none, hm, .nil⟩
  close := ⟨[], none, hc, fun _ => rfl⟩
  ended := by rintro (h | h) <;> cases h
  outputs := ⟨0, rfl⟩
  order := .refl []

/-- The steps of a run in which time does not pass the deadline of the messages. -/
def TimelyStep (pipe : Pipe B) (name : Bytes) (s : Piped B) (move : PipeMove B) (s' : Piped B) : Prop :=
  PipeStep pipe name s move s' ∧ Timely pipe name s move

/-- **What the receiver got is what was sent, in order and each message at most once. If no message
expired, the receiver ends after all of them.** -/
theorem pipe_delivers (pipe : Pipe B) (hround : pipe.codec.RoundTrips) (name : Bytes) (server : Server)
    (hm : server.db (pipe.keys name).1 = none) (hc : server.db (pipe.keys name).2 = none) :
    (∀ moves s, Steps (PipeStep pipe name) (pipe.fresh name server) moves s → s.received.Sublist s.sent) ∧
    ∀ moves s, Steps (TimelyStep pipe name) (pipe.fresh name server) moves s → none ∈ s.outputs →
      ∃ n, s.outputs = s.sent.map some ++ List.replicate n none := by
  have hfresh := Flows.fresh hm hc
  constructor
  · intro moves s run
    have h : ∃ queue, Flows pipe name s queue := by
      refine run.invariant (p := fun _ s => ∃ queue, Flows pipe name s queue) ⟨[], hfresh⟩ ?_
      rintro _ s _ s' - ⟨queue, h⟩ hs
      obtain ⟨queue', h', -⟩ := h.step hround hs
      exact ⟨queue', h'⟩
    obtain ⟨queue, h⟩ := h
    exact (List.sublist_append_left _ _).trans h.order
  · intro moves s run hnone
    have h : ∃ queue, Flows pipe name s queue ∧ s.received ++ queue = s.sent := by
      refine run.invariant (p := fun _ s => ∃ queue, Flows pipe name s queue ∧
        s.received ++ queue = s.sent) ⟨[], hfresh, rfl⟩ ?_
      rintro _ s _ s' - ⟨queue, h, hall⟩ ⟨hs, htimely⟩
      obtain ⟨queue', h', hkeep⟩ := h.step hround hs
      exact ⟨queue', h', hkeep htimely hall⟩
    obtain ⟨queue, h, hall⟩ := h
    obtain ⟨n, hn⟩ := h.outputs
    rw [(h.ended (Or.inr hnone)).2, List.append_nil] at hall
    rw [hall] at hn
    exact ⟨n, hn⟩

end Delivers

/-! ### A message that expires -/

/-- Pipes of bytes whose messages expire after 10 ms. -/
def rawPipe : Pipe Bytes := ⟨"raw", 10000000, ⟨.ok, .ok⟩⟩

theorem rawPipe_roundTrips : rawPipe.codec.RoundTrips := by
  rintro _ _ ⟨⟩
  rfl

/-- A recv, by its result. -/
theorem PipeStep.of_recv (s : Piped B) (output : Option B) (receiver : PipeReceiver)
    (h : (s.receiver.recv pipe.codec s.server).1 = .ok (output, receiver)) :
    PipeStep pipe name s .recv
      ⟨(s.receiver.recv pipe.codec s.server).2, receiver, s.sent, s.closed, s.outputs ++ [output]⟩ :=
  .received (Prod.ext h rfl)

/-- Time passes up to the deadline of the messages. -/
theorem TimelyStep.of_pass {s : Piped B} {name : Bytes} (clock : ℕ) (h : s.server.clock ≤ clock)
    (hlive : (deadlineOf (s.server.db (pipe.keys name).1)).all fun deadline => clock / 1000 ≤ deadline) :
    TimelyStep pipe name s (.pass clock) { s with server := s.server.advance clock } :=
  ⟨.pass h, fun deadline hd => by
    rw [hd] at hlive
    exact of_decide_eq_true hlive⟩

/-- The second message restarts the TTL of the first, which is received at its last moment. -/
theorem pipe_delivers_raw : ∃ s, Steps (TimelyStep rawPipe []) (rawPipe.fresh [] ⟨0, fun _ => none⟩)
    [.send [1], .pass 6000, .send [2], .pass 16000, .recv, .close, .recv, .recv] s ∧
      ∃ n, s.outputs = [some [1], some [2]] ++ List.replicate n none := by
  have h1 : Steps (TimelyStep rawPipe []) (rawPipe.fresh [] ⟨0, fun _ => none⟩) [.send [1]] _ :=
    Steps.nil.snoc ⟨.send rfl rfl, trivial⟩
  have h2 : Steps (TimelyStep rawPipe []) (rawPipe.fresh [] ⟨0, fun _ => none⟩) [.send [1], .pass 6000, .send [2]] _ :=
    (h1.snoc (.of_pass 6000 (by decide +kernel) (by decide +kernel))).snoc ⟨.send rfl rfl, trivial⟩
  have h3 := h2.snoc (.of_pass 16000 (by decide +kernel) (by decide +kernel))
  have h4 := (h3.snoc ⟨.of_recv _ (some [1]) (rawPipe.receive []) (by decide +kernel), trivial⟩).snoc
    ⟨.close rfl rfl, trivial⟩
  have h5 := h4.snoc ⟨.of_recv _ (some [2]) (rawPipe.receive []) (by decide +kernel), trivial⟩
  have h6 := h5.snoc ⟨.of_recv _ none { rawPipe.receive [] with closed := true } (by decide +kernel), trivial⟩
  exact ⟨_, h6, (pipe_delivers rawPipe rawPipe_roundTrips [] ⟨0, fun _ => none⟩ rfl rfl).2 _ _ h6 (by simp)⟩

/-- The message is not taken before it expires; the close, sent later, is there. -/
def lostMoves : List (PipeMove Bytes) := [.send [1], .pass 5000, .close, .pass 12000, .recv]

/-- **A receiver can end without a message that was sent before the close.** -/
theorem pipe_lost : ∃ s, Steps (PipeStep rawPipe []) (rawPipe.fresh [] ⟨0, fun _ => none⟩) lostMoves s ∧
    s.outputs = [none] ∧ s.sent = [[1]] := by
  have h1 : Steps (PipeStep rawPipe []) (rawPipe.fresh [] ⟨0, fun _ => none⟩) [.send [1]] _ :=
    Steps.nil.snoc (.send rfl rfl)
  have h2 := (h1.snoc (.pass (show _ ≤ 5000 by decide +kernel))).snoc (.close rfl rfl)
  have h3 := (h2.snoc (.pass (show _ ≤ 12000 by decide +kernel))).snoc
    (.of_recv _ none { rawPipe.receive [] with closed := true } (by decide +kernel))
  exact ⟨_, h3, rfl, rfl⟩

end Wakuwaku.Entity.Redis.Dynamic
