import Wakuwaku.Steps
import Wakuwaku.Entity.Redis.Dynamic.StreamBuffer
import Mathlib.Data.List.Forall2
import Mathlib.Data.List.Infix

/-! # What a subscription to a stream buffer gets

Any clients append and finish while one subscription follows the buffer from an index on; the buffer
does not expire. The appends output the indices of the array, and the subscription outputs the bodies
from its index on and then ends (`Delivers`), unless it waited for a whole TTL before the buffer
existed: then it fails, and ends without a body (`buffer_gone`). A wait whose end is out of range is
refused, and nothing changes. -/

namespace Wakuwaku.Entity.Redis.Dynamic

open Wakuwaku.Redis Wakuwaku.Entity.Redis

variable {B : Type}

/-! ### Runs -/

/-- The server with the bodies in the buffer, whether it was finished and the indices that appends
output; the subscription with whether its `recv` is about to check, what it output and how many of its
calls Redis refused. -/
structure Buffered (B : Type) where
  server : Server
  bodies : List B
  finished : Bool
  indices : List ℕ
  subscription : StreamBufferSubscription
  checking : Bool
  outputs : List (Except Error (Option B))
  refused : ℕ

inductive BufferMove (B : Type) where
  | pass (clock : ℕ)
  | append (body : B)
  | finish
  | recv (protocol : Protocol) (batch : ℕ)

/-- What an append adds to the array. -/
def appended (buffer : StreamBuffer B) (finished : Bool) (body : B) : List B :=
  if finished then []
  else match buffer.codec.serialize body with
    | .ok _ => [body]
    | .error _ => []

/-- The index that an append outputs, if it is successful. -/
def indexOf : Except Error (Option ℕ) → List ℕ
  | .ok (some index) => [index]
  | _ => []

/-- The next command of `recv`. -/
def Buffered.round (s : Buffered B) (codec : Codec B) (protocol : Protocol) (batch : ℕ) :
    Command (Round B × StreamBufferSubscription) :=
  if s.checking then s.subscription.check else s.subscription.read codec protocol batch

/-- After the next command of `recv`. -/
def Buffered.recv (s : Buffered B) (codec : Codec B) (protocol : Protocol) (batch : ℕ) : Buffered B :=
  match s.round codec protocol batch s.server with
  | (.ok (.output result, subscription), server) =>
    { s with server, subscription, checking := false, outputs := s.outputs ++ [result] }
  | (.ok (.read, subscription), server) => { s with server, subscription, checking := false }
  | (.ok (.check, subscription), server) => { s with server, subscription, checking := true }
  | (.error _, server) => { s with server, refused := s.refused + 1 }

/-- The next command of `recv` waits for a TTL that is out of range. -/
def Buffered.Refused (s : Buffered B) : Prop := s.checking = false ∧ s.subscription.Refused s.server.now

instance (s : Buffered B) : Decidable s.Refused := inferInstanceAs (Decidable (_ ∧ _))

/-- Time passes while the buffer lives, a client appends below 2^53 or finishes, or the subscription
does the next command of its `recv`. -/
inductive BufferStep (buffer : StreamBuffer B) (name : Bytes) :
    Buffered B → BufferMove B → Buffered B → Prop
  | pass {s clock} (h : s.server.clock ≤ clock)
    (hlive : ∀ deadline, deadlineOf (s.server.db (buffer.key name)) = some deadline →
      clock / 1000 ≤ deadline) :
    BufferStep buffer name s (.pass clock) { s with server := s.server.advance clock }
  | append {s body} (hsmall : s.bodies.length + 2 < 2 ^ 53) :
    BufferStep buffer name s (.append body) { s with
      server := (buffer.append name body s.server).2
      bodies := s.bodies ++ appended buffer s.finished body
      indices := s.indices ++ indexOf (buffer.append name body s.server).1 }
  | finish {s} :
    BufferStep buffer name s .finish { s with server := (buffer.finish name s.server).2, finished := true }
  | recv {s protocol batch} (hbatch : 0 < batch) :
    BufferStep buffer name s (.recv protocol batch) (s.recv buffer.codec protocol batch)

/-- Nothing is appended yet, and a subscription starts at an index. -/
def StreamBuffer.fresh (buffer : StreamBuffer B) (name : Bytes) (start : ℕ) (server : Server) :
    Buffered B :=
  ⟨server, [], false, [], buffer.subscribe name start, false, [], 0⟩

/-- What a subscription outputs for the bodies from its index on: the first of them, or all of them and
then the end of the finished buffer, or none because the buffer did not exist. -/
inductive Delivers (bodies : List B) (finished : Bool) : List (Except Error (Option B)) → Prop
  | bodies {received} (h : received <+: bodies) :
    Delivers bodies finished (received.map fun body => .ok (some body))
  | ended (n : ℕ) (h : finished = true) :
    Delivers bodies finished (bodies.map (fun body => .ok (some body)) ++ List.replicate (n + 1) (.ok none))
  | gone (n : ℕ) : Delivers bodies finished (.error goneBuffer :: List.replicate n (.ok none))

/-- What the next command of `recv` must come to. -/
def Buffered.due (s : Buffered B) (start : ℕ) : Round B :=
  if s.subscription.ended then .output (.ok none)
  else if s.checking then
    if s.bodies.isEmpty && !s.finished then .output (.error goneBuffer) else .read
  else match s.bodies[start + s.outputs.length]? with
    | some body => .output (.ok (some body))
    | none => if s.finished then .output (.ok none) else .check

/-! ### The buffer -/

/-- The bodies are stored as `values`, and the appends that were successful output their indices: none
was after one whose TTL was out of range. -/
structure Stores (buffer : StreamBuffer B) (name : Bytes) (s : Buffered B) (values : List Bytes) :
    Prop where
  stored : ∃ expires, s.server.db (buffer.key name) = streamOf (bufferFields values s.finished) expires
  bodies : List.Forall₂ (fun bytes body => buffer.codec.deserialize bytes = .ok body) values s.bodies
  small : s.bodies.length + 1 < 2 ^ 53
  indices : s.indices = List.range s.indices.length
  le : s.indices.length ≤ s.bodies.length
  full : s.indices.length < s.bodies.length → outOfRange s.server.now (millis buffer.ttl)

variable {buffer : StreamBuffer B} {name : Bytes} {s s' : Buffered B} {values : List Bytes} {start : ℕ}

theorem Stores.length (h : Stores buffer name s values) : values.length = s.bodies.length :=
  h.bodies.length_eq

theorem Stores.pass {clock : ℕ} (h : Stores buffer name s values) (hclock : s.server.clock ≤ clock)
    (hlive : ∀ deadline, deadlineOf (s.server.db (buffer.key name)) = some deadline →
      clock / 1000 ≤ deadline) :
    Stores buffer name { s with server := s.server.advance clock } values := by
  obtain ⟨expires, hdb⟩ := h.stored
  refine ⟨⟨expires, ?_⟩, h.bodies, h.small, h.indices, h.le, fun hlt => ?_⟩
  · rcases s.server.db_advance (buffer.key name) clock with ⟨hsame, -⟩ | ⟨hgone, hnone | ⟨deadline, hd, hlt⟩⟩
    · exact hsame.trans hdb
    · exact (hgone.trans hnone.symm).trans hdb
    · exact absurd (hlive deadline hd) (Nat.not_le.mpr hlt)
  · have hout := h.full hlt
    have hnow : s.server.now ≤ clock / 1000 := Nat.div_le_div_right hclock
    unfold outOfRange at hout ⊢
    rw [Server.now_advance]
    omega

/-- **An append**: a body at the end with its index, or nothing. -/
theorem Stores.append (h : Stores buffer name s values) (hround : buffer.codec.RoundTrips) {body : B}
    {result : Except Error (Option ℕ)} {server : Server} (hsmall : s.bodies.length + 2 < 2 ^ 53)
    (ha : buffer.append name body s.server = (result, server)) : ∃ values',
      (values' = values ∨ s.finished = false ∧ ∃ bytes, values' = values ++ [bytes]) ∧
      Stores buffer name { s with
        server
        bodies := s.bodies ++ appended buffer s.finished body
        indices := s.indices ++ indexOf result } values' := by
  obtain ⟨expires, hdb⟩ := h.stored
  unfold appended
  by_cases hf : s.finished = true
  · -- a finished buffer stays as it is
    rw [hf] at hdb
    rw [append_of_finished hdb] at ha
    obtain ⟨rfl, rfl⟩ := Prod.mk.inj ha
    have hindex : indexOf ((buffer.codec.serialize body).map fun _ => none) = [] := by
      cases buffer.codec.serialize body <;> rfl
    refine ⟨values, Or.inl rfl, ?_⟩
    simp only [hindex, if_pos hf, List.append_nil]
    exact h
  · have hopen : s.finished = false := by simpa using hf
    rw [hopen] at hdb
    rw [if_neg hf]
    cases hb : buffer.codec.serialize body with
    | error error =>
      have he : buffer.append name body s.server = (.error error, s.server) := by
        unfold StreamBuffer.append
        rw [hb]
        rfl
      obtain ⟨rfl, rfl⟩ := Prod.mk.inj (he.symm.trans ha)
      refine ⟨values, Or.inl rfl, ?_⟩
      simp only [indexOf, List.append_nil]
      exact h
    | ok bytes =>
      obtain ⟨result', expires', hadd, hresult⟩ := append_of_open hdb hb
      obtain ⟨rfl, rfl⟩ := Prod.mk.inj (hadd.symm.trans ha)
      refine ⟨values ++ [bytes], Or.inr ⟨hopen, bytes, rfl⟩, ⟨expires', ?_⟩, ?_, ?_, ?_, ?_, ?_⟩
      · show (s.server.put _ _).db _ = streamOf (bufferFields _ s.finished) _
        rw [Server.db_put_self, hopen]
      · exact List.rel_append h.bodies (.cons (hround.deserialize hb) .nil)
      · show (s.bodies ++ [body]).length + 1 < 2 ^ 53
        rw [List.length_append, List.length_singleton]
        omega
      · rcases hresult with ⟨rfl, hin⟩ | ⟨⟨error, rfl⟩, -⟩
        · have hall : s.indices.length = values.length := by
            rw [h.length]
            exact Nat.le_antisymm h.le (Nat.not_lt.mp fun hlt => hin (h.full hlt))
          show s.indices ++ [values.length] = List.range (s.indices ++ [values.length]).length
          rw [List.length_append, List.length_singleton, List.range_succ, ← h.indices, hall]
        · show s.indices ++ [] = List.range (s.indices ++ []).length
          rw [List.append_nil]
          exact h.indices
      · have hle : (indexOf result').length ≤ 1 := by
          unfold indexOf
          split <;> simp
        have := h.le
        simp only [List.length_append, List.length_singleton]
        omega
      · intro hlt
        rcases hresult with ⟨rfl, hin⟩ | ⟨-, hout⟩
        · refine absurd (h.full ?_) hin
          simp only [List.length_append, List.length_singleton, indexOf] at hlt
          omega
        · exact hout

/-- **The finish** adds the end. -/
theorem Stores.finish (h : Stores buffer name s values) {result : Except Error Bool} {server : Server}
    (hf : buffer.finish name s.server = (result, server)) :
    Stores buffer name { s with server, finished := true } values := by
  obtain ⟨expires, hdb⟩ := h.stored
  by_cases hfinished : s.finished = true
  · rw [hfinished] at hdb
    obtain ⟨rfl, rfl⟩ := Prod.mk.inj ((finish_of_finished hdb).symm.trans hf)
    exact ⟨⟨expires, hdb⟩, h.bodies, h.small, h.indices, h.le, h.full⟩
  · rw [Bool.eq_false_iff.mpr hfinished] at hdb
    obtain ⟨result', expires', hfin⟩ := finish_of_open hdb
    obtain ⟨rfl, rfl⟩ := Prod.mk.inj (hfin.symm.trans hf)
    exact ⟨⟨expires', Server.db_put_self _ _ _⟩, h.bodies, h.small, h.indices, h.le, h.full⟩

/-! ### The subscription -/

/-- The subscription has output the first bodies from its index on and its cursor is at the next one, or
it has ended. -/
inductive Subscribed (buffer : StreamBuffer B) (name : Bytes) (start : ℕ) (s : Buffered B)
    (values : List Bytes) : Prop
  | following (received : List B) (hopen : s.subscription.ended = false)
    (hkey : s.subscription.cursor.key = buffer.key name)
    (hreads : Reads (bufferFields values s.finished) s.subscription.cursor (start + received.length))
    (hpre : received <+: s.bodies.drop start)
    (houtputs : s.outputs = received.map fun body => .ok (some body))
  | ended (n : ℕ) (hended : s.subscription.ended = true) (hcheck : s.checking = false)
    (hfinished : s.finished = true)
    (houtputs : s.outputs = (s.bodies.drop start).map (fun body => .ok (some body)) ++
      List.replicate (n + 1) (.ok none))
  | gone (n : ℕ) (hended : s.subscription.ended = true) (hcheck : s.checking = false)
    (houtputs : s.outputs = .error goneBuffer :: List.replicate n (.ok none))

theorem Subscribed.delivers (h : Subscribed buffer name start s values) :
    Delivers (s.bodies.drop start) s.finished s.outputs := by
  cases h with
  | following received _ _ _ hpre houtputs => exact houtputs ▸ .bodies hpre
  | ended n _ _ hfinished houtputs => exact houtputs ▸ .ended n hfinished
  | gone n _ _ houtputs => exact houtputs ▸ .gone n

/-- What the writers add is after what was received. -/
theorem Subscribed.write (h : Subscribed buffer name start s values) {server : Server} {bodies : List B}
    {finished : Bool} {indices : List ℕ} {values' : List Bytes} (hb : s.bodies <+: bodies)
    (hsame : s.finished = true → bodies = s.bodies ∧ finished = true)
    (hreads : ∀ j, Reads (bufferFields values s.finished) s.subscription.cursor j →
      Reads (bufferFields values' finished) s.subscription.cursor j) :
    Subscribed buffer name start { s with server, bodies, finished, indices } values' := by
  cases h with
  | following received hopen hkey hr hpre houtputs =>
    exact .following received hopen hkey (hreads _ hr) (hpre.trans (hb.drop start)) houtputs
  | ended n hended hcheck hfinished houtputs =>
    obtain ⟨rfl, rfl⟩ := hsame hfinished
    exact .ended n hended hcheck rfl houtputs
  | gone n hended hcheck houtputs => exact .gone n hended hcheck houtputs

theorem Subscribed.refused (h : Subscribed buffer name start s values) {refused : ℕ} :
    Subscribed buffer name start { s with refused } values := by
  cases h with
  | following received hopen hkey hreads hpre houtputs => exact .following received hopen hkey hreads hpre houtputs
  | ended n hended hcheck hfinished houtputs => exact .ended n hended hcheck hfinished houtputs
  | gone n hended hcheck houtputs => exact .gone n hended hcheck houtputs

theorem exists_value {R : Bytes → B → Prop} {values : List Bytes} {bodies : List B}
    (h : List.Forall₂ R values bodies) {j : ℕ} {body : B} (hj : bodies[j]? = some body) :
    ∃ bytes, values[j]? = some bytes ∧ R bytes body := by
  induction h generalizing j with
  | nil => cases hj
  | cons hr _ ih =>
    cases j with
    | zero =>
      cases hj
      exact ⟨_, rfl, hr⟩
    | succ j => exact ih hj

/-- What a read does: the next body, the end, or nothing new. -/
theorem read_following (h : Stores buffer name s values) {received : List B} (protocol : Protocol)
    {batch : ℕ} (hbatch : 0 < batch) (hopen : s.subscription.ended = false)
    (hkey : s.subscription.cursor.key = buffer.key name)
    (hreads : Reads (bufferFields values s.finished) s.subscription.cursor (start + received.length))
    (hin : ¬ s.subscription.Refused s.server.now) :
    (∃ body cursor, s.bodies[start + received.length]? = some body ∧
      s.subscription.read buffer.codec protocol batch s.server =
        (.ok (.output (.ok (some body)), { s.subscription with cursor }), s.server) ∧
      cursor.key = buffer.key name ∧
      Reads (bufferFields values s.finished) cursor (start + received.length + 1)) ∨
    (∃ cursor, s.finished = true ∧ start + received.length = s.bodies.length ∧
      s.subscription.read buffer.codec protocol batch s.server =
        (.ok (.output (.ok none), { s.subscription with cursor, ended := true }), s.server)) ∨
    (s.bodies[start + received.length]? = none ∧
      (s.finished = true → s.bodies.length < start + received.length) ∧
      s.subscription.read buffer.codec protocol batch s.server = (.ok (.check, s.subscription), s.server)) := by
  obtain ⟨expires, hdb⟩ := h.stored
  rw [← hkey] at hdb
  have hsmall : values.length + 1 < 2 ^ 64 := by
    have := h.small
    rw [h.length]
    omega
  cases hj : s.bodies[start + received.length]? with
  | some body =>
    obtain ⟨bytes, hbytes, hbody⟩ := exists_value h.bodies hj
    obtain ⟨cursor, hread, hk, hr⟩ := read_of_body hopen hdb hreads hin protocol hbatch hsmall hbytes hbody
    exact Or.inl ⟨body, cursor, rfl, hread, hk.trans hkey, hr⟩
  | none =>
    have hle := List.getElem?_eq_none_iff.mp hj
    by_cases hend : s.finished = true ∧ start + received.length = s.bodies.length
    · obtain ⟨cursor, hread, -⟩ := read_of_end hopen hdb hreads hin protocol hbatch hsmall hend.1
        (hend.2.trans h.length.symm)
      exact Or.inr (Or.inl ⟨cursor, hend.1, hend.2, hread⟩)
    · refine Or.inr (Or.inr ⟨rfl, fun hf => Nat.lt_of_le_of_ne hle fun he => hend ⟨hf, he.symm⟩,
        read_of_none hopen hdb hreads hin protocol ?_⟩)
      by_cases hf : s.finished = true
      · have := length_bufferFields_le values s.finished
        rw [h.length] at this
        have : start + received.length ≠ s.bodies.length := fun he => hend ⟨hf, he⟩
        omega
      · rw [Bool.eq_false_iff.mpr hf, length_bufferFields_open, h.length]
        exact hle

/-- What a check does: the buffer exists, or it was never appended to nor finished. -/
theorem check_following (h : Stores buffer name s values)
    (hkey : s.subscription.cursor.key = buffer.key name) :
    (s.bodies.isEmpty && !s.finished) = false ∧
      s.subscription.check (B := B) s.server = (.ok (.read, s.subscription), s.server) ∨
    (s.bodies.isEmpty && !s.finished) = true ∧ s.bodies = [] ∧ s.subscription.check (B := B) s.server =
      (.ok (.output (.error goneBuffer), { s.subscription with ended := true }), s.server) := by
  obtain ⟨expires, hdb⟩ := h.stored
  rw [← hkey] at hdb
  cases hempty : s.bodies.isEmpty && !s.finished with
  | false =>
    refine Or.inl ⟨rfl, check_of_some ?_⟩
    rw [hdb, streamOf_of_ne_nil]
    · rfl
    · intro hnil
      have hvalues : values = [] ∧ s.finished = false := by simpa [bufferFields] using hnil
      have hbodies : s.bodies = [] := by
        rw [← List.length_eq_zero_iff, ← h.length, hvalues.1]
        rfl
      rw [hbodies, hvalues.2] at hempty
      cases hempty
  | true =>
    rw [Bool.and_eq_true, List.isEmpty_iff, Bool.not_eq_true'] at hempty
    refine Or.inr ⟨rfl, hempty.1, check_of_none ?_⟩
    have hvalues : values = [] := by rw [← List.length_eq_zero_iff, h.length, hempty.1]; rfl
    rw [hdb, hvalues, hempty.2]
    rfl

theorem map_concat (received : List B) (body : B) :
    received.map (fun body => (.ok (some body) : Except Error (Option B))) ++ [.ok (some body)] =
      (received ++ [body]).map fun body => .ok (some body) := by simp

/-- A command that Redis refuses. -/
theorem round_of_refused (codec : Codec B) (protocol : Protocol) (batch : ℕ) (h : s.Refused) :
    ∃ error, s.round codec protocol batch s.server = (.error (.server error), s.server) := by
  obtain ⟨error, he⟩ := read_of_refused codec protocol batch h.2
  refine ⟨error, ?_⟩
  rw [Buffered.round, if_neg (by simp [h.1])]
  exact he

/-- A prefix goes on with the next body. -/
theorem prefix_drop_snoc {received bodies : List B} (h : received <+: bodies.drop start) {body : B}
    (hj : bodies[start + received.length]? = some body) : received ++ [body] <+: bodies.drop start := by
  have htake := List.prefix_iff_eq_take.mp h
  rw [List.prefix_iff_eq_take, List.length_append, List.length_singleton, List.take_add_one, ← htake,
    List.getElem?_drop, hj]
  rfl

/-- What is left of a subscription by a command of `recv`. -/
def Subscribed.Left (buffer : StreamBuffer B) (name : Bytes) (start : ℕ) (s : Buffered B) (values : List Bytes)
    (subscription : StreamBufferSubscription) : Round B → Prop
  | .output result => Subscribed buffer name start { s with
      subscription
      checking := false
      outputs := s.outputs ++ [result] } values
  | .read => Subscribed buffer name start { s with subscription, checking := false } values
  | .check => Subscribed buffer name start { s with subscription, checking := true } values

section Following

variable {received : List B} (h : Stores buffer name s values) (hopen : s.subscription.ended = false)
  (hkey : s.subscription.cursor.key = buffer.key name)
  (hreads : Reads (bufferFields values s.finished) s.subscription.cursor (start + received.length))
  (hpre : received <+: s.bodies.drop start)
  (houtputs : s.outputs = received.map fun body => .ok (some body))
include h hopen hkey hreads hpre houtputs

/-- A check of a subscription that has not ended. -/
theorem round_checking (hchecking : s.checking = true) (protocol : Protocol) (batch : ℕ) :
    ∃ round subscription, s.round buffer.codec protocol batch s.server = (.ok (round, subscription), s.server) ∧
      round = s.due start ∧ Subscribed.Left buffer name start s values subscription round := by
  unfold Buffered.round Buffered.due
  rw [hopen, hchecking]
  rcases check_following h hkey with ⟨he, hcheck⟩ | ⟨he, hnil, hcheck⟩
  · refine ⟨.read, s.subscription, hcheck, ?_, ?_⟩
    · rw [he]
      rfl
    · exact .following received hopen hkey hreads hpre houtputs
  · refine ⟨.output (.error goneBuffer), _, hcheck, ?_, ?_⟩
    · rw [he]
      rfl
    · have hreceived : received = [] := by
        rw [hnil, List.drop_nil, List.prefix_nil] at hpre
        exact hpre
      refine .gone 0 rfl rfl ?_
      show s.outputs ++ [_] = _
      rw [houtputs, hreceived]
      rfl

/-- A read of a subscription that has not ended. -/
theorem round_reading (hchecking : s.checking = false) (hin : ¬ s.subscription.Refused s.server.now)
    (protocol : Protocol) {batch : ℕ} (hbatch : 0 < batch) : ∃ round subscription,
      s.round buffer.codec protocol batch s.server = (.ok (round, subscription), s.server) ∧
      ((s.finished = true → start ≤ s.bodies.length) → round = s.due start) ∧
      Subscribed.Left buffer name start s values subscription round := by
  have hlen : s.outputs.length = received.length := by rw [houtputs, List.length_map]
  unfold Buffered.round Buffered.due
  rw [hopen, hchecking, hlen]
  rcases read_following h protocol hbatch hopen hkey hreads hin with ⟨body, cursor, hj, hread, hk, hr⟩ |
    ⟨cursor, hf, hj, hread⟩ | ⟨hj, hf, hread⟩
  · refine ⟨_, _, hread, fun _ => ?_, ?_⟩
    · rw [hj]
      rfl
    · refine .following (received ++ [body]) hopen hk ?_ (prefix_drop_snoc hpre hj) ?_
      · rw [List.length_append, List.length_singleton, ← Nat.add_assoc]
        exact hr
      · show s.outputs ++ [_] = _
        rw [houtputs, map_concat]
  · refine ⟨_, _, hread, fun _ => ?_, ?_⟩
    · rw [List.getElem?_eq_none hj.ge, hf]
      rfl
    · have hall : received = s.bodies.drop start := by
        refine hpre.eq_of_length ?_
        rw [List.length_drop]
        omega
      refine .ended 0 rfl rfl hf ?_
      show s.outputs ++ [_] = _
      rw [houtputs, hall]
      rfl
  · refine ⟨_, _, hread, fun hstart => ?_, ?_⟩
    · rw [hj]
      by_cases hfin : s.finished = true
      · have hle := hpre.length_le
        rw [List.length_drop] at hle
        have := hf hfin
        have := hstart hfin
        omega
      · rw [Bool.eq_false_iff.mpr hfin]
        rfl
    · exact .following received hopen hkey hreads hpre houtputs

end Following

/-- **A command of `recv`** comes to what is due, and the outputs stay the bodies from the index on. -/
theorem Subscribed.round (h : Stores buffer name s values) (hsub : Subscribed buffer name start s values)
    (hin : ¬ s.Refused) (protocol : Protocol) {batch : ℕ} (hbatch : 0 < batch) : ∃ round subscription,
      s.round buffer.codec protocol batch s.server = (.ok (round, subscription), s.server) ∧
      ((s.finished = true → start ≤ s.bodies.length) → round = s.due start) ∧
      Subscribed.Left buffer name start s values subscription round := by
  cases hsub with
  | following received hopen hkey hreads hpre houtputs =>
    cases hchecking : s.checking with
    | true =>
      obtain ⟨round, subscription, hround, hdue, hleft⟩ :=
        round_checking h hopen hkey hreads hpre houtputs hchecking protocol batch
      exact ⟨round, subscription, hround, fun _ => hdue, hleft⟩
    | false =>
      exact round_reading h hopen hkey hreads hpre houtputs hchecking (fun hr => hin ⟨hchecking, hr⟩) protocol hbatch
  | ended n hended hcheck hfinished houtputs =>
    unfold Buffered.round Buffered.due
    rw [hended, hcheck]
    refine ⟨_, _, read_of_ended protocol batch hended, fun _ => rfl, ?_⟩
    refine .ended (n + 1) hended rfl hfinished ?_
    show s.outputs ++ [_] = _
    rw [houtputs, List.append_assoc, ← List.replicate_succ']
  | gone n hended hcheck houtputs =>
    unfold Buffered.round Buffered.due
    rw [hended, hcheck]
    refine ⟨_, _, read_of_ended protocol batch hended, fun _ => rfl, ?_⟩
    refine .gone (n + 1) hended rfl ?_
    show s.outputs ++ [_] = _
    rw [houtputs, List.cons_append, ← List.replicate_succ']

/-- **One step.** -/
theorem Stores.step (hround : buffer.codec.RoundTrips) {move : BufferMove B}
    (h : Stores buffer name s values ∧ Subscribed buffer name start s values)
    (hs : BufferStep buffer name s move s') :
    ∃ values', Stores buffer name s' values' ∧ Subscribed buffer name start s' values' := by
  obtain ⟨h, hsub⟩ := h
  cases hs with
  | pass hclock hlive =>
    exact ⟨values, h.pass hclock hlive, hsub.write List.prefix_rfl (fun hf => ⟨rfl, hf⟩) fun _ hr => hr⟩
  | @append body hsmall =>
    obtain ⟨values', hv, h'⟩ := h.append hround hsmall rfl
    refine ⟨values', h', hsub.write (List.prefix_append _ _) (fun hf => ?_) fun j hr => ?_⟩
    · rw [appended, if_pos hf, List.append_nil]
      exact ⟨rfl, hf⟩
    · rcases hv with rfl | ⟨hopen, bytes, rfl⟩
      · exact hr
      · rw [hopen] at hr ⊢
        rw [← bufferFields_append]
        exact hr.snoc _
  | finish =>
    refine ⟨values, h.finish rfl, hsub.write List.prefix_rfl (fun _ => ⟨rfl, rfl⟩) fun j hr => ?_⟩
    by_cases hfin : s.finished = true
    · rwa [hfin] at hr
    · rw [Bool.eq_false_iff.mpr hfin] at hr
      rw [← bufferFields_finish]
      exact hr.snoc _
  | @recv protocol batch hbatch =>
    have hstores : ∀ subscription checking outputs refused,
        Stores buffer name { s with subscription, checking, outputs, refused } values :=
      fun _ _ _ _ => ⟨h.stored, h.bodies, h.small, h.indices, h.le, h.full⟩
    unfold Buffered.recv
    by_cases hin : s.Refused
    · obtain ⟨error, he⟩ := round_of_refused buffer.codec protocol batch hin
      rw [he]
      exact ⟨values, hstores _ _ _ _, hsub.refused⟩
    · obtain ⟨round, subscription, he, -, hnext⟩ := hsub.round h hin protocol hbatch
      rw [he]
      cases round <;> exact ⟨values, hstores _ _ _ _, hnext⟩

/-! ### What runs give -/

theorem stores_fresh (buffer : StreamBuffer B) (name : Bytes) (start : ℕ) {server : Server}
    (hnone : server.db (buffer.key name) = none) :
    Stores buffer name (buffer.fresh name start server) [] ∧
      Subscribed buffer name start (buffer.fresh name start server) [] := by
  refine ⟨⟨⟨none, hnone⟩, .nil, ?_, rfl, Nat.le_refl _, fun h => absurd h (Nat.lt_irrefl _)⟩, ?_⟩
  · show 0 + 1 < 2 ^ 53
    decide
  · exact .following [] rfl rfl (reads_new _ _ _) (List.nil_prefix) rfl

/-- What is stored after a run, and what the subscription has of it. -/
theorem exists_stores (hround : buffer.codec.RoundTrips) {server : Server}
    (hnone : server.db (buffer.key name) = none) {moves : List (BufferMove B)}
    (run : Steps (BufferStep buffer name) (buffer.fresh name start server) moves s) :
    ∃ values, Stores buffer name s values ∧ Subscribed buffer name start s values := by
  refine run.invariant (p := fun _ s => ∃ values, Stores buffer name s values ∧
    Subscribed buffer name start s values) ⟨[], stores_fresh buffer name start hnone⟩ ?_
  rintro _ s _ s' - ⟨values, h⟩ hs
  exact Stores.step hround h hs

/-- **A subscription gets exactly the array.** The appends output the indices 0, 1, …, and none after
the finish; the subscription outputs the bodies from its index on and then ends, unless it fails
because the buffer did not exist; and each command of its `recv` fails if it waits for a TTL that is out of
range, and comes to what is due otherwise. -/
theorem buffer_delivers (buffer : StreamBuffer B) (hround : buffer.codec.RoundTrips) (name : Bytes)
    (server : Server) (hnone : server.db (buffer.key name) = none) (start : ℕ)
    {moves : List (BufferMove B)} {s : Buffered B}
    (run : Steps (BufferStep buffer name) (buffer.fresh name start server) moves s) :
    s.indices = List.range s.indices.length ∧
    (s.finished = true → ∀ body index, (buffer.append name body s.server).1 ≠ .ok (some index)) ∧
    Delivers (s.bodies.drop start) s.finished s.outputs ∧
    (s.Refused → ∀ protocol batch, ∃ error,
      s.round buffer.codec protocol batch s.server = (.error (.server error), s.server)) ∧
    (¬ s.Refused → (s.finished = true → start ≤ s.bodies.length) → ∀ protocol batch, 0 < batch →
      (s.round buffer.codec protocol batch s.server).1.map Prod.fst = .ok (s.due start)) := by
  obtain ⟨values, h, hsub⟩ := exists_stores hround hnone run
  refine ⟨h.indices, fun hf body index happend => ?_, hsub.delivers,
    fun hr protocol batch => round_of_refused buffer.codec protocol batch hr,
    fun hin hstart protocol batch hbatch => ?_⟩
  · obtain ⟨expires, hdb⟩ := h.stored
    rw [hf] at hdb
    rw [append_of_finished hdb] at happend
    cases hb : buffer.codec.serialize body with
    | error error =>
      rw [hb] at happend
      cases happend
    | ok bytes =>
      rw [hb] at happend
      cases happend
  · obtain ⟨round, subscription, he, hdue, -⟩ := hsub.round h hin protocol hbatch
    rw [he, ← hdue hstart]
    rfl

/-! ### A buffer that does not exist yet -/

/-- Buffers of bytes with a TTL of 10 ms. -/
def rawBuffer : StreamBuffer Bytes := ⟨"raw", 10000000, ⟨.ok, .ok⟩⟩

theorem rawBuffer_roundTrips : rawBuffer.codec.RoundTrips := by
  rintro _ _ ⟨⟩
  rfl

theorem BufferStep.of_recv (s : Buffered B) (protocol : Protocol) :
    BufferStep buffer name s (.recv protocol 128) (s.recv buffer.codec protocol 128) := .recv (by decide)

theorem BufferStep.of_pass {s : Buffered B} (clock : ℕ) (h : s.server.clock ≤ clock)
    (hlive : (deadlineOf (s.server.db (buffer.key name))).all fun deadline => clock / 1000 ≤ deadline) :
    BufferStep buffer name s (.pass clock) { s with server := s.server.advance clock } :=
  .pass h fun deadline hd => by
    rw [hd] at hlive
    exact of_decide_eq_true hlive

/-- A subscription from the second body waits for it, and follows the buffer to its end. -/
def rawMoves : List (BufferMove Bytes) :=
  [.append [1], .recv .resp3 128, .pass 5000, .recv .resp3 128, .append [2], .append [3], .recv .resp3 128, .finish,
    .recv .resp2 128, .recv .resp2 128, .recv .resp2 128]

theorem buffer_delivers_raw : ∃ s,
    Steps (BufferStep rawBuffer []) (rawBuffer.fresh [] 1 ⟨0, fun _ => none⟩) rawMoves s ∧
      s.outputs = [.ok (some [2]), .ok (some [3]), .ok none, .ok none] ∧
      Delivers (s.bodies.drop 1) s.finished s.outputs := by
  have h1 : Steps (BufferStep rawBuffer []) (rawBuffer.fresh [] 1 ⟨0, fun _ => none⟩) [.append [1]] _ :=
    Steps.nil.snoc (.append (by decide +kernel))
  have h2 := (h1.snoc (.of_recv _ .resp3)).snoc (.of_pass 5000 (by decide +kernel) (by decide +kernel))
  have h3 : Steps (BufferStep rawBuffer []) (rawBuffer.fresh [] 1 ⟨0, fun _ => none⟩)
      [.append [1], .recv .resp3 128, .pass 5000, .recv .resp3 128, .append [2]] _ :=
    (h2.snoc (.of_recv _ .resp3)).snoc (.append (by decide +kernel))
  have h4 : Steps (BufferStep rawBuffer []) (rawBuffer.fresh [] 1 ⟨0, fun _ => none⟩)
      [.append [1], .recv .resp3 128, .pass 5000, .recv .resp3 128, .append [2], .append [3]] _ :=
    h3.snoc (.append (by decide +kernel))
  have h5 := (h4.snoc (.of_recv _ .resp3)).snoc .finish
  have h6 := ((h5.snoc (.of_recv _ .resp2)).snoc (.of_recv _ .resp2)).snoc (.of_recv _ .resp2)
  refine ⟨_, h6, by decide +kernel, ?_⟩
  exact (buffer_delivers rawBuffer rawBuffer_roundTrips [] ⟨0, fun _ => none⟩ rfl 1 h6).2.2.1

/-- Nobody appends for a whole TTL. -/
def goneMoves : List (BufferMove Bytes) :=
  [.pass 10000, .recv .resp3 128, .recv .resp3 128, .recv .resp3 128, .append [1]]

/-- **A subscription that waited before the buffer existed ends without the body.** -/
theorem buffer_gone : ∃ s,
    Steps (BufferStep rawBuffer []) (rawBuffer.fresh [] 0 ⟨0, fun _ => none⟩) goneMoves s ∧
      s.outputs = [.error goneBuffer, .ok none] ∧ s.bodies = [[1]] ∧ s.finished = false := by
  have h1 : Steps (BufferStep rawBuffer []) (rawBuffer.fresh [] 0 ⟨0, fun _ => none⟩) [.pass 10000] _ :=
    Steps.nil.snoc (.pass (by decide +kernel) (by rintro _ ⟨⟩))
  have h2 := (h1.snoc (.of_recv _ .resp3)).snoc (.of_recv _ .resp3)
  have h3 := h2.snoc (.of_recv _ .resp3)
  exact ⟨_, h3.snoc (.append (by decide +kernel)), by decide +kernel, by decide +kernel, by decide +kernel⟩

end Wakuwaku.Entity.Redis.Dynamic
