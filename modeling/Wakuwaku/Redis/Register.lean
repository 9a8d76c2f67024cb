import Wakuwaku.Steps
import Wakuwaku.Redis.Local

/-! # Registers that expire

A key whose every write sets a deadline is a register: it holds the value written last, until its deadline
or until it is cleared. Once the deadline has passed, it is as if nothing had been written. Queries on the
key that do what their meaning for the register says (`Queries.Sound`) do so in every run
(`Queries.Sound.run`). -/

namespace Wakuwaku.Redis

/-- The value written last, if it was not cleared, and the last millisecond it lives. -/
abbrev Register (α : Type) : Type := Option (α × ℕ)

namespace Register

variable {α : Type} {register : Register α} {now : ℕ} {a : α}

/-- What is left of the register at a millisecond. -/
def running (now : ℕ) (register : Register α) : Register α := register.filter fun entry => now ≤ entry.2

/-- The value at a millisecond. -/
def read (now : ℕ) (register : Register α) : Option α := (register.running now).map Prod.fst

theorem running_of_le {deadline : ℕ} (h : now ≤ deadline) : running now (some (a, deadline)) = some (a, deadline) := by
  simp [running, Option.filter, h]

theorem running_of_lt {deadline : ℕ} (h : deadline < now) : running now (some (a, deadline)) = none := by
  simp [running, Option.filter, h]

theorem running_eq_some {entry : α × ℕ} :
    register.running now = some entry ↔ register = some entry ∧ now ≤ entry.2 := by
  unfold running
  rw [Option.filter_eq_some_iff, decide_eq_true_eq]

theorem read_eq_some : register.read now = some a ↔ ∃ deadline, register = some (a, deadline) ∧ now ≤ deadline := by
  unfold read
  rw [Option.map_eq_some_iff]
  constructor
  · rintro ⟨⟨a, deadline⟩, he, rfl⟩
    exact ⟨deadline, running_eq_some.mp he⟩
  · rintro ⟨deadline, he⟩
    exact ⟨(a, deadline), running_eq_some.mpr he, rfl⟩

theorem read_eq_none : register.read now = none ↔ register.running now = none := Option.map_eq_none_iff

/-- The key holds what is left of the register. -/
def At (encode : α → Item) (key : Bytes) (server : Server) (register : Register α) : Prop :=
  server.db key = (register.running server.now).map fun entry => ⟨encode entry.1, some entry.2⟩

variable {encode : α → Item} {key : Bytes} {server : Server}

theorem at_none (h : server.db key = none) : At encode key server none := h

theorem At.db_of_none (h : At encode key server register) (hr : register.read server.now = none) :
    server.db key = none := by
  unfold At at h
  rw [h, read_eq_none.mp hr]
  rfl

theorem At.db_of_some (h : At encode key server register) (hr : register.read server.now = some a) :
    ∃ deadline, register = some (a, deadline) ∧ server.now ≤ deadline ∧
      server.db key = some ⟨encode a, some deadline⟩ := by
  obtain ⟨deadline, rfl, hle⟩ := read_eq_some.mp hr
  unfold At at h
  rw [running_of_le hle] at h
  exact ⟨deadline, rfl, hle, h⟩

/-- Writing a value, in place of what was there. -/
theorem at_put {deadline : ℕ} (encode : α → Item) (key : Bytes) (a : α) (h : server.now ≤ deadline) :
    At encode key (server.put key (some ⟨encode a, some deadline⟩)) (some (a, deadline)) := by
  unfold At
  rw [Server.db_put_self, Server.now_put, running_of_le h]
  rfl

theorem at_put_none (encode : α → Item) (key : Bytes) (server : Server) :
    At encode key (server.put key none) none := Server.db_put_self _ _ _

/-- **Time passes**: the key expires when the register does. -/
theorem At.advance {clock : ℕ} (h : At encode key server register) (hclock : server.clock ≤ clock) :
    At encode key (server.advance clock) register := by
  have hnow : server.now ≤ clock / 1000 := Nat.div_le_div_right hclock
  unfold At at h ⊢
  rw [Server.now_advance]
  cases register with
  | none => exact Server.db_advance_of_none clock h
  | some entry =>
    obtain ⟨a, deadline⟩ := entry
    by_cases hle : server.now ≤ deadline
    · rw [running_of_le hle] at h
      rw [Server.db_advance_of_some clock h]
      by_cases hlt : deadline < clock / 1000
      · rw [if_pos hlt, running_of_lt hlt]
        rfl
      · rw [if_neg hlt, running_of_le (Nat.not_lt.mp hlt)]
        rfl
    · rw [running_of_lt (Nat.not_le.mp hle)] at h
      rw [Server.db_advance_of_none clock h, running_of_lt (by omega)]
      rfl

/-! ### Queries -/

/-- Queries on a key and what they mean for a register: what they answer, from the value they find, and
what the register holds then. Some are not allowed at some times. -/
structure Queries (α Op Out : Type) where
  exec : Op → Command Out
  Allowed : ℕ → Op → Prop
  answer : Op → Option α → Except Error Out
  after : Op → ℕ → Register α → Register α

namespace Queries

variable {Op Out : Type} (queries : Queries α Op Out)

/-- Time passes, or a query is served. The register changes by what the query means, whatever the server
does. -/
inductive Step : Server × Register α → Beat Op → Server × Register α → Prop
  | pass {server : Server} {register : Register α} (clock : ℕ) (h : server.clock ≤ clock) :
    Step (server, register) (.pass clock) (server.advance clock, register)
  | query {server : Server} {register : Register α} (op : Op) (h : queries.Allowed server.now op) :
    Step (server, register) (.query op) ((queries.exec op server).2, queries.after op server.now register)

/-- Every query does on the key what it means for the register. -/
def Sound (encode : α → Item) (key : Bytes) : Prop :=
  ∀ op server register, At encode key server register → queries.Allowed server.now op →
    (queries.exec op server).1 = queries.answer op (register.read server.now) ∧
      At encode key (queries.exec op server).2 (queries.after op server.now register)

variable {queries}

/-- **The key is the register** in every run from an absent key. -/
theorem Sound.run (hsound : queries.Sound encode key) {beats : List (Beat Op)} {s : Server × Register α}
    (habsent : server.db key = none) (run : Steps queries.Step (server, none) beats s) :
    At encode key s.1 s.2 := by
  refine Steps.invariant (p := fun _ s => At encode key s.1 s.2) (at_none habsent) ?_ run
  intro t s e s' _ h hs
  cases hs with
  | pass _ hclock => exact h.advance hclock
  | query op hallowed => exact (hsound _ _ _ h hallowed).2

end Queries

end Register

end Wakuwaku.Redis
