import Wakuwaku.Redis.Server
import Mathlib.Data.Set.Function

/-! # Commands that keep to some keys

A command keeps to a set of keys if it changes only those and depends on nothing but those and the time
(`Command.Within`). Queries about items whose keys are disjoint do not influence each other: the queries
about one item are answered as if there were no others (`serve_alone`). -/

namespace Wakuwaku.Redis

variable {α β : Type} {keys : Set Bytes}

/-! ### Actions -/

/-- The action changes only some keys, and depends on them only. -/
structure Action.Within (keys : Set Bytes) (action : Action α) : Prop where
  frame : ∀ s key, key ∉ keys → (action s).2 key = s key
  agree : ∀ s t, Set.EqOn s t keys → (action s).1 = (action t).1 ∧ Set.EqOn (action s).2 (action t).2 keys

namespace Action.Within

theorem pure (a : α) : Action.Within keys (Pure.pure a : Action α) :=
  ⟨fun _ _ _ => rfl, fun _ _ h => ⟨rfl, h⟩⟩

theorem fail (error : Error) : Action.Within keys (Redis.fail error : Action α) :=
  ⟨fun _ _ _ => rfl, fun _ _ h => ⟨rfl, h⟩⟩

theorem ofResult (result : Except Error α) : Action.Within keys (Redis.ofResult result) :=
  ⟨fun _ _ _ => rfl, fun _ _ h => ⟨rfl, h⟩⟩

theorem bind {m : Action α} {f : α → Action β} (hm : m.Within keys) (hf : ∀ a, (f a).Within keys) :
    (m >>= f).Within keys where
  frame s key hkey := by
    have hframe := hm.frame s key hkey
    rcases hs : m s with ⟨e | a, s'⟩
    · rw [bind_of_error hs]
      rwa [hs] at hframe
    · rw [bind_of_ok hs, (hf a).frame s' key hkey]
      rwa [hs] at hframe
  agree s t h := by
    obtain ⟨hresult, hkeys⟩ := hm.agree s t h
    rcases hs : m s with ⟨r, s'⟩
    rcases ht : m t with ⟨r', t'⟩
    rw [hs, ht] at hresult hkeys
    obtain rfl : r = r' := hresult
    cases r with
    | error e =>
      rw [bind_of_error hs, bind_of_error ht]
      exact ⟨rfl, hkeys⟩
    | ok a =>
      rw [bind_of_ok hs, bind_of_ok ht]
      exact (hf a).agree s' t' hkeys

end Action.Within

section Commands

variable {key : Bytes} (hkey : key ∈ keys)
include hkey

theorem hashAt_within : Action.Within keys (hashAt key) where
  frame s other _ := by
    unfold hashAt
    split <;> rfl
  agree s t h := by
    have hat := h hkey
    unfold hashAt
    rw [hat]
    split
    · exact ⟨rfl, h⟩
    · exact ⟨rfl, h⟩
    · exact ⟨rfl, h⟩

theorem streamAt_within : Action.Within keys (streamAt key) where
  frame s other _ := by
    unfold streamAt
    split <;> rfl
  agree s t h := by
    have hat := h hkey
    unfold streamAt
    rw [hat]
    split
    · exact ⟨rfl, h⟩
    · exact ⟨rfl, h⟩
    · exact ⟨rfl, h⟩

omit hkey in
/-- The keys after one of them was changed. -/
theorem eqOn_update {s t : Keyspace} (h : Set.EqOn s t keys) (key : Bytes) (item : Option Item) :
    Set.EqOn (Function.update s key item) (Function.update t key item) keys := by
  intro other ho
  by_cases he : other = key
  · rw [he, Function.update_self, Function.update_self]
  · rw [Function.update_of_ne he, Function.update_of_ne he, h ho]

theorem put_within (item : Item) : Action.Within keys (put key item) where
  frame _ _ ho := Function.update_of_ne (ne_of_mem_of_not_mem hkey ho).symm _ _
  agree _ _ h := ⟨rfl, eqOn_update h _ _⟩

theorem erase_within : Action.Within keys (erase key) where
  frame _ _ ho := Function.update_of_ne (ne_of_mem_of_not_mem hkey ho).symm _ _
  agree _ _ h := ⟨rfl, eqOn_update h _ _⟩

theorem existsKey_within : Action.Within keys (existsKey key) where
  frame _ _ _ := rfl
  agree s t h := by
    unfold existsKey
    rw [h hkey]
    exact ⟨rfl, h⟩

theorem hget_within (field : Bytes) : Action.Within keys (hget key field) :=
  (hashAt_within hkey).bind fun _ => .pure _

theorem hmget_within (names : List Bytes) : Action.Within keys (hmget key names) :=
  (hashAt_within hkey).bind fun _ => .pure _

theorem hset_within (pairs : List (Bytes × Bytes)) : Action.Within keys (hset key pairs) :=
  (hashAt_within hkey).bind fun _ => put_within hkey _

theorem xlen_within : Action.Within keys (xlen key) := (streamAt_within hkey).bind fun _ => .pure _

theorem xtrimAll_within : Action.Within keys (xtrimAll key) := by
  refine (streamAt_within hkey).bind fun _ => (existsKey_within hkey).bind fun _ => ?_
  split
  · exact put_within hkey _
  · exact .pure _

theorem xadd_within (text : Bytes) (fields : List (Bytes × Bytes)) :
    Action.Within keys (xadd key text fields) := by
  refine (streamAt_within hkey).bind fun _ => ?_
  split
  · exact .fail _
  · split
    · exact put_within hkey _
    · exact .fail _

theorem xrange_within : Action.Within keys (xrange key) := (streamAt_within hkey).bind fun _ => .pure _

theorem xrangeFrom_within (start : Bytes) : Action.Within keys (xrangeFrom key start) := by
  refine (streamAt_within hkey).bind fun _ => ?_
  split
  · exact .fail _
  · exact .pure _

theorem xrevrangeLast_within : Action.Within keys (xrevrangeLast key) :=
  (streamAt_within hkey).bind fun _ => .pure _

theorem xread_within (protocol : Protocol) (count now block : ℕ) (after : Bytes) :
    Action.Within keys (xread protocol count now block key after) := by
  unfold xread
  split
  · exact .fail _
  · refine (streamAt_within hkey).bind fun _ => ?_
    split
    · exact .fail _
    · split
      · exact .pure _
      · exact .pure _

end Commands

theorem unlink_within {list : List Bytes} (h : ∀ key ∈ list, key ∈ keys) :
    Action.Within keys (unlink list) := by
  induction list with
  | nil => exact .pure _
  | cons key rest ih =>
    obtain ⟨hkey, hrest⟩ := List.forall_mem_cons.mp h
    refine (existsKey_within hkey).bind fun _ => (erase_within hkey).bind fun _ => ?_
    exact (ih hrest).bind fun _ => .pure _

/-! ### Commands at a time -/

/-- The servers are at one time and store the same at some keys. -/
structure Server.AgreeOn (keys : Set Bytes) (s t : Server) : Prop where
  clock : s.clock = t.clock
  db : Set.EqOn s.db t.db keys

theorem Server.AgreeOn.refl (keys : Set Bytes) (s : Server) : s.AgreeOn keys s := ⟨rfl, fun _ _ => rfl⟩

theorem Server.AgreeOn.now {s t : Server} (h : s.AgreeOn keys t) : s.now = t.now :=
  congrArg (· / 1000) h.clock

theorem Server.AgreeOn.advance {s t : Server} (h : s.AgreeOn keys t) (clock : ℕ) :
    (s.advance clock).AgreeOn keys (t.advance clock) :=
  ⟨rfl, fun _ hkey => congrArg (Option.filter _) (h.db hkey)⟩

theorem Server.AgreeOn.put {s t : Server} (h : s.AgreeOn keys t) (key : Bytes) (stored : Option Stored) :
    (s.put key stored).AgreeOn keys (t.put key stored) := by
  refine ⟨h.clock, fun other ho => ?_⟩
  by_cases he : other = key
  · rw [he, Server.db_put_self, Server.db_put_self]
  · rw [Server.db_put_of_ne _ _ he, Server.db_put_of_ne _ _ he, h.db ho]

/-- The command takes no time, changes only some keys, and depends on them and the time only. -/
structure Command.Within (keys : Set Bytes) (command : Command α) : Prop where
  clock : ∀ s, (command s).2.clock = s.clock
  frame : ∀ s key, key ∉ keys → (command s).2.db key = s.db key
  agree : ∀ s t : Server, s.AgreeOn keys t →
    (command s).1 = (command t).1 ∧ (command s).2.AgreeOn keys (command t).2

namespace Command.Within

theorem pure (a : α) : Command.Within keys (Pure.pure a : Command α) :=
  ⟨fun _ => rfl, fun _ _ _ => rfl, fun _ _ h => ⟨rfl, h⟩⟩

theorem fail (error : Error) : Command.Within keys (Command.fail error : Command α) :=
  ⟨fun _ => rfl, fun _ _ _ => rfl, fun _ _ h => ⟨rfl, h⟩⟩

theorem ofResult (result : Except Error α) : Command.Within keys (Command.ofResult result) :=
  ⟨fun _ => rfl, fun _ _ _ => rfl, fun _ _ h => ⟨rfl, h⟩⟩

theorem bind {m : Command α} {f : α → Command β} (hm : Command.Within keys m)
    (hf : ∀ a, Command.Within keys (f a)) : Command.Within keys (m >>= f) where
  clock s := by
    have hclock := hm.clock s
    rcases hs : m s with ⟨e | a, s'⟩
    · rw [Command.bind_of_error hs]
      rwa [hs] at hclock
    · rw [Command.bind_of_ok hs, (hf a).clock s']
      rwa [hs] at hclock
  frame s key hkey := by
    have hframe := hm.frame s key hkey
    rcases hs : m s with ⟨e | a, s'⟩
    · rw [Command.bind_of_error hs]
      rwa [hs] at hframe
    · rw [Command.bind_of_ok hs, (hf a).frame s' key hkey]
      rwa [hs] at hframe
  agree s t h := by
    obtain ⟨hresult, hkeys⟩ := hm.agree s t h
    rcases hs : m s with ⟨r, s'⟩
    rcases ht : m t with ⟨r', t'⟩
    rw [hs, ht] at hresult hkeys
    obtain rfl : r = r' := hresult
    cases r with
    | error e =>
      rw [Command.bind_of_error hs, Command.bind_of_error ht]
      exact ⟨rfl, hkeys⟩
    | ok a =>
      rw [Command.bind_of_ok hs, Command.bind_of_ok ht]
      exact (hf a).agree s' t' hkeys

theorem multi {m : Command Unit} {n : Command α} (hm : Command.Within keys m) (hn : Command.Within keys n) :
    Command.Within keys (Command.multi m n) where
  clock s := by
    have hclock := hm.clock s
    rcases hs : m s with ⟨e | a, s'⟩
    · rw [Command.multi_of_error hs]
      rw [hs] at hclock
      exact (hn.clock s').trans hclock
    · rw [Command.multi_of_ok hs, hn.clock s']
      rwa [hs] at hclock
  frame s key hkey := by
    have hframe := hm.frame s key hkey
    rcases hs : m s with ⟨e | a, s'⟩
    · rw [Command.multi_of_error hs]
      rw [hs] at hframe
      exact (hn.frame s' key hkey).trans hframe
    · rw [Command.multi_of_ok hs, hn.frame s' key hkey]
      rwa [hs] at hframe
  agree s t h := by
    obtain ⟨hresult, hkeys⟩ := hm.agree s t h
    rcases hs : m s with ⟨r, s'⟩
    rcases ht : m t with ⟨r', t'⟩
    rw [hs, ht] at hresult hkeys
    obtain rfl : r = r' := hresult
    cases r with
    | error e =>
      rw [Command.multi_of_error hs, Command.multi_of_error ht]
      exact ⟨rfl, (hn.agree s' t' hkeys).2⟩
    | ok a =>
      rw [Command.multi_of_ok hs, Command.multi_of_ok ht]
      exact hn.agree s' t' hkeys

end Command.Within

theorem luaNow_within : Command.Within keys luaNow where
  clock _ := rfl
  frame _ _ _ := rfl
  agree s t h := by
    rw [luaNow_apply, luaNow_apply, h.now]
    exact ⟨rfl, h⟩

theorem atKey_within {key : Bytes} (hkey : key ∈ keys)
    (f : ℕ → Option Stored → Except Error (α × Option Stored)) : Command.Within keys (atKey key f) where
  clock s := by
    unfold atKey
    split <;> rfl
  frame s other ho := by
    unfold atKey
    split
    · exact Server.db_put_of_ne _ _ (ne_of_mem_of_not_mem hkey ho).symm
    · rfl
  agree s t h := by
    unfold atKey
    rw [h.now, h.db hkey]
    split
    · exact ⟨rfl, h.put _ _⟩
    · exact ⟨rfl, h⟩

theorem atSortedSet_within {key : Bytes} (hkey : key ∈ keys)
    (f : List (Bytes × ℕ) → α × List (Bytes × ℕ)) : Command.Within keys (atSortedSet key f) :=
  atKey_within hkey _

theorem exec_within {action : Action α} (h : action.Within keys) : Command.Within keys (exec action) where
  clock _ := rfl
  frame s key hkey := by
    show ((action s.keys).2 key).map _ = s.db key
    rw [h.frame s.keys key hkey]
    unfold Server.keys
    cases s.db key <;> rfl
  agree s t hst := by
    have hkeys : Set.EqOn s.keys t.keys keys := fun _ hkey => congrArg (Option.map Stored.item) (hst.db hkey)
    obtain ⟨hresult, hafter⟩ := h.agree _ _ hkeys
    refine ⟨hresult, hst.clock, fun key hkey => ?_⟩
    show ((action s.keys).2 key).map _ = ((action t.keys).2 key).map _
    rw [hafter hkey, hst.db hkey]

theorem execAt_within {action : ℕ → Action α} (h : ∀ now, (action now).Within keys) :
    Command.Within keys (execAt action) where
  clock _ := rfl
  frame s := (exec_within (h s.now)).frame s
  agree s t hst := by
    have hnow : t.now = s.now := hst.now.symm
    have hsame : execAt action t = exec (action s.now) t := by rw [execAt, hnow]
    rw [hsame]
    exact (exec_within (h s.now)).agree s t hst

theorem blpop_within {list : List Bytes} (h : ∀ key ∈ list, key ∈ keys) : Command.Within keys (blpop list) := by
  induction list with
  | nil => exact .pure _
  | cons key rest ih =>
    obtain ⟨hkey, hrest⟩ := List.forall_mem_cons.mp h
    refine (atKey_within hkey _).bind fun value => ?_
    cases value with
    | none => exact ih hrest
    | some value => exact .pure _

/-! ### Queries about items -/

universe u v

/-- Queries, each about one item, and what they do. -/
structure Service (ι : Type u) (Q : Type v) where
  item : Q → ι
  Output : Q → Type
  run : (query : Q) → Command (Output query)

/-- Time passes, or a query is served. -/
inductive Beat (Q : Type v) where
  | pass (clock : ℕ)
  | query (query : Q)

namespace Service

variable {ι : Type u} {Q : Type v} (service : Service ι Q)

/-- The answers to the queries, in order, and the server then. -/
def serve : List (Beat Q) → Server → List ((query : Q) × Except Error (service.Output query)) × Server
  | [], server => ([], server)
  | .pass clock :: rest, server => serve rest (server.advance clock)
  | .query query :: rest, server =>
    let (result, server) := service.run query server
    let (answers, server) := serve rest server
    (⟨query, result⟩ :: answers, server)

variable [DecidableEq ι]

/-- What concerns an item: its queries and the time. -/
def about (i : ι) : Beat Q → Bool
  | .pass _ => true
  | .query query => service.item query = i

variable {service} {keysOf : ι → Set Bytes}

/-- **What other items do does not matter to an item.** From a server that stores the same at its keys, its
queries get the same answers when there are no others, and the same is stored at its keys in the end. -/
theorem serve_alone (hwithin : ∀ query, Command.Within (keysOf (service.item query)) (service.run query))
    (hdisjoint : ∀ i j, i ≠ j → ∀ key ∈ keysOf i, key ∉ keysOf j) (i : ι) (beats : List (Beat Q))
    {s t : Server} (h : s.AgreeOn (keysOf i) t) :
    (service.serve beats s).1.filter (service.item ·.1 = i) =
        (service.serve (beats.filter (service.about i)) t).1 ∧
      (service.serve beats s).2.AgreeOn (keysOf i) (service.serve (beats.filter (service.about i)) t).2 := by
  induction beats generalizing s t with
  | nil => exact ⟨rfl, h⟩
  | cons beat rest ih =>
    cases beat with
    | pass clock => exact ih (h.advance clock)
    | query query =>
      have hserve : service.serve (.query query :: rest) s =
          (⟨query, (service.run query s).1⟩ :: (service.serve rest (service.run query s).2).1,
            (service.serve rest (service.run query s).2).2) := rfl
      by_cases hi : service.item query = i
      · obtain ⟨hresult, hafter⟩ := (hwithin query).agree s t (hi ▸ h)
        obtain ⟨hanswers, hend⟩ := ih (hi ▸ hafter)
        rw [hserve, List.filter_cons_of_pos (by simpa using hi),
          List.filter_cons_of_pos (by simpa [about] using hi)]
        refine ⟨?_, hend⟩
        rw [hanswers, hresult]
        rfl
      · -- the query of another item changes nothing here
        have hkeep : (service.run query s).2.AgreeOn (keysOf i) t := by
          refine ⟨((hwithin query).clock s).trans h.clock, fun key hkey => ?_⟩
          have hother : key ∉ keysOf (service.item query) :=
            fun hin => hdisjoint _ _ hi key hin hkey
          rw [(hwithin query).frame s key hother, h.db hkey]
        rw [hserve, List.filter_cons_of_neg (by simpa using hi),
          List.filter_cons_of_neg (by simpa [about] using hi)]
        exact ih hkeep

end Service

end Wakuwaku.Redis
