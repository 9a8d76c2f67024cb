import Wakuwaku.Entity.Redis.Collection.Lock

/-! # The scripts of the readers

What is stored may be anything and the numbers may be rounded: the sorted set changes before the TTL is
restarted, and a text that `PEXPIRE` does not accept comes too late. Below 2^53 the numbers are exact. -/

namespace Wakuwaku.Entity.Redis.Collection

open Wakuwaku.Redis Wakuwaku.Entity.Redis

variable (numbers : LuaNumbers)

/-! ### What is stored -/

/-- The members and the deadline of a sorted set, none for an item of another type. -/
def sortedSetOf : Option Stored → Option (List (Bytes × ℕ) × Option ℕ)
  | none => some ([], none)
  | some ⟨.sortedSet members, expires⟩ => some (members, expires)
  | some _ => none

/-- What `PTTL` replies for a key that is there. -/
def lifeLeft (now : ℕ) : Option ℕ → Int
  | none => -1
  | some deadline => (deadline : Int) - now

/-- The end of a script has to restart the TTL and cannot. -/
def RestartRefused (now : ℕ) (expires : Option ℕ) (ttl : ℕ) : Prop :=
  numbers.ofInt (lifeLeft now expires) < (numbers.number ttl : Int) ∧
    expiryRefused now (numbers.text (numbers.number ttl))

instance (now : ℕ) (expires : Option ℕ) (ttl : ℕ) : Decidable (RestartRefused numbers now expires ttl) :=
  inferInstanceAs (Decidable (_ ∧ _))

/-- The readers with one more, after those whose leases ran out have gone. -/
def entered (now ttl : ℕ) (token : Bytes) (members : List (Bytes × ℕ)) (expires : Option ℕ) : Stored :=
  ⟨.sortedSet (setScore (live now members) token (numbers.number (now + numbers.number ttl))),
    if live now members = [] then none else expires⟩

/-- The readers with one at a new time. -/
def renewed (now ttl : ℕ) (token : Bytes) (members : List (Bytes × ℕ)) (expires : Option ℕ) : Stored :=
  ⟨.sortedSet (members.map fun pair =>
    if pair.1 = token then (token, numbers.number (now + numbers.number ttl)) else pair), expires⟩

/-! ### What the scripts do -/

section Spec

variable {server : Server} {writer readers key token : Bytes} {members : List (Bytes × ℕ)} {expires : Option ℕ}
  {ttl : ℕ}

theorem pttl_of_stored {stored : Stored} (h : server.db key = some stored) :
    pttl key server = (.ok (lifeLeft server.now stored.expires), server) := by
  obtain ⟨item, _ | deadline⟩ := stored
  · exact pttl_of_forever h
  · exact pttl_of_some h

theorem outlive_of_refused {stored : Stored} (h : server.db key = some stored)
    (hr : RestartRefused numbers server.now stored.expires ttl) :
    ∃ error, outlive numbers key (numbers.number ttl) server = (.error error, server) := by
  obtain ⟨error, he⟩ := pexpireText_of_refused key hr.2
  refine ⟨error, ?_⟩
  rw [outlive, Command.bind_of_ok (pttl_of_stored h), if_pos hr.1]
  exact Command.bind_of_error he

theorem outlive_of_accepted {stored : Stored} (h : server.db key = some stored)
    (hr : ¬ RestartRefused numbers server.now stored.expires ttl) :
    ∃ server', outlive numbers key (numbers.number ttl) server = (.ok (), server') := by
  rw [outlive, Command.bind_of_ok (pttl_of_stored h)]
  by_cases hlt : numbers.ofInt (lifeLeft server.now stored.expires) < (numbers.number ttl : Int)
  · obtain ⟨n, server', he⟩ := pexpireText_of_accepted key (fun hrefused => hr ⟨hlt, hrefused⟩)
    rw [if_pos hlt]
    exact ⟨server', Command.bind_of_ok he⟩
  · rw [if_neg hlt]
    exact ⟨server, rfl⟩

/-- A command on a sorted set, whatever is stored. -/
theorem atSortedSet_of_sortedSetOf {α : Type} (f : List (Bytes × ℕ) → α × List (Bytes × ℕ))
    (h : sortedSetOf (server.db key) = some (members, expires)) : atSortedSet key f server =
      (.ok (f members).1, server.put key (sortedSet (f members).2 expires)) := by
  refine atKey_of_ok ?_
  generalize server.db key = stored at h
  match stored, h with
  | none, h =>
    cases h
    rfl
  | some ⟨.sortedSet _, _⟩, h =>
    cases h
    rfl

theorem atSortedSet_of_wrongType {α : Type} (f : List (Bytes × ℕ) → α × List (Bytes × ℕ))
    (h : sortedSetOf (server.db key) = none) : atSortedSet key f server = (.error wrongType, server) := by
  unfold atSortedSet atKey
  generalize server.db key = stored at h
  match stored, h with
  | some ⟨.string _, _⟩, _ | some ⟨.list _, _⟩, _ | some ⟨.hash _, _⟩, _ | some ⟨.stream _, _⟩, _ => rfl

theorem sortedSetOf_sortedSet (members : List (Bytes × ℕ)) (expires : Option ℕ) :
    sortedSetOf (sortedSet members expires) = some (members, if members = [] then none else expires) := by
  by_cases hm : members = []
  · subst hm
    rfl
  · rw [sortedSet_of_ne_nil hm, if_neg hm]
    rfl

/-- The script comes to the TTL with the reader in the set. -/
theorem readAcquireScript_of_set (h : server.db writer = none)
    (hr : sortedSetOf (server.db readers) = some (members, expires)) :
    readAcquireScript numbers writer readers token ttl server =
      (do outlive numbers readers (numbers.number ttl); return 1 : Command ℕ)
        (server.put readers (some (entered numbers server.now ttl token members expires))) := by
  have hexists : keyExists writer server = (.ok false, server) := by rw [keyExists_apply, h]; rfl
  have hdrop : zremrangebyscore readers server.now server =
      (.ok (), server.put readers (sortedSet (live server.now members) expires)) :=
    atSortedSet_of_sortedSetOf _ hr
  have hlive := sortedSetOf_sortedSet (live server.now members) expires
  rw [← Server.db_put_self server readers (sortedSet (live server.now members) expires)] at hlive
  have hadd : zadd readers (numbers.number (server.now + numbers.number ttl)) token
      (server.put readers (sortedSet (live server.now members) expires)) =
        (.ok (), server.put readers (some (entered numbers server.now ttl token members expires))) := by
    refine (atSortedSet_of_sortedSetOf _ hlive).trans ?_
    rw [sortedSet_of_ne_nil (setScore_ne_nil _), Server.put_put]
    rfl
  rw [readAcquireScript, Command.bind_of_ok luaNow_apply, Command.bind_of_ok hexists,
    if_neg Bool.false_ne_true, Command.bind_of_ok hdrop]
  exact Command.bind_of_ok hadd

theorem readAcquireScript_of_wrongType (h : server.db writer = none)
    (hr : sortedSetOf (server.db readers) = none) :
    readAcquireScript numbers writer readers token ttl server = (.error wrongType, server) := by
  have hexists : keyExists writer server = (.ok false, server) := by rw [keyExists_apply, h]; rfl
  rw [readAcquireScript, Command.bind_of_ok luaNow_apply, Command.bind_of_ok hexists,
    if_neg Bool.false_ne_true]
  exact Command.bind_of_error (atSortedSet_of_wrongType _ hr)

/-- The lease that runs for a token. -/
def runningLease (now : ℕ) (token : Bytes) (members : List (Bytes × ℕ)) : Bool :=
  (members.find? fun pair => pair.1 = token).any fun pair => now < pair.2

theorem zscore_of_sortedSetOf (token : Bytes)
    (hr : sortedSetOf (server.db readers) = some (members, expires)) :
    zscore readers token server = (.ok ((members.find? fun pair => pair.1 = token).map Prod.snd),
      server.put readers (sortedSet members expires)) := atSortedSet_of_sortedSetOf _ hr

theorem readExtendScript_of_running (hr : sortedSetOf (server.db readers) = some (members, expires))
    (hrun : runningLease server.now token members = true) :
    readExtendScript numbers readers token ttl server =
      (do outlive numbers readers (numbers.number ttl); return 1 : Command ℕ)
        (server.put readers (some (renewed numbers server.now ttl token members expires))) := by
  obtain ⟨pair, hfind, hlt⟩ := (Option.any_eq_true _ _).mp hrun
  have hne : members ≠ [] := by
    rintro rfl
    cases hfind
  have hscore := zscore_of_sortedSetOf token hr
  have hsame := sortedSetOf_sortedSet members expires
  rw [if_neg hne, ← Server.db_put_self server readers (sortedSet members expires)] at hsame
  have hrenew : zaddXx readers (numbers.number (server.now + numbers.number ttl)) token
      (server.put readers (sortedSet members expires)) =
        (.ok (), server.put readers (some (renewed numbers server.now ttl token members expires))) := by
    have hmap : (members.map fun pair =>
        if pair.1 = token then (token, numbers.number (server.now + numbers.number ttl)) else pair) ≠ [] :=
      fun he => hne (List.map_eq_nil_iff.mp he)
    refine (atSortedSet_of_sortedSetOf _ hsame).trans ?_
    rw [sortedSet_of_ne_nil hmap, Server.put_put]
    rfl
  rw [readExtendScript, Command.bind_of_ok luaNow_apply, Command.bind_of_ok hscore, hfind]
  simp only [Option.map_some]
  rw [if_neg (Nat.not_le.mpr (of_decide_eq_true hlt))]
  exact Command.bind_of_ok hrenew

theorem readExtendScript_of_over (ttl : ℕ) (hr : sortedSetOf (server.db readers) = some (members, expires))
    (hrun : runningLease server.now token members = false) :
    ∃ server', readExtendScript numbers readers token ttl server = (.ok 0, server') := by
  refine ⟨server.put readers (sortedSet members expires), ?_⟩
  rw [readExtendScript, Command.bind_of_ok luaNow_apply, Command.bind_of_ok (zscore_of_sortedSetOf token hr)]
  unfold runningLease at hrun
  cases hfind : members.find? fun pair => pair.1 = token with
  | none => rfl
  | some pair =>
    rw [hfind] at hrun
    simp only [Option.map_some]
    rw [if_pos (Nat.not_lt.mp (of_decide_eq_false hrun))]
    rfl

theorem readExtendScript_of_wrongType (hr : sortedSetOf (server.db readers) = none) :
    readExtendScript numbers readers token ttl server = (.error wrongType, server) := by
  rw [readExtendScript, Command.bind_of_ok luaNow_apply]
  exact Command.bind_of_error (atSortedSet_of_wrongType _ hr)

/-! ### Exact numbers -/

variable {deadline : ℕ}

/-- A reader that is let in, and the deadline of the readers then. -/
theorem readAcquireScript_of_none (h : server.db writer = none)
    (hr : server.db readers = sortedSet members (some deadline)) (hsmall : deadline < 2 ^ 53) (hpos : 0 < ttl)
    (hrange : server.now + ttl < 2 ^ 53) : readAcquireScript numbers writer readers token ttl server =
      (.ok 1, server.put readers (sortedSet (setScore (live server.now members) token (server.now + ttl))
        (some (max (if live server.now members = [] then 0 else deadline) (server.now + ttl))))) := by
  have hset := sortedSetOf_sortedSet members (some deadline)
  rw [← hr] at hset
  have httl : numbers.number ttl = ttl := numbers.number_exact ttl (by omega)
  have hscore : numbers.number (server.now + ttl) = server.now + ttl := numbers.number_exact _ hrange
  have hexpires : (if live server.now members = [] then none else if members = [] then none else some deadline) =
      if live server.now members = [] then none else some deadline := by
    by_cases hm : members = []
    · rw [hm]
      rfl
    · rw [if_neg hm]
  have hsmall' : (if live server.now members = [] then none else some deadline).getD 0 < 2 ^ 53 := by
    by_cases hl : live server.now members = []
    · rw [if_pos hl]
      decide
    · rw [if_neg hl]
      exact hsmall
  have hmax : (if live server.now members = [] then none else some deadline).getD 0 =
      if live server.now members = [] then 0 else deadline := by
    by_cases hl : live server.now members = []
    · rw [if_pos hl, if_pos hl]
      rfl
    · rw [if_neg hl, if_neg hl]
      rfl
  rw [readAcquireScript_of_set numbers h hset, entered, hexpires, httl, hscore]
  refine (Command.bind_of_ok (outlive_of_some (Server.db_put_self _ _ _) hsmall' hpos hrange)).trans ?_
  rw [Server.put_put, hmax, sortedSet_of_ne_nil (setScore_ne_nil _)]
  rfl

theorem readExtendScript_of_none (hr : server.db readers = sortedSet members (some deadline))
    (hfind : ∀ pair, (members.find? fun pair => pair.1 = token) = some pair → pair.2 ≤ server.now) :
    readExtendScript numbers readers token ttl server = (.ok 0, server) := by
  rw [readExtendScript, Command.bind_of_ok luaNow_apply, Command.bind_of_ok (zscore_of_eq hr _)]
  cases hf : members.find? fun pair => pair.1 = token with
  | none => rfl
  | some pair =>
    simp only [Option.map_some]
    rw [if_pos (hfind pair hf)]
    rfl

theorem readExtendScript_of_some (hr : server.db readers = sortedSet members (some deadline))
    {pair : Bytes × ℕ} (hfind : (members.find? fun pair => pair.1 = token) = some pair)
    (hlive : server.now < pair.2) (hsmall : deadline < 2 ^ 53) (hpos : 0 < ttl)
    (hrange : server.now + ttl < 2 ^ 53) : readExtendScript numbers readers token ttl server =
      (.ok 1, server.put readers (sortedSet
        (members.map fun pair => if pair.1 = token then (token, server.now + ttl) else pair)
        (some (max deadline (server.now + ttl))))) := by
  have hne : members ≠ [] := by
    rintro rfl
    cases hfind
  have hset := sortedSetOf_sortedSet members (some deadline)
  rw [← hr, if_neg hne] at hset
  have hrun : runningLease server.now token members = true := by
    rw [runningLease, hfind]
    exact decide_eq_true hlive
  have httl : numbers.number ttl = ttl := numbers.number_exact ttl (by omega)
  have hscore : numbers.number (server.now + ttl) = server.now + ttl := numbers.number_exact _ hrange
  have hsmall' : (some deadline).getD 0 < 2 ^ 53 := hsmall
  rw [readExtendScript_of_running numbers hset hrun, renewed, httl, hscore]
  refine (Command.bind_of_ok (outlive_of_some (Server.db_put_self _ _ _) hsmall' hpos hrange)).trans ?_
  rw [Server.put_put, sortedSet_of_ne_nil (by rwa [Ne, List.map_eq_nil_iff])]
  rfl

end Spec

end Wakuwaku.Entity.Redis.Collection
