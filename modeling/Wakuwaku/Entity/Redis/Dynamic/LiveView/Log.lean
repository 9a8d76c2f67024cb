import Wakuwaku.Entity.Redis.Dynamic.LiveView

/-! # The head and the log of a live view

`Kept` is what the two keys of a live view hold: the base with its body, the diffs after it and the
latest body. `Holds` says that the keys hold it, and each script takes keys that hold one `Kept` to
keys that hold the next: `create` starts one, `commit` appends a diff or squashes the log into a new
base, `remove` drops it. -/

namespace Wakuwaku.Entity.Redis.Dynamic.LiveView

open Wakuwaku.Redis Wakuwaku.Entity.Redis Wakuwaku.Entity.Redis.Dynamic

/-- What the keys of a live view hold. -/
structure Kept where
  /-- The version of the base. -/
  base : ℕ
  baseBody : Bytes
  /-- The diff to the base, if a squash wrote it. -/
  baseDiff : Option Bytes
  /-- The diffs after the base, the oldest first. -/
  diffs : List Bytes
  /-- The latest body. -/
  body : Bytes

namespace Kept

/-- The latest version. -/
def version (k : Kept) : ℕ := k.base + k.diffs.length

/-- The fields of the first entry. -/
def baseFields (k : Kept) : List (Bytes × Bytes) :=
  (baseEntry, k.baseBody) :: (k.baseDiff.map fun diff => (diffEntry, diff)).toList

/-- The entries of diffs that lead on from a version. -/
def diffEntries : ℕ → List Bytes → List StreamEntry
  | _, [] => []
  | n, diff :: rest => ⟨⟨n + 1, 0⟩, [(diffEntry, diff)]⟩ :: diffEntries (n + 1) rest

/-- The entries of the log. -/
def entries (k : Kept) : List StreamEntry := ⟨⟨k.base, 0⟩, k.baseFields⟩ :: diffEntries k.base k.diffs

/-- A new live view. -/
def created (body : Bytes) : Kept := ⟨1, body, none, [], body⟩

/-- The log after a commit. -/
def committed (maxDiffs : ℕ) (k : Kept) (diff body : Bytes) : Kept :=
  if k.diffs.length + 1 > maxDiffs then ⟨k.version + 1, body, some diff, [], body⟩
  else { k with diffs := k.diffs ++ [diff], body }

theorem diffEntries_append (n : ℕ) (diffs : List Bytes) (diff : Bytes) :
    diffEntries n (diffs ++ [diff]) =
      diffEntries n diffs ++ [⟨⟨n + diffs.length + 1, 0⟩, [(diffEntry, diff)]⟩] := by
  induction diffs generalizing n with
  | nil => rfl
  | cons d rest ih =>
    simp only [List.cons_append, diffEntries, ih, List.length_cons]
    rw [show n + 1 + rest.length + 1 = n + (rest.length + 1) + 1 by omega]

@[simp] theorem length_diffEntries (n : ℕ) (diffs : List Bytes) :
    (diffEntries n diffs).length = diffs.length := by
  induction diffs generalizing n with
  | nil => rfl
  | cons d rest ih => simp only [diffEntries, List.length_cons, ih]

theorem map_id_diffEntries (n : ℕ) (diffs : List Bytes) :
    (diffEntries n diffs).map StreamEntry.id =
      (List.range' (n + 1) diffs.length).map fun v => ⟨v, 0⟩ := by
  induction diffs generalizing n with
  | nil => rfl
  | cons d rest ih =>
    simp only [diffEntries, List.map_cons, List.length_cons, List.range'_succ, ih]

theorem length_entries (k : Kept) : k.entries.length = k.diffs.length + 1 := by
  rw [entries, List.length_cons, length_diffEntries]

/-- The IDs of the log are the versions from the base to the latest, without gaps. -/
theorem map_id_entries (k : Kept) : k.entries.map StreamEntry.id =
    (List.range' k.base (k.diffs.length + 1)).map fun v => ⟨v, 0⟩ := by
  simp only [entries, List.map_cons, map_id_diffEntries, List.range'_succ]

theorem version_committed (maxDiffs : ℕ) (k : Kept) (diff body : Bytes) :
    (k.committed maxDiffs diff body).version = k.version + 1 := by
  unfold committed version
  split
  · rfl
  · simp only [List.length_append, List.length_singleton]
    omega

theorem length_committed (maxDiffs : ℕ) (k : Kept) (diff body : Bytes) :
    (k.committed maxDiffs diff body).diffs.length ≤ maxDiffs := by
  unfold committed
  split
  · exact Nat.zero_le _
  · simp only [List.length_append, List.length_singleton]
    omega

theorem base_committed (maxDiffs : ℕ) {k : Kept} (diff body : Bytes) (h : 1 ≤ k.base) :
    1 ≤ (k.committed maxDiffs diff body).base := by
  unfold committed
  split_ifs
  · exact Nat.le_add_left 1 _
  · exact h

end Kept

/-- The keys hold nothing, or the log and head of `k`. -/
def Holds (keys : Keyspace) (head log : Bytes) : Option Kept → Prop
  | none => keys head = none ∧ keys log = none
  | some k => (∃ fields, keys head = some (.hash fields) ∧
      fields versionField = some (decimal k.version) ∧ fields bodyField = some k.body) ∧
    keys log = some (.stream ⟨k.entries, ⟨k.version, 0⟩⟩)

/-! ### The scripts -/

variable {keys : Keyspace} {head log : Bytes}

theorem fields_ne : versionField ≠ bodyField := by decide

theorem entries_ne : baseEntry ≠ diffEntry := by decide

theorem text_of_version (n : ℕ) : decimal n ++ asBytes "-0" = StreamId.text ⟨n, 0⟩ := by
  have h : asBytes "-0" = 45 :: decimal 0 := by decide
  rw [h]
  rfl

theorem tonumber_decimal (n : ℕ) : tonumber (decimal n) keys = (.ok n, keys) := by
  unfold tonumber
  rw [parseDigits_decimal]
  rfl

/-- The fields that the scripts write into the head. -/
def headFields (version body : Bytes) (fields : Bytes → Option Bytes) : Bytes → Option Bytes :=
  Function.update (Function.update fields versionField (some version)) bodyField (some body)

theorem headFields_version (version body : Bytes) (fields : Bytes → Option Bytes) :
    headFields version body fields versionField = some version := by
  unfold headFields
  rw [Function.update_of_ne fields_ne, Function.update_self]

theorem headFields_body (version body : Bytes) (fields : Bytes → Option Bytes) :
    headFields version body fields bodyField = some body := Function.update_self _ _ _

/-- What `CREATE` leaves at absent keys. -/
theorem createScript_of_none (hne : head ≠ log) (h : Holds keys head log none) (body : Bytes) :
    ∃ keys', createScript head log body keys = (.ok 1, keys') ∧
      Holds keys' head log (some (Kept.created body)) := by
  obtain ⟨hh, hl⟩ := h
  have hexists : existsKey head keys = (.ok false, keys) := by rw [existsKey_apply, hh]; rfl
  have htext : asBytes "1-0" = StreamId.text ⟨1, 0⟩ := by decide
  have hone : asBytes "1" = decimal 1 := by decide
  rw [createScript, bind_of_ok hexists, if_neg Bool.false_ne_true,
    bind_of_ok (hset_of_none _ hh), bind_of_ok (unlink_cons unlink_nil), htext,
    bind_of_ok (xadd_of_none ⟨1, 0⟩ _ (Function.update_self _ _ _) (by decide)), pure_apply]
  refine ⟨_, rfl, ⟨headFields (asBytes "1") body fun _ => none, ?_, ?_, headFields_body _ _ _⟩, ?_⟩
  · rw [Function.update_of_ne hne, Function.update_of_ne hne, Function.update_self]
    rfl
  · rw [headFields_version, hone]
    rfl
  · rw [Function.update_self]
    rfl

/-- `CREATE` changes nothing if the view exists. -/
theorem createScript_of_some {k : Kept} (h : Holds keys head log (some k)) (body : Bytes) :
    createScript head log body keys = (.ok 0, keys) := by
  obtain ⟨⟨fields, hh, -⟩, -⟩ := h
  have hexists : existsKey head keys = (.ok true, keys) := by rw [existsKey_apply, hh]; rfl
  rw [createScript, bind_of_ok hexists, if_pos rfl, pure_apply]

/-- What the log holds after a version was added. -/
theorem extendLog_of_kept {k : Kept} (maxDiffs : ℕ) (diff body : Bytes)
    (hl : keys log = some (.stream ⟨k.entries, ⟨k.version, 0⟩⟩)) :
    ∃ keys', extendLog log (decimal (k.version + 1)) diff body (decimal maxDiffs) keys = (.ok (), keys') ∧
      keys' log = some (.stream ⟨(k.committed maxDiffs diff body).entries, ⟨k.version + 1, 0⟩⟩) ∧
        ∀ key, key ≠ log → keys' key = keys key := by
  have hlt : StreamId.lt ⟨k.version, 0⟩ ⟨k.version + 1, 0⟩ := Or.inl (Nat.lt_succ_self _)
  rw [extendLog, bind_of_ok (xlen_of_stream hl), bind_of_ok (tonumber_decimal maxDiffs)]
  simp only [k.length_entries, text_of_version]
  by_cases hmax : k.diffs.length + 1 > maxDiffs
  · rw [if_pos hmax, bind_of_ok (xtrimAll_of_stream hl),
      xadd_of_stream _ _ (Function.update_self _ _ _) hlt]
    refine ⟨_, rfl, ?_, fun key hkey => ?_⟩
    · rw [Function.update_self, Kept.committed, if_pos hmax]
      rfl
    · rw [Function.update_of_ne hkey, Function.update_of_ne hkey]
  · rw [if_neg hmax, xadd_of_stream _ _ hl hlt]
    refine ⟨_, rfl, ?_, fun key hkey => ?_⟩
    · rw [Function.update_self, Kept.committed, if_neg hmax]
      simp only [Kept.entries, Kept.diffEntries_append, List.cons_append]
      rfl
    · rw [Function.update_of_ne hkey]

/-- `COMMIT` on absent keys. -/
theorem commitScript_of_none (h : Holds keys head log none) (parent diff body maxDiffs : Bytes) :
    commitScript head log parent diff body maxDiffs keys = (.ok [0], keys) := by
  rw [commitScript, bind_of_ok (hget_of_none _ h.1)]
  rfl

/-- `COMMIT` on another version. -/
theorem commitScript_of_conflict {k : Kept} (h : Holds keys head log (some k)) {parent : ℕ}
    (hp : parent ≠ k.version) (diff body maxDiffs : Bytes) :
    commitScript head log (decimal parent) diff body maxDiffs keys = (.ok [1, k.version], keys) := by
  obtain ⟨⟨fields, hh, hv, -⟩, -⟩ := h
  have hne : decimal k.version ≠ decimal parent := fun he => hp (decimal_injective he).symm
  rw [commitScript, bind_of_ok (hget_of_hash _ hh), hv]
  simp only [if_pos hne]
  rw [bind_of_ok (tonumber_decimal _), pure_apply]

/-- What `COMMIT` on the latest version leaves. -/
theorem commitScript_of_version {k : Kept} (hne : head ≠ log) (h : Holds keys head log (some k))
    (diff body : Bytes) (maxDiffs : ℕ) : ∃ keys',
      commitScript head log (decimal k.version) diff body (decimal maxDiffs) keys =
        (.ok [2, k.version + 1], keys') ∧
      Holds keys' head log (some (k.committed maxDiffs diff body)) := by
  obtain ⟨⟨fields, hh, hv, -⟩, hl⟩ := h
  rw [commitScript, bind_of_ok (hget_of_hash _ hh), hv]
  simp only [ne_eq, not_true_eq_false, if_false]
  rw [bind_of_ok (tonumber_decimal _), bind_of_ok (hset_of_hash _ hh)]
  obtain ⟨keys', hext, hlog, hframe⟩ := extendLog_of_kept (k := k) maxDiffs diff body
    ((Function.update_of_ne hne.symm _ _).trans hl)
  rw [bind_of_ok hext, bind_of_ok (tonumber_decimal _), pure_apply]
  refine ⟨keys', rfl, ⟨headFields (decimal (k.version + 1)) body fields,
    (hframe head hne).trans (Function.update_self _ _ _), ?_, ?_⟩, ?_⟩
  · rw [Kept.version_committed]
    exact headFields_version _ _ _
  · refine (headFields_body _ _ _).trans (congrArg some ?_)
    unfold Kept.committed
    split_ifs <;> rfl
  · rw [hlog, Kept.version_committed]

/-- `UNLINK` of both keys. -/
theorem unlink_keys (hne : head ≠ log) {k : Option Kept} (h : Holds keys head log k) :
    ∃ keys', unlink [head, log] keys = (.ok (if k.isSome then 2 else 0), keys') ∧
      Holds keys' head log none := by
  have hlog : Function.update keys head none log = keys log := Function.update_of_ne hne.symm _ _
  have hsome : (keys head).isSome = k.isSome ∧ (keys log).isSome = k.isSome := by
    cases k with
    | none => exact ⟨by rw [h.1]; rfl, by rw [h.2]; rfl⟩
    | some k =>
      obtain ⟨⟨fields, hh, -⟩, hl⟩ := h
      exact ⟨by rw [hh]; rfl, by rw [hl]; rfl⟩
  refine ⟨Function.update (Function.update keys head none) log none,
    (unlink_cons (unlink_cons unlink_nil)).trans ?_, ?_, Function.update_self _ _ _⟩
  · rw [hlog, hsome.1, hsome.2]
    cases k <;> rfl
  · rw [Function.update_of_ne hne, Function.update_self]

end Wakuwaku.Entity.Redis.Dynamic.LiveView
