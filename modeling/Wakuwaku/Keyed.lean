import Mathlib.Data.List.AList

/-! # What a map holds under its keys

`collect f s` is what the values of a map hold all together, in any order of the keys. A key that is
taken out takes its own part with it (`perm_collect`), and a key that is put in brings its part
(`collect_insert`). -/

namespace Wakuwaku.Keyed

variable {K V β : Type} [DecidableEq K] {s : AList fun _ : K => V} {k : K} {v : V}

theorem perm_cons_erase (h : s.lookup k = some v) : s.entries.Perm (⟨k, v⟩ :: (s.erase k).entries) := by
  obtain ⟨v', l₁, l₂, hk, he, herase⟩ :=
    List.exists_of_kerase (AList.mem_keys.mp (AList.lookup_isSome.mp (Option.isSome_of_mem h)))
  have hv : v' = v := by
    have hmem : (⟨k, v'⟩ : Sigma fun _ : K => V) ∈ s.entries := by rw [he]; simp
    exact Option.some.inj ((AList.mem_lookup_iff.mpr hmem : s.lookup k = some v').symm.trans h)
  have herase' : (s.erase k).entries = l₁ ++ l₂ := herase
  rw [he, herase', hv]
  exact List.perm_middle

theorem erase_of_none (h : s.lookup k = none) : s.erase k = s :=
  AList.ext (List.kerase_of_notMem_keys (AList.lookup_eq_none.mp h))

theorem erase_insert (v : V) : (s.insert k v).erase k = s.erase k := AList.ext (List.kerase_cons_eq rfl)

/-- What the values of a map hold, all together. -/
def collect (f : V → List β) (s : AList fun _ : K => V) : List β := s.entries.flatMap fun e => f e.2

variable {f : V → List β}

theorem mem_collect {b : β} : b ∈ collect f s ↔ ∃ k v, s.lookup k = some v ∧ b ∈ f v := by
  unfold collect
  rw [List.mem_flatMap]
  constructor
  · rintro ⟨⟨k, v⟩, he, hb⟩
    exact ⟨k, v, AList.mem_lookup_iff.mpr he, hb⟩
  · rintro ⟨k, v, hk, hb⟩
    exact ⟨⟨k, v⟩, AList.mem_lookup_iff.mp hk, hb⟩

/-- A key holds its part of the whole. -/
theorem perm_collect (h : s.lookup k = some v) : (collect f s).Perm (f v ++ collect f (s.erase k)) :=
  (perm_cons_erase h).flatMap_right _

theorem collect_insert (v : V) : collect f (s.insert k v) = f v ++ collect f (s.erase k) := rfl

end Wakuwaku.Keyed
