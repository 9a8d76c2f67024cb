import Mathlib.Data.List.Basic
import Mathlib.Data.List.Perm.Basic

/-! # Stable groupings

Entries are grouped by their keys: each key has one group, the groups come in the order in which the keys
first appear, and within a group the entries keep their order. -/

namespace Wakuwaku

variable {α K M : Type} [DecidableEq α] [DecidableEq K]

/-! ### Order of first appearance -/

/-- `keys` are those of `l`, each once, in the order in which they first appear there. -/
structure FirstSeen (l keys : List α) : Prop where
  mem_iff : ∀ k, k ∈ keys ↔ k ∈ l
  ordered : keys.Pairwise fun k k' => l.idxOf k < l.idxOf k'

namespace FirstSeen

variable {l keys : List α} {k : α}

theorem nil : FirstSeen ([] : List α) [] := ⟨fun _ => Iff.rfl, .nil⟩

theorem nodup (h : FirstSeen l keys) : keys.Nodup := h.ordered.imp fun hlt he => by simp [he] at hlt

theorem ordered_append (h : FirstSeen l keys) (l' : List α) :
    keys.Pairwise fun k k' => (l ++ l').idxOf k < (l ++ l').idxOf k' :=
  h.ordered.imp_of_mem fun hk hk' hlt => by
    rwa [List.idxOf_append_of_mem ((h.mem_iff _).mp hk), List.idxOf_append_of_mem ((h.mem_iff _).mp hk')]

/-- One more occurrence of a key that is there. -/
theorem old (h : FirstSeen l keys) (hk : k ∈ l) : FirstSeen (l ++ [k]) keys where
  mem_iff k' := by
    rw [h.mem_iff, List.mem_append, List.mem_singleton]
    exact ⟨Or.inl, fun hk' => hk'.elim id fun he => he ▸ hk⟩
  ordered := h.ordered_append [k]

/-- A new key. -/
theorem new (h : FirstSeen l keys) (hk : k ∉ l) : FirstSeen (l ++ [k]) (keys ++ [k]) where
  mem_iff k' := by rw [List.mem_append, List.mem_append, h.mem_iff]
  ordered := by
    refine List.pairwise_append.mpr ⟨h.ordered_append [k], List.pairwise_singleton _ _, fun k' hk' x hx => ?_⟩
    obtain rfl := List.mem_singleton.mp hx
    have hmem := (h.mem_iff k').mp hk'
    rw [List.idxOf_append_of_mem hmem, List.idxOf_append_of_notMem hk]
    exact Nat.lt_of_lt_of_le (List.idxOf_lt_length_of_mem hmem) (Nat.le_add_right _ _)

end FirstSeen

/-! ### Groups -/

/-- The entries of a key, in order. -/
def entriesOf (k : K) (entries : List (K × M)) : List M :=
  entries.filterMap fun entry => if entry.1 = k then some entry.2 else none

theorem mem_entriesOf {k : K} {entries : List (K × M)} {m : M} : m ∈ entriesOf k entries ↔ (k, m) ∈ entries := by
  simp only [entriesOf, List.mem_filterMap, Option.ite_none_right_eq_some, Option.some.injEq, Prod.exists]
  constructor
  · rintro ⟨_, _, h, rfl, rfl⟩
    exact h
  · exact fun h => ⟨k, m, h, rfl, rfl⟩

section EntriesOf

variable {k k' : K} {m : M} {entries entries' : List (K × M)}

theorem entriesOf_append : entriesOf k (entries ++ entries') = entriesOf k entries ++ entriesOf k entries' :=
  List.filterMap_append

theorem entriesOf_cons_self : entriesOf k ((k, m) :: entries) = m :: entriesOf k entries := by
  simp [entriesOf]

theorem entriesOf_cons_of_ne (h : k ≠ k') : entriesOf k' ((k, m) :: entries) = entriesOf k' entries := by
  simp [entriesOf, h]

/-- The first entry of a key. -/
theorem exists_of_entriesOf_cons {ms : List M} : ∀ {entries : List (K × M)}, entriesOf k entries = m :: ms →
    ∃ pre post, entries = pre ++ (k, m) :: post ∧ entriesOf k pre = [] ∧ entriesOf k post = ms
  | [], h => by cases h
  | (k', m') :: entries, h => by
    by_cases hk : k' = k
    · subst hk
      rw [entriesOf_cons_self] at h
      obtain ⟨rfl, rfl⟩ := List.cons.inj h
      exact ⟨[], entries, rfl, rfl, rfl⟩
    · rw [entriesOf_cons_of_ne hk] at h
      obtain ⟨pre, post, rfl, hpre, hpost⟩ := exists_of_entriesOf_cons h
      exact ⟨(k', m') :: pre, post, rfl, (entriesOf_cons_of_ne hk).trans hpre, hpost⟩

theorem entriesOf_map_self (ms : List M) : entriesOf k (ms.map (k, ·)) = ms := by
  induction ms with
  | nil => rfl
  | cons m ms ih => rw [List.map_cons, entriesOf_cons_self, ih]

theorem entriesOf_map_of_ne (h : k' ≠ k) (ms : List M) : entriesOf k (ms.map (k', ·)) = [] := by
  induction ms with
  | nil => rfl
  | cons m ms ih => rw [List.map_cons, entriesOf_cons_of_ne h, ih]

/-- The entries of groups with different keys. -/
theorem entriesOf_flatMap {members : K → List M} : ∀ {keys : List K}, keys.Nodup →
    entriesOf k (keys.flatMap fun k' => (members k').map (k', ·)) = if k ∈ keys then members k else []
  | [], _ => by simp [entriesOf]
  | k' :: keys, h => by
    obtain ⟨hnew, hrest⟩ := List.nodup_cons.mp h
    rw [List.flatMap_cons, entriesOf_append, entriesOf_flatMap hrest]
    by_cases hk : k' = k
    · subst hk
      rw [entriesOf_map_self, if_neg hnew, List.append_nil, if_pos List.mem_cons_self]
    · rw [entriesOf_map_of_ne hk, List.nil_append]
      simp [show ¬ k = k' from fun he => hk he.symm]

theorem entriesOf_filter (keys : List K) (entries : List (K × M)) :
    entriesOf k (entries.filter (·.1 ∈ keys)) = if k ∈ keys then entriesOf k entries else [] := by
  induction entries with
  | nil => simp [entriesOf]
  | cons entry entries ih =>
    obtain ⟨k', m⟩ := entry
    by_cases hk : k' = k
    · subst hk
      by_cases hmem : k' ∈ keys
      · rw [List.filter_cons_of_pos (by simpa using hmem), entriesOf_cons_self, entriesOf_cons_self, ih, if_pos hmem,
          if_pos hmem]
      · rw [List.filter_cons_of_neg (by simpa using hmem), ih, if_neg hmem, if_neg hmem]
    · rw [entriesOf_cons_of_ne hk, ← ih]
      by_cases hmem : k' ∈ keys
      · rw [List.filter_cons_of_pos (by simpa using hmem), entriesOf_cons_of_ne hk]
      · rw [List.filter_cons_of_neg (by simpa using hmem)]

end EntriesOf

/-- `groups` is the stable grouping of `entries`. -/
structure Grouped (entries : List (K × M)) (groups : List (K × List M)) : Prop where
  keys : FirstSeen (entries.map Prod.fst) (groups.map Prod.fst)
  members : ∀ group ∈ groups, group.2 = entriesOf group.1 entries
  once : (groups.flatMap Prod.snd).Perm (entries.map Prod.snd)

namespace Grouped

variable {entries : List (K × M)} {groups pre post : List (K × List M)} {k : K} {m : M} {ms : List M}

theorem nil : Grouped ([] : List (K × M)) [] := ⟨.nil, by simp, .nil⟩

theorem entriesOf_append_self : entriesOf k (entries ++ [(k, m)]) = entriesOf k entries ++ [m] := by
  simp [entriesOf, List.filterMap_append]

theorem entriesOf_append_of_ne {k' : K} (h : k ≠ k') : entriesOf k' (entries ++ [(k, m)]) = entriesOf k' entries := by
  simp [entriesOf, List.filterMap_append, h]

theorem ne_nil (h : Grouped entries groups) : ∀ group ∈ groups, group.2 ≠ [] := by
  intro group hg he
  have hmem := (h.keys.mem_iff group.1).mp (List.mem_map_of_mem hg)
  obtain ⟨⟨k, m⟩, hentry, hk⟩ := List.mem_map.mp hmem
  have hm : m ∈ entriesOf group.1 entries := mem_entriesOf.mpr (hk ▸ hentry)
  rw [← h.members group hg, he] at hm
  cases hm

/-- An entry joins the group of its key. -/
theorem join (h : Grouped entries (pre ++ (k, ms) :: post)) :
    Grouped (entries ++ [(k, m)]) (pre ++ (k, ms ++ [m]) :: post) where
  keys := by
    have hk : k ∈ entries.map Prod.fst := (h.keys.mem_iff k).mp (by simp)
    simpa using h.keys.old hk
  members := by
    have hnodup := h.keys.nodup
    rw [List.map_append, List.map_cons, List.nodup_append] at hnodup
    obtain ⟨-, hpost, hpre⟩ := hnodup
    have hother : ∀ group ∈ pre ++ post, k ≠ group.1 := by
      intro group hg he
      have hmem := List.mem_map_of_mem (f := Prod.fst) hg
      rw [← he, List.map_append, List.mem_append] at hmem
      rcases hmem with hmem | hmem
      · exact hpre _ hmem _ List.mem_cons_self rfl
      · exact (List.nodup_cons.mp hpost).1 hmem
    have hkept : ∀ group ∈ pre ++ post, group.2 = entriesOf group.1 (entries ++ [(k, m)]) := by
      intro group hg
      rw [entriesOf_append_of_ne (hother group hg)]
      refine h.members group ?_
      rcases List.mem_append.mp hg with hg | hg <;> simp [hg]
    intro group hg
    rcases List.mem_append.mp hg with hg | hg
    · exact hkept group (List.mem_append_left _ hg)
    · rcases List.mem_cons.mp hg with rfl | hg
      · rw [entriesOf_append_self, ← h.members (k, ms) (by simp)]
      · exact hkept group (List.mem_append_right _ hg)
  once := by
    have honce := h.once.append_right [m]
    simp only [List.flatMap_append, List.flatMap_cons, List.map_append, List.map_cons, List.map_nil,
      List.append_assoc] at honce ⊢
    refine List.Perm.trans ?_ honce
    exact (List.perm_append_comm.append_left ms).append_left _

/-- An entry of a new key starts a group. -/
theorem new (h : Grouped entries groups) (hk : k ∉ groups.map Prod.fst) :
    Grouped (entries ++ [(k, m)]) (groups ++ [(k, [m])]) where
  keys := by
    have hnew : k ∉ entries.map Prod.fst := fun hmem => hk ((h.keys.mem_iff k).mpr hmem)
    simpa using h.keys.new hnew
  members := by
    intro group hg
    rcases List.mem_append.mp hg with hg | hg
    · have hne : k ≠ group.1 := fun he => hk (by rw [he]; exact List.mem_map_of_mem hg)
      rw [entriesOf_append_of_ne hne]
      exact h.members group hg
    · obtain rfl := List.mem_singleton.mp hg
      have hnone : entriesOf k entries = [] := by
        rw [List.eq_nil_iff_forall_not_mem]
        intro m' hm'
        exact hk ((h.keys.mem_iff k).mpr (List.mem_map_of_mem (mem_entriesOf.mp hm')))
      rw [entriesOf_append_self, hnone, List.nil_append]
  once := by simpa using h.once.append_right [m]

/-- The first groups hold the entries of their keys, in order. -/
theorem entriesOf_prefix (h : Grouped entries groups) {first : List (K × List M)} (hfirst : first <+: groups) (k : K) :
    entriesOf k (first.flatMap fun group => group.2.map (group.1, ·)) =
      entriesOf k (entries.filter (·.1 ∈ first.map Prod.fst)) := by
  have hkeys : (first.map Prod.fst).Nodup := h.keys.nodup.sublist (hfirst.sublist.map _)
  have hmembers : first.flatMap (fun group => group.2.map (group.1, ·)) =
      (first.map Prod.fst).flatMap fun k => (entriesOf k entries).map (k, ·) := by
    rw [List.flatMap_map]
    exact List.flatMap_congr fun group hg => by rw [h.members group (hfirst.subset hg)]
  rw [hmembers, entriesOf_flatMap hkeys, entriesOf_filter]

end Grouped

end Wakuwaku
