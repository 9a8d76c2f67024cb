import Mathlib.Data.List.Nodup
import Mathlib.Data.List.Perm.Subperm
import Mathlib.Order.Lattice

/-! # Reading rows page by page

A page of some contents is the first rows whose keys come after a given key. A scan reads a page, then
the page after its last key, and so on, until a page is short. The contents may change between any two
pages: the keys read still ascend, and a key that is there at every page is read once. -/

namespace Wakuwaku.Keyset

variable {α K : Type} [LinearOrder K]

/-- Rows in ascending order of their keys. -/
structure Contents (key : α → K) where
  rows : List α
  ascending : rows.Pairwise fun a b => key a < key b

/-- Every key comes after none. -/
def comesAfter (k : K) (after : Option K) : Bool := after.all fun last => decide (last < k)

@[simp] theorem comesAfter_none (k : K) : comesAfter k none = true := rfl

@[simp] theorem comesAfter_some {k last : K} : comesAfter k (some last) = true ↔ last < k := by
  simp [comesAfter]

variable {key : α → K} {limit : ℕ} {after : Option K} {row row' last : α} {rows : List α}

/-- Rows with ascending keys have different keys. -/
theorem eq_of_key (h : rows.Pairwise fun a b => key a < key b) (hrow : row ∈ rows) (hrow' : row' ∈ rows)
    (hk : key row = key row') : row = row' := by
  have hnodup : (rows.map key).Nodup := List.pairwise_map.mpr (h.imp ne_of_lt)
  exact List.inj_on_of_nodup_map hnodup hrow hrow' hk

/-- One row has the key of a row. -/
theorem filter_key (h : rows.Pairwise fun a b => key a < key b) (hrow : row ∈ rows) :
    rows.filter (fun row' => key row' = key row) = [row] := by
  obtain ⟨before, rest, rfl⟩ := List.append_of_mem hrow
  obtain ⟨-, hrest, hcross⟩ := List.pairwise_append.mp h
  have hbefore : ∀ row' ∈ before, ¬ key row' = key row := fun row' hrow' =>
    (hcross row' hrow' row List.mem_cons_self).ne
  have hafter : ∀ row' ∈ rest, ¬ key row' = key row := fun row' hrow' =>
    ((List.pairwise_cons.mp hrest).1 row' hrow').ne'
  rw [List.filter_append, List.filter_cons_of_pos (by simp), List.filter_eq_nil_iff.mpr (by simpa using hbefore),
    List.filter_eq_nil_iff.mpr (by simpa using hafter), List.nil_append]

/-! ### A page -/

namespace Contents

/-- The first `limit` rows whose key comes after `after`. -/
def page (contents : Contents key) (after : Option K) (limit : ℕ) : List α :=
  (contents.rows.filter fun row => comesAfter (key row) after).take limit

variable {contents : Contents key}

theorem page_sublist : (contents.page after limit).Sublist contents.rows :=
  (List.take_sublist _ _).trans List.filter_sublist

theorem mem_of_page (h : row ∈ contents.page after limit) : row ∈ contents.rows := page_sublist.subset h

theorem comesAfter_of_page (h : row ∈ contents.page after limit) : comesAfter (key row) after = true := by
  simpa using (List.mem_filter.mp (List.mem_of_mem_take h)).2

theorem page_ascending : (contents.page after limit).Pairwise fun a b => key a < key b :=
  contents.ascending.sublist page_sublist

/-- The last key of a page is its greatest. -/
theorem le_last (hlast : (contents.page after limit).getLast? = some last)
    (hrow : row ∈ contents.page after limit) : key row ≤ key last := by
  obtain ⟨init, hinit⟩ := List.getLast?_eq_some_iff.mp hlast
  have hascending : (contents.page after limit).Pairwise fun a b => key a < key b := page_ascending
  rw [hinit] at hascending hrow
  rcases List.mem_append.mp hrow with hrow | hrow
  · exact ((List.pairwise_append.mp hascending).2.2 row hrow last List.mem_cons_self).le
  · rw [List.mem_singleton.mp hrow]

/-- A short page leaves out nothing after `after`. -/
theorem mem_page_of_short (hrow : row ∈ contents.rows) (hafter : comesAfter (key row) after = true)
    (hshort : (contents.page after limit).length < limit) : row ∈ contents.page after limit := by
  have hmem : row ∈ contents.rows.filter fun row => comesAfter (key row) after :=
    List.mem_filter.mpr ⟨hrow, by simpa using hafter⟩
  unfold page at hshort ⊢
  rw [List.length_take] at hshort
  rwa [List.take_of_length_le (by omega)]

/-- A page leaves out nothing up to its last key. -/
theorem mem_page_of_le (hrow : row ∈ contents.rows) (hafter : comesAfter (key row) after = true)
    (hlast : (contents.page after limit).getLast? = some last) (hle : key row ≤ key last) :
    row ∈ contents.page after limit := by
  have hmem : row ∈ contents.rows.filter fun row => comesAfter (key row) after :=
    List.mem_filter.mpr ⟨hrow, by simpa using hafter⟩
  have hascending := contents.ascending.sublist
    (List.filter_sublist (p := fun row => comesAfter (key row) after))
  rw [← List.take_append_drop limit (contents.rows.filter _)] at hmem hascending
  refine (List.mem_append.mp hmem).resolve_right fun hdrop => ?_
  have hlt := (List.pairwise_append.mp hascending).2.2 last (List.mem_of_getLast? hlast) row hdrop
  exact absurd hlt (not_lt.mpr hle)

/-- Fewer rows come after the last key of a page than after the key it was read from. -/
theorem length_after_lt (hlast : (contents.page after limit).getLast? = some last) :
    (contents.rows.filter fun row => comesAfter (key row) (some (key last))).length <
      (contents.rows.filter fun row => comesAfter (key row) after).length := by
  have hpage := List.mem_of_getLast? hlast
  have hafter := comesAfter_of_page hpage
  have hlater : ∀ k, comesAfter k (some (key last)) = true → comesAfter k after = true := by
    intro k hk
    cases after with
    | none => rfl
    | some first => exact comesAfter_some.mpr ((comesAfter_some.mp hafter).trans (comesAfter_some.mp hk))
  have hfilter : contents.rows.filter (fun row => comesAfter (key row) (some (key last))) =
      (contents.rows.filter fun row => comesAfter (key row) after).filter
        fun row => comesAfter (key row) (some (key last)) := by
    rw [List.filter_filter]
    refine List.filter_congr fun row _ => ?_
    cases hk : comesAfter (key row) (some (key last)) with
    | false => rfl
    | true => rw [hlater _ hk, Bool.true_and]
  rw [hfilter, List.length_filter_lt_length_iff_exists]
  refine ⟨last, List.mem_of_mem_take hpage, fun hself => ?_⟩
  exact lt_irrefl _ (comesAfter_some.mp hself)

end Contents

/-! ### A scan -/

/-- A page with the contents it was read from. -/
abbrev Read (key : α → K) : Type := Contents key × List α

/-- The rows read. -/
def rowsOf (reads : List (Read key)) : List α := reads.flatMap Prod.snd

@[simp] theorem rowsOf_append (reads reads' : List (Read key)) :
    rowsOf (reads ++ reads') = rowsOf reads ++ rowsOf reads' := List.flatMap_append

@[simp] theorem rowsOf_singleton (read : Read key) : rowsOf [read] = read.2 := by simp [rowsOf]

/-- Pages that were full, each read after the last key of the one before; the last ended at the key of
the index. -/
inductive Scan (limit : ℕ) : List (Read key) → Option K → Prop
  | start : Scan limit [] none
  | page {reads after last} (contents : Contents key) (h : Scan limit reads after)
    (hfull : limit ≤ (contents.page after limit).length)
    (hlast : (contents.page after limit).getLast? = some last) :
    Scan limit (reads ++ [(contents, contents.page after limit)]) (some (key last))

/-- A scan that ended with a short page. -/
def Finished (limit : ℕ) (reads : List (Read key)) : Prop :=
  ∃ before after contents, Scan limit before after ∧ (Contents.page contents after limit).length < limit ∧
    reads = before ++ [(contents, contents.page after limit)]

namespace Scan

variable {reads : List (Read key)}

/-- What was read lies up to the key the scan is at. -/
theorem le (h : Scan limit reads after) (hrow : row ∈ rowsOf reads) : ∃ k, after = some k ∧ key row ≤ k := by
  induction h with
  | start => simp [rowsOf] at hrow
  | @page reads before last contents h hfull hlast ih =>
    refine ⟨key last, rfl, ?_⟩
    rw [rowsOf_append, rowsOf_singleton, List.mem_append] at hrow
    rcases hrow with hrow | hrow
    · obtain ⟨k, rfl, hle⟩ := ih hrow
      have hlt := Contents.comesAfter_of_page (List.mem_of_getLast? hlast)
      exact hle.trans (comesAfter_some.mp hlt).le
    · exact Contents.le_last hlast hrow

/-- The next page goes on in ascending order. -/
theorem ascending_page (h : Scan limit reads after) (hreads : (rowsOf reads).Pairwise fun a b => key a < key b)
    (contents : Contents key) :
    (rowsOf (reads ++ [(contents, contents.page after limit)])).Pairwise fun a b => key a < key b := by
  rw [rowsOf_append, rowsOf_singleton]
  refine List.pairwise_append.mpr ⟨hreads, Contents.page_ascending, fun row hrow row' hrow' => ?_⟩
  obtain ⟨k, rfl, hle⟩ := h.le hrow
  exact hle.trans_lt (comesAfter_some.mp (Contents.comesAfter_of_page hrow'))

theorem ascending (h : Scan limit reads after) : (rowsOf reads).Pairwise fun a b => key a < key b := by
  induction h with
  | start => exact .nil
  | page contents h hfull hlast ih => exact h.ascending_page ih contents

/-- Every row was there when it was read. -/
theorem mem (h : Scan limit reads after) {read : Read key} (hread : read ∈ reads) (hrow : row ∈ read.2) :
    row ∈ read.1.rows := by
  induction h with
  | start => simp at hread
  | page contents h hfull hlast ih =>
    rcases List.mem_append.mp hread with hread | hread
    · exact ih hread
    · obtain rfl := List.mem_singleton.mp hread
      exact Contents.mem_of_page hrow

/-- Nothing that was there at every page is left behind. -/
theorem complete {k : K} (h : Scan limit reads after) (hthere : ∀ read ∈ reads, ∃ row ∈ read.1.rows, key row = k)
    (hk : ¬ comesAfter k after = true) : ∃ row ∈ rowsOf reads, key row = k := by
  induction h with
  | start => exact absurd rfl hk
  | @page reads before last contents h hfull hlast ih =>
    rw [rowsOf_append, rowsOf_singleton]
    by_cases hbefore : comesAfter k before = true
    · obtain ⟨row, hrow, rfl⟩ := hthere _ (List.mem_append_right _ List.mem_cons_self)
      rw [comesAfter_some, not_lt] at hk
      exact ⟨row, List.mem_append_right _ (Contents.mem_page_of_le hrow hbefore hlast hk), rfl⟩
    · obtain ⟨row, hrow, rfl⟩ := ih (fun read hread => hthere read (List.mem_append_left _ hread)) hbefore
      exact ⟨row, List.mem_append_left _ hrow, rfl⟩

theorem length_le (h : Scan limit reads after) : reads.length * limit ≤ (rowsOf reads).length := by
  induction h with
  | start => simp
  | page contents h hfull hlast ih =>
    rw [rowsOf_append, rowsOf_singleton, List.length_append, List.length_append, List.length_singleton, Nat.succ_mul]
    exact Nat.add_le_add ih hfull

/-- Contents that stay have room for so many full pages. -/
theorem length_le_div (h : Scan limit reads after) (hlimit : 0 < limit)
    (hrows : ∀ read ∈ reads, read.1.rows = rows) : reads.length ≤ rows.length / limit := by
  have hnodup : (rowsOf reads).Nodup := h.ascending.imp fun hlt he => by
    rw [he] at hlt
    exact absurd hlt (lt_irrefl _)
  have hsubset : rowsOf reads ⊆ rows := by
    intro row hrow
    obtain ⟨read, hread, hrow⟩ := List.mem_flatMap.mp hrow
    exact hrows read hread ▸ h.mem hread hrow
  exact (Nat.le_div_iff_mul_le hlimit).mpr (Nat.le_trans h.length_le (hnodup.subperm hsubset).length_le)

end Scan

namespace Finished

variable {reads : List (Read key)}

theorem ascending (h : Finished limit reads) : (rowsOf reads).Pairwise fun a b => key a < key b := by
  obtain ⟨before, after, contents, hscan, -, rfl⟩ := h
  exact hscan.ascending_page hscan.ascending contents

/-- A key that was there at every page was read. -/
theorem complete {k : K} (h : Finished limit reads) (hthere : ∀ read ∈ reads, ∃ row ∈ read.1.rows, key row = k) :
    ∃ row ∈ rowsOf reads, key row = k := by
  obtain ⟨before, after, contents, hscan, hshort, rfl⟩ := h
  rw [rowsOf_append, rowsOf_singleton]
  by_cases hk : comesAfter k after = true
  · obtain ⟨row, hrow, rfl⟩ := hthere _ (List.mem_append_right _ List.mem_cons_self)
    exact ⟨row, List.mem_append_right _ (Contents.mem_page_of_short hrow hk hshort), rfl⟩
  · obtain ⟨row, hrow, rfl⟩ := hscan.complete (fun read hread => hthere read (List.mem_append_left _ hread)) hk
    exact ⟨row, List.mem_append_left _ hrow, rfl⟩

/-- A key that was there at every page was read once, whatever its row was. -/
theorem once {k : K} (h : Finished limit reads) (hthere : ∀ read ∈ reads, ∃ row ∈ read.1.rows, key row = k) :
    ∃ row, (rowsOf reads).filter (fun row => key row = k) = [row] := by
  obtain ⟨row, hrow, rfl⟩ := h.complete hthere
  exact ⟨row, filter_key h.ascending hrow⟩

/-- A row that was there at every page was read once. -/
theorem kept (h : Finished limit reads) (hthere : ∀ read ∈ reads, row ∈ read.1.rows) :
    (rowsOf reads).filter (fun row' => key row' = key row) = [row] := by
  obtain ⟨row', hrow', hk⟩ := h.complete fun read hread => ⟨row, hthere read hread, rfl⟩
  obtain ⟨read, hread, hmem⟩ := List.mem_flatMap.mp hrow'
  have hfound : row' ∈ read.1.rows := by
    obtain ⟨before, after, contents, hscan, -, rfl⟩ := h
    rcases List.mem_append.mp hread with hread | hread
    · exact hscan.mem hread hmem
    · obtain rfl := List.mem_singleton.mp hread
      exact Contents.mem_of_page hmem
  obtain rfl := eq_of_key read.1.ascending hfound (hthere read hread) hk
  exact filter_key h.ascending hrow'

end Finished

end Wakuwaku.Keyset
