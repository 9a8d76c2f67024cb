import Wakuwaku.Iggy.Consumer.Pending

/-! # Planning pending records again

If no algebra changes a run, planning the pending records of a key keeps the order of the main log
(`replan_order`). If a type sorts its runs, the orderings of the written entries can end up with other
events than those that had them, and a fence is lost (`fence_lost`); the fences are kept exactly
if sorting leaves them at their end of the run (`replan_fences`). -/

namespace Wakuwaku.Iggy.Consumer

open Wakuwaku.Iggy.Events Wakuwaku.Iggy.Partition Wakuwaku.Iggy.Partition.Fences
open Wakuwaku.Iggy.Consumer.Account

variable {P O : Type}

/-! ### Algebras that leave a run as it is -/

/-- No handler has an algebra that changes a run. -/
def HandlerList.Unchanged (handlers : HandlerList P O) (marking : handlers.Marking) : Prop :=
  ∀ tag m, handlers.findMarked tag marking = some m →
    m.2.marker = .nonAssociative ∨ m.2.marker = .commutative

section Unchanged

variable {handlers : HandlerList P O} {marking : handlers.Marking}
  (hu : handlers.Unchanged marking) {log : ℕ → Option (ParsedRecord (Traced P))}
include hu

theorem fits_of_unchanged (must : EventHeaders → EventHeaders → Prop) (w : Write P) :
    w.Fits handlers marking log must := by
  intro work _ m hm v _ u _ hless
  rcases hu _ m hm with h | h <;> rw [h] at hless <;> exact hless.elim

/-- Every entry stands for one record. -/
theorem singleton_of_unchanged (hlog : Numbered log) {key : UInt64} {start stop : ℕ} {w : Write P}
    (hw : w.From log key start stop)
    (hr : Reported (handlers.traced marking) w.plan w.key w.batch w.failure)
    {e : RetryEntry (Traced P)} (he : e ∈ w.entries (handlers.traced marking)) :
    ∃ a, e.payload.2 = [a] := by
  rw [Write.entries, encodeKey_unfinished hr] at he
  obtain ⟨work, hwork, he⟩ := List.mem_flatMap.mp he
  obtain ⟨p, hp⟩ := List.getElem?_of_mem he
  obtain ⟨-, hpayload, -⟩ := getElem?_pushRun hp
  have hmem := (left_suffix hr hwork).subset (List.mem_of_getElem? hpayload)
  cases hf : handlers.findMarked work.run.tag marking with
  | none => simp [hf] at hmem
  | some m =>
    simp only [hf] at hmem
    obtain ⟨v, hv, heq⟩ := Traced.exists_of_mem_encoded hmem
    have hv' : v ∈ w.events m.1 work := by
      rcases hu _ m hf with h | h <;> rw [h] at hv <;> exact hv
    obtain ⟨a, ha⟩ := offset_of_event hlog hw hv'
    exact ⟨a, heq ▸ ha⟩

end Unchanged

/-- **Planning pending records keeps the order of the log.** If no algebra changes a run, of two events
of a key that are both pending, the first is placed before the second if they share a type or one of
them was a fence. -/
theorem replan_order (handlers : HandlerList P O) (marking : handlers.Marking)
    (hu : handlers.Unchanged marking) (log : ℕ → Option (ParsedRecord (Traced P)))
    (hlog : Numbered log) (key : UInt64) (writes : List (Write P)) (stop : ℕ)
    (reached : List (List (RetryEntry (Traced P)))) (entries : List (RetryEntry (Traced P)))
    (h : Pending (handlers.traced marking) log key writes stop reached entries) (i j : ℕ)
    (e e' : RetryEntry (Traced P)) (hi : entries[i]? = some e) (hj : entries[j]? = some e')
    (x y : ParsedRecord (Traced P)) (hx : log x.offset = some x) (hy : log y.offset = some y)
    (hxe : x.offset ∈ e.payload.2) (hye : y.offset ∈ e'.payload.2) (hxy : x.offset < y.offset)
    (hdep : x.headers.tag = y.headers.tag ∨ x.headers.properties.atomicLevel ≠ .relaxed ∨
      y.headers.properties.atomicLevel ≠ .relaxed) :
    ∃ kp ∈ (Plan.new (replanned entries)).keys, kp.key = key ∧
      (∃ p, (Plan.new (replanned entries)).Placed kp i p) ∧
        (∃ q, (Plan.new (replanned entries)).Placed kp j q) ∧
          ∀ p q, (Plan.new (replanned entries)).Placed kp i p →
            (Plan.new (replanned entries)).Placed kp j q → p.Precedes q := by
  have hkept := (h.kept hlog (fun _ _ hm => hm) fun w _ => fits_of_unchanged hu (fun x y =>
    x.tag = y.tag ∨ x.properties.atomicLevel ≠ .relaxed ∨ y.properties.atomicLevel ≠ .relaxed) w).1
  obtain ⟨kp, hkp, hk, hp⟩ := exists_key (getElem?_replanned hi)
  have hkey : kp.key = key := hk.trans (hkept.key_eq e (List.mem_of_getElem? hi))
  have hq := exists_place hkp (getElem?_replanned hj)
    ((hkept.key_eq e' (List.mem_of_getElem? hj)).trans hkey.symm)
  refine ⟨kp, hkp, hkey, hp, hq, ?_⟩
  rcases hkept.precedes (fun _ _ hm => hm) hi hj hxe hye hxy hx hy hdep with rfl | ⟨-, hprec⟩
  · -- one entry does not stand for two records
    obtain ⟨w, hw, hew⟩ := h.exists_written (List.mem_of_getElem? hi)
    obtain ⟨_, _, _, hfrom, hr, -⟩ := h.exists_write hw
    obtain ⟨a, ha⟩ := singleton_of_unchanged hu hlog hfrom hr hew
    obtain rfl := Option.some.inj (hi.symm.trans hj)
    rw [ha, List.mem_singleton] at hxe hye
    omega
  · exact hprec kp hkp hkey

/-! ### Algebras that change a run -/

/-- The plan of the pending records of `key` places no event that is a `Release` or `AcqRel` before an
event that preceded it, and no event before an `Acquire` or `AcqRel` that preceded it. -/
def KeepsFences (log : ℕ → Option (ParsedRecord (Traced P))) (key : UInt64)
    (entries : List (RetryEntry (Traced P))) : Prop :=
  ∀ i j e e', entries[i]? = some e → entries[j]? = some e' → ∀ x y, log x.offset = some x →
    log y.offset = some y → x.offset ∈ e.payload.2 → y.offset ∈ e'.payload.2 → x.offset < y.offset →
      (x.headers.properties.atomicLevel.acquires = true ∨
        y.headers.properties.atomicLevel = .release ∨ y.headers.properties.atomicLevel = .acqRel) →
      ∀ kp ∈ (Plan.new (replanned entries)).keys, kp.key = key →
        ∀ p q, (Plan.new (replanned entries)).Placed kp i p →
          (Plan.new (replanned entries)).Placed kp j q → ¬ q.Precedes p

/-- Of what is written of a run whose type sorts, no event is less than the one that acquires, and none
is greater than the `Release`. -/
def Write.EndsFit (handlers : HandlerList P O) (marking : handlers.Marking)
    (log : ℕ → Option (ParsedRecord (Traced P))) (w : Write P) : Prop :=
  ∀ work ∈ workOf w.plan w.key, ∀ m, handlers.findMarked work.run.tag marking = some m →
    ∀ v ∈ w.events m.1 work, ∀ u ∈ w.events m.1 work,
      (∃ p ∈ w.left (handlers.traced marking) work, v.2 ⊆ p.2) →
      (∃ p ∈ w.left (handlers.traced marking) work, u.2 ⊆ p.2) →
        ∀ x, log x.offset = some x → x.offset ∈ v.2 →
          (x.headers.properties.atomicLevel.acquires = true → ¬ m.2.marker.Less u.1 v.1) ∧
          (x.headers.properties.atomicLevel = .release → ¬ m.2.marker.Less v.1 u.1)

/-- The first of two events acquires, or the second releases. -/
def MustStay (x y : EventHeaders) : Prop :=
  x.properties.atomicLevel.acquires = true ∨ y.properties.atomicLevel = .release ∨
    y.properties.atomicLevel = .acqRel

section Fences

variable {handlers : HandlerList P O} {marking : handlers.Marking}
  {log : ℕ → Option (ParsedRecord (Traced P))} {key : UInt64} {start stop : ℕ} {w : Write P}

theorem ne_relaxed_of_mustStay {x y : EventHeaders} (h : MustStay x y) :
    x.tag = y.tag ∨ x.properties.atomicLevel ≠ .relaxed ∨ y.properties.atomicLevel ≠ .relaxed := by
  rcases h with h | h | h
  · refine Or.inr (Or.inl fun hx => ?_)
    rw [hx] at h
    cases h
  · exact Or.inr (Or.inr (by simp [h]))
  · exact Or.inr (Or.inr (by simp [h]))

variable (hlog : Numbered log) (hw : w.From log key start stop)
include hlog hw

/-- The record an event of a run stands for. -/
theorem record_of_event {h : Registered P O} {work : Work} {v : Traced h.Target}
    (hv : v ∈ w.events h work) {a : ℕ} (ha : a ∈ v.2) :
    ∃ i ∈ w.plan.records work.run, ∃ r, w.batch[i]? = some r ∧ r.offset = a ∧ log a = some r :=
  record_of_offset hlog hw ((Traced.sublist_decoded _).subset (List.mem_flatMap.mpr ⟨v, hv, ha⟩))

/-- Events of a run with one offset are the same. -/
theorem event_unique {h : Registered P O} {work : Work} (hwork : work ∈ workOf w.plan w.key)
    {v u : Traced h.Target} (hv : v ∈ w.events h work) (hu : u ∈ w.events h work) {a : ℕ}
    (ha : a ∈ v.2) (hb : a ∈ u.2) : v = u := by
  have hpw : ((w.events h work).flatMap Prod.snd).Pairwise (· < ·) :=
    (pairwise_offsets hlog hw hwork).sublist (Traced.sublist_decoded _)
  obtain ⟨-, hpw⟩ := List.pairwise_flatMap.mp hpw
  obtain ⟨i, hi⟩ := List.getElem?_of_mem hv
  obtain ⟨j, hj⟩ := List.getElem?_of_mem hu
  obtain ⟨hi', rfl⟩ := List.getElem?_eq_some_iff.mp hi
  obtain ⟨hj', rfl⟩ := List.getElem?_eq_some_iff.mp hj
  rcases Nat.lt_trichotomy i j with hlt | rfl | hgt
  · exact absurd (List.pairwise_iff_getElem.mp hpw i j hi' hj' hlt a ha a hb) (Nat.lt_irrefl _)
  · rfl
  · exact absurd (List.pairwise_iff_getElem.mp hpw j i hj' hi' hgt a hb a ha) (Nat.lt_irrefl _)

omit hlog in
/-- In a run, an event that acquires precedes every other, and every other precedes a `Release`. -/
theorem fence_of_offsets {work : Work} (hwork : work ∈ workOf w.plan w.key) {i j : ℕ}
    {x y : ParsedRecord (Traced P)} (hi : i ∈ w.plan.records work.run)
    (hj : j ∈ w.plan.records work.run) (hx : w.batch[i]? = some x) (hy : w.batch[j]? = some y)
    (hlt : x.offset < y.offset) : x.headers.properties.atomicLevel ≠ .release ∧
      y.headers.properties.atomicLevel.acquires = false := by
  obtain ⟨segment, hseg, hranked⟩ := ranked_of_workOf hwork
  have hget : ∀ {i : ℕ} {x : ParsedRecord (Traced P)}, w.batch[i]? = some x →
      (planRecords w.batch)[i]? = some ⟨x.headers.key, x.headers.tag, x.headers.properties.atomicLevel⟩ :=
    fun hx => by rw [planRecords, List.getElem?_map, hx]; rfl
  exact fence_of_run hw.key_mem hseg hranked hi hj (hget hx) (hget hy) ((index_lt_iff hw hx hy).mpr hlt)

theorem fits_of_endsFit (hends : w.EndsFit handlers marking log) :
    w.Fits handlers marking log MustStay := by
  intro work hwork m hm v hv u hu hless a ha b hb p hp p' hp' hap hbp x y hx hy
  obtain ⟨a', hv2⟩ := offset_of_event hlog hw hv
  obtain ⟨b', hu2⟩ := offset_of_event hlog hw hu
  obtain rfl : a = a' := by simpa [hv2] using ha
  obtain rfl : b = b' := by simpa [hu2] using hb
  have hpv : ∃ p ∈ w.left (handlers.traced marking) work, v.2 ⊆ p.2 := ⟨p, hp, by simpa [hv2] using hap⟩
  have hpu : ∃ p ∈ w.left (handlers.traced marking) work, u.2 ⊆ p.2 :=
    ⟨p', hp', by simpa [hu2] using hbp⟩
  obtain ⟨i, hi, y', hiy, rfl, hy'⟩ := record_of_event hlog hw hv ha
  obtain ⟨j, hj, x', hjx, rfl, hx'⟩ := record_of_event hlog hw hu hb
  obtain rfl := Option.some.inj (hy.symm.trans hy')
  obtain rfl := Option.some.inj (hx.symm.trans hx')
  have hrel := (hends work hwork m hm v hv u hu hpv hpu y hy ha).2
  refine ⟨fun hlt hstay => ?_, fun hc => hrel hc hless⟩
  rcases hstay with hc | hc | hc
  · exact (hends work hwork m hm u hu v hv hpu hpv x hx hb).1 hc hless
  · exact hrel hc hless
  · have := (fence_of_offsets hw hwork hj hi hjx hiy hlt).2
    rw [hc] at this
    cases this

variable (hr : Reported (handlers.traced marking) w.plan w.key w.batch w.failure)
include hr

/-- What is less is written before. -/
theorem exists_before {work : Work} (hwork : work ∈ workOf w.plan w.key)
    {m : (h : Registered P O) × Marked h} (hm : handlers.findMarked work.run.tag marking = some m)
    {v u : Traced m.1.Target} (hv : v ∈ w.events m.1 work) (hu : u ∈ w.events m.1 work)
    (hless : m.2.marker.Less v.1 u.1) {a b : ℕ} (ha : a ∈ v.2) (hb : b ∈ u.2) {p p' : Traced P}
    (hp : p ∈ w.left (handlers.traced marking) work) (hp' : p' ∈ w.left (handlers.traced marking) work)
    (hap : a ∈ p.2) (hbp : b ∈ p'.2) :
    ∃ i j : ℕ, ∃ e e' : RetryEntry (Traced P), i < j ∧ (w.entries (handlers.traced marking))[i]? = some e ∧
      (w.entries (handlers.traced marking))[j]? = some e' ∧ a ∈ e.payload.2 ∧ b ∈ e'.payload.2 ∧
        e.headers.key = key ∧ e'.headers.key = key ∧ e.headers.tag = e'.headers.tag := by
  obtain ⟨k, hk⟩ := List.getElem?_of_mem hp
  obtain ⟨k', hk'⟩ := List.getElem?_of_mem hp'
  have hsuffix := left_suffix hr hwork
  rw [hm] at hsuffix
  -- the reduction keeps the two apart, in this order
  have hkk : k < k' := by
    obtain ⟨hlt, rfl⟩ := List.getElem?_eq_some_iff.mp hk
    obtain ⟨hlt', rfl⟩ := List.getElem?_eq_some_iff.mp hk'
    rcases Nat.lt_trichotomy k k' with h | rfl | h
    · exact h
    · exfalso
      obtain ⟨c, hc, hcp⟩ := Traced.exists_of_mem_encoded (hsuffix.subset hp)
      obtain ⟨v', hv', u', hu', hav, hbu, hn⟩ :=
        Partition.Traced.not_less_reduce m.2.sorts hc (hcp ▸ hap) (hcp ▸ hbp)
      rw [event_unique hlog hw hwork hv' hv hav ha, event_unique hlog hw hwork hu' hu hbu hb] at hn
      exact hn hless
    · exfalso
      have hpw := List.pairwise_iff_getElem.mp (pairwise_left hlog hw hr hwork) k' k hlt' hlt h
      obtain ⟨m', hm', ⟨-, hn⟩ | ⟨u', hu', v', hv', hbu, hav, hn⟩⟩ := hpw.2 b hbp a hap
      all_goals obtain rfl := Option.some.inj (hm.symm.trans hm')
      · exact hn _ _ hless
      · rw [event_unique hlog hw hwork hv' hv hav ha, event_unique hlog hw hwork hu' hu hbu hb] at hn
        exact Partition.Traced.less_asymm hn hless
  obtain ⟨l₁, l₂, hl⟩ := List.append_of_mem hwork
  have hreg : ((handlers.traced marking).find work.run.tag).isSome := by
    rw [HandlerList.find_traced, hm]
    rfl
  have hentries : ∃ pre post, w.entries (handlers.traced marking) = pre ++ pushRun (handlers.traced marking)
      w.key.key work.stage.kind work.run (w.left (handlers.traced marking) work) ++ post := by
    rw [Write.entries, encodeKey_unfinished hr, hl, List.flatMap_append, List.flatMap_cons,
      ← List.append_assoc]
    exact ⟨_, _, rfl⟩
  obtain ⟨pre, post, hentries⟩ := hentries
  have hget : ∀ {k : ℕ} {p : Traced P}, (w.left (handlers.traced marking) work)[k]? = some p →
      ∃ e, (w.entries (handlers.traced marking))[pre.length + k]? = some e ∧ e.payload = p ∧
        e.headers.key = key ∧ e.headers.tag = work.run.tag := by
    intro k p hk
    have hk2 : ((pushRun (handlers.traced marking) w.key.key work.stage.kind work.run
        (w.left (handlers.traced marking) work)).map (·.payload))[k]? = some p := by
      rw [payload_pushRun hreg, hk]
    rw [List.getElem?_map, Option.map_eq_some_iff] at hk2
    obtain ⟨e, he, rfl⟩ := hk2
    obtain ⟨hlt, -, hkey, htag, -⟩ := getElem?_pushRun he
    refine ⟨e, ?_, rfl, hkey.trans hw.key_eq, htag⟩
    rw [hentries, List.append_assoc, List.getElem?_append_right (by omega), Nat.add_sub_cancel_left,
      List.getElem?_append_left hlt, he]
  obtain ⟨e, he, rfl, hkey, htag⟩ := hget hk
  obtain ⟨e', he', rfl, hkey', htag'⟩ := hget hk'
  exact ⟨_, _, e, e', by omega, he, he', hap, hbp, hkey, hkey', htag.trans htag'.symm⟩

/-- If the fences are kept after the write, it fits. -/
theorem endsFit_of_keepsFences {pre : List (RetryEntry (Traced P))}
    (h : KeepsFences log key (pre ++ w.entries (handlers.traced marking))) :
    w.EndsFit handlers marking log := by
  intro work hwork m hm v hv u hu ⟨p, hp, hvp⟩ ⟨p', hp', hup⟩ x hx hxv
  obtain ⟨b, hub⟩ := offset_of_event hlog hw hu
  have hb : b ∈ u.2 := by simp [hub]
  obtain ⟨i, hi, x', hix, hxo, hx'⟩ := record_of_event hlog hw hv hxv
  obtain rfl := Option.some.inj (hx.symm.trans hx')
  obtain ⟨j, hj, y, hjy, rfl, hy⟩ := record_of_event hlog hw hu hb
  -- an entry in front of another of its type is placed before it
  have hprec : ∀ {i j : ℕ} {e e' : RetryEntry (Traced P)}, i < j →
      (w.entries (handlers.traced marking))[i]? = some e →
        (w.entries (handlers.traced marking))[j]? = some e' → e.headers.key = key →
          e'.headers.key = key → e.headers.tag = e'.headers.tag →
            (pre ++ w.entries (handlers.traced marking))[pre.length + i]? = some e ∧
            (pre ++ w.entries (handlers.traced marking))[pre.length + j]? = some e' ∧
            ∃ kp ∈ (Plan.new (replanned (pre ++ w.entries (handlers.traced marking)))).keys,
              kp.key = key ∧ ∃ q q',
              (Plan.new (replanned (pre ++ w.entries (handlers.traced marking)))).Placed kp
                (pre.length + i) q ∧
              (Plan.new (replanned (pre ++ w.entries (handlers.traced marking)))).Placed kp
                (pre.length + j) q' ∧ q.Precedes q' := by
    intro i j e e' hij he he' hkey hkey' htag
    have hget : ∀ {i : ℕ} {e : RetryEntry (Traced P)}, (w.entries (handlers.traced marking))[i]? = some e →
        (pre ++ w.entries (handlers.traced marking))[pre.length + i]? = some e := fun he => by
      rw [List.getElem?_append_right (by omega), Nat.add_sub_cancel_left, he]
    obtain ⟨kp, hkp, hk, ⟨q, hq⟩, ⟨q', hq'⟩, hlt⟩ := Order.plan_order
      (replanned (pre ++ w.entries (handlers.traced marking))) (pre.length + i) (pre.length + j) _ _
        (getElem?_replanned (hget he)) (getElem?_replanned (hget he')) (by omega)
          (hkey.trans hkey'.symm) (Or.inl htag)
    exact ⟨hget he, hget he', kp, hkp, hk.trans hkey, q, q', hq, hq', hlt q q' hq hq'⟩
  constructor
  · intro hacq hless
    have hne : x.offset ≠ y.offset := by
      intro heq
      rw [event_unique hlog hw hwork hu hv hb (heq ▸ hxv)] at hless
      exact Partition.Traced.less_asymm hless hless
    have hlt : x.offset < y.offset := by
      by_contra hge
      have := (fence_of_offsets hw hwork hj hi hjy hix (by omega)).2
      rw [hacq] at this
      cases this
    obtain ⟨k, k', e, e', hkk, he, he', hbe, hae, hkey, hkey', htag⟩ :=
      exists_before hlog hw hr hwork hm hu hv hless hb hxv hp' hp (hup hb) (hvp hxv)
    obtain ⟨g1, g2, kp, hkp, hk, q, q', hq, hq', hlt'⟩ := hprec hkk he he' hkey hkey' htag
    exact h _ _ e' e g2 g1 x y hx hy hae hbe hlt (Or.inl hacq) kp hkp hk q' q hq' hq hlt'
  · intro hrel hless
    have hne : y.offset ≠ x.offset := by
      intro heq
      rw [event_unique hlog hw hwork hu hv hb (heq ▸ hxv)] at hless
      exact Partition.Traced.less_asymm hless hless
    have hlt : y.offset < x.offset := by
      by_contra hge
      exact (fence_of_offsets hw hwork hi hj hix hjy (by omega)).1 hrel
    obtain ⟨k, k', e, e', hkk, he, he', hae, hbe, hkey, hkey', htag⟩ :=
      exists_before hlog hw hr hwork hm hv hu hless hxv hb hp hp' (hvp hxv) (hup hb)
    obtain ⟨g1, g2, kp, hkp, hk, q, q', hq, hq', hlt'⟩ := hprec hkk he he' hkey hkey' htag
    exact h _ _ e' e g2 g1 y x hy hx hbe hae hlt (Or.inr (Or.inl hrel)) kp hkp hk q' q hq' hq hlt'

end Fences

/-- **The fences are kept exactly if what is written fits.** In every state that the pending records of
a key reach, no `Release` is placed before an event that preceded it and no event before an `Acquire`
that preceded it, if and only if sorting left the fences at their end of every run that was written. -/
theorem replan_fences (handlers : HandlerList P O) (marking : handlers.Marking)
    (log : ℕ → Option (ParsedRecord (Traced P))) (hlog : Numbered log) (key : UInt64)
    (writes : List (Write P)) (stop : ℕ) (reached : List (List (RetryEntry (Traced P))))
    (entries : List (RetryEntry (Traced P)))
    (h : Pending (handlers.traced marking) log key writes stop reached entries) :
    (∀ s ∈ reached, KeepsFences log key s) ↔ ∀ w ∈ writes, w.EndsFit handlers marking log := by
  constructor
  · intro hkeeps w hw
    obtain ⟨start, stop, pre, hfrom, hr, hmem⟩ := h.exists_write hw
    exact endsFit_of_keepsFences hlog hfrom hr (hkeeps _ hmem)
  · intro hends s hs
    have hfit : ∀ w ∈ writes, w.Fits handlers marking log MustStay := fun w hw => by
      obtain ⟨start, stop, pre, hfrom, -, -⟩ := h.exists_write hw
      exact fits_of_endsFit hlog hfrom (hends w hw)
    obtain ⟨stop, hkept⟩ := (h.kept hlog (fun _ _ => ne_relaxed_of_mustStay) hfit).2 s hs
    intro i j e e' hi hj x y hx hy hxe hye hxy hstay kp hkp hk p q hp hq
    refine not_precedes hkp hp hq ?_
    exact (hkept.precedes (fun _ _ => ne_relaxed_of_mustStay) hi hj hxe hye hxy hx hy hstay).imp_right
      fun hprec => hprec.2 kp hkp hk p q hp hq

/-! ### A lost fence -/

/-- A sort of traced naturals. -/
def natSort (run : List (Traced ℕ)) : List (Traced ℕ) := run.insertionSort fun a b => a.1 ≤ b.1

theorem natSort_sorts : natOrd.SortsTraced natSort := fun run =>
  ⟨List.perm_insertionSort _ run, List.map_insertionSort _ _ _ _ fun _ _ _ _ => Iff.rfl⟩

/-- Two types, of which the first has the marker `m`. -/
def fenceHandlers (m : Marker ℕ) : HandlerList ℕ ℕ :=
  (HandlerList.new (.plain ⟨1⟩ m)).push (.plain ⟨2⟩ .nonAssociative)

def fenceMarking (m : Marker ℕ) (hs : m.Sorts natSort) : (fenceHandlers m).Marking :=
  (⟨m, natSort, rfl, hs⟩, ⟨.nonAssociative, natSort, rfl, trivial⟩)

/-- An `Acquire` and a `Release` of the first type, with an event of the other type between. -/
def fenceLog (m : Marker ℕ) : ℕ → Option (ParsedRecord (Traced ℕ))
  | 0 => some ⟨0, ⟨⟨1⟩, 7, ⟨.acquire, m.algebra.associativity⟩⟩, (7, [0])⟩
  | 1 => some ⟨1, ⟨⟨2⟩, 7, ⟨.relaxed, .nonAssociative⟩⟩, (0, [1])⟩
  | 2 => some ⟨2, ⟨⟨1⟩, 7, ⟨.relaxed, m.algebra.associativity⟩⟩, (5, [2])⟩
  | 3 => some ⟨3, ⟨⟨1⟩, 7, ⟨.release, m.algebra.associativity⟩⟩, (3, [3])⟩
  | _ => none

/-- The `Acquire` fails. -/
def firstWrite (m : Marker ℕ) : Write ℕ :=
  ⟨(fenceLog m 0).toList, ⟨7, ⟨0, 1⟩⟩, some ⟨0, "down", [⟨.head, [0], [(7, [0])]⟩]⟩⟩

/-- The other events are diverted. -/
def laterWrite (m : Marker ℕ) : Write ℕ :=
  ⟨(fenceLog m 1).toList ++ (fenceLog m 2).toList ++ (fenceLog m 3).toList, ⟨7, ⟨0, 1⟩⟩, none⟩

theorem numbered_fenceLog (m : Marker ℕ) : Numbered (fenceLog m) := by
  intro a r hr
  match a, hr with
  | 0, hr => obtain rfl := Option.some.inj hr; exact ⟨rfl, rfl⟩
  | 1, hr => obtain rfl := Option.some.inj hr; exact ⟨rfl, rfl⟩
  | 2, hr => obtain rfl := Option.some.inj hr; exact ⟨rfl, rfl⟩
  | 3, hr => obtain rfl := Option.some.inj hr; exact ⟨rfl, rfl⟩

theorem from_firstWrite (m : Marker ℕ) : (firstWrite m).From (fenceLog m) 7 0 1 where
  le := by decide
  sorted := List.pairwise_singleton _ _
  mem r hr := by
    obtain rfl := List.mem_singleton.mp hr
    exact ⟨rfl, by simp, by simp⟩
  key_mem := by
    show (⟨7, ⟨0, 1⟩⟩ : KeyPlan UInt64) ∈ (Plan.new [⟨7, ⟨1⟩, .acquire⟩]).keys
    decide
  key_eq := rfl

theorem from_laterWrite (m : Marker ℕ) : (laterWrite m).From (fenceLog m) 7 1 4 where
  le := by decide
  sorted := by simp [laterWrite, fenceLog]
  mem r hr := by
    simp only [laterWrite, fenceLog, Option.toList_some, List.cons_append, List.nil_append,
      List.mem_cons, List.not_mem_nil, or_false] at hr
    rcases hr with rfl | rfl | rfl <;> exact ⟨rfl, by simp, by simp⟩
  key_mem := by
    show (⟨7, ⟨0, 1⟩⟩ : KeyPlan UInt64) ∈
      (Plan.new [⟨7, ⟨2⟩, .relaxed⟩, ⟨7, ⟨1⟩, .relaxed⟩, ⟨7, ⟨1⟩, .release⟩]).keys
    decide
  key_eq := rfl

/-- A handler that is down fails a run of one event. -/
theorem handleEvents_down (h : Registered P O) {run : List (RunRecord P)} {v : h.Target}
    (hd : h.decode run = [v]) : h.handleEvents run
      [⟨h.tag, [h.observe v], some (.error ⟨.retryable, "down"⟩)⟩]
        (some (.failed "down" (h.encode [v]))) := by
  have hchunk : h.handleChunk [v] [⟨h.tag, [h.observe v], some (.error ⟨.retryable, "down"⟩)⟩]
      (some (some "down")) :=
    .done (Async.bind_iff.mpr ⟨.error ⟨.retryable, "down"⟩, [_], [], Async.call_iff.mpr rfl,
      Async.pure_iff.mpr ⟨rfl, rfl⟩, rfl⟩)
  unfold Registered.handleEvents
  rw [hd]
  refine .done ?_
  have hstop : min (0 + h.maxBatch) [v].length - 0 = 1 := by
    have := h.maxBatch_pos
    rw [List.length_singleton]
    omega
  unfold Registered.handleFrom
  rw [if_pos (by simp)]
  refine Async.bind_iff.mpr ⟨some "down", [_], [], ?_, Async.pure_iff.mpr ⟨rfl, rfl⟩, rfl⟩
  rw [hstop]
  exact hchunk

theorem run_firstWrite (m : Marker ℕ) (hs : m.Sorts natSort) :
    runOne ((fenceHandlers m).traced (fenceMarking m hs)) (firstWrite m).plan (firstWrite m).batch
      ⟨⟨1⟩, ⟨0, 1⟩⟩ [⟨⟨1⟩, [(7, [0])], some (.error ⟨.retryable, "down"⟩)⟩]
        (some (.failed "down" [(7, [0])])) := by
  let h : Registered ℕ ℕ := .plain ⟨1⟩ m
  have hrecords : runRecords (firstWrite m).plan (firstWrite m).batch ⟨⟨1⟩, ⟨0, 1⟩⟩ =
      [⟨(7, [0]), m.algebra.associativity⟩] := by
    have hrec : (Plan.new [(⟨7, ⟨1⟩, .acquire⟩ : PlanRecord UInt64)]).records ⟨⟨1⟩, ⟨0, 1⟩⟩ = [0] := by
      decide
    show ((Plan.new [(⟨7, ⟨1⟩, .acquire⟩ : PlanRecord UInt64)]).records ⟨⟨1⟩, ⟨0, 1⟩⟩).filterMap _ = _
    rw [hrec]
    rfl
  have hone : Traced.decoded h [⟨(7, [0]), m.algebra.associativity⟩] = [((7 : ℕ), [0])] := by
    simp [Traced.decoded, Registered.decodeOne, RunRecord.erase, h, Registered.plain, Except.toOption]
  have hdecode : (h.traced m natSort).decode [⟨(7, [0]), m.algebra.associativity⟩] = [((7 : ℕ), [0])] :=
    (Traced.decode_traced (h := h) (m := m) rfl _).trans
      ((congrArg _ hone).trans (Partition.Traced.reduce_singleton hs _))
  have hdown := handleEvents_down (h.traced m natSort) hdecode
  unfold runOne
  rw [hrecords, HandlerList.handleRun_eq]
  exact hdown

/-- The handler is down when it gets the `Acquire`. -/
theorem execute_firstWrite (m : Marker ℕ) (hs : m.Sorts natSort) :
    executeKey ((fenceHandlers m).traced (fenceMarking m hs)) (firstWrite m).plan (firstWrite m).key
      (firstWrite m).batch [⟨⟨1⟩, [(7, [0])], some (.error ⟨.retryable, "down"⟩)⟩]
        (some ⟨[], (firstWrite m).failure⟩) := by
  have hsegments : (firstWrite m).plan.segmentsOf (firstWrite m).key = [⟨some 0, ⟨1, 1⟩, none⟩] := by
    show (Plan.new [⟨7, ⟨1⟩, .acquire⟩]).segmentsOf (⟨7, ⟨0, 1⟩⟩ : KeyPlan UInt64) = _
    decide
  have hhead : (firstWrite m).plan.head ⟨some 0, ⟨1, 1⟩, none⟩ = some ⟨⟨1⟩, ⟨0, 1⟩⟩ := by
    show (Plan.new [(⟨7, ⟨1⟩, .acquire⟩ : PlanRecord UInt64)]).head _ = _
    decide
  have hrec : (firstWrite m).plan.records ⟨⟨1⟩, ⟨0, 1⟩⟩ = [0] := by
    show (Plan.new [(⟨7, ⟨1⟩, .acquire⟩ : PlanRecord UInt64)]).records _ = _
    decide
  have hrun := run_firstWrite m hs
  generalize (firstWrite m).plan = plan at *
  unfold executeKey executeKeyWith
  rw [hsegments]
  refine Async.bind_iff.mpr ⟨⟨some "down", [⟨.head, [0], [(7, [0])]⟩], []⟩, [_], [], ?_,
    Async.pure_iff.mpr ⟨rfl, rfl⟩, rfl⟩
  refine Async.bind_iff.mpr ⟨⟨some "down", [⟨.head, [0], [(7, [0])]⟩], []⟩, [_], [], ?_,
    Async.bind_iff.mpr ⟨⟨some "down", [⟨.head, [0], [(7, [0])]⟩], []⟩, [], [], ?_, ?_, rfl⟩, rfl⟩
  · rw [hhead, executeSingle_some rfl]
    refine Async.bind_iff.mpr ⟨_, [_], [], hrun, Async.pure_iff.mpr ⟨rfl, ?_⟩, rfl⟩
    simp [StageOutcome.settle, hrec]
  · rw [executeBody_failed rfl]
    exact Async.pure_iff.mpr ⟨rfl, rfl⟩
  · rw [executeSingle_failed rfl]
    exact Async.pure_iff.mpr ⟨rfl, rfl⟩

def fencePending (m : Marker ℕ) (hs : m.Sorts natSort) : List (RetryEntry (Traced ℕ)) :=
  (firstWrite m).entries ((fenceHandlers m).traced (fenceMarking m hs)) ++
    (laterWrite m).entries ((fenceHandlers m).traced (fenceMarking m hs))

/-- The `Acquire` fails and the other events are diverted. -/
theorem pending_fence (m : Marker ℕ) (hs : m.Sorts natSort) :
    Pending ((fenceHandlers m).traced (fenceMarking m hs)) (fenceLog m) 7 [firstWrite m, laterWrite m] 4
      [(firstWrite m).entries ((fenceHandlers m).traced (fenceMarking m hs)), fencePending m hs]
      (fencePending m hs) :=
  .diverted (.failed .none (from_firstWrite m) (execute_firstWrite m hs) rfl rfl) (from_laterWrite m) rfl

example : (fencePending .nonAssociative trivial).map (·.payload) =
    [(7, [0]), (0, [1]), (5, [2]), (3, [3])] := by decide

example : (fencePending (.idempotentCommutative natOrd) natSort_sorts).map (·.payload) =
    [(7, [0]), (0, [1]), (3, [3]), (5, [2])] := by decide

/-- The `Release` of the first type is not absorbed by the pending head run. -/
theorem replan_order_fence : ∃ kp ∈ (Plan.new (replanned (fencePending .nonAssociative trivial))).keys,
    kp.key = 7 ∧
      (∃ p, (Plan.new (replanned (fencePending .nonAssociative trivial))).Placed kp 1 p) ∧
        (∃ q, (Plan.new (replanned (fencePending .nonAssociative trivial))).Placed kp 3 q) ∧
          ∀ p q, (Plan.new (replanned (fencePending .nonAssociative trivial))).Placed kp 1 p →
            (Plan.new (replanned (fencePending .nonAssociative trivial))).Placed kp 3 q →
              p.Precedes q := by
  have hu : (fenceHandlers .nonAssociative).Unchanged (fenceMarking .nonAssociative trivial) := by
    intro tag m hm
    simp only [fenceHandlers, fenceMarking, HandlerList.findMarked] at hm
    split_ifs at hm
    all_goals
      obtain rfl := Option.some.inj hm
      exact Or.inl rfl
  exact replan_order _ (fenceMarking .nonAssociative trivial) hu (fenceLog .nonAssociative)
    (numbered_fenceLog _) 7 _ 4 _ _ (pending_fence .nonAssociative trivial) 1 3 _ _ rfl rfl
      ⟨1, ⟨⟨2⟩, 7, ⟨.relaxed, .nonAssociative⟩⟩, (0, [1])⟩
      ⟨3, ⟨⟨1⟩, 7, ⟨.release, .nonAssociative⟩⟩, (3, [3])⟩ rfl rfl (by decide) (by decide) (by decide)
        (by decide)

theorem not_keepsFences_fence : ¬ KeepsFences (fenceLog (.idempotentCommutative natOrd)) 7
    (fencePending (.idempotentCommutative natOrd) natSort_sorts) := by
  intro h
  have hplan : Plan.new (replanned (fencePending (.idempotentCommutative natOrd) natSort_sorts)) =
      ⟨[0, 2, 1, 3], [⟨⟨1⟩, ⟨0, 2⟩⟩, ⟨⟨2⟩, ⟨2, 3⟩⟩, ⟨⟨1⟩, ⟨3, 4⟩⟩],
        [⟨some 0, ⟨1, 2⟩, none⟩, ⟨none, ⟨2, 2⟩, some 2⟩], [⟨7, ⟨0, 2⟩⟩]⟩ := by decide
  have hp : (Plan.new (replanned (fencePending (.idempotentCommutative natOrd) natSort_sorts))).Placed
      ⟨7, ⟨0, 2⟩⟩ 1 ⟨0, .body, 1, 0⟩ := by
    rw [hplan]
    exact ⟨_, rfl, _, rfl, rfl⟩
  have hq : (Plan.new (replanned (fencePending (.idempotentCommutative natOrd) natSort_sorts))).Placed
      ⟨7, ⟨0, 2⟩⟩ 2 ⟨0, .head, 0, 1⟩ := by
    rw [hplan]
    exact ⟨_, rfl, _, rfl, rfl⟩
  refine h 1 2 _ _ rfl rfl ⟨1, ⟨⟨2⟩, 7, ⟨.relaxed, .nonAssociative⟩⟩, (0, [1])⟩
    ⟨3, ⟨⟨1⟩, 7, ⟨.release, .idempotentCommutative⟩⟩, (3, [3])⟩ rfl rfl (by decide) (by decide)
      (by decide) (by decide) ⟨7, ⟨0, 2⟩⟩ ?_ rfl _ _ hp hq (by decide)
  rw [hplan]
  exact List.mem_singleton.mpr rfl

/-- **A fence is lost.** The `Release` is sorted before the event it shares a run with, which takes over
its ordering, and then joins the pending head run of its type, before an event of another type that
preceded it. -/
theorem fence_lost :
    Pending ((fenceHandlers (.idempotentCommutative natOrd)).traced
        (fenceMarking (.idempotentCommutative natOrd) natSort_sorts))
      (fenceLog (.idempotentCommutative natOrd)) 7
      [firstWrite (.idempotentCommutative natOrd), laterWrite (.idempotentCommutative natOrd)] 4
      [(firstWrite (.idempotentCommutative natOrd)).entries
          ((fenceHandlers (.idempotentCommutative natOrd)).traced
            (fenceMarking (.idempotentCommutative natOrd) natSort_sorts)),
        fencePending (.idempotentCommutative natOrd) natSort_sorts]
      (fencePending (.idempotentCommutative natOrd) natSort_sorts) ∧
    ¬ KeepsFences (fenceLog (.idempotentCommutative natOrd)) 7
      (fencePending (.idempotentCommutative natOrd) natSort_sorts) :=
  ⟨pending_fence _ _, not_keepsFences_fence⟩

/-- One of the writes does not fit. -/
theorem replan_fences_lost :
    ∃ w ∈ [firstWrite (.idempotentCommutative natOrd), laterWrite (.idempotentCommutative natOrd)],
      ¬ w.EndsFit (fenceHandlers (.idempotentCommutative natOrd))
        (fenceMarking (.idempotentCommutative natOrd) natSort_sorts)
        (fenceLog (.idempotentCommutative natOrd)) := by
  have hiff := replan_fences _ (fenceMarking (.idempotentCommutative natOrd) natSort_sorts)
    (fenceLog (.idempotentCommutative natOrd)) (numbered_fenceLog _) 7 _ 4 _ _ (pending_fence _ _)
  by_contra hall
  push Not at hall
  exact not_keepsFences_fence (hiff.mpr hall _ (by simp))

end Wakuwaku.Iggy.Consumer
