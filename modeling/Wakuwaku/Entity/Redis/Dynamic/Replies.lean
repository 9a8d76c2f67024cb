import Wakuwaku.Fallible
import Wakuwaku.Entity.Redis.Dynamic.Cursor

/-! # Which replies parse

A reply parses to what it spells and to nothing else: an entry is an ID of two 64-bit numbers with names
and values that alternate (`parseEntry_eq_ok_iff`), and an entry that is malformed fails the whole reply
(`parseRange_eq_ok_iff`). What Redis replies spells the entries of the stream in both protocols
(`replies_parse`). -/

namespace Wakuwaku.Entity.Redis.Dynamic

open Wakuwaku.Redis Wakuwaku.Entity.Redis

/-! ### IDs -/

/-- The text of a 64-bit number: decimal digits, after an optional plus sign. -/
def SpellsU64 (bytes : Bytes) (n : ℕ) : Prop :=
  ∃ digits, (bytes = digits ∨ bytes = 43 :: digits) ∧ digits ≠ [] ∧
    (∀ b ∈ digits, isDigitByte b = true) ∧ digitsValue digits = n ∧ n < 2 ^ 64

/-- The text of an ID: two numbers with a dash between them. -/
def SpellsId (bytes : Bytes) (id : EntryId) : Prop :=
  ∃ ms seq, bytes = ms ++ 45 :: seq ∧ SpellsU64 ms id.ms ∧ SpellsU64 seq id.seq

theorem parseU64_eq_some_iff {bytes : Bytes} {n : ℕ} : parseU64 bytes = some n ↔ SpellsU64 bytes n := by
  have hdigits : ∀ {digits}, (parseDigits digits >>= fun n => if n < 2 ^ 64 then some n else none) = some n ↔
      digits ≠ [] ∧ (∀ b ∈ digits, isDigitByte b = true) ∧ digitsValue digits = n ∧ n < 2 ^ 64 := by
    intro digits
    rw [Option.bind_eq_bind, Option.bind_eq_some_iff]
    constructor
    · rintro ⟨n', hn', h⟩
      split_ifs at h with hlt
      obtain rfl := Option.some.inj h
      obtain ⟨hne, hall, hvalue⟩ := parseDigits_eq_some_iff.mp hn'
      exact ⟨hne, hall, hvalue, hlt⟩
    · rintro ⟨hne, hall, hvalue, hlt⟩
      exact ⟨n, parseDigits_eq_some_iff.mpr ⟨hne, hall, hvalue⟩, if_pos hlt⟩
  unfold parseU64
  split
  · next rest =>
    rw [hdigits]
    constructor
    · exact fun h => ⟨rest, Or.inr rfl, h⟩
    · rintro ⟨digits, rfl | heq, hne, hall, hrest⟩
      · exact absurd (hall 43 List.mem_cons_self) (by decide)
      · obtain rfl := (List.cons.inj heq).2
        exact ⟨hne, hall, hrest⟩
  · next hsign =>
    rw [hdigits]
    constructor
    · exact fun h => ⟨bytes, Or.inl rfl, h⟩
    · rintro ⟨digits, rfl | heq, h⟩
      · exact h
      · exact absurd heq (hsign digits)

/-- A number is spelled without a dash. -/
theorem SpellsU64.not_mem {bytes : Bytes} {n : ℕ} (h : SpellsU64 bytes n) : 45 ∉ bytes := by
  obtain ⟨digits, hbytes, -, hall, -⟩ := h
  have hdigits : 45 ∉ digits := fun hmem => absurd (hall 45 hmem) (by decide)
  rcases hbytes with rfl | rfl
  · exact hdigits
  · exact fun hmem => (List.mem_cons.mp hmem).elim (by decide) hdigits

/-- **An ID is parsed from its texts** and from nothing else. -/
theorem EntryId.parse_eq_ok_iff {bytes : Bytes} {id : EntryId} :
    EntryId.parse bytes = .ok id ↔ SpellsId bytes id := by
  constructor
  · intro h
    unfold EntryId.parse at h
    dsimp only at h
    split at h
    · next found hfound =>
      obtain rfl := Except.ok.inj h
      simp only [Option.bind_eq_bind, Option.bind_eq_some_iff] at hfound
      obtain ⟨⟨ms, seq⟩, hsplit, n, hms, k, hseq, heq⟩ := hfound
      obtain rfl := Option.some.inj heq
      exact ⟨ms, seq, (splitDash_eq_some_iff.mp hsplit).1, parseU64_eq_some_iff.mp hms,
        parseU64_eq_some_iff.mp hseq⟩
    · cases h
  · rintro ⟨ms, seq, rfl, hms, hseq⟩
    have hsplit : splitDash (ms ++ 45 :: seq) = some (ms, seq) :=
      splitDash_eq_some_iff.mpr ⟨rfl, hms.not_mem⟩
    unfold EntryId.parse
    rw [hsplit]
    simp only [Option.bind_eq_bind, Option.bind_some, parseU64_eq_some_iff.mpr hms,
      parseU64_eq_some_iff.mpr hseq]
    rfl

/-! ### Entries -/

/-- The names and values of pairs, one after another. -/
def alternating (pairs : List (Value × Value)) : List Value := pairs.flatMap fun pair => [pair.1, pair.2]

theorem alternating_chunks : ∀ {fields : List Value}, fields.length % 2 = 0 →
    alternating (chunks fields) = fields
  | [], _ => rfl
  | [_], h => absurd h (by simp)
  | name :: value :: rest, h => by
    have hrest : rest.length % 2 = 0 := by
      rw [List.length_cons, List.length_cons] at h
      omega
    rw [chunks, alternating, List.flatMap_cons]
    exact congrArg (name :: value :: ·) (alternating_chunks hrest)

theorem length_alternating (pairs : List (Value × Value)) : (alternating pairs).length % 2 = 0 := by
  induction pairs with
  | nil => rfl
  | cons pair rest ih =>
    rw [alternating, List.flatMap_cons, List.length_append, List.length_cons, List.length_singleton]
    unfold alternating at ih
    omega

/-- A value spells an entry: an array of an ID, as a bulk or a simple string, and an array of names and
values that alternate. -/
def Spells (value : Value) (entry : Entry) : Prop :=
  ∃ id text pairs, value = .array [id, .array (alternating pairs)] ∧
    (id = .bulkString text ∨ id = .simpleString text) ∧ SpellsId text entry.id ∧
      entry.fields = alternating pairs

theorem spells_of_even {id : Value} {text : Bytes} {entryId : EntryId} {fields : List Value}
    (hid : id = .bulkString text ∨ id = .simpleString text) (htext : EntryId.parse text = .ok entryId)
    (heven : fields.length % 2 = 0) : Spells (.array [id, .array fields]) ⟨entryId, fields⟩ := by
  have hfields := alternating_chunks heven
  exact ⟨id, text, chunks fields, by rw [hfields], hid, EntryId.parse_eq_ok_iff.mp htext, hfields.symm⟩

/-- **An entry is parsed from what spells it** and from nothing else. -/
theorem parseEntry_eq_ok_iff {value : Value} {entry : Entry} :
    parseEntry value = .ok entry ↔ Spells value entry := by
  constructor
  · intro h
    unfold parseEntry at h
    split at h
    · obtain ⟨parts, ⟨⟩, h⟩ := bind_eq_ok_iff.mp h
      dsimp only at h
      split at h
      · next id fields =>
        obtain ⟨_, ⟨⟩, h⟩ := bind_eq_ok_iff.mp h
        dsimp only at h
        split at h
        · obtain ⟨entryId, htext, h⟩ := bind_eq_ok_iff.mp h
          split at h
          · split_ifs at h with heven
            exact Except.ok.inj h ▸ spells_of_even (Or.inl rfl) htext heven
          · cases h
        · obtain ⟨entryId, htext, h⟩ := bind_eq_ok_iff.mp h
          split at h
          · split_ifs at h with heven
            exact Except.ok.inj h ▸ spells_of_even (Or.inr rfl) htext heven
          · cases h
        · obtain ⟨_, ⟨⟩, _⟩ := bind_eq_ok_iff.mp h
      · obtain ⟨_, ⟨⟩, _⟩ := bind_eq_ok_iff.mp h
    · obtain ⟨_, ⟨⟩, _⟩ := bind_eq_ok_iff.mp h
  · rintro ⟨id, text, pairs, rfl, hid, htext, hfields⟩
    have hparse := EntryId.parse_eq_ok_iff.mpr htext
    obtain ⟨entryId, fields⟩ := entry
    obtain rfl := hfields
    unfold parseEntry
    rcases hid with rfl | rfl
    · simp only [bind, Except.bind, hparse, if_pos (length_alternating pairs)]
    · simp only [bind, Except.bind, hparse, if_pos (length_alternating pairs)]

/-- **The entries of a reply are parsed as a whole**: each of them is spelled by its value. -/
theorem parseRange_eq_ok_iff {value : Value} {entries : List Entry} : parseRange value = .ok entries ↔
    (value = .nil ∧ entries = []) ∨ ∃ values, value = .array values ∧ List.Forall₂ Spells values entries := by
  unfold parseRange
  split
  · next values =>
    rw [mapM_eq_ok_iff]
    simp only [parseEntry_eq_ok_iff]
    constructor
    · exact fun h => Or.inr ⟨values, rfl, h⟩
    · rintro (⟨hnil, -⟩ | ⟨values', heq, h⟩)
      · cases hnil
      · exact Value.array.inj heq ▸ h
  · constructor
    · exact fun h => Or.inl ⟨rfl, (Except.ok.inj h).symm⟩
    · rintro (⟨-, rfl⟩ | ⟨values, heq, -⟩)
      · rfl
      · cases heq
  · next harray hnil =>
    refine ⟨fun h => (nomatch h), ?_⟩
    rintro (⟨rfl, -⟩ | ⟨values, rfl, -⟩)
    · exact absurd rfl hnil
    · exact absurd rfl (harray values)

/-- An entry that is malformed fails the reply. -/
theorem parseRange_of_malformed {values : List Value} {value : Value} (hv : value ∈ values)
    (h : ∀ entry, ¬ Spells value entry) : ∃ error, parseRange (.array values) = .error error := by
  cases hparse : parseRange (.array values) with
  | error error => exact ⟨error, rfl⟩
  | ok entries =>
    rcases parseRange_eq_ok_iff.mp hparse with ⟨hnil, -⟩ | ⟨values', heq, hall⟩
    · cases hnil
    · obtain rfl := Value.array.inj heq
      obtain ⟨i, hi, rfl⟩ := List.getElem_of_mem hv
      exact absurd (hall.get hi (hall.length_eq ▸ hi)) (h _)

/-! ### Replies of Redis -/

theorem findSome?_pair (name : Bytes) : ∀ pairs : List (Bytes × Bytes),
    (pairs.findSome? fun pair => if pair.1 = name then some pair.2 else none) =
      (pairs.find? fun pair => pair.1 = name).map Prod.snd
  | [] => rfl
  | pair :: pairs => by
    rw [List.findSome?_cons, List.find?_cons]
    by_cases h : pair.1 = name
    · simp [h]
    · simp [h, findSome?_pair name pairs]

/-- A name that no pair has is not found, also if it is a value. -/
theorem get_of_not_mem {entry : StreamEntry} {name : Bytes} (h : name ∉ entry.fields.map Prod.fst) :
    (entryOf entry).get name = none := by
  rw [get_entryOf, findSome?_pair, Option.map_eq_none_iff, List.find?_eq_none]
  intro pair hp hname
  exact h (List.mem_map.mpr ⟨pair, hp, of_decide_eq_true hname⟩)

/-- **Replies parse alike in both protocols**, to the entries of the stream; the display form of an ID
parses to it; a field is the value of the first pair with its name; and nothing but what spells an entry
parses to one. -/
theorem replies_parse (key : Bytes) (entries : List StreamEntry) (h : ∀ entry ∈ entries, Parsable entry) :
    (∀ protocol, parseRead (readReply protocol key entries) = .ok (some (entries.map entryOf))) ∧
      (∀ ms seq : UInt64, EntryId.parse (EntryId.text ⟨ms.toNat, seq.toNat⟩) = .ok ⟨ms.toNat, seq.toNat⟩) ∧
      (∀ entry ∈ entries, ∀ name,
        (entryOf entry).get name = (entry.fields.find? fun pair => pair.1 = name).map Prod.snd ∧
          (name ∉ entry.fields.map Prod.fst → (entryOf entry).get name = none)) ∧
      (∀ value entry, parseEntry value = .ok entry ↔ Spells value entry) ∧
      (∀ value parsed, parseRange value = .ok parsed ↔ (value = .nil ∧ parsed = []) ∨
        ∃ values, value = .array values ∧ List.Forall₂ Spells values parsed) ∧
      ∀ values, (∃ value ∈ values, ∀ entry, ¬ Spells value entry) →
        ∃ error, parseRange (.array values) = .error error := by
  refine ⟨fun protocol => parseRead_reply protocol key h, fun ms seq => ?_, fun entry _ name => ⟨?_, ?_⟩,
    fun _ _ => parseEntry_eq_ok_iff, fun _ _ => parseRange_eq_ok_iff, ?_⟩
  · exact @parse_text ⟨ms.toNat, seq.toNat⟩ ms.toNat_lt seq.toNat_lt
  · rw [get_entryOf, findSome?_pair]
  · exact get_of_not_mem
  · rintro values ⟨value, hv, hmalformed⟩
    exact parseRange_of_malformed hv hmalformed

/-- Two entries, the second with an empty value. -/
def twoEntries : List StreamEntry :=
  [⟨⟨3, 0⟩, [(asBytes "d", asBytes "x")]⟩,
    ⟨⟨0, 12⟩, [(asBytes "b", asBytes ""), (asBytes "e", asBytes "y")]⟩]

theorem replies_parse_two :
    parseRead (readReply .resp3 (asBytes "key") twoEntries) = .ok (some (twoEntries.map entryOf)) ∧
      parseRead (readReply .resp2 (asBytes "key") twoEntries) = .ok (some (twoEntries.map entryOf)) := by
  have h := replies_parse (asBytes "key") twoEntries (by simp [twoEntries, Parsable])
  exact ⟨h.1 .resp3, h.1 .resp2⟩

end Wakuwaku.Entity.Redis.Dynamic
