import Wakuwaku.Fallible
import Wakuwaku.LittleEndian
import Wakuwaku.Iggy.Events
import Mathlib.Logic.Basic
import Mathlib.Tactic.SplitIfs

/-! # Message headers

What the publisher writes and the consumer reads. Each value has one layout, and its parser accepts
that layout and nothing else (`parse_ok_iff`), so a message parses to what was written into it, and
to nothing that was not. The message itself is Iggy's (`IggyHeaders`). -/

namespace Wakuwaku.Iggy.Events

/-- Malformed message headers. -/
inductive EventParseError where
  | unknownEventType
  | unknownPropertiesVersion
  | badProperties
  | missingHeader (name : String)
  | badHeader (name : String)
  | unknownRetryVersion
  deriving DecidableEq, Repr

def tagHeader : String := "wakuwaku-tag"
def keyHeader : String := "wakuwaku-key"
def propsHeader : String := "wakuwaku-props"
def retryHeader : String := "wakuwaku-retry"

/-- The headers of this crate. -/
def headerNames : List String := [tagHeader, keyHeader, propsHeader, retryHeader]

/-- `try_into` to an array of `n` bytes. -/
def sized (n : ℕ) (error : EventParseError) (bytes : List UInt8) : Except EventParseError (List UInt8) :=
  if bytes.length = n then .ok bytes else .error error

/-! ### Properties -/

/-- The discriminant. -/
def EventAtomicOrdering.toU8 : EventAtomicOrdering → UInt8
  | .relaxed => 1
  | .acquire => 2
  | .release => 4
  | .acqRel => 6

/-- `TryFromPrimitive`. -/
def EventAtomicOrdering.ofU8 (error : EventParseError) (n : UInt8) :
    Except EventParseError EventAtomicOrdering :=
  if n = 1 then .ok .relaxed else if n = 2 then .ok .acquire else if n = 4 then .ok .release
  else if n = 6 then .ok .acqRel else .error error

/-- The discriminant. -/
def EventAssociativity.toU8 : EventAssociativity → UInt8
  | .nonAssociative => 0
  | .associative => 1
  | .idempotent => 2
  | .commutative => 3
  | .idempotentCommutative => 4

/-- `TryFromPrimitive`. -/
def EventAssociativity.ofU8 (error : EventParseError) (n : UInt8) :
    Except EventParseError EventAssociativity :=
  if n = 0 then .ok .nonAssociative else if n = 1 then .ok .associative else if n = 2 then .ok .idempotent
  else if n = 3 then .ok .commutative else if n = 4 then .ok .idempotentCommutative else .error error

/-- `VERSION`. -/
def EventAlgebraicProperties.version : UInt8 := 1

def EventAlgebraicProperties.intoBytes (p : EventAlgebraicProperties) : List UInt8 :=
  [1, p.atomicLevel.toU8, p.associativity.toU8]

def EventAlgebraicProperties.parse : List UInt8 → Except EventParseError EventAlgebraicProperties
  | [version, atomicLevel, associativity] =>
    if version ≠ EventAlgebraicProperties.version then .error .unknownPropertiesVersion else do
      let atomicLevel ← EventAtomicOrdering.ofU8 .badProperties atomicLevel
      let associativity ← EventAssociativity.ofU8 .badProperties associativity
      return { atomicLevel, associativity }
  | _ => .error .badProperties

/-- Header of a record in a retry topic: when it was written there, in milliseconds. -/
structure RetryProperties where
  failedAtMs : UInt64
  deriving DecidableEq, Repr

/-- `VERSION`. -/
def RetryProperties.version : UInt8 := 1

def RetryProperties.intoBytes (r : RetryProperties) : List UInt8 :=
  RetryProperties.version :: toLeBytes 8 r.failedAtMs.toNat

def RetryProperties.parse : List UInt8 → Except EventParseError RetryProperties
  | [version, a, b, c, d, e, f, g, h] =>
    if version ≠ RetryProperties.version then .error .unknownRetryVersion
    else .ok { failedAtMs := UInt64.ofNat (ofLeBytes [a, b, c, d, e, f, g, h]) }
  | _ => .error (.badHeader retryHeader)

/-! ### The header map -/

/-- What the crate uses of Iggy: header values, and messages that carry a map of them. -/
structure IggyHeaders where
  HeaderValue : Type
  IggyMessage : Type
  IggyError : Type
  /-- `HeaderValue::try_from(Vec<u8>)`. -/
  tryFrom : List UInt8 → Except IggyError HeaderValue
  asBytes : HeaderValue → List UInt8
  /-- `IggyMessage::builder().user_headers(map).build()`. -/
  userHeaders : (String → Option HeaderValue) → IggyMessage
  userHeadersMap : IggyMessage → Except IggyError (Option (String → Option HeaderValue))

/-- A value of 1 to 255 bytes is kept as it is, and a message gives back its map. -/
structure IggyHeaders.Lawful (I : IggyHeaders) : Prop where
  kept : ∀ bytes, 1 ≤ bytes.length → bytes.length ≤ 255 →
    ∃ value, I.tryFrom bytes = .ok value ∧ I.asBytes value = bytes
  stored : ∀ map, I.userHeadersMap (I.userHeaders map) = .ok (some map)

variable {I : IggyHeaders}

/-- The map with one more header. -/
def insertHeader {V : Type} (map : String → Option V) (name : String) (value : V) : String → Option V :=
  fun n => if n = name then some value else map n

def EventHeaders.toMap (I : IggyHeaders) (h : EventHeaders) (retry : Option RetryProperties) :
    Except I.IggyError (String → Option I.HeaderValue) := do
  let map := insertHeader (fun _ => none) tagHeader (← I.tryFrom (toLeBytes 4 h.tag.get.toNat))
  let map := insertHeader map keyHeader (← I.tryFrom (toLeBytes 8 h.key.toNat))
  let map := insertHeader map propsHeader (← I.tryFrom h.properties.intoBytes)
  match retry with
  | none => return map
  | some retry => return insertHeader map retryHeader (← I.tryFrom retry.intoBytes)

/-- The bytes of a header. -/
def getHeader (I : IggyHeaders) (map : String → Option I.HeaderValue) (name : String) :
    Except EventParseError (List UInt8) :=
  match map name with
  | some value => .ok (I.asBytes value)
  | none => .error (.missingHeader name)

/-- The headers of a message. -/
def headersOf (I : IggyHeaders) (message : I.IggyMessage) :
    Except EventParseError (String → Option I.HeaderValue) :=
  match I.userHeadersMap message with
  | .ok (some map) => .ok map
  | .ok none | .error _ => .error (.missingHeader tagHeader)

/-- The retry header, if there is one. -/
def parseRetry (I : IggyHeaders) (map : String → Option I.HeaderValue) :
    Except EventParseError (Option RetryProperties) :=
  match map retryHeader with
  | none => .ok none
  | some value => do return some (← RetryProperties.parse (I.asBytes value))

def EventHeaders.parse (I : IggyHeaders) (message : I.IggyMessage) :
    Except EventParseError (EventHeaders × Option RetryProperties) := do
  let map ← headersOf I message
  let tag ← sized 4 (.badHeader tagHeader) (← getHeader I map tagHeader)
  let key ← sized 8 (.badHeader keyHeader) (← getHeader I map keyHeader)
  let properties ← EventAlgebraicProperties.parse (← getHeader I map propsHeader)
  let retry ← parseRetry I map
  let headers : EventHeaders := {
    tag := ⟨UInt32.ofNat (ofLeBytes tag)⟩
    key := UInt64.ofNat (ofLeBytes key)
    properties }
  return (headers, retry)

/-! ### Each parser accepts its layout -/

theorem sized_ok_iff {n : ℕ} {error : EventParseError} {bytes out : List UInt8} :
    sized n error bytes = .ok out ↔ bytes.length = n ∧ out = bytes := by
  unfold sized
  split_ifs with h
  · exact ⟨fun he => ⟨h, (Except.ok.inj he).symm⟩, fun ⟨_, ho⟩ => congrArg _ ho.symm⟩
  · exact ⟨fun he => (nomatch he), fun ⟨hl, _⟩ => absurd hl h⟩

theorem atomicOrdering_ok_iff {error : EventParseError} {n : UInt8} {o : EventAtomicOrdering} :
    EventAtomicOrdering.ofU8 error n = .ok o ↔ n = o.toU8 := by
  constructor
  · intro h
    unfold EventAtomicOrdering.ofU8 at h
    split_ifs at h <;> cases h <;> assumption
  · rintro rfl
    cases o <;> rfl

theorem associativity_ok_iff {error : EventParseError} {n : UInt8} {a : EventAssociativity} :
    EventAssociativity.ofU8 error n = .ok a ↔ n = a.toU8 := by
  constructor
  · intro h
    unfold EventAssociativity.ofU8 at h
    split_ifs at h <;> cases h <;> assumption
  · rintro rfl
    cases a <;> rfl

theorem properties_ok_iff {bytes : List UInt8} {p : EventAlgebraicProperties} :
    EventAlgebraicProperties.parse bytes = .ok p ↔ bytes = p.intoBytes := by
  constructor
  · intro h
    unfold EventAlgebraicProperties.parse at h
    split at h
    · next version level assoc =>
      split_ifs at h with hv
      obtain ⟨l, hl, h⟩ := bind_eq_ok_iff.mp h
      obtain ⟨a, ha, h⟩ := bind_eq_ok_iff.mp h
      cases h
      rw [not_not.mp hv, atomicOrdering_ok_iff.mp hl, associativity_ok_iff.mp ha]
      rfl
    · cases h
  · rintro rfl
    have hl := (@atomicOrdering_ok_iff .badProperties _ _).mpr (Eq.refl p.atomicLevel.toU8)
    have ha := (@associativity_ok_iff .badProperties _ _).mpr (Eq.refl p.associativity.toU8)
    exact bind_eq_ok_iff.mpr ⟨_, hl, bind_eq_ok_iff.mpr ⟨_, ha, rfl⟩⟩

theorem retry_ok_iff {bytes : List UInt8} {r : RetryProperties} :
    RetryProperties.parse bytes = .ok r ↔ bytes = r.intoBytes := by
  constructor
  · intro h
    unfold RetryProperties.parse at h
    split at h
    · next version a b c d e f g h' =>
      split_ifs at h with hv
      cases h
      rw [not_not.mp hv]
      exact congrArg _ (eq_toLeBytes_uint64_iff.mpr ⟨rfl, rfl⟩)
    · cases h
  · rintro rfl
    have h := ((eq_toLeBytes_uint64_iff (x := r.failedAtMs)).mp rfl).2
    exact congrArg (fun n => Except.ok (RetryProperties.mk n)) h

theorem getHeader_ok_iff {map : String → Option I.HeaderValue} {name : String} {bytes : List UInt8} :
    getHeader I map name = .ok bytes ↔ (map name).map I.asBytes = some bytes := by
  unfold getHeader
  cases map name with
  | none => exact ⟨fun h => (nomatch h), fun h => (nomatch h)⟩
  | some value => exact ⟨fun h => congrArg some (Except.ok.inj h), fun h => congrArg _ (Option.some.inj h)⟩

theorem headersOf_ok_iff {message : I.IggyMessage} {map : String → Option I.HeaderValue} :
    headersOf I message = .ok map ↔ I.userHeadersMap message = .ok (some map) := by
  unfold headersOf
  rcases I.userHeadersMap message with error | map' | map'
  · exact ⟨fun h => (nomatch h), fun h => (nomatch h)⟩
  · exact ⟨fun h => (nomatch h), fun h => (nomatch h)⟩
  · exact ⟨fun h => by rw [Except.ok.inj h], fun h => by cases h; rfl⟩

theorem parseRetry_ok_iff {map : String → Option I.HeaderValue} {r : Option RetryProperties} :
    parseRetry I map = .ok r ↔
      (map retryHeader).map I.asBytes = r.map RetryProperties.intoBytes := by
  unfold parseRetry
  cases map retryHeader with
  | none => cases r <;> simp
  | some value =>
    refine bind_eq_ok_iff.trans ⟨?_, fun h => ?_⟩
    · rintro ⟨r, hr, ⟨⟩⟩
      exact congrArg some (retry_ok_iff.mp hr)
    · cases r with
      | none => cases h
      | some r => exact ⟨r, retry_ok_iff.mpr (Option.some.inj h), rfl⟩

/-! ### The map and the message -/

/-- The map holds these headers, as `to_map` writes them. -/
structure Written (I : IggyHeaders) (map : String → Option I.HeaderValue) (h : EventHeaders)
    (retry : Option RetryProperties) : Prop where
  tag : (map tagHeader).map I.asBytes = some (toLeBytes 4 h.tag.get.toNat)
  key : (map keyHeader).map I.asBytes = some (toLeBytes 8 h.key.toNat)
  props : (map propsHeader).map I.asBytes = some h.properties.intoBytes
  retry : (map retryHeader).map I.asBytes = retry.map RetryProperties.intoBytes

theorem toMap_written (hI : I.Lawful) (h : EventHeaders) (retry : Option RetryProperties) :
    ∃ map, h.toMap I retry = .ok map ∧ Written I map h retry := by
  obtain ⟨tag, ht, htag⟩ := hI.kept (toLeBytes 4 h.tag.get.toNat) (by simp) (by simp)
  obtain ⟨key, hk, hkey⟩ := hI.kept (toLeBytes 8 h.key.toNat) (by simp) (by simp)
  obtain ⟨props, hp, hprops⟩ := hI.kept h.properties.intoBytes
    (Nat.le_of_ble_eq_true rfl) (Nat.le_of_ble_eq_true rfl)
  have hmap {out} (ho) : h.toMap I retry = .ok out :=
    bind_eq_ok_iff.mpr ⟨tag, ht, bind_eq_ok_iff.mpr ⟨key, hk, bind_eq_ok_iff.mpr ⟨props, hp, ho⟩⟩⟩
  cases retry with
  | none =>
    exact ⟨_, hmap rfl, congrArg some htag, congrArg some hkey, congrArg some hprops, rfl⟩
  | some retry =>
    obtain ⟨value, hr, hretry⟩ := hI.kept retry.intoBytes
      (Nat.le_of_ble_eq_true rfl) (Nat.le_of_ble_eq_true rfl)
    refine ⟨_, hmap (bind_eq_ok_iff.mpr ⟨value, hr, rfl⟩), ?_⟩
    exact ⟨congrArg some htag, congrArg some hkey, congrArg some hprops, congrArg some hretry⟩

theorem parse_ok_iff {message : I.IggyMessage} {h : EventHeaders} {retry : Option RetryProperties} :
    EventHeaders.parse I message = .ok (h, retry) ↔
      ∃ map, I.userHeadersMap message = .ok (some map) ∧ Written I map h retry := by
  constructor
  · intro h0
    obtain ⟨map, hm, h1⟩ := bind_eq_ok_iff.mp h0
    obtain ⟨tag, ht, h2⟩ := bind_eq_ok_iff.mp h1
    obtain ⟨tag', ht', h3⟩ := bind_eq_ok_iff.mp h2
    obtain ⟨key, hk, h4⟩ := bind_eq_ok_iff.mp h3
    obtain ⟨key', hk', h5⟩ := bind_eq_ok_iff.mp h4
    obtain ⟨props, hprops, h6⟩ := bind_eq_ok_iff.mp h5
    obtain ⟨properties, hprops', h7⟩ := bind_eq_ok_iff.mp h6
    obtain ⟨r, hr, h8⟩ := bind_eq_ok_iff.mp h7
    obtain ⟨hl, rfl⟩ := sized_ok_iff.mp ht'
    obtain ⟨hl', rfl⟩ := sized_ok_iff.mp hk'
    obtain ⟨rfl, rfl⟩ := Prod.mk.inj (Except.ok.inj h8)
    refine ⟨map, headersOf_ok_iff.mp hm, ?_, ?_, ?_, parseRetry_ok_iff.mp hr⟩
    · rw [getHeader_ok_iff.mp ht, ← eq_toLeBytes_uint32_iff.mpr ⟨hl, rfl⟩]
    · rw [getHeader_ok_iff.mp hk, ← eq_toLeBytes_uint64_iff.mpr ⟨hl', rfl⟩]
    · rw [getHeader_ok_iff.mp hprops, properties_ok_iff.mp hprops']
  · rintro ⟨map, hm, hw⟩
    obtain ⟨hl, ht⟩ := (eq_toLeBytes_uint32_iff (x := h.tag.get)).mp rfl
    obtain ⟨hl', hk⟩ := (eq_toLeBytes_uint64_iff (x := h.key)).mp rfl
    refine bind_eq_ok_iff.mpr ⟨map, headersOf_ok_iff.mpr hm, ?_⟩
    refine bind_eq_ok_iff.mpr ⟨_, getHeader_ok_iff.mpr hw.tag, ?_⟩
    refine bind_eq_ok_iff.mpr ⟨_, sized_ok_iff.mpr ⟨hl, rfl⟩, ?_⟩
    refine bind_eq_ok_iff.mpr ⟨_, getHeader_ok_iff.mpr hw.key, ?_⟩
    refine bind_eq_ok_iff.mpr ⟨_, sized_ok_iff.mpr ⟨hl', rfl⟩, ?_⟩
    refine bind_eq_ok_iff.mpr ⟨_, getHeader_ok_iff.mpr hw.props, ?_⟩
    refine bind_eq_ok_iff.mpr ⟨_, properties_ok_iff.mpr rfl, ?_⟩
    refine bind_eq_ok_iff.mpr ⟨_, parseRetry_ok_iff.mpr hw.retry, ?_⟩
    rw [ht, hk]
    rfl

/-- Both maps hold the same bytes under the names of this crate. -/
def Agree (I : IggyHeaders) (map written : String → Option I.HeaderValue) : Prop :=
  ∀ name ∈ headerNames, (map name).map I.asBytes = (written name).map I.asBytes

theorem agree_iff {map written : String → Option I.HeaderValue} {h : EventHeaders}
    {retry : Option RetryProperties} (hw : Written I written h retry) :
    Agree I map written ↔ Written I map h retry := by
  simp only [Agree, headerNames, List.forall_mem_cons, hw.tag, hw.key, hw.props, hw.retry]
  exact ⟨fun ⟨ht, hk, hp, hr, _⟩ => ⟨ht, hk, hp, hr⟩, fun h => ⟨h.tag, h.key, h.props, h.retry, by simp⟩⟩

/-- A message with the headers of `to_map` parses to them, and a message parses to headers only if
its map agrees with that of `to_map`. -/
theorem parse_iff_written (I : IggyHeaders) (hI : I.Lawful) (h : EventHeaders)
    (retry : Option RetryProperties) : ∃ written, h.toMap I retry = .ok written ∧
      EventHeaders.parse I (I.userHeaders written) = .ok (h, retry) ∧
      (∀ message, EventHeaders.parse I message = .ok (h, retry) ↔
        ∃ map, I.userHeadersMap message = .ok (some map) ∧ Agree I map written) ∧
      (∀ map, EventHeaders.parse I (I.userHeaders map) = .ok (h, retry) ↔ Agree I map written) ∧
      ∀ map, Agree I map written → (map retryHeader = none ↔ retry = none) := by
  obtain ⟨written, hm, hw⟩ := toMap_written hI h retry
  have hparse : ∀ message, EventHeaders.parse I message = .ok (h, retry) ↔
      ∃ map, I.userHeadersMap message = .ok (some map) ∧ Agree I map written := fun message =>
    parse_ok_iff.trans (exists_congr fun map => and_congr_right fun _ => (agree_iff hw).symm)
  have hstored : ∀ map, EventHeaders.parse I (I.userHeaders map) = .ok (h, retry) ↔
      Agree I map written := by
    intro map
    refine (hparse _).trans ⟨?_, fun ha => ⟨map, hI.stored map, ha⟩⟩
    rintro ⟨map', hs, ha⟩
    rw [hI.stored map] at hs
    cases hs
    exact ha
  refine ⟨written, hm, (hstored written).mpr fun _ _ => rfl, hparse, hstored, fun map ha => ?_⟩
  have hr := ((agree_iff hw).mp ha).retry
  rw [← Option.map_eq_none_iff (f := I.asBytes), hr, Option.map_eq_none_iff]

/-- Iggy's raw values, and messages that are their header maps. -/
def rawHeaders : IggyHeaders where
  HeaderValue := List UInt8
  IggyMessage := String → Option (List UInt8)
  IggyError := Unit
  tryFrom bytes := if 1 ≤ bytes.length ∧ bytes.length ≤ 255 then .ok bytes else .error ()
  asBytes := id
  userHeaders := id
  userHeadersMap map := .ok (some map)

theorem rawHeaders_lawful : rawHeaders.Lawful where
  kept bytes h1 h255 := ⟨bytes, if_pos ⟨h1, h255⟩, rfl⟩
  stored _ := rfl

theorem parse_iff_written_raw : ∃ written,
    EventHeaders.toMap rawHeaders ⟨⟨7⟩, 42, ⟨.release, .idempotent⟩⟩ (some ⟨3⟩) = .ok written ∧
      EventHeaders.parse rawHeaders (rawHeaders.userHeaders written) =
        .ok (⟨⟨7⟩, 42, ⟨.release, .idempotent⟩⟩, some ⟨3⟩) := by
  obtain ⟨written, hm, hp, -⟩ := parse_iff_written rawHeaders rawHeaders_lawful
    ⟨⟨7⟩, 42, ⟨.release, .idempotent⟩⟩ (some ⟨3⟩)
  exact ⟨written, hm, hp⟩

end Wakuwaku.Iggy.Events
