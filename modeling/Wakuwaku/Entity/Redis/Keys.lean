import Wakuwaku.Redis.Keyspace
import Mathlib.Algebra.Group.Nat.Defs

/-! # Keys of the Redis structures

An item lives under a key made of the kind of its structure, a namespace and its name. The keys of an
item with several keys share a tag in braces and differ in a suffix. Also here: the errors every
structure reports and the codecs of the stored bodies. -/

namespace Wakuwaku.Entity.Redis

open Wakuwaku.Redis

/-! ### Keys -/

/-- Prefix of every key. -/
def keyPrefix : Bytes := asBytes "@@wakuwaku-entity:"

/-- Key of `name` in the structure `kind` / `space`. -/
def itemKey (kind space : String) (name : Bytes) : Bytes :=
  keyPrefix ++ asBytes kind ++ asBytes ":" ++ asBytes space ++ asBytes ":" ++ name

/-- Common prefix of the keys of `name`, when the item spans several keys. -/
def taggedKey (kind space : String) (name : Bytes) : Bytes :=
  keyPrefix ++ asBytes kind ++ asBytes ":\x7b" ++ asBytes space ++ asBytes ":" ++ name ++ asBytes "\x7d"

/-- Two keys of `name` in the structure `kind` / `space`. -/
def taggedPair (kind space : String) (name first second : Bytes) : Bytes × Bytes :=
  (taggedKey kind space name ++ first, taggedKey kind space name ++ second)

theorem taggedPair_ne {kind space : String} {name first second : Bytes} (h : first ≠ second) :
    (taggedPair kind space name first second).1 ≠ (taggedPair kind space name first second).2 :=
  fun he => h (List.append_cancel_left he)

/-- `millis`: a duration, here in nanoseconds, in whole milliseconds, at least 1 so Redis accepts it as
an expiry. -/
def millis (duration : ℕ) : ℕ := max (min (duration / 1000000) (2 ^ 64 - 1)) 1

theorem millis_pos (duration : ℕ) : 0 < millis duration := Nat.le_max_right _ _

/-! ### Errors -/

def serializeError (error : String) : Error := .client "failed to serialize a stored body" error

def deserializeError (error : String) : Error := .parse "failed to deserialize a stored body" error

/-- An error for a reply that doesn't match what the structure wrote. -/
def corrupted (detail : String) : Error := .unexpectedReturnType "corrupted item" detail

/-- An error for a receiver or subscription whose structure stopped existing before its end. -/
def gone (detail : String) : Error := .client "structure gone" detail

/-! ### Codecs -/

/-- `MessageSer` and `MessageDe` of a type, with the texts of their errors. -/
structure Codec (α : Type) where
  toBytes : α → Except String Bytes
  fromBytes : Bytes → Except String α

/-- What was written reads back. -/
def Codec.RoundTrips {α : Type} (codec : Codec α) : Prop :=
  ∀ a bytes, codec.toBytes a = .ok bytes → codec.fromBytes bytes = .ok a

/-- `to_bytes().map_err(serialize_error)`. -/
def Codec.serialize {α : Type} (codec : Codec α) (a : α) : Except Error Bytes :=
  (codec.toBytes a).mapError serializeError

/-- `from_bytes().map_err(deserialize_error)`. -/
def Codec.deserialize {α : Type} (codec : Codec α) (bytes : Bytes) : Except Error α :=
  (codec.fromBytes bytes).mapError deserializeError

theorem Codec.RoundTrips.deserialize {α : Type} {codec : Codec α} (h : codec.RoundTrips) {a : α}
    {bytes : Bytes} (ha : codec.serialize a = .ok bytes) : codec.deserialize bytes = .ok a := by
  unfold Codec.serialize at ha
  cases hb : codec.toBytes a with
  | error e => rw [hb] at ha; cases ha
  | ok b =>
    rw [hb] at ha
    cases ha
    unfold Codec.deserialize
    rw [h a _ hb]
    rfl

end Wakuwaku.Entity.Redis
