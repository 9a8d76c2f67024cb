import Wakuwaku.Entity.Redis.Collection.Cache
import Wakuwaku.Entity.Redis.Collection.RwLock
import Wakuwaku.Entity.Redis.Collection.TokenBucketLimiter
import Wakuwaku.Entity.Redis.Dynamic.Pipe
import Wakuwaku.Entity.Redis.Dynamic.LiveView
import Wakuwaku.Entity.Redis.Dynamic.StreamBuffer

/-! # Which keys the structures share

The keys of an item are those of its structure and its name. Two of them are the same key exactly if
they belong to structures of the same kind, have the same role there, and their texts `namespace:name`
agree (`sharesText_iff` says when: a namespace may itself go on after a colon). -/

namespace Wakuwaku.Entity.Redis

open Wakuwaku.Redis Wakuwaku.Entity.Redis.Collection Wakuwaku.Entity.Redis.Dynamic

/-! ### The structures -/

/-- The provided structures. -/
inductive Structure : Type 1 where
  | cache (cache : Cache)
  | hashedCache (cache : HashedCache)
  | lock (lock : Lock)
  | rwLock (lock : RwLock)
  | tokenBucket (bucket : TokenBucket)
  | pipe {B : Type} (pipe : Pipe B)
  | liveView {B D : Type} (view : LiveView B D)
  | streamBuffer {B : Type} (buffer : StreamBuffer B)

inductive Kind where
  | cache | hashedCache | lock | rwLock | tokenBucket | pipe | liveView | streamBuffer
deriving DecidableEq

namespace Structure

def kind : Structure → Kind
  | .cache _ => .cache
  | .hashedCache _ => .hashedCache
  | .lock _ => .lock
  | .rwLock _ => .rwLock
  | .tokenBucket _ => .tokenBucket
  | .pipe _ => .pipe
  | .liveView _ => .liveView
  | .streamBuffer _ => .streamBuffer

def space : Structure → String
  | .cache c => c.space
  | .hashedCache c => c.space
  | .lock l => l.space
  | .rwLock l => l.space
  | .tokenBucket b => b.space
  | .pipe p => p.space
  | .liveView v => v.space
  | .streamBuffer b => b.space

/-- The keys of the item `name`. -/
def keys (st : Structure) (name : Bytes) : List Bytes :=
  match st with
  | .cache c => [c.key name]
  | .hashedCache c => [c.key name]
  | .lock l => [itemKey "Lock" l.space name]
  | .rwLock l => [(l.keys name).1, (l.keys name).2]
  | .tokenBucket b => [b.key name]
  | .pipe p => [(p.keys name).1, (p.keys name).2]
  | .liveView v => [(v.keys name).1, (v.keys name).2]
  | .streamBuffer b => [b.key name]

end Structure

/-! ### The form of a key -/

/-- The type name in the keys of a kind. -/
def Kind.text : Kind → String
  | .cache => "Cache"
  | .hashedCache => "HashedCache"
  | .lock => "Lock"
  | .rwLock => "RwLock"
  | .tokenBucket => "TokenBucket"
  | .pipe => "Pipe"
  | .liveView => "LiveView"
  | .streamBuffer => "StreamBuffer"

/-- What stands before and after `namespace:name` in each key of a kind. -/
def Kind.wraps : Kind → List (Bytes × Bytes)
  | .rwLock => [(asBytes "\x7b", asBytes "\x7d:w"), (asBytes "\x7b", asBytes "\x7d:r")]
  | .pipe => [(asBytes "\x7b", asBytes "\x7d:m"), (asBytes "\x7b", asBytes "\x7d:c")]
  | .liveView => [(asBytes "\x7b", asBytes "\x7d:h"), (asBytes "\x7b", asBytes "\x7d:l")]
  | _ => [([], [])]

def colon : UInt8 := charByte ':'

/-- The text `namespace:name`. -/
def itemText (space : String) (name : Bytes) : Bytes := asBytes space ++ colon :: name

/-- A key of a kind, from what stands around its text. -/
def wrapText (kind : Kind) (wrap : Bytes × Bytes) (text : Bytes) : Bytes :=
  keyPrefix ++ (asBytes kind.text ++ colon :: (wrap.1 ++ text ++ wrap.2))

/-- Where two lists with a separator can be equal. -/
theorem append_cons_eq_iff {α : Type} {c : α} {u v x y : List α} : u ++ c :: x = v ++ c :: y ↔
    (u = v ∧ x = y) ∨ (∃ w, v = u ++ c :: w ∧ x = w ++ c :: y) ∨ ∃ w, u = v ++ c :: w ∧ y = w ++ c :: x := by
  constructor
  · intro h
    rcases List.append_eq_append_iff.mp h with ⟨_ | ⟨a, w⟩, hv, hx⟩ | ⟨_ | ⟨a, w⟩, hu, hy⟩
    · exact .inl ⟨by simpa using hv.symm, by simpa using hx⟩
    · obtain ⟨rfl, hrest⟩ := List.cons.inj hx
      exact .inr (.inl ⟨w, hv, hrest⟩)
    · exact .inl ⟨by simpa using hu, by simpa using hy.symm⟩
    · obtain ⟨rfl, hrest⟩ := List.cons.inj hy
      exact .inr (.inr ⟨w, hu, hrest⟩)
  · rintro (⟨rfl, rfl⟩ | ⟨w, rfl, rfl⟩ | ⟨w, rfl, rfl⟩) <;> simp

theorem append_cons_eq_iff_of_notMem {α : Type} {c : α} {u v x y : List α} (hu : c ∉ u) (hv : c ∉ v) :
    u ++ c :: x = v ++ c :: y ↔ u = v ∧ x = y := by
  rw [append_cons_eq_iff]
  constructor
  · rintro (h | ⟨w, rfl, -⟩ | ⟨w, rfl, -⟩)
    · exact h
    · simp at hv
    · simp at hu
  · exact .inl

theorem asBytes_inj {s t : String} : asBytes s = asBytes t ↔ s = t := by
  constructor
  · intro h
    have hbytes : ∀ s : String, s.toByteArray = (asBytes s).toByteArray := by
      intro s
      rw [← String.ofList_toList (s := s), String.toByteArray_ofList]
      unfold asBytes List.utf8Encode
      rw [String.toList_ofList]
    rw [← String.toByteArray_inj, hbytes, hbytes, h]
  · exact congrArg asBytes

theorem itemKey_eq (kind space : String) (name : Bytes) :
    itemKey kind space name = keyPrefix ++ (asBytes kind ++ colon :: itemText space name) := by
  have hcolon : asBytes ":" = [colon] := by decide
  simp [itemKey, itemText, hcolon]

theorem taggedKey_append (kind space : String) (name suffix : Bytes) :
    taggedKey kind space name ++ suffix = keyPrefix ++
      (asBytes kind ++ colon :: (asBytes "\x7b" ++ itemText space name ++ (asBytes "\x7d" ++ suffix))) := by
  have hcolon : asBytes ":" = [colon] := by decide
  have hbrace : asBytes ":\x7b" = colon :: asBytes "\x7b" := by decide
  simp [taggedKey, itemText, hcolon, hbrace]

/-- Every key is the text of its item, wrapped. -/
theorem Structure.keys_eq (st : Structure) (name : Bytes) : st.keys name =
    st.kind.wraps.map fun wrap => wrapText st.kind wrap (itemText st.space name) := by
  have hitem : ∀ kind : Kind, ∀ space name, itemKey kind.text space name =
      wrapText kind ([], []) (itemText space name) := by
    intro kind space name
    rw [itemKey_eq, wrapText, List.nil_append, List.append_nil]
  have htagged : ∀ kind : Kind, ∀ space name suffix, taggedKey kind.text space name ++ suffix =
      wrapText kind (asBytes "\x7b", asBytes "\x7d" ++ suffix) (itemText space name) :=
    fun kind space name suffix => taggedKey_append kind.text space name suffix
  cases st with
  | cache c => exact congrArg (fun key => [key]) (hitem .cache _ _)
  | hashedCache c => exact congrArg (fun key => [key]) (hitem .hashedCache _ _)
  | lock l => exact congrArg (fun key => [key]) (hitem .lock _ _)
  | rwLock l => exact congrArg₂ (fun w r => [w, r]) (htagged .rwLock _ _ _) (htagged .rwLock _ _ _)
  | tokenBucket b => exact congrArg (fun key => [key]) (hitem .tokenBucket _ _)
  | pipe p => exact congrArg₂ (fun m c => [m, c]) (htagged .pipe _ _ _) (htagged .pipe _ _ _)
  | liveView v => exact congrArg₂ (fun h l => [h, l]) (htagged .liveView _ _ _) (htagged .liveView _ _ _)
  | streamBuffer b => exact congrArg (fun key => [key]) (hitem .streamBuffer _ _)

/-! ### Equal keys -/

theorem colon_notMem_text (kind : Kind) : colon ∉ asBytes kind.text := by
  cases kind <;> decide

theorem text_inj {k l : Kind} (h : asBytes k.text = asBytes l.text) : k = l := by
  revert h
  cases k <;> cases l <;> decide

/-- What stands around the text tells the keys of an item apart, and only by its end. -/
theorem wraps_inj {kind : Kind} {i j : ℕ} {v w : Bytes × Bytes} (hv : kind.wraps[i]? = some v)
    (hw : kind.wraps[j]? = some w) : v.1 = w.1 ∧ v.2.length = w.2.length ∧ (v.2 = w.2 ↔ i = j) := by
  have hall : ∀ kind : Kind, ∀ i < 2, ∀ j < 2, ∀ v ∈ kind.wraps[i]?, ∀ w ∈ kind.wraps[j]?,
      v.1 = w.1 ∧ v.2.length = w.2.length ∧ (v.2 = w.2 ↔ i = j) := by
    intro kind
    cases kind <;> decide
  have hlength : ∀ kind : Kind, kind.wraps.length ≤ 2 := fun kind => by cases kind <;> decide
  have hi := (List.getElem?_eq_some_iff.mp hv).1
  have hj := (List.getElem?_eq_some_iff.mp hw).1
  have hlen := hlength kind
  exact hall kind i (by omega) j (by omega) v hv w hw

theorem wrapText_inj {k l : Kind} {i j : ℕ} {v w : Bytes × Bytes} {text text' : Bytes}
    (hv : k.wraps[i]? = some v) (hw : l.wraps[j]? = some w) :
    wrapText k v text = wrapText l w text' ↔ k = l ∧ i = j ∧ text = text' := by
  constructor
  · intro h
    have hkey := List.append_cancel_left h
    obtain ⟨hkind, hrest⟩ := (append_cons_eq_iff_of_notMem (colon_notMem_text k) (colon_notMem_text l)).mp hkey
    obtain rfl := text_inj hkind
    obtain ⟨hstart, hlength, hend⟩ := wraps_inj hv hw
    obtain ⟨hbody, hsuffix⟩ := List.append_inj' hrest hlength
    rw [hstart] at hbody
    exact ⟨rfl, hend.mp hsuffix, List.append_cancel_left hbody⟩
  · rintro ⟨rfl, rfl, rfl⟩
    rw [Option.some.inj (hv.symm.trans hw)]

/-- When two items have the same text. -/
theorem itemText_eq_iff {space space' : String} {name name' : Bytes} :
    itemText space name = itemText space' name' ↔ (space = space' ∧ name = name') ∨
      (∃ rest, asBytes space' = asBytes space ++ colon :: rest ∧ name = rest ++ colon :: name') ∨
      ∃ rest, asBytes space = asBytes space' ++ colon :: rest ∧ name' = rest ++ colon :: name := by
  unfold itemText
  rw [append_cons_eq_iff, asBytes_inj]

/-- Two keys are the same exactly if they are the same key of items of one kind, and the items are equal
or the namespace of one goes on where its name leaves off. -/
theorem key_eq_iff {a b : Structure} {name name' key key' : Bytes} {i j : ℕ}
    (hkey : (a.keys name)[i]? = some key) (hkey' : (b.keys name')[j]? = some key') :
    key = key' ↔ a.kind = b.kind ∧ i = j ∧ ((a.space = b.space ∧ name = name') ∨
      (∃ rest, asBytes b.space = asBytes a.space ++ colon :: rest ∧ name = rest ++ colon :: name') ∨
      ∃ rest, asBytes a.space = asBytes b.space ++ colon :: rest ∧ name' = rest ++ colon :: name) := by
  rw [Structure.keys_eq, List.getElem?_map, Option.map_eq_some_iff] at hkey hkey'
  obtain ⟨v, hv, rfl⟩ := hkey
  obtain ⟨w, hw, rfl⟩ := hkey'
  rw [wrapText_inj hv hw, itemText_eq_iff]

/-- The two keys of a pipe. -/
theorem key_eq_iff_pipe :
    let pipe : Pipe Unit := ⟨"jobs", 0, ⟨fun _ => .ok [], fun _ => .ok ()⟩⟩
    (pipe.keys (asBytes "7")).1 = (pipe.keys (asBytes "7")).2 ↔ Kind.pipe = Kind.pipe ∧ 0 = 1 ∧
      (("jobs" = "jobs" ∧ asBytes "7" = asBytes "7") ∨
      (∃ rest, asBytes "jobs" = asBytes "jobs" ++ colon :: rest ∧ asBytes "7" = rest ++ colon :: asBytes "7") ∨
      ∃ rest, asBytes "jobs" = asBytes "jobs" ++ colon :: rest ∧ asBytes "7" = rest ++ colon :: asBytes "7") := by
  intro pipe
  exact key_eq_iff (a := .pipe pipe) (b := .pipe pipe) (i := 0) (j := 1) rfl rfl

/-- Items of two caches that share a key. -/
theorem caches_share_key : "user" ≠ "user:avatar" ∧
    Cache.key ⟨"user", 0⟩ (asBytes "avatar:7") = Cache.key ⟨"user:avatar", 0⟩ (asBytes "7") := by
  decide

end Wakuwaku.Entity.Redis
