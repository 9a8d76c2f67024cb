import Wakuwaku.Redis.Cluster
import Wakuwaku.Entity.Redis.Items

/-! # Slots of the keys of one item

The keys of an item with several keys are the same up to the closing brace of their tag. So they are hashed
alike, unless the braces enclose nothing. -/

namespace Wakuwaku.Entity.Redis

open Wakuwaku.Redis

/-- The first `{` of `kind:{space` is followed by a `}`. -/
def EmptyTag (kind space : String) : Prop :=
  ((asBytes kind ++ asBytes ":\x7b" ++ asBytes space).dropWhile (· ≠ openBrace))[1]? = some closeBrace

instance (kind space : String) : Decidable (EmptyTag kind space) := inferInstanceAs (Decidable (_ = _))

/-- For a kind without braces, the namespace starts with a `}`. -/
theorem emptyTag_iff {kind space : String} (hkind : openBrace ∉ asBytes kind) :
    EmptyTag kind space ↔ (asBytes space).head? = some closeBrace := by
  have hopen : ∀ b ∈ asBytes kind ++ [colon], decide (b ≠ openBrace) = true := by
    intro b hb
    refine decide_eq_true fun he => ?_
    subst he
    rcases List.mem_append.mp hb with hb | hb
    · exact hkind hb
    · exact absurd hb (by decide)
  have htext : asBytes kind ++ asBytes ":\x7b" ++ asBytes space =
      (asBytes kind ++ [colon]) ++ openBrace :: asBytes space := by
    have hbrace : asBytes ":\x7b" = [colon, openBrace] := by decide
    simp [hbrace]
  unfold EmptyTag
  rw [htext, List.dropWhile_append_of_pos hopen, List.dropWhile_cons_of_neg (by simp), List.getElem?_cons_succ,
    List.head?_eq_getElem?]

/-- A tagged key is cut at its first `{`. A `}` follows, right behind it exactly if the tag is empty. -/
theorem exists_taggedKey_eq (kind space : String) (name : Bytes) :
    ∃ before inside, taggedKey kind space name = before ++ openBrace :: inside ∧ openBrace ∉ before ∧
      closeBrace ∈ inside ∧ (inside.head? = some closeBrace ↔ EmptyTag kind space) := by
  have hmem : openBrace ∈ asBytes kind ++ asBytes ":\x7b" ++ asBytes space := by
    have hbrace : openBrace ∈ asBytes ":\x7b" := by decide
    simp [hbrace]
  obtain ⟨before, inside, htext, hbefore⟩ := List.eq_append_cons_of_mem hmem
  have hopen : ∀ b ∈ before, decide (b ≠ openBrace) = true := by
    intro b hb
    exact decide_eq_true fun he => hbefore (he ▸ hb)
  have hkey : taggedKey kind space name = keyPrefix ++ (asBytes kind ++ asBytes ":\x7b" ++ asBytes space) ++
      (colon :: name ++ [closeBrace]) := by
    have hcolon : asBytes ":" = [colon] := by decide
    have hclose : asBytes "\x7d" = [closeBrace] := by decide
    simp [taggedKey, hcolon, hclose]
  refine ⟨keyPrefix ++ before, inside ++ (colon :: name ++ [closeBrace]), ?_, ?_, by simp, ?_⟩
  · rw [hkey, htext]
    simp
  · have hstart : openBrace ∉ keyPrefix := by decide
    simp [hstart, hbefore]
  · unfold EmptyTag
    rw [htext, List.dropWhile_append_of_pos hopen, List.dropWhile_cons_of_neg (by simp),
      List.getElem?_cons_succ, ← List.head?_eq_getElem?]
    cases inside with
    | nil =>
      have hcolon : colon ≠ closeBrace := by decide
      simp [hcolon]
    | cons b inside => simp

theorem hashedPart_taggedPair (kind space : String) (name first second : Bytes) :
    hashedPart (taggedPair kind space name first second).1 = hashedPart (taggedPair kind space name first second).2 ↔
      first = second ∨ ¬ EmptyTag kind space := by
  obtain ⟨before, inside, hkey, hbefore, hinside, hempty⟩ := exists_taggedKey_eq kind space name
  change hashedPart (taggedKey kind space name ++ first) = hashedPart (taggedKey kind space name ++ second) ↔ _
  rw [hkey, hashedPart_append_eq_iff hbefore hinside, ne_eq, hempty]

/-- **The two keys of a pair are hashed alike, and so are in one slot, exactly if they are equal or their tag
is not empty.** -/
theorem taggedPair_same_tag_iff (kind space : String) (name first second : Bytes) :
    let keys := taggedPair kind space name first second
    (hashedPart keys.1 = hashedPart keys.2 ∧ hashSlot keys.1 = hashSlot keys.2) ↔
      first = second ∨ ¬ EmptyTag kind space := by
  intro keys
  rw [← hashedPart_taggedPair kind space name]
  exact ⟨fun h => h.1, fun h => ⟨h, congrArg (crc16 · % 2 ^ 14) h⟩⟩

/-- The keys of a lock in a namespace that starts with a `}` are hashed as a whole. -/
theorem taggedPair_closing_space :
    let keys := taggedPair "RwLock" "\x7d" (asBytes "42") (asBytes ":w") (asBytes ":r")
    hashedPart keys.1 ≠ hashedPart keys.2 ∧ hashSlot keys.1 ≠ hashSlot keys.2 := by
  decide +kernel

/-- **All keys of an item are in one slot**, in a namespace that does not start with a `}`. -/
theorem Structure.keys_one_slot (st : Structure) (name : Bytes) (hspace : (asBytes st.space).head? ≠ some closeBrace)
    {k l : Bytes} (hk : k ∈ st.keys name) (hl : l ∈ st.keys name) : hashSlot k = hashSlot l := by
  have hpair : ∀ kind : Kind, ∀ first second : Bytes, openBrace ∉ asBytes kind.text →
      k ∈ [(taggedPair kind.text st.space name first second).1, (taggedPair kind.text st.space name first second).2] →
      l ∈ [(taggedPair kind.text st.space name first second).1, (taggedPair kind.text st.space name first second).2] →
      hashSlot k = hashSlot l := by
    intro kind first second hkind hk hl
    have hparts := (hashedPart_taggedPair kind.text st.space name first second).mpr
      (.inr ((emptyTag_iff hkind).not.mpr hspace))
    unfold hashSlot
    rcases List.mem_pair.mp hk with rfl | rfl <;> rcases List.mem_pair.mp hl with rfl | rfl <;> simp [hparts]
  cases st with
  | rwLock lock => exact hpair .rwLock _ _ (by decide) hk hl
  | pipe pipe => exact hpair .pipe _ _ (by decide) hk hl
  | liveView view => exact hpair .liveView _ _ (by decide) hk hl
  | _ =>
    rw [List.mem_singleton.mp hk, List.mem_singleton.mp hl]

end Wakuwaku.Entity.Redis
