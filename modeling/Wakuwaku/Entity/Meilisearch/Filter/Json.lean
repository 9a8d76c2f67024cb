import Mathlib.Algebra.Group.Nat.Defs
import Mathlib.Algebra.Ring.Int.Defs
import Wakuwaku.Entity.Meilisearch.Filter.Meaning

/-! # Filters as JSON

Clients send filters as JSON: a variant with its content, such as `"eq"` with a field and a value. A value
has no tag, so what is read depends on the JSON alone. The reader of the JSON text need not read a float as
it was written, and refuses what is nested too deep. -/

namespace Wakuwaku.Entity.Meilisearch

/-- A JSON document. An `integer` is in the range of a signed or an unsigned word. -/
inductive Json where
  | null
  | bool (value : Bool)
  | integer (value : Int)
  | float (value : Finite)
  | string (text : Text)
  | array (elements : List Json)
  | object (entries : List (String × Json))

mutual

/-- How deep arrays and objects are nested. -/
def Json.nesting : Json → ℕ
  | .array elements => Json.nestingOf elements + 1
  | .object entries => Json.nestingOfEntries entries + 1
  | _ => 0

def Json.nestingOf : List Json → ℕ
  | [] => 0
  | json :: jsons => max json.nesting (Json.nestingOf jsons)

def Json.nestingOfEntries : List (String × Json) → ℕ
  | [] => 0
  | (_, json) :: entries => max json.nesting (Json.nestingOfEntries entries)

end

/-- `serde_json::from_str`, which refuses more than 127 arrays and objects in each other. -/
def fromStr {α : Type} (read : Json → Option α) (json : Json) : Option α :=
  if json.nesting < 128 then read json else none

theorem fromStr_eq_some {α : Type} {read : Json → Option α} {json : Json} {a : α} :
    fromStr read json = some a ↔ json.nesting < 128 ∧ read json = some a := by
  unfold fromStr
  split_ifs with h
  · simp [h]
  · simp [h]

/-- A type that is written as JSON and reads back. -/
class Serial (F : Type) where
  toJson : F → Json
  ofJson : Json → Option F
  ofJson_toJson : ∀ a, ofJson (toJson a) = some a

/-! ### Values -/

def Value.toJson : Value → Json
  | .bool value => .bool value
  | .int value => .integer value
  | .uint value => .integer value
  | .float (some value) => .float value
  -- JSON has no such number
  | .float none => .null
  | .text value => .string value

section Values

variable (floats : Finite → Option Finite)

/-- The first kind of value that fits. The text of a float reads as the float `floats` gives, which is not
always the one that was written, or is out of range. -/
def Value.ofJson : Json → Option Value
  | .bool value => some (.bool value)
  | .integer value =>
    if -2 ^ 63 ≤ value ∧ value < 2 ^ 63 then some (.int value)
    else if 0 ≤ value ∧ value < 2 ^ 64 then some (.uint value.toNat)
    else none
  | .float value => (floats value).map fun value => .float (some value)
  | .string value => some (.text value)
  | _ => none

/-- A value is in the range of its type. -/
def Value.InRange : Value → Prop
  | .int value => -2 ^ 63 ≤ value ∧ value < 2 ^ 63
  | .uint value => value < 2 ^ 64
  | _ => True

/-- Whether JSON can say a value. -/
def Value.isReadable : Value → Bool
  | .float none => false
  | .float (some value) => (floats value).isSome
  | _ => true

/-- What a value that is written reads back as. -/
def Value.received : Value → Value
  | .uint value => if value < 2 ^ 63 then .int value else .uint value
  | .float (some value) => .float (some ((floats value).getD value))
  | value => value

/-- A value reads back as it was, if it is a float. -/
def Value.Kept (value : Value) : Prop := ∀ float, value = .float (some float) → floats float = some float

variable {floats}

theorem Value.received_uint (value : ℕ) :
    (Value.uint value).received floats = if value < 2 ^ 63 then .int value else .uint value := rfl

theorem Value.received_of_kept {value : Value} (h : value.Kept floats) :
    value.received floats = value.received some := by
  cases value with
  | float value =>
    cases value with
    | none => rfl
    | some float =>
      have hfloat := h float rfl
      simp only [Value.received, hfloat, Option.getD_some]
  | _ => rfl

theorem Value.display_received (value : Value) : (value.received some).display = value.display := by
  cases value with
  | uint value =>
    rw [Value.received_uint]
    split_ifs
    · rfl
    · rfl
  | float value => cases value <;> rfl
  | _ => rfl

theorem Value.isNonFinite_received (value : Value) : (value.received some).isNonFinite = value.isNonFinite := by
  cases value with
  | uint value =>
    rw [Value.received_uint]
    split_ifs
    · rfl
    · rfl
  | float value => cases value <;> rfl
  | _ => rfl

theorem Value.ofJson_integer (value : Int) : Value.ofJson floats (.integer value) =
    if -2 ^ 63 ≤ value ∧ value < 2 ^ 63 then some (.int value)
    else if 0 ≤ value ∧ value < 2 ^ 64 then some (.uint value.toNat) else none := rfl

/-- **A value reads back**, if JSON can say it. -/
theorem Value.ofJson_toJson {value : Value} (h : value.InRange) : Value.ofJson floats value.toJson =
    if value.isReadable floats then some (value.received floats) else none := by
  cases value with
  | int value => exact if_pos h
  | uint value =>
    have hlt : value < 2 ^ 64 := h
    rw [Value.toJson, Value.ofJson_integer, Value.received_uint]
    by_cases hsmall : value < 2 ^ 63
    · rw [if_pos (by omega), if_pos hsmall]
      rfl
    · rw [if_neg (by omega), if_pos (by omega), if_neg hsmall]
      rfl
  | float value =>
    cases value with
    | none => rfl
    | some value =>
      show (floats value).map _ = if (floats value).isSome then some (Value.float (some ((floats value).getD value)))
        else none
      cases floats value <;> rfl
  | _ => rfl

end Values

/-! ### Other values -/

variable {F : Type}

mutual

/-- A filter with its values replaced. -/
def Filter.mapValues (f : Value → Value) : Filter F → Filter F
  | .eq field value => .eq field (f value)
  | .ne field value => .ne field (f value)
  | .gt field value => .gt field (f value)
  | .gte field value => .gte field (f value)
  | .lt field value => .lt field (f value)
  | .lte field value => .lte field (f value)
  | .between field low high => .between field (f low) (f high)
  | .in_ field values => .in_ field (values.map f)
  | .not filter => .not (filter.mapValues f)
  | .and filters => .and (Filter.mapMembers f filters)
  | .or filters => .or (Filter.mapMembers f filters)
  | filter => filter

def Filter.mapMembers (f : Value → Value) : List (Filter F) → List (Filter F)
  | [] => []
  | filter :: filters => filter.mapValues f :: Filter.mapMembers f filters

end

theorem mapMembers_eq (f : Value → Value) (filters : List (Filter F)) :
    Filter.mapMembers f filters = filters.map (Filter.mapValues f) := by
  induction filters with
  | nil => rfl
  | cons filter filters ih => rw [Filter.mapMembers, ih, List.map_cons]

section MapValues

variable [Field F] {f : Value → Value}

theorem compare_congr {field : F} {operator : String} {value value' : Value}
    (h : writeValue value = writeValue value') :
    compare field operator value = compare field operator value' := by
  unfold compare
  rw [h]

theorem writeValues_map (h : ∀ value, writeValue (f value) = writeValue value) (values : List Value) :
    writeValues (values.map f) = writeValues values := by
  induction values with
  | nil => rfl
  | cons value values ih => rw [List.map_cons, writeValues, writeValues, h, ih]

theorem writeMembers_mapMembers {filters : List (Filter F)} {depth : ℕ}
    (h : ∀ filter ∈ filters, (filter.mapValues f).write (depth + 1) = filter.write (depth + 1)) :
    Filter.writeMembers (Filter.mapMembers f filters) depth = Filter.writeMembers filters depth := by
  induction filters with
  | nil => rfl
  | cons filter filters ih =>
    rw [Filter.mapMembers, Filter.writeMembers, Filter.writeMembers, h filter (by simp),
      ih fun filter hf => h filter (by simp [hf])]

/-- Values that are written alike make filters that are. -/
theorem write_mapValues (h : ∀ value, writeValue (f value) = writeValue value) (filter : Filter F) (depth : ℕ) :
    (filter.mapValues f).write depth = filter.write depth := by
  induction filter using Filter.induction generalizing depth with
  | step filter ih =>
    unfold Filter.write
    by_cases hdepth : maxDepth < depth
    · rw [if_pos hdepth, if_pos hdepth]
    rw [if_neg hdepth, if_neg hdepth]
    cases filter with
    | eq field value => exact compare_congr (h value)
    | ne field value => exact compare_congr (h value)
    | gt field value => exact compare_congr (h value)
    | gte field value => exact compare_congr (h value)
    | lt field value => exact compare_congr (h value)
    | lte field value => exact compare_congr (h value)
    | between field low high => simp only [Filter.mapValues, h]
    | in_ field values => simp only [Filter.mapValues, writeValues_map h]
    | not inner => simp only [Filter.mapValues, ih inner (by simp [Filter.members])]
    | and filters =>
      have hmembers : Filter.writeMembers (Filter.mapMembers f filters) depth = Filter.writeMembers filters depth :=
        writeMembers_mapMembers fun filter hf => ih filter hf (depth + 1)
      simp only [Filter.mapValues, hmembers]
    | or filters =>
      have hmembers : Filter.writeMembers (Filter.mapMembers f filters) depth = Filter.writeMembers filters depth :=
        writeMembers_mapMembers fun filter hf => ih filter hf (depth + 1)
      simp only [Filter.mapValues, hmembers]
    | _ => rfl

variable {D : Type} {attributes : Attributes D} {d : D}

/-- Values with the same texts select the same documents. -/
theorem test_mapValues (h : ∀ value : Value, (f value).display = value.display) (filter : Filter F) :
    (filter.mapValues f).test attributes d = filter.test attributes d := by
  induction filter using Filter.induction with
  | step filter ih =>
    cases filter with
    | in_ field values => simp only [Filter.mapValues, Filter.test, List.any_map, Function.comp_def, h]
    | not inner => exact congrArg (!·) (ih inner (by simp [Filter.members]))
    | and filters =>
      rw [Filter.mapValues, mapMembers_eq, Filter.test, Filter.test, Filter.testAll_eq, Filter.testAll_eq, List.all_map,
        Bool.eq_iff_iff, List.all_eq_true, List.all_eq_true]
      exact forall₂_congr fun filter hf => Bool.eq_iff_iff.mp (ih filter hf)
    | or filters =>
      rw [Filter.mapValues, mapMembers_eq, Filter.test, Filter.test, Filter.testAny_eq, Filter.testAny_eq, List.any_map,
        Bool.eq_iff_iff, List.any_eq_true, List.any_eq_true]
      exact exists_congr fun filter => and_congr_right fun hf => Bool.eq_iff_iff.mp (ih filter hf)
    | dangerouslyRaw expression => rfl
    | _ => simp only [Filter.mapValues, Filter.test, h]

end MapValues

/-- Filters with the same values replaced alike. -/
theorem mapValues_congr {f g : Value → Value} {filter : Filter F}
    (h : ∀ depth node, filter.Node depth node → ∀ value ∈ node.values, f value = g value) :
    filter.mapValues f = filter.mapValues g := by
  induction filter using Filter.induction with
  | step filter ih =>
    obtain ⟨hvalues, hmembers⟩ := Filter.forall_node_iff.mp h
    cases filter with
    | between field low high =>
      simp only [Filter.mapValues, hvalues low (by simp [Filter.values]), hvalues high (by simp [Filter.values])]
    | in_ field values => exact congrArg (Filter.in_ field) (List.map_congr_left hvalues)
    | not inner =>
      have hmem : inner ∈ (Filter.not inner).members := List.mem_singleton_self inner
      exact congrArg Filter.not (ih inner hmem (hmembers inner hmem))
    | and filters =>
      simp only [Filter.mapValues, mapMembers_eq]
      exact congrArg Filter.and (List.map_congr_left fun member hmem => ih member hmem (hmembers member hmem))
    | or filters =>
      simp only [Filter.mapValues, mapMembers_eq]
      exact congrArg Filter.or (List.map_congr_left fun member hmem => ih member hmem (hmembers member hmem))
    | exists_ field | isNull field | isEmpty field | dangerouslyRaw expression => rfl
    | _ field value => simp only [Filter.mapValues, hvalues value (by simp [Filter.values])]

section Kept

variable (floats : Finite → Option Finite)

/-- What a filter that is sent is received as. -/
def Filter.received (filter : Filter F) : Filter F := filter.mapValues (Value.received floats)

/-- JSON can say all values of a filter: its floats are finite, and what they read as is too. -/
def Filter.Readable (filter : Filter F) : Prop :=
  ∀ depth node, filter.Node depth node → ∀ value ∈ node.values, value.isReadable floats = true

/-- The floats of a filter read back as they were. -/
def Filter.FloatsKept (filter : Filter F) : Prop :=
  ∀ depth node, filter.Node depth node → ∀ value ∈ node.values, value.Kept floats

variable {floats}

theorem received_of_kept {filter : Filter F} (h : filter.FloatsKept floats) :
    filter.received floats = filter.received some :=
  mapValues_congr fun depth node hnode value hv => Value.received_of_kept (h depth node hnode value hv)

theorem render_received [Field F] {filter : Filter F} (h : filter.FloatsKept floats) :
    (filter.received floats).render = filter.render := by
  rw [received_of_kept h]
  exact write_mapValues (fun value => by
    rw [writeValue_eq, writeValue_eq, Value.display_received, Value.isNonFinite_received]) filter 0

end Kept

/-! ### Writing and reading -/

variable [Serial F]

/-- A variant with its content. -/
def tagged (variant : String) (content : Json) : Json := .object [(variant, content)]

mutual

/-- A raw expression is not written. -/
def Filter.toJson : Filter F → Option Json
  | .eq field value => some (tagged "eq" (.array [Serial.toJson field, value.toJson]))
  | .ne field value => some (tagged "ne" (.array [Serial.toJson field, value.toJson]))
  | .gt field value => some (tagged "gt" (.array [Serial.toJson field, value.toJson]))
  | .gte field value => some (tagged "gte" (.array [Serial.toJson field, value.toJson]))
  | .lt field value => some (tagged "lt" (.array [Serial.toJson field, value.toJson]))
  | .lte field value => some (tagged "lte" (.array [Serial.toJson field, value.toJson]))
  | .between field low high => some (tagged "between" (.array [Serial.toJson field, low.toJson, high.toJson]))
  | .in_ field values => some (tagged "in" (.array [Serial.toJson field, .array (values.map Value.toJson)]))
  | .exists_ field => some (tagged "exists" (Serial.toJson field))
  | .isNull field => some (tagged "is_null" (Serial.toJson field))
  | .isEmpty field => some (tagged "is_empty" (Serial.toJson field))
  | .not filter => do
    let json ← filter.toJson
    return tagged "not" json
  | .and filters => do
    let jsons ← Filter.toJsons filters
    return tagged "and" (.array jsons)
  | .or filters => do
    let jsons ← Filter.toJsons filters
    return tagged "or" (.array jsons)
  | .dangerouslyRaw _ => none

def Filter.toJsons : List (Filter F) → Option (List Json)
  | [] => some []
  | filter :: filters => do
    let json ← filter.toJson
    let jsons ← Filter.toJsons filters
    return json :: jsons

end

section Read

variable (floats : Finite → Option Finite)

/-- A field and a value. -/
def readCompare (make : F → Value → Filter F) : Json → Option (Filter F)
  | .array [field, value] => do
    let field ← Serial.ofJson field
    let value ← Value.ofJson floats value
    return make field value
  | _ => none

def readBetween : Json → Option (Filter F)
  | .array [field, low, high] => do
    let field ← Serial.ofJson field
    let low ← Value.ofJson floats low
    let high ← Value.ofJson floats high
    return .between field low high
  | _ => none

def readIn : Json → Option (Filter F)
  | .array [field, .array values] => do
    let field ← Serial.ofJson field
    let values ← values.mapM (Value.ofJson floats)
    return .in_ field values
  | _ => none

/-- The variants without filters in them. -/
def readLeaf (variant : String) (content : Json) : Option (Filter F) :=
  match variant with
  | "eq" => readCompare floats .eq content
  | "ne" => readCompare floats .ne content
  | "gt" => readCompare floats .gt content
  | "gte" => readCompare floats .gte content
  | "lt" => readCompare floats .lt content
  | "lte" => readCompare floats .lte content
  | "between" => readBetween floats content
  | "in" => readIn floats content
  | "exists" => (Serial.ofJson content).map .exists_
  | "is_null" => (Serial.ofJson content).map .isNull
  | "is_empty" => (Serial.ofJson content).map .isEmpty
  | _ => none

mutual

def Filter.ofJson : Json → Option (Filter F)
  | .object [(variant, content)] =>
    match variant, content with
    | "not", content => (Filter.ofJson content).map .not
    | "and", .array filters => (Filter.ofJsons filters).map .and
    | "or", .array filters => (Filter.ofJsons filters).map .or
    | variant, content => readLeaf floats variant content
  | _ => none

def Filter.ofJsons : List Json → Option (List (Filter F))
  | [] => some []
  | json :: jsons => do
    let filter ← Filter.ofJson json
    let filters ← Filter.ofJsons jsons
    return filter :: filters

end

end Read

/-! ### What is read -/

theorem toJsons_eq (filters : List (Filter F)) : Filter.toJsons filters = filters.mapM Filter.toJson := by
  induction filters with
  | nil => rfl
  | cons filter filters ih => rw [Filter.toJsons, ih, List.mapM_cons]

theorem ofJsons_eq (floats : Finite → Option Finite) (jsons : List Json) :
    (Filter.ofJsons floats jsons : Option (List (Filter F))) = jsons.mapM (Filter.ofJson floats) := by
  induction jsons with
  | nil => rfl
  | cons json jsons ih => rw [Filter.ofJsons, ih, List.mapM_cons]

variable {floats : Finite → Option Finite} {json : Json} {filter : Filter F}

/-- A filter without filters in it. -/
def Filter.IsLeaf (filter : Filter F) : Prop := filter.isRaw = false ∧ filter.members = []

theorem isLeaf_of_readCompare {make : F → Value → Filter F} (hmake : ∀ field value, (make field value).IsLeaf)
    (h : readCompare floats make json = some filter) : filter.IsLeaf := by
  unfold readCompare at h
  split at h
  · obtain ⟨field, -, h⟩ := Option.bind_eq_some_iff.mp h
    obtain ⟨value, -, h⟩ := Option.bind_eq_some_iff.mp h
    obtain rfl := Option.some.inj h
    exact hmake field value
  · cases h

theorem isLeaf_of_readLeaf {variant : String} (h : readLeaf floats variant json = some filter) : filter.IsLeaf := by
  have hmap : ∀ {make : F → Filter F}, (∀ field, (make field).IsLeaf) →
      (Serial.ofJson json).map make = some filter → filter.IsLeaf := by
    intro make hmake h
    obtain ⟨field, -, rfl⟩ := Option.map_eq_some_iff.mp h
    exact hmake field
  unfold readLeaf at h
  split at h
  case h_7 =>
    unfold readBetween at h
    split at h
    · obtain ⟨field, -, h⟩ := Option.bind_eq_some_iff.mp h
      obtain ⟨low, -, h⟩ := Option.bind_eq_some_iff.mp h
      obtain ⟨high, -, h⟩ := Option.bind_eq_some_iff.mp h
      obtain rfl := Option.some.inj h
      exact ⟨rfl, rfl⟩
    · cases h
  case h_8 =>
    unfold readIn at h
    split at h
    · obtain ⟨field, -, h⟩ := Option.bind_eq_some_iff.mp h
      obtain ⟨values, -, h⟩ := Option.bind_eq_some_iff.mp h
      obtain rfl := Option.some.inj h
      exact ⟨rfl, rfl⟩
    · cases h
  case h_9 | h_10 | h_11 => exact hmap (fun _ => ⟨rfl, rfl⟩) h
  case h_12 => cases h
  all_goals exact isLeaf_of_readCompare (fun _ _ => ⟨rfl, rfl⟩) h

/-- **What is read is no raw expression, and its members are read too.** -/
theorem Filter.of_ofJson (h : Filter.ofJson floats json = some filter) :
    filter.isRaw = false ∧ ∀ member ∈ filter.members, ∃ json, Filter.ofJson floats json = some member := by
  have hmembers : ∀ {jsons : List Json} {filters : List (Filter F)}, Filter.ofJsons floats jsons = some filters →
      ∀ member ∈ filters, ∃ json, Filter.ofJson floats json = some member := by
    intro jsons filters h
    rw [ofJsons_eq, mapM_eq_some_iff] at h
    exact exists_forall₂_iff.mp ⟨jsons, h.flip⟩
  unfold Filter.ofJson at h
  split at h
  · split at h
    · obtain ⟨inner, hinner, rfl⟩ := Option.map_eq_some_iff.mp h
      exact ⟨rfl, List.forall_mem_singleton.mpr ⟨_, hinner⟩⟩
    · obtain ⟨filters, hfilters, rfl⟩ := Option.map_eq_some_iff.mp h
      exact ⟨rfl, hmembers hfilters⟩
    · obtain ⟨filters, hfilters, rfl⟩ := Option.map_eq_some_iff.mp h
      exact ⟨rfl, hmembers hfilters⟩
    · obtain ⟨hraw, hnil⟩ := isLeaf_of_readLeaf h
      exact ⟨hraw, by rw [hnil]; exact List.forall_mem_nil _⟩
  · cases h

/-- **Clients cannot send a raw expression.** -/
theorem Filter.plain_of_ofJson (h : Filter.ofJson floats json = some filter) : filter.Plain := by
  induction filter using Filter.induction generalizing json with
  | step filter ih =>
    obtain ⟨hraw, hmembers⟩ := Filter.of_ofJson h
    refine Filter.forall_node_iff.mpr ⟨hraw, fun member hmem => ?_⟩
    obtain ⟨json, hjson⟩ := hmembers member hmem
    exact ih member hmem hjson

/-! ### Round trips -/

/-- The values of a filter are in the range of their types. -/
def Filter.InRange (filter : Filter F) : Prop :=
  ∀ depth node, filter.Node depth node → ∀ value ∈ node.values, value.InRange

theorem ofJson_toJson_iff {value read : Value} (h : value.InRange) :
    Value.ofJson floats value.toJson = some read ↔
      value.isReadable floats = true ∧ read = value.received floats := by
  rw [Value.ofJson_toJson h]
  by_cases hreadable : value.isReadable floats = true
  · simp [hreadable, eq_comm]
  · simp [hreadable]

theorem ofJsons_toJsons_iff {values read : List Value} (h : ∀ value ∈ values, value.InRange) :
    (values.map Value.toJson).mapM (Value.ofJson floats) = some read ↔
      (∀ value ∈ values, value.isReadable floats = true) ∧ read = values.map (Value.received floats) := by
  rw [mapM_eq_some_iff, List.forall₂_map_left_iff]
  induction values generalizing read with
  | nil => simp
  | cons value values ih =>
    rw [List.forall₂_cons_left_iff, List.forall_mem_cons]
    obtain ⟨hvalue, hvalues⟩ := List.forall_mem_cons.mp h
    constructor
    · rintro ⟨first, rest, hfirst, hrest, rfl⟩
      obtain ⟨hreadable, rfl⟩ := (ofJson_toJson_iff hvalue).mp hfirst
      obtain ⟨hreadables, rfl⟩ := (ih hvalues).mp hrest
      exact ⟨⟨hreadable, hreadables⟩, rfl⟩
    · rintro ⟨⟨hreadable, hreadables⟩, rfl⟩
      exact ⟨_, _, (ofJson_toJson_iff hvalue).mpr ⟨hreadable, rfl⟩, (ih hvalues).mpr ⟨hreadables, rfl⟩, rfl⟩

theorem readCompare_iff {make : F → Value → Filter F} {field : F} {value : Value} {read : Filter F}
    (h : value.InRange) : readCompare floats make (.array [Serial.toJson field, value.toJson]) = some read ↔
      value.isReadable floats = true ∧ read = make field (value.received floats) := by
  unfold readCompare
  simp only [Serial.ofJson_toJson, Option.bind_eq_bind, Option.bind_some, Option.bind_eq_some_iff,
    ofJson_toJson_iff h]
  constructor
  · rintro ⟨_, ⟨hreadable, rfl⟩, ⟨⟩⟩
    exact ⟨hreadable, rfl⟩
  · rintro ⟨hreadable, rfl⟩
    exact ⟨_, ⟨hreadable, rfl⟩, rfl⟩

theorem readBetween_iff {field : F} {low high : Value} {read : Filter F} (hlow : low.InRange) (hhigh : high.InRange) :
    readBetween floats (.array [Serial.toJson field, low.toJson, high.toJson]) = some read ↔
      (low.isReadable floats = true ∧ high.isReadable floats = true) ∧
        read = .between field (low.received floats) (high.received floats) := by
  unfold readBetween
  simp only [Serial.ofJson_toJson, Option.bind_eq_bind, Option.bind_some, Option.bind_eq_some_iff,
    ofJson_toJson_iff hlow, ofJson_toJson_iff hhigh]
  constructor
  · rintro ⟨_, ⟨hlow, rfl⟩, _, ⟨hhigh, rfl⟩, ⟨⟩⟩
    exact ⟨⟨hlow, hhigh⟩, rfl⟩
  · rintro ⟨⟨hlow, hhigh⟩, rfl⟩
    exact ⟨_, ⟨hlow, rfl⟩, _, ⟨hhigh, rfl⟩, rfl⟩

theorem readIn_iff {field : F} {values : List Value} {read : Filter F} (h : ∀ value ∈ values, value.InRange) :
    readIn floats (.array [Serial.toJson field, .array (values.map Value.toJson)]) = some read ↔
      (∀ value ∈ values, value.isReadable floats = true) ∧ read = .in_ field (values.map (Value.received floats)) := by
  unfold readIn
  simp only [Serial.ofJson_toJson, Option.bind_eq_bind, Option.bind_some, Option.bind_eq_some_iff,
    ofJsons_toJsons_iff h]
  constructor
  · rintro ⟨_, ⟨hreadable, rfl⟩, ⟨⟩⟩
    exact ⟨hreadable, rfl⟩
  · rintro ⟨hreadable, rfl⟩
    exact ⟨_, ⟨hreadable, rfl⟩, rfl⟩

/-- The members of a group that are sent. -/
theorem ofJsons_iff {filters read : List (Filter F)} {jsons : List Json}
    (hjsons : List.Forall₂ (fun filter json => filter.toJson = some json) filters jsons)
    (ih : ∀ filter ∈ filters, ∀ json read, filter.toJson = some json →
      (Filter.ofJson floats json = some read ↔ filter.Readable floats ∧ read = filter.received floats)) :
    Filter.ofJsons floats jsons = some read ↔
      (∀ filter ∈ filters, filter.Readable floats) ∧ read = Filter.mapMembers (Value.received floats) filters := by
  rw [ofJsons_eq, mapM_eq_some_iff, mapMembers_eq]
  induction hjsons generalizing read with
  | nil => simp
  | @cons filter json filters jsons hjson _ ih' =>
    rw [List.forall₂_cons_left_iff, List.forall_mem_cons]
    have hfirst := ih filter (by simp)
    have hrest : ∀ read, _ ↔ _ ∧ read = _ := fun _ => ih' fun filter hf => ih filter (by simp [hf])
    constructor
    · rintro ⟨first, rest, hread, hreads, rfl⟩
      obtain ⟨hreadable, rfl⟩ := (hfirst json first hjson).mp hread
      obtain ⟨hreadables, rfl⟩ := (hrest rest).mp hreads
      exact ⟨⟨hreadable, hreadables⟩, rfl⟩
    · rintro ⟨⟨hreadable, hreadables⟩, rfl⟩
      exact ⟨_, _, (hfirst json _ hjson).mpr ⟨hreadable, rfl⟩, (hrest _).mpr ⟨hreadables, rfl⟩, rfl⟩

omit [Serial F] in
theorem readable_of_leaf {filter : Filter F} (hm : filter.members = []) :
    filter.Readable floats ↔ ∀ value ∈ filter.values, value.isReadable floats = true := by
  refine Filter.forall_node_iff.trans (and_iff_left ?_)
  rw [hm]
  exact List.forall_mem_nil _

theorem compare_iff_received {make : F → Value → Filter F} {field : F} {value : Value} {filter read : Filter F}
    (hm : filter.members = []) (hv : filter.values = [value])
    (hr : filter.received floats = make field (value.received floats))
    (hrange : ∀ value ∈ filter.values, value.InRange) :
    readCompare floats make (.array [Serial.toJson field, value.toJson]) = some read ↔
      filter.Readable floats ∧ read = filter.received floats := by
  rw [hv, List.forall_mem_singleton] at hrange
  rw [readCompare_iff hrange, readable_of_leaf hm, hv, List.forall_mem_singleton, hr]

theorem const_iff_received {make : F → Filter F} {field : F} {filter read : Filter F} (hm : filter.members = [])
    (hv : filter.values = []) (hr : filter.received floats = make field) :
    (Serial.ofJson (Serial.toJson field)).map make = some read ↔
      filter.Readable floats ∧ read = filter.received floats := by
  rw [Serial.ofJson_toJson, readable_of_leaf hm, hv, hr, Option.map_some, Option.some.injEq, eq_comm]
  exact (and_iff_right (List.forall_mem_nil _)).symm

/-- What is made of a value that is read. -/
theorem map_eq_some_iff_of_iff {α β : Type} {m : Option α} {f : α → β} {p : Prop} {x : α}
    (h : ∀ a, m = some a ↔ p ∧ a = x) (b : β) : m.map f = some b ↔ p ∧ b = f x := by
  refine Option.map_eq_some_iff.trans ?_
  constructor
  · rintro ⟨a, ha, rfl⟩
    obtain ⟨hp, rfl⟩ := (h a).mp ha
    exact ⟨hp, rfl⟩
  · rintro ⟨hp, rfl⟩
    exact ⟨x, (h x).mpr ⟨hp, rfl⟩, rfl⟩

/-- **A filter that is sent is received**, if its floats are finite. -/
theorem ofJson_iff_received {filter read : Filter F} {json : Json} (hrange : filter.InRange)
    (h : filter.toJson = some json) :
    Filter.ofJson floats json = some read ↔ filter.Readable floats ∧ read = filter.received floats := by
  induction filter using Filter.induction generalizing json read with
  | step filter ih =>
    obtain ⟨hvalues, hmembers⟩ := Filter.forall_node_iff.mp hrange
    have hgroup : ∀ {filters jsons read}, filter.members = filters → Filter.toJsons filters = some jsons →
        (Filter.ofJsons floats jsons = some read ↔
          (∀ filter ∈ filters, filter.Readable floats) ∧ read = Filter.mapMembers (Value.received floats) filters) := by
      rintro filters jsons read rfl hjsons
      rw [toJsons_eq] at hjsons
      refine ofJsons_iff (mapM_eq_some_iff.mp hjsons) fun member hmem json read hjson => ?_
      exact ih member hmem (hmembers member hmem) hjson
    have hreadable : filter.values = [] →
        (filter.Readable floats ↔ ∀ member ∈ filter.members, member.Readable floats) := by
      intro hv
      refine Filter.forall_node_iff.trans (and_iff_right ?_)
      rw [hv]
      exact List.forall_mem_nil _
    cases filter with
    | between field low high =>
      obtain rfl := Option.some.inj h
      rw [readable_of_leaf rfl]
      refine (readBetween_iff (hvalues low ?_) (hvalues high ?_)).trans ?_
      · simp [Filter.values]
      · simp [Filter.values]
      · simp [Filter.values, Filter.received, Filter.mapValues]
    | in_ field values =>
      obtain rfl := Option.some.inj h
      rw [readable_of_leaf rfl]
      exact readIn_iff hvalues
    | exists_ field =>
      obtain rfl := Option.some.inj h
      exact const_iff_received rfl rfl rfl
    | isNull field =>
      obtain rfl := Option.some.inj h
      exact const_iff_received rfl rfl rfl
    | isEmpty field =>
      obtain rfl := Option.some.inj h
      exact const_iff_received rfl rfl rfl
    | not inner =>
      obtain ⟨json, hjson, h⟩ := Option.bind_eq_some_iff.mp h
      obtain rfl := Option.some.inj h
      have hmem : inner ∈ (Filter.not inner).members := List.mem_singleton_self inner
      rw [hreadable rfl, show (Filter.not inner).members = [inner] from rfl, List.forall_mem_singleton]
      exact map_eq_some_iff_of_iff (fun _ => ih inner hmem (hmembers inner hmem) hjson) _
    | and filters =>
      obtain ⟨jsons, hjsons, h⟩ := Option.bind_eq_some_iff.mp h
      obtain rfl := Option.some.inj h
      rw [hreadable rfl]
      exact map_eq_some_iff_of_iff (fun _ => hgroup rfl hjsons) _
    | or filters =>
      obtain ⟨jsons, hjsons, h⟩ := Option.bind_eq_some_iff.mp h
      obtain rfl := Option.some.inj h
      rw [hreadable rfl]
      exact map_eq_some_iff_of_iff (fun _ => hgroup rfl hjsons) _
    | dangerouslyRaw expression => cases h
    | _ =>
      obtain rfl := Option.some.inj h
      exact compare_iff_received rfl rfl rfl hvalues

theorem exists_toJsons_iff {filters : List (Filter F)} :
    (∃ jsons, Filter.toJsons filters = some jsons) ↔ ∀ filter ∈ filters, ∃ json, filter.toJson = some json := by
  simp only [toJsons_eq, mapM_eq_some_iff]
  exact exists_forall₂_iff

theorem exists_bind_iff {α β : Type} {m : Option α} {f : α → β} :
    (∃ b, (m.bind fun a => some (f a)) = some b) ↔ ∃ a, m = some a := by
  cases m <;> simp

/-- **A filter can be sent iff no node is a raw expression.** -/
theorem exists_toJson_iff (filter : Filter F) : (∃ json, filter.toJson = some json) ↔ filter.Plain := by
  induction filter using Filter.induction with
  | step filter ih =>
    refine Iff.trans ?_ Filter.forall_node_iff.symm
    have hmembers : (∀ member ∈ filter.members, ∃ json, member.toJson = some json) ↔
        ∀ member ∈ filter.members, member.Plain := forall₂_congr ih
    refine Iff.trans ?_ (and_congr_right fun _ => hmembers)
    cases filter with
    | not inner => exact exists_bind_iff.trans (by simp [Filter.isRaw, Filter.members])
    | and filters => exact exists_bind_iff.trans (exists_toJsons_iff.trans (and_iff_right rfl).symm)
    | or filters => exact exists_bind_iff.trans (exists_toJsons_iff.trans (and_iff_right rfl).symm)
    | dangerouslyRaw expression => simp [Filter.toJson, Filter.isRaw]
    | _ => simp [Filter.toJson, Filter.isRaw, Filter.members]

/-- **JSON keeps what a filter means, and lets no raw expression through.** A filter without raw expressions
can be sent. It is received unless one of its floats can't be read or it is nested too deep; what is received
renders to the same text and selects the same documents if its floats are read as they were. -/
theorem json_keeps_meaning [Field F] (floats : Finite → Option Finite) (filter : Filter F)
    (hrange : filter.InRange) :
    ((∃ json, filter.toJson = some json) ↔ filter.Plain) ∧
    (∀ json, filter.toJson = some json → ((∃ read : Filter F, fromStr (Filter.ofJson floats) json = some read) ↔
      filter.Readable floats ∧ json.nesting < 128)) ∧
    (∀ json (read : Filter F), filter.toJson = some json → fromStr (Filter.ofJson floats) json = some read →
      read = filter.received floats ∧ (filter.FloatsKept floats → read.render = filter.render ∧
        ∀ (D : Type) (attributes : Attributes D) d, read.test attributes d = filter.test attributes d)) ∧
    ∀ json (read : Filter F), fromStr (Filter.ofJson floats) json = some read → read.Plain := by
  refine ⟨exists_toJson_iff filter, fun json hjson => ?_, fun json read hjson hread => ?_,
    fun json read hread => Filter.plain_of_ofJson (fromStr_eq_some.mp hread).2⟩
  · simp only [fromStr_eq_some, ofJson_iff_received hrange hjson]
    exact ⟨fun ⟨_, hnesting, hreadable, _⟩ => ⟨hreadable, hnesting⟩,
      fun ⟨hreadable, hnesting⟩ => ⟨_, hnesting, hreadable, rfl⟩⟩
  · obtain ⟨-, rfl⟩ := (ofJson_iff_received hrange hjson).mp (fromStr_eq_some.mp hread).2
    refine ⟨rfl, fun hkept => ⟨render_received hkept, fun D attributes d => ?_⟩⟩
    rw [received_of_kept hkept]
    exact test_mapValues Value.display_received filter

/-- A field that is written as its name. -/
instance : Serial Text where
  toJson := .string
  ofJson
    | .string text => some text
    | _ => none
  ofJson_toJson _ := rfl

/-- One and a half. -/
def oneAndHalf : Finite where
  text := ['1', '.', '5']
  plain := List.forall_mem_cons.mpr ⟨rfl, List.forall_mem_cons.mpr ⟨rfl, List.forall_mem_singleton.mpr rfl⟩⟩

/-- Not by author 7, or dearer than one and a half. -/
def byOther : Filter Text :=
  .or [.not (.eq "author".toList (.uint 7)), .gt "price".toList (.float (some oneAndHalf))]

/-- An unsigned number is read back as a signed one, and a short float as it was. -/
theorem json_keeps_meaning_uint : ∃ json read, byOther.toJson = some json ∧
    fromStr (Filter.ofJson some) json = some read ∧
      read = .or [.not (.eq "author".toList (.int 7)), .gt "price".toList (.float (some oneAndHalf))] ∧
        read.render = byOther.render := by
  have hnode : ∀ {p : Value → Prop}, p (.uint 7) → p (.float (some oneAndHalf)) →
      ∀ depth node, byOther.Node depth node → ∀ value ∈ node.values, p value := by
    intro p huint hfloat
    refine Filter.forall_node_iff.mpr ⟨List.forall_mem_nil _, List.forall_mem_cons.mpr ⟨?_,
      List.forall_mem_singleton.mpr ?_⟩⟩
    · refine Filter.forall_node_iff.mpr ⟨List.forall_mem_nil _, List.forall_mem_singleton.mpr ?_⟩
      exact Filter.forall_node_iff.mpr ⟨List.forall_mem_singleton.mpr huint, List.forall_mem_nil _⟩
    · exact Filter.forall_node_iff.mpr ⟨List.forall_mem_singleton.mpr hfloat, List.forall_mem_nil _⟩
  have hrange : byOther.InRange := hnode (by show 7 < 2 ^ 64; omega) trivial
  have hkept : byOther.FloatsKept some := hnode nofun fun _ _ => rfl
  obtain ⟨-, -, h, -⟩ := json_keeps_meaning some byOther hrange
  exact ⟨_, _, rfl, rfl, rfl, ((h _ _ rfl rfl).2 hkept).1⟩

end Wakuwaku.Entity.Meilisearch
