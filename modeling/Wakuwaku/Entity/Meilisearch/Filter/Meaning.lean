import Wakuwaku.Entity.Meilisearch.Filter.RoundTrip
import Wakuwaku.Meilisearch.Search

/-! # What filters select

A filter selects documents by what they hold under its fields. What it renders to selects the same ones
(`Reads.eq_test`): it parses to a condition, and a server that reads what parses as the
grammar says reads the filter as it was meant. -/

namespace Wakuwaku.Entity.Meilisearch

open Wakuwaku.Meilisearch

variable {D : Type}

/-- What documents hold under their attributes. -/
structure Attributes (D : Type) where
  eq : Text → Text → D → Bool
  gt : Text → Text → D → Bool
  gte : Text → Text → D → Bool
  lt : Text → Text → D → Bool
  lte : Text → Text → D → Bool
  exists_ : Text → D → Bool
  isNull : Text → D → Bool
  isEmpty : Text → D → Bool

variable (attributes : Attributes D)

/-! ### Conditions -/

/-- A comparison of an attribute with a value. -/
def Comparison.test : Comparison → Text → Text → D → Bool
  | .eq, field, value, d => attributes.eq field value d
  | .ne, field, value, d => !attributes.eq field value d
  | .gt, field, value, d => attributes.gt field value d
  | .gte, field, value, d => attributes.gte field value d
  | .lt, field, value, d => attributes.lt field value d
  | .lte, field, value, d => attributes.lte field value d

mutual

/-- Whether a document meets a condition. -/
def Condition.test : Condition → D → Bool
  | .compare comparison field value, d => comparison.test attributes field value d
  | .between field low high, d => attributes.gte field low d && attributes.lte field high d
  | .in_ field values, d => values.any fun value => attributes.eq field value d
  | .exists_ field, d => attributes.exists_ field d
  | .isNull field, d => attributes.isNull field d
  | .isEmpty field, d => attributes.isEmpty field d
  | .not condition, d => !condition.test d
  | .and conditions, d => Condition.testAll conditions d
  | .or conditions, d => Condition.testAny conditions d

def Condition.testAll : List Condition → D → Bool
  | [], _ => true
  | condition :: conditions, d => condition.test d && Condition.testAll conditions d

def Condition.testAny : List Condition → D → Bool
  | [], _ => false
  | condition :: conditions, d => condition.test d || Condition.testAny conditions d

end

variable {attributes} {d : D}

theorem testAll_eq (conditions : List Condition) :
    Condition.testAll attributes conditions d = conditions.all (·.test attributes d) := by
  induction conditions with
  | nil => rfl
  | cons condition conditions ih => rw [Condition.testAll, ih, List.all_cons]

theorem testAny_eq (conditions : List Condition) :
    Condition.testAny attributes conditions d = conditions.any (·.test attributes d) := by
  induction conditions with
  | nil => rfl
  | cons condition conditions ih => rw [Condition.testAny, ih, List.any_cons]

theorem test_group_and (conditions : List Condition) :
    (group .and conditions).test attributes d = conditions.all (·.test attributes d) := by
  match conditions with
  | [] => rfl
  | [condition] => simp [group]
  | first :: second :: rest => exact testAll_eq _

theorem test_group_or (conditions : List Condition) :
    (group .or conditions).test attributes d = conditions.any (·.test attributes d) := by
  match conditions with
  | [] => rfl
  | [condition] => simp [group]
  | first :: second :: rest => exact testAny_eq _

/-! ### Filters -/

variable {F : Type} [Field F] (attributes)

mutual

/-- Whether a filter selects a document. -/
def Filter.test : Filter F → D → Bool
  | .eq field value, d => attributes.eq (Field.name field) value.display d
  -- the documents that `eq` does not select
  | .ne field value, d => !attributes.eq (Field.name field) value.display d
  | .gt field value, d => attributes.gt (Field.name field) value.display d
  | .gte field value, d => attributes.gte (Field.name field) value.display d
  | .lt field value, d => attributes.lt (Field.name field) value.display d
  | .lte field value, d => attributes.lte (Field.name field) value.display d
  | .between field low high, d =>
    attributes.gte (Field.name field) low.display d && attributes.lte (Field.name field) high.display d
  | .in_ field values, d => values.any fun value => attributes.eq (Field.name field) value.display d
  | .exists_ field, d => attributes.exists_ (Field.name field) d
  | .isNull field, d => attributes.isNull (Field.name field) d
  | .isEmpty field, d => attributes.isEmpty (Field.name field) d
  | .not filter, d => !filter.test d
  | .and filters, d => Filter.testAll filters d
  | .or filters, d => Filter.testAny filters d
  -- it depends on the expression
  | .dangerouslyRaw _, _ => false

def Filter.testAll : List (Filter F) → D → Bool
  | [], _ => true
  | filter :: filters, d => filter.test d && Filter.testAll filters d

def Filter.testAny : List (Filter F) → D → Bool
  | [], _ => false
  | filter :: filters, d => filter.test d || Filter.testAny filters d

end

variable {attributes}

theorem Filter.testAll_eq (filters : List (Filter F)) :
    Filter.testAll attributes filters d = filters.all (·.test attributes d) := by
  induction filters with
  | nil => rfl
  | cons filter filters ih => rw [Filter.testAll, ih, List.all_cons]

theorem Filter.testAny_eq (filters : List (Filter F)) :
    Filter.testAny attributes filters d = filters.any (·.test attributes d) := by
  induction filters with
  | nil => rfl
  | cons filter filters ih => rw [Filter.testAny, ih, List.any_cons]

theorem conditions_eq_map (filters : List (Filter F)) :
    Filter.conditions filters = filters.map Filter.condition := by
  induction filters with
  | nil => rfl
  | cons filter filters ih => rw [Filter.conditions, ih, List.map_cons]

/-- **The tree of a filter selects what the filter does.** -/
theorem test_condition (filter : Filter F) : filter.condition.test attributes d = filter.test attributes d := by
  induction filter using Filter.induction with
  | step filter ih =>
    cases filter with
    | in_ field values => exact List.any_map
    | not inner => exact congrArg (!·) (ih inner (by simp [Filter.members]))
    | and filters =>
      rw [Filter.condition, test_group_and, conditions_eq_map, List.all_map, Filter.test, Filter.testAll_eq,
        Bool.eq_iff_iff, List.all_eq_true, List.all_eq_true]
      exact forall₂_congr fun filter hf => Bool.eq_iff_iff.mp (ih filter hf)
    | or filters =>
      rw [Filter.condition, test_group_or, conditions_eq_map, List.any_map, Filter.test, Filter.testAny_eq,
        Bool.eq_iff_iff, List.any_eq_true, List.any_eq_true]
      exact exists_congr fun filter => and_congr_right fun hf => Bool.eq_iff_iff.mp (ih filter hf)
    | _ => rfl

/-! ### What the server reads -/

/-- No node of a filter is a raw expression. -/
def Filter.Plain (filter : Filter F) : Prop := ∀ depth node, filter.Node depth node → node.isRaw = false

/-- A server reads an expression that parses as the grammar says, if it reads it at all. -/
def Reads (engine : Engine D) (attributes : Attributes D) : Prop :=
  ∀ text condition criterion, parse text = some condition → engine.read text = .ok criterion →
    criterion = condition.test attributes

theorem parse_of_render {filter : Filter F} {text : Text} (hplain : filter.Plain) (h : filter.render = .ok text) :
    parse text = some filter.condition := by
  have hread := readsAs_write filter hplain h (Nat.le_refl _) [] (Or.inl rfl)
  rw [List.append_nil] at hread
  unfold parse
  rw [hread]

/-- **A filter is read as it was meant**: what it renders to selects the documents that it selects. -/
theorem Reads.eq_test {engine : Engine D} {filter : Filter F} {text : Text} {criterion : D → Bool}
    (h : Reads engine attributes) (hplain : filter.Plain) (hrender : filter.render = .ok text)
    (hread : engine.read text = .ok criterion) : criterion = filter.test attributes := by
  rw [h text _ criterion (parse_of_render hplain hrender) hread]
  exact funext fun d => test_condition filter

/-- A server that reads the grammar and nothing else, and keeps the documents as they are. -/
def reference (attributes : Attributes D) (holds : Text → D → Bool) : Engine D where
  read text :=
    match parse text with
    | some condition => .ok (condition.test attributes)
    | none => .error (.other "invalid_search_filter")
  holds := holds
  order _ _ documents := documents
  perm_order _ _ _ := .refl _
  maxTotalHits := 1000

theorem reads_reference (attributes : Attributes D) (holds : Text → D → Bool) :
    Reads (reference attributes holds) attributes := by
  intro text condition criterion hparse hread
  unfold reference at hread
  simp only [hparse] at hread
  exact (Except.ok.inj hread).symm

end Wakuwaku.Entity.Meilisearch
