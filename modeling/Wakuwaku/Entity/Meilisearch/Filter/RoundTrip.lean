import Wakuwaku.Fallible
import Wakuwaku.Entity.Meilisearch.Filter.Grammar

/-! # Filters read back

A filter renders unless a group is empty, a float is not finite or a node is too deep
(`write_eq_ok_iff`), and what it renders to parses to its tree (`render_reads_back`): the text of a node
depends on those of its members only (`Filter.layout`), and each of them is in parentheses. -/

namespace Wakuwaku.Entity.Meilisearch

variable {F : Type} [Field F]

/-! ### Induction on filters -/

omit [Field F] in
theorem Filter.sizeOf_lt_of_mem {filter member : Filter F} (h : member ∈ filter.members) :
    sizeOf member < sizeOf filter := by
  cases filter with
  | not inner =>
    obtain rfl := List.mem_singleton.mp h
    simp
  | and filters =>
    have : sizeOf member < sizeOf filters := List.sizeOf_lt_of_mem h
    simp only [Filter.and.sizeOf_spec]
    omega
  | or filters =>
    have : sizeOf member < sizeOf filters := List.sizeOf_lt_of_mem h
    simp only [Filter.or.sizeOf_spec]
    omega
  | _ => cases h

omit [Field F] in
/-- What holds of a filter if it holds of its members holds of every filter. -/
theorem Filter.induction {motive : Filter F → Prop}
    (step : ∀ filter : Filter F, (∀ member ∈ filter.members, motive member) → motive filter)
    (filter : Filter F) : motive filter :=
  step filter fun member _ => Filter.induction step member
termination_by sizeOf filter
decreasing_by exact Filter.sizeOf_lt_of_mem ‹_›

omit [Field F] in
/-- A property of the nodes, by that of the root and those of the members. -/
theorem Filter.forall_node_iff {p : ℕ → Filter F → Prop} {filter : Filter F} :
    (∀ depth node, filter.Node depth node → p depth node) ↔ p 0 filter ∧
      ∀ member ∈ filter.members, ∀ depth node, member.Node depth node → p (depth + 1) node := by
  constructor
  · intro h
    exact ⟨h 0 _ (.root _), fun member hmem depth node hn => h _ _ (.member hmem hn)⟩
  · rintro ⟨hroot, hmembers⟩ depth node hn
    cases hn with
    | root => exact hroot
    | member hmem hn => exact hmembers _ hmem _ _ hn

/-! ### What is written -/

theorem quote_of_plain {text : Text} (h : ∀ c ∈ text, isNumberChar c = true) :
    quoteDisplay text = quote text := by
  have hescape : text.flatMap escape = text := by
    induction text with
    | nil => rfl
    | cons c text ih =>
      have hc := h c (by simp)
      have hne : ¬ (c = '"' ∨ c = '\\') := by
        rintro (rfl | rfl)
        · exact absurd hc (by decide)
        · exact absurd hc (by decide)
      rw [List.flatMap_cons, ih fun d hd => h d (by simp [hd]), escape, if_neg hne]
      rfl
  rw [quoteDisplay, quote, hescape]

theorem isNumberChar_toDigits (n : ℕ) : ∀ c ∈ Nat.toDigits 10 n, isNumberChar c = true := by
  intro c hc
  have := Nat.isDigit_of_mem_toDigits (by omega) (by omega) hc
  simp [isNumberChar, this]

theorem isNumberChar_displayInt (n : Int) : ∀ c ∈ displayInt n, isNumberChar c = true := by
  cases n with
  | ofNat n => exact isNumberChar_toDigits n
  | negSucc n =>
    intro c hc
    rcases List.mem_cons.mp hc with rfl | hc
    · decide
    · exact isNumberChar_toDigits _ c hc

/-- **Every value is written in quotes**, escaped like a text. -/
theorem writeValue_eq (value : Value) : writeValue value =
    if value.isNonFinite then .error .nonFiniteNumber else .ok (quote value.display) := by
  cases value with
  | bool value => cases value <;> rfl
  | int value => exact congrArg Except.ok (quote_of_plain (isNumberChar_displayInt value))
  | uint value => exact congrArg Except.ok (quote_of_plain (isNumberChar_toDigits value))
  | float value =>
    cases value with
    | none => rfl
    | some value => exact congrArg Except.ok (quote_of_plain value.plain)
  | text value => rfl

theorem writeValue_eq_ok_iff {value : Value} {text : Text} :
    writeValue value = .ok text ↔ value.isNonFinite = false ∧ text = quote value.display := by
  rw [writeValue_eq]
  by_cases h : value.isNonFinite = true
  · simp [h]
  · simp [h, eq_comm]

theorem writeValues_eq_ok_iff {values : List Value} {texts : List Text} :
    writeValues values = .ok texts ↔ (∀ value ∈ values, value.isNonFinite = false) ∧
      texts = values.map fun value => quote value.display := by
  induction values generalizing texts with
  | nil =>
    constructor
    · rintro ⟨⟩
      exact ⟨by simp, rfl⟩
    · rintro ⟨-, rfl⟩
      rfl
  | cons value values ih =>
    simp only [writeValues, bind_eq_ok_iff, writeValue_eq_ok_iff, ih, List.forall_mem_cons]
    constructor
    · rintro ⟨_, ⟨hvalue, rfl⟩, _, ⟨hvalues, rfl⟩, ⟨⟩⟩
      exact ⟨⟨hvalue, hvalues⟩, rfl⟩
    · rintro ⟨⟨hvalue, hvalues⟩, rfl⟩
      exact ⟨_, ⟨hvalue, rfl⟩, _, ⟨hvalues, rfl⟩, rfl⟩

/-- The text of a node from those of its members. -/
def Filter.layout : Filter F → List Text → Text
  | .eq field value, _ => quote (Field.name field) ++ " = ".toList ++ quote value.display
  | .ne field value, _ => quote (Field.name field) ++ " != ".toList ++ quote value.display
  | .gt field value, _ => quote (Field.name field) ++ " > ".toList ++ quote value.display
  | .gte field value, _ => quote (Field.name field) ++ " >= ".toList ++ quote value.display
  | .lt field value, _ => quote (Field.name field) ++ " < ".toList ++ quote value.display
  | .lte field value, _ => quote (Field.name field) ++ " <= ".toList ++ quote value.display
  | .between field low high, _ => quote (Field.name field) ++ " ".toList ++ quote low.display ++
      " TO ".toList ++ quote high.display
  | .in_ field values, _ => quote (Field.name field) ++ " IN [".toList ++
      joined ", ".toList (values.map fun value => quote value.display) ++ "]".toList
  | .exists_ field, _ => postfixed field " EXISTS"
  | .isNull field, _ => postfixed field " IS NULL"
  | .isEmpty field, _ => postfixed field " IS EMPTY"
  | .not _, texts => "NOT ".toList ++ (texts.map grouped).flatten
  | .and _, texts => joined " AND ".toList (texts.map grouped)
  | .or _, texts => joined " OR ".toList (texts.map grouped)
  | .dangerouslyRaw expression, _ => expression

theorem compare_eq_ok_iff {field : F} {operator : String} {value : Value} {text : Text} :
    compare field operator value = .ok text ↔ value.isNonFinite = false ∧
      text = quote (Field.name field) ++ (" ".toList ++ operator.toList ++ " ".toList) ++
        quote value.display := by
  unfold compare
  simp only [bind_eq_ok_iff, writeValue_eq_ok_iff]
  constructor
  · rintro ⟨_, ⟨hvalue, rfl⟩, ⟨⟩⟩
    exact ⟨hvalue, by simp only [List.append_assoc]⟩
  · rintro ⟨hvalue, rfl⟩
    exact ⟨_, ⟨hvalue, rfl⟩, congrArg Except.ok (by simp only [List.append_assoc])⟩

theorem writeMembers_eq_ok_iff {filters : List (Filter F)} {depth : ℕ} {texts : List Text} :
    Filter.writeMembers filters depth = .ok texts ↔ ∃ members,
      List.Forall₂ (fun filter text => filter.write (depth + 1) = .ok text) filters members ∧
        texts = members.map grouped := by
  induction filters generalizing texts with
  | nil =>
    constructor
    · rintro ⟨⟩
      exact ⟨[], .nil, rfl⟩
    · rintro ⟨_, ⟨⟩, rfl⟩
      rfl
  | cons filter filters ih =>
    simp only [Filter.writeMembers, bind_eq_ok_iff, ih, List.forall₂_cons_left_iff]
    constructor
    · rintro ⟨text, htext, rest, ⟨members, hmembers, rfl⟩, heq⟩
      cases heq
      exact ⟨text :: members, ⟨text, members, htext, hmembers, rfl⟩, rfl⟩
    · rintro ⟨_, ⟨text, members, htext, hmembers, rfl⟩, rfl⟩
      exact ⟨text, htext, _, ⟨members, hmembers, rfl⟩, rfl⟩

theorem joinGroup_eq_ok_iff {operator : String} {texts : List Text} {text : Text} :
    joinGroup operator texts = .ok text ↔ texts ≠ [] ∧ text = joined operator.toList texts := by
  cases texts <;> simp [joinGroup, eq_comm]

section Write

variable {filter : Filter F} {depth : ℕ} {text : Text}

/-- What `write` does to a node that is not too deep, in terms of its members. -/
def Filter.Written (filter : Filter F) (depth : ℕ) (text : Text) : Prop :=
  filter.isEmptyGroup = false ∧ (∀ value ∈ filter.values, value.isNonFinite = false) ∧ ∃ texts,
    List.Forall₂ (fun member text => member.write (depth + 1) = .ok text) filter.members texts ∧
      text = filter.layout texts

/-- A node without members. -/
theorem written_leaf_iff (hm : filter.members = []) (he : filter.isEmptyGroup = false) :
    filter.Written depth text ↔
      (∀ value ∈ filter.values, value.isNonFinite = false) ∧ text = filter.layout [] := by
  unfold Filter.Written
  rw [hm]
  constructor
  · rintro ⟨-, hvalues, _, ⟨⟩, htext⟩
    exact ⟨hvalues, htext⟩
  · rintro ⟨hvalues, htext⟩
    exact ⟨he, hvalues, [], .nil, htext⟩

theorem compare_iff_written {field : F} {operator : String} {value : Value}
    (hm : filter.members = []) (he : filter.isEmptyGroup = false) (hv : filter.values = [value])
    (hlayout : filter.layout [] = quote (Field.name field) ++
      (" ".toList ++ operator.toList ++ " ".toList) ++ quote value.display) :
    compare field operator value = .ok text ↔ filter.Written depth text := by
  rw [compare_eq_ok_iff, written_leaf_iff hm he, hv, hlayout, List.forall_mem_singleton]

theorem const_iff_written {written : Text} (hm : filter.members = []) (he : filter.isEmptyGroup = false)
    (hv : filter.values = []) (hlayout : filter.layout [] = written) :
    (Except.ok written : Except FilterError Text) = .ok text ↔ filter.Written depth text := by
  rw [written_leaf_iff hm he, hv, hlayout]
  constructor
  · rintro ⟨⟩
    exact ⟨by simp, rfl⟩
  · rintro ⟨-, rfl⟩
    rfl

theorem group_iff_written {operator : String} {filters : List (Filter F)} (hm : filter.members = filters)
    (hv : filter.values = []) (he : filter.isEmptyGroup = filters.isEmpty)
    (hlayout : ∀ texts, filter.layout texts = joined operator.toList (texts.map grouped)) :
    (do
      let texts ← Filter.writeMembers filters depth
      joinGroup operator texts) = .ok text ↔ filter.Written depth text := by
  unfold Filter.Written
  simp only [bind_eq_ok_iff, writeMembers_eq_ok_iff, joinGroup_eq_ok_iff, hm, hv, he, hlayout]
  constructor
  · rintro ⟨_, ⟨members, hmembers, rfl⟩, hne, rfl⟩
    refine ⟨?_, by simp, members, hmembers, rfl⟩
    rw [List.isEmpty_eq_false_iff]
    rintro rfl
    cases hmembers
    exact hne rfl
  · rintro ⟨hempty, -, members, hmembers, rfl⟩
    refine ⟨_, ⟨members, hmembers, rfl⟩, ?_, rfl⟩
    rintro hnil
    obtain rfl := List.map_eq_nil_iff.mp hnil
    cases hmembers
    cases hempty

/-- **A node is written** if it is not too deep nor an empty group, its values are finite and its members
are written. -/
theorem write_eq_ok_iff : filter.write depth = .ok text ↔ depth ≤ maxDepth ∧ filter.Written depth text := by
  unfold Filter.write
  by_cases hdepth : maxDepth < depth
  · rw [if_pos hdepth]
    constructor
    · rintro ⟨⟩
    · rintro ⟨hle, -⟩
      omega
  · rw [if_neg hdepth]
    refine Iff.trans ?_ (and_iff_right (Nat.not_lt.mp hdepth)).symm
    cases filter with
    | eq field value => exact compare_iff_written rfl rfl rfl rfl
    | ne field value => exact compare_iff_written rfl rfl rfl rfl
    | gt field value => exact compare_iff_written rfl rfl rfl rfl
    | gte field value => exact compare_iff_written rfl rfl rfl rfl
    | lt field value => exact compare_iff_written rfl rfl rfl rfl
    | lte field value => exact compare_iff_written rfl rfl rfl rfl
    | between field low high =>
      rw [written_leaf_iff rfl rfl]
      simp only [bind_eq_ok_iff, writeValue_eq_ok_iff, Filter.values, List.forall_mem_cons]
      constructor
      · rintro ⟨_, ⟨hlow, rfl⟩, _, ⟨hhigh, rfl⟩, ⟨⟩⟩
        exact ⟨⟨hlow, hhigh, by simp⟩, rfl⟩
      · rintro ⟨⟨hlow, hhigh, -⟩, rfl⟩
        exact ⟨_, ⟨hlow, rfl⟩, _, ⟨hhigh, rfl⟩, rfl⟩
    | in_ field values =>
      rw [written_leaf_iff rfl rfl]
      simp only [bind_eq_ok_iff, writeValues_eq_ok_iff]
      constructor
      · rintro ⟨_, ⟨hvalues, rfl⟩, ⟨⟩⟩
        exact ⟨hvalues, rfl⟩
      · rintro ⟨hvalues, rfl⟩
        exact ⟨_, ⟨hvalues, rfl⟩, rfl⟩
    | not inner =>
      simp only [bind_eq_ok_iff]
      constructor
      · rintro ⟨text, htext, ⟨⟩⟩
        refine ⟨rfl, by simp [Filter.values], [text], .cons htext .nil, ?_⟩
        simp [Filter.layout]
      · rintro ⟨-, -, _, hmembers, rfl⟩
        obtain ⟨text, _, htext, ⟨⟩, rfl⟩ := List.forall₂_cons_left_iff.mp hmembers
        exact ⟨text, htext, by simp [Filter.layout, pure, Except.pure]⟩
    | and filters => exact group_iff_written rfl rfl (by cases filters <;> rfl) fun _ => rfl
    | or filters => exact group_iff_written rfl rfl (by cases filters <;> rfl) fun _ => rfl
    | _ => exact const_iff_written rfl rfl rfl rfl

end Write

/-- What every node must be for a filter to be written. -/
def Filter.Renderable (depth : ℕ) (node : Filter F) : Prop :=
  depth ≤ maxDepth ∧ node.isEmptyGroup = false ∧ ∀ value ∈ node.values, value.isNonFinite = false

theorem exists_forall₂_iff {α β : Type} {R : α → β → Prop} {as : List α} :
    (∃ bs, List.Forall₂ R as bs) ↔ ∀ a ∈ as, ∃ b, R a b := by
  induction as with
  | nil => exact ⟨fun _ => by simp, fun _ => ⟨[], .nil⟩⟩
  | cons a as ih =>
    rw [List.forall_mem_cons, ← ih]
    constructor
    · rintro ⟨_, _ | ⟨hb, hbs⟩⟩
      exact ⟨⟨_, hb⟩, _, hbs⟩
    · rintro ⟨⟨b, hb⟩, bs, hbs⟩
      exact ⟨b :: bs, .cons hb hbs⟩

/-- **A filter is written iff every node is renderable.** -/
theorem exists_write_iff (filter : Filter F) (depth : ℕ) : (∃ text, filter.write depth = .ok text) ↔
    ∀ below node, filter.Node below node → node.Renderable (depth + below) := by
  induction filter using Filter.induction generalizing depth with
  | step filter ih =>
    have hmembers : (∃ texts, List.Forall₂ (fun member text => member.write (depth + 1) = .ok text)
        filter.members texts) ↔ ∀ member ∈ filter.members, ∀ below node, member.Node below node →
          node.Renderable (depth + (below + 1)) := by
      rw [exists_forall₂_iff]
      refine forall₂_congr fun member hmem => ?_
      rw [ih member hmem (depth + 1)]
      simp only [Nat.add_assoc, Nat.add_comm 1]
    rw [Filter.forall_node_iff, ← hmembers]
    constructor
    · rintro ⟨text, htext⟩
      obtain ⟨hdepth, hempty, hvalues, texts, htexts, -⟩ := write_eq_ok_iff.mp htext
      exact ⟨⟨hdepth, hempty, hvalues⟩, texts, htexts⟩
    · rintro ⟨⟨hdepth, hempty, hvalues⟩, texts, htexts⟩
      exact ⟨_, write_eq_ok_iff.mpr ⟨hdepth, hempty, hvalues, texts, htexts, rfl⟩⟩

/-! ### What is read -/

theorem readQuoted_escape (c : Char) (text : Text) :
    readQuoted (escape c ++ text) = (readQuoted text).map fun read => (c :: read.1, read.2) := by
  unfold escape
  by_cases hc : c = '"' ∨ c = '\\'
  · rw [if_pos hc]
    rcases hc with rfl | rfl
    · rfl
    · rfl
  · rw [if_neg hc, List.singleton_append]
    rw [not_or] at hc
    simp [readQuoted, hc.1, hc.2]

/-- **A quoted text reads back.** -/
theorem parseString_quote (text rest : Text) : parseString (quote text ++ rest) = some (text, rest) := by
  show readQuoted (text.flatMap escape ++ ['"'] ++ rest) = _
  induction text with
  | nil => rfl
  | cons c text ih =>
    rw [List.flatMap_cons, List.append_assoc, List.append_assoc, readQuoted_escape, ← List.append_assoc, ih]
    rfl

/-- Before any rest. -/
def Anywhere (_ : Text) : Prop := True

theorem readsAs_quote (text : Text) : ReadsAs parseString Anywhere (quote text) text :=
  fun rest _ => parseString_quote text rest

theorem quote_ne_nil (text : Text) : quote text ≠ [] := List.cons_ne_nil _ _

/-- A condition starts with its attribute. -/
theorem readsAs_condition {field tail : Text} {condition : Condition}
    (h : ∀ rest, (parseComparison field (tail ++ rest) <|> parseBetween field (tail ++ rest) <|>
      parseIn field (tail ++ rest) <|> parseKeyword " EXISTS" (.exists_ field) (tail ++ rest) <|>
      parseKeyword " IS NULL" (.isNull field) (tail ++ rest) <|>
      parseKeyword " IS EMPTY" (.isEmpty field) (tail ++ rest)) = some (condition, rest)) :
    ReadsAs parseCondition Anywhere (quote field ++ tail) condition := by
  intro rest _
  unfold parseCondition
  rw [List.append_assoc, parseString_quote]
  exact h rest

theorem parseComparison_eq {field value text rest : Text} {comparison : Comparison}
    (h : parseOperator text = some (comparison, quote value ++ rest)) :
    parseComparison field text = some (.compare comparison field value, rest) := by
  unfold parseComparison
  simp only [h, Option.bind_eq_bind, Option.bind_some, parseString_quote]
  rfl

theorem parseBetween_eq (field low high rest : Text) :
    parseBetween field (" ".toList ++ (quote low ++ (" TO ".toList ++ (quote high ++ rest)))) =
      some (.between field low high, rest) := by
  unfold parseBetween
  simp only [strip_append, Option.bind_eq_bind, Option.bind_some, parseString_quote]
  rfl

theorem parseValues_eq (values : List Text) (rest : Text) :
    parseValues (joined ", ".toList (values.map quote) ++ ("]".toList ++ rest)) = some (values, rest) := by
  unfold parseValues
  cases values with
  | nil => rfl
  | cons value values =>
    have hquotes : List.Forall₂ (ReadsAs parseString Anywhere) ((value :: values).map quote)
        (value :: values) := by
      rw [List.forall₂_map_left_iff, List.forall₂_same]
      exact fun text _ => readsAs_quote text
    have hread : sepBy ", ".toList parseString _ _ = some (value :: values, "]".toList ++ rest) :=
      sepBy_joined (fun _ => trivial) hquotes (by simp) (by simp [quote_ne_nil]) trivial rfl
    have hnone : strip "]".toList (joined ", ".toList ((value :: values).map quote) ++
        ("]".toList ++ rest)) = none := rfl
    simp only [hnone, hread, Option.bind_eq_bind, Option.bind_some, strip_append]
    rfl

theorem parseIn_eq (field : Text) (values : List Text) (rest : Text) :
    parseIn field (" IN [".toList ++ (joined ", ".toList (values.map quote) ++ ("]".toList ++ rest))) =
      some (.in_ field values, rest) := by
  unfold parseIn
  simp only [strip_append, Option.bind_eq_bind, Option.bind_some, parseValues_eq]
  rfl

/-- **A condition without members reads back**, before any rest. -/
theorem readsAs_leaf {filter : Filter F} (hm : filter.members = []) (he : filter.isEmptyGroup = false)
    (hr : filter.isRaw = false) : ReadsAs parseCondition Anywhere (filter.layout []) filter.condition := by
  have hcompare : ∀ {field value tail : Text} {comparison : Comparison},
      (∀ rest, parseOperator (tail ++ rest) = some (comparison, rest)) →
        ReadsAs parseCondition Anywhere (quote field ++ tail ++ quote value)
          (.compare comparison field value) := by
    intro field value tail comparison hop
    rw [List.append_assoc]
    refine readsAs_condition fun rest => ?_
    rw [List.append_assoc, parseComparison_eq (hop _)]
    rfl
  cases filter with
  | eq field value => exact hcompare fun _ => rfl
  | ne field value => exact hcompare fun _ => rfl
  | gt field value => exact hcompare fun _ => rfl
  | gte field value => exact hcompare fun _ => rfl
  | lt field value => exact hcompare fun _ => rfl
  | lte field value => exact hcompare fun _ => rfl
  | between field low high =>
    unfold Filter.layout
    simp only [List.append_assoc]
    refine readsAs_condition fun rest => ?_
    simp only [List.append_assoc]
    rw [parseBetween_eq]
    rfl
  | in_ field values =>
    unfold Filter.layout
    simp only [List.append_assoc]
    refine readsAs_condition fun rest => ?_
    simp only [List.append_assoc]
    rw [← Function.comp_def quote Value.display, ← List.map_map, parseIn_eq]
    rfl
  | exists_ field => exact readsAs_condition fun rest => rfl
  | isNull field => exact readsAs_condition fun rest => rfl
  | isEmpty field => exact readsAs_condition fun rest => rfl
  | not inner => cases hm
  | and filters =>
    obtain rfl : filters = [] := hm
    cases he
  | or filters =>
    obtain rfl : filters = [] := hm
    cases he
  | dangerouslyRaw expression => cases hr

theorem layout_leaf {filter : Filter F} (hm : filter.members = []) (he : filter.isEmptyGroup = false)
    (hr : filter.isRaw = false) : ∃ tail, filter.layout [] = '"' :: tail := by
  cases filter with
  | not inner => cases hm
  | and filters =>
    obtain rfl : filters = [] := hm
    cases he
  | or filters =>
    obtain rfl : filters = [] := hm
    cases he
  | dangerouslyRaw expression => cases hr
  | _ => exact ⟨_, rfl⟩

/-! ### Expressions -/

/-- What can follow a whole expression: nothing or the end of its parentheses. -/
def Stops (rest : Text) : Prop := rest = [] ∨ ∃ text, rest = ')' :: text

/-- What can follow the operands of `AND`. -/
def NoAnd (rest : Text) : Prop := strip " AND ".toList rest = none

section Expressions

variable {expression : Parser Condition} {text : Text} {condition : Condition}

/-- Operands of `AND`. -/
theorem readsAs_and {texts : List Text} {conditions : List Condition}
    (h : List.Forall₂ (ReadsAs (parseOperand expression) Anywhere) texts conditions) (hne : texts ≠ [])
    (htexts : ∀ text ∈ texts, text ≠ []) :
    ReadsAs (parseAnd expression) NoAnd (joined " AND ".toList texts) (group .and conditions) := by
  intro rest hrest
  have hread := sepBy_joined (fun _ => trivial) h hne htexts trivial hrest
  unfold parseAnd
  simp only [hread, Option.bind_eq_bind, Option.bind_some]
  rfl

theorem Stops.noAnd {rest : Text} (h : Stops rest) : NoAnd rest := by
  rcases h with rfl | ⟨text, rfl⟩
  · rfl
  · rfl

/-- Operands of `OR`. -/
theorem readsAs_or {texts : List Text} {conditions : List Condition}
    (h : List.Forall₂ (ReadsAs (parseAnd expression) NoAnd) texts conditions) (hne : texts ≠ [])
    (htexts : ∀ text ∈ texts, text ≠ []) :
    ReadsAs (parseOr expression) Stops (joined " OR ".toList texts) (group .or conditions) := by
  intro rest hrest
  have hnone : strip " OR ".toList rest = none := by
    rcases hrest with rfl | ⟨text, rfl⟩
    · rfl
    · rfl
  have hread := sepBy_joined (fun _ => rfl) h hne htexts hrest.noAnd hnone
  unfold parseOr
  simp only [hread, Option.bind_eq_bind, Option.bind_some]
  rfl

/-- One operand. -/
theorem readsAs_operand (h : ReadsAs (parseOperand expression) Anywhere text condition) (hne : text ≠ []) :
    ReadsAs (parseAnd expression) NoAnd text condition := by
  have hand := readsAs_and (.cons h .nil) (by simp) (by simpa using hne)
  rwa [joined_singleton] at hand

theorem readsAs_conjunction (h : ReadsAs (parseAnd expression) NoAnd text condition) (hne : text ≠ []) :
    ReadsAs (parseOr expression) Stops text condition := by
  have hor := readsAs_or (.cons h .nil) (by simp) (by simpa using hne)
  rwa [joined_singleton] at hor

theorem parseNot_of_primary {fuel : ℕ} (hfuel : 0 < fuel) (hnot : strip "NOT ".toList text = none) :
    parseNot expression fuel text = parsePrimary expression text := by
  obtain ⟨fuel, rfl⟩ : ∃ n, fuel = n + 1 := ⟨fuel - 1, by omega⟩
  simp only [parseNot, hnot]

theorem readsAs_quoted {tail : Text} (h : ReadsAs parseCondition Anywhere ('"' :: tail) condition) :
    ReadsAs (parseOperand expression) Anywhere ('"' :: tail) condition := by
  intro rest hrest
  have hlen : 0 < ('"' :: tail ++ rest).length := by simp
  unfold parseOperand
  rw [parseNot_of_primary hlen rfl]
  exact h rest hrest

/-- An expression in parentheses, whatever follows. -/
theorem parsePrimary_grouped (h : ReadsAs expression Stops text condition) (rest : Text) :
    parsePrimary expression (grouped text ++ rest) = some (condition, rest) := by
  have hread : expression (text ++ (")".toList ++ rest)) = some (condition, ")".toList ++ rest) :=
    h _ (Or.inr ⟨rest, rfl⟩)
  have hsplit : grouped text ++ rest = '(' :: (text ++ (")".toList ++ rest)) := by
    unfold grouped
    rw [List.append_assoc, List.append_assoc]
    rfl
  rw [hsplit, parsePrimary]
  simp only [hread, Option.bind_eq_bind, Option.bind_some, strip_append]
  rfl

theorem parseNot_grouped (h : ReadsAs expression Stops text condition) {fuel : ℕ} (hfuel : 0 < fuel)
    (rest : Text) : parseNot expression fuel (grouped text ++ rest) = some (condition, rest) := by
  rw [parseNot_of_primary hfuel rfl]
  exact parsePrimary_grouped h rest

theorem readsAs_grouped (h : ReadsAs expression Stops text condition) :
    ReadsAs (parseOperand expression) Anywhere (grouped text) condition :=
  fun rest _ => parseNot_grouped h (by simp [grouped]) rest

theorem readsAs_not (h : ReadsAs expression Stops text condition) :
    ReadsAs (parseOperand expression) Anywhere ("NOT ".toList ++ grouped text) (.not condition) := by
  intro rest _
  unfold parseOperand
  rw [List.append_assoc]
  obtain ⟨fuel, hfuel⟩ : ∃ n, ("NOT ".toList ++ (grouped text ++ rest)).length = n + 1 + 1 := ⟨_, rfl⟩
  rw [hfuel, parseNot, strip_append]
  simp only [parseNot_grouped h (Nat.succ_pos fuel), Option.bind_eq_bind, Option.bind_some]
  rfl

end Expressions

theorem length_grouped (text : Text) : (grouped text).length = text.length + 2 := by simp [grouped]

theorem grouped_ne_nil (text : Text) : grouped text ≠ [] := List.cons_ne_nil _ _

/-- The members of a group, in parentheses, are operands. -/
theorem readsAs_members {filters : List (Filter F)} {texts : List Text} {depth : ℕ}
    {expression : Parser Condition}
    (h : List.Forall₂ (fun filter text => filter.write depth = .ok text) filters texts)
    (ih : ∀ filter ∈ filters, ∀ text ∈ texts, filter.write depth = .ok text →
      ReadsAs expression Stops text filter.condition) :
    List.Forall₂ (ReadsAs (parseOperand expression) Anywhere) (texts.map grouped)
      (Filter.conditions filters) := by
  induction h with
  | nil => exact .nil
  | @cons filter text filters texts hwrite _ ih' =>
    refine .cons (readsAs_grouped (ih filter (by simp) text (by simp) hwrite)) (ih' ?_)
    exact fun filter hf text ht => ih filter (by simp [hf]) text (by simp [ht])

theorem readsAs_expression_leaf {filter : Filter F} {fuel : ℕ} (hm : filter.members = [])
    (he : filter.isEmptyGroup = false) (hr : filter.isRaw = false) (hfuel : (filter.layout []).length ≤ fuel) :
    ReadsAs (parseExpression fuel) Stops (filter.layout []) filter.condition := by
  obtain ⟨tail, htail⟩ := layout_leaf hm he hr
  have hread := readsAs_leaf hm he hr
  rw [htail] at hread hfuel ⊢
  obtain ⟨m, rfl⟩ : ∃ m, fuel = m + 1 := ⟨fuel - 1, by rw [List.length_cons] at hfuel; omega⟩
  exact readsAs_conjunction (readsAs_operand (readsAs_quoted hread) (by simp)) (by simp)

/-- The parentheses of a group leave fuel for its members. -/
theorem exists_fuel {separator : Text} {texts : List Text} {fuel : ℕ} (hne : texts ≠ [])
    (hfuel : (joined separator (texts.map grouped)).length ≤ fuel) :
    ∃ m, fuel = m + 1 ∧ ∀ text ∈ texts, text.length ≤ m := by
  have hlen : ∀ text ∈ texts, text.length + 2 ≤ fuel := by
    intro text ht
    rw [← length_grouped]
    exact Nat.le_trans (length_le_joined separator (List.mem_map_of_mem ht)) hfuel
  obtain ⟨first, hfirst⟩ := List.exists_mem_of_ne_nil texts hne
  have := hlen first hfirst
  refine ⟨fuel - 1, by omega, fun text ht => ?_⟩
  have := hlen text ht
  omega

/-- **What is written reads back**, if the fuel allows parentheses as deep as the text is long. -/
theorem readsAs_write (filter : Filter F) {depth fuel : ℕ} {text : Text}
    (hraw : ∀ below node, filter.Node below node → node.isRaw = false)
    (h : filter.write depth = .ok text) (hfuel : text.length ≤ fuel) :
    ReadsAs (parseExpression fuel) Stops text filter.condition := by
  induction filter using Filter.induction generalizing depth fuel text with
  | step filter ih =>
    rw [Filter.forall_node_iff] at hraw
    obtain ⟨hroot, hrest⟩ := hraw
    obtain ⟨-, hempty, -, texts, htexts, rfl⟩ := write_eq_ok_iff.mp h
    have hread : ∀ {m}, (∀ text ∈ texts, text.length ≤ m) → ∀ member ∈ filter.members, ∀ text ∈ texts,
        member.write (depth + 1) = .ok text → ReadsAs (parseExpression m) Stops text member.condition :=
      fun hm member hmem text ht hwrite => ih member hmem (hrest member hmem) hwrite (hm text ht)
    have hnil : filter.members ≠ [] → texts ≠ [] := by
      rintro hm rfl
      exact hm (List.forall₂_nil_right_iff.mp htexts)
    have hgrouped : ∀ text ∈ texts.map grouped, text ≠ [] := by simp [grouped_ne_nil]
    cases filter with
    | not inner =>
      obtain ⟨text, _, hwrite, ⟨⟩, rfl⟩ := List.forall₂_cons_left_iff.mp htexts
      have hlayout : (Filter.not inner).layout [text] = "NOT ".toList ++ grouped text := by
        simp [Filter.layout]
      rw [hlayout] at hfuel ⊢
      obtain ⟨m, rfl, hlen⟩ : ∃ m, fuel = m + 1 ∧ text.length ≤ m := by
        rw [List.length_append, length_grouped] at hfuel
        exact ⟨fuel - 1, by omega, by omega⟩
      have hinner := hread (by simpa using hlen) inner (by simp [Filter.members]) text (by simp) hwrite
      exact readsAs_conjunction (readsAs_operand (readsAs_not hinner) (by simp)) (by simp)
    | and filters =>
      have hm : texts ≠ [] := hnil (by rintro rfl; cases hempty)
      obtain ⟨m, rfl, hlen⟩ := exists_fuel hm hfuel
      have hmembers : texts.map grouped ≠ [] := by simpa using hm
      exact readsAs_conjunction (readsAs_and (readsAs_members htexts (hread hlen)) hmembers hgrouped)
        (joined_ne_nil _ hmembers hgrouped)
    | or filters =>
      have hm : texts ≠ [] := hnil (by rintro rfl; cases hempty)
      obtain ⟨m, rfl, hlen⟩ := exists_fuel hm hfuel
      have hors : List.Forall₂ (ReadsAs (parseAnd (parseExpression m)) NoAnd) (texts.map grouped)
          (Filter.conditions filters) := by
        refine ((List.forall₂_and_left _ _).mpr ⟨hgrouped, readsAs_members htexts (hread hlen)⟩).imp ?_
        exact fun text condition h => readsAs_operand h.2 h.1
      exact readsAs_or hors (by simpa using hm) hgrouped
    | _ =>
      obtain rfl := List.forall₂_nil_left_iff.mp htexts
      exact readsAs_expression_leaf rfl hempty hroot hfuel

/-- **Rendering fails only for an empty group, a float that is not finite or a node that is too deep, and
what is rendered parses to the tree of the filter**, with every name and value as it is. -/
theorem render_reads_back (filter : Filter F)
    (hraw : ∀ depth node, filter.Node depth node → node.isRaw = false) :
    ((∃ text, filter.render = .ok text) ↔ ∀ depth node, filter.Node depth node →
      depth ≤ maxDepth ∧ node.isEmptyGroup = false ∧ ∀ value ∈ node.values, value.isNonFinite = false) ∧
    ∀ text, filter.render = .ok text → parse text = some filter.condition := by
  constructor
  · refine (exists_write_iff filter 0).trans ?_
    simp only [Nat.zero_add, Filter.Renderable]
  · intro text htext
    have hread := readsAs_write filter hraw htext (Nat.le_refl _) [] (Or.inl rfl)
    rw [List.append_nil] at hread
    unfold parse
    rw [hread]

/-! ### A filter of a blog -/

/-- A field that is called as it is. -/
instance : Field Text := ⟨id⟩

/-- Texts that look like the end of a quoted one, and a group of one member. -/
def tricky : Filter Text :=
  .and [.or [.eq "title".toList (.text "a\\\" OR \"b".toList)],
    .not (.in_ "author".toList [.int (-7), .text "\\".toList])]

theorem tricky_not_raw : ∀ depth node, tricky.Node depth node → node.isRaw = false := by
  have hstep : ∀ filter : Filter Text, filter.isRaw = false → (∀ member ∈ filter.members, ∀ depth node,
      member.Node depth node → node.isRaw = false) → ∀ depth node, filter.Node depth node →
        node.isRaw = false := fun _ hroot hmembers => Filter.forall_node_iff.mpr ⟨hroot, hmembers⟩
  refine hstep _ rfl (List.forall_mem_cons.mpr ⟨?_, List.forall_mem_singleton.mpr ?_⟩)
  · exact hstep _ rfl (List.forall_mem_singleton.mpr (hstep _ rfl (List.forall_mem_nil _)))
  · exact hstep _ rfl (List.forall_mem_singleton.mpr (hstep _ rfl (List.forall_mem_nil _)))

theorem render_reads_back_tricky : ∃ text, tricky.render = .ok text ∧ parse text = some
    (.and [.compare .eq "title".toList "a\\\" OR \"b".toList,
      .not (.in_ "author".toList ["-7".toList, "\\".toList])]) := by
  obtain ⟨-, h⟩ := render_reads_back tricky tricky_not_raw
  exact ⟨_, rfl, h _ rfl⟩

end Wakuwaku.Entity.Meilisearch
