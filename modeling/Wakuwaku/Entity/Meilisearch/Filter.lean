import Wakuwaku.Parsing

/-! # Filters

A filter is a tree of conditions on the fields of an index. Rendering one writes it as a Meilisearch
filter expression: every attribute and value is quoted, each member of a group and the operand of a
negation is in parentheses. Texts are lists of their characters. -/

namespace Wakuwaku.Entity.Meilisearch

/-! ### Values and filters -/

/-- An attribute of an index. -/
class Field (F : Type) where
  name : F → Text

/-- The characters of a printed number. -/
def isNumberChar (c : Char) : Bool := c.isDigit || c = '-' || c = '.'

/-- A finite float as it prints: digits, sign and point. -/
structure Finite where
  text : Text
  plain : ∀ c ∈ text, isNumberChar c = true

/-- A value compared against an attribute. -/
inductive Value where
  | bool (value : Bool)
  | int (value : Int)
  | uint (value : ℕ)
  /-- A float, `none` if it is NaN or infinite. -/
  | float (value : Option Finite)
  | text (value : Text)

/-- A condition on the documents of an index whose filterable fields are `F`. -/
inductive Filter (F : Type) where
  | eq (field : F) (value : Value)
  | ne (field : F) (value : Value)
  | gt (field : F) (value : Value)
  | gte (field : F) (value : Value)
  | lt (field : F) (value : Value)
  | lte (field : F) (value : Value)
  | between (field : F) (low high : Value)
  | in_ (field : F) (values : List Value)
  | exists_ (field : F)
  | isNull (field : F)
  | isEmpty (field : F)
  | not (filter : Filter F)
  | and (filters : List (Filter F))
  | or (filters : List (Filter F))
  | dangerouslyRaw (expression : Text)

inductive FilterError where
  | emptyGroup
  | nonFiniteNumber
  | tooDeep
  deriving DecidableEq, Repr

/-- `MAX_DEPTH`: deepest nesting of groups and negations a filter may have when rendered. -/
def maxDepth : ℕ := 64

/-! ### Rendering -/

/-- What precedes a quotation mark or a backslash in quotes. -/
def escape (c : Char) : Text := if c = '"' ∨ c = '\\' then ['\\', c] else [c]

/-- `text` in double quotes. -/
def quote (text : Text) : Text := '"' :: text.flatMap escape ++ ['"']

/-- A number in quotes. -/
def quoteDisplay (value : Text) : Text := '"' :: value ++ ['"']

/-- How an integer prints. -/
def displayInt : Int → Text
  | .ofNat n => Nat.toDigits 10 n
  | .negSucc n => '-' :: Nat.toDigits 10 (n + 1)

def writeValue : Value → Except FilterError Text
  | .bool value => .ok (quote (if value then "true".toList else "false".toList))
  | .int value => .ok (quoteDisplay (displayInt value))
  | .uint value => .ok (quoteDisplay (Nat.toDigits 10 value))
  | .float (some value) => .ok (quoteDisplay value.text)
  | .float none => .error .nonFiniteNumber
  | .text value => .ok (quote value)

/-- `write_value`, for each value. -/
def writeValues : List Value → Except FilterError (List Text)
  | [] => return []
  | value :: values => do
    let value ← writeValue value
    let values ← writeValues values
    return value :: values

variable {F : Type} [Field F]

def compare (field : F) (operator : String) (value : Value) : Except FilterError Text := do
  let value ← writeValue value
  return quote (Field.name field) ++ " ".toList ++ operator.toList ++ " ".toList ++ value

def postfixed (field : F) (operator : String) : Text := quote (Field.name field) ++ operator.toList

/-- A filter in parentheses. -/
def grouped (text : Text) : Text := "(".toList ++ text ++ ")".toList

/-- The members of a group with the operator between them. -/
def joinGroup (operator : String) : List Text → Except FilterError Text
  | [] => .error .emptyGroup
  | texts => .ok (joined operator.toList texts)

mutual

/-- `Filter::write`: what it adds to the text. -/
def Filter.write : Filter F → ℕ → Except FilterError Text
  | filter, depth =>
    if maxDepth < depth then .error .tooDeep
    else match filter with
      | .eq field value => compare field "=" value
      | .ne field value => compare field "!=" value
      | .gt field value => compare field ">" value
      | .gte field value => compare field ">=" value
      | .lt field value => compare field "<" value
      | .lte field value => compare field "<=" value
      | .between field low high => do
        let low ← writeValue low
        let high ← writeValue high
        return quote (Field.name field) ++ " ".toList ++ low ++ " TO ".toList ++ high
      | .in_ field values => do
        let values ← writeValues values
        return quote (Field.name field) ++ " IN [".toList ++ joined ", ".toList values ++ "]".toList
      | .exists_ field => .ok (postfixed field " EXISTS")
      | .isNull field => .ok (postfixed field " IS NULL")
      | .isEmpty field => .ok (postfixed field " IS EMPTY")
      | .not filter => do
        let text ← filter.write (depth + 1)
        return "NOT ".toList ++ grouped text
      | .and filters => do
        let texts ← Filter.writeMembers filters depth
        joinGroup " AND " texts
      | .or filters => do
        let texts ← Filter.writeMembers filters depth
        joinGroup " OR " texts
      | .dangerouslyRaw expression => .ok expression

/-- `write_grouped`, for each member. -/
def Filter.writeMembers : List (Filter F) → ℕ → Except FilterError (List Text)
  | [], _ => return []
  | filter :: filters, depth => do
    let text ← filter.write (depth + 1)
    let texts ← Filter.writeMembers filters depth
    return grouped text :: texts

end

/-- The filter as a Meilisearch filter expression. -/
def Filter.render (filter : Filter F) : Except FilterError Text := filter.write 0

/-- What an error says. -/
def FilterError.display : FilterError → String
  | .emptyGroup => "a filter group has no conditions"
  | .nonFiniteNumber => "a filter value is NaN or infinite"
  | .tooDeep => "the filter is nested deeper than " ++ toString maxDepth ++ " levels"

/-! ### Sorts -/

/-- Sort direction. -/
inductive Order where
  | asc
  | desc
  deriving DecidableEq, Repr

/-- `Sort`: a sort on a field. -/
structure SortBy (F : Type) where
  field : F
  order : Order

/-- The name of a direction. -/
def Order.name : Order → Text
  | .asc => "asc".toList
  | .desc => "desc".toList

/-- The sort as Meilisearch expects it. -/
def SortBy.render (sort : SortBy F) : Text := Field.name sort.field ++ ":".toList ++ sort.order.name

end Wakuwaku.Entity.Meilisearch
