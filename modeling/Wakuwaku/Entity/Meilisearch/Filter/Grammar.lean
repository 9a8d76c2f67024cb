import Wakuwaku.Entity.Meilisearch.Filter

/-! # The grammar of filter expressions

A reference parser of the expressions that filters render to: comparisons, `TO`, `IN`, `EXISTS`,
`IS NULL` and `IS EMPTY` on quoted texts, `NOT`, `AND`, `OR` and parentheses, where `NOT` binds tighter
than `AND` and `AND` tighter than `OR`. -/

namespace Wakuwaku.Entity.Meilisearch

inductive Comparison where
  | eq | ne | gt | gte | lt | lte
  deriving DecidableEq, Repr

def Comparison.symbol : Comparison → String
  | .eq => "="
  | .ne => "!="
  | .gt => ">"
  | .gte => ">="
  | .lt => "<"
  | .lte => "<="

/-- What an expression says: a tree of conditions on attributes, with its texts. -/
inductive Condition where
  | compare (comparison : Comparison) (field value : Text)
  | between (field low high : Text)
  | in_ (field : Text) (values : List Text)
  | exists_ (field : Text)
  | isNull (field : Text)
  | isEmpty (field : Text)
  | not (condition : Condition)
  | and (conditions : List Condition)
  | or (conditions : List Condition)

/-- A group: one member counts as the member. -/
def group (make : List Condition → Condition) : List Condition → Condition
  | [condition] => condition
  | conditions => make conditions

/-! ### The parser -/

/-- The text up to the first quotation mark that no backslash escapes, unescaped. -/
def readQuoted : Parser Text
  | [] => none
  | '"' :: rest => some ([], rest)
  | '\\' :: '"' :: rest => (readQuoted rest).map fun read => ('"' :: read.1, read.2)
  | '\\' :: '\\' :: rest => (readQuoted rest).map fun read => ('\\' :: read.1, read.2)
  | c :: rest => (readQuoted rest).map fun read => (c :: read.1, read.2)

def parseString : Parser Text
  | '"' :: rest => readQuoted rest
  | _ => none

def parseOperator (text : Text) : Option (Comparison × Text) :=
  [Comparison.eq, .ne, .gte, .lte, .gt, .lt].findSome? fun comparison =>
    (strip (" ".toList ++ comparison.symbol.toList ++ " ".toList) text).map fun rest => (comparison, rest)

def parseComparison (field : Text) : Parser Condition := fun text => do
  let (comparison, rest) ← parseOperator text
  let (value, rest) ← parseString rest
  return (.compare comparison field value, rest)

def parseBetween (field : Text) : Parser Condition := fun text => do
  let rest ← strip " ".toList text
  let (low, rest) ← parseString rest
  let rest ← strip " TO ".toList rest
  let (high, rest) ← parseString rest
  return (.between field low high, rest)

def parseValues : Parser (List Text) := fun text =>
  match strip "]".toList text with
  | some rest => some ([], rest)
  | none => do
    let (values, rest) ← sepBy ", ".toList parseString text.length text
    let rest ← strip "]".toList rest
    return (values, rest)

def parseIn (field : Text) : Parser Condition := fun text => do
  let rest ← strip " IN [".toList text
  let (values, rest) ← parseValues rest
  return (.in_ field values, rest)

/-- A condition that ends with a keyword. -/
def parseKeyword (word : String) (condition : Condition) : Parser Condition := fun text =>
  (strip word.toList text).map fun rest => (condition, rest)

def parseCondition : Parser Condition := fun text => do
  let (field, rest) ← parseString text
  parseComparison field rest <|> parseBetween field rest <|> parseIn field rest <|>
    parseKeyword " EXISTS" (.exists_ field) rest <|> parseKeyword " IS NULL" (.isNull field) rest <|>
    parseKeyword " IS EMPTY" (.isEmpty field) rest

/-- An expression in parentheses, or a condition. -/
def parsePrimary (expression : Parser Condition) : Parser Condition
  | '(' :: rest => do
    let (condition, rest) ← expression rest
    let rest ← strip ")".toList rest
    return (condition, rest)
  | text => parseCondition text

def parseNot (expression : Parser Condition) : ℕ → Parser Condition
  | 0, _ => none
  | fuel + 1, text =>
    match strip "NOT ".toList text with
    | some rest => do
      let (condition, rest) ← parseNot expression fuel rest
      return (.not condition, rest)
    | none => parsePrimary expression text

/-- An operand of `AND`, after as many `NOT` as the text can hold. -/
def parseOperand (expression : Parser Condition) : Parser Condition :=
  fun text => parseNot expression text.length text

def parseAnd (expression : Parser Condition) : Parser Condition := fun text => do
  let (conditions, rest) ← sepBy " AND ".toList (parseOperand expression) text.length text
  return (group .and conditions, rest)

def parseOr (expression : Parser Condition) : Parser Condition := fun text => do
  let (conditions, rest) ← sepBy " OR ".toList (parseAnd expression) text.length text
  return (group .or conditions, rest)

/-- An expression with at most `fuel` parentheses one in another. -/
def parseExpression : ℕ → Parser Condition
  | 0, _ => none
  | fuel + 1, text => parseOr (parseExpression fuel) text

/-- What a whole text says. -/
def parse (text : Text) : Option Condition :=
  match parseExpression text.length text with
  | some (condition, []) => some condition
  | _ => none

/-! ### What filters say -/

/-- The text of a value. -/
def Value.display : Value → Text
  | .bool value => if value then "true".toList else "false".toList
  | .int value => displayInt value
  | .uint value => Nat.toDigits 10 value
  | .float (some value) => value.text
  | .float none => []
  | .text value => value

variable {F : Type} [Field F]

mutual

/-- The tree of a filter, with the names of its fields and the texts of its values. -/
def Filter.condition : Filter F → Condition
  | .eq field value => .compare .eq (Field.name field) value.display
  | .ne field value => .compare .ne (Field.name field) value.display
  | .gt field value => .compare .gt (Field.name field) value.display
  | .gte field value => .compare .gte (Field.name field) value.display
  | .lt field value => .compare .lt (Field.name field) value.display
  | .lte field value => .compare .lte (Field.name field) value.display
  | .between field low high => .between (Field.name field) low.display high.display
  | .in_ field values => .in_ (Field.name field) (values.map Value.display)
  | .exists_ field => .exists_ (Field.name field)
  | .isNull field => .isNull (Field.name field)
  | .isEmpty field => .isEmpty (Field.name field)
  | .not filter => .not filter.condition
  | .and filters => group .and (Filter.conditions filters)
  | .or filters => group .or (Filter.conditions filters)
  | .dangerouslyRaw _ => .or []

def Filter.conditions : List (Filter F) → List Condition
  | [] => []
  | filter :: filters => filter.condition :: Filter.conditions filters

end

/-! ### The nodes of a filter -/

/-- The conditions that a group or a negation is made of. -/
def Filter.members : Filter F → List (Filter F)
  | .not filter => [filter]
  | .and filters | .or filters => filters
  | _ => []

/-- The nodes of a filter and how deep each is nested. -/
inductive Filter.Node : Filter F → ℕ → Filter F → Prop
  | root (filter : Filter F) : Node filter 0 filter
  | member {filter member depth node} (hmem : member ∈ filter.members) (h : Node member depth node) :
    Node filter (depth + 1) node

/-- The values of a node. -/
def Filter.values : Filter F → List Value
  | .eq _ value | .ne _ value | .gt _ value | .gte _ value | .lt _ value | .lte _ value => [value]
  | .between _ low high => [low, high]
  | .in_ _ values => values
  | _ => []

/-- Whether a node is a group without conditions. -/
def Filter.isEmptyGroup : Filter F → Bool
  | .and [] | .or [] => true
  | _ => false

def Filter.isRaw : Filter F → Bool
  | .dangerouslyRaw _ => true
  | _ => false

/-- Whether a value is a NaN or infinite float. -/
def Value.isNonFinite : Value → Bool
  | .float none => true
  | _ => false

end Wakuwaku.Entity.Meilisearch
