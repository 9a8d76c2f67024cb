import Wakuwaku.Entity.Meilisearch.Filter.Json
import Wakuwaku.Entity.Meilisearch.Write

/-! # Searches under a scope

A search runs a client's request on the documents that a scope set by the server selects. The scope and the
filter of the request are sent as two expressions, each read by itself, so the request selects among the
documents in scope, whatever its filter is. -/

namespace Wakuwaku.Entity.Meilisearch

open Wakuwaku.Meilisearch

/-! ### Requests -/

/-- `DEFAULT_HITS_PER_PAGE`: page size used when a request doesn't set one. -/
def defaultHitsPerPage : ℕ := 20

/-- `DEFAULT_MAX_HITS_PER_PAGE`: largest page size a search allows unless told otherwise. -/
def defaultMaxHitsPerPage : ℕ := 100

/-- What a client may ask of a search on an index with the filterable fields `F` and the sortable `S`. -/
structure SearchRequest (F S : Type) where
  q : Option Text
  filter : Option (Filter F)
  sort : List (SortBy S)
  facets : List F
  page : Option ℕ
  hitsPerPage : Option ℕ

/-- A request for every document in scope, first page. -/
def SearchRequest.new {F S : Type} : SearchRequest F S := ⟨none, none, [], [], none, none⟩

/-! ### Requests as JSON -/

/-- The fields of a record, by name or in order. A field stands only once, and an unknown one is refused if
the record says so. -/
def record (names : List String) (denyUnknown : Bool) : Json → Option (String → Option Json)
  | .object entries =>
    let known := entries.filter fun e => e.1 ∈ names
    if (denyUnknown = true → known.length = entries.length) ∧ (known.map Prod.fst).Nodup then
      some fun name => known.lookup name
    else none
  | .array elements =>
    if elements.length ≤ names.length then some fun name => (names.zip elements).lookup name else none
  | _ => none

/-- A field that may be absent or `null`. -/
def readOption {α : Type} (read : Json → Option α) : Option Json → Option (Option α)
  | none | some .null => some none
  | some json => (read json).map some

/-- A list that may be absent. -/
def readList {α : Type} (read : Json → Option α) : Option Json → Option (List α)
  | none => some []
  | some (.array elements) => elements.mapM read
  | some _ => none

def readText : Json → Option Text
  | .string text => some text
  | _ => none

def readSize : Json → Option ℕ
  | .integer value => if 0 ≤ value ∧ value < 2 ^ 64 then some value.toNat else none
  | _ => none

def Order.ofName (name : Text) : Option Order :=
  if name = "asc".toList then some .asc else if name = "desc".toList then some .desc else none

def Order.ofJson : Json → Option Order
  | .string name => Order.ofName name
  | .object [(name, .null)] => Order.ofName name.toList
  | _ => none

/-- The order defaults to ascending. -/
def readOrder : Option Json → Option Order
  | none => some .asc
  | some json => Order.ofJson json

section Json

variable {F S : Type} [Serial F] [Serial S]

def SortBy.toJson (sort : SortBy F) : Json :=
  .object [("field", Serial.toJson sort.field), ("order", .string sort.order.name)]

def SortBy.ofJson (json : Json) : Option (SortBy F) := do
  let fields ← record ["field", "order"] false json
  let field ← (fields "field").bind Serial.ofJson
  let order ← readOrder (fields "order")
  return ⟨field, order⟩

def SearchRequest.toJson (request : SearchRequest F S) : Option Json := do
  let filter ← request.filter.elim (some .null) Filter.toJson
  return .object [
    ("q", request.q.elim .null .string),
    ("filter", filter),
    ("sort", .array (request.sort.map SortBy.toJson)),
    ("facets", .array (request.facets.map Serial.toJson)),
    ("page", request.page.elim .null fun n => .integer n),
    ("hitsPerPage", request.hitsPerPage.elim .null fun n => .integer n)]

def SearchRequest.ofJson (floats : Finite → Option Finite) (json : Json) : Option (SearchRequest F S) := do
  let fields ← record ["q", "filter", "sort", "facets", "page", "hitsPerPage"] true json
  let q ← readOption readText (fields "q")
  let filter ← readOption (Filter.ofJson floats) (fields "filter")
  let sort ← readList SortBy.ofJson (fields "sort")
  let facets ← readList Serial.ofJson (fields "facets")
  let page ← readOption readSize (fields "page")
  let hitsPerPage ← readOption readSize (fields "hitsPerPage")
  return ⟨q, filter, sort, facets, page, hitsPerPage⟩

theorem readOption_eq_some {α : Type} {read : Json → Option α} {json : Option Json} {a : α}
    (h : readOption read json = some (some a)) : ∃ json, read json = some a := by
  unfold readOption at h
  split at h
  · cases h
  · cases h
  · obtain ⟨b, hb, hba⟩ := Option.map_eq_some_iff.mp h
    obtain rfl := Option.some.inj hba
    exact ⟨_, hb⟩

theorem readOption_of_some {α : Type} {read : Json → Option α} {json : Json} {a : α} (hnull : read .null = none)
    (h : read json = some a) : readOption read (some json) = some (some a) := by
  cases json with
  | null =>
    rw [hnull] at h
    cases h
  | _ => exact congrArg (Option.map some) h

/-- **The filter of a request that is received has no raw expression.** -/
theorem SearchRequest.plain_of_ofJson {floats : Finite → Option Finite} {json : Json}
    {request : SearchRequest F S} (h : SearchRequest.ofJson floats json = some request) :
    ∀ filter ∈ request.filter, filter.Plain := by
  unfold SearchRequest.ofJson at h
  obtain ⟨fields, -, h⟩ := Option.bind_eq_some_iff.mp h
  obtain ⟨q, -, h⟩ := Option.bind_eq_some_iff.mp h
  obtain ⟨filter, hfilter, h⟩ := Option.bind_eq_some_iff.mp h
  obtain ⟨sort, -, h⟩ := Option.bind_eq_some_iff.mp h
  obtain ⟨facets, -, h⟩ := Option.bind_eq_some_iff.mp h
  obtain ⟨page, -, h⟩ := Option.bind_eq_some_iff.mp h
  obtain ⟨hitsPerPage, -, h⟩ := Option.bind_eq_some_iff.mp h
  obtain rfl := Option.some.inj h
  rintro f rfl
  obtain ⟨json, hjson⟩ := readOption_eq_some hfilter
  exact Filter.plain_of_ofJson hjson

/-! #### What is sent is received -/

theorem Order.ofName_name (order : Order) : Order.ofName order.name = some order := by
  cases order <;> rfl

theorem SortBy.ofJson_toJson (sort : SortBy F) : SortBy.ofJson sort.toJson = some sort := by
  show (Serial.ofJson (Serial.toJson sort.field)).bind _ = _
  rw [Serial.ofJson_toJson, Option.bind_some]
  show (Order.ofName sort.order.name).bind _ = _
  rw [Order.ofName_name]
  rfl

theorem readList_map {α : Type} {read : Json → Option α} {write : α → Json} (h : ∀ a, read (write a) = some a)
    (l : List α) : readList read (some (.array (l.map write))) = some l := by
  refine mapM_eq_some_iff.mpr (List.forall₂_map_left_iff.mpr (List.forall₂_same.mpr fun a _ => h a))

theorem readSize_integer {n : ℕ} (h : n < 2 ^ 64) : readSize (.integer n) = some n := by
  have hread : readSize (.integer n) =
      if 0 ≤ (n : Int) ∧ (n : Int) < 2 ^ 64 then some (n : Int).toNat else none := rfl
  rw [hread, if_pos (by omega), Int.toNat_natCast]

theorem readOption_size {n : Option ℕ} (h : ∀ size ∈ n, size < 2 ^ 64) :
    readOption readSize (some (n.elim .null fun n => .integer n)) = some n := by
  cases n with
  | none => rfl
  | some n =>
    show (readSize (.integer n)).map some = _
    rw [readSize_integer (h n rfl)]
    rfl

theorem readOption_text (q : Option Text) : readOption readText (some (q.elim .null .string)) = some q := by
  cases q <;> rfl

/-- **A request that is sent is received**, with its filter. -/
theorem SearchRequest.ofJson_toJson {floats : Finite → Option Finite} {request : SearchRequest F S} {json : Json}
    (hpage : ∀ page ∈ request.page, page < 2 ^ 64) (hsize : ∀ size ∈ request.hitsPerPage, size < 2 ^ 64)
    (hfilter : ∀ filter ∈ request.filter, filter.InRange ∧ filter.Readable floats)
    (h : request.toJson = some json) :
    SearchRequest.ofJson floats json =
      some { request with filter := request.filter.map (Filter.received floats) } := by
  obtain ⟨q, filter, sort, facets, page, hitsPerPage⟩ := request
  unfold SearchRequest.toJson at h
  obtain ⟨sent, hsent, h⟩ := Option.bind_eq_some_iff.mp h
  obtain rfl := Option.some.inj h
  have hread : readOption (Filter.ofJson floats) (some sent) = some (filter.map (Filter.received floats)) := by
    cases filter with
    | none =>
      obtain rfl := Option.some.inj hsent
      rfl
    | some filter =>
      obtain ⟨hrange, hreadable⟩ := hfilter filter rfl
      exact readOption_of_some rfl ((ofJson_iff_received hrange hsent).mpr ⟨hreadable, rfl⟩)
  show (readOption readText (some (q.elim .null .string))).bind _ = _
  rw [readOption_text, Option.bind_some]
  show (readOption (Filter.ofJson floats) (some sent)).bind _ = _
  rw [hread, Option.bind_some]
  show (readList SortBy.ofJson (some (.array (sort.map SortBy.toJson)))).bind _ = _
  rw [readList_map SortBy.ofJson_toJson, Option.bind_some]
  show (readList Serial.ofJson (some (.array (facets.map Serial.toJson)))).bind _ = _
  rw [readList_map Serial.ofJson_toJson, Option.bind_some]
  show (readOption readSize (some (page.elim .null fun n => .integer n))).bind _ = _
  rw [readOption_size hpage, Option.bind_some]
  show (readOption readSize (some (hitsPerPage.elim .null fun n => .integer n))).bind _ = _
  rw [readOption_size hsize]
  rfl

end Json

/-! ### Searches -/

/-- A client's request under a scope set by the server. -/
structure Search (F S : Type) where
  request : SearchRequest F S
  scope : Option (Filter F)
  maxHitsPerPage : ℕ

namespace Search

variable {F S : Type}

/-- `scoped`: run `request` on the documents matching `scope` only. -/
def scoped_ (request : SearchRequest F S) (scope : Filter F) : Search F S :=
  ⟨request, some scope, defaultMaxHitsPerPage⟩

/-- Run `request` on every document of the index. -/
def unscoped (request : SearchRequest F S) : Search F S := ⟨request, none, defaultMaxHitsPerPage⟩

/-- `max_hits_per_page`: bound the page size to `max` documents. -/
def bounded (search : Search F S) (max : ℕ) : Search F S := { search with maxHitsPerPage := max }

/-- The page to return. -/
def pageNumber (search : Search F S) : ℕ := search.request.page.getD 1

def pageSize (search : Search F S) : ℕ :=
  min (search.request.hitsPerPage.getD defaultHitsPerPage) search.maxHitsPerPage

/-- What is set of a list: nothing if it is empty. -/
def unlessEmpty {α : Type} (l : List α) : Option (List α) := if l.isEmpty then none else some l

variable [Field F] [Field S]

/-- The query that is sent, unless a filter cannot be rendered. -/
def query (search : Search F S) : Except FilterError SearchQuery := do
  let filters ← ([search.scope, search.request.filter].filterMap id).mapM Filter.render
  return {
    page := search.pageNumber
    hitsPerPage := search.pageSize
    q := search.request.q
    filters := unlessEmpty filters
    sort := unlessEmpty (search.request.sort.map SortBy.render)
    facets := unlessEmpty (search.request.facets.map Field.name) }

/-- `filter_error`. -/
def filterError (error : FilterError) : Error := .other error.display

/-- Run the search on the index `uid`. -/
def execute {D : Type} (search : Search F S) (uid : String) : Async (Searched D) (Except Error (List D)) :=
  match search.query with
  | .error error => pure (.error (filterError error))
  | .ok query => .call fun answer => ⟨uid, query, answer⟩

/-! ### What is sent -/

theorem getD_unlessEmpty {α : Type} (l : List α) : (unlessEmpty l).getD [] = l := by
  unfold unlessEmpty
  split_ifs with h
  · exact (List.isEmpty_iff.mp h).symm
  · rfl

/-- The expressions that are sent: that of the scope, then that of the request. -/
theorem query_eq_ok {search : Search F S} {query : SearchQuery} (h : search.query = .ok query) :
    ∃ scope filter, search.scope.toList.mapM Filter.render = .ok scope ∧
      search.request.filter.toList.mapM Filter.render = .ok filter ∧
        query.filters.getD [] = scope ++ filter ∧ query.page = search.pageNumber ∧ query.hitsPerPage = search.pageSize ∧
          query.q = search.request.q ∧ query.sort = unlessEmpty (search.request.sort.map SortBy.render) := by
  unfold Search.query at h
  have hfilters : [search.scope, search.request.filter].filterMap id =
      search.scope.toList ++ search.request.filter.toList := by
    cases search.scope <;> cases search.request.filter <;> rfl
  rw [hfilters, bind_eq_ok_iff] at h
  obtain ⟨texts, htexts, h⟩ := h
  obtain ⟨scope, filter, hscope, hfilter, rfl⟩ := mapM_append_eq_ok_iff.mp htexts
  obtain rfl := Except.ok.inj h
  exact ⟨scope, filter, hscope, hfilter, getD_unlessEmpty _, rfl, rfl, rfl, rfl⟩

/-- A search that succeeded sent its query, and nothing else. -/
theorem execute_eq_ok {D : Type} {search : Search F S} {uid : String} {t : List (Searched D)} {hits : List D}
    (h : search.execute uid t (some (.ok hits))) :
    ∃ query, search.query = .ok query ∧ t = [⟨uid, query, some (.ok hits)⟩] := by
  unfold execute at h
  cases hquery : search.query with
  | error error =>
    rw [hquery] at h
    cases (Async.pure_iff.mp h).2
  | ok query =>
    rw [hquery] at h
    exact ⟨query, rfl, Async.call_iff.mp h⟩

theorem execute_of_query {D : Type} {search : Search F S} {uid : String} {query : SearchQuery}
    (h : search.query = .ok query) (result : Except Error (List D)) :
    search.execute uid [⟨uid, query, some result⟩] (some result) := by
  unfold execute
  rw [h]
  exact Async.call_iff.mpr rfl

/-- **A filter that cannot be rendered fails the search**, and nothing is sent. -/
theorem execute_of_error {D : Type} {search : Search F S} {uid : String} {error : FilterError} {t : List (Searched D)}
    {result : Except Error (List D)} (h : search.query = .error error) :
    search.execute uid t (some result) ↔ t = [] ∧ result = .error (filterError error) := by
  unfold execute
  rw [h]
  exact Async.pure_iff

/-! ### What is found -/

section Found

variable {D : Type} {engine : Engine D} {attributes : Attributes D} {documents hits : List D} {search : Search F S}

omit [Field S] in
/-- The expression of a filter without raw expressions selects what the filter does. -/
theorem read_render {filter : Option (Filter F)} (hreads : Reads engine attributes)
    (hplain : ∀ f ∈ filter, f.Plain) {texts : List Text} (htexts : filter.toList.mapM Filter.render = .ok texts)
    {criteria : List (D → Bool)} (hread : texts.mapM engine.read = .ok criteria) (d : D) :
    criteria.all (· d) = filter.all (·.test attributes d) := by
  cases filter with
  | none =>
    obtain rfl := Except.ok.inj htexts
    obtain rfl := Except.ok.inj hread
    rfl
  | some filter =>
    obtain ⟨text, _, htext, hnil, rfl⟩ := List.forall₂_cons_left_iff.mp (mapM_eq_ok_iff.mp htexts)
    obtain rfl := List.forall₂_nil_left_iff.mp hnil
    obtain ⟨criterion, _, hcriterion, hnil, rfl⟩ := List.forall₂_cons_left_iff.mp (mapM_eq_ok_iff.mp hread)
    obtain rfl := List.forall₂_nil_left_iff.mp hnil
    rw [hreads.eq_test (hplain filter rfl) htext hcriterion]
    simp

/-- What a search asks for, in the order it asks for: the documents in scope that `chosen` selects and that
hold its text. -/
def found (search : Search F S) (engine : Engine D) (attributes : Attributes D) (chosen : D → Bool)
    (documents : List D) : List D :=
  engine.order search.request.q (unlessEmpty (search.request.sort.map SortBy.render))
    (documents.filter fun d => search.scope.all (·.test attributes d) && chosen d &&
      search.request.q.all fun text => engine.holds text d)

/-- What the filter of a request selects. -/
def chosen (search : Search F S) (attributes : Attributes D) (d : D) : Bool :=
  search.request.filter.all (·.test attributes d)

/-- Hits are a page of the first of what the search asks for. Only a raw expression can select anything else than the
filter does, and only among the documents in scope. -/
theorem hits_eq {query : SearchQuery} (hreads : Reads engine attributes) (hscope : ∀ f ∈ search.scope, f.Plain)
    (hquery : search.query = .ok query) (h : engine.Answers documents [] query (some (.ok hits))) :
    ∃ chosen : D → Bool,
      ((∀ f ∈ search.request.filter, f.Plain) → ∀ d, chosen d = search.chosen attributes d) ∧
      hits = page search.pageSize ((search.found engine attributes chosen documents).take engine.maxTotalHits)
        search.pageNumber := by
  obtain ⟨rules, criteria, hrules, hcriteria, rfl⟩ := h.exists_criteria
  obtain rfl : [] = rules := Except.ok.inj hrules
  obtain ⟨scope, filter, hscope', hfilter, hfilters, hpage, hsize, hq, hsort⟩ := query_eq_ok hquery
  rw [hfilters] at hcriteria
  obtain ⟨first, second, hfirst, hsecond, rfl⟩ := mapM_append_eq_ok_iff.mp hcriteria
  refine ⟨fun d => second.all (· d), fun hplain d => read_render hreads hplain hfilter hsecond d, ?_⟩
  have hall : ∀ d, (first ++ second).all (· d) = (search.scope.all (·.test attributes d) && second.all (· d)) := by
    intro d
    rw [List.all_append, read_render hreads hscope hscope' hfirst d]
  unfold Engine.found Search.found
  rw [hpage, hsize, hq, hsort]
  simp only [List.nil_append, hall]

end Found

/-! ### Results -/

section Results

variable {D : Type} {indexes : Indexes D} {attributes : Attributes D} {search : Search F S} {uid : String}

/-- **A client cannot leave its scope.** Whatever it asks for, raw expressions included, the hits of a search
are documents in scope, at most as many as the search allows on a page; and they are a page of what is in
scope and meets the request, in the order it asks for and up to the limit of the index, if its filter has no
raw expression. -/
theorem execute_within_scope {t : List (Searched D)} {hits : List D}
    (hreads : Reads (indexes.engine uid) attributes) (hscope : ∀ f ∈ search.scope, f.Plain)
    (hrun : search.execute uid t (some (.ok hits))) (hanswers : ∀ searched ∈ t, indexes.Answers searched) :
    (∀ d ∈ hits, d ∈ indexes.documents uid ∧ search.scope.all (·.test attributes d) = true) ∧
    hits.length ≤ search.maxHitsPerPage ∧
    ((∀ f ∈ search.request.filter, f.Plain) → hits = page search.pageSize
      ((search.found (indexes.engine uid) attributes (search.chosen attributes) (indexes.documents uid)).take
        (indexes.engine uid).maxTotalHits) search.pageNumber) := by
  obtain ⟨query, hquery, rfl⟩ := execute_eq_ok hrun
  have hanswer : (indexes.engine uid).Answers (indexes.documents uid) [] query (some (.ok hits)) :=
    hanswers _ (List.mem_singleton_self _)
  obtain ⟨chosen, hchosen, rfl⟩ := hits_eq hreads hscope hquery hanswer
  refine ⟨fun d hd => ?_, ?_, fun hplain => ?_⟩
  · have hmem := List.mem_of_mem_take ((page_sublist _ _ _).subset hd)
    unfold Search.found at hmem
    obtain ⟨hmem, htest⟩ := List.mem_filter.mp (((indexes.engine uid).perm_order _ _ _).mem_iff.mp hmem)
    simp only [Bool.and_eq_true] at htest
    exact ⟨hmem, htest.1.1⟩
  · exact Nat.le_trans (length_page_le _ _ _) (Nat.min_le_right _ _)
  · rw [funext (hchosen hplain)]

/-- Posts are texts with their authors, and only the author can be filtered on. -/
def posts : Attributes (Text × Text) where
  eq _ value d := d.1 = value
  gt _ _ _ := false
  gte _ _ _ := false
  lt _ _ _ := false
  lte _ _ _ := false
  exists_ _ _ := true
  isNull _ _ := false
  isEmpty _ _ := false

/-- Two posts by Ann and one by Bob. -/
def postIndexes : Indexes (Text × Text) where
  engine _ := reference posts fun text d => d.2 = text
  documents _ := [("ann".toList, "one".toList), ("bob".toList, "two".toList), ("ann".toList, "three".toList)]

/-- A raw expression that every post meets, under the scope of Ann's posts. -/
theorem execute_within_scope_ann :
    let search : Search Text Text := (scoped_ { SearchRequest.new with
      filter := some (.dangerouslyRaw "\"author\" EXISTS".toList) } (.eq "author".toList
        (.text "ann".toList))).bounded 1
    ∃ t hits, search.execute "posts" t (some (.ok hits)) ∧ hits = [("ann".toList, "one".toList)] ∧ hits.length ≤ 1 ∧
      ∀ d ∈ hits, d ∈ postIndexes.documents "posts" ∧ search.scope.all (·.test posts d) = true := by
  intro search
  have hscope : ∀ f ∈ search.scope, f.Plain := by
    rintro f ⟨⟩
    exact Filter.forall_node_iff.mpr ⟨rfl, List.forall_mem_nil _⟩
  let query : SearchQuery := ⟨1, 1, none,
    some ["\"author\" = \"ann\"".toList, "\"author\" EXISTS".toList], none, none⟩
  have hread : (query.filters.getD []).mapM (postIndexes.engine "posts").read = .ok
      [Condition.test posts (.compare .eq "author".toList "ann".toList),
        Condition.test posts (.exists_ "author".toList)] := rfl
  have hanswer := Indexes.answers_found hread
  have hquery : search.query = .ok query := rfl
  obtain ⟨hall, hlen, -⟩ := execute_within_scope (reads_reference posts _) hscope (execute_of_query hquery _)
    (List.forall_mem_singleton.mpr hanswer)
  exact ⟨_, _, execute_of_query hquery _, rfl, hlen, hall⟩

/-- The search of another page. -/
def atPage (search : Search F S) (n : ℕ) : Search F S :=
  { search with request := { search.request with page := some n } }

/-- **The pages of a search are the first of what it asks for**, up to the limit of the index: the documents
in scope that meet the filter of a request that a client sent as JSON and hold its text. If the limit has
room for the index they are all of them, each once. -/
theorem pages_cover [Serial F] [Serial S] {floats : Finite → Option Finite} {json : Json} {n : ℕ}
    {hits : ℕ → List D}
    (hreads : Reads (indexes.engine uid) attributes) (hscope : ∀ f ∈ search.scope, f.Plain)
    (hjson : fromStr (SearchRequest.ofJson floats) json = some search.request)
    (hruns : ∀ i < n, ∃ t, (search.atPage (i + 1)).execute uid t (some (.ok (hits i))) ∧
      ∀ searched ∈ t, indexes.Answers searched)
    (hroom : min (indexes.documents uid).length (indexes.engine uid).maxTotalHits ≤ n * search.pageSize) :
    (List.range n).flatMap hits =
        (search.found (indexes.engine uid) attributes (search.chosen attributes) (indexes.documents uid)).take
          (indexes.engine uid).maxTotalHits ∧
      ((indexes.documents uid).length ≤ (indexes.engine uid).maxTotalHits →
        ((List.range n).flatMap hits).Perm ((indexes.documents uid).filter fun d =>
          search.scope.all (·.test attributes d) && search.chosen attributes d &&
            search.request.q.all fun text => (indexes.engine uid).holds text d)) := by
  have hplain := SearchRequest.plain_of_ofJson (fromStr_eq_some.mp hjson).2
  set limit := (indexes.engine uid).maxTotalHits
  set all := search.found (indexes.engine uid) attributes (search.chosen attributes) (indexes.documents uid)
  have hperm : all.Perm _ := (indexes.engine uid).perm_order _ _ _
  have hlength : all.length ≤ (indexes.documents uid).length := hperm.length_eq ▸ List.length_filter_le _ _
  have hpages : (List.range n).flatMap hits =
      (List.range n).flatMap fun i => page search.pageSize (all.take limit) (i + 1) := by
    refine List.flatMap_congr fun i hi => ?_
    obtain ⟨t, hrun, hanswers⟩ := hruns i (List.mem_range.mp hi)
    obtain ⟨query, hquery, rfl⟩ := execute_eq_ok hrun
    have hscope' : ∀ f ∈ (search.atPage (i + 1)).scope, f.Plain := hscope
    obtain ⟨chosen, hchosen, hhits⟩ := hits_eq hreads hscope' hquery (hanswers _ (List.mem_singleton_self _))
    rw [hhits, funext (hchosen hplain)]
    rfl
  have hall : (List.range n).flatMap hits = all.take limit := by
    rw [hpages, flatMap_page_of_le]
    rw [List.length_take]
    omega
  refine ⟨hall, fun hlimit => ?_⟩
  rw [hall, List.take_of_length_le (Nat.le_trans hlength hlimit)]
  exact hperm

/-- Two pages of Ann's posts, which are both on the first. -/
theorem pages_cover_ann :
    let search : Search Text Text :=
      scoped_ { SearchRequest.new with hitsPerPage := some 2 } (.eq "author".toList (.text "ann".toList))
    ∃ hits : ℕ → List (Text × Text),
      (∀ i < 2, ∃ t, (search.atPage (i + 1)).execute "posts" t (some (.ok (hits i))) ∧
        ∀ searched ∈ t, postIndexes.Answers searched) ∧
      hits 0 = [("ann".toList, "one".toList), ("ann".toList, "three".toList)] ∧ (List.range 2).flatMap hits =
        (search.found (postIndexes.engine "posts") posts (search.chosen posts) (postIndexes.documents "posts")).take
          1000 := by
  intro search
  have hscope : ∀ f ∈ search.scope, f.Plain := by
    rintro f ⟨⟩
    exact Filter.forall_node_iff.mpr ⟨rfl, List.forall_mem_nil _⟩
  have hjson : fromStr (SearchRequest.ofJson some) (.object [("hitsPerPage", .integer 2)]) =
      some search.request := rfl
  let query (n : ℕ) : SearchQuery := ⟨n, 2, none, some ["\"author\" = \"ann\"".toList], none, none⟩
  have hquery : ∀ i, (search.atPage (i + 1)).query = .ok (query (i + 1)) := fun _ => rfl
  have hread : ∀ i, ((query i).filters.getD []).mapM (postIndexes.engine "posts").read = .ok
      [Condition.test posts (.compare .eq "author".toList "ann".toList)] := fun _ => rfl
  have hruns : ∀ i < 2, ∃ t, (search.atPage (i + 1)).execute "posts" t (some (.ok _)) ∧
      ∀ searched ∈ t, postIndexes.Answers searched := fun i _ =>
    ⟨_, execute_of_query (hquery i) _, List.forall_mem_singleton.mpr (Indexes.answers_found (hread (i + 1)))⟩
  exact ⟨_, hruns, rfl, (pages_cover (reads_reference posts _) hscope hjson hruns (by decide)).1⟩

end Results

end Search

end Wakuwaku.Entity.Meilisearch
