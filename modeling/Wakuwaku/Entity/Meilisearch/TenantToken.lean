import Wakuwaku.Entity.Effect
import Wakuwaku.Entity.Meilisearch.Search

/-! # Tenant tokens

A token lists the indexes that a frontend may search, each under a scope. It is built by calls that allow an
index, and the last call for an index counts (`grantAll_rules`): the frontend finds what is in that scope,
whatever it sends, and nothing of an index that no call has allowed. -/

namespace Wakuwaku.Entity.Meilisearch

open Wakuwaku.Meilisearch

/-- The index types: the uid and the filterable fields of each. -/
class SearchIndexes (I : Type) where
  uid : I → String
  Filterable : I → Type
  field : ∀ i, Field (Filterable i)

open SearchIndexes

variable {I : Type} [SearchIndexes I] {C : Capability I}

instance (i : I) : Field (Filterable i) := field i

/-- Signs tokens that grant searches the capability `C` may run. -/
structure TokenSigner (C : Capability I) where
  keyUid : String

/-- A token being built: the indexes it may search, with their scopes. -/
structure TenantToken (C : Capability I) where
  signer : TokenSigner C
  rules : String → Option Rule
  expiresAt : ℕ

/-- Start a token that allows no index yet. -/
def TokenSigner.token (signer : TokenSigner C) (expiresAt : ℕ) : TenantToken C :=
  ⟨signer, fun _ => none, expiresAt⟩

namespace TenantToken

/-- `scoped`: allow searching the documents that match `scope`. -/
def scoped_ (token : TenantToken C) (i : I) (scope : Filter (Filterable i)) (_ : C.Covers (.read i)) :
    Except FilterError (TenantToken C) := do
  let filter ← scope.render
  return { token with rules := Function.update token.rules (uid i) (some (.filter filter)) }

/-- Allow searching every document. -/
def unscoped (token : TenantToken C) (i : I) (_ : C.Covers (.read i)) : TenantToken C :=
  { token with rules := Function.update token.rules (uid i) (some .all) }

end TenantToken

/-! ### Building a token -/

/-- A call that allows an index. -/
structure Grant (C : Capability I) where
  index : I
  covers : C.Covers (.read index)
  scope : Option (Filter (Filterable index))

namespace Grant

def apply (token : TenantToken C) (grant : Grant C) : Except FilterError (TenantToken C) :=
  match grant.scope with
  | some scope => token.scoped_ grant.index scope grant.covers
  | none => .ok (token.unscoped grant.index grant.covers)

/-- What the calls make of a token, unless a scope cannot be rendered. -/
def applyAll (token : TenantToken C) (grants : List (Grant C)) : Except FilterError (TenantToken C) :=
  grants.foldlM apply token

/-- The call makes the rule. -/
def Makes (grant : Grant C) (rule : Rule) : Prop :=
  grant.scope.toList.mapM Filter.render = .ok rule.expressions

variable {token token' : TenantToken C} {grant : Grant C} {grants : List (Grant C)}

/-- A call sets the rule of its index, and leaves the others. -/
theorem apply_eq_ok (h : grant.apply token = .ok token') :
    ∃ rule, grant.Makes rule ∧ token'.rules = Function.update token.rules (uid grant.index) (some rule) := by
  obtain ⟨i, hcovers, scope⟩ := grant
  cases scope with
  | none =>
    obtain rfl := Except.ok.inj h
    exact ⟨.all, rfl, rfl⟩
  | some scope =>
    obtain ⟨text, htext, h⟩ := bind_eq_ok_iff.mp h
    obtain rfl := Except.ok.inj h
    exact ⟨.filter text, mapM_eq_ok_iff.mpr (.cons htext .nil), rfl⟩

/-- The last call of a list for an index. -/
def Last (u : String) (grants : List (Grant C)) (grant : Grant C) : Prop :=
  ∃ before after, grants = before ++ grant :: after ∧ uid grant.index = u ∧ ∀ g ∈ after, uid g.index ≠ u

/-- **The last call for an index counts.** -/
theorem applyAll_rules (h : applyAll token grants = .ok token') (u : String) :
    (∃ grant rule, Last u grants grant ∧ grant.Makes rule ∧ token'.rules u = some rule) ∨
      (∀ g ∈ grants, uid g.index ≠ u) ∧ token'.rules u = token.rules u := by
  unfold applyAll at h
  induction grants generalizing token with
  | nil =>
    obtain rfl := Except.ok.inj h
    exact .inr ⟨List.forall_mem_nil _, rfl⟩
  | cons g grants ih =>
    rw [List.foldlM_cons, bind_eq_ok_iff] at h
    obtain ⟨token₁, hg, h⟩ := h
    obtain ⟨grant, rule, ⟨before, after, rfl, hu, hafter⟩, hmakes, hrule⟩ | ⟨hnone, hrule⟩ := ih h
    · exact .inl ⟨grant, rule, ⟨g :: before, after, rfl, hu, hafter⟩, hmakes, hrule⟩
    · obtain ⟨rule, hmakes, hrules⟩ := apply_eq_ok hg
      rw [hrule, hrules]
      by_cases hu : uid g.index = u
      · exact .inl ⟨g, rule, ⟨[], grants, rfl, hu, hnone⟩, hmakes, by rw [hu, Function.update_self]⟩
      · exact .inr ⟨List.forall_mem_cons.mpr ⟨hu, hnone⟩, Function.update_of_ne (Ne.symm hu) ..⟩

/-- The rule of an index is that of the last call for it. -/
theorem Last.rules {u : String} (hlast : Last u grants grant) (h : applyAll token grants = .ok token') :
    ∃ rule, grant.Makes rule ∧ token'.rules u = some rule := by
  obtain ⟨before, after, rfl, hu, hafter⟩ := hlast
  unfold applyAll at h
  rw [List.foldlM_append, bind_eq_ok_iff] at h
  obtain ⟨token₁, -, h⟩ := h
  rw [List.foldlM_cons, bind_eq_ok_iff] at h
  obtain ⟨token₂, hg, h⟩ := h
  obtain ⟨rule, hmakes, hrules⟩ := apply_eq_ok hg
  obtain ⟨g, -, ⟨before', after', rfl, hg, -⟩, -⟩ | ⟨-, hsame⟩ := applyAll_rules h u
  · exact absurd hg (hafter g (by simp))
  · exact ⟨rule, hmakes, by rw [hsame, hrules, hu, Function.update_self]⟩

/-- The rules of a token that was built from nothing. -/
theorem exists_last {signer : TokenSigner C} {expiresAt : ℕ} {u : String} {rule : Rule}
    (h : applyAll (signer.token expiresAt) grants = .ok token) (hrule : token.rules u = some rule) :
    ∃ grant, Last u grants grant ∧ grant.Makes rule := by
  obtain ⟨grant, rule', hlast, hmakes, hrule'⟩ | ⟨-, hnone⟩ := applyAll_rules h u
  · obtain rfl := Option.some.inj (hrule.symm.trans hrule')
    exact ⟨grant, hlast, hmakes⟩
  · rw [hrule] at hnone
    cases hnone

end Grant

/-! ### Searching with a token -/

section Search

variable {D : Type} {indexes : Indexes D} {attributes : String → Attributes D} {signer : TokenSigner C}
  {expiresAt : ℕ} {grants : List (Grant C)} {token : TenantToken C}

/-- **A frontend finds what is in the last scope of an index, and nothing of an index that is not allowed.**
Whatever it sends with its token, its hits are those that the documents in scope alone give. -/
theorem token_within_scope {searched : Searched D} {hits : List D}
    (hreads : ∀ u, Reads (indexes.engine u) (attributes u)) (hplain : ∀ g ∈ grants, ∀ f ∈ g.scope, f.Plain)
    (htoken : Grant.applyAll (signer.token expiresAt) grants = .ok token)
    (hanswers : indexes.AnswersToken token.rules searched) (hhits : searched.answer = some (.ok hits)) :
    ∃ grant, Grant.Last searched.uid grants grant ∧ C.Covers (.read grant.index) ∧
      (indexes.engine searched.uid).Answers
        ((indexes.documents searched.uid).filter fun d => grant.scope.all (·.test (attributes searched.uid) d)) []
        searched.query (some (.ok hits)) := by
  cases hanswers with
  | denied hrule hnone => exact absurd hhits (hnone hits)
  | allowed hrule h =>
    obtain ⟨grant, hlast, hmakes⟩ := Grant.exists_last htoken hrule
    rw [hhits] at h
    obtain ⟨criteria, hread, hanswers⟩ := h.under_rule
    have hmem : grant ∈ grants := by
      obtain ⟨before, after, rfl, -⟩ := hlast
      simp
    simp only [Search.read_render (hreads searched.uid) (hplain grant hmem) hmakes hread] at hanswers
    exact ⟨grant, hlast, grant.covers, hanswers⟩

/-! #### A frontend of a blog -/

/-- One index. -/
inductive Blog where
  | posts

instance : SearchIndexes Blog := ⟨fun _ => "posts", fun _ => Text, fun _ => inferInstance⟩

/-- Posts by Ann. -/
def byAnn : Filter (Filterable Blog.posts) := (Filter.eq "author".toList (.text "ann".toList) : Filter Text)

theorem plain_byAnn : byAnn.Plain := Filter.forall_node_iff.mpr ⟨rfl, List.forall_mem_nil _⟩

/-- Every post is allowed at first, and then those by Ann. -/
def blogGrants : List (Grant (readOnly (E := Blog))) := [⟨.posts, trivial, none⟩, ⟨.posts, trivial, some byAnn⟩]

/-- The token for them. -/
def blogToken : TenantToken (readOnly (E := Blog)) where
  signer := ⟨"key"⟩
  rules := Function.update (Function.update (fun _ => none) "posts" (some .all)) "posts"
    (some (.filter "\"author\" = \"ann\"".toList))
  expiresAt := 60

theorem blogToken_built : Grant.applyAll ((⟨"key"⟩ : TokenSigner (readOnly (E := Blog))).token 60) blogGrants =
    .ok blogToken := rfl

/-- The first of the posts that every post meets. -/
def everyPost : SearchQuery := ⟨1, 1, none, some ["\"author\" EXISTS".toList], none, none⟩

/-- The first of Ann's posts. -/
def annsPost : SearchQuery :=
  { everyPost with filters := some ["\"author\" = \"ann\"".toList, "\"author\" EXISTS".toList] }

theorem answersToken_blog : Search.postIndexes.AnswersToken blogToken.rules
    ⟨"posts", everyPost, some (.ok [("ann".toList, "one".toList)])⟩ := by
  have hread : ((Rule.filter "\"author\" = \"ann\"".toList).expressions ++ everyPost.filters.getD []).mapM
      (Search.postIndexes.engine "posts").read = .ok
        [Condition.test Search.posts (.compare .eq "author".toList "ann".toList),
          Condition.test Search.posts (.exists_ "author".toList)] := rfl
  exact .allowed rfl (.found hread)

theorem token_within_scope_ann : ∃ grant, Grant.Last "posts" blogGrants grant ∧
    (Search.postIndexes.engine "posts").Answers
      ((Search.postIndexes.documents "posts").filter fun d => grant.scope.all (·.test Search.posts d)) [] everyPost
        (some (.ok [("ann".toList, "one".toList)])) := by
  have hplain : ∀ g ∈ blogGrants, ∀ f ∈ g.scope, f.Plain := by
    intro g hg f hf
    rcases List.mem_cons.mp hg with rfl | hg
    · cases hf
    · obtain rfl := List.mem_singleton.mp hg
      cases hf
      exact plain_byAnn
  have hreads : ∀ u, Reads (Search.postIndexes.engine u) ((fun _ => Search.posts) u) :=
    fun _ => reads_reference Search.posts _
  obtain ⟨grant, hlast, -, h⟩ := token_within_scope hreads hplain blogToken_built answersToken_blog rfl
  exact ⟨grant, hlast, h⟩

/-- **A token is as good as a search under the scope.** The query of a request without a scope, sent with a
token, finds what the server's search of the request under the token's scope does. -/
theorem token_agrees {i : I} {scope : Filter (Filterable i)} {S : Type} [Field S]
    {request : SearchRequest (Filterable i) S} {max : ℕ} {query query' : SearchQuery} {hits hits' : List D}
    {hcovers : C.Covers (.read i)} (htoken : Grant.applyAll (signer.token expiresAt) grants = .ok token)
    (hlast : Grant.Last (uid i) grants ⟨i, hcovers, some scope⟩)
    (hquery : ((Search.unscoped request).bounded max).query = .ok query)
    (hquery' : ((Search.scoped_ request scope).bounded max).query = .ok query')
    (hfrontend : indexes.AnswersToken token.rules ⟨uid i, query, some (.ok hits)⟩)
    (hserver : indexes.Answers ⟨uid i, query', some (.ok hits')⟩) : hits = hits' := by
  obtain ⟨rule, hmakes, hrule⟩ := hlast.rules htoken
  obtain ⟨scope₁, filter₁, hscope₁, hfilter₁, hfilters₁, hpage₁, hsize₁, hq₁, hsort₁⟩ := Search.query_eq_ok hquery
  obtain ⟨scope₂, filter₂, hscope₂, hfilter₂, hfilters₂, hpage₂, hsize₂, hq₂, hsort₂⟩ := Search.query_eq_ok hquery'
  obtain rfl : [] = scope₁ := Except.ok.inj hscope₁
  obtain rfl : rule.expressions = scope₂ := Except.ok.inj (hmakes.symm.trans hscope₂)
  obtain rfl : filter₁ = filter₂ := Except.ok.inj (hfilter₁.symm.trans hfilter₂)
  cases hfrontend with
  | denied hnone => exact absurd (hrule.symm.trans hnone) (by simp)
  | allowed hrule' h =>
    obtain rfl := Option.some.inj (hrule.symm.trans hrule')
    have hfrontend : (indexes.engine (uid i)).Answers (indexes.documents (uid i)) rule.expressions query
      (some (.ok hits)) := h
    have hserver : (indexes.engine (uid i)).Answers (indexes.documents (uid i)) [] query' (some (.ok hits')) := hserver
    obtain ⟨criteria, hread, rfl⟩ := hfrontend.exists_read
    obtain ⟨criteria', hread', rfl⟩ := hserver.exists_read
    -- both are read as the scope and then the filter of the request
    have hsame : rule.expressions ++ query.filters.getD [] = [] ++ query'.filters.getD [] := by
      rw [hfilters₁, hfilters₂]
      rfl
    obtain rfl : criteria = criteria' := by
      rw [hsame] at hread
      exact Except.ok.inj (hread.symm.trans hread')
    unfold Engine.found
    rw [hpage₁, hpage₂, hsize₁, hsize₂, hq₁, hq₂, hsort₁, hsort₂]
    rfl

/-- The first post by Ann, both ways. -/
theorem token_agrees_ann : ∃ hits hits' : List (Text × Text), hits = [("ann".toList, "one".toList)] ∧
    Search.postIndexes.AnswersToken blogToken.rules ⟨"posts", everyPost, some (.ok hits)⟩ ∧
      Search.postIndexes.Answers ⟨"posts", annsPost, some (.ok hits')⟩ ∧ hits = hits' := by
  let request : SearchRequest Text Text :=
    { SearchRequest.new with filter := some (.exists_ "author".toList), hitsPerPage := some 1 }
  have hlast : Grant.Last (SearchIndexes.uid Blog.posts) blogGrants ⟨.posts, trivial, some byAnn⟩ :=
    ⟨[_], [], rfl, rfl, List.forall_mem_nil _⟩
  have hquery : ((Search.unscoped request).bounded 100).query = .ok everyPost := rfl
  have hquery' : ((Search.scoped_ request byAnn).bounded 100).query = .ok annsPost := rfl
  have hread : (annsPost.filters.getD []).mapM (Search.postIndexes.engine "posts").read = .ok
      [Condition.test Search.posts (.compare .eq "author".toList "ann".toList),
        Condition.test Search.posts (.exists_ "author".toList)] := rfl
  have hserver := Indexes.answers_found hread
  exact ⟨_, _, rfl, answersToken_blog, hserver,
    token_agrees blogToken_built hlast hquery hquery' answersToken_blog hserver⟩

end Search

end Wakuwaku.Entity.Meilisearch
