import Wakuwaku.Fallible
import Wakuwaku.Parsing
import Wakuwaku.Meilisearch.Server

/-! # Searching

A search carries filter expressions, which the server reads one by one. It finds the documents that meet
all of them and hold the text that is searched for, puts them in order, keeps the first of them up to a
limit of the index and answers with one page of these. The pages of an order are what there is in it, one
after another (`flatMap_page`). A token carries a rule for each index that may be searched with it, and the
filter of a rule is read with those of the search. -/

namespace Wakuwaku.Meilisearch

variable {D : Type}

/-- A search; what is not set is left to the server. -/
structure SearchQuery where
  page : ℕ
  hitsPerPage : ℕ
  q : Option Text
  filters : Option (List Text)
  sort : Option (List Text)
  facets : Option (List Text)

/-- How an index is searched: what an expression says of its documents, which of them hold a text, the order
of those that are found, and how many of them the pages go through. -/
structure Engine (D : Type) where
  read : Text → Except ErrorCode (D → Bool)
  holds : Text → D → Bool
  order : Option Text → Option (List Text) → List D → List D
  perm_order : ∀ q sort documents, (order q sort documents).Perm documents
  /-- `pagination.maxTotalHits` of the settings, 1000 unless set. -/
  maxTotalHits : ℕ

/-! ### Pages -/

/-- A page of a list. Pages start at 1. -/
def page (size : ℕ) (l : List D) : ℕ → List D
  | 0 => []
  | n + 1 => (l.drop (n * size)).take size

theorem length_page_le (size : ℕ) (l : List D) (n : ℕ) : (page size l n).length ≤ size := by
  cases n with
  | zero => exact Nat.zero_le _
  | succ n => exact List.length_take_le _ _

theorem page_sublist (size : ℕ) (l : List D) (n : ℕ) : (page size l n).Sublist l := by
  cases n with
  | zero => exact List.nil_sublist _
  | succ n => exact (List.take_sublist _ _).trans (List.drop_sublist _ _)

/-- The first pages are the front of the list. -/
theorem flatMap_page (size : ℕ) (l : List D) (n : ℕ) :
    (List.range n).flatMap (fun i => page size l (i + 1)) = l.take (n * size) := by
  induction n with
  | zero => simp
  | succ n ih =>
    rw [List.range_succ, List.flatMap_append, ih, List.flatMap_singleton, Nat.succ_mul, List.take_add]
    rfl

/-- **The pages are the list**, if they have room for it. -/
theorem flatMap_page_of_le {size n : ℕ} {l : List D} (h : l.length ≤ n * size) :
    (List.range n).flatMap (fun i => page size l (i + 1)) = l := by
  rw [flatMap_page, List.take_of_length_le h]

/-! ### Answers -/

/-- What a search finds: the first of the documents that meet every criterion and hold the text. -/
def Engine.found (engine : Engine D) (criteria : List (D → Bool)) (query : SearchQuery) (documents : List D) :
    List D :=
  (engine.order query.q query.sort
    (documents.filter fun d => criteria.all (· d) && query.q.all fun text => engine.holds text d)).take
      engine.maxTotalHits

/-- Answers to a search of `documents` under the expressions of `rule`. Any search may fail. -/
inductive Engine.Answers (engine : Engine D) (documents : List D) (rule : List Text) (query : SearchQuery) :
    Option (Except Error (List D)) → Prop
  | found {criteria} (h : (rule ++ query.filters.getD []).mapM engine.read = .ok criteria) :
    Answers engine documents rule query
      (some (.ok (page query.hitsPerPage (engine.found criteria query documents) query.page)))
  | refused (error) : Answers engine documents rule query (some (.error error))
  | lost : Answers engine documents rule query none

/-- What a search asks of an index, with its answer, `none` if it was cut off. -/
structure Searched (D : Type) where
  uid : String
  query : SearchQuery
  answer : Option (Except Error (List D))

/-- The indexes: how each is searched and what it holds. -/
structure Indexes (D : Type) where
  engine : String → Engine D
  documents : String → List D

/-- What a key that may search every index is answered. -/
def Indexes.Answers (indexes : Indexes D) (searched : Searched D) : Prop :=
  (indexes.engine searched.uid).Answers (indexes.documents searched.uid) [] searched.query searched.answer

theorem Indexes.answers_found {indexes : Indexes D} {uid : String} {query : SearchQuery}
    {criteria : List (D → Bool)} (h : (query.filters.getD []).mapM (indexes.engine uid).read = .ok criteria) :
    indexes.Answers ⟨uid, query, some (.ok (page query.hitsPerPage
      ((indexes.engine uid).found criteria query (indexes.documents uid)) query.page))⟩ :=
  .found h

/-! ### Tokens -/

/-- What a token allows of an index. -/
inductive Rule where
  | all
  | filter (expression : Text)
  deriving DecidableEq, Repr

def Rule.expressions : Rule → List Text
  | .all => []
  | .filter expression => [expression]

/-- What a token is answered: an index without a rule is not searched. -/
inductive Indexes.AnswersToken (indexes : Indexes D) (rules : String → Option Rule) (searched : Searched D) : Prop
  | allowed {rule} (hrule : rules searched.uid = some rule)
    (h : (indexes.engine searched.uid).Answers (indexes.documents searched.uid) rule.expressions searched.query
      searched.answer)
  | denied (hrule : rules searched.uid = none) (h : ∀ hits, searched.answer ≠ some (.ok hits))

section Found

variable {engine : Engine D} {documents hits : List D} {rule : List Text} {query : SearchQuery}

theorem Engine.Answers.exists_read (h : engine.Answers documents rule query (some (.ok hits))) :
    ∃ criteria, (rule ++ query.filters.getD []).mapM engine.read = .ok criteria ∧
      hits = page query.hitsPerPage (engine.found criteria query documents) query.page := by
  cases h with
  | found h => exact ⟨_, h, rfl⟩

/-- **Hits are a page of what the expressions of the rule and those of the search select.** -/
theorem Engine.Answers.exists_criteria (h : engine.Answers documents rule query (some (.ok hits))) :
    ∃ rules filters, rule.mapM engine.read = .ok rules ∧ (query.filters.getD []).mapM engine.read = .ok filters ∧
      hits = page query.hitsPerPage (engine.found (rules ++ filters) query documents) query.page := by
  obtain ⟨criteria, hread, rfl⟩ := h.exists_read
  obtain ⟨rules, filters, hrules, hfilters, rfl⟩ := mapM_append_eq_ok_iff.mp hread
  exact ⟨rules, filters, hrules, hfilters, rfl⟩

theorem Engine.found_append (criteria criteria' : List (D → Bool)) :
    engine.found (criteria ++ criteria') query documents =
      engine.found criteria' query (documents.filter fun d => criteria.all (· d)) := by
  unfold Engine.found
  rw [List.filter_filter]
  refine congrArg (fun l => (engine.order query.q query.sort l).take engine.maxTotalHits)
    (List.filter_congr fun d _ => ?_)
  rw [List.all_append, Bool.and_assoc, Bool.and_comm]

/-- **A rule leaves fewer documents**, and changes nothing else. -/
theorem Engine.Answers.under_rule (h : engine.Answers documents rule query (some (.ok hits))) :
    ∃ rules, rule.mapM engine.read = .ok rules ∧
      engine.Answers (documents.filter fun d => rules.all (· d)) [] query (some (.ok hits)) := by
  obtain ⟨rules, filters, hrules, hfilters, rfl⟩ := h.exists_criteria
  refine ⟨rules, hrules, ?_⟩
  rw [Engine.found_append]
  exact .found hfilters

end Found

end Wakuwaku.Meilisearch
