/-
# The table of drafts

The drafts of all rules, in the order of the rules, are put into a table by their names.  The table
has the names in the order in which they are defined first, and for each of them the draft that is
defined last (`keys_ofList`, `get?_ofList`).  A model keeps this order and has the linked drafts as
its bodies (`Model.Defines`).

There is a model if every draft in the table refers to names in the table, and the policy to names
that there are (`Linkable`).  With names in place of ids, its bodies are the drafts again.
-/
import GrammarCompletion.Proofs.Compile.Entries
import GrammarCompletion.Proofs.Compile.Parts

namespace GrammarCompletion

namespace OrderedMap

variable {κ ν : Type} {m : OrderedMap κ ν}

/-- The keys of a map as a set in their order. -/
def keySet (m : OrderedMap κ ν) : OrderedSet κ := ⟨m.keys, m.nodup_keys⟩

variable [DecidableEq κ] {k : κ} {v : ν} {l : List (κ × ν)}

lemma keySet_insert : (m.insert k v).keySet = m.keySet.insert k :=
  OrderedSet.ext (by rw [OrderedSet.toList_insert]; exact keys_insert)

lemma keySet_insertAll : (m.insertAll l).keySet = m.keySet.insertAll (l.map Prod.fst) := by
  induction l generalizing m with
  | nil => rfl
  | cons e l ih => rw [insertAll_cons, ih, keySet_insert, List.map_cons, OrderedSet.insertAll_cons]

/-- Every key stands where it is inserted first. -/
lemma keys_ofList : (ofList l).keys = (OrderedSet.ofList (l.map Prod.fst)).toList :=
  congrArg OrderedSet.toList keySet_insertAll

lemma get?_insertAll : (m.insertAll l).get? k = (l.reverse.lookup k).or (m.get? k) := by
  induction l generalizing m with
  | nil => rfl
  | cons e l ih =>
    obtain ⟨a, b⟩ := e
    rw [insertAll_cons, ih, get?_insert, List.reverse_cons, List.lookup_append, Option.or_assoc]
    congr 1
    by_cases h : k = a
    · simp [h]
    · have h' : (k == a) = false := by simpa using h
      simp [h, List.lookup_cons, h']

/-- Every key has the value that is inserted last. -/
lemma get?_ofList : (ofList l).get? k = l.reverse.lookup k :=
  get?_insertAll.trans (Option.or_none)

end OrderedMap

/-! ## Drafts of rules -/

/-- The drafts of some rules, in the order of the rules. -/
def Draft.ofRules (v : Vocabulary) (rules : List Grammar.Rule) :
    Except CompileError Definitions := do
  return (← rules.mapM fun r => ofBlock v r.name r.name r.block).flatten

variable {v : Vocabulary} {p : Policy} {rules rules' : List Grammar.Rule} {defs : Definitions}
  {t : DraftTable} {m : Model} {owner name : String} {d : Draft}

namespace Draft

lemma ofRules_append : ofRules v (rules ++ rules') = (do
    let defs ← ofRules v rules
    let defs' ← ofRules v rules'
    return defs ++ defs') := by
  simp [ofRules, List.mapM_append]

lemma ofRules_append_eq_ok : ofRules v (rules ++ rules') = .ok defs ↔
    ∃ l l', ofRules v rules = .ok l ∧ ofRules v rules' = .ok l' ∧ defs = l ++ l' := by
  rw [ofRules_append]
  simp only [Except.bind_eq_ok, pure, Except.pure, Except.ok.injEq]
  grind

lemma ofRules_cons_eq_ok {r : Grammar.Rule} : ofRules v (r :: rules) = .ok defs ↔
    ∃ part l, ofBlock v r.name r.name r.block = .ok part ∧ ofRules v rules = .ok l ∧
      defs = part ++ l := by
  have hr : ofRules v [r] = ofBlock v r.name r.name r.block := by simp [ofRules]
  rw [← List.singleton_append, ofRules_append_eq_ok, hr]

/-- There are drafts of some rules if there are of each of them. -/
lemma exists_ofRules_iff : (∃ defs, ofRules v rules = .ok defs) ↔
    ∀ r ∈ rules, ∃ part, ofBlock v r.name r.name r.block = .ok part := by
  rw [ofRules, Except.exists_bind_pure_iff, Except.exists_mapM_iff]

/-- The drafts of some grammars are those of their rules. -/
lemma ofRules_flatMap {grammars : List Grammar} :
    ofRules v (grammars.flatMap Grammar.parserRules) = (do
      return (← grammars.mapM (Grammar.drafts v)).flatten) := by
  induction grammars with
  | nil => rfl
  | cons h grammars ih =>
    rw [List.flatMap_cons, ofRules_append, ih, List.mapM_cons]
    have hrules : ofRules v h.parserRules = h.drafts v := rfl
    simp [hrules]

/-- Every draft is made of the block of a rule, and all drafts of that block are there. -/
lemma exists_parts_of_ofRules (h : ofRules v rules = .ok defs) {e : String × Draft}
    (he : e ∈ defs) : ∃ r ∈ rules, ∃ part, PartsOfBlock r.name r.block part ∧ e ∈ part ∧
      part ⊆ defs := by
  obtain ⟨parts, hparts, h⟩ := Except.bind_eq_ok.1 h
  obtain rfl : parts.flatten = defs := Except.ok.inj h
  obtain ⟨part, hpart, he⟩ := List.mem_flatten.1 he
  obtain ⟨r, hr, hblock⟩ := Except.exists_of_mem_mapM hparts hpart
  exact ⟨r, hr, part, ofBlock_parts r.block hblock, he,
    fun _ hmem => List.mem_flatten.2 ⟨part, hpart, hmem⟩⟩

/-- Every rule has a draft of its name. -/
lemma mem_names_of_ofRules (h : ofRules v rules = .ok defs) {r : Grammar.Rule} (hr : r ∈ rules) :
    r.name ∈ defs.map Prod.fst := by
  obtain ⟨parts, hparts, h⟩ := Except.bind_eq_ok.1 h
  obtain rfl : parts.flatten = defs := Except.ok.inj h
  obtain ⟨part, hpart, hblock⟩ := Except.exists_mem_of_mapM hparts hr
  obtain ⟨d, inner, rfl, -, -⟩ := ofBlock_parts r.block hblock
  exact List.mem_map.2 ⟨_, List.mem_flatten.2 ⟨_, hpart, List.mem_cons_self⟩, rfl⟩

end Draft

/-- A compilation whose imports can be followed is one of the rules of all grammars. -/
lemma Grammar.compile_of_run {g : Grammar} {loader : Option Loader} {grammars : List Grammar}
    (h : Traversal.run loader g = (grammars, none)) : g.compile v p loader = (do
      DraftTable.link (.ofList (← Draft.ofRules v (grammars.flatMap Grammar.parserRules))) v p) := by
  rw [Grammar.compile, h, Draft.ofRules_flatMap]
  simp

/-- A compilation whose imports cannot be followed fails. -/
lemma Grammar.compile_ne_ok_of_run {g : Grammar} {loader : Option Loader} {grammars : List Grammar}
    {fault : ImportError} (h : Traversal.run loader g = (grammars, some fault)) :
    g.compile v p loader ≠ .ok m := by
  intro hm
  rw [Grammar.compile, h] at hm
  obtain ⟨drafts, hdrafts, hm⟩ := Except.bind_eq_ok.1 hm
  simp [throw, throwThe, MonadExceptOf.throw] at hm

/-! ## Tables that can be linked -/

/-- What a table has to have so that there is a model. -/
structure Linkable (t : DraftTable) (v : Vocabulary) (p : Policy) : Prop where
  /-- There is a rule. -/
  nonempty : t.entries ≠ []
  /-- Every draft refers to rules that there are. -/
  refers : ∀ e ∈ t.entries, ∀ ref, e.2.Refers ref → ref ∈ t
  /-- The rules that the policy names. -/
  policy : ∀ name ∈ p.specialRules ++ p.ignoredRules, name ∈ t
  /-- The tokens that the policy names. -/
  tokens : ∃ ids, DraftTable.policyTokens v p.ignoredTokens = .ok ids

namespace DraftTable

lemma exists_ruleId?_iff : (∃ id, t.ruleId? name = some id) ↔ name ∈ t := by
  simp [ruleId?, OrderedMap.indexOf?, OrderedMap.mem_iff, ← Option.isSome_iff_exists]

lemma exists_linkNode_iff {n : Node String} : (∃ n', t.linkNode owner n = .ok n') ↔
    ∀ ref, n.symbol = .rule ref → ref ∈ t := by
  unfold linkNode
  cases n.symbol with
  | token id => simp
  | rule ref =>
    simp only [Symbol.rule.injEq, forall_eq', ← exists_ruleId?_iff]
    cases t.ruleId? ref <;> simp

lemma exists_linkBody_iff : (∃ body, t.linkBody owner d = .ok body) ↔
    ∀ ref, d.Refers ref → ref ∈ t := by
  cases d with
  | tokenSet tokens => simp [linkBody, RuleBody.Refers, RuleBody.sequenceList]
  | sequences list =>
    rw [linkBody, Except.exists_bind_pure_iff, Except.exists_mapM_iff]
    simp only [linkSequence, Except.exists_bind_pure_iff, Except.exists_mapM_iff,
      exists_linkNode_iff, RuleBody.Refers, RuleBody.sequenceList]
    exact ⟨fun h ref ⟨q, hq, n, hn, href⟩ => h q hq n hn ref href,
      fun h q hq n hn ref href => h ref ⟨q, hq, n, hn, href⟩⟩

lemma exists_policyRules_iff {names : List String} : (∃ ids, t.policyRules names = .ok ids) ↔
    ∀ name ∈ names, name ∈ t := by
  rw [policyRules, Except.exists_mapM_iff]
  refine forall₂_congr fun name _ => ?_
  rw [← exists_ruleId?_iff]
  cases t.ruleId? name <;> simp

lemma exists_linkEntries_iff : (∃ rules, t.linkEntries = .ok rules) ↔
    ∀ e ∈ t.entries, ∀ ref, e.2.Refers ref → ref ∈ t := by
  simp only [linkEntries, Except.exists_mapM_iff, Except.exists_bind_pure_iff, exists_linkBody_iff]

/-- **When there is a model.** -/
theorem exists_link_iff : (∃ m, t.link v p = .ok m) ↔ Linkable t v p := by
  simp only [Grammar.link_eq_ok_iff]
  constructor
  · rintro ⟨m, hne, rules, special, ignored, tokens, hrules, hspecial, hignored, htokens, -⟩
    refine ⟨by simpa [OrderedMap.isEmpty] using hne, exists_linkEntries_iff.1 ⟨rules, hrules⟩,
      List.forall_mem_append.2 ⟨?_, ?_⟩, ⟨tokens, htokens⟩⟩
    · exact exists_policyRules_iff.1 ⟨special, hspecial⟩
    · exact exists_policyRules_iff.1 ⟨ignored, hignored⟩
  · intro h
    obtain ⟨hspecial, hignored⟩ := List.forall_mem_append.1 h.policy
    obtain ⟨rules, hrules⟩ := exists_linkEntries_iff.2 h.refers
    obtain ⟨special, hspecial⟩ := exists_policyRules_iff.2 hspecial
    obtain ⟨ignored, hignored⟩ := exists_policyRules_iff.2 hignored
    obtain ⟨tokens, htokens⟩ := h.tokens
    exact ⟨_, by simpa [OrderedMap.isEmpty] using h.nonempty, rules, special, ignored, tokens,
      hrules, hspecial, hignored, htokens, rfl⟩

/-- What stops the linking of drafts is never an import. -/
lemma link_ne_imports {e : ImportError} : t.link v p ≠ .error (.imports e) := by
  have hpure : ∀ {α : Type} (a : α),
      (Pure.pure a : Except CompileError α) ≠ .error (.imports e) := fun a h => nomatch h
  have hnode : ∀ owner n, t.linkNode owner n ≠ .error (.imports e) := by
    intro owner n
    unfold linkNode
    split
    · simp
    · split <;> simp
  have hbody : ∀ owner d, t.linkBody owner d ≠ .error (.imports e) := by
    intro owner d
    cases d with
    | tokenSet tokens => simp [linkBody]
    | sequences list =>
      refine Except.bind_ne_error (Except.mapM_ne_error fun q _ => ?_) fun _ => hpure _
      exact Except.bind_ne_error (Except.mapM_ne_error fun n _ => hnode owner n) fun _ => hpure _
  have hrules : ∀ names, t.policyRules names ≠ .error (.imports e) := by
    refine fun names => Except.mapM_ne_error fun name _ => ?_
    split <;> simp
  have htokens : policyTokens v p.ignoredTokens ≠ .error (.imports e) := by
    refine Except.mapM_ne_error fun name _ => ?_
    split <;> simp
  unfold link
  split
  · exact fun h => nomatch h
  · refine Except.bind_ne_error (Except.mapM_ne_error fun entry _ => ?_) fun _ => ?_
    · exact Except.bind_ne_error (hbody entry.1 entry.2) fun _ => hpure _
    refine Except.bind_ne_error (hrules _) fun _ => ?_
    refine Except.bind_ne_error (hrules _) fun _ => ?_
    exact Except.bind_ne_error htokens fun _ => hpure _

end DraftTable

/-- A model has the rules that are defined in a list: each name at the place of its first
definition, and with the body of its last one. -/
structure Model.Defines (m : Model) (defs : Definitions) : Prop where
  /-- The names stand in the order of their first definitions. -/
  keys : m.rules.keys = (OrderedSet.ofList (defs.map Prod.fst)).toList
  /-- The bodies are the last definitions, with places for names. -/
  body : ∀ name d, defs.reverse.lookup name = some d → ∃ body, m.bodyOf? name = some body ∧
    DraftTable.linkBody (.ofList defs) name d = .ok body

open Grammar in
/-- What comes out of linking has the rules that went in. -/
lemma defines_of_link (h : DraftTable.link (.ofList defs) v p = .ok m) : m.Defines defs where
  keys := (keys_of_link h).symm.trans OrderedMap.keys_ofList
  body := by
    intro name d hd
    have hentry : (name, d) ∈ (OrderedMap.ofList defs).entries :=
      OrderedMap.mem_entries_of_get? (OrderedMap.get?_ofList.trans hd)
    obtain ⟨⟨_, body⟩, hbody, rfl, hlink⟩ := (exists_of_forall₂ (entries_of_link h)).1 _ hentry
    exact ⟨body, OrderedMap.get?_of_mem_entries hbody, hlink⟩

/-! ## Names in place of ids -/

/-- A symbol with other references. -/
def Symbol.mapRef {ρ σ : Type} (f : ρ → σ) : Symbol ρ → Symbol σ
  | .token id => .token id
  | .rule ref => .rule (f ref)

/-- A node with another reference. -/
def Node.mapRef {ρ σ : Type} (f : ρ → σ) (n : Node ρ) : Node σ :=
  ⟨n.symbol.mapRef f, n.cardinality, n.any⟩

/-- A body with other references. -/
def RuleBody.mapRefs {ρ σ : Type} (f : ρ → σ) : RuleBody ρ → RuleBody σ
  | .tokenSet tokens => .tokenSet tokens
  | .sequences list => .sequences (list.map fun q => ⟨q.nodes.map (Node.mapRef f), q.predicate⟩)

namespace Model

/-- The name of a rule, if there is one. -/
def nameOf? (m : Model) (id : RuleId) : Option String := (m.rules.entry? id.index).map Prod.fst

/-- The body of a rule with names in place of ids. -/
def bodyByName? (m : Model) (name : String) : Option (RuleBody (Option String)) :=
  (m.bodyOf? name).map (RuleBody.mapRefs m.nameOf?)

end Model

/-- Linking is undone by looking up the names. -/
lemma DraftTable.mapRefs_of_linkBody {body : RuleBody RuleId} {f : RuleId → Option String}
    (hf : ∀ name id, t.ruleId? name = some id → f id = some name)
    (h : t.linkBody owner d = .ok body) : body.mapRefs f = d.mapRefs some := by
  have hnode : ∀ n n', t.linkNode owner n = .ok n' → n'.mapRef f = n.mapRef some := by
    rintro ⟨symbol, c, any⟩ n' hn
    cases symbol with
    | token id =>
      obtain rfl := Except.ok.inj hn
      rfl
    | rule name =>
      simp only [linkNode] at hn
      split at hn
      · next id hid =>
        obtain rfl := Except.ok.inj hn
        simp [Node.mapRef, Symbol.mapRef, hf name id hid]
      · simp at hn
  cases d with
  | tokenSet tokens =>
    obtain rfl := Except.ok.inj h
    rfl
  | sequences list =>
    obtain ⟨list', hlist, h⟩ := Except.bind_eq_ok.1 h
    obtain rfl := Except.ok.inj h
    refine congrArg RuleBody.sequences (map_eq_of_forall₂ ?_).symm
    refine (Except.forall₂_of_mapM hlist).imp fun q q' hq => ?_
    obtain ⟨nodes, hnodes, hq⟩ := Except.bind_eq_ok.1 hq
    obtain rfl := Except.ok.inj hq
    have hmap : q.nodes.map (Node.mapRef some) = nodes.map (Node.mapRef f) :=
      map_eq_of_forall₂ ((Except.forall₂_of_mapM hnodes).imp fun n n' hn => (hnode n n' hn).symm)
    rw [hmap]

/-- **The bodies of a model are the last definitions**, with names in place of ids. -/
theorem Model.Defines.bodyByName? (h : m.Defines defs) (hd : defs.reverse.lookup name = some d) :
    m.bodyByName? name = some (d.mapRefs some) := by
  obtain ⟨body, hbody, hlink⟩ := h.body name d hd
  have hids : ∀ name, DraftTable.ruleId? (.ofList defs) name = m.ruleId? name := by
    intro name
    rw [DraftTable.ruleId?, Model.ruleId?, OrderedMap.indexOf?, OrderedMap.indexOf?, h.keys,
      OrderedMap.keys_ofList]
  rw [Model.bodyByName?, hbody, Option.map_some]
  refine congrArg some (DraftTable.mapRefs_of_linkBody (fun name id hid => ?_) hlink)
  rw [hids] at hid
  obtain ⟨body', hentry⟩ := Grammar.refers_iff.1 hid
  simp [Model.nameOf?, OrderedMap.entry?, hentry]

end GrammarCompletion
