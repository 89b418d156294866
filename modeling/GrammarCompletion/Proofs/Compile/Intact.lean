/-
# Models that come from compilations

Compilation produces no defects: in a model of a grammar every id is that of a rule, no body is
empty, and a node that matches any token has the wildcard, which is never offered (`Model.Intact`).

Ids and bodies get into a model in two ways.  Ids are places of names in the table of drafts, and
the model has its rules in the same places; and bodies are linked drafts, none of which is empty.
-/
import GrammarCompletion.Proofs.Compile.Table
import GrammarCompletion.Proofs.Derivation

namespace GrammarCompletion

/-- A model without defects. -/
structure Model.Intact (m : Model) : Prop where
  /-- Nodes refer to rules of the model. -/
  wellFormed : m.WellFormed
  /-- The special rules are rules of the model. -/
  special : ∀ id ∈ m.specialRules, id.index < m.ruleCount
  /-- The ignored rules are rules of the model. -/
  ignored : ∀ id ∈ m.ignoredRules, id.index < m.ruleCount
  /-- No body is empty, and nodes that match any token have the wildcard. -/
  proper : ∀ e ∈ m.rules.entries, e.2.Proper
  /-- The wildcard is never offered. -/
  wildcard : .wildcard ∈ m.ignoredTokens

variable {t : DraftTable} {owner : String} {v : Vocabulary} {p : Policy} {m : Model}

namespace DraftTable

/-- A linked node is the node of a draft, with a place of the table for a name. -/
lemma exists_of_linkNode {n : Node String} {n' : Node RuleId} (h : t.linkNode owner n = .ok n') :
    (n.Proper → n'.Proper) ∧ ∀ id, n'.symbol = .rule id → ∃ name, t.ruleId? name = some id := by
  obtain ⟨symbol, c, any⟩ := n
  cases symbol with
  | token id =>
    obtain rfl := Except.ok.inj h
    refine ⟨fun hn hany => ?_, nofun⟩
    obtain rfl : id = .wildcard := Symbol.token.inj (hn hany)
    rfl
  | rule name =>
    simp only [linkNode] at h
    split at h
    · next id hid =>
      obtain rfl := Except.ok.inj h
      refine ⟨fun hn hany => absurd (hn hany) (by simp), fun id' hid' => ⟨name, ?_⟩⟩
      rw [hid, Symbol.rule.inj hid']
    · simp at h

/-- A linked body has as many sequences as its draft, and its nodes are linked nodes. -/
lemma exists_of_linkBody {d : Draft} {body : RuleBody RuleId} (hd : d.Proper)
    (h : t.linkBody owner d = .ok body) :
    body.Proper ∧ ∀ id, body.Refers id → ∃ name, t.ruleId? name = some id := by
  cases d with
  | tokenSet tokens =>
    obtain rfl := Except.ok.inj h
    exact ⟨hd, fun id ⟨q, hq, _⟩ => by simp [RuleBody.sequenceList] at hq⟩
  | sequences list =>
    obtain ⟨list', hlist, h⟩ := Except.bind_eq_ok.1 h
    obtain rfl : RuleBody.sequences list' = body := Except.ok.inj h
    obtain ⟨hne, hnodes⟩ := hd
    -- every node comes from one of the draft
    have hnode : ∀ q' ∈ list', ∀ n' ∈ q'.nodes, n'.Proper ∧
        ∀ id, n'.symbol = .rule id → ∃ name, t.ruleId? name = some id := by
      intro q' hq' n' hn'
      obtain ⟨q, hq, hlink⟩ := Except.exists_of_mem_mapM hlist hq'
      obtain ⟨nodes', hnodes', hlink⟩ := Except.bind_eq_ok.1 hlink
      obtain rfl : ⟨nodes', q.predicate⟩ = q' := Except.ok.inj hlink
      obtain ⟨n, hn, hlink⟩ := Except.exists_of_mem_mapM hnodes' hn'
      obtain ⟨hproper, hid⟩ := exists_of_linkNode hlink
      exact ⟨hproper (hnodes q hq n hn), hid⟩
    refine ⟨⟨?_, fun q hq n hn => (hnode q hq n hn).1⟩, ?_⟩
    · have hlen : list.length = list'.length := (Except.forall₂_of_mapM hlist).length_eq
      exact List.ne_nil_of_length_pos (hlen ▸ List.length_pos_iff.2 hne)
    · rintro id ⟨q, hq, n, hn, hid⟩
      exact (hnode q hq n hn).2 id hid

/-- The rules that a policy names are rules of the table. -/
lemma exists_of_policyRules {names : List String} {ids : List RuleId}
    (h : t.policyRules names = .ok ids) {id : RuleId} (hid : id ∈ ids) :
    ∃ name, t.ruleId? name = some id := by
  obtain ⟨name, -, hname⟩ := Except.exists_of_mem_mapM h hid
  refine ⟨name, ?_⟩
  split at hname
  · next id' hid' => rw [hid', Except.ok.inj hname]
  · simp at hname

/-- **Linking makes no defects.** -/
theorem intact_of_link (hd : ∀ e ∈ t.entries, e.2.Proper) (h : t.link v p = .ok m) : m.Intact := by
  -- what has a place in the table has one in the model
  have hplace : ∀ id, (∃ name, t.ruleId? name = some id) → id.index < m.ruleCount := by
    rintro id ⟨name, hid⟩
    obtain ⟨body, hentry⟩ := Grammar.refers_iff.1 ((Grammar.ruleId?_of_link h).symm ▸ hid)
    exact (List.getElem?_eq_some_iff.1 hentry).1
  have hbody : ∀ e ∈ m.rules.entries, e.2.Proper ∧ ∀ id, e.2.Refers id → id.index < m.ruleCount := by
    intro e he
    obtain ⟨d, hdraft, -, hlink⟩ := (exists_of_forall₂ (Grammar.entries_of_link h)).2 e he
    obtain ⟨hproper, hrefers⟩ := exists_of_linkBody (hd d hdraft) hlink
    exact ⟨hproper, fun id hid => hplace id (hrefers id hid)⟩
  obtain ⟨-, rules, special, ignored, tokens, -, hspecial, hignored, -, rfl⟩ :=
    Grammar.link_eq_ok_iff.1 h
  refine ⟨?_, fun id hid => hplace id ?_, fun id hid => hplace id ?_, fun e he => (hbody e he).1, ?_⟩
  · intro q hq n hn id hid
    obtain ⟨e, he, hq⟩ := List.mem_flatMap.1 hq
    exact (hbody e he).2 id ⟨q, hq, n, hn, hid⟩
  · have hmem : id ∈ special := (OrderedSet.mem_insertAll.1 hid).resolve_left OrderedSet.not_mem_empty
    exact exists_of_policyRules hspecial hmem
  · have hmem : id ∈ ignored := (OrderedSet.mem_insertAll.1 hid).resolve_left OrderedSet.not_mem_empty
    exact exists_of_policyRules hignored hmem
  · exact OrderedSet.mem_insertAll.2 (.inl (OrderedSet.mem_singleton.2 rfl))

end DraftTable

/-- **Compilation makes no defects**, with whatever imports. -/
theorem Grammar.intact_of_compile {g : Grammar} {loader : Option Loader}
    (h : g.compile v p loader = .ok m) : m.Intact := by
  rcases hrun : Traversal.run loader g with ⟨grammars, fault⟩
  cases fault with
  | some fault => exact absurd h (compile_ne_ok_of_run hrun)
  | none =>
    rw [compile_of_run hrun] at h
    obtain ⟨defs, hdefs, h⟩ := Except.bind_eq_ok.1 h
    refine DraftTable.intact_of_link (fun e he => ?_) h
    obtain ⟨r, -, part, hpart, he, -⟩ :=
      Draft.exists_parts_of_ofRules hdefs (OrderedMap.mem_of_mem_entries_ofList he)
    exact hpart.proper he

end GrammarCompletion
