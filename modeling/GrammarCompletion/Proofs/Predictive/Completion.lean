/-
# Completions in predictive grammars

In a predictive grammar nothing is missing from a completion and nothing is too much: the tokens that
its candidates start with are those with which a string derived from the root goes on behind the text
(`Session.leads_exact`).
-/
import GrammarCompletion.Proofs.Loops.Form
import GrammarCompletion.Proofs.Predictive.Visits
import Mathlib

namespace GrammarCompletion

namespace Session

variable {s : Session} {root r r' : RuleId} {name : String} {c : Completion} {t : TokenId}
  {q : Sequence RuleId}

/-- **Completions are exact in predictive grammars.**  A token leads a candidate if and only if it
comes behind the typed tokens in something that the root derives. -/
theorem leads_exact (hp : s.model.Plain) (hacyclic : ∀ r, ¬ s.model.LeftReach r r)
    (hll : s.model.LL1 root) (hroot : s.model.ruleId? name = some root)
    (hc : s.complete name = .ok c) :
    ∃ o r, s.walk root = .ok o r ∧ s.completion o r.candidates = .ok c ∧
      (∀ t, t ∈ r.candidates.leads ↔
        ∃ b, s.model.Derives [.rule root] (Form.ofTokens s.typed ++ .token t :: b)) ∧
      ((¬ ∃ b, s.model.Derives [.rule root] (Form.ofTokens s.typed ++ b)) →
        r.candidates.leads = []) := by
  obtain ⟨root', o, r, hroot', hw, hcomp⟩ := complete_eq_ok hc
  obtain rfl : root = root' := Option.some.inj (hroot.symm.trans hroot')
  have hviable := (walk_sound hp.eofRequired hw).2
  have hdirect : s.model.DirectFrom root := fun x _ y hxy hyx => absurd (hxy.trans hyx) (hacyclic x)
  obtain ⟨L, hvisit, hreflects⟩ := walk_visits hdirect (index_lt_of_ruleId? hroot) hw
  have hstart : s.UpToStop ⟨root, s.stream.skipHidden 0⟩ :=
    ⟨TokenStream.visible_skipHidden (Nat.zero_le _), TokenStream.skipHidden_zero_le_stop⟩
  have hleads : ∀ t, t ∈ r.candidates.leads ↔
      ∃ b, s.model.Derives [.rule root] (Form.ofTokens s.typed ++ .token t :: b) := by
    intro t
    constructor
    · intro ht
      obtain ⟨l, hl⟩ := Candidates.mem_leads_iff.1 ht
      obtain ⟨b, hb⟩ := hviable.phrases t l hl
      exact ⟨Form.ofTokens l ++ b, by simpa [typed] using hb⟩
    · rintro ⟨b, hb⟩
      rw [typed_eq] at hb
      have hmeets : s.Meets o L (.beyond t) :=
        hvisit.meets hp hacyclic hll hstart (.refl root) ⟨b, hb⟩ trivial
      exact hreflects.mem_leads.2 hmeets
  refine ⟨o, r, hw, hcomp, hleads, fun hno => ?_⟩
  refine List.eq_nil_iff_forall_not_mem.2 fun t ht => hno ?_
  obtain ⟨b, hb⟩ := (hleads t).1 ht
  exact ⟨.token t :: b, hb⟩

/-! ## Chains of numbers -/

/-- Numbers with signs between them, `chain: NUM step*; step: PLUS NUM | MINUS NUM`. -/
def chains : Model where
  rules := .ofList [
    ("chain", .sequences [⟨[.token ⟨1⟩ .one, .rule ⟨1⟩ .zeroOrMore], none⟩]),
    ("step", .sequences [⟨[.token ⟨2⟩ .one, .token ⟨1⟩ .one], none⟩,
      ⟨[.token ⟨3⟩ .one, .token ⟨1⟩ .one], none⟩])]
  tokenNames := .ofList [(⟨1⟩, "NUM"), (⟨2⟩, "PLUS"), (⟨3⟩, "MINUS")]

lemma plain_chains : chains.Plain where
  special r := by simp [Model.isSpecial, chains]
  ignored r := by simp [Model.isIgnored, chains]
  ignoredToken t := by simp [Model.isIgnoredToken, chains]
  node q hq n hn := by
    have hnodes : ∀ q ∈ chains.sequences, ∀ n ∈ q.nodes,
        n.any = false ∧ n.tokenId? ≠ some .eof ∧ n.tokenId? ≠ some .wildcard := by decide
    obtain ⟨hany, heof, hwild⟩ := hnodes q hq n hn
    refine ⟨hany, fun t ht => ?_⟩
    simp only [Node.tokenId?, ht, ne_eq, Option.some.injEq] at heof hwild
    exact ⟨heof, hwild⟩
  tokenSet r tokens hb := by
    obtain ⟨name, he⟩ := Model.body_eq_ok_iff.1 hb
    have hbodies : ∀ e ∈ chains.rules.entries, e.2.tokens? = none := by decide
    simpa [RuleBody.tokens?] using hbodies _ (List.mem_of_getElem? he)

lemma requires_chains : chains.Requires := by
  unfold Model.Requires
  decide

/-- In each alternative the first node is a required token. -/
lemma head_chains (hq : q ∈ chains.sequences) : ∃ u rest, q.nodes = .token u .one :: rest := by
  have hlist : chains.sequences = [⟨[.token ⟨1⟩ .one, .rule ⟨1⟩ .zeroOrMore], none⟩,
      ⟨[.token ⟨2⟩ .one, .token ⟨1⟩ .one], none⟩, ⟨[.token ⟨3⟩ .one, .token ⟨1⟩ .one], none⟩] := by
    decide
  rw [hlist] at hq
  simp only [List.mem_cons, List.not_mem_nil, or_false] at hq
  rcases hq with rfl | rfl | rfl <;> exact ⟨_, _, rfl⟩

lemma not_leftRefers_chains : ¬ chains.LeftRefers r r' := by
  rintro ⟨list, hb, q, hq, pre, n, post, hnodes, hn, hpre⟩
  obtain ⟨u, rest, hhead⟩ := head_chains (Model.mem_sequences hb hq)
  rw [hhead] at hnodes
  cases pre with
  | nil =>
    obtain ⟨rfl, -⟩ := List.cons.inj hnodes
    cases hn
  | cons k pre =>
    obtain ⟨rfl, -⟩ := List.cons.inj hnodes
    rcases hpre.cons_nil_inv.1.single_nil_inv with hr | ⟨id, hid, -⟩
    · cases hr
    · cases hid

/-- A token that predicts an alternative is its first node. -/
lemma head_of_predict_chains {root : RuleId} (hq : q ∈ chains.sequences)
    (ht : chains.Predict root r q.nodes t) : q.nodes.head? = some (.token t .one) := by
  obtain ⟨u, rest, hhead⟩ := head_chains hq
  have hrequired : ¬ chains.DerivesNodes [.token u .one] [] := by
    intro hnil
    rcases hnil.single_nil_inv with hr | ⟨id, hid, -⟩
    · cases hr
    · cases hid
  rw [hhead] at ht ⊢
  rcases ht with hfirst | ⟨hnil, -⟩
  · rcases hfirst.cons_inv with hfirst | ⟨hnil, -⟩
    · obtain ⟨a, ha, hs⟩ := hfirst.occurrence
      obtain ⟨v, rfl, hv⟩ := ha
      rw [hs.token_inv, hv rfl]
      rfl
    · exact absurd hnil hrequired
  · exact absurd hnil.cons_nil_inv.1 hrequired

/-- The only node that may be left out or repeated is the last one of the first rule. -/
lemma loop_chains {list : List (Sequence RuleId)} {pre rest : List (Node RuleId)} {n : Node RuleId}
    (hb : chains.body r = .ok (.sequences list)) (hq : q ∈ list) (hnodes : q.nodes = pre ++ n :: rest)
    (hn : n.isRequired = false ∨ n.isMultiple = true) : r = ⟨0⟩ ∧ rest = [] := by
  have hnodes' : ∀ e ∈ chains.rules.entries.zipIdx, ∀ q ∈ e.1.2.sequenceList,
      ∀ k ∈ q.nodes.zipIdx, k.1.cardinality = .one ∨ e.2 = 0 ∧ k.2 + 1 = q.nodes.length := by
    decide
  obtain ⟨name, he⟩ := Model.body_eq_ok_iff.1 hb
  have hmem : (n, pre.length) ∈ q.nodes.zipIdx := by
    rw [List.mem_zipIdx_iff_getElem?, hnodes]
    simp
  have hentry : ((name, .sequences list), r.index) ∈ chains.rules.entries.zipIdx :=
    List.mem_zipIdx_iff_getElem?.2 he
  rcases hnodes' _ hentry q hq _ hmem with hone | ⟨hi, hlast⟩
  · have hone : n.cardinality = .one := hone
    simp [Node.isRequired, Node.isMultiple, hone, Cardinality.one] at hn
  · obtain ⟨i⟩ := r
    obtain rfl : i = 0 := hi
    rw [hnodes, List.length_append, List.length_cons] at hlast
    exact ⟨rfl, List.eq_nil_of_length_eq_zero (by omega)⟩

/-- The first rule is referred to nowhere. -/
lemma not_refers_chain : ¬ chains.Refers r ⟨0⟩ := by
  rintro ⟨list, hb, q, hq, n, hn, hs⟩
  have hnodes : ∀ q ∈ chains.sequences, ∀ n ∈ q.nodes, n.ruleRef? ≠ some ⟨0⟩ := by decide
  exact hnodes q (Model.mem_sequences hb hq) n hn (by simp [Node.ruleRef?, hs])

lemma not_leftReach_chains (r : RuleId) : ¬ chains.LeftReach r r := by
  intro hr
  obtain ⟨r', hr', -⟩ := Relation.TransGen.head'_iff.1 hr
  exact not_leftRefers_chains hr'

lemma ll1_chains : chains.LL1 ⟨0⟩ where
  alternatives {r list q q'} _ hb hq hq' hne t ht ht' := by
    have hheads : ∀ e ∈ chains.rules.entries, ∀ q ∈ e.2.sequenceList, ∀ q' ∈ e.2.sequenceList,
        q ≠ q' → q.nodes.head? ≠ q'.nodes.head? := by decide
    obtain ⟨name, he⟩ := Model.body_eq_ok_iff.1 hb
    refine hheads _ (List.mem_of_getElem? he) q hq q' hq' hne ?_
    rw [head_of_predict_chains (Model.mem_sequences hb hq) ht,
      head_of_predict_chains (Model.mem_sequences hb hq') ht']
  nodes {r list q pre n rest} _ hb hq hnodes hn := by
    obtain ⟨rfl, rfl⟩ := loop_chains hb hq hnodes hn
    refine ⟨fun id _ => requires_chains.not_nullable id, fun t _ hpredict => ?_⟩
    rcases hpredict with hfirst | ⟨-, hfollow⟩
    · obtain ⟨x, hx, hs⟩ := hfirst
      cases hx
      exact Model.not_starts_nil hs
    · exact Model.not_follow_root (fun _ => not_refers_chain) hfollow

/-- After a number, a sign and a number, another sign may follow, and nothing else. -/
theorem leads_chains :
    let s := onLine chains [⟨1⟩, ⟨2⟩, ⟨1⟩]
    s.model.Plain ∧ (∀ r, ¬ s.model.LeftReach r r) ∧ s.model.LL1 ⟨0⟩ ∧
      s.model.ruleId? "chain" = some ⟨0⟩ ∧
      s.complete "chain" = .ok ⟨["MINUS NUM", "PLUS NUM"], true, none, 3⟩ ∧
      ∃ o r, s.walk ⟨0⟩ = .ok o r ∧
        s.completion o r.candidates = .ok ⟨["MINUS NUM", "PLUS NUM"], true, none, 3⟩ ∧
        (∀ t, t ∈ r.candidates.leads ↔
          ∃ b, s.model.Derives [.rule ⟨0⟩] (Form.ofTokens s.typed ++ .token t :: b)) ∧
        ((¬ ∃ b, s.model.Derives [.rule ⟨0⟩] (Form.ofTokens s.typed ++ b)) →
          r.candidates.leads = []) := by
  have hroot : chains.ruleId? "chain" = some ⟨0⟩ := by decide
  have hcomplete : (onLine chains [⟨1⟩, ⟨2⟩, ⟨1⟩]).complete "chain" =
      .ok ⟨["MINUS NUM", "PLUS NUM"], true, none, 3⟩ := by cbv
  exact ⟨plain_chains, not_leftReach_chains, ll1_chains, hroot, hcomplete,
    leads_exact plain_chains not_leftReach_chains ll1_chains hroot hcomplete⟩

end Session

end GrammarCompletion
