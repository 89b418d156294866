/-
# Collecting in plain models

In a model without left recursion, and in which nothing is special or ignored, collecting from nodes
or from a rule offers every token that may come first, and it ends pending where the empty string is
derived (`Session.Gathers.covers`).
-/
import GrammarCompletion.Proofs.Offers.Steps
import GrammarCompletion.Proofs.Offers.Visits
import GrammarCompletion.Proofs.Predictive.Grammar

namespace GrammarCompletion

/-- A token is among offers. -/
def Offers (L : Set Event) (t : TokenId) : Prop := ∃ c, Event.offerToken t c ∈ L

lemma Offers.mono {L L' : Set Event} {t : TokenId} (h : Offers L t) (hL : L ⊆ L') : Offers L' t := by
  obtain ⟨c, hc⟩ := h
  exact ⟨c, hL hc⟩

/-- Collecting offers what it has to, and it is pending where the empty string is derived. -/
structure Covers (N : Prop) (F : TokenId → Prop) (ph : Phase) (L : Set Event) : Prop where
  pending : N → ph = .pending
  offers : ∀ t, F t → Offers L t

variable {s : Session} {V : Visit} {C : Gather} {n : Node RuleId} {rest nodes : List (Node RuleId)}
  {list : List (Sequence RuleId)} {ph : Phase} {L : Set Event} {t : TokenId}

namespace Plan.Yields

lemma covers_token {u : TokenId} {c : List TokenId} (hp : s.model.Plain) (hu : u ≠ .wildcard) :
    Offers (offered s u c) u := by
  have hignored : s.model.isIgnoredToken u = false := by
    by_contra hne
    exact hu (hp.ignoredToken u (by simpa using hne))
  refine ⟨c, ?_⟩
  rw [offered, hignored, if_neg Bool.false_ne_true]
  exact Set.mem_singleton _

/-- Collecting from nodes, given that it is known for the rules that may come first in them. -/
lemma covers_nodes (hp : s.model.Plain) (hnodes : ∀ n ∈ nodes, n.Plain)
    (hC : ∀ front n back id, nodes = front ++ n :: back → s.model.DerivesNodes front [] →
      n.symbol = .rule id → ∀ k L, C id k L →
        Covers (s.model.Nullable id) (s.model.Starts [.rule id]) k L)
    (h : (collectNodes s nodes).Yields V C ph L) :
    Covers (s.model.DerivesNodes nodes []) (s.model.First nodes) ph L := by
  induction nodes generalizing ph L with
  | nil =>
    obtain ⟨rfl, rfl⟩ := yields_collectNodes_nil.1 h
    refine ⟨fun _ => rfl, fun t ht => ?_⟩
    obtain ⟨x, hx, hs⟩ := ht
    cases hx
    exact absurd hs Model.not_starts_nil
  | cons n rest ih =>
    have hn : n.Plain := hnodes n List.mem_cons_self
    -- behind a node that may be empty, the rest is collected from
    have hrest : s.model.DerivesNodes [n] [] → ∀ {k L}, (collectNodes s rest).Yields V C k L →
        Covers (s.model.DerivesNodes rest []) (s.model.First rest) k L := by
      intro hnil k L hy
      refine ih (fun k hk => hnodes k (List.mem_cons_of_mem n hk)) ?_ hy
      intro front k back id hrest hfront hk
      exact hC (n :: front) k back id (by rw [hrest, List.cons_append])
        (Model.DerivesNodes.append hnil hfront) hk
    cases hs : n.symbol with
    | token u =>
      obtain ⟨heof, hwild⟩ := hn.2 u hs
      obtain ⟨L', hgo, rfl⟩ := (yields_collectNodes_token hs heof).1 h
      rw [hn.1, if_neg Bool.false_ne_true]
      have hbehind : s.model.DerivesNodes [n] [] →
          Covers (s.model.DerivesNodes rest []) (s.model.First rest) ph L' := by
        intro hnil
        rcases hnil.single_nil_inv with hr | ⟨id, hid, -⟩
        · rw [if_neg (ne_true_of_eq_false hr)] at hgo
          exact hrest hnil hgo
        · simp [hs] at hid
      refine ⟨fun hnull => ?_, fun t ht => ?_⟩
      · obtain ⟨hnil, hnull⟩ := hnull.cons_nil_inv
        exact (hbehind hnil).pending hnull
      · rcases ht.cons_inv with hfirst | ⟨hnil, ht⟩
        · obtain rfl := hfirst.token_inv hn hs
          exact (covers_token hp hwild).mono Set.subset_union_left
        · exact ((hbehind hnil).offers t ht).mono Set.subset_union_right
    | rule id =>
      obtain ⟨k, L₁, L₂, hc, hgo, rfl⟩ := (yields_collectNodes_rule hs).1 h
      have hid := hC [] n rest id rfl .nil hs k L₁ hc
      have hbehind : s.model.DerivesNodes [n] [] →
          Covers (s.model.DerivesNodes rest []) (s.model.First rest) ph L₂ := by
        intro hnil
        have hgoes : ¬ (n.isRequired = true ∧ k = .matching) := by
          rintro ⟨hr, rfl⟩
          rcases hnil.single_nil_inv with hr' | ⟨id', hid', hnull⟩
          · exact absurd hr (ne_true_of_eq_false hr')
          · obtain rfl := Symbol.rule.inj (hs.symm.trans hid')
            simpa using hid.pending hnull
        rw [if_neg hgoes] at hgo
        exact hrest hnil hgo
      refine ⟨fun hnull => ?_, fun t ht => ?_⟩
      · obtain ⟨hnil, hnull⟩ := hnull.cons_nil_inv
        exact (hbehind hnil).pending hnull
      · rcases ht.cons_inv with hfirst | ⟨hnil, ht⟩
        · exact (hid.offers t (hfirst.rule_inv hs)).mono Set.subset_union_left
        · exact ((hbehind hnil).offers t ht).mono Set.subset_union_right

/-- Collecting from alternatives, given what is known of each. -/
lemma covers_sequences
    (hlist : ∀ q ∈ list, ∀ k L, (collectNodes s q.nodes).Yields V C k L →
      Covers (s.model.DerivesNodes q.nodes []) (s.model.First q.nodes) k L)
    (h : (collectSequences s list).Yields V C ph L) :
    ∀ q ∈ list, Covers (s.model.DerivesNodes q.nodes []) (s.model.First q.nodes) ph L := by
  induction list generalizing ph L with
  | nil => exact fun q hq => absurd hq List.not_mem_nil
  | cons k rest ih =>
    obtain ⟨ph₁, ph₂, L₁, L₂, h₁, h₂, rfl, rfl⟩ := yields_collectSequences_cons.1 h
    intro q hq
    rcases List.mem_cons.1 hq with rfl | hq
    · have hq := hlist q List.mem_cons_self ph₁ L₁ h₁
      exact ⟨fun hnull => Phase.or_eq_pending.2 (Or.inl (hq.pending hnull)),
        fun t ht => (hq.offers t ht).mono Set.subset_union_left⟩
    · have hq := ih (fun q hq => hlist q (List.mem_cons_of_mem k hq)) h₂ q hq
      exact ⟨fun hnull => Phase.or_eq_pending.2 (Or.inr (hq.pending hnull)),
        fun t ht => (hq.offers t ht).mono Set.subset_union_right⟩

lemma offers_tokens {tokens : List TokenId} (hp : s.model.Plain)
    (htokens : ∀ u ∈ tokens, u ≠ .wildcard) (h : (collectTokens s tokens).Yields V C ph L) :
    ∀ u ∈ tokens, Offers L u := by
  induction tokens generalizing L with
  | nil => exact fun u hu => absurd hu List.not_mem_nil
  | cons t rest ih =>
    obtain ⟨⟨⟩, L₁, L₂, hoffer, hrest, rfl⟩ := yields_bind.1 h
    obtain rfl := yields_offerUnlessIgnored.1 hoffer
    intro u hu
    rcases List.mem_cons.1 hu with rfl | hu
    · exact (covers_token hp (htokens u List.mem_cons_self)).mono Set.subset_union_left
    · have hmore := ih (fun u hu => htokens u (List.mem_cons_of_mem t hu)) hrest u hu
      exact hmore.mono Set.subset_union_right

end Plan.Yields

/-- **Collecting from a rule is complete** in a plain model without left recursion. -/
theorem Session.Gathers.covers {inside : List RuleId} {r : RuleId} (hp : s.model.Plain)
    (hacyclic : ∀ r, ¬ s.model.LeftReach r r) (h : s.Gathers inside r ph L)
    (hinside : ∀ i ∈ inside, s.model.LeftReach i r) :
    Covers (s.model.Nullable r) (s.model.Starts [.rule r]) ph L := by
  refine Session.Gathers.induction (P := fun inside r ph L =>
    (∀ i ∈ inside, s.model.LeftReach i r) →
      Covers (s.model.Nullable r) (s.model.Starts [.rule r]) ph L)
    (fun inside r ph L hstep hinside => ?_) h hinside
  cases hstep with
  | special hs => exact absurd hs (ne_true_of_eq_false (hp.special r))
  | closed _ hc =>
    rcases hc with hi | hr
    · exact absurd hi (ne_true_of_eq_false (hp.ignored r))
    · exact absurd (hinside r hr) (hacyclic r)
  | @tokenSet tokens _ _ _ hb hy =>
    have hoffers := hy.offers_tokens hp fun u hu => (hp.tokenSet r tokens hb u hu).2
    refine ⟨fun hnull => ?_, fun t ht => ?_⟩
    · obtain ⟨x, hx, hd⟩ := Model.Nullable.produces hnull
      obtain ⟨u, -, rfl⟩ := hx.of_tokenSet hb
      simpa using hd.token_inv
    · obtain ⟨x, hx, hs⟩ := ht.produces
      obtain ⟨u, hu, rfl⟩ := hx.of_tokenSet hb
      obtain rfl := hs.token_inv
      exact hoffers t hu
  | @sequences list _ _ _ hb hy =>
    -- each rule that may come first is collected from inside this one
    have hlist : ∀ q ∈ list, ∀ k L, (Plan.collectNodes s q.nodes).Yields (fun _ _ _ => False)
        (fun id k L => s.Gathers (r :: inside) id k L ∧
          ((∀ i ∈ r :: inside, s.model.LeftReach i id) →
            Covers (s.model.Nullable id) (s.model.Starts [.rule id]) k L)) k L →
        Covers (s.model.DerivesNodes q.nodes []) (s.model.First q.nodes) k L := by
      intro q hq k L hy
      refine hy.covers_nodes hp (hp.node q (Model.mem_sequences hb hq)) ?_
      intro front n back id hnodes hfront hn k L hc
      have hrefers : s.model.LeftRefers r id := ⟨list, hb, q, hq, front, n, back, hnodes, hn, hfront⟩
      refine hc.2 fun i hi => ?_
      rcases List.mem_cons.1 hi with rfl | hi
      · exact .single hrefers
      · exact (hinside i hi).tail hrefers
    have hcovers := hy.covers_sequences hlist
    refine ⟨fun hnull => ?_, fun t ht => ?_⟩
    · obtain ⟨x, hx, hd⟩ := Model.Nullable.produces hnull
      obtain ⟨q, hq, hx⟩ := hx.of_sequences hb
      exact (hcovers q hq).pending ⟨x, hx, hd⟩
    · obtain ⟨x, hx, hs⟩ := ht.produces
      obtain ⟨q, hq, hx⟩ := hx.of_sequences hb
      exact (hcovers q hq).offers t ⟨x, hx, hs⟩

end GrammarCompletion
