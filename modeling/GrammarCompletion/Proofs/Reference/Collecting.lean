/-
# What may follow, read plainly

What may come next at the caret, by a recursion over the model that keeps nothing: it does not know
from which rules candidates are being collected already.  `Session.Expects` says in which phase a rule
is left and what it offers, `Session.ExpectsNodes` and `Session.ExpectsAny` say it of nodes in a row and
of alternatives, given what is known of rules.

Such a recursion comes to an end where no rule is left-recursive.  There, no rule is met inside itself
when candidates are collected, and so collecting does the same (`Session.Gathers.expects`).
-/
import GrammarCompletion.Proofs.Offers.Outcomes

namespace GrammarCompletion

namespace Session

variable (s : Session)

/-- What a terminal offers, given the nodes behind it. -/
def terminalOffers (n : Node RuleId) (t : TokenId) (rest : List (Node RuleId)) : Set Event :=
  if n.any = true then ∅ else Plan.offered s t (s.model.continuation n rest)

/-- In which phase nodes in a row are left, and what they offer, given the same of rules. -/
inductive ExpectsNodes (C : Gather) : List (Node RuleId) → Phase → Set Event → Prop
  /-- At the end, the way goes on behind the nodes. -/
  | nil : ExpectsNodes C [] .pending ∅
  /-- Nothing is offered at the end of the input. -/
  | eof {n : Node RuleId} {rest : List (Node RuleId)} (hn : n.symbol = .token .eof) :
      ExpectsNodes C (n :: rest) .matching ∅
  /-- A required token is offered and closes the way. -/
  | required {n : Node RuleId} {rest : List (Node RuleId)} {t : TokenId} (hn : n.symbol = .token t)
      (ht : t ≠ .eof) (hr : n.isRequired = true) :
      ExpectsNodes C (n :: rest) .matching (s.terminalOffers n t rest)
  /-- An optional token is offered, and so is what comes behind it. -/
  | optional {n : Node RuleId} {rest : List (Node RuleId)} {t : TokenId} {ph : Phase} {L : Set Event}
      (hn : n.symbol = .token t) (ht : t ≠ .eof) (hr : n.isRequired = false)
      (h : ExpectsNodes C rest ph L) : ExpectsNodes C (n :: rest) ph (s.terminalOffers n t rest ∪ L)
  /-- A required rule that is not empty closes the way. -/
  | closed {n : Node RuleId} {rest : List (Node RuleId)} {id : RuleId} {L : Set Event}
      (hn : n.symbol = .rule id) (hr : n.isRequired = true) (hc : C id .matching L) :
      ExpectsNodes C (n :: rest) .matching L
  /-- The way goes on behind a rule that is empty or not required. -/
  | behind {n : Node RuleId} {rest : List (Node RuleId)} {id : RuleId} {k ph : Phase}
      {L L' : Set Event} (hn : n.symbol = .rule id) (hc : C id k L)
      (hk : n.isRequired = true → k = .pending) (h : ExpectsNodes C rest ph L') :
      ExpectsNodes C (n :: rest) ph (L ∪ L')

/-- In which phase alternatives are left, and what they offer: one through which the way goes on is
enough. -/
inductive ExpectsAny (C : Gather) : List (Sequence RuleId) → Phase → Set Event → Prop
  | nil : ExpectsAny C [] .matching ∅
  | cons {q : Sequence RuleId} {list : List (Sequence RuleId)} {k ph : Phase} {L L' : Set Event}
      (hq : s.ExpectsNodes C q.nodes k L) (h : ExpectsAny C list ph L') :
      ExpectsAny C (q :: list) (k.or ph) (L ∪ L')

/-- In which phase a rule is left, and what it offers. -/
inductive Expects : Gather
  /-- A special rule is offered itself. -/
  | special {r : RuleId} (h : s.model.isSpecial r = true) : Expects r .matching {.offerRule r}
  /-- An ignored rule is passed over. -/
  | ignored {r : RuleId} (hs : s.model.isSpecial r = false) (h : s.model.isIgnored r = true) :
      Expects r .matching ∅
  /-- The tokens of a set are offered. -/
  | tokenSet {r : RuleId} {tokens : OrderedSet TokenId} (hs : s.model.isSpecial r = false)
      (hi : s.model.isIgnored r = false) (hb : s.model.body r = .ok (.tokenSet tokens)) :
      Expects r .matching {e | ∃ t ∈ tokens, e ∈ Plan.offered s t []}
  /-- All alternatives are followed. -/
  | sequences {r : RuleId} {list : List (Sequence RuleId)} {ph : Phase} {L : Set Event}
      (hs : s.model.isSpecial r = false) (hi : s.model.isIgnored r = false)
      (hb : s.model.body r = .ok (.sequences list)) (h : ExpectsAny s Expects list ph L) :
      Expects r ph L

/-- What may follow an occurrence of a node: the node again if it may be repeated, and the nodes behind
it, which say in which phase they are left. -/
inductive ExpectsBehind (C : Gather) (n : Node RuleId) (rest : List (Node RuleId)) :
    Phase → Set Event → Prop
  | once {ph : Phase} {L : Set Event} (hm : n.isMultiple = false) (h : s.ExpectsNodes C rest ph L) :
      ExpectsBehind C n rest ph L
  | again {k ph : Phase} {K L : Set Event} (hm : n.isMultiple = true)
      (hagain : s.ExpectsNodes C (n :: rest) k K) (h : s.ExpectsNodes C rest ph L) :
      ExpectsBehind C n rest ph (K ∪ L)

variable {s} {C C' : Gather} {V : Visit} {n : Node RuleId} {nodes rest : List (Node RuleId)}
  {list : List (Sequence RuleId)} {r id : RuleId} {ph ph' : Phase} {L L' : Set Event} {p : Nat}

/-! ## There is one answer -/

section

variable (hC : ∀ id ph L, C id ph L → ∀ ph' L', C' id ph' L' → ph = ph' ∧ L = L')

include hC

lemma ExpectsNodes.unique (h : s.ExpectsNodes C nodes ph L) (h' : s.ExpectsNodes C' nodes ph' L') :
    ph = ph' ∧ L = L' := by
  induction h generalizing ph' L' with
  | nil =>
    cases h'
    exact ⟨rfl, rfl⟩
  | eof hn =>
    cases h' with
    | eof => exact ⟨rfl, rfl⟩
    | required hn' ht => exact absurd (Symbol.token.inj (hn'.symm.trans hn)) ht
    | optional hn' ht => exact absurd (Symbol.token.inj (hn'.symm.trans hn)) ht
    | closed hn' => cases hn.symm.trans hn'
    | behind hn' => cases hn.symm.trans hn'
  | required hn ht hr =>
    cases h' with
    | eof hn' => exact absurd (Symbol.token.inj (hn.symm.trans hn')) ht
    | required hn' =>
      obtain rfl := Symbol.token.inj (hn.symm.trans hn')
      exact ⟨rfl, rfl⟩
    | optional _ _ hr' => exact absurd hr (ne_true_of_eq_false hr')
    | closed hn' => cases hn.symm.trans hn'
    | behind hn' => cases hn.symm.trans hn'
  | optional hn ht hr _ ih =>
    cases h' with
    | eof hn' => exact absurd (Symbol.token.inj (hn.symm.trans hn')) ht
    | required _ _ hr' => exact absurd hr' (ne_true_of_eq_false hr)
    | optional hn' _ _ h' =>
      obtain rfl := Symbol.token.inj (hn.symm.trans hn')
      obtain ⟨rfl, rfl⟩ := ih h'
      exact ⟨rfl, rfl⟩
    | closed hn' => cases hn.symm.trans hn'
    | behind hn' => cases hn.symm.trans hn'
  | closed hn hr hc =>
    cases h' with
    | eof hn' => cases hn.symm.trans hn'
    | required hn' => cases hn.symm.trans hn'
    | optional hn' => cases hn.symm.trans hn'
    | closed hn' _ hc' =>
      obtain rfl := Symbol.rule.inj (hn.symm.trans hn')
      exact hC _ _ _ hc _ _ hc'
    | behind hn' hc' hk =>
      obtain rfl := Symbol.rule.inj (hn.symm.trans hn')
      cases (hC _ _ _ hc _ _ hc').1.trans (hk hr)
  | behind hn hc hk _ ih =>
    cases h' with
    | eof hn' => cases hn.symm.trans hn'
    | required hn' => cases hn.symm.trans hn'
    | optional hn' => cases hn.symm.trans hn'
    | closed hn' hr hc' =>
      obtain rfl := Symbol.rule.inj (hn.symm.trans hn')
      cases (hC _ _ _ hc _ _ hc').1.symm.trans (hk hr)
    | behind hn' hc' _ h' =>
      obtain rfl := Symbol.rule.inj (hn.symm.trans hn')
      obtain ⟨-, rfl⟩ := hC _ _ _ hc _ _ hc'
      obtain ⟨rfl, rfl⟩ := ih h'
      exact ⟨rfl, rfl⟩

lemma ExpectsAny.unique (h : s.ExpectsAny C list ph L) (h' : s.ExpectsAny C' list ph' L') :
    ph = ph' ∧ L = L' := by
  induction h generalizing ph' L' with
  | nil =>
    cases h'
    exact ⟨rfl, rfl⟩
  | cons hq _ ih =>
    cases h' with
    | cons hq' h' =>
      obtain ⟨rfl, rfl⟩ := hq.unique hC hq'
      obtain ⟨rfl, rfl⟩ := ih h'
      exact ⟨rfl, rfl⟩

lemma ExpectsBehind.unique (h : s.ExpectsBehind C n rest ph L)
    (h' : s.ExpectsBehind C' n rest ph' L') : ph = ph' ∧ L = L' := by
  cases h with
  | once hm h =>
    cases h' with
    | once _ h' => exact h.unique hC h'
    | again hm' => exact absurd hm' (ne_true_of_eq_false hm)
  | again hm hagain h =>
    cases h' with
    | once hm' => exact absurd hm (ne_true_of_eq_false hm')
    | again _ hagain' h' =>
      obtain ⟨-, rfl⟩ := hagain.unique hC hagain'
      obtain ⟨rfl, rfl⟩ := h.unique hC h'
      exact ⟨rfl, rfl⟩

end

/-- **A rule is left in one phase and offers one set.** -/
theorem Expects.unique (h : s.Expects r ph L) (h' : s.Expects r ph' L') : ph = ph' ∧ L = L' := by
  -- what is to be shown of a rule is known of the rules in its alternatives
  let One : Gather := fun r ph L => ∀ ph' L', s.Expects r ph' L' → ph = ph' ∧ L = L'
  refine @Expects.rec s (fun r ph L _ => One r ph L) (fun list ph L _ => s.ExpectsAny One list ph L)
    (fun nodes ph L _ => s.ExpectsNodes One nodes ph L) ?_ ?_ ?_ ?_ .nil
    (fun _ _ hq h => .cons hq h) .nil (fun hn => .eof hn) (fun hn ht hr => .required hn ht hr)
    (fun hn ht hr _ h => .optional hn ht hr h) (fun hn hr _ hc => .closed hn hr hc)
    (fun hn _ hk _ hc h => .behind hn hc hk h) r ph L h ph' L' h'
  · intro r hs ph' L' h'
    cases h' with
    | special => exact ⟨rfl, rfl⟩
    | ignored hs' => exact absurd hs (ne_true_of_eq_false hs')
    | tokenSet hs' => exact absurd hs (ne_true_of_eq_false hs')
    | sequences hs' => exact absurd hs (ne_true_of_eq_false hs')
  · intro r hs hi ph' L' h'
    cases h' with
    | special hs' => exact absurd hs' (ne_true_of_eq_false hs)
    | ignored => exact ⟨rfl, rfl⟩
    | tokenSet _ hi' => exact absurd hi (ne_true_of_eq_false hi')
    | sequences _ hi' => exact absurd hi (ne_true_of_eq_false hi')
  · intro r tokens hs hi hb ph' L' h'
    cases h' with
    | special hs' => exact absurd hs' (ne_true_of_eq_false hs)
    | ignored _ hi' => exact absurd hi' (ne_true_of_eq_false hi)
    | tokenSet _ _ hb' =>
      obtain ⟨⟩ := hb.symm.trans hb'
      exact ⟨rfl, rfl⟩
    | sequences _ _ hb' => cases hb.symm.trans hb'
  · intro r list ph L hs hi hb _ h ph' L' h'
    cases h' with
    | special hs' => exact absurd hs' (ne_true_of_eq_false hs)
    | ignored _ hi' => exact absurd hi' (ne_true_of_eq_false hi)
    | tokenSet _ _ hb' => cases hb.symm.trans hb'
    | sequences _ _ hb' h' =>
      obtain ⟨⟩ := hb.symm.trans hb'
      exact h.unique (fun _ _ _ hone => hone) h'

/-! ## Collecting does what the plain reading says -/

/-- Collecting from nodes, where the rules that may come first in them are known. -/
lemma expectsNodes_of_yields (hC : ∀ front n back id, nodes = front ++ n :: back →
      s.model.DerivesNodes front [] → n.symbol = .rule id → ∀ k L, C id k L →
        C' id k L ∧ (k = .pending → s.model.Nullable id))
    (h : (Plan.collectNodes s nodes).Yields V C ph L) : s.ExpectsNodes C' nodes ph L := by
  induction nodes generalizing ph L with
  | nil =>
    obtain ⟨rfl, rfl⟩ := Plan.yields_collectNodes_nil.1 h
    exact .nil
  | cons n rest ih =>
    -- behind a node that may be empty, the rest is read in the same way
    have hrest : ∀ {k L}, s.model.DerivesNodes [n] [] → (Plan.collectNodes s rest).Yields V C k L →
        s.ExpectsNodes C' rest k L := by
      intro k L hnil hy
      refine ih (fun front k back id hnodes hfront hk => ?_) hy
      exact hC (n :: front) k back id (by rw [hnodes, List.cons_append])
        (Model.DerivesNodes.append hnil hfront) hk
    cases hn : n.symbol with
    | token t =>
      by_cases ht : t = .eof
      · subst ht
        obtain ⟨rfl, rfl⟩ := (Plan.yields_collectNodes_eof hn).1 h
        exact .eof hn
      · obtain ⟨L', hgo, rfl⟩ := (Plan.yields_collectNodes_token hn ht).1 h
        cases hr : n.isRequired with
        | true =>
          rw [if_pos hr] at hgo
          obtain ⟨rfl, rfl⟩ := hgo
          rw [Set.union_empty]
          exact .required hn ht hr
        | false =>
          rw [if_neg (ne_true_of_eq_false hr)] at hgo
          exact .optional hn ht hr (hrest (.skip hr .nil) hgo)
    | rule id =>
      obtain ⟨k, L₁, L₂, hc, hgo, rfl⟩ := (Plan.yields_collectNodes_rule hn).1 h
      obtain ⟨hc', hnull⟩ := hC [] n rest id rfl .nil hn k L₁ hc
      by_cases hstop : n.isRequired = true ∧ k = .matching
      · rw [if_pos hstop] at hgo
        obtain ⟨rfl, rfl⟩ := hgo
        obtain ⟨hr, rfl⟩ := hstop
        rw [Set.union_empty]
        exact .closed hn hr hc'
      · rw [if_neg hstop] at hgo
        have hk : n.isRequired = true → k = .pending := by
          intro hr
          cases k with
          | matching => exact absurd ⟨hr, rfl⟩ hstop
          | pending => rfl
        refine .behind hn hc' hk (hrest ?_ hgo)
        cases hr : n.isRequired with
        | false => exact .skip hr .nil
        | true => exact .single (u := []) (Node.isOccurrence_rule hn) (hnull (hk hr)) .nil

lemma expectsAny_of_yields (hC : ∀ q ∈ list, ∀ k L, (Plan.collectNodes s q.nodes).Yields V C k L →
      s.ExpectsNodes C' q.nodes k L)
    (h : (Plan.collectSequences s list).Yields V C ph L) : s.ExpectsAny C' list ph L := by
  induction list generalizing ph L with
  | nil =>
    obtain ⟨rfl, rfl⟩ := Plan.yields_collectSequences_nil.1 h
    exact .nil
  | cons q rest ih =>
    obtain ⟨ph₁, ph₂, L₁, L₂, h₁, h₂, rfl, rfl⟩ := Plan.yields_collectSequences_cons.1 h
    exact .cons (hC q List.mem_cons_self ph₁ L₁ h₁)
      (ih (fun q hq => hC q (List.mem_cons_of_mem _ hq)) h₂)

lemma eq_of_yields_collectTokens {tokens : List TokenId}
    (h : (Plan.collectTokens s tokens).Yields V C ph L) :
    ph = .matching ∧ L = {e | ∃ t ∈ tokens, e ∈ Plan.offered s t []} := by
  induction tokens generalizing L with
  | nil =>
    obtain ⟨rfl, rfl⟩ := Plan.yields_pure.1 h
    simp
  | cons t rest ih =>
    obtain ⟨L', hrest, rfl⟩ := Plan.yields_collectTokens_cons.1 h
    obtain ⟨rfl, rfl⟩ := ih hrest
    refine ⟨rfl, ?_⟩
    ext e
    simp

/-- **Collecting from a rule does what the plain reading says**, where no rule is left-recursive. -/
theorem Gathers.expects {inside : List RuleId} (hleft : ∀ r, ¬ s.model.LeftReach r r)
    (h : s.Gathers inside r ph L) (hinside : ∀ i ∈ inside, s.model.LeftReach i r) :
    s.Expects r ph L := by
  refine Gathers.induction (P := fun inside r ph L => (∀ i ∈ inside, s.model.LeftReach i r) →
    s.Expects r ph L) (fun inside r ph L hstep hinside => ?_) h hinside
  cases hstep with
  | special hs => exact .special hs
  | closed hs hc =>
    rcases hc with hi | hr
    · exact .ignored hs hi
    · exact absurd (hinside r hr) (hleft r)
  | tokenSet ho hb hy =>
    obtain ⟨rfl, rfl⟩ := eq_of_yields_collectTokens hy
    exact .tokenSet ho.special ho.ignored hb
  | @sequences list _ _ ho hb hy =>
    refine .sequences ho.special ho.ignored hb (expectsAny_of_yields (fun q hq k L hq' => ?_) hy)
    refine expectsNodes_of_yields (fun front n back id hnodes hfront hn k L hc => ?_) hq'
    have hrefers : s.model.LeftRefers r id := ⟨list, hb, q, hq, front, n, back, hnodes, hn, hfront⟩
    refine ⟨hc.2 fun i hi => ?_, fun hk => ?_⟩
    · rcases List.mem_cons.1 hi with rfl | hi
      · exact .single hrefers
      · exact (hinside i hi).tail hrefers
    · exact Model.nullable_of_ruleLeaves (hk ▸ hc.1.ruleLeaves)

end Session

end GrammarCompletion
