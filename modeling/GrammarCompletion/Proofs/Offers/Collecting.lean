/-
# What collecting offers

A part of a walk adds offers to those of the run (`Walk.Regime.Adds`).  A plan that is carried out
adds what it yields, if visits and collecting add what they are said to (`Plan.Mirrors.adds`), and
collecting from a rule adds what `Session.Gathers` says (`Session.adds_collectRule`).

Apart from its offers, a run is not changed by collecting (`Run.Extends`).
-/
import GrammarCompletion.Proofs.Offers.Candidates
import GrammarCompletion.Proofs.Offers.Visits
import GrammarCompletion.Proofs.Walk.Regime
import Mathlib

namespace GrammarCompletion

open Walk

/-! ## The offers of a run -/

namespace Run

/-- What was offered so far. -/
def offers (r : Run) : Set Event := {e | e ∈ r.events ∧ e.isOffer = true}

/-- The run after one more rule was entered, with the fuel that is left and the event. -/
def visited (n : Nat) (e : Event) (r : Run) : Run := { r with fuel := n, events := e :: r.events }

/-- A run that differs in the fuel and the events only, and has at least the same offers.  If the
candidates were those of the offers, they still are. -/
structure Extends (r r' : Run) : Prop where
  memo : r'.memo = r.memo
  frames : r'.frames = r.frames
  collecting : r'.collecting = r.collecting
  offers : r.offers ⊆ r'.offers
  reflects : r.candidates.Reflects r.offers → r'.candidates.Reflects r'.offers

variable {r r' r'' : Run} {n : Nat} {e : Event} {l : List Event} {c : Candidates}

lemma mem_offers : e ∈ r.offers ↔ e ∈ r.events ∧ e.isOffer = true := Iff.rfl

/-- Other events are no offers. -/
lemma offers_of_events (he : e.isOffer = false) (h : r'.events = e :: r.events) :
    r'.offers = r.offers := by
  ext f
  rw [mem_offers, mem_offers, h, List.mem_cons]
  constructor
  · rintro ⟨rfl | hf, hoffer⟩
    · exact absurd hoffer (ne_true_of_eq_false he)
    · exact ⟨hf, hoffer⟩
  · rintro ⟨hf, hoffer⟩
    exact ⟨Or.inr hf, hoffer⟩

lemma offers_insert (he : e.isOffer = true) (h : r'.events = e :: r.events) :
    r'.offers = insert e r.offers := by
  ext f
  rw [mem_offers, Set.mem_insert_iff, mem_offers, h, List.mem_cons]
  constructor
  · rintro ⟨rfl | hf, hoffer⟩
    · exact Or.inl rfl
    · exact Or.inr ⟨hf, hoffer⟩
  · rintro (rfl | ⟨hf, hoffer⟩)
    · exact ⟨Or.inl rfl, he⟩
    · exact ⟨Or.inr hf, hoffer⟩

namespace Extends

lemma refl (r : Run) : r.Extends r := ⟨rfl, rfl, rfl, fun _ h => h, id⟩

lemma trans (h : r.Extends r') (h' : r'.Extends r'') : r.Extends r'' where
  memo := h'.memo.trans h.memo
  frames := h'.frames.trans h.frames
  collecting := h'.collecting.trans h.collecting
  offers := h.offers.trans h'.offers
  reflects hr := h'.reflects (h.reflects hr)

lemma note (he : e.isOffer = false) : r.Extends { r with events := e :: r.events } := by
  have hoffers : Run.offers { r with events := e :: r.events } = r.offers := offers_of_events he rfl
  exact ⟨rfl, rfl, rfl, hoffers.ge, fun hr => hoffers ▸ hr⟩

lemma visited (he : e.isOffer = false) : r.Extends (r.visited n e) := by
  have hoffers : (r.visited n e).offers = r.offers := offers_of_events he rfl
  exact ⟨rfl, rfl, rfl, hoffers.ge, fun hr => hoffers ▸ hr⟩

lemma offerToken {t : TokenId} {k : List TokenId} : r.Extends
    { r with events := .offerToken t k :: r.events, candidates := r.candidates.offerToken t k } := by
  have hoffers : Run.offers { r with
      events := .offerToken t k :: r.events, candidates := r.candidates.offerToken t k } =
      insert (.offerToken t k) r.offers := offers_insert rfl rfl
  refine ⟨rfl, rfl, rfl, ?_, fun hr => ?_⟩
  · rw [hoffers]
    exact Set.subset_insert _ _
  · rw [hoffers]
    exact hr.offerToken t k

lemma offerRule {q : RuleId} : r.Extends
    { r with events := .offerRule q :: r.events, candidates := r.candidates.offerRule q } := by
  have hoffers : Run.offers { r with
      events := .offerRule q :: r.events, candidates := r.candidates.offerRule q } =
      insert (.offerRule q) r.offers := offers_insert rfl rfl
  refine ⟨rfl, rfl, rfl, ?_, fun hr => ?_⟩
  · rw [hoffers]
    exact Set.subset_insert _ _
  · rw [hoffers]
    exact hr.offerRule q

end Extends

end Run

/-! ## Parts of a walk that add offers -/

namespace Walk

variable {α β : Type}

lemma bind_eq_ok {x : Walk α} {f : α → Walk β} {r r' : Run} {b : β}
    (h : (x >>= f) r = .ok b r') : ∃ a r₁, x r = .ok a r₁ ∧ f a r₁ = .ok b r' := by
  simp only [Bind.bind, EStateM.bind] at h
  cases hx : x r with
  | ok a r₁ => exact ⟨a, r₁, rfl, by rwa [hx] at h⟩
  | error e r₁ => rw [hx] at h; simp at h

lemma pure_eq_ok {a b : α} {r r' : Run} (h : (pure a : Walk α) r = .ok b r') : b = a ∧ r' = r := by
  obtain ⟨⟩ := h
  exact ⟨rfl, rfl⟩

namespace Regime

/-- A part of a walk within a regime adds offers, which are as `Y` says of them and the result in
the run at the end. -/
def Adds (K : Regime) (x : Walk α) (Y : Run → α → Set Event → Prop) : Prop :=
  ∀ r a r', K.inv r → x r = .ok a r' →
    K.inv r' ∧ K.later r r' ∧ ∃ L, Y r' a L ∧ r'.offers = r.offers ∪ L

/-- Runs that are extended are not told apart. -/
def AllowsOffers (K : Regime) : Prop :=
  ∀ r r', K.inv r → r.Extends r' → K.inv r' ∧ K.later r r'

variable {K : Regime} {x : Walk α} {Y : Run → α → Set Event → Prop}

lemma Adds.pure {a : α} (h : ∀ r, K.inv r → Y r a ∅) : K.Adds (Pure.pure a : Walk α) Y := by
  intro r b r' hr hx
  obtain ⟨rfl, rfl⟩ := pure_eq_ok hx
  exact ⟨hr, K.refl _, ∅, h _ hr, (Set.union_empty _).symm⟩

lemma Adds.bind {f : α → Walk β} {Z : Run → β → Set Event → Prop} (hx : K.Adds x Y)
    (hf : ∀ r a L, K.inv r → Y r a L → ∀ b r', f a r = .ok b r' →
      K.inv r' ∧ K.later r r' ∧ ∃ L', Z r' b (L ∪ L') ∧ r'.offers = r.offers ∪ L') :
    K.Adds (x >>= f) Z := by
  intro r b r' hr h
  obtain ⟨a, r₁, hxr, hfr⟩ := bind_eq_ok h
  obtain ⟨hr₁, hlater, L, hY, hL⟩ := hx r a r₁ hr hxr
  obtain ⟨hr', hlater', L', hZ, hL'⟩ := hf r₁ a L hr₁ hY b r' hfr
  refine ⟨hr', K.trans hlater hlater', L ∪ L', hZ, ?_⟩
  rw [hL', hL, Set.union_assoc]

end Regime

end Walk

open Regime

/-- **A plan that is carried out adds what it yields.** -/
theorem Plan.Mirrors.adds {α β : Type} {K : Regime} (hK : K.AllowsOffers) {Ask : Spot → Prop}
    {V : Spot → Outcome → Prop} {Q : α → β → Prop} {matchRule : RuleId → Nat → Walk Outcome}
    {collect : RuleId → Walk Phase} {W : Run → Visit} {C : Gather}
    (hW : ∀ {r r' b o L}, K.later r r' → W r b o L → W r' b o L)
    (hvisit : ∀ b : Spot, Ask b →
      K.Adds (matchRule b.rule b.start) fun r o L => V b o ∧ W r b o L)
    (hgather : ∀ rule, K.Adds (collect rule) fun _ ph L => C rule ph L) {x : Plan α} {y : Plan β}
    (h : Plan.Mirrors (· = ·) Ask V Q x y) :
    K.Adds (x.run matchRule collect) fun r a L => x.Yields (W r) C a L := by
  induction h with
  | done _ => exact .pure fun r _ => .done
  | visit hp ha _ ih =>
    subst hp
    refine (hvisit _ ha).bind fun r o L hr ho b r' hrun => ?_
    obtain ⟨hr', hlater, L', hy, hL'⟩ := ih o o ho.1 ⟨rfl, rfl, rfl⟩ r b r' hr hrun
    exact ⟨hr', hlater, L', .visit (hW hlater ho.2) hy, hL'⟩
  | gather _ ih =>
    refine (hgather _).bind fun r ph L hr hc b r' hrun => ?_
    obtain ⟨hr', hlater, L', hy, hL'⟩ := ih ph r b r' hr hrun
    exact ⟨hr', hlater, L', .gather hc hy, hL'⟩
  | @offer t c next _ _ ih =>
    intro r b r' hr hrun
    -- the event and the candidate belong together
    obtain ⟨hr₁, hlater⟩ := hK r _ hr (Run.Extends.offerToken (t := t) (k := c))
    obtain ⟨hr', hlater', L', hy, hL'⟩ := ih _ b r' hr₁ hrun
    refine ⟨hr', K.trans hlater hlater', {.offerToken t c} ∪ L', .offer hy, ?_⟩
    rw [hL', Run.offers_insert (r := r) (e := .offerToken t c) rfl rfl, Set.insert_eq,
      Set.union_comm {Event.offerToken t c} r.offers, Set.union_assoc]
  | @note e e' next _ he _ ih =>
    intro r b r' hr hrun
    have he := Event.isOffer_of_isProgress he
    obtain ⟨hr₁, hlater⟩ := hK r _ hr (Run.Extends.note he)
    obtain ⟨hr', hlater', L', hy, hL'⟩ := ih _ b r' hr₁ hrun
    refine ⟨hr', K.trans hlater hlater', L', .note hy, ?_⟩
    rw [hL', Run.offers_of_events (r := r) he rfl]

namespace Session

variable {s : Session} {Ask : Spot → Prop} {V : Spot → Outcome → Prop}
  {Todo : List (Node RuleId) → Nat → Prop} {r r' : Run} {d n : Nat} {rule : RuleId} {ph : Phase}
  {inside : List RuleId}

/-! ## Collecting -/

/-- The regime of collecting inside given rules. -/
def gatherRegime (inside : List RuleId) : Regime where
  inv r := r.collecting = inside
  later := Run.Extends
  fault _ _ := True
  refl := .refl
  trans := .trans

lemma allowsOffers_gatherRegime : (gatherRegime inside).AllowsOffers :=
  fun _ _ hr hext => ⟨hext.collecting.trans hr, hext⟩

lemma burn_eq_ok {limit : Nat} (h : burn limit r = .ok () r') : ∃ n, r' = { r with fuel := n } := by
  obtain ⟨r₁, r₂, hget, h⟩ := bind_eq_ok h
  obtain ⟨⟩ := hget
  cases hf : r.fuel with
  | zero =>
    rw [hf] at h
    cases h
  | succ n =>
    rw [hf] at h
    obtain ⟨⟩ := h
    exact ⟨n, rfl⟩

/-- What collecting from a rule does. -/
lemma collectRule_eq_ok (h : s.collectRule d rule r = .ok ph r') :
    ∃ n, (s.model.isSpecial rule = true ∧ ph = .matching ∧
        (offerRule rule) (r.visited n (.collect rule)) = .ok () r') ∨
      (s.model.isSpecial rule = false ∧ (s.model.isIgnored rule = true ∨ rule ∈ r.collecting) ∧
        ph = .matching ∧ r' = r.visited n (.collect rule)) ∨
      s.IsOpen r.collecting rule ∧
        ((∃ tokens, s.model.body rule = .ok (.tokenSet tokens) ∧
          s.collectTokens tokens.toList (r.visited n (.collect rule)) = .ok ph r') ∨
        ∃ list e r₁, s.model.body rule = .ok (.sequences list) ∧ d = e + 1 ∧
          s.collectSequences (s.collectRule e) list
            { r.visited n (.collect rule) with collecting := rule :: r.collecting } = .ok ph r₁ ∧
          r' = { r₁ with collecting := r₁.collecting.tail }) := by
  rw [collectRule.eq_def] at h
  obtain ⟨⟨⟩, r₁, hburn, h⟩ := bind_eq_ok h
  obtain ⟨n, rfl⟩ := burn_eq_ok hburn
  obtain ⟨⟨⟩, r₂, hemit, h⟩ := bind_eq_ok h
  obtain rfl : r₂ = r.visited n (.collect rule) := by
    obtain ⟨⟩ := hemit
    rfl
  refine ⟨n, ?_⟩
  cases hspecial : s.model.isSpecial rule with
  | true =>
    rw [if_pos hspecial] at h
    obtain ⟨⟨⟩, r₃, hoffer, h⟩ := bind_eq_ok h
    obtain ⟨rfl, rfl⟩ := pure_eq_ok h
    exact Or.inl ⟨rfl, rfl, hoffer⟩
  | false =>
    rw [if_neg (ne_true_of_eq_false hspecial)] at h
    refine Or.inr ?_
    obtain ⟨r₃, r₃', hget, h⟩ := bind_eq_ok h
    obtain ⟨⟩ := hget
    have hcollecting : (r.visited n (.collect rule)).collecting = r.collecting := rfl
    rw [hcollecting] at h
    by_cases hclosed : s.model.isIgnored rule = true ∨ rule ∈ r.collecting
    · rw [if_pos (by simpa using hclosed)] at h
      obtain ⟨rfl, rfl⟩ := pure_eq_ok h
      exact Or.inl ⟨rfl, hclosed, rfl, rfl⟩
    · rw [if_neg (by simpa using hclosed)] at h
      push Not at hclosed
      refine Or.inr ⟨⟨hspecial, by simpa using hclosed.1, hclosed.2⟩, ?_⟩
      obtain ⟨body, r₄, hbody, h⟩ := bind_eq_ok h
      obtain ⟨hb, rfl⟩ : s.model.body rule = .ok body ∧ r₄ = r.visited n (.collect rule) := by
        cases hb : s.model.body rule with
        | error e =>
          rw [hb] at hbody
          cases hbody
        | ok body' =>
          rw [hb] at hbody
          obtain ⟨rfl, rfl⟩ := pure_eq_ok hbody
          exact ⟨rfl, rfl⟩
      cases body with
      | tokenSet tokens => exact Or.inl ⟨tokens, hb, h⟩
      | sequences list =>
        cases d with
        | zero => cases h
        | succ e =>
          obtain ⟨⟨⟩, r₅, hpush, h⟩ := bind_eq_ok h
          obtain ⟨⟩ := hpush
          obtain ⟨ph', r₆, hseq, h⟩ := bind_eq_ok h
          obtain ⟨⟨⟩, r₇, hpop, h⟩ := bind_eq_ok h
          obtain ⟨⟩ := hpop
          obtain ⟨rfl, rfl⟩ := pure_eq_ok h
          exact Or.inr ⟨list, e, r₆, hb, rfl, hseq, rfl⟩

/-- A plan of collecting that is carried out adds what it yields. -/
lemma adds_collecting {K : Regime} (hK : K.AllowsOffers) {collect : RuleId → Walk Phase}
    {C : Gather} (hgather : ∀ rule, K.Adds (collect rule) fun _ ph L => C rule ph L)
    {x : Plan Phase} (h : Plan.Mirrors (· = ·) (fun _ => False) (fun _ _ => True) (· = ·) x x) :
    K.Adds (x.run (fun _ p => pure ⟨false, p, .matching⟩) collect) fun _ ph L =>
      x.Yields (fun _ _ _ => False) C ph L :=
  Plan.Mirrors.adds hK (fun _ hfalse => hfalse) (fun _ hfalse => hfalse.elim) hgather h

/-- A walk leaves the rule from which it collected. -/
lemma extends_inside {r₁ : Run} (hr : r.collecting = inside)
    (h : Run.Extends { r.visited n (.collect rule) with collecting := rule :: inside } r₁) :
    r.Extends { r₁ with collecting := r₁.collecting.tail } := by
  have hvisited : r.Extends (r.visited n (.collect rule)) := .visited rfl
  refine ⟨h.memo, h.frames, ?_, ?_, fun hreflects => ?_⟩
  · have htail : r₁.collecting.tail = inside := by
      rw [h.collecting, List.tail_cons]
    exact htail.trans hr.symm
  · exact hvisited.offers.trans h.offers
  · exact h.reflects (hvisited.reflects hreflects)

/-- **Collecting from a rule adds what the rule is said to offer.** -/
theorem adds_collectRule (s : Session) (d : Nat) (rule : RuleId) (inside : List RuleId) :
    (gatherRegime inside).Adds (s.collectRule d rule) fun _ ph L => s.Gathers inside rule ph L := by
  induction d using Nat.strong_induction_on generalizing rule inside with
  | _ d ih =>
    intro r ph r' hr h
    obtain ⟨n, hcases⟩ := collectRule_eq_ok h
    have hcollecting : r.collecting = inside := hr
    have hvisited : r.Extends (r.visited n (.collect rule)) := .visited rfl
    have hoffers : (r.visited n (.collect rule)).offers = r.offers := Run.offers_of_events rfl rfl
    have hmirror : s.Mirror s (· = ·) fun _ _ => True := .refl s
    rw [hcollecting] at hcases
    rcases hcases with ⟨hs, rfl, hoffer⟩ | ⟨hs, hclosed, rfl, rfl⟩ | ⟨hopen, ⟨tokens, hb, hrun⟩ |
      ⟨list, e, r₁, hb, rfl, hrun, rfl⟩⟩
    · obtain ⟨⟩ := hoffer
      have hext := hvisited.trans (Run.Extends.offerRule (q := rule))
      refine ⟨hext.collecting.trans hr, hext, {.offerRule rule}, gathers_iff.2 (.special hs), ?_⟩
      rw [Run.offers_insert (r := r.visited n (.collect rule)) (e := .offerRule rule) rfl rfl,
        hoffers, Set.insert_eq, Set.union_comm]
    · refine ⟨hvisited.collecting.trans hr, hvisited, ∅, gathers_iff.2 (.closed hs hclosed), ?_⟩
      rw [hoffers, Set.union_empty]
    · have hnone : ∀ rule, (gatherRegime inside).Adds
          (throw (.fuelExhausted 0) : Walk Phase) fun _ ph L => (fun _ _ _ => False : Gather) rule ph L :=
        fun _ _ _ _ _ hthrow => by cases hthrow
      have hplan := adds_collecting allowsOffers_gatherRegime hnone
        (hmirror.collectTokens tokens.toList)
      rw [← collectTokens_eq_run] at hplan
      obtain ⟨hr', hext, L, hy, hL⟩ := hplan _ ph r' (hvisited.collecting.trans hr) hrun
      exact ⟨hr', hvisited.trans hext, L, gathers_iff.2 (.tokenSet hopen hb hy), by rw [hL, hoffers]⟩
    · have hplan := adds_collecting allowsOffers_gatherRegime
        (fun q => ih e (Nat.lt_succ_self e) q (rule :: inside))
        (hmirror.collectSequences list)
      rw [← collectSequences_eq_run] at hplan
      have hinside : (gatherRegime (rule :: inside)).inv
          { r.visited n (.collect rule) with collecting := rule :: inside } := rfl
      obtain ⟨-, hext, L, hy, hL⟩ := hplan _ ph r₁ hinside hrun
      have hext' := extends_inside hcollecting hext
      refine ⟨hext'.collecting.trans hr, hext', L, gathers_iff.2 (.sequences hopen hb hy), ?_⟩
      exact hL.trans (congrArg (· ∪ L) hoffers)

end Session

end GrammarCompletion
