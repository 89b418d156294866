/-
# Visits in predictive grammars

Where no rule is left-recursive, a round of a rule does not depend on its seed, and so the first one
says what the visit does (`Session.VisitStep.unseeded`).  The alternative that reads a target meets it,
and no other alternative gets as far, because the next token would predict both.  So a visit of a rule
meets every target that the rule can read (`Session.Visits.meets`).
-/
import GrammarCompletion.Proofs.Offers.Walk
import GrammarCompletion.Proofs.Predictive.Matching

namespace GrammarCompletion

lemma Model.Plain.eofRequired {m : Model} (hp : m.Plain) : m.EofRequired := by
  intro q hq n hn heof
  exact absurd rfl ((hp.node q hq n hn).2 .eof heof).1

namespace Session

variable {s : Session} {root r : RuleId} {V : Visit} {C : Gather} {p e : Nat} {o σ : Outcome}
  {L : Set Event} {T : Target} {c : Spot} {list : List (Sequence RuleId)} {k : Sequence RuleId}

/-! ## Rounds without left recursion -/

/-- The visits in front of the stop that are not at a certain spot. -/
def Elsewhere (s : Session) (V : Visit) (c : Spot) : Visit :=
  fun b o L => b ≠ c ∧ s.UpToStop b ∧ V b o L

/-- A rule that is not left-recursive does not visit itself at its own spot. -/
lemma Round.unseeded (heof : s.model.EofRequired) (hc : s.UpToStop c)
    (hq : s.reached c.start = false) (hacyclic : ¬ s.model.LeftReach c.rule c.rule)
    (h : s.Round V c σ o L) (hV : ∀ b o L, V b o L → s.UpToStop b → s.Sound b o)
    (hσ : s.Sound c σ) : ∃ body, s.model.body c.rule = .ok body ∧
      (Plan.matchBody s c.start body).Yields (s.Elsewhere V c) (s.Gathers []) o L := by
  obtain ⟨body, hb, hy⟩ := h
  have hinside : ∀ b o L, s.UpToStop b → Inside V c σ b o L → s.Sound b o := by
    rintro b o L hb (⟨-, hv⟩ | ⟨rfl, rfl, -⟩)
    · exact hV b o L hv hb
    · exact hσ
  have hupTo := (predicts_sound heof).yields hc hq hb hy hinside
  have hasked : ∀ b p' o L, s.AskedWithin c b → b.start = p' →
      Inside V c σ b o L ∧ s.UpToStop b → s.Lawful b o ∧
        ∃ o', o.Mirrors (· = ·) o' ∧ s.Elsewhere V c ⟨b.rule, p'⟩ o' L := by
    rintro b p' o L ⟨n, rest, hwithin, hn⟩ rfl ⟨⟨hne, hv⟩ | ⟨rfl, -, -⟩, hb⟩
    · exact ⟨(hV b o L hv hb).lawful, o, ⟨rfl, rfl, rfl⟩, hne, hb, hv⟩
    · exact absurd (.single (hwithin.leftRefers hn rfl)) hacyclic
  obtain ⟨o', hy', ho⟩ := hupTo.mirror (mirrors_matchBody hq hb) hasked fun _ _ _ hg => hg
  exact ⟨body, hb, ho.eq ▸ hy'⟩

/-- A rule that is not left-recursive does not grow. -/
lemma VisitStep.unseeded (heof : s.model.EofRequired) (hc : s.UpToStop c)
    (hq : s.reached c.start = false) (hacyclic : ¬ s.model.LeftReach c.rule c.rule)
    (h : s.VisitStep V c o L) (hV : ∀ b o L, V b o L → s.Visits b o L) :
    ∃ body, s.model.body c.rule = .ok body ∧
      (Plan.matchBody s c.start body).Yields (s.Elsewhere V c) (s.Gathers []) o L := by
  cases h with
  | collected hq' => exact absurd hq' (ne_true_of_eq_false hq)
  | @matched seed _ L L' _ hround hg =>
    have hsound : ∀ b o L, V b o L → s.UpToStop b → s.Sound b o :=
      fun b o L hv hb => (hV b o L hv).sound heof hb
    have hfailed : s.Sound c ⟨false, c.start, .matching⟩ := Open.sound_failed ⟨hc.1, hc.2, hq⟩
    obtain ⟨body, hb, hy⟩ := hround.unseeded heof hc hq hacyclic hsound hfailed
    -- the seed makes no difference, so a second round would be like the first
    have hagain : s.Round V c seed seed L :=
      ⟨body, hb, hy.mono (fun _ _ _ hv => Or.inl ⟨hv.1, hv.2.2⟩) fun _ _ _ hg => hg⟩
    obtain ⟨rfl, hL⟩ := hagain.eq_of_grows
      (fun b o L o' L' hv hv' => (hV b o L hv).unique (hV b o' L' hv')) hg
    rw [hL]
    exact ⟨body, hb, hy⟩

/-! ## Bodies -/

/-- A set of tokens meets what it can read. -/
lemma meets_tokenSet {tokens : OrderedSet TokenId} (hb : s.model.body r = .ok (.tokenSet tokens))
    (hv : s.stream.Visible p) (hlt : p < s.stop) (hread : s.Reads [.rule r] p T) :
    s.Meets (s.matchTokenSet tokens p) L T := by
  obtain ⟨x, hx, hread⟩ := hread.rule_inv
  obtain ⟨u, hu, rfl⟩ := hx.of_tokenSet hb
  obtain ⟨rfl, hT⟩ := hread.token_inv hv hlt
  rw [matchTokenSet, if_pos hu]
  rcases hT with rfl | ⟨rfl, hstop⟩
  · have hq : s.reached (s.stream.advance p) = false := not_reached_of_lt hread.1 hread.2.2.1
    simp [Meets, hq]
  · exact ⟨Outcome.isUsable_iff.2 (Or.inl rfl), hstop⟩

section

variable (hp : s.model.Plain) (hll : s.model.LL1 root) (hV : s.Exact root V)
  (hC : s.Complete (s.Gathers []))
  (ho : s.model.Occurs root r) (hb : s.model.body r = .ok (.sequences list))
  (hv : s.stream.Visible p) (hlt : p < s.stop)

include hp hll hV hC ho hb hv hlt

/-- An alternative that gets as far as the one that reads a target in front of the stop is that
one. -/
lemma stop_of_counts {q : Sequence RuleId} {x : Form} (hq : q ∈ list) (hx : Expands q.nodes x)
    (hread : s.Reads x p (.upTo e)) (hT : s.model.Follow root r (s.stream.kind e)) (hk : k ∈ list)
    (hy : (Plan.matchNodes s k.nodes p).Yields V (s.Gathers []) o L) (hu : o.isUsable = true)
    (he : e ≤ o.stop) : o = ⟨true, e, .matching⟩ := by
  have hends : s.model.Ends root r k.nodes := ⟨ho, list, hb, k, hk, List.suffix_refl _⟩
  have hready : s.Ready k.nodes p := ⟨hv, hlt.le, not_reached_of_lt hv hlt, hends.part⟩
  have hmatches := hy.matchesNodes (fun b o L hv => (hV b o L hv).1) fun _ _ _ hg => hg.ruleLeaves
  have hconcludes := hmatches.sound hp.eofRequired hready
  -- the token at the position predicts both alternatives
  have hpredict : s.model.Predict root r k.nodes (s.stream.kind p) := by
    have hd := hconcludes.derives hu
    rcases Nat.eq_or_lt_of_le hconcludes.le with hstop | hlt'
    · obtain rfl : e = p := Nat.le_antisymm (hstop ▸ he) hread.2.1
      rw [← hstop, TokenStream.kinds_self] at hd
      exact Or.inr ⟨hd, hT⟩
    · rw [TokenStream.kinds_cons hv hconcludes.visible hlt'] at hd
      obtain ⟨y, hy, hd⟩ := hd
      exact Or.inl ⟨y, hy, _, hd⟩
  have hahead : s.model.Ahead root r x (s.stream.kind p) := hread.ahead hv hlt hT
  obtain rfl := hll.unique ho hb hk hq hpredict (hahead.predict hx)
  exact meets_nodes hp hll hV hC hends p o L (.upTo e) x hv hlt hy hx hread hT

/-- Alternatives meet what the rule can read. -/
lemma meets_sequences (hread : s.Reads [.rule r] p T) (hT : s.Follows (s.model.Follow root r) T)
    (hy : (Plan.matchBody s p (.sequences list)).Yields V (s.Gathers []) o L)
    (hsound : s.Sound ⟨r, p⟩ o) : s.Meets o L T := by
  obtain ⟨x, hx, hread⟩ := hread.rule_inv
  obtain ⟨q, hq, hx⟩ := hx.of_sequences hb
  obtain ⟨tally, ht, rfl⟩ := Plan.yields_matchBody_sequences.1 hy
  obtain ⟨o', L', hnodes, hL, hmatched, hreaches⟩ := ht.tried hq
  have hends : s.model.Ends root r q.nodes := ⟨ho, list, hb, q, hq, List.suffix_refl _⟩
  have hmeets : s.Meets o' L' T :=
    meets_nodes hp hll hV hC hends p o' L' T x hv hlt hnodes hx hread hT
  cases T with
  | upTo e =>
    obtain rfl : o' = ⟨true, e, .matching⟩ := hmeets
    obtain ⟨b, hbest, hle⟩ := hreaches rfl
    rcases ht.best_eq hbest with hnone | ⟨k, hk, o₂, L₂, hnodes₂, hu, rfl⟩
    · simp at hnone
    · obtain rfl := stop_of_counts hp hll hV hC ho hb hv hlt hq hx hread hT hk hnodes₂ hu hle
      have hm : tally.matched = true := hmatched rfl
      simp only [Meets, Tally.outcome, hbest, hm]
  | toStop =>
    obtain ⟨hu, hstop⟩ := hmeets
    obtain ⟨b, hbest, hle⟩ := hreaches hu
    have hend : (tally.outcome p).stop = b.1 := by simp only [Tally.outcome, hbest]
    have hreached : (tally.outcome p).stop = s.stop :=
      Nat.le_antisymm hsound.le_stop (hend ▸ hstop ▸ hle)
    refine ⟨?_, hreached⟩
    by_contra hne
    have hstay := hsound.stay (by simpa using hne)
    exact absurd (hreached.symm.trans hstay) hlt.ne'
  | beyond t => exact Offers.mono hmeets hL

end

/-! ## Visits of all rules -/

/-- **A visit of a rule meets every target that the rule can read.** -/
theorem Visits.meets (hp : s.model.Plain) (hacyclic : ∀ r, ¬ s.model.LeftReach r r)
    (hll : s.model.LL1 root) (h : s.Visits c o L) (hc : s.UpToStop c)
    (ho : s.model.Occurs root c.rule) (hread : s.Reads [.rule c.rule] c.start T)
    (hT : s.Follows (s.model.Follow root c.rule) T) : s.Meets o L T := by
  have heof := hp.eofRequired
  refine Visits.induction (P := fun c o L => s.UpToStop c → s.model.Occurs root c.rule → ∀ T,
    s.Reads [.rule c.rule] c.start T → s.Follows (s.model.Follow root c.rule) T → s.Meets o L T)
    (fun c o L hstep hc ho T hread hT => ?_) h hc ho T hread hT
  have hv : s.Visits c o L := visits_iff.2 (hstep.mono fun _ _ _ hboth => hboth.1)
  have hcollects : ∀ {id ph L}, s.Gathers [] id ph L →
      Covers (s.model.Nullable id) (s.model.Starts [.rule id]) ph L :=
    fun hg => hg.covers hp hacyclic (List.forall_mem_nil _)
  cases hq : s.reached c.start with
  | true =>
    have hstop : c.start = s.stop := TokenStream.eq_stop hc.1 hq hc.2
    cases hstep with
    | collected _ hg =>
      rw [hstop] at hread ⊢
      exact meets_at_stop hread (hcollects hg)
    | matched hq' => exact absurd hq (ne_true_of_eq_false hq')
  | false =>
    have hlt : c.start < s.stop := TokenStream.lt_stop hq hc.2
    obtain ⟨body, hb, hy⟩ :=
      hstep.unseeded heof hc hq (hacyclic c.rule) fun _ _ _ hboth => hboth.1
    cases body with
    | tokenSet tokens =>
      obtain ⟨rfl, -⟩ := Plan.yields_matchBody_tokenSet.1 hy
      exact meets_tokenSet hb hc.1 hlt hread
    | sequences list =>
      refine meets_sequences hp hll (fun b o L hinside => ?_) (fun _ _ _ hg => hcollects hg) ho hb
        hc.1 hlt hread hT hy (hv.sound heof hc)
      obtain ⟨-, hupTo, hvisit, hmeets⟩ := hinside
      exact ⟨hvisit.sound heof hupTo, hmeets hupTo⟩

end Session

end GrammarCompletion
