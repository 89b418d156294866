/-
# The outcomes of visits

What is known of the outcomes of matching holds of the outcomes of visits: what a plan yields is an
outcome that `Session.Matches` allows (`Plan.Yields.matchesNodes`), and whatever a session predicts of
rules that may be visited is true of their visits (`Session.Visits.predicted`).  In particular their
outcomes are lawful and sound.
-/
import GrammarCompletion.Proofs.Invariance.Caret
import GrammarCompletion.Proofs.Invariance.Hidden
import GrammarCompletion.Proofs.Offers.Steps
import GrammarCompletion.Proofs.Offers.Visits

namespace GrammarCompletion

open Filter

variable {s : Session} {V : Visit} {C : Gather} {W : Spot → Outcome → Prop} {inside : List RuleId}
  {n : Node RuleId} {rest nodes : List (Node RuleId)} {list : List (Sequence RuleId)}
  {p count : Nat} {o : Outcome} {k : Continuation} {ph : Phase} {L : Set Event} {a : Spot}
  {r : RuleId}

namespace Plan.Yields

/-! ## The phase in which collecting ends -/

lemma nodesLeave (hC : ∀ id ph L, C id ph L → s.model.RuleLeaves inside id ph)
    (h : (collectNodes s nodes).Yields V C ph L) : s.model.NodesLeave inside nodes ph := by
  induction nodes generalizing ph L with
  | nil =>
    obtain ⟨rfl, -⟩ := yields_collectNodes_nil.1 h
    exact Model.nodesLeave_nil
  | cons n rest ih =>
    cases hn : n.symbol with
    | token t =>
      by_cases ht : t = .eof
      · subst ht
        obtain ⟨rfl, -⟩ := (yields_collectNodes_eof hn).1 h
        exact Model.nodesLeave_token_stop hn (Or.inl rfl)
      · obtain ⟨L', hrest, -⟩ := (yields_collectNodes_token hn ht).1 h
        by_cases hr : n.isRequired = true
        · rw [if_pos hr] at hrest
          obtain ⟨rfl, -⟩ := hrest
          exact Model.nodesLeave_token_stop hn (Or.inr hr)
        · rw [if_neg hr] at hrest
          exact Model.nodesLeave_token_skip hn (by simp [ht, hr]) (ih hrest)
    | rule id =>
      obtain ⟨q, L₁, L₂, hc, hrest, -⟩ := (yields_collectNodes_rule hn).1 h
      by_cases hstop : n.isRequired = true ∧ q = .matching
      · rw [if_pos hstop] at hrest
        obtain ⟨rfl, -⟩ := hrest
        exact Model.nodesLeave_rule_stop hn hstop.1 (hstop.2 ▸ hC id q L₁ hc)
      · rw [if_neg hstop] at hrest
        exact Model.nodesLeave_rule_skip hn (hC id q L₁ hc) hstop (ih hrest)

lemma phaseSequences (hC : ∀ id ph L, C id ph L → s.model.RuleLeaves inside id ph)
    (h : (collectSequences s list).Yields V C ph L) :
    ∀ᶠ depth in atTop, GrammarCompletion.phaseSequences (s.model.phaseRule depth inside) list =
      ph := by
  induction list generalizing ph L with
  | nil =>
    obtain ⟨rfl, -⟩ := yields_collectSequences_nil.1 h
    exact Eventually.of_forall fun _ => rfl
  | cons q rest ih =>
    obtain ⟨ph₁, ph₂, L₁, L₂, h₁, h₂, rfl, -⟩ := yields_collectSequences_cons.1 h
    filter_upwards [h₁.nodesLeave hC, ih h₂] with depth hd hd'
    rw [GrammarCompletion.phaseSequences, hd, hd']

lemma eq_matching_of_tokens {tokens : List TokenId}
    (h : (collectTokens s tokens).Yields V C ph L) : ph = .matching := by
  induction tokens generalizing L with
  | nil =>
    obtain ⟨rfl, -⟩ := yields_pure.1 h
    rfl
  | cons t rest ih =>
    obtain ⟨-, L₁, L₂, -, h, -⟩ := yields_bind.1 h
    exact ih h

end Plan.Yields

/-- Collecting from a rule ends in the phase of the rule. -/
lemma Session.Gathers.ruleLeaves (h : s.Gathers inside r ph L) :
    s.model.RuleLeaves inside r ph := by
  refine Session.Gathers.induction (P := fun inside r ph _ => s.model.RuleLeaves inside r ph)
    (fun inside r ph L hstep => ?_) h
  cases hstep with
  | special hs => exact Model.ruleLeaves_closed (Or.inl hs)
  | closed _ hc => exact Model.ruleLeaves_closed (Or.inr hc)
  | tokenSet _ hb hy =>
    obtain rfl := hy.eq_matching_of_tokens
    exact Model.ruleLeaves_tokenSet hb
  | sequences ho hb hy =>
    refine Model.ruleLeaves_sequences ?_ hb (hy.phaseSequences fun _ _ _ hboth => hboth.2)
    rintro (hs | hclosed)
    · exact absurd hs (ne_true_of_eq_false ho.special)
    · exact ho.not_closed hclosed

namespace Plan.Yields

variable (hV : ∀ b o L, V b o L → W b o)
  (hC : ∀ id ph L, C id ph L → s.model.RuleLeaves [] id ph)

/-! ## Outcomes of nodes and bodies -/

include hV in
lemma nodeMatches (h : (matchNode s n p).Yields V C o L) : s.NodeMatches W n p o := by
  cases hn : n.symbol with
  | token t =>
    obtain ⟨rfl, -⟩ := (yields_matchNode_token hn).1 h
    simp only [Session.NodeMatches, hn]
  | rule id =>
    simp only [Session.NodeMatches, hn]
    exact hV _ o L ((yields_matchNode_rule hn).1 h)

include hC in
lemma behind (h : (collectBehind s n rest).Yields V C ph L) :
    s.model.NodesLeave [] rest ph := by
  cases hm : n.isMultiple with
  | false =>
    rw [collectBehind_once hm] at h
    exact h.nodesLeave hC
  | true =>
    rw [collectBehind_multiple hm] at h
    obtain ⟨-, L₁, L₂, -, h, -⟩ := yields_bind.1 h
    exact h.nodesLeave hC

include hC in
lemma atCaret (h : (collectAtCaret s n rest p).Yields V C ph L) :
    s.model.NodesLeave [] (n.behind rest) ph := by
  unfold Node.behind
  cases hm : n.isMultiple with
  | false =>
    rw [yields_collectAtCaret_once hm] at h
    exact h.nodesLeave hC
  | true =>
    cases hr : n.isRequired with
    | true =>
      rw [yields_collectAtCaret_required hm hr] at h
      obtain ⟨-, L₁, L₂, -, h, -⟩ := yields_bind.1 h
      exact h.nodesLeave hC
    | false =>
      rw [yields_collectAtCaret_optional hm hr] at h
      exact h.nodesLeave hC

include hV hC

lemma repeats (h : (matchRepeats s n rest count p).Yields V C k L) :
    s.Repeats W n rest count p k := by
  induction count generalizing p L with
  | zero =>
    obtain ⟨rfl, -⟩ := yields_pure.1 h
    exact .spent
  | succ count ih =>
    cases hend : s.stream.atEnd p with
    | true =>
      rw [matchRepeats, if_pos hend] at h
      obtain ⟨rfl, -⟩ := yields_pure.1 h
      exact .atEnd hend
    | false =>
      rw [matchRepeats_succ hend] at h
      obtain ⟨⟨matched, q, phase⟩, L₁, L₂, hnode, hgo, -⟩ := yields_bind.1 h
      have hn := hnode.nodeMatches hV
      cases phase with
      | pending =>
        rw [repeatOn_pending] at hgo
        obtain ⟨ph, L₃, L₄, hbehind, hend', -⟩ := yields_bind.1 hgo
        obtain ⟨rfl, -⟩ := yields_pure.1 hend'
        exact .pending hend hn (hbehind.behind hC)
      | matching =>
        cases matched with
        | false =>
          rw [repeatOn_failed] at hgo
          obtain ⟨rfl, -⟩ := yields_pure.1 hgo
          exact .failed hend hn
        | true =>
          cases hc : n.isTerminal && s.reached q with
          | true =>
            obtain ⟨ht, hq⟩ := Bool.and_eq_true_iff.1 hc
            rw [repeatOn_atCaret ht hq] at hgo
            obtain ⟨ph, L₃, L₄, hcaret, hend', -⟩ := yields_bind.1 hgo
            obtain ⟨rfl, -⟩ := yields_pure.1 hend'
            exact .atCaret hend hn ht hq (hcaret.atCaret hC)
          | false =>
            by_cases hqp : q = p
            · subst hqp
              rw [repeatOn_idle hc] at hgo
              obtain ⟨rfl, -⟩ := yields_pure.1 hgo
              exact .idle hend hn hc
            · rw [repeatOn_more hc hqp] at hgo
              exact .more hend hn hc hqp (ih hgo)

/-- **What matching nodes yields is an outcome that they may have.** -/
theorem matchesNodes (h : (matchNodes s nodes p).Yields V C o L) : s.Matches W nodes p o := by
  induction nodes generalizing p L with
  | nil =>
    obtain ⟨rfl, -⟩ := yields_pure.1 h
    exact .nil
  | cons n rest ih =>
    rw [matchNodes_cons] at h
    obtain ⟨⟨matched, q, phase⟩, L₁, L₂, hnode, hgo, -⟩ := yields_bind.1 h
    have hn := hnode.nodeMatches hV
    cases phase with
    | pending =>
      rw [matchOn_pending] at hgo
      obtain ⟨ph, L₃, L₄, hbehind, hend, -⟩ := yields_bind.1 hgo
      obtain ⟨rfl, -⟩ := yields_pure.1 hend
      exact .pending hn (hbehind.behind hC)
    | matching =>
      cases matched with
      | false =>
        cases hr : n.isRequired with
        | true =>
          rw [matchOn_failed hr] at hgo
          obtain ⟨rfl, -⟩ := yields_pure.1 hgo
          exact .failed hr hn
        | false =>
          rw [matchOn_skipped hr] at hgo
          exact .skipped hr hn (ih hgo)
      | true =>
        cases hq : s.reached q with
        | true =>
          rw [matchOn_atCaret hq] at hgo
          obtain ⟨ph, L₃, L₄, hcaret, hend, -⟩ := yields_bind.1 hgo
          obtain ⟨rfl, -⟩ := yields_pure.1 hend
          exact .atCaret hn hq (hcaret.atCaret hC)
        | false =>
          cases hm : n.isMultiple with
          | false =>
            rw [matchOn_once hq hm] at hgo
            exact .once hn hq hm (ih hgo)
          | true =>
            rw [matchOn_multiple hq hm] at hgo
            obtain ⟨k, L₃, L₄, hk, hresume, -⟩ := yields_bind.1 hgo
            cases k with
            | finished o' =>
              obtain ⟨rfl, -⟩ := yields_pure.1 hresume
              exact .finished hn hq hm (hk.repeats hV hC)
            | next q' => exact .repeated hn hq hm (hk.repeats hV hC) (ih hresume)

lemma tallies {start i : Nat} {t t' : Tally}
    (h : (matchSequences s start i t list).Yields V C t' L) : s.Tallies W start t list t' := by
  induction list generalizing i t L with
  | nil =>
    obtain ⟨rfl, -⟩ := yields_matchSequences_nil.1 h
    exact .nil
  | cons q rest ih =>
    obtain ⟨o, L₁, L₂, hnodes, hrest, -⟩ := yields_matchSequences_cons.1 h
    exact .cons (hnodes.matchesNodes hV hC) (ih hrest)

lemma bodyMatches {body : RuleBody RuleId} (hb : s.model.body a.rule = .ok body)
    (h : (matchBody s a.start body).Yields V C o L) : s.BodyMatches W a o := by
  cases body with
  | tokenSet tokens =>
    obtain ⟨rfl, -⟩ := yields_matchBody_tokenSet.1 h
    exact .tokenSet hb
  | sequences list =>
    obtain ⟨t, ht, rfl⟩ := yields_matchBody_sequences.1 h
    exact .sequences hb (ht.tallies hV hC)

end Plan.Yields

namespace Session

variable {Call : Spot → Prop} {Todo : List (Node RuleId) → Nat → Prop} {σ best : Outcome}

/-! ## Predictions -/

/-- In a round, only the rules that are asked for matter. -/
lemma Predicts.yields (hp : s.Predicts W Call Todo) (ha : Call a) (hq : s.reached a.start = false)
    {body : RuleBody RuleId} (hb : s.model.body a.rule = .ok body)
    (h : (Plan.matchBody s a.start body).Yields V C o L) (hV : ∀ b o L, Call b → V b o L → W b o) :
    (Plan.matchBody s a.start body).Yields (fun b o L => V b o L ∧ Call b) C o L := by
  have hmirror : Plan.Mirrors (· = ·) Call W (Outcome.Mirrors (· = ·))
      (Plan.matchBody s a.start body) (Plan.matchBody s a.start body) := by
    refine (Mirror.refl s).matchBody hp.toGuide ?_ rfl fun _ => ⟨rfl, rfl, rfl⟩
    rintro list rfl q hmem
    exact hp.entry ha hq hb hmem
  let both : Visit := fun b o L => V b o L ∧ Call b
  have hasked : ∀ b p' o L, Call b → b.start = p' → V b o L → W b o ∧
      ∃ o', o.Mirrors (· = ·) o' ∧ both ⟨b.rule, p'⟩ o' L := by
    rintro b p' o L hcall rfl hv
    exact ⟨hV b o L hcall hv, o, ⟨rfl, rfl, rfl⟩, hv, hcall⟩
  obtain ⟨o', hy, ho⟩ := h.mirror hmirror hasked fun _ _ _ hc => hc
  exact ho.eq ▸ hy

lemma Round.predicted (hp : s.Predicts W Call Todo) (ha : Call a) (hq : s.reached a.start = false)
    (h : s.Round V a σ o L) (hV : ∀ b o L, V b o L → Call b → W b o) (hσ : W a σ) : W a o := by
  obtain ⟨body, hb, hy⟩ := h
  have hinside : ∀ b o L, Call b → Inside V a σ b o L → W b o := by
    rintro b o L hcall (⟨-, hv⟩ | ⟨rfl, rfl, -⟩)
    · exact hV b o L hv hcall
    · exact hσ
  have hasked := hp.yields ha hq hb hy hinside
  refine hp.matched ha hq (hasked.bodyMatches (fun b o L hboth => ?_) (fun _ _ _ hg => ?_) hb)
  · exact hinside b o L hboth.2 hboth.1
  · exact hg.ruleLeaves

/-- **What is predicted of rules is true of their visits.** -/
theorem Visits.predicted (hp : s.Predicts W Call Todo) (h : s.Visits a o L) (ha : Call a) :
    W a o := by
  refine Visits.induction (P := fun a o _ => Call a → W a o) (fun a o L hstep ha => ?_) h ha
  cases hstep with
  | collected hq hg => exact hp.collected ha hq hg.ruleLeaves
  | matched hq hround hgrows =>
    have hV : ∀ b o L, (s.Visits b o L ∧ (Call b → W b o)) → Call b → W b o :=
      fun _ _ _ hboth => hboth.2
    have hseed := hround.predicted hp ha hq hV (hp.fail ha hq)
    -- each round is as predicted, because the one before was
    clear hround
    generalize s.stream.size + 1 - _ = count at hgrows
    induction hgrows with
    | spent => exact hseed
    | done => exact hseed
    | more hround _ _ ih => exact ih (hround.predicted hp ha hq hV hseed)

lemma Visits.lawful (h : s.Visits a o L) : s.Lawful a o :=
  h.predicted predicts_lawful trivial

lemma Visits.sound (h : s.Visits a o L) (heof : s.model.EofRequired) (ha : s.UpToStop a) :
    s.Sound a o :=
  h.predicted (predicts_sound heof) ha

/-- A sound outcome with which matching goes on is not where the caret is reached. -/
lemma Sound.not_reached {q : Nat} (h : s.Sound a ⟨true, q, .matching⟩) : s.reached q = false := by
  by_contra hne
  have hpending : Phase.matching = Phase.pending := h.collected rfl (by simpa using hne)
  simp at hpending

lemma Sound.lawful (h : s.Sound a o) : s.Lawful a o := by
  refine ⟨⟨h.le, h.caret, fun hu _ hstop => ?_⟩, h.stay⟩
  have hd := h.derives hu
  rwa [hstop, TokenStream.kinds_self] at hd

/-- A rule that is not nullable gets further wherever it is usable. -/
lemma Sound.lt_stop (h : s.Sound a o) (hn : ¬ s.model.Nullable a.rule) (hu : o.isUsable = true) :
    a.start < o.stop := by
  refine Nat.lt_of_le_of_ne h.le fun hstop => hn ?_
  have hd := h.derives hu
  rwa [← hstop, TokenStream.kinds_self] at hd

lemma Open.upToStop (h : s.Open a) : s.UpToStop a := ⟨h.visible, h.le_stop⟩

lemma Round.sound (heof : s.model.EofRequired) (ha : s.Open a) (h : s.Round V a σ o L)
    (hV : ∀ b o L, V b o L → s.UpToStop b → s.Sound b o) (hσ : s.Sound a σ) : s.Sound a o :=
  h.predicted (predicts_sound heof) ha.upToStop ha.not_reached hV hσ

/-- Where the seed makes no difference, the first round says what the visit does. -/
lemma Round.visits (heof : s.model.EofRequired) (ha : s.Open a)
    (h : ∀ σ, s.Round s.Visits a σ o L) : s.Visits a o L ∧ s.Sound a o := by
  have hsound : s.Sound a o :=
    (h _).sound heof ha (fun _ _ _ hv => hv.sound heof) ha.sound_failed
  refine ⟨visits_iff.2 ?_, hsound⟩
  have hcount : s.stream.size + 1 - o.stop = s.stream.size - o.stop + 1 := by
    have hle : o.stop ≤ s.stream.size := hsound.le_stop.trans stop_le_size
    omega
  rw [← Set.union_self L]
  refine .matched ha.not_reached (h _) ?_
  rw [hcount]
  exact .done (h o) fun hex => Nat.lt_irrefl _ hex.2

end Session

end GrammarCompletion
