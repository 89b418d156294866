/-
# What visits offer

The meaning of a visit of a rule without a run: its outcome and the set of what it offers, as far as
the visit is a whole walk of its own and does not happen inside other visits.  Collecting from a rule
(`Session.Gathers`) and visiting one (`Session.Visits`) are the least relations that are closed under
one step of the respective function, in which the rules inside are taken from the relation itself.

A rule is visited in rounds: in the first one it fails where it is entered again, and in each later
one it has the best outcome so far (`Session.Grows`).  There is at most one outcome with one set of
offers (`Visits.unique`).
-/
import GrammarCompletion.Proofs.Offers.Yields
import Mathlib.Order.FixedPoints

namespace GrammarCompletion

/-- An outcome is usable and gets further than another one. -/
def Outcome.Exceeds (o best : Outcome) : Prop :=
  o.isUsable = true ∧ best.stop < o.stop

namespace Session

variable (s : Session)

/-! ## Collecting -/

/-- A rule from which candidates are collected, inside rules from which they are collected. -/
structure IsOpen (inside : List RuleId) (r : RuleId) : Prop where
  special : s.model.isSpecial r = false
  ignored : s.model.isIgnored r = false
  fresh : r ∉ inside

/-- One step of collecting, given how candidates are collected from the rules inside. -/
inductive GatherStep (G : List RuleId → Gather) (inside : List RuleId) (r : RuleId) :
    Phase → Set Event → Prop
  | special (h : s.model.isSpecial r = true) : GatherStep G inside r .matching {.offerRule r}
  | closed (hs : s.model.isSpecial r = false) (h : s.model.isIgnored r = true ∨ r ∈ inside) :
      GatherStep G inside r .matching ∅
  | tokenSet {tokens : OrderedSet TokenId} {ph : Phase} {L : Set Event} (ho : s.IsOpen inside r)
      (hb : s.model.body r = .ok (.tokenSet tokens))
      (h : (Plan.collectTokens s tokens.toList).Yields (fun _ _ _ => False) (fun _ _ _ => False)
        ph L) : GatherStep G inside r ph L
  | sequences {list : List (Sequence RuleId)} {ph : Phase} {L : Set Event}
      (ho : s.IsOpen inside r) (hb : s.model.body r = .ok (.sequences list))
      (h : (Plan.collectSequences s list).Yields (fun _ _ _ => False) (G (r :: inside)) ph L) :
      GatherStep G inside r ph L

variable {s}

lemma GatherStep.mono {G G' : List RuleId → Gather} (hG : G ≤ G') {inside : List RuleId}
    {r : RuleId} {ph : Phase} {L : Set Event} (h : s.GatherStep G inside r ph L) :
    s.GatherStep G' inside r ph L := by
  cases h with
  | special h => exact .special h
  | closed hs h => exact .closed hs h
  | tokenSet ho hb h => exact .tokenSet ho hb h
  | sequences ho hb h =>
    exact .sequences ho hb (h.mono (fun _ _ _ hf => hf) fun q ph L hc => hG _ q ph L hc)

variable (s)

/-- The step of collecting as a monotone function. -/
def gatherHom : (List RuleId → Gather) →o (List RuleId → Gather) where
  toFun := s.GatherStep
  monotone' _ _ hG _ _ _ _ h := h.mono hG

/-- Collecting from a rule inside other rules ends in a phase and offers a set. -/
def Gathers : List RuleId → Gather := s.gatherHom.lfp

/-! ## Visits -/

/-- What is known of the visits inside the frame of `a`, where the rule of `a` has the outcome `σ`
at its own spot. -/
def Inside (V : Visit) (a : Spot) (σ : Outcome) : Visit :=
  fun b o L => b ≠ a ∧ V b o L ∨ b = a ∧ o = σ ∧ L = ∅

/-- A round of matching the body of a rule has an outcome and offers. -/
def Round (V : Visit) (a : Spot) (σ o : Outcome) (L : Set Event) : Prop :=
  ∃ body, s.model.body a.rule = .ok body ∧
    (Plan.matchBody s a.start body).Yields (Inside V a σ) (s.Gathers []) o L

/-- From the best outcome so far, at most `count` further rounds lead to an outcome and offer a
set. -/
inductive Grows (V : Visit) (a : Spot) : Nat → Outcome → Outcome → Set Event → Prop
  | spent {best : Outcome} : Grows V a 0 best best ∅
  | done {count : Nat} {best o : Outcome} {L : Set Event} (h : s.Round V a best o L)
      (ho : ¬ o.Exceeds best) : Grows V a (count + 1) best best L
  | more {count : Nat} {best o o' : Outcome} {L L' : Set Event} (h : s.Round V a best o L)
      (ho : o.Exceeds best) (hg : Grows V a count o o' L') :
      Grows V a (count + 1) best o' (L ∪ L')

/-- One step of visiting a rule, given what visits of the rules inside do. -/
inductive VisitStep (V : Visit) (a : Spot) : Outcome → Set Event → Prop
  | collected {ph : Phase} {L : Set Event} (hq : s.reached a.start = true)
      (h : s.Gathers [] a.rule ph L) : VisitStep V a ⟨false, a.start, ph⟩ L
  | matched {seed o : Outcome} {L L' : Set Event} (hq : s.reached a.start = false)
      (h : s.Round V a ⟨false, a.start, .matching⟩ seed L)
      (hg : s.Grows V a (s.stream.size + 1 - seed.stop) seed o L') : VisitStep V a o (L ∪ L')

variable {s} {V V' : Visit} {a : Spot} {σ best o o' : Outcome} {L L' : Set Event} {count : Nat}

lemma Inside.mono (hV : V ≤ V') {b : Spot} (h : Inside V a σ b o L) : Inside V' a σ b o L :=
  h.imp_left fun hb => ⟨hb.1, hV b o L hb.2⟩

lemma Round.mono (hV : V ≤ V') (h : s.Round V a σ o L) : s.Round V' a σ o L := by
  obtain ⟨body, hb, hy⟩ := h
  exact ⟨body, hb, hy.mono (fun _ _ _ hb => hb.mono hV) fun _ _ _ hc => hc⟩

lemma Grows.mono (hV : V ≤ V') (h : s.Grows V a count best o L) : s.Grows V' a count best o L := by
  induction h with
  | spent => exact .spent
  | done h ho => exact .done (h.mono hV) ho
  | more h ho _ ih => exact .more (h.mono hV) ho ih

lemma VisitStep.mono (hV : V ≤ V') (h : s.VisitStep V a o L) : s.VisitStep V' a o L := by
  cases h with
  | collected hq h => exact .collected hq h
  | matched hq h hg => exact .matched hq (h.mono hV) (hg.mono hV)

variable (s)

/-- The step of visiting as a monotone function. -/
def visitHom : Visit →o Visit where
  toFun := s.VisitStep
  monotone' _ _ hV _ _ _ h := h.mono hV

/-- A visit of a rule has an outcome and offers a set. -/
def Visits : Visit := s.visitHom.lfp

variable {s} {inside : List RuleId} {r : RuleId} {ph ph' : Phase}

/-! ## Steps and induction -/

lemma gathers_iff : s.Gathers inside r ph L ↔ s.GatherStep s.Gathers inside r ph L := by
  have h := s.gatherHom.map_lfp
  exact iff_of_eq (congrFun (congrFun (congrFun (congrFun h inside) r) ph) L).symm

lemma visits_iff : s.Visits a o L ↔ s.VisitStep s.Visits a o L := by
  have h := s.visitHom.map_lfp
  exact iff_of_eq (congrFun (congrFun (congrFun h a) o) L).symm

/-- What is true of one step of collecting, given that it is true inside, is true of collecting. -/
lemma Gathers.induction {P : List RuleId → Gather}
    (h : ∀ inside r ph L, s.GatherStep (fun i q ph L => s.Gathers i q ph L ∧ P i q ph L) inside r
      ph L → P inside r ph L) (hg : s.Gathers inside r ph L) : P inside r ph L := by
  let both : List RuleId → Gather := fun i q ph L => s.Gathers i q ph L ∧ P i q ph L
  have hstep : s.gatherHom both ≤ both := by
    intro i q ph L hb
    exact ⟨gathers_iff.2 (hb.mono fun _ _ _ _ hboth => hboth.1), h i q ph L hb⟩
  exact (s.gatherHom.lfp_le hstep inside r ph L hg).2

/-- What is true of one step of visiting, given that it is true inside, is true of visits. -/
lemma Visits.induction {P : Visit}
    (h : ∀ a o L, s.VisitStep (fun b o L => s.Visits b o L ∧ P b o L) a o L → P a o L)
    (hv : s.Visits a o L) : P a o L := by
  let both : Visit := fun b o L => s.Visits b o L ∧ P b o L
  have hstep : s.visitHom both ≤ both := by
    intro b o L hb
    exact ⟨visits_iff.2 (hb.mono fun _ _ _ hboth => hboth.1), h b o L hb⟩
  exact (s.visitHom.lfp_le hstep a o L hv).2

/-! ## Uniqueness -/

lemma IsOpen.not_closed (h : s.IsOpen inside r) : ¬ (s.model.isIgnored r = true ∨ r ∈ inside) := by
  rintro (hi | hr)
  · exact absurd hi (ne_true_of_eq_false h.ignored)
  · exact h.fresh hr

lemma GatherStep.unique {G G' : List RuleId → Gather} (hG : ∀ i q ph L ph' L', G i q ph L →
    G' i q ph' L' → ph = ph' ∧ L = L') (h : s.GatherStep G inside r ph L)
    (h' : s.GatherStep G' inside r ph' L') : ph = ph' ∧ L = L' := by
  -- the conditions of the four cases exclude each other
  cases h with
  | special hs =>
    cases h' with
    | special => exact ⟨rfl, rfl⟩
    | closed hs' => exact absurd hs (ne_true_of_eq_false hs')
    | tokenSet ho => exact absurd hs (ne_true_of_eq_false ho.special)
    | sequences ho => exact absurd hs (ne_true_of_eq_false ho.special)
  | closed hs hc =>
    cases h' with
    | special hs' => exact absurd hs' (ne_true_of_eq_false hs)
    | closed => exact ⟨rfl, rfl⟩
    | tokenSet ho => exact absurd hc ho.not_closed
    | sequences ho => exact absurd hc ho.not_closed
  | tokenSet ho hb hy =>
    cases h' with
    | special hs' => exact absurd hs' (ne_true_of_eq_false ho.special)
    | closed _ hc => exact absurd hc ho.not_closed
    | tokenSet _ hb' hy' =>
      obtain ⟨⟩ := hb.symm.trans hb'
      exact hy.unique hy' (fun _ _ _ _ _ hf => hf.elim) fun _ _ _ _ _ hf => hf.elim
    | sequences _ hb' => cases hb.symm.trans hb'
  | sequences ho hb hy =>
    cases h' with
    | special hs' => exact absurd hs' (ne_true_of_eq_false ho.special)
    | closed _ hc => exact absurd hc ho.not_closed
    | tokenSet _ hb' => cases hb.symm.trans hb'
    | sequences _ hb' hy' =>
      obtain ⟨⟩ := hb.symm.trans hb'
      exact hy.unique hy' (fun _ _ _ _ _ hf => hf.elim) (hG _)

/-- Collecting from a rule ends in one phase and offers one set. -/
lemma Gathers.unique (h : s.Gathers inside r ph L) (h' : s.Gathers inside r ph' L') :
    ph = ph' ∧ L = L' := by
  refine Gathers.induction (P := fun inside r ph L => ∀ ph' L', s.Gathers inside r ph' L' →
    ph = ph' ∧ L = L') (fun inside r ph L hstep ph' L' h' => ?_) h ph' L' h'
  exact hstep.unique (fun _ _ _ _ _ _ hboth hq => hboth.2 _ _ hq) (gathers_iff.1 h')

lemma Inside.unique (hV : ∀ b o L o' L', V b o L → V' b o' L' → o = o' ∧ L = L') {b : Spot}
    (h : Inside V a σ b o L) (h' : Inside V' a σ b o' L') : o = o' ∧ L = L' := by
  rcases h with ⟨hba, hv⟩ | ⟨hba, rfl, rfl⟩
  · rcases h' with ⟨-, hv'⟩ | ⟨hba', -⟩
    · exact hV b o L o' L' hv hv'
    · exact absurd hba' hba
  · rcases h' with ⟨hba', -⟩ | ⟨-, rfl, rfl⟩
    · exact absurd hba hba'
    · exact ⟨rfl, rfl⟩

lemma Round.unique (hV : ∀ b o L o' L', V b o L → V' b o' L' → o = o' ∧ L = L')
    (h : s.Round V a σ o L) (h' : s.Round V' a σ o' L') : o = o' ∧ L = L' := by
  obtain ⟨body, hb, hy⟩ := h
  obtain ⟨body', hb', hy'⟩ := h'
  obtain ⟨⟩ := hb.symm.trans hb'
  exact hy.unique hy' (fun _ _ _ _ _ hi hi' => hi.unique hV hi') fun _ _ _ _ _ hc hc' =>
    hc.unique hc'

lemma Grows.unique (hV : ∀ b o L o' L', V b o L → V' b o' L' → o = o' ∧ L = L')
    (h : s.Grows V a count best o L) (h' : s.Grows V' a count best o' L') : o = o' ∧ L = L' := by
  induction h generalizing o' L' with
  | spent =>
    cases h'
    exact ⟨rfl, rfl⟩
  | done h ho =>
    cases h' with
    | done h' =>
      obtain ⟨-, rfl⟩ := h.unique hV h'
      exact ⟨rfl, rfl⟩
    | more h' ho' =>
      obtain ⟨rfl, -⟩ := h.unique hV h'
      exact absurd ho' ho
  | more h ho _ ih =>
    cases h' with
    | done h' ho' =>
      obtain ⟨rfl, -⟩ := h.unique hV h'
      exact absurd ho ho'
    | more h' _ hg' =>
      obtain ⟨rfl, rfl⟩ := h.unique hV h'
      obtain ⟨rfl, rfl⟩ := ih hg'
      exact ⟨rfl, rfl⟩

/-- A rule does not grow, if a round leads back to the outcome it started from. -/
lemma Round.eq_of_grows (h : s.Round V a σ σ L)
    (hV : ∀ b o L o' L', V b o L → V b o' L' → o = o' ∧ L = L') (hg : s.Grows V a count σ o L') :
    o = σ ∧ L ∪ L' = L := by
  cases hg with
  | spent => exact ⟨rfl, Set.union_empty L⟩
  | done h' =>
    obtain ⟨-, rfl⟩ := h.unique hV h'
    exact ⟨rfl, Set.union_self L⟩
  | more h' ho =>
    obtain ⟨rfl, -⟩ := h.unique hV h'
    exact absurd ho.2 (Nat.lt_irrefl _)

/-- **A visit of a rule has one outcome and offers one set.** -/
theorem Visits.unique (h : s.Visits a o L) (h' : s.Visits a o' L') : o = o' ∧ L = L' := by
  refine Visits.induction (P := fun a o L => ∀ o' L', s.Visits a o' L' → o = o' ∧ L = L')
    (fun a o L hstep o' L' h' => ?_) h o' L' h'
  have hV : ∀ b o L o' L', (s.Visits b o L ∧ ∀ o' L', s.Visits b o' L' → o = o' ∧ L = L') →
      s.Visits b o' L' → o = o' ∧ L = L' := fun _ _ _ o' L' hboth hv => hboth.2 o' L' hv
  rw [visits_iff] at h'
  cases hstep with
  | collected hq hc =>
    cases h' with
    | collected _ hc' =>
      obtain ⟨rfl, rfl⟩ := hc.unique hc'
      exact ⟨rfl, rfl⟩
    | matched hq' => exact absurd hq (ne_true_of_eq_false hq')
  | matched hq hr hg =>
    cases h' with
    | collected hq' => exact absurd hq' (ne_true_of_eq_false hq)
    | matched _ hr' hg' =>
      obtain ⟨rfl, rfl⟩ := hr.unique hV hr'
      obtain ⟨rfl, rfl⟩ := hg.unique hV hg'
      exact ⟨rfl, rfl⟩

end Session

end GrammarCompletion
