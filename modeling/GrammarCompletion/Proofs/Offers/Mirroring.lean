/-
# Visits at corresponding positions

Where two sessions over one model answer alike at corresponding positions, visits of a rule there have
outcomes that correspond, and they offer the same (`Session.Visits.mirror`).  In particular the limits
of a session make no difference to what is said of visits (`Session.visits_withLimits`).
-/
import GrammarCompletion.Proofs.Limits.Uniform
import GrammarCompletion.Proofs.Offers.Outcomes

namespace GrammarCompletion

namespace Session

variable {s s' : Session} {T : Nat → Nat → Prop} {W : Spot → Outcome → Prop} {Call : Spot → Prop}
  {Todo : List (Node RuleId) → Nat → Prop} {V : Visit} {a b : Spot} {p p' q' count count' : Nat}
  {σ σ' best best' o o' : Outcome} {L : Set Event}

/-- Corresponding outcomes exceed corresponding ones. -/
lemma Mirror.exceeds_iff (h : s.Mirror s' T Todo) (ho : o.Mirrors T o') (hb : best.Mirrors T best') :
    o'.Exceeds best' ↔ o.Exceeds best := by
  have husable : o'.isUsable = o.isUsable := by simp [Outcome.isUsable, ho.matched, ho.phase]
  rw [Outcome.Exceeds, Outcome.Exceeds, husable, h.lt_iff hb.stop ho.stop]

variable (h : s.Mirror s' T Todo) (hmodel : s'.model = s.model)

include h hmodel

/-- Collecting does not depend on positions. -/
lemma Gathers.mirror {inside : List RuleId} {r : RuleId} {ph : Phase} (hg : s.Gathers inside r ph L) :
    s'.Gathers inside r ph L := by
  refine Gathers.induction (P := s'.Gathers) (fun inside r ph L hstep => ?_) hg
  have hopen : s.IsOpen inside r → s'.IsOpen inside r := fun ho =>
    ⟨hmodel ▸ ho.special, hmodel ▸ ho.ignored, ho.fresh⟩
  cases hstep with
  | special hs => exact gathers_iff.2 (.special (hmodel ▸ hs))
  | closed hs hc => exact gathers_iff.2 (.closed (hmodel ▸ hs) (hc.imp_left (hmodel ▸ ·)))
  | @tokenSet tokens _ _ ho hb hy =>
    refine gathers_iff.2 (.tokenSet (hopen ho) (hmodel ▸ hb) ?_)
    have hplan : Plan.Mirrors T (fun _ => False) (fun _ _ => True) (· = ·)
        (Plan.collectTokens s tokens.toList) (Plan.collectTokens s' tokens.toList) :=
      h.collectTokens tokens.toList
    obtain ⟨_, hy', rfl⟩ := hy.mirror hplan (fun _ _ _ _ hf => hf.elim) fun _ _ _ hf => hf
    exact hy'
  | @sequences list _ _ ho hb hy =>
    refine gathers_iff.2 (.sequences (hopen ho) (hmodel ▸ hb) ?_)
    have hplan : Plan.Mirrors T (fun _ => False) (fun _ _ => True) (· = ·)
        (Plan.collectSequences s list) (Plan.collectSequences s' list) := h.collectSequences list
    obtain ⟨_, hy', rfl⟩ := hy.mirror hplan (fun _ _ _ _ hf => hf.elim) fun _ _ _ hboth => hboth.2
    exact hy'

/-- What is known of the visits of rules in both sessions. -/
def BothVisit (s s' : Session) (T : Nat → Nat → Prop) (Call : Spot → Prop) : Visit :=
  fun b o L => s.Visits b o L ∧
    (Call b → ∀ q', T b.start q' → ∃ o', o.Mirrors T o' ∧ s'.Visits ⟨b.rule, q'⟩ o' L)

variable (hp : s.Predicts W Call Todo)
  (hset : ∀ {a p'}, Call a → s.reached a.start = false → T a.start p' → ∀ tokens,
    (s.matchTokenSet tokens a.start).Mirrors T (s'.matchTokenSet tokens p'))

include hp hset

/-- Rounds from corresponding outcomes have corresponding outcomes. -/
lemma Round.mirror (ha : Call a) (hq : s.reached a.start = false) (hT : T a.start p')
    (hσ : W a σ) (hσ' : σ.Mirrors T σ') (hround : s.Round (s.BothVisit s' T Call) a σ o L) :
    ∃ o', o.Mirrors T o' ∧ s'.Round s'.Visits ⟨a.rule, p'⟩ σ' o' L := by
  obtain ⟨body, hb, hy⟩ := hround
  have hentry : ∀ list, body = .sequences list → ∀ q ∈ list, Todo q.nodes a.start := by
    rintro list rfl q hmem
    exact hp.entry ha hq hb hmem
  have hplan := h.matchBody hp.toGuide hentry hT (hset ha hq hT)
  have hinside : ∀ b q' o L, Call b → T b.start q' → Inside (s.BothVisit s' T Call) a σ b o L →
      W b o ∧ ∃ o', o.Mirrors T o' ∧ Inside s'.Visits ⟨a.rule, p'⟩ σ' ⟨b.rule, q'⟩ o' L := by
    rintro b q' o L hb hbT (⟨hne, hv, hboth⟩ | ⟨rfl, rfl, rfl⟩)
    · obtain ⟨o', ho', hv'⟩ := hboth hb q' hbT
      refine ⟨hv.predicted hp hb, o', ho', Or.inl ⟨fun heq => hne ?_, hv'⟩⟩
      -- spots that correspond to one spot are the same
      obtain ⟨hrule, rfl⟩ := Spot.mk.inj heq
      cases a
      cases b
      exact Spot.mk.injEq .. ▸ ⟨hrule, (h.eq_iff hbT hT).2 rfl⟩
    · obtain rfl : q' = p' := (h.eq_iff hbT hT).1 rfl
      exact ⟨hσ, σ', hσ', Or.inr ⟨rfl, rfl, rfl⟩⟩
  obtain ⟨o', hy', ho'⟩ := hy.mirror hplan hinside fun _ _ _ hg => hg.mirror h hmodel
  exact ⟨o', ho', body, hmodel ▸ hb, hy'⟩

variable (hsize : ∀ {p p'}, T p p' → p ≤ s.stream.size ∧ p' ≤ s'.stream.size)

include hsize

/-- A rule grows alike in both sessions, as the counts last in both. -/
lemma Grows.mirror (ha : Call a) (hq : s.reached a.start = false) (hT : T a.start p')
    (hbest : W a best) (hbest' : best.Mirrors T best') (hcount : s.stream.size < best.stop + count)
    (hcount' : s'.stream.size < best'.stop + count')
    (hg : s.Grows (s.BothVisit s' T Call) a count best o L) :
    ∃ o', o.Mirrors T o' ∧ s'.Grows s'.Visits ⟨a.rule, p'⟩ count' best' o' L := by
  induction hg generalizing best' count' with
  | spent => exact absurd (hsize hbest'.stop).1 (Nat.not_le.2 hcount)
  | @done count best o L hround hno =>
    obtain ⟨o', ho', hround'⟩ := hround.mirror h hmodel hp hset ha hq hT hbest hbest'
    have hle := (hsize hbest'.stop).2
    obtain ⟨k, rfl⟩ : ∃ k, count' = k + 1 := Nat.exists_eq_succ_of_ne_zero (by omega)
    exact ⟨best', hbest', .done hround' fun hex => hno ((h.exceeds_iff ho' hbest').1 hex)⟩
  | @more count best o o₁ L L' hround hex _ ih =>
    obtain ⟨o', ho', hround'⟩ := hround.mirror h hmodel hp hset ha hq hT hbest hbest'
    have hex' := (h.exceeds_iff ho' hbest').2 hex
    have hle := (hsize hbest'.stop).2
    obtain ⟨k, rfl⟩ : ∃ k, count' = k + 1 := Nat.exists_eq_succ_of_ne_zero (by omega)
    have hnext : W a o := hround.predicted hp ha hq
      (fun _ _ _ hboth hb => hboth.1.predicted hp hb) hbest
    have hlt := hex.2
    have hlt' := hex'.2
    have hroom : s'.stream.size < o'.stop + k := by omega
    obtain ⟨o₁', ho₁', hg'⟩ := ih hnext ho' (by omega) hroom
    exact ⟨o₁', ho₁', .more hround' hex' hg'⟩

/-- **Visits at corresponding positions** have corresponding outcomes and offer the same. -/
theorem Visits.mirror (hv : s.Visits a o L) (ha : Call a) (hT : T a.start p') :
    ∃ o', o.Mirrors T o' ∧ s'.Visits ⟨a.rule, p'⟩ o' L := by
  refine Visits.induction (P := fun a o L => Call a → ∀ p', T a.start p' →
    ∃ o', o.Mirrors T o' ∧ s'.Visits ⟨a.rule, p'⟩ o' L) (fun a o L hstep ha p' hT => ?_) hv ha p' hT
  cases hstep with
  | @collected ph _ hq hg =>
    refine ⟨⟨false, p', ph⟩, ⟨rfl, hT, rfl⟩, visits_iff.2 (.collected ?_ (hg.mirror h hmodel))⟩
    exact (h.reached hT).trans hq
  | @matched seed _ L₁ L₂ hq hround hg =>
    have hfail := hp.fail ha hq
    have hfail' : Outcome.Mirrors T ⟨false, a.start, .matching⟩ ⟨false, p', .matching⟩ :=
      ⟨rfl, hT, rfl⟩
    obtain ⟨seed', hseed', hround'⟩ := hround.mirror h hmodel hp hset ha hq hT hfail hfail'
    have hseed : W a seed := hround.predicted hp ha hq
      (fun _ _ _ hboth hb => hboth.1.predicted hp hb) hfail
    obtain ⟨hle, hle'⟩ := hsize hseed'.stop
    have hroom : s'.stream.size < seed'.stop + (s'.stream.size + 1 - seed'.stop) := by omega
    obtain ⟨o', ho', hg'⟩ := hg.mirror h hmodel hp hset hsize ha hq hT hseed hseed' (by omega) hroom
    exact ⟨o', ho', visits_iff.2 (.matched ((h.reached hT).trans hq) hround' hg')⟩

omit h hmodel hp hset hsize

/-- The same visible position in both of two sessions. -/
def SamePlace (s : Session) (p p' : Nat) : Prop := p' = p ∧ s.stream.Visible p

/-- **Limits make no difference to visits.** -/
theorem visits_withLimits {l : Limits} (hv : (s.withLimits l).Visits a o L)
    (ha : s.stream.Visible a.start) : s.Visits a o L := by
  have hmirror : (s.withLimits l).Mirror s s.SamePlace fun _ _ => True := {
    ignores := fun _ => rfl
    lt_iff := fun hp hq => by rw [hp.1, hq.1]
    reached := fun hp => by rw [hp.1, reached_withLimits]
    atEnd := fun _ hp => by rw [hp.1, stream_withLimits]
    token := fun {n rest p p' id} _ _ hp => by
      obtain ⟨rfl, hv⟩ := hp
      rw [matchToken_withLimits]
      rcases s.matchToken_eq n.any id p' with ⟨ho, -⟩ | ho <;> rw [ho]
      · exact ⟨rfl, ⟨rfl, hv.advance⟩, rfl⟩
      · exact ⟨rfl, ⟨rfl, hv⟩, rfl⟩ }
  have hset : ∀ {a : Spot} {p'}, True → (s.withLimits l).reached a.start = false →
      s.SamePlace a.start p' → ∀ tokens, ((s.withLimits l).matchTokenSet tokens a.start).Mirrors
        s.SamePlace (s.matchTokenSet tokens p') := by
    rintro a p' - - ⟨rfl, hv⟩ tokens
    rw [matchTokenSet_withLimits, matchTokenSet]
    split
    · exact ⟨rfl, ⟨rfl, hv.advance⟩, rfl⟩
    · exact ⟨rfl, ⟨rfl, hv⟩, rfl⟩
  obtain ⟨o', ho', hv'⟩ := Visits.mirror hmirror rfl predicts_lawful hset
    (fun hp => ⟨hp.2.1, hp.1 ▸ hp.2.1⟩) hv trivial ⟨rfl, ha⟩
  have heq : o' = o := Outcome.Mirrors.eq ⟨ho'.matched, ho'.stop.1.symm, ho'.phase⟩
  exact heq ▸ hv'

end Session

end GrammarCompletion
