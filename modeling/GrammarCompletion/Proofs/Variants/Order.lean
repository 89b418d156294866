/-
# The order of alternatives

A rule tries all its alternatives, and of those that get furthest the first one wins.  All of them
offer what they come across, and which phrase is left of several offers does not depend on their
order.  So the order of the alternatives decides only in which phase matching goes on behind the
rule, where two of them get equally far.  But at a position at which input may still be consumed
matching goes on, and at the caret it has turned to collecting: two alternatives that get equally
far agree (`Outcome.Agrees`).

The order could also matter where a result is used that was obtained inside unfinished rules.  It
does not as long as no rule is left-recursive through another one, because then a visit is what
`Session.Visits` says, and this relation does not know of an order (`Session.Visits.permuted`).
-/
import GrammarCompletion.Proofs.Offers.Walk
import GrammarCompletion.Proofs.Predictive.Completion
import GrammarCompletion.Proofs.Variants.Models

namespace GrammarCompletion

open Plan

/-! ## Bodies -/

/-- Bodies with the same alternatives in any order. -/
inductive RuleBody.Permutes : RuleBody RuleId → RuleBody RuleId → Prop
  | tokenSet {tokens tokens' : OrderedSet TokenId} (h : tokens.toList.Perm tokens'.toList) :
      Permutes (.tokenSet tokens) (.tokenSet tokens')
  | sequences {list list' : List (Sequence RuleId)} (h : list.Perm list') :
      Permutes (.sequences list) (.sequences list')

lemma RuleBody.Permutes.symm {b b' : RuleBody RuleId} (h : b.Permutes b') : b'.Permutes b := by
  cases h with
  | tokenSet h => exact .tokenSet h.symm
  | sequences h => exact .sequences h.symm

namespace Model

variable {m m' : Model} {r r' : RuleId} {u v : Form}

lemma Variant.unpermute (h : m.Variant RuleBody.Permutes m') : m'.Variant RuleBody.Permutes m where
  rules := h.symm.rules.imp fun _ _ he => ⟨he.1, he.2.symm⟩
  special := h.symm.special
  ignored := h.symm.ignored
  names := h.symm.names
  tokens := h.symm.tokens

lemma Produces.permuted {x : Form} (h : m.Variant RuleBody.Permutes m') (hp : m.Produces r x) :
    m'.Produces r x := by
  rcases hp with ⟨tokens, hb, t, ht, rfl⟩ | ⟨list, hb, q, hq, hx⟩
  · obtain ⟨b', hb', hperm⟩ := h.exists_body hb
    cases hperm with
    | tokenSet hl => exact .tokenSet hb' (hl.mem_iff.1 ht)
  · obtain ⟨b', hb', hperm⟩ := h.exists_body hb
    cases hperm with
    | sequences hl => exact .sequence hb' (hl.mem_iff.1 hq) hx

lemma Refers.permuted (h : m.Variant RuleBody.Permutes m') (hr : m.Refers r r') :
    m'.Refers r r' := by
  obtain ⟨list, hb, q, hq, hn⟩ := hr
  obtain ⟨b', hb', hperm⟩ := h.exists_body hb
  cases hperm with
  | sequences hl => exact ⟨_, hb', q, hl.mem_iff.1 hq, hn⟩

lemma LeftRefers.permuted (h : m.Variant RuleBody.Permutes m') (hr : m.LeftRefers r r') :
    m'.LeftRefers r r' := by
  obtain ⟨list, hb, q, hq, pre, n, post, hnodes, hn, x, hx, hd⟩ := hr
  obtain ⟨b', hb', hperm⟩ := h.exists_body hb
  cases hperm with
  | sequences hl =>
    have hd' : m'.Derives x (.ofTokens []) := hd.mono fun r x hp => hp.permuted h
    exact ⟨_, hb', q, hl.mem_iff.1 hq, pre, n, post, hnodes, hn, x, hx, hd'⟩

lemma LeftReach.permuted (h : m.Variant RuleBody.Permutes m') (hr : m.LeftReach r r') :
    m'.LeftReach r r' :=
  Relation.TransGen.mono (fun _ _ hrefers => hrefers.permuted h) _ _ hr

/-- Left recursion does not depend on the order of the alternatives. -/
lemma DirectFrom.permuted (h : m.Variant RuleBody.Permutes m') (hd : m.DirectFrom r) :
    m'.DirectFrom r := by
  intro x hx y hxy hyx
  have hback := h.unpermute
  have hreach : Relation.ReflTransGen m.Refers r x :=
    Relation.ReflTransGen.mono (fun _ _ hrefers => hrefers.permuted hback) _ _ hx
  exact hd x hreach y (hxy.permuted hback) (hyx.permuted hback)

/-- Where no rule is left-recursive, none is through another one. -/
lemma directFrom_of_not_leftReach (h : ∀ r, ¬ m.LeftReach r r) (r : RuleId) : m.DirectFrom r :=
  fun x _ _ hxy hyx => absurd (hxy.trans hyx) (h x)

end Model

/-! ## Plans -/

/-- Two outcomes go on alike if they get equally far and both count. -/
def Outcome.Agrees (o o' : Outcome) : Prop :=
  o.isUsable = true → o'.isUsable = true → o.stop = o'.stop → o.phase = o'.phase

namespace Plan.Yields

variable {s : Session} {V : Visit} {C : Gather} {ph : Phase} {L : Set Event}

/-- Tokens are offered in any order. -/
lemma permTokens {l l' : List TokenId} (hl : l.Perm l') (h : (collectTokens s l).Yields V C ph L) :
    (collectTokens s l').Yields V C ph L := by
  induction hl generalizing L with
  | nil => exact h
  | cons t _ ih =>
    obtain ⟨L', hrest, rfl⟩ := yields_collectTokens_cons.1 h
    exact yields_collectTokens_cons.2 ⟨L', ih hrest, rfl⟩
  | swap t u l =>
    obtain ⟨_, htail, rfl⟩ := yields_collectTokens_cons.1 h
    obtain ⟨L', hrest, rfl⟩ := yields_collectTokens_cons.1 htail
    refine yields_collectTokens_cons.2 ⟨_, yields_collectTokens_cons.2 ⟨L', hrest, rfl⟩, ?_⟩
    exact Set.union_left_comm _ _ _
  | trans _ _ ih ih' => exact ih' (ih h)

/-- Sequences are collected from in any order. -/
lemma permSequences {list list' : List (Sequence RuleId)} (hl : list.Perm list')
    (h : (collectSequences s list).Yields V C ph L) :
    (collectSequences s list').Yields V C ph L := by
  induction hl generalizing ph L with
  | nil => exact h
  | cons q _ ih =>
    obtain ⟨ph₁, ph₂, L₁, L₂, h₁, h₂, rfl, rfl⟩ := yields_collectSequences_cons.1 h
    exact yields_collectSequences_cons.2 ⟨ph₁, ph₂, L₁, L₂, h₁, ih h₂, rfl, rfl⟩
  | swap q k l =>
    obtain ⟨ph₁, _, L₁, _, h₁, htail, rfl, rfl⟩ := yields_collectSequences_cons.1 h
    obtain ⟨ph₂, ph₃, L₂, L₃, h₂, h₃, rfl, rfl⟩ := yields_collectSequences_cons.1 htail
    refine yields_collectSequences_cons.2 ⟨ph₂, ph₁.or ph₃, L₂, L₁ ∪ L₃, h₂,
      yields_collectSequences_cons.2 ⟨ph₁, ph₃, L₁, L₃, h₁, h₃, rfl, rfl⟩, ?_, ?_⟩
    · cases ph₁ <;> cases ph₂ <;> rfl
    · exact Set.union_left_comm _ _ _
  | trans _ _ ih ih' => exact ih' (ih h)

/-- Alternatives are tried in any order, if their outcomes agree. -/
lemma permTallies {list list' : List (Sequence RuleId)} (hl : list.Perm list') {p i : Nat}
    {t t' : Tally} (hagree : ∀ q ∈ list, ∀ k ∈ list, ∀ o o' L L',
      (matchNodes s q.nodes p).Yields V C o L → (matchNodes s k.nodes p).Yields V C o' L' →
        o.Agrees o') (h : (matchSequences s p i t list).Yields V C t' L) :
    (matchSequences s p i t list').Yields V C t' L := by
  induction hl generalizing i t L with
  | nil => exact h
  | cons q _ ih =>
    obtain ⟨o, L₁, L₂, hq, hrest, rfl⟩ := yields_matchSequences_cons.1 h
    refine yields_matchSequences_cons.2 ⟨o, L₁, L₂, hq, ih ?_ hrest, rfl⟩
    exact fun q hq k hk => hagree q (List.mem_cons_of_mem _ hq) k (List.mem_cons_of_mem _ hk)
  | swap q k l =>
    obtain ⟨o, L₁, _, hq, htail, rfl⟩ := yields_matchSequences_cons.1 h
    obtain ⟨o', L₂, L₃, hk, hrest, rfl⟩ := yields_matchSequences_cons.1 htail
    have hcomm : (t.add o).add o' = (t.add o').add o :=
      Tally.add_right_comm (hagree _ (by simp) _ (by simp) o o' L₁ L₂ hq hk)
    rw [hcomm] at hrest
    refine yields_matchSequences_cons.2 ⟨o', L₂, L₁ ∪ L₃, hk,
      yields_matchSequences_cons.2 ⟨o, L₁, L₃, hq, hrest, rfl⟩, ?_⟩
    exact Set.union_left_comm _ _ _
  | trans hl _ ih ih' =>
    refine ih' (fun q hq k hk => ?_) (ih hagree h)
    exact hagree q (hl.mem_iff.2 hq) k (hl.mem_iff.2 hk)

end Plan.Yields

namespace Session

variable {s : Session} {m' : Model} {a : Spot} {o best : Outcome} {L : Set Event} {count : Nat}

/-! ## Collecting -/

/-- **Collecting from a rule offers the same, whatever the order of the alternatives is.** -/
theorem Gathers.permuted (h : s.model.Variant RuleBody.Permutes m') {inside : List RuleId}
    {r : RuleId} {ph : Phase} (hg : s.Gathers inside r ph L) :
    (s.withModel m').Gathers inside r ph L := by
  refine Gathers.induction (P := (s.withModel m').Gathers) (fun inside r ph L hstep => ?_) hg
  have hmirror : s.Mirror (s.withModel m') (· = ·) fun _ _ => True := .withModel h.isIgnoredToken
  have hopen : s.IsOpen inside r → (s.withModel m').IsOpen inside r := fun ho =>
    ⟨(h.isSpecial r).trans ho.special, (h.isIgnored r).trans ho.ignored, ho.fresh⟩
  cases hstep with
  | special hs => exact gathers_iff.2 (.special ((h.isSpecial r).trans hs))
  | closed hs hc =>
    exact gathers_iff.2 (.closed ((h.isSpecial r).trans hs) (hc.imp_left (h.isIgnored r).trans))
  | tokenSet ho hb hy =>
    obtain ⟨b', hb', hperm⟩ := h.exists_body hb
    cases hperm with
    | @tokenSet _ tokens' hl =>
      refine gathers_iff.2 (.tokenSet (hopen ho) hb' ?_)
      exact (hy.permTokens hl).unvisited (hmirror.collectTokens tokens'.toList) fun _ _ _ hf => hf
  | sequences ho hb hy =>
    obtain ⟨b', hb', hperm⟩ := h.exists_body hb
    cases hperm with
    | @sequences _ list' hl =>
      refine gathers_iff.2 (.sequences (hopen ho) hb' ?_)
      exact (hy.permSequences hl).unvisited (hmirror.collectSequences list')
        fun _ _ _ hboth => hboth.2

/-! ## Matching -/

/-- What is known of the visits inside a frame. -/
def CarriesTo (s : Session) (m' : Model) : Visit :=
  fun b o L => s.Visits b o L ∧ (s.UpToStop b → (s.withModel m').Visits b o L)

/-- Two outcomes of sequences that get equally far are in the same phase: at the caret both have
turned to collecting, and before it none has. -/
lemma Concludes.agrees {D D' : List TokenId → Prop} {p : Nat} {o' : Outcome}
    (h : s.Concludes D p o) (h' : s.Concludes D' p o') : o.Agrees o' := by
  intro hu hu' hstop
  cases hq : s.reached o.stop with
  | true => rw [h.collected hu hq, h'.collected hu' (hstop ▸ hq)]
  | false =>
    have hmatching : ∀ {x : Outcome}, x.stop = o.stop →
        (x.phase = .pending → s.reached x.stop = true) → x.phase = .matching := by
      intro x hx hcaret
      cases hph : x.phase with
      | matching => rfl
      | pending => exact absurd (hx ▸ hcaret hph) (ne_true_of_eq_false hq)
    rw [hmatching rfl h.caret, hmatching hstop.symm h'.caret]

variable (h : s.model.Variant RuleBody.Permutes m') (heof : s.model.EofRequired) (ho : s.Open a)

include h heof ho

/-- A round has the same outcome and offers the same, whatever the order of the alternatives is. -/
lemma Round.permuted {σ : Outcome} (hσ : s.Sound a σ)
    (hround : s.Round (s.CarriesTo m') a σ o L) :
    (s.withModel m').Round (s.withModel m').Visits a σ o L := by
  obtain ⟨body, hb, hy⟩ := hround
  obtain ⟨body', hb', hperm⟩ := h.exists_body hb
  refine ⟨body', hb', ?_⟩
  have hpredicts := predicts_sound heof
  have hsound : ∀ b o L, s.UpToStop b → Inside (s.CarriesTo m') a σ b o L → s.Sound b o := by
    rintro b o L hb (⟨-, hv, -⟩ | ⟨rfl, rfl, -⟩)
    · exact hv.sound heof hb
    · exact hσ
  have hasked := hpredicts.yields ho.upToStop ho.not_reached hb hy hsound
  cases hperm with
  | @tokenSet tokens tokens' hl =>
    obtain ⟨rfl, rfl⟩ := yields_matchBody_tokenSet.1 hasked
    have hset : s.matchTokenSet tokens a.start = s.matchTokenSet tokens' a.start := by
      simp only [matchTokenSet, OrderedSet.mem_iff, hl.mem_iff]
    exact yields_matchBody_tokenSet.2 ⟨hset, rfl⟩
  | @sequences list list' hl =>
    obtain ⟨t, ht, rfl⟩ := yields_matchBody_sequences.1 hasked
    -- the alternatives are put in their new order, and then the models are exchanged
    have hconcludes : ∀ q ∈ list, ∀ o L, (Plan.matchNodes s q.nodes a.start).Yields
        (fun b o L => Inside (s.CarriesTo m') a σ b o L ∧ s.UpToStop b) (s.Gathers []) o L →
          s.Concludes (s.model.DerivesNodes q.nodes) a.start o := by
      intro q hq o L hnodes
      refine Matches.sound heof (hnodes.matchesNodes (fun b o L hb => ?_) fun _ _ _ hg => ?_)
        (ho.ready hb hq)
      · exact hsound b o L hb.2 hb.1
      · exact hg.ruleLeaves
    have ht' := ht.permTallies hl fun q hq k hk o o' L L' hqy hky =>
      (hconcludes q hq o L hqy).agrees (hconcludes k hk o' L' hky)
    have hmirror : s.Mirror (s.withModel m') (· = ·) s.Ready := .withModel h.isIgnoredToken
    have hready : ∀ l, RuleBody.sequences list' = .sequences l →
        ∀ q ∈ l, s.Ready q.nodes a.start := by
      rintro _ ⟨⟩ q hq
      exact ho.ready hb (hl.mem_iff.2 hq)
    have hplan := hmirror.matchBody hpredicts.toGuide hready rfl fun _ => ⟨rfl, rfl, rfl⟩
    have hcarried : ∀ b p' o L, s.UpToStop b → b.start = p' →
        (Inside (s.CarriesTo m') a σ b o L ∧ s.UpToStop b) → s.Sound b o ∧
          ∃ o', o.Mirrors (· = ·) o' ∧ Inside (s.withModel m').Visits a σ ⟨b.rule, p'⟩ o' L := by
      rintro b p' o L hb rfl ⟨hinside, -⟩
      refine ⟨hsound b o L hb hinside, o, ⟨rfl, rfl, rfl⟩, ?_⟩
      exact hinside.imp_left fun hv => ⟨hv.1, hv.2.2 hb⟩
    obtain ⟨o', hy', ho'⟩ := (yields_matchBody_sequences.2 ⟨t, ht', rfl⟩).mirror hplan hcarried
      fun _ _ _ hg => hg.permuted h
    exact ho'.eq ▸ hy'

lemma Grows.permuted (hbest : s.Sound a best)
    (hg : s.Grows (s.CarriesTo m') a count best o L) :
    (s.withModel m').Grows (s.withModel m').Visits a count best o L := by
  induction hg with
  | spent => exact .spent
  | done hround hno => exact .done (hround.permuted h heof ho hbest) hno
  | more hround hex _ ih =>
    have hsound := hround.sound heof ho (fun _ _ _ hv hb => hv.1.sound heof hb) hbest
    exact .more (hround.permuted h heof ho hbest) hex (ih hsound)

omit ho

/-- **A visit has the same outcome and offers the same, whatever the order of the alternatives
is.** -/
theorem Visits.permuted (hv : s.Visits a o L) (ha : s.UpToStop a) :
    (s.withModel m').Visits a o L := by
  refine Visits.induction (P := fun a o L => s.UpToStop a → (s.withModel m').Visits a o L)
    (fun a o L hstep ha => ?_) hv ha
  cases hstep with
  | collected hq hg => exact visits_iff.2 (.collected hq (hg.permuted h))
  | matched hq hround hg =>
    have ho : s.Open a := ⟨ha.1, ha.2, hq⟩
    have hsound := hround.sound heof ho (fun _ _ _ hv hb => hv.1.sound heof hb) ho.sound_failed
    exact visits_iff.2 (.matched hq (Round.permuted h heof ho ho.sound_failed hround)
      (Grows.permuted h heof ho hsound hg))

/-! ## Completions -/

/-- The order of the alternatives makes no difference, if no rule that can be reached from the root
is left-recursive through another one. -/
theorem complete_permuted_of_directFrom {name : String} {c c' : Completion}
    (hd : ∀ root, s.model.ruleId? name = some root → s.model.DirectFrom root)
    (hc : s.complete name = .ok c) (hc' : (s.withModel m').complete name = .ok c') : c' = c := by
  obtain ⟨root, o, r, hroot, hw, hcomp⟩ := complete_eq_ok hc
  obtain ⟨root', o', r', hroot', hw', hcomp'⟩ := complete_eq_ok hc'
  have hroots : some root = some root' := hroot.symm.trans ((h.ruleId? name).symm.trans hroot')
  obtain rfl := Option.some.inj hroots
  obtain ⟨L, hvisit, hreflects⟩ := walk_visits (hd root hroot) (index_lt_of_ruleId? hroot) hw
  obtain ⟨L', hvisit', hreflects'⟩ :=
    walk_visits ((hd root hroot).permuted h) (index_lt_of_ruleId? hroot') hw'
  have hstart : s.UpToStop ⟨root, s.stream.skipHidden 0⟩ :=
    ⟨TokenStream.visible_skipHidden (Nat.zero_le _), TokenStream.skipHidden_zero_le_stop⟩
  obtain ⟨rfl, rfl⟩ := (hvisit.permuted h heof hstart).unique hvisit'
  obtain ⟨texts, hrender, rfl⟩ := completion_eq_ok_iff.1 hcomp
  obtain ⟨texts', hrender', rfl⟩ := completion_eq_ok_iff.1 hcomp'
  obtain rfl : texts' = texts := hreflects.render_eq hreflects' h.tokenName
    (fun r name hname => (h.ruleName r).trans hname) hrender hrender'
  rfl

/-- **The order of the alternatives makes no difference without left recursion**: whenever there is
a completion over the model and over one with the alternatives of the rules in another order, both
are the same. -/
theorem complete_permuted {name : String} {c c' : Completion}
    (hleft : ∀ r, ¬ s.model.LeftReach r r) (hc : s.complete name = .ok c)
    (hc' : (s.withModel m').complete name = .ok c') : c' = c :=
  complete_permuted_of_directFrom h heof
    (fun root _ => Model.directFrom_of_not_leftReach hleft root) hc hc'

omit h heof

/-- Chains of numbers in which the other sign comes first. -/
def turnedChains : Model :=
  { chains with rules := .ofList [
    ("chain", .sequences [⟨[.token ⟨1⟩ .one, .rule ⟨1⟩ .zeroOrMore], none⟩]),
    ("step", .sequences [⟨[.token ⟨3⟩ .one, .token ⟨1⟩ .one], none⟩,
      ⟨[.token ⟨2⟩ .one, .token ⟨1⟩ .one], none⟩])] }

lemma variant_turnedChains : chains.Variant RuleBody.Permutes turnedChains where
  rules := .cons ⟨rfl, .sequences (.refl _)⟩ (.cons ⟨rfl, .sequences (.swap _ _ _)⟩ .nil)
  special := rfl
  ignored := rfl
  names := rfl
  tokens := rfl

/-- After a chain of two numbers, both models offer the signs. -/
theorem complete_turnedChains :
    chains.Variant RuleBody.Permutes turnedChains ∧ chains.EofRequired ∧
      (∀ r, ¬ chains.LeftReach r r) ∧
      ∃ c c', (onLine chains [⟨1⟩, ⟨2⟩, ⟨1⟩]).complete "chain" = .ok c ∧
        (onLine turnedChains [⟨1⟩, ⟨2⟩, ⟨1⟩]).complete "chain" = .ok c' ∧
        c.candidates = ["MINUS NUM", "PLUS NUM"] ∧ c' = c := by
  have heof : chains.EofRequired := by decide
  have hc : (onLine chains [⟨1⟩, ⟨2⟩, ⟨1⟩]).complete "chain" =
      .ok ⟨["MINUS NUM", "PLUS NUM"], true, none, 3⟩ := by cbv
  have hc' : (onLine turnedChains [⟨1⟩, ⟨2⟩, ⟨1⟩]).complete "chain" =
      .ok ⟨["MINUS NUM", "PLUS NUM"], true, none, 3⟩ := by cbv
  exact ⟨variant_turnedChains, heof, not_leftReach_chains, _, _, hc, hc', rfl,
    complete_permuted variant_turnedChains heof not_leftReach_chains hc hc'⟩

end Session

end GrammarCompletion
