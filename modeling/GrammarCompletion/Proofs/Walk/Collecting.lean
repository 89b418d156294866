/-
# Collecting within a regime

`Regime.Collecting` lists what has to be checked of a regime so that collecting stays within it:
that it does not look at events, at the fuel and at the rules that are being collected from, that
the candidates that are offered are allowed, and that the walk is prepared for the errors that it
can end with.  Two predicates say from where candidates may be collected: `Call` from which rules,
inside which others and to which depth, and `Due` from which nodes.

Collecting from a rule then stays within the regime and ends in the phase of the rule
(`Regime.Collecting.collectRule`).
-/
import GrammarCompletion.Proofs.Walk.Phase
import GrammarCompletion.Proofs.Walk.Regime
import Mathlib

namespace GrammarCompletion

namespace Walk.Regime

/-- The candidates may change in this way. -/
def AllowsCandidates (K : Regime) (f : Candidates → Candidates) : Prop :=
  ∀ r, K.inv r → K.inv { r with candidates := f r.candidates } ∧
    K.later r { r with candidates := f r.candidates }

/-- The regime of the parts of a walk inside certain rules that are being collected from. -/
def inside (K : Regime) (l : List RuleId) : Regime where
  inv r := K.inv r ∧ r.collecting = l
  later := K.later
  fault := K.fault
  refl := K.refl
  trans := K.trans

lemma AllowsEvents.inside {K : Regime} {P : Event → Prop} (h : K.AllowsEvents P)
    (l : List RuleId) : (K.inside l).AllowsEvents P :=
  fun r e he hr => ⟨⟨(h r e he hr.1).1, hr.2⟩, (h r e he hr.1).2⟩

lemma AllowsFuel.inside {K : Regime} {limit : Nat} (h : K.AllowsFuel limit) (l : List RuleId) :
    (K.inside l).AllowsFuel limit :=
  ⟨fun r n hr => ⟨⟨(h.1 r n hr.1).1, hr.2⟩, (h.1 r n hr.1).2⟩, fun r hr => h.2 r hr.1⟩

/-- What is needed to collect candidates within a regime. -/
structure Collecting (K : Regime) (s : Session) (Call : Nat → List RuleId → RuleId → Prop)
    (Due : Nat → List RuleId → List (Node RuleId) → Prop) : Prop where
  events : K.AllowsEvents fun e => e.isFraming = false
  fuel : K.AllowsFuel s.limits.fuel
  stack : ∀ r l, K.inv r → K.inv { r with collecting := l } ∧ K.later r { r with collecting := l }
  offerNode : ∀ {d l n rest t}, Due d l (n :: rest) → n.symbol = .token t → t ≠ .eof →
    n.any = false → s.model.isIgnoredToken t = false →
    K.AllowsCandidates (·.offerToken t (s.model.continuation n rest))
  offerSet : ∀ {d l r t} {tokens : OrderedSet TokenId}, Call d l r →
    s.model.body r = .ok (.tokenSet tokens) → t ∈ tokens → s.model.isIgnoredToken t = false →
    K.AllowsCandidates (·.offerToken t [])
  offerRule : ∀ {d l r}, Call d l r → s.model.isSpecial r = true →
    K.AllowsCandidates (·.offerRule r)
  skip : ∀ {d l n rest}, Due d l (n :: rest) → n.isRequired = false → Due d l rest
  next : ∀ {d l n rest id}, Due d l (n :: rest) → n.symbol = .rule id →
    s.model.RuleLeaves l id .pending → Due d l rest
  call : ∀ {d l n rest id}, Due d l (n :: rest) → n.symbol = .rule id → Call d l id
  enter : ∀ {d l r list q}, Call (d + 1) l r → r ∉ l → s.model.body r = .ok (.sequences list) →
    q ∈ list → Due d (r :: l) q.nodes
  defect : ∀ {d l r e}, Call d l r → s.model.body r = .error e → ∀ run, K.inv run →
    K.fault (.defect e) run
  limit : ∀ {l r}, Call 0 l r → r ∉ l → ∀ run, K.inv run →
    K.fault (.recursionLimit s.limits.depth) run

namespace Collecting

variable {K : Regime} {s : Session} {Call : Nat → List RuleId → RuleId → Prop}
  {Due : Nat → List RuleId → List (Node RuleId) → Prop} {d : Nat} {l : List RuleId}

lemma emit (h : K.Collecting s Call Due) {e : Event} (he : e.isFraming = false) :
    (K.inside l).Keeps (Walk.emit e) fun _ _ => True :=
  Keeps.emit (h.events.inside l) he

lemma burn (h : K.Collecting s Call Due) :
    (K.inside l).Keeps (Walk.burn s.limits.fuel) fun _ _ => True :=
  Keeps.burn (h.fuel.inside l)

lemma modifyCandidates {f : Candidates → Candidates} (hf : K.AllowsCandidates f) :
    (K.inside l).Keeps (modify fun r => { r with candidates := f r.candidates } : Walk Unit)
      fun _ _ => True :=
  .modify fun r hr => ⟨⟨(hf r hr.1).1, hr.2⟩, (hf r hr.1).2⟩

lemma offer (h : K.Collecting s Call Due) {t : TokenId} {c : List TokenId}
    (hf : s.model.isIgnoredToken t = false → K.AllowsCandidates (·.offerToken t c)) :
    (K.inside l).Keeps (s.offer t c) fun _ _ => True := by
  rw [Session.offer]
  cases ht : s.model.isIgnoredToken t with
  | true => exact .pure fun _ _ => trivial
  | false =>
    refine (h.emit rfl).bind fun _ => ?_
    exact (modifyCandidates (hf ht)).keepsFrom

/-- From nodes in a row, given how to collect from rules. -/
lemma nodes (h : K.Collecting s Call Due) {collect : RuleId → Walk Phase}
    (hcollect : ∀ {n rest id}, Due d l (n :: rest) → n.symbol = .rule id →
      (K.inside l).Keeps (collect id) fun ph _ => s.model.RuleLeaves l id ph)
    {nodes : List (Node RuleId)} (hdue : Due d l nodes) :
    (K.inside l).Keeps (s.collectNodes collect nodes) fun ph _ =>
      s.model.NodesLeave l nodes ph := by
  induction nodes with
  | nil => exact .pure fun _ _ => Model.nodesLeave_nil
  | cons n rest ih =>
    rw [Session.collectNodes]
    split
    · next t hn =>
      by_cases ht : t = .eof
      · rw [if_pos ht]
        exact .pure fun _ _ => Model.nodesLeave_token_stop hn (Or.inl ht)
      rw [if_neg ht]
      -- what follows the offer of the token, whether there is one or not
      have hrest : (K.inside l).Keeps
          (if n.isRequired = true then (pure .matching : Walk Phase)
            else s.collectNodes collect rest)
          fun ph _ => s.model.NodesLeave l (n :: rest) ph := by
        split
        · next hr => exact .pure fun _ _ => Model.nodesLeave_token_stop hn (Or.inr hr)
        · next hr =>
          refine (ih (h.skip hdue (by simpa using hr))).mono fun ph _ _ hph => ?_
          exact Model.nodesLeave_token_skip hn (by simp [ht, hr]) hph
      cases hany : n.any with
      | true => simpa using hrest
      | false =>
        simp only [Bool.not_false, if_true]
        refine (h.offer fun hi => h.offerNode hdue hn ht hany hi).bind fun _ => ?_
        exact hrest.keepsFrom
    · next id hn =>
      refine (hcollect hdue hn).bind fun q => ?_
      by_cases hstop : n.isRequired = true ∧ q = .matching
      · rw [if_pos (by simp [hstop])]
        refine .pure fun _ _ hq => ?_
        exact Model.nodesLeave_rule_stop hn hstop.1 (hstop.2 ▸ hq)
      · rw [if_neg (by simpa using hstop)]
        -- the rest is collected from because the node is optional or the rule may be empty
        intro r hr
        have hdue' : Due d l rest := by
          cases hreq : n.isRequired with
          | false => exact h.skip hdue hreq
          | true =>
            cases q with
            | matching => exact absurd ⟨hreq, rfl⟩ hstop
            | pending => exact h.next hdue hn hr.2
        refine (ih hdue').from (C := fun _ => s.model.RuleLeaves l id q) ?_ r hr
        intro _ ph _ _ hq _ hph
        exact Model.nodesLeave_rule_skip hn hq hstop hph

lemma tokens (h : K.Collecting s Call Due) {r : RuleId} (hc : Call d l r)
    {set : OrderedSet TokenId} (hb : s.model.body r = .ok (.tokenSet set)) {list : List TokenId}
    (hlist : ∀ t ∈ list, t ∈ set) :
    (K.inside l).Keeps (s.collectTokens list) fun ph _ => ph = .matching := by
  induction list with
  | nil => exact .pure fun _ _ => rfl
  | cons t rest ih =>
    rw [Session.collectTokens]
    refine (h.offer fun hi => h.offerSet hc hb (hlist t List.mem_cons_self) hi).bind fun _ => ?_
    exact (ih fun t ht => hlist t (List.mem_cons_of_mem _ ht)).keepsFrom

lemma sequences (h : K.Collecting s Call Due) {collect : RuleId → Walk Phase}
    (hcollect : ∀ {n rest id}, Due d l (n :: rest) → n.symbol = .rule id →
      (K.inside l).Keeps (collect id) fun ph _ => s.model.RuleLeaves l id ph)
    {list : List (Sequence RuleId)} (hdue : ∀ q ∈ list, Due d l q.nodes) :
    (K.inside l).Keeps (s.collectSequences collect list) fun ph _ =>
      ∀ᶠ depth in Filter.atTop, phaseSequences (s.model.phaseRule depth l) list = ph := by
  induction list with
  | nil => exact .pure fun _ _ => Filter.Eventually.of_forall fun _ => rfl
  | cons q rest ih =>
    rw [Session.collectSequences]
    refine (h.nodes hcollect (hdue q List.mem_cons_self)).bind fun ph => ?_
    have ih := ih fun q' hq' => hdue q' (List.mem_cons_of_mem q hq')
    refine KeepsFrom.bind (A := fun others _ => s.model.NodesLeave l q.nodes ph ∧
      ∀ᶠ depth in Filter.atTop, phaseSequences (s.model.phaseRule depth l) rest = others)
      (ih.from fun _ _ _ _ hph _ hothers => ⟨hph, hothers⟩) fun others => ?_
    refine .pure fun _ _ hboth => ?_
    filter_upwards [hboth.1, hboth.2] with depth h₁ h₂
    rw [phaseSequences, h₁, h₂]

lemma offered (h : K.Collecting s Call Due) {r : RuleId} (hc : Call d l r)
    (hr : s.model.isSpecial r = true) :
    (K.inside l).Keeps (Session.offerRule r) fun _ _ => True :=
  (h.emit rfl).seq (modifyCandidates (h.offerRule hc hr))

/-- A part of a walk inside one more rule, which is left afterwards. -/
lemma within (h : K.Collecting s Call Due) {x : Walk Phase} {B : Phase → Prop} {r : RuleId}
    (hx : (K.inside (r :: l)).Keeps x fun ph _ => B ph) :
    (K.inside l).Keeps (do
      modify fun run => { run with collecting := r :: run.collecting }
      let ph ← x
      modify fun run => { run with collecting := run.collecting.tail }
      return ph) fun ph _ => B ph := by
  intro run hrun
  have hpush := h.stack run (r :: run.collecting) hrun.1
  have hx' := hx { run with collecting := r :: run.collecting }
    ⟨hpush.1, congrArg (r :: ·) hrun.2⟩
  simp only [Bind.bind, EStateM.bind, modify, modifyGet, MonadStateOf.modifyGet,
    EStateM.modifyGet, Pure.pure, EStateM.pure]
  cases hxr : x { run with collecting := r :: run.collecting } with
  | ok ph run' =>
    rw [hxr] at hx'
    obtain ⟨⟨hinv, hl⟩, hlater, hB⟩ := hx'
    have hpop := h.stack run' run'.collecting.tail hinv
    exact ⟨⟨hpop.1, by simp [hl]⟩, K.trans (K.trans hpush.2 hlater) hpop.2, hB⟩
  | error e run' =>
    rw [hxr] at hx'
    exact hx'

/-- **Collecting from a rule stays within the regime** and ends in the phase of the rule. -/
theorem rule (h : K.Collecting s Call Due) {r : RuleId} (hc : Call d l r) :
    (K.inside l).Keeps (s.collectRule d r) fun ph _ => s.model.RuleLeaves l r ph := by
  induction d using Nat.strong_induction_on generalizing l r with
  | _ d ih =>
    rw [Session.collectRule.eq_def]
    refine h.burn.seq ((h.emit rfl).seq ?_)
    by_cases hspecial : s.model.isSpecial r = true
    · rw [if_pos hspecial]
      exact (h.offered hc hspecial).seq (.pure fun _ _ => Model.ruleLeaves_closed (Or.inl hspecial))
    rw [if_neg hspecial]
    refine .get fun run hrun => ?_
    rw [hrun.2]
    by_cases hclosed : s.model.isIgnored r = true ∨ r ∈ l
    · rw [if_pos (by simpa using hclosed)]
      exact .pure fun _ _ _ => Model.ruleLeaves_closed (Or.inr hclosed)
    rw [if_neg (by simpa using hclosed)]
    have hopen : ¬ (s.model.isSpecial r = true ∨ s.model.isIgnored r = true ∨ r ∈ l) :=
      fun hor => hor.elim hspecial hclosed
    refine Keeps.keepsFrom (Keeps.bind (A := fun body _ => s.model.body r = .ok body)
      (.ofExcept (fun _ hb _ _ => hb) fun e he run hrun => h.defect hc he run hrun.1)
      fun body => ?_)
    rintro run ⟨hrun, hb⟩
    cases body with
    | tokenSet set =>
      refine (h.tokens hc hb fun _ ht => ht).mono (fun ph _ _ hph => ?_) run hrun
      exact hph ▸ Model.ruleLeaves_tokenSet hb
    | sequences list =>
      have hr : r ∉ l := fun hr => hclosed (Or.inr hr)
      cases d with
      | zero =>
        have hlimit : (K.inside l).Keeps (throw (.recursionLimit s.limits.depth) : Walk Phase)
            fun ph _ => s.model.RuleLeaves l r ph :=
          .throw fun run hrun => h.limit hc hr run hrun.1
        exact hlimit run hrun
      | succ d =>
        refine h.within ?_ run hrun
        refine (h.sequences (fun hdue hn => ih d (Nat.lt_succ_self d) (h.call hdue hn))
          fun q hq => h.enter hc hr hb hq).mono fun ph _ _ hph => ?_
        exact Model.ruleLeaves_sequences hopen hb hph

/-- Collecting from nodes in a row stays within the regime as well. -/
lemma collectNodes (h : K.Collecting s Call Due) {list : List (Node RuleId)} (hdue : Due d l list) :
    (K.inside l).Keeps (s.collectNodes (s.collectRule d) list) fun ph _ =>
      s.model.NodesLeave l list ph :=
  h.nodes (fun hdue hn => h.rule (h.call hdue hn)) hdue

end Collecting

end Walk.Regime

end GrammarCompletion
