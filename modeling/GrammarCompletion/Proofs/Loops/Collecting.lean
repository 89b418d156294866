/-
# Collecting in the loop form

Collecting from a rule offers the same in a model and in its loop form (`Session.Gathers.looped`).
The left-recursive rule adds nothing where it is collected from inside itself, so only its other
alternatives count, and these are the alternatives of the base.  As the base is not empty, nothing is
collected behind it.
-/
import GrammarCompletion.Proofs.Loops.Form
import GrammarCompletion.Proofs.Offers.Outcomes

namespace GrammarCompletion

open Plan

namespace Session

/-- The session over the loop form of a rule. -/
def looped (s : Session) (a : RuleId) (base step : String) : Session :=
  { s with model := s.model.loopForm a base step }

/-- Rules from which candidates are collected in a model and in its loop form.  They differ in the
two new rules, and the base is collected from inside the rule only. -/
structure InsideLoop (s : Session) (a : RuleId) (inside inside' : List RuleId) : Prop where
  mem_iff : ∀ r, r ≠ s.model.baseRule → r ≠ s.model.stepRule → (r ∈ inside' ↔ r ∈ inside)
  base_not : s.model.baseRule ∉ inside
  step_not : s.model.stepRule ∉ inside
  within : s.model.baseRule ∈ inside' → a ∈ inside'

variable {s : Session} {a r : RuleId} {list : List (Sequence RuleId)} {base step : String}
  {inside inside' : List RuleId} {ph : Phase} {L : Set Event} {V V' : Visit} {C C' : Gather}
  {Todo : List (Node RuleId) → Nat → Prop}

namespace InsideLoop

lemma nil : s.InsideLoop a [] [] :=
  ⟨fun _ _ _ => Iff.rfl, List.not_mem_nil, List.not_mem_nil, fun h => absurd h List.not_mem_nil⟩

lemma cons (h : s.InsideLoop a inside inside') (hb : r ≠ s.model.baseRule)
    (hs : r ≠ s.model.stepRule) : s.InsideLoop a (r :: inside) (r :: inside') := by
  refine ⟨fun q hqb hqs => ?_, ?_, ?_, fun hmem => ?_⟩
  · rw [List.mem_cons, List.mem_cons, h.mem_iff q hqb hqs]
  · rw [List.mem_cons, not_or]
    exact ⟨hb.symm, h.base_not⟩
  · rw [List.mem_cons, not_or]
    exact ⟨hs.symm, h.step_not⟩
  · rcases List.mem_cons.1 hmem with he | hmem
    · exact absurd he.symm hb
    · exact List.mem_cons_of_mem r (h.within hmem)

lemma cons_base (h : s.InsideLoop a inside inside') (ha : a ∈ inside') :
    s.InsideLoop a inside (s.model.baseRule :: inside') := by
  refine ⟨fun q hqb hqs => ?_, h.base_not, h.step_not, fun _ => List.mem_cons_of_mem _ ha⟩
  rw [List.mem_cons, or_iff_right hqb, h.mem_iff q hqb hqs]

lemma cons_step (h : s.InsideLoop a inside inside') (hne : s.model.baseRule ≠ s.model.stepRule) :
    s.InsideLoop a inside (s.model.stepRule :: inside') := by
  refine ⟨fun q hqb hqs => ?_, h.base_not, h.step_not, fun hmem => ?_⟩
  · rw [List.mem_cons, or_iff_right hqs, h.mem_iff q hqb hqs]
  · exact List.mem_cons_of_mem _ (h.within ((List.mem_cons.1 hmem).resolve_left hne))

end InsideLoop

/-! ## Plans of both sessions -/

lemma mirror_looped : s.Mirror (s.looped a base step) (· = ·) Todo :=
  .withModel fun _ => Model.isIgnoredToken_loopForm

/-- Collecting looks at the ignored tokens of the model only. -/
lemma yields_collectSequences_looped (h : (Plan.collectSequences s list).Yields V C ph L)
    (hC : ∀ r ph L, C r ph L → C' r ph L) :
    (Plan.collectSequences (s.looped a base step) list).Yields V' C' ph L := by
  have hmirror : s.Mirror (s.looped a base step) (· = ·) fun _ _ => True := mirror_looped
  exact h.unvisited (hmirror.collectSequences list) hC

lemma yields_collectTokens_looped {tokens : List TokenId}
    (h : (Plan.collectTokens s tokens).Yields V C ph L) (hC : ∀ r ph L, C r ph L → C' r ph L) :
    (Plan.collectTokens (s.looped a base step) tokens).Yields V' C' ph L := by
  have hmirror : s.Mirror (s.looped a base step) (· = ·) fun _ _ => True := mirror_looped
  exact h.unvisited (hmirror.collectTokens tokens) hC

/-- Where the rule adds nothing, only the alternatives that do not start with it count. -/
lemma yields_collectSequences_heads (h : (Plan.collectSequences s list).Yields V C ph L)
    (ha : ∀ k L, C a k L → k = .matching ∧ L = ∅) :
    (Plan.collectSequences s (headsOf a list)).Yields V C ph L := by
  induction list generalizing ph L with
  | nil => exact h
  | cons q rest ih =>
    obtain ⟨ph₁, ph₂, L₁, L₂, h₁, h₂, rfl, rfl⟩ := yields_collectSequences_cons.1 h
    cases htail : q.tailOf? a with
    | none =>
      rw [headsOf_cons_none htail]
      exact yields_collectSequences_cons.2 ⟨ph₁, ph₂, L₁, L₂, h₁, ih h₂, rfl, rfl⟩
    | some k =>
      obtain ⟨n, hnodes, hn, hone⟩ := tailOf?_eq_some htail
      rw [hnodes] at h₁
      obtain ⟨j, L₃, L₄, hc, hend, rfl⟩ := (yields_collectNodes_rule hn).1 h₁
      obtain ⟨rfl, rfl⟩ := ha j L₃ hc
      have hreq : n.isRequired = true := by rw [Node.isRequired, hone]; rfl
      rw [if_pos ⟨hreq, rfl⟩] at hend
      obtain ⟨rfl, rfl⟩ := hend
      rw [headsOf_cons_some htail, Set.union_empty, Set.empty_union]
      exact ih h₂

/-! ## Rules -/

/-- A rule adds nothing where it is collected from inside itself. -/
lemma Gathers.of_mem (h : s.Gathers inside r ph L) (hs : s.model.isSpecial r = false)
    (hr : r ∈ inside) : ph = .matching ∧ L = ∅ := by
  cases gathers_iff.1 h with
  | special hs' => exact absurd hs' (ne_true_of_eq_false hs)
  | closed => exact ⟨rfl, rfl⟩
  | tokenSet ho => exact absurd hr ho.fresh
  | sequences ho => exact absurd hr ho.fresh

/-- Nothing is collected behind a rule that is not empty. -/
lemma Gathers.eq_matching (h : s.Gathers inside r ph L) (hr : ¬ s.model.Nullable r) :
    ph = .matching := by
  cases ph with
  | matching => rfl
  | pending => exact absurd (Model.nullable_of_ruleLeaves h.ruleLeaves) hr

lemma base_ne_step : s.model.baseRule ≠ s.model.stepRule := by
  intro he
  simp [Model.baseRule, Model.stepRule] at he

/-- The rule itself, given how its other alternatives are collected from in the loop form. -/
lemma gathers_loop (h : s.model.Loops a list base step) (hinside : s.InsideLoop a inside inside')
    (ho : s.IsOpen inside a) (hy : (Plan.collectSequences s (headsOf a list)).Yields V C .matching L)
    (hC : ∀ r ph L, C r ph L →
      (s.looped a base step).Gathers (s.model.baseRule :: a :: inside') r ph L) :
    (s.looped a base step).Gathers inside' a .matching L := by
  have ha : a ∉ inside' := by
    rw [hinside.mem_iff a h.base_ne.symm h.step_ne.symm]
    exact ho.fresh
  have hbase : (s.looped a base step).Gathers (a :: inside') s.model.baseRule .matching L := by
    refine gathers_iff.2 (.sequences ⟨?_, ?_, ?_⟩ h.body_base
      (yields_collectSequences_looped hy hC))
    · exact Model.isSpecial_loopForm.trans h.base_plain.1
    · exact Model.isIgnored_loopForm.trans h.base_plain.2
    · rw [List.mem_cons, not_or]
      exact ⟨h.base_ne, fun hmem => ha (hinside.within hmem)⟩
  refine gathers_iff.2 (.sequences ⟨?_, ?_, ha⟩ h.body_self ?_)
  · exact Model.isSpecial_loopForm.trans ho.special
  · exact Model.isIgnored_loopForm.trans ho.ignored
  · refine yields_collectSequences_cons.2 ⟨.matching, .matching, L, ∅, ?_,
      yields_collectSequences_nil.2 ⟨rfl, rfl⟩, rfl, (Set.union_empty L).symm⟩
    refine (yields_collectNodes_rule rfl).2 ⟨.matching, L, ∅, hbase, ?_, (Set.union_empty L).symm⟩
    rw [if_pos ⟨rfl, rfl⟩]
    exact ⟨rfl, rfl⟩

/-- **Collecting from a rule offers the same in the loop form.** -/
theorem Gathers.looped (h : s.model.Loops a list base step) (hg : s.Gathers inside r ph L)
    (hinside : s.InsideLoop a inside inside') :
    (s.looped a base step).Gathers inside' r ph L := by
  refine Gathers.induction (P := fun inside r ph L => ∀ inside', s.InsideLoop a inside inside' →
    (s.looped a base step).Gathers inside' r ph L) (fun inside r ph L hstep inside' hinside => ?_)
    hg inside' hinside
  have hopen : ∀ {body}, s.IsOpen inside r → s.model.body r = .ok body →
      (s.looped a base step).IsOpen inside' r := by
    intro body ho hb
    obtain ⟨hrb, hrs⟩ := h.ne_of_body hb
    refine ⟨Model.isSpecial_loopForm.trans ho.special, Model.isIgnored_loopForm.trans ho.ignored, ?_⟩
    rw [hinside.mem_iff r hrb hrs]
    exact ho.fresh
  cases hstep with
  | special hs => exact gathers_iff.2 (.special (Model.isSpecial_loopForm.trans hs))
  | closed hs hc =>
    refine gathers_iff.2 (.closed (Model.isSpecial_loopForm.trans hs) ?_)
    rcases hc with hi | hr
    · exact Or.inl (Model.isIgnored_loopForm.trans hi)
    · have hrb : r ≠ s.model.baseRule := fun he => hinside.base_not (he ▸ hr)
      have hrs : r ≠ s.model.stepRule := fun he => hinside.step_not (he ▸ hr)
      exact Or.inr ((hinside.mem_iff r hrb hrs).2 hr)
  | tokenSet ho hb hy =>
    have hra : r ≠ a := by
      rintro rfl
      cases hb.symm.trans h.body
    refine gathers_iff.2 (.tokenSet (hopen ho hb) (h.body_other hra hb) ?_)
    exact yields_collectTokens_looped hy fun _ _ _ hfalse => hfalse
  | @sequences list' _ _ ho hb hy =>
    obtain ⟨hrb, hrs⟩ := h.ne_of_body hb
    have hinside' := hinside.cons hrb hrs
    by_cases hra : r = a
    · subst hra
      obtain rfl := RuleBody.sequences.inj (Except.ok.inj (hb.symm.trans h.body))
      have hg : s.Gathers inside r ph L :=
        gathers_iff.2 (.sequences ho hb (hy.mono (fun _ _ _ hf => hf) fun _ _ _ hboth => hboth.1))
      obtain rfl := hg.eq_matching (h.not_nullable r)
      have hheads := yields_collectSequences_heads hy fun k L hboth =>
        hboth.1.of_mem ho.special List.mem_cons_self
      refine gathers_loop h hinside ho hheads fun q ph L hboth => ?_
      exact hboth.2 _ (hinside'.cons_base List.mem_cons_self)
    · refine gathers_iff.2 (.sequences (hopen ho hb) (h.body_other hra hb) ?_)
      exact yields_collectSequences_looped hy fun q ph L hboth => hboth.2 _ hinside'

/-- The step is collected from like the ends of the alternatives that start with the rule. -/
lemma gathers_step (h : s.model.Loops a list base step)
    (hy : (Plan.collectSequences s (tailsOf a list)).Yields V (s.Gathers []) ph L) :
    (s.looped a base step).Gathers [] s.model.stepRule ph L := by
  refine gathers_iff.2 (.sequences ⟨?_, ?_, List.not_mem_nil⟩ h.body_step ?_)
  · exact Model.isSpecial_loopForm.trans h.step_plain.1
  · exact Model.isIgnored_loopForm.trans h.step_plain.2
  · exact yields_collectSequences_looped hy fun q ph L hg =>
      hg.looped h (InsideLoop.nil.cons_step base_ne_step)

end Session

end GrammarCompletion
