/-
# Completions, read plainly

The plain reading of rules (`Session.Parses`): no result is kept, no rule is known to be active, and
nothing limits how often or how deep rules are visited.  It says what a rule offers and how far it gets,
and with that what the completion for a root is (`Session.AnswersPlainly`).

In a model without left recursion, whenever a walk comes to an end within its limits, its completion is
the one that the plain reading says, and there is no other (`Session.complete_iff_answersPlainly`).
-/
import GrammarCompletion.Proofs.Offers.Mirroring
import GrammarCompletion.Proofs.Predictive.Completion
import GrammarCompletion.Proofs.Reference.Matching

namespace GrammarCompletion

namespace Session

variable (s : Session)

/-- A rule has an outcome at a position, and it offers a set. -/
inductive Parses : Visit
  /-- Where the caret is reached, it is collected what the rule may start with. -/
  | atCaret {a : Spot} {ph : Phase} {L : Set Event} (hq : s.reached a.start = true)
      (h : s.Expects a.rule ph L) : Parses a ⟨false, a.start, ph⟩ L
  /-- A set of tokens matches one of them. -/
  | tokenSet {a : Spot} {tokens : OrderedSet TokenId} (hq : s.reached a.start = false)
      (hb : s.model.body a.rule = .ok (.tokenSet tokens)) :
      Parses a (s.matchTokenSet tokens a.start) ∅
  /-- All alternatives are tried, and the longest one counts. -/
  | sequences {a : Spot} {list : List (Sequence RuleId)} {os : List Outcome} {o : Outcome}
      {L : Set Event} (hq : s.reached a.start = false)
      (hb : s.model.body a.rule = .ok (.sequences list))
      (h : ParsesAll s Parses s.Expects list a.start os L) (ho : Longest a.start os o) : Parses a o L

/-- A completion shows an outcome and offers. -/
structure Shows (o : Outcome) (L : Set Event) (c : Completion) : Prop where
  sorted : c.candidates.Pairwise (· < ·)
  candidates : ∀ text, text ∈ c.candidates ↔
    (∃ t k, TailOf L t k ∧ text = Candidates.phraseText s.model t k) ∨
      ∃ r, .offerRule r ∈ L ∧ s.model.ruleName r = .ok text
  fullyParsed : c.fullyParsed = (o.matched && s.reached o.stop)
  typedPart : c.typedPart = s.stream.typedPart? s.caret
  position : c.position = o.stop

/-- What the completion for a root is, read plainly. -/
def AnswersPlainly (name : String) (c : Completion) : Prop :=
  ∃ root o L, s.model.ruleId? name = some root ∧ s.Parses ⟨root, s.stream.skipHidden 0⟩ o L ∧
    s.Shows o L c

variable {s} {a : Spot} {o o' : Outcome} {L L' : Set Event} {c c' : Completion} {name : String}
  {l : Limits}

/-! ## There is one answer -/

/-- **A rule has one outcome at a position and offers one set.** -/
theorem Parses.unique (h : s.Parses a o L) (h' : s.Parses a o' L') : o = o' ∧ L = L' := by
  -- what is to be shown of a rule is known of the rules in its alternatives
  let One : Visit := fun a o L => ∀ o' L', s.Parses a o' L' → o = o' ∧ L = L'
  refine @Parses.rec s (fun a o L _ => One a o L)
    (fun list p os L _ => s.ParsesAll One s.Expects list p os L)
    (fun seen nodes p o L _ => s.ParsesNodes One s.Expects seen nodes p o L)
    (fun n p o L _ => s.ParsesNode One n p o L) ?_ ?_ ?_ .nil (fun _ _ hk h => .cons hk h) .nil
    (fun _ ho h hn => .ends hn ho h) (fun _ hr hn => .fails hn hr)
    (fun _ hr _ hn h => .skips hn hr h) (fun _ hq hm _ hn h => .passes hn hq hm h)
    (fun _ hq hm hne _ hn h => .repeats hn hq hm hne h) .token
    (fun _ hv => .rule hv) a o L h o' L' h'
  · intro a ph L hq hc o' L' h'
    cases h' with
    | atCaret _ hc' =>
      obtain ⟨rfl, rfl⟩ := hc.unique hc'
      exact ⟨rfl, rfl⟩
    | tokenSet hq' => exact absurd hq (ne_true_of_eq_false hq')
    | sequences hq' => exact absurd hq (ne_true_of_eq_false hq')
  · intro a tokens hq hb o' L' h'
    cases h' with
    | atCaret hq' => exact absurd hq' (ne_true_of_eq_false hq)
    | tokenSet _ hb' =>
      obtain ⟨⟩ := hb.symm.trans hb'
      exact ⟨rfl, rfl⟩
    | sequences _ hb' => cases hb.symm.trans hb'
  · intro a list os o L hq hb _ ho h o' L' h'
    cases h' with
    | atCaret hq' => exact absurd hq' (ne_true_of_eq_false hq)
    | tokenSet _ hb' => cases hb.symm.trans hb'
    | sequences _ hb' h' ho' =>
      obtain ⟨⟩ := hb.symm.trans hb'
      obtain ⟨rfl, rfl⟩ := h.unique (fun _ _ _ hone => hone) (fun _ _ _ hc _ _ hc' => hc.unique hc') h'
      exact ⟨ho.unique ho', rfl⟩

lemma Shows.unique (h : s.Shows o L c) (h' : s.Shows o L c') : c = c' := by
  have hcandidates : c.candidates = c'.candidates :=
    List.Pairwise.eq_of_mem_iff h.sorted h'.sorted fun text =>
      (h.candidates text).trans (h'.candidates text).symm
  have hfully := h.fullyParsed.trans h'.fullyParsed.symm
  have htyped := h.typedPart.trans h'.typedPart.symm
  have hposition := h.position.trans h'.position.symm
  cases c
  cases c'
  simp_all

lemma AnswersPlainly.unique (h : s.AnswersPlainly name c) (h' : s.AnswersPlainly name c') : c = c' := by
  obtain ⟨root, o, L, hroot, hparses, hshows⟩ := h
  obtain ⟨root', o', L', hroot', hparses', hshows'⟩ := h'
  obtain rfl := Option.some.inj (hroot.symm.trans hroot')
  obtain ⟨rfl, rfl⟩ := hparses.unique hparses'
  exact hshows.unique hshows'

/-! ## A walk does what the plain reading says -/

/-- **A visit of a rule does what the plain reading says**, where no rule is left-recursive. -/
theorem Visits.parses (heof : s.model.EofRequired) (hleft : ∀ r, ¬ s.model.LeftReach r r)
    (h : s.Visits a o L) (ha : s.UpToStop a) : s.Parses a o L := by
  refine Visits.induction (P := fun a o L => s.UpToStop a → s.Parses a o L)
    (fun a o L hstep ha => ?_) h ha
  have hexpects : ∀ id ph L, s.Gathers [] id ph L → s.Expects id ph L :=
    fun _ _ _ hg => hg.expects hleft (List.forall_mem_nil _)
  cases hq : s.reached a.start with
  | true =>
    cases hstep with
    | collected _ hg => exact .atCaret hq (hexpects _ _ _ hg)
    | matched hq' => exact absurd hq (ne_true_of_eq_false hq')
  | false =>
    -- without left recursion, the first round says what the visit does
    obtain ⟨body, hb, hy⟩ := hstep.unseeded heof ha hq (hleft a.rule) fun _ _ _ hboth => hboth.1
    cases body with
    | tokenSet tokens =>
      obtain ⟨rfl, rfl⟩ := Plan.yields_matchBody_tokenSet.1 hy
      exact .tokenSet hq hb
    | sequences list =>
      obtain ⟨t, ht, rfl⟩ := Plan.yields_matchBody_sequences.1 hy
      -- what is known of the rules inside
      let Inner : Visit := fun b o L => s.Parses b o L ∧ s.Sound b o
      have hinner : ∀ b o L, s.Elsewhere (fun b o L => s.Visits b o L ∧
          (s.UpToStop b → s.Parses b o L)) a b o L → Inner b o L := by
        rintro b o L ⟨-, hb, hvisit, hparses⟩
        exact ⟨hparses hb, hvisit.sound heof hb⟩
      have ht' := ht.mono hinner fun _ _ _ hg => hg
      have hE : ∀ nodes ph L, (Plan.collectNodes s nodes).Yields Inner (s.Gathers []) ph L →
          s.ExpectsNodes s.Expects nodes ph L := fun nodes ph L hy =>
        expectsNodes_of_yields (fun _ _ _ id _ _ _ k L hg =>
          ⟨hexpects id k L hg, fun hk => Model.nullable_of_ruleLeaves (hk ▸ hg.ruleLeaves)⟩) hy
      obtain ⟨os, hall, htallied⟩ := parsesAll_of_yields hE (fun _ _ _ hb => hb.2)
        (fun b o L hb o' L' hb' => hb.1.unique hb'.1) tallied_nil
        (fun k hk => heof k (Model.mem_sequences hb hk)) ht'
      exact .sequences hq hb (hall.mono fun _ _ _ hb => hb.1) htallied.longest

/-- A completion shows the outcome and the offers of its walk. -/
lemma shows_of_completion {candidates : Candidates} (hreflects : candidates.Reflects L)
    (h : s.completion o candidates = .ok c) : s.Shows o L c := by
  obtain ⟨texts, hrender, rfl⟩ := completion_eq_ok_iff.1 h
  refine ⟨?_, fun text => ?_, rfl, rfl, rfl⟩
  · obtain ⟨names, -, rfl⟩ := Candidates.render_eq_ok hrender
    exact Text.pairwise_sorted
  · rw [Candidates.mem_render_iff hrender]
    refine or_congr ?_ ?_
    · simp only [hreflects.phrases]
    · simp only [hreflects.rules]

/-- **A completion is what the plain reading says, and nothing else is**: without left recursion and
optional ends of the input, whatever the limits are, as long as the walk comes to an end within them. -/
theorem complete_iff_answersPlainly (heof : s.model.EofRequired) (hleft : ∀ r, ¬ s.model.LeftReach r r)
    (h : (s.withLimits l).complete name = .ok c) : ∀ c', s.AnswersPlainly name c' ↔ c' = c := by
  obtain ⟨root, o, r, hroot, hw, hcomp⟩ := complete_eq_ok h
  have hd : (s.withLimits l).model.DirectFrom root := fun x _ y hxy hyx =>
    absurd (hxy.trans hyx) (hleft x)
  obtain ⟨L, hvisit, hreflects⟩ := walk_visits hd (index_lt_of_ruleId? hroot) hw
  have hstart : s.UpToStop ⟨root, s.stream.skipHidden 0⟩ :=
    ⟨TokenStream.visible_skipHidden (Nat.zero_le _), TokenStream.skipHidden_zero_le_stop⟩
  have hanswers : s.AnswersPlainly name c :=
    ⟨root, o, L, hroot, (visits_withLimits hvisit hstart.1).parses heof hleft hstart,
      shows_of_completion hreflects hcomp⟩
  intro c'
  constructor
  · exact fun h' => h'.unique hanswers
  · rintro rfl
    exact hanswers

/-- What a walk over a chain of two numbers answers is what the plain reading says. -/
theorem complete_iff_answersPlainly_chains :
    let s := onLine chains [⟨1⟩, ⟨2⟩, ⟨1⟩]
    s.model.EofRequired ∧ (∀ r, ¬ s.model.LeftReach r r) ∧
      (s.withLimits {}).complete "chain" = .ok ⟨["MINUS NUM", "PLUS NUM"], true, none, 3⟩ ∧
      ∀ c, s.AnswersPlainly "chain" c ↔ c = ⟨["MINUS NUM", "PLUS NUM"], true, none, 3⟩ := by
  have heof : chains.EofRequired := by decide
  have hcomplete : ((onLine chains [⟨1⟩, ⟨2⟩, ⟨1⟩]).withLimits {}).complete "chain" =
      .ok ⟨["MINUS NUM", "PLUS NUM"], true, none, 3⟩ := by cbv
  exact ⟨heof, not_leftReach_chains, hcomplete,
    complete_iff_answersPlainly (s := onLine chains [⟨1⟩, ⟨2⟩, ⟨1⟩]) heof not_leftReach_chains hcomplete⟩

end Session

end GrammarCompletion
