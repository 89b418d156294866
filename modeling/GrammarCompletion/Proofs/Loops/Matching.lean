/-
# Matching in the loop form

The rounds in which a left-recursive rule grows are the iterations of the loop.  In each round the
alternatives that do not start with the rule have the same outcomes as in the first one, and these
are the outcomes of the base.  The others go on behind the best outcome so far, and there they do what
the step does (`Session.round_cases`).  A round that gets no further is a step that fails, and so it
ends the loop (`Session.grows_loop`).
-/
import GrammarCompletion.Proofs.Loops.Collecting
import GrammarCompletion.Proofs.Offers.Outcomes

namespace GrammarCompletion

/-- Nodes do not start with a rule, if no rule is nullable. -/
def Avoids (r : RuleId) (nodes : List (Node RuleId)) : Prop :=
  ∀ pre n post, nodes = pre ++ n :: post → skippable pre = true → n.symbol ≠ .rule r

lemma Avoids.skip {r : RuleId} {n : Node RuleId} {rest : List (Node RuleId)}
    (h : Avoids r (n :: rest)) (hn : n.isRequired = false) : Avoids r rest := by
  intro pre k post hrest hskip
  refine h (n :: pre) k post (by rw [hrest, List.cons_append]) ?_
  simp only [skippable, List.all_cons, hn, Bool.not_false, Bool.true_and]
  exact hskip

namespace Model.Loops

variable {m : Model} {a r : RuleId} {list list' : List (Sequence RuleId)} {base step : String}
  {k : Sequence RuleId}

lemma avoids_head (h : m.Loops a list base step) (hk : k ∈ headsOf a list) : Avoids a k.nodes := by
  obtain ⟨hmem, htail⟩ := mem_headsOf.1 hk
  intro pre n post hnodes hskip hn
  exact h.acyclic a (.single
    ⟨list, h.body, k, hmem, fun _ => htail, pre, n, post, hnodes, hn, .of_skippable hskip⟩)

lemma avoids_other (h : m.Loops a list base step) (hr : r ≠ a) (hb : m.body r = .ok (.sequences list'))
    (hk : k ∈ list') : Avoids r k.nodes := by
  intro pre n post hnodes hskip hn
  exact h.acyclic r (.single
    ⟨list', hb, k, hk, fun he => absurd he hr, pre, n, post, hnodes, hn, .of_skippable hskip⟩)

end Model.Loops

namespace Session

variable {s : Session} {a : RuleId} {list : List (Sequence RuleId)} {base step : String}
  {nodes : List (Node RuleId)} {p q i count : Nat} {c : Spot} {σ o best : Outcome} {L L₀ : Set Event}

/-! ## What is the same in both -/

/-- The visits of rules that both models have, and that are the same in both. -/
def VisitsBoth (s : Session) (a : RuleId) (base step : String) : Visit :=
  fun b o L => s.Visits b o L ∧ (s.looped a base step).Visits b o L

lemma unique_both {α : Type} {x : Plan α} {u u' : α} {L L' : Set Event}
    (h : x.Yields (s.VisitsBoth a base step) ((s.looped a base step).Gathers []) u L)
    (h' : x.Yields (s.VisitsBoth a base step) ((s.looped a base step).Gathers []) u' L') :
    u = u' ∧ L = L' :=
  h.unique h' (fun _ _ _ _ _ hv hv' => hv.1.unique hv'.1) fun _ _ _ _ _ hg hg' => hg.unique hg'

/-- What visits inside a frame are known to be. -/
def Carries (s : Session) (a : RuleId) (base step : String) : Visit :=
  fun b o L => s.Visits b o L ∧ (s.UpToStop b → (s.looped a base step).Visits b o L)

/-- The two new rules are not visited in the model itself. -/
lemma Visits.isOld (h : s.model.Loops a list base step) (hv : s.Visits c o L) :
    c.rule ≠ s.model.baseRule ∧ c.rule ≠ s.model.stepRule := by
  have hbody : ∀ {body}, s.model.body c.rule = .ok body →
      c.rule ≠ s.model.baseRule ∧ c.rule ≠ s.model.stepRule := fun hb => h.ne_of_body hb
  cases visits_iff.1 hv with
  | matched _ hround _ =>
    obtain ⟨body, hb, -⟩ := hround
    exact hbody hb
  | collected _ hg =>
    cases gathers_iff.1 hg with
    | special hs =>
      constructor
      · exact fun he => absurd (he ▸ hs) (ne_true_of_eq_false h.base_plain.1)
      · exact fun he => absurd (he ▸ hs) (ne_true_of_eq_false h.step_plain.1)
    | closed _ hc =>
      have hi := hc.resolve_right List.not_mem_nil
      constructor
      · exact fun he => absurd (he ▸ hi) (ne_true_of_eq_false h.base_plain.2)
      · exact fun he => absurd (he ▸ hi) (ne_true_of_eq_false h.step_plain.2)
    | tokenSet _ hb => exact hbody hb
    | sequences _ hb => exact hbody hb

/-- Nodes are to be matched in a frame, and they do not lead back to it. -/
structure ReadyIn (s : Session) (c : Spot) (nodes : List (Node RuleId)) (p : Nat) : Prop extends
    s.Ready nodes p where
  le : c.start ≤ p
  avoids : p = c.start → Avoids c.rule nodes

/-- Where no rule is nullable, what does not lead back to a frame asks for other visits only. -/
lemma guide_readyIn (hreq : s.model.Requires) (heof : s.model.EofRequired) (c : Spot) :
    s.Guide s.Sound (s.ReadyIn c) fun b => s.UpToStop b ∧ b ≠ c where
  ask {n rest p id} h hn := by
    refine ⟨(predicts_sound heof).ask h.toReady hn, ?_⟩
    rintro rfl
    exact h.avoids rfl [] n rest rfl rfl hn
  skip h hn := ⟨h.toReady.skip, h.le, fun hp => (h.avoids hp).skip hn⟩
  le h hn := (predicts_sound heof).le h.toReady hn
  stay h hn := (hn.sound h.toReady).stop_eq
  next {n rest p q} h hn hc := by
    obtain ⟨hr, hr'⟩ := (hn.sound h.toReady).ready h.toReady hc
    obtain ⟨hpq, x, -, hd⟩ := (hn.sound h.toReady).derives rfl
    -- a node that matches gets further, because it is not empty
    have hne : q ≠ c.start := by
      rintro rfl
      obtain rfl : p = c.start := Nat.le_antisymm hpq h.le
      rw [TokenStream.kinds_self] at hd
      exact hreq.derives_ne_nil hd (List.cons_ne_nil x []) rfl
    have hle : c.start ≤ q := h.le.trans hpq
    exact ⟨⟨hr, hle, fun he => absurd he hne⟩, fun _ => ⟨hr', hle, fun he => absurd he hne⟩⟩

/-- A plan that asks for rules that are not at the frame itself yields the same in the loop form. -/
lemma yields_looped (h : s.model.Loops a list base step) {x y : Plan Outcome}
    (hm : Plan.Mirrors (· = ·) (fun b => s.UpToStop b ∧ b ≠ c) s.Sound (Outcome.Mirrors (· = ·)) x y)
    (hx : x.Yields (Inside (s.Carries a base step) c σ) (s.Gathers []) o L) :
    y.Yields (fun b o L => b ≠ c ∧ s.VisitsBoth a base step b o L)
      ((s.looped a base step).Gathers []) o L := by
  let both : Visit := fun b o L => b ≠ c ∧ s.VisitsBoth a base step b o L
  have hasked : ∀ b p' o L, s.UpToStop b ∧ b ≠ c → b.start = p' →
      Inside (s.Carries a base step) c σ b o L → s.Sound b o ∧
        ∃ o', o.Mirrors (· = ·) o' ∧ both ⟨b.rule, p'⟩ o' L := by
    rintro b p' o L ⟨hb, hbc⟩ rfl (⟨-, hv, hlooped⟩ | ⟨rfl, -, -⟩)
    · exact ⟨hv.sound h.eofRequired hb, o, ⟨rfl, rfl, rfl⟩, hbc, hv, hlooped hb⟩
    · exact absurd rfl hbc
  obtain ⟨o', hy, ho⟩ := hx.mirror hm hasked fun r ph L hg => hg.looped h .nil
  exact ho.eq ▸ hy

lemma ReadyIn.yields_looped (h : s.model.Loops a list base step) (hr : s.ReadyIn c nodes p)
    (hy : (Plan.matchNodes s nodes p).Yields (Inside (s.Carries a base step) c σ) (s.Gathers []) o
      L) :
    (Plan.matchNodes (s.looped a base step) nodes p).Yields (s.VisitsBoth a base step)
      ((s.looped a base step).Gathers []) o L := by
  have hmirror : s.Mirror (s.looped a base step) (· = ·) (s.ReadyIn c) := mirror_looped
  have hplan := hmirror.matchNodes (guide_readyIn h.requires h.eofRequired c) hr rfl
  exact (Session.yields_looped h hplan hy).mono (fun _ _ _ hb => hb.2) fun _ _ _ hg => hg

/-- What is visited in both is visited inside the frame of a new rule. -/
lemma VisitsBoth.inside (h : s.model.Loops a list base step)
    (hc : c.rule = s.model.baseRule ∨ c.rule = s.model.stepRule) {b : Spot}
    (hv : s.VisitsBoth a base step b o L) : Inside (s.looped a base step).Visits c σ b o L := by
  refine Or.inl ⟨?_, hv.2⟩
  rintro rfl
  exact hc.elim (hv.1.isOld h).1 (hv.1.isOld h).2

/-- A round of another rule is one in the loop form. -/
lemma Round.looped (h : s.model.Loops a list base step) (hc : c.rule ≠ a) (ho : s.Open c)
    (hround : s.Round (s.Carries a base step) c σ o L) :
    (s.looped a base step).Round (s.looped a base step).Visits c σ o L := by
  obtain ⟨body, hb, hy⟩ := hround
  have hmirror : s.Mirror (s.looped a base step) (· = ·) (s.ReadyIn c) := mirror_looped
  have htodo : ∀ list', body = .sequences list' → ∀ k ∈ list', s.ReadyIn c k.nodes c.start := by
    rintro list' rfl k hk
    exact ⟨ho.ready hb hk, Nat.le_refl _, fun _ => h.avoids_other hc hb hk⟩
  have hplan := hmirror.matchBody (guide_readyIn h.requires h.eofRequired c) htodo rfl
    fun _ => ⟨rfl, rfl, rfl⟩
  refine ⟨body, h.body_other hc hb, (yields_looped h hplan hy).mono (fun b o L hv => ?_)
    fun _ _ _ hg => hg⟩
  exact Or.inl ⟨hv.1, hv.2.2⟩

/-! ## Alternatives that start with the rule -/

/-- An alternative that starts with the rule goes on as the outcome of the round before says. -/
lemma yields_alternative {V : Visit} {C : Gather} {k tail : Sequence RuleId}
    (htail : k.tailOf? a = some tail)
    (h : (Plan.matchNodes s k.nodes p).Yields (Inside V ⟨a, p⟩ σ) C o L) :
    ∃ n, n.symbol = .rule a ∧ n.cardinality = .one ∧
      (Plan.matchOn s n tail.nodes σ).Yields (Inside V ⟨a, p⟩ σ) C o L := by
  obtain ⟨n, hnodes, hn, hone⟩ := tailOf?_eq_some htail
  rw [hnodes, Plan.matchNodes_cons] at h
  obtain ⟨o', L₁, L₂, hnode, hgo, rfl⟩ := Plan.yields_bind.1 h
  rw [Plan.yields_matchNode_rule hn] at hnode
  rcases hnode with ⟨hne, -⟩ | ⟨-, rfl, rfl⟩
  · exact absurd rfl hne
  · rw [Set.empty_union]
    exact ⟨n, hn, hone, hgo⟩

section Rounds

variable (h : s.model.Loops a list base step) (ho : s.Open ⟨a, p⟩) {l : List (Sequence RuleId)}
  {t t' th tt : Tally}

include h ho

lemma yields_head {k : Sequence RuleId} (hk : k ∈ list) (htail : k.tailOf? a = none)
    (hy : (Plan.matchNodes s k.nodes p).Yields (Inside (s.Carries a base step) ⟨a, p⟩ σ)
      (s.Gathers []) o L) :
    (Plan.matchNodes (s.looped a base step) k.nodes p).Yields (s.VisitsBoth a base step)
      ((s.looped a base step).Gathers []) o L :=
  ReadyIn.yields_looped h ⟨ho.ready h.body hk, Nat.le_refl p,
    fun _ => h.avoids_head (mem_headsOf.2 ⟨hk, htail⟩)⟩ hy

/-- In the first round the alternatives that start with the rule fail. -/
lemma yields_heads_of_failed (hl : ∀ k ∈ l, k ∈ list)
    (hy : (Plan.matchSequences s p i t l).Yields
      (Inside (s.Carries a base step) ⟨a, p⟩ ⟨false, q, .matching⟩) (s.Gathers []) t' L) :
    (Plan.matchSequences (s.looped a base step) p 0 t (headsOf a l)).Yields
      (s.VisitsBoth a base step) ((s.looped a base step).Gathers []) t' L := by
  induction l generalizing i t L with
  | nil => exact Plan.yields_matchSequences_nil.2 (Plan.yields_matchSequences_nil.1 hy)
  | cons k rest ih =>
    have hrest : ∀ k ∈ rest, k ∈ list := fun k' hk' => hl k' (List.mem_cons_of_mem k hk')
    obtain ⟨o, L₁, L₂, hk, hy', rfl⟩ := Plan.yields_matchSequences_cons.1 hy
    cases htail : k.tailOf? a with
    | none =>
      rw [headsOf_cons_none htail]
      refine Plan.yields_matchSequences_cons.2 ⟨o, L₁, L₂, ?_, (ih hrest hy').index 1, rfl⟩
      exact yields_head h ho (hl k List.mem_cons_self) htail hk
    | some tail =>
      obtain ⟨n, -, hone, hgo⟩ := yields_alternative htail hk
      rw [Plan.matchOn_failed (by rw [Node.isRequired, hone]; rfl)] at hgo
      obtain ⟨rfl, rfl⟩ := Plan.yields_pure.1 hgo
      rw [Tally.add_of_not_isUsable Outcome.isUsable_failed] at hy'
      rw [headsOf_cons_some htail, Set.empty_union]
      exact ih hrest hy'

/-- Behind a pending outcome, the alternatives that start with the rule only add candidates. -/
lemma yields_heads_of_pending {b : Bool} (hl : ∀ k ∈ l, k ∈ list)
    (hy : (Plan.matchSequences s p i t l).Yields
      (Inside (s.Carries a base step) ⟨a, p⟩ ⟨b, q, .pending⟩) (s.Gathers []) t' L) :
    ∃ L₁ L₂, (Plan.matchSequences (s.looped a base step) p 0 t (headsOf a l)).Yields
        (s.VisitsBoth a base step) ((s.looped a base step).Gathers []) t' L₁ ∧
      (Plan.collectSequences s (tailsOf a l)).Yields
        (Inside (s.Carries a base step) ⟨a, p⟩ ⟨b, q, .pending⟩) (s.Gathers []) .matching L₂ ∧
      L = L₁ ∪ L₂ := by
  induction l generalizing i t L with
  | nil =>
    obtain ⟨rfl, rfl⟩ := Plan.yields_matchSequences_nil.1 hy
    exact ⟨∅, ∅, Plan.yields_matchSequences_nil.2 ⟨rfl, rfl⟩,
      Plan.yields_collectSequences_nil.2 ⟨rfl, rfl⟩, (Set.union_empty ∅).symm⟩
  | cons k rest ih =>
    have hrest : ∀ k ∈ rest, k ∈ list := fun k' hk' => hl k' (List.mem_cons_of_mem k hk')
    obtain ⟨o, L₃, L₄, hk, hy', rfl⟩ := Plan.yields_matchSequences_cons.1 hy
    cases htail : k.tailOf? a with
    | none =>
      obtain ⟨L₁, L₂, hheads, htails, rfl⟩ := ih hrest hy'
      rw [headsOf_cons_none htail, tailsOf_cons_none htail]
      have hhead := yields_head h ho (hl k List.mem_cons_self) htail hk
      exact ⟨L₃ ∪ L₁, L₂, Plan.yields_matchSequences_cons.2
        ⟨o, L₃, L₁, hhead, hheads.index 1, rfl⟩, htails, (Set.union_assoc _ _ _).symm⟩
    | some tail =>
      have hmem : tail ∈ tailsOf a list := mem_tailsOf.2 ⟨k, hl k List.mem_cons_self, htail⟩
      obtain ⟨n, -, hone, hgo⟩ := yields_alternative htail hk
      rw [Plan.matchOn_pending] at hgo
      obtain ⟨ph, L₅, L₆, hbehind, hend, rfl⟩ := Plan.yields_bind.1 hgo
      obtain ⟨rfl, rfl⟩ := Plan.yields_pure.1 hend
      rw [Plan.collectBehind_once (by rw [Node.isMultiple, hone]; rfl)] at hbehind
      -- what follows the rule is not empty, so nothing is collected behind it
      have hleaves := hbehind.nodesLeave fun _ _ _ hg => hg.ruleLeaves
      obtain rfl : ph = .matching := by
        cases ph with
        | matching => rfl
        | pending => exact absurd (Model.derivesNodes_of_nodesLeave hleaves) (h.tails tail hmem)
      have hunusable : Outcome.isUsable ⟨b && skippable tail.nodes, q, .matching⟩ = false := by
        simp [Outcome.isUsable, h.skippable_tail hmem]
      rw [Tally.add_of_not_isUsable hunusable] at hy'
      obtain ⟨L₁, L₂, hheads, htails, rfl⟩ := ih hrest hy'
      rw [headsOf_cons_some htail, tailsOf_cons_some htail]
      refine ⟨L₁, L₅ ∪ L₂, hheads, Plan.yields_collectSequences_cons.2
        ⟨.matching, .matching, L₅, L₂, hbehind, htails, rfl, rfl⟩, ?_⟩
      rw [Set.union_empty, Set.union_left_comm]

omit ho in
/-- What follows the rule gets further, as it is not empty. -/
lemma lt_of_tail {tail : Sequence RuleId} (hmem : tail ∈ tailsOf a list) (hq : s.reached q = false)
    (hσ : s.Lawful ⟨a, p⟩ σ) (hy : (Plan.matchNodes s tail.nodes q).Yields
      (Inside (s.Carries a base step) ⟨a, p⟩ σ) (s.Gathers []) o L) :
    o.isUsable = true → q < o.stop := by
  have hinside : ∀ b o L, Inside (s.Carries a base step) ⟨a, p⟩ σ b o L → s.Lawful b o := by
    rintro b o L (⟨-, hv, -⟩ | ⟨rfl, rfl, -⟩)
    · exact hv.lawful
    · exact hσ
  have hlawful := (hy.matchesNodes hinside fun _ _ _ hg => hg.ruleLeaves).lawful
  intro hu
  refine Nat.lt_of_le_of_ne hlawful.le fun he => ?_
  exact h.tails tail hmem (hlawful.nullable hu hq he.symm)

/-- Behind an outcome that can be gone on from, the alternatives that start with the rule are
compared among each other, given how the others compare. -/
lemma yields_tails {L₁ : Set Event} (hσ : s.Sound ⟨a, p⟩ ⟨true, q, .matching⟩)
    (hl : ∀ k ∈ l, k ∈ list)
    (hy : (Plan.matchSequences s p i t l).Yields
      (Inside (s.Carries a base step) ⟨a, p⟩ ⟨true, q, .matching⟩) (s.Gathers []) t' L)
    (hheads : (Plan.matchSequences (s.looped a base step) p 0 th (headsOf a l)).Yields
      (s.VisitsBoth a base step) ((s.looped a base step).Gathers []) th' L₁)
    (hbelow : th'.Below q) (ht : t = tt.beyond th) (htt : tt.Above q) :
    ∃ tt' L₂, (Plan.matchSequences (s.looped a base step) q 0 tt (tailsOf a l)).Yields
        (s.VisitsBoth a base step) ((s.looped a base step).Gathers []) tt' L₂ ∧
      tt'.Above q ∧ t' = tt'.beyond th' ∧ L = L₁ ∪ L₂ := by
  have hq : s.reached q = false := hσ.not_reached
  have hpq : p < q := hσ.lt_stop (h.not_nullable a) rfl
  induction l generalizing i t th tt L L₁ with
  | nil =>
    obtain ⟨rfl, rfl⟩ := Plan.yields_matchSequences_nil.1 hy
    obtain ⟨rfl, rfl⟩ := Plan.yields_matchSequences_nil.1 hheads
    exact ⟨tt, ∅, Plan.yields_matchSequences_nil.2 ⟨rfl, rfl⟩, htt, ht, (Set.union_empty ∅).symm⟩
  | cons k rest ih =>
    have hrest : ∀ k ∈ rest, k ∈ list := fun k' hk' => hl k' (List.mem_cons_of_mem k hk')
    have hmem : k ∈ list := hl k List.mem_cons_self
    obtain ⟨o, L₃, L₄, hk, hy', rfl⟩ := Plan.yields_matchSequences_cons.1 hy
    cases htail : k.tailOf? a with
    | none =>
      rw [headsOf_cons_none htail] at hheads
      obtain ⟨o', L₅, L₆, hhead, hheads', rfl⟩ := Plan.yields_matchSequences_cons.1 hheads
      obtain ⟨rfl, rfl⟩ := unique_both hhead (yields_head h ho hmem htail hk)
      have hle := (hheads'.tallyBelow hbelow).of_add.2
      obtain ⟨tt', L₂, htails, habove, heq, rfl⟩ := ih hrest hy' (hheads'.index 0)
        (by rw [ht, Tally.beyond_add_right htt hle]) htt
      rw [tailsOf_cons_none htail]
      exact ⟨tt', L₂, htails, habove, heq, (Set.union_assoc _ _ _).symm⟩
    | some tail =>
      rw [headsOf_cons_some htail] at hheads
      have htmem : tail ∈ tailsOf a list := mem_tailsOf.2 ⟨k, hmem, htail⟩
      obtain ⟨n, -, hone, hgo⟩ := yields_alternative htail hk
      rw [Plan.matchOn_once hq (by rw [Node.isMultiple, hone]; rfl)] at hgo
      have hlt := lt_of_tail h htmem hq hσ.lawful hgo
      have hth := hheads.tallyBelow hbelow
      obtain ⟨tt', L₂, htails, habove, heq, rfl⟩ := ih hrest hy' hheads
        (by rw [ht, Tally.beyond_add_left hth hlt]) (htt.add hlt)
      have hready : s.ReadyIn ⟨a, p⟩ tail.nodes q := by
        obtain ⟨n', hnodes, -⟩ := tailOf?_eq_some htail
        refine ⟨⟨hσ.visible, hσ.le_stop, hq, k, Model.mem_sequences h.body hmem, ?_⟩, hpq.le,
          fun he => absurd he hpq.ne'⟩
        exact hnodes ▸ List.suffix_cons n' tail.nodes
      rw [tailsOf_cons_some htail]
      refine ⟨tt', L₃ ∪ L₂, Plan.yields_matchSequences_cons.2
        ⟨o, L₃, L₂, hready.yields_looped h hgo, htails.index 1, rfl⟩, habove, heq, ?_⟩
      exact Set.union_left_comm _ _ _

omit ho in
/-- What one of the new rules does, given what its alternatives do. -/
lemma visits_new {r : RuleId} (hr : r = s.model.baseRule ∨ r = s.model.stepRule)
    (hb : (s.looped a base step).model.body r = .ok (.sequences l)) (hor : s.Open ⟨r, q⟩)
    (hy : (Plan.matchSequences (s.looped a base step) q 0 {} l).Yields (s.VisitsBoth a base step)
      ((s.looped a base step).Gathers []) t L) :
    (s.looped a base step).Visits ⟨r, q⟩ (t.outcome q) L ∧
      (s.looped a base step).Sound ⟨r, q⟩ (t.outcome q) := by
  have hor' : (s.looped a base step).Open ⟨r, q⟩ :=
    ⟨hor.visible, hor.le_stop, hor.not_reached⟩
  refine Round.visits h.eofRequired_loopForm hor' fun σ => ⟨_, hb, ?_⟩
  exact Plan.yields_matchBody_sequences.2
    ⟨t, hy.mono (fun _ _ _ hv => hv.inside h hr) fun _ _ _ hg => hg, rfl⟩

/-- **A round and a step.**  Behind an outcome that can be gone on from, a round gets no further and
the step fails, or both have the same outcome. -/
theorem round_cases (hheads : (Plan.matchSequences (s.looped a base step) p 0 {}
      (headsOf a list)).Yields (s.VisitsBoth a base step) ((s.looped a base step).Gathers []) th L₀)
    (hbelow : th.Below q) (hσ : s.Sound ⟨a, p⟩ ⟨true, q, .matching⟩)
    (hround : s.Round (s.Carries a base step) ⟨a, p⟩ ⟨true, q, .matching⟩ o L) :
    ∃ o' L', (s.looped a base step).Visits ⟨s.model.stepRule, q⟩ o' L' ∧ L = L₀ ∪ L' ∧
      (o' = ⟨false, q, .matching⟩ ∧ o.stop ≤ q ∨ q < o.stop ∧ o.matched = true ∧ o' = o) := by
  obtain ⟨body, hb, hy⟩ := hround
  obtain rfl := Except.ok.inj (hb.symm.trans h.body)
  obtain ⟨t, ht, rfl⟩ := Plan.yields_matchBody_sequences.1 hy
  obtain ⟨tt, L', htails, habove, rfl, rfl⟩ :=
    yields_tails h ho hσ (fun _ hk => hk) ht hheads hbelow
      (show {} = Tally.beyond {} {} from rfl) Tally.above_empty
  have hopen : s.Open ⟨s.model.stepRule, q⟩ := ⟨hσ.visible, hσ.le_stop, hσ.not_reached⟩
  obtain ⟨hvisit, hsound⟩ := visits_new h (Or.inr rfl) h.body_step hopen htails
  refine ⟨tt.outcome q, L', hvisit, rfl, ?_⟩
  cases hbest : tt.best with
  | none =>
    have houtcome : tt.outcome q = ⟨tt.matched, q, .matching⟩ := by simp only [Tally.outcome, hbest]
    rw [houtcome] at hsound ⊢
    -- the step is not empty, so it does not match where it starts
    have hmatched : tt.matched = false := by
      by_contra hne
      have hu : Outcome.isUsable ⟨tt.matched, q, .matching⟩ = true := by
        simpa [Outcome.isUsable] using hne
      have hlt : q < q := hsound.lt_stop (h.requires_loopForm.not_nullable _) hu
      exact Nat.lt_irrefl q hlt
    refine Or.inl ⟨by rw [hmatched], ?_⟩
    have hth : (tt.beyond th).Below q := by
      intro b hb
      rw [Tally.beyond, hbest, Option.none_or] at hb
      exact hbelow b hb
    exact hth.outcome_stop hσ.le
  | some b =>
    obtain ⟨q', ph⟩ := b
    have hlt : q < q' := habove _ hbest
    have houtcome : tt.outcome q = ⟨tt.matched, q', ph⟩ := by simp only [Tally.outcome, hbest]
    have hround : (tt.beyond th).outcome p = ⟨th.matched || tt.matched, q', ph⟩ := by
      simp only [Tally.outcome, Tally.beyond, hbest, Option.some_or]
    rw [houtcome] at hsound ⊢
    have hmatched : tt.matched = true := by
      cases ph with
      | pending => exact hsound.matched h.requires_loopForm.flatTails hσ.not_reached rfl
      | matching =>
        by_contra hne
        have hstay := hsound.stay (by simpa [Outcome.isUsable] using hne)
        exact absurd hstay hlt.ne'
    rw [hround, hmatched, Bool.or_true]
    exact Or.inr ⟨hlt, rfl, rfl⟩

/-- Behind a pending outcome, a further round only adds what the step may start with. -/
lemma grows_pending {b : Bool} (hheads : (Plan.matchSequences (s.looped a base step) p 0 {}
      (headsOf a list)).Yields (s.VisitsBoth a base step) ((s.looped a base step).Gathers []) th L₀)
    (hbelow : th.Below q) (hpq : p ≤ q)
    (hg : s.Grows (s.Carries a base step) ⟨a, p⟩ (count + 1) ⟨b, q, .pending⟩ o L) :
    o = ⟨b, q, .pending⟩ ∧
      ∃ L', (s.looped a base step).Gathers [] s.model.stepRule .matching L' ∧ L = L₀ ∪ L' := by
  have hround : ∀ {o L}, s.Round (s.Carries a base step) ⟨a, p⟩ ⟨b, q, .pending⟩ o L → o.stop ≤ q ∧
      ∃ L', (s.looped a base step).Gathers [] s.model.stepRule .matching L' ∧ L = L₀ ∪ L' := by
    rintro o L ⟨body, hb, hy⟩
    obtain rfl := Except.ok.inj (hb.symm.trans h.body)
    obtain ⟨t, ht, rfl⟩ := Plan.yields_matchBody_sequences.1 hy
    obtain ⟨L₁, L₂, hheads', htails, rfl⟩ := yields_heads_of_pending h ho (fun _ hk => hk) ht
    obtain ⟨rfl, rfl⟩ := unique_both hheads hheads'
    exact ⟨hbelow.outcome_stop hpq, L₂, gathers_step h htails, rfl⟩
  cases hg with
  | done hr _ => exact ⟨rfl, (hround hr).2⟩
  | more hr hex _ => exact absurd hex.2 (Nat.not_lt.2 (hround hr).1)

/-- What is visited in the frame of the rule in the loop form. -/
def VisitsInLoop (s : Session) (a : RuleId) (base step : String) : Visit :=
  fun b o L => b.rule ≠ a ∧ (s.looped a base step).Visits b o L

omit ho in
lemma yields_step {o : Outcome} (hv : (s.looped a base step).Visits ⟨s.model.stepRule, q⟩ o L) :
    (Plan.matchNode (s.looped a base step) (.rule s.model.stepRule .zeroOrMore) q).Yields
      (s.VisitsInLoop a base step) ((s.looped a base step).Gathers []) o L :=
  (Plan.yields_matchNode_rule rfl).2 ⟨h.step_ne, hv⟩

omit h ho in
/-- Where the caret is reached in the loop, the step is collected from. -/
lemma yields_collect_step {V : Visit}
    (hg : (s.looped a base step).Gathers [] s.model.stepRule .matching L) :
    (Plan.collectNodes (s.looped a base step) [.rule s.model.stepRule .zeroOrMore]).Yields V
      ((s.looped a base step).Gathers []) .pending L :=
  (Plan.yields_collectNodes_rule rfl).2
    ⟨.matching, L, ∅, hg, Plan.yields_collectNodes_nil.2 ⟨rfl, rfl⟩, (Set.union_empty L).symm⟩

omit h ho in
lemma yields_behind_step {V : Visit}
    (hg : (s.looped a base step).Gathers [] s.model.stepRule .matching L) :
    (Plan.collectBehind (s.looped a base step) (.rule s.model.stepRule .zeroOrMore) []).Yields V
      ((s.looped a base step).Gathers []) .pending L := by
  rw [Plan.collectBehind_multiple rfl, Plan.yields_bind]
  exact ⟨.pending, L, ∅, yields_collect_step hg, Plan.yields_collectNodes_nil.2 ⟨rfl, rfl⟩,
    (Set.union_empty L).symm⟩

/-- **The rounds are the loop.**  From an outcome that can be gone on from, growing has the outcome
that repeating the step has, and apart from what the base offers both offer the same. -/
theorem grows_loop (hheads : (Plan.matchSequences (s.looped a base step) p 0 {}
      (headsOf a list)).Yields (s.VisitsBoth a base step) ((s.looped a base step).Gathers []) th L₀)
    (hg : s.Grows (s.Carries a base step) ⟨a, p⟩ count best o L)
    (hbest : best = ⟨true, q, .matching⟩) (hbelow : th.Below q)
    (hσ : s.Sound ⟨a, p⟩ ⟨true, q, .matching⟩) (hcount : s.stream.size < q + count) :
    ∃ o' Ls L', (s.looped a base step).Visits ⟨s.model.stepRule, q⟩ o' Ls ∧
      (o'.isUsable = true → q < o'.stop) ∧
      (∀ c, (o'.isUsable = true → s.stream.size ≤ o'.stop + c) →
        (Plan.repeatOn (s.looped a base step) (.rule s.model.stepRule .zeroOrMore) [] c q o' >>=
          Plan.resume (s.looped a base step) []).Yields (s.VisitsInLoop a base step)
            ((s.looped a base step).Gathers []) o L') ∧
      L₀ ∪ L = L₀ ∪ (Ls ∪ L') := by
  induction hg generalizing q with
  | spent =>
    have hqsize : q < s.stream.size := TokenStream.lt_size_of_not_reached hσ.not_reached
    omega
  | @done count best o L hround hno =>
    subst hbest
    obtain ⟨o', Ls, hvisit, rfl, hcases⟩ := round_cases h ho hheads hbelow hσ hround
    rcases hcases with ⟨rfl, -⟩ | ⟨hlt, hmatched, -⟩
    · refine ⟨_, Ls, ∅, hvisit, fun hu => absurd hu Bool.false_ne_true, fun c _ => ?_, ?_⟩
      · rw [Plan.repeatOn_failed]
        exact .done
      · rw [Set.union_empty, ← Set.union_assoc, Set.union_self]
    · exact absurd ⟨by simp [Outcome.isUsable, hmatched], hlt⟩ hno
  | @more count best o o₂ L L₂ hround hex hg ih =>
    subst hbest
    have hsound : s.Sound ⟨a, p⟩ o :=
      hround.sound h.eofRequired ho (fun _ _ _ hv hb => hv.1.sound h.eofRequired hb) hσ
    obtain ⟨o', Ls, hvisit, rfl, hcases⟩ := round_cases h ho hheads hbelow hσ hround
    rcases hcases with ⟨-, hle⟩ | ⟨hlt, hmatched, rfl⟩
    · exact absurd hex.2 (Nat.not_lt.2 hle)
    obtain ⟨_, q', ph⟩ := o'
    obtain rfl : _ = true := hmatched
    have hbelow' : th.Below q' := fun b hb => (hbelow b hb).trans hlt.le
    have hcount' : s.stream.size < q' + count := by
      have : q < q' := hlt
      omega
    cases ph with
    | pending =>
      obtain ⟨count, rfl⟩ : ∃ k, count = k + 1 := by
        have hle : q' ≤ s.stream.size := hsound.le_stop.trans stop_le_size
        exact Nat.exists_eq_succ_of_ne_zero (by omega)
      obtain ⟨rfl, Lg, hgathers, rfl⟩ := grows_pending h ho hheads hbelow' hsound.le hg
      refine ⟨_, Ls, Lg, hvisit, fun _ => hlt, fun c _ => ?_, ?_⟩
      · rw [Plan.repeatOn_pending]
        refine Plan.yields_bind.2 ⟨_, Lg, ∅, Plan.yields_bind.2 ⟨.pending, Lg, ∅, ?_, .done, ?_⟩,
          .done, ?_⟩
        · exact yields_behind_step hgathers
        · exact (Set.union_empty Lg).symm
        · exact (Set.union_empty Lg).symm
      · rw [Set.union_assoc, ← Set.union_assoc L₀ L₀, Set.union_self, Set.union_left_comm Ls,
          ← Set.union_assoc L₀ L₀, Set.union_self]
    | matching =>
      have hqsize' : q' < s.stream.size := TokenStream.lt_size_of_not_reached hsound.not_reached
      obtain ⟨o', Ls', L', hvisit', hlt', hrepeat, hL⟩ := ih rfl hbelow' hsound hcount'
      refine ⟨_, Ls, Ls' ∪ L', hvisit, fun _ => hlt, fun c hc => ?_, ?_⟩
      · have hsize : s.stream.size ≤ q' + c := hc rfl
        rw [Plan.repeatOn_more rfl hlt.ne']
        obtain ⟨c, rfl⟩ : ∃ k, c = k + 1 := Nat.exists_eq_succ_of_ne_zero (by omega)
        refine (Plan.yields_matchRepeats_succ (s := s.looped a base step)
          (TokenStream.atEnd_of_lt hqsize')).2 ⟨_, _, _, yields_step h hvisit', ?_, rfl⟩
        refine hrepeat c fun hu => ?_
        have := hlt' hu
        omega
      · rw [Set.union_assoc, ← Set.union_assoc L₀ L₀, Set.union_self, Set.union_left_comm, hL,
          Set.union_left_comm]

/-! ## Visits of the rule -/

omit ho in
/-- The first occurrence of the step goes on as each further one does. -/
lemma yields_matchOn_step {V : Visit} {C : Gather} {o' : Outcome} (hq : s.reached q = false)
    (hsound : (s.looped a base step).Sound ⟨s.model.stepRule, q⟩ o')
    (hy : (Plan.repeatOn (s.looped a base step) (.rule s.model.stepRule .zeroOrMore) []
      (s.stream.size - o'.stop) q o' >>= Plan.resume (s.looped a base step) []).Yields V C o L) :
    (Plan.matchOn (s.looped a base step) (.rule s.model.stepRule .zeroOrMore) [] o').Yields V C o
      L := by
  obtain ⟨matched, q', ph⟩ := o'
  cases ph with
  | pending =>
    obtain rfl : matched = true := hsound.matched h.requires_loopForm.flatTails hq rfl
    rw [Plan.repeatOn_pending] at hy
    obtain ⟨k, L₁, L₂, hrepeat, hresume, rfl⟩ := Plan.yields_bind.1 hy
    obtain ⟨ph, L₃, L₄, hbehind, hend, rfl⟩ := Plan.yields_bind.1 hrepeat
    obtain ⟨rfl, rfl⟩ := Plan.yields_pure.1 hend
    rw [Plan.matchOn_pending, Set.union_empty]
    exact hbehind.bind hresume
  | matching =>
    cases matched with
    | false =>
      rw [Plan.repeatOn_failed] at hy
      rw [Plan.matchOn_skipped rfl]
      exact hy
    | true =>
      -- the step is not empty, and it does not end where the caret is reached
      have hne : q' ≠ q := (hsound.lt_stop (h.requires_loopForm.not_nullable _) rfl).ne'
      have hq' : (s.looped a base step).reached q' = false := hsound.not_reached
      rw [Plan.repeatOn_more rfl hne] at hy
      rw [Plan.matchOn_multiple hq' rfl]
      exact hy

/-- The loop as a visit, given how it goes on behind the base. -/
lemma visits_loop {seed : Outcome} (hstay : o.isUsable = false → o.stop = p)
    (hbase : (s.looped a base step).Visits ⟨s.model.baseRule, p⟩ seed L₀)
    (hy : (Plan.matchOn (s.looped a base step) (.rule s.model.baseRule .one)
      [.rule s.model.stepRule .zeroOrMore] seed).Yields (s.VisitsInLoop a base step)
        ((s.looped a base step).Gathers []) o L) :
    (s.looped a base step).Visits ⟨a, p⟩ o (L₀ ∪ L) := by
  have hopen : (s.looped a base step).Open ⟨a, p⟩ := ⟨ho.visible, ho.le_stop, ho.not_reached⟩
  have hnodes : (Plan.matchNodes (s.looped a base step)
      (loopOf s.model.baseRule s.model.stepRule).nodes p).Yields (s.VisitsInLoop a base step)
        ((s.looped a base step).Gathers []) o (L₀ ∪ L) := by
    rw [loopOf, Plan.matchNodes_cons]
    exact ((Plan.yields_matchNode_rule rfl).2 ⟨h.base_ne, hbase⟩).bind hy
  refine (Round.visits h.eofRequired_loopForm hopen fun σ => ?_).1
  refine ⟨_, h.body_self, Plan.yields_matchBody_sequences.2
    ⟨({} : Tally).add o, ?_, (Tally.outcome_single hstay).symm⟩⟩
  refine Plan.yields_matchSequences_cons.2 ⟨o, L₀ ∪ L, ∅, hnodes.mono (fun b o L hb => ?_)
    (fun _ _ _ hg => hg), Plan.yields_matchSequences_nil.2 ⟨rfl, rfl⟩, (Set.union_empty _).symm⟩
  exact Or.inl ⟨fun he => hb.1 (he ▸ rfl), hb.2⟩

/-- A visit of the rule in the model is one in the loop form. -/
lemma visits_self {seed : Outcome} (hv : s.Visits ⟨a, p⟩ o (L₀ ∪ L))
    (hround : s.Round (s.Carries a base step) ⟨a, p⟩ ⟨false, p, .matching⟩ seed L₀)
    (hg : s.Grows (s.Carries a base step) ⟨a, p⟩ (s.stream.size + 1 - seed.stop) seed o L) :
    (s.looped a base step).Visits ⟨a, p⟩ o (L₀ ∪ L) := by
  have hstay := (hv.sound h.eofRequired ho.upToStop).stay
  have hsound : s.Sound ⟨a, p⟩ seed :=
    hround.sound h.eofRequired ho (fun _ _ _ hv hb => hv.1.sound h.eofRequired hb) ho.sound_failed
  have hfirst := hround
  obtain ⟨body, hb, hy⟩ := hround
  obtain rfl := Except.ok.inj (hb.symm.trans h.body)
  obtain ⟨th, ht, rfl⟩ := Plan.yields_matchBody_sequences.1 hy
  have hheads := yields_heads_of_failed h ho (fun _ hk => hk) ht
  have hopen : s.Open ⟨s.model.baseRule, p⟩ := ⟨ho.visible, ho.le_stop, ho.not_reached⟩
  obtain ⟨hbase, -⟩ := visits_new h (Or.inl rfl) h.body_base hopen hheads
  have hle : (th.outcome p).stop ≤ s.stream.size := hsound.le_stop.trans stop_le_size
  have hbelow : th.Below (th.outcome p).stop := Tally.below_outcome
  generalize hseed : th.outcome p = seed at *
  obtain ⟨matched, q, ph⟩ := seed
  cases ph with
  | pending =>
    obtain rfl : matched = true := hsound.matched h.requires.flatTails ho.not_reached rfl
    obtain ⟨k, hk⟩ : ∃ k, s.stream.size + 1 - q = k + 1 :=
      Nat.exists_eq_succ_of_ne_zero (by simp only at hle; omega)
    rw [hk] at hg
    obtain ⟨rfl, Lg, hgathers, rfl⟩ := grows_pending h ho hheads hbelow hsound.le hg
    rw [← Set.union_assoc, Set.union_self]
    refine visits_loop h ho hstay hbase ?_
    rw [Plan.matchOn_pending, Plan.collectBehind_once rfl]
    refine Plan.yields_bind.2 ⟨.pending, Lg, ∅, yields_collect_step hgathers, .done, ?_⟩
    exact (Set.union_empty Lg).symm
  | matching =>
    cases matched with
    | false =>
      obtain rfl : q = p := hsound.stay rfl
      obtain ⟨rfl, hL⟩ := hfirst.eq_of_grows (fun _ _ _ _ _ hv hv' => hv.1.unique hv'.1) hg
      have hfailed : (Plan.matchOn (s.looped a base step) (.rule s.model.baseRule .one)
          [.rule s.model.stepRule .zeroOrMore] ⟨false, q, .matching⟩).Yields
            (s.VisitsInLoop a base step) ((s.looped a base step).Gathers [])
              ⟨false, q, .matching⟩ ∅ := by
        rw [Plan.matchOn_failed rfl]
        exact .done
      have hloop := visits_loop h ho hstay hbase hfailed
      rwa [Set.union_empty, ← hL] at hloop
    | true =>
      have hcount : s.stream.size < q + (s.stream.size + 1 - q) := by omega
      obtain ⟨o', Ls, L', hvisit, hlt, hrepeat, hL⟩ :=
        grows_loop h ho hheads hg rfl hbelow hsound hcount
      have hstep : (s.looped a base step).Sound ⟨s.model.stepRule, q⟩ o' :=
        hvisit.sound h.eofRequired_loopForm ⟨hsound.visible, hsound.le_stop⟩
      have hsize : o'.stop ≤ s.stream.size := hstep.le_stop.trans stop_le_size
      have hq' : (s.looped a base step).reached q = false := hsound.not_reached
      rw [hL]
      refine visits_loop h ho hstay hbase ?_
      rw [Plan.matchOn_once hq' rfl, Plan.matchNodes_cons]
      refine (yields_step h hvisit).bind (yields_matchOn_step h hq' hstep (hrepeat _ fun _ => ?_))
      omega

end Rounds

/-! ## Visits of all rules -/

lemma Grows.looped (h : s.model.Loops a list base step) (hc : c.rule ≠ a) (ho : s.Open c)
    (hg : s.Grows (s.Carries a base step) c count best o L) :
    (s.looped a base step).Grows (s.looped a base step).Visits c count best o L := by
  induction hg with
  | spent => exact .spent
  | done hround hno => exact .done (hround.looped h hc ho) hno
  | more hround hex _ ih => exact .more (hround.looped h hc ho) hex ih

/-- **A visit has the same outcome and offers the same in the loop form.** -/
theorem Visits.looped (h : s.model.Loops a list base step) (hv : s.Visits c o L)
    (hc : s.UpToStop c) : (s.looped a base step).Visits c o L := by
  refine Visits.induction (P := fun c o L => s.UpToStop c → (s.looped a base step).Visits c o L)
    (fun c o L hstep hc => ?_) hv hc
  have hv : s.Visits c o L := visits_iff.2 (hstep.mono fun _ _ _ hboth => hboth.1)
  cases hstep with
  | collected hq hg => exact visits_iff.2 (.collected hq (hg.looped h .nil))
  | matched hq hround hg =>
    have ho : s.Open c := ⟨hc.1, hc.2, hq⟩
    by_cases hca : c.rule = a
    · obtain ⟨r, p⟩ := c
      obtain rfl : r = a := hca
      exact visits_self h ho hv hround hg
    · exact visits_iff.2 (.matched hq (Round.looped h hca ho hround) (Grows.looped h hca ho hg))

end Session

end GrammarCompletion
