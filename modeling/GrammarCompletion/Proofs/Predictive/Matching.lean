/-
# Matching in predictive grammars

Where a rule can read a target, a visit of the rule does (`Session.Visits.meets`).  If what is read
ends in front of the stop and the token there may follow the rule, the visit ends exactly there.  If
it ends at the stop, so does the visit.  If a token behind the stop is read, the visit offers it.

Derivations are followed from the left.  The next token says whether a node that may be left out or
repeated occurs (`Session.node_fails`), and which alternative of a rule is taken.  So the walk never
takes more of the input than the derivation, and never less.
-/
import GrammarCompletion.Proofs.Offers.Outcomes
import GrammarCompletion.Proofs.Predictive.Collecting
import GrammarCompletion.Proofs.Predictive.Reading

namespace GrammarCompletion

/-! ## Behind an occurrence of a node -/

/-- What is left behind an occurrence of a node: further occurrences if the node may be repeated, and
then the nodes that follow it. -/
inductive Behind (n : Node RuleId) (rest : List (Node RuleId)) : Form → Prop
  | rest {x : Form} (hx : Expands rest x) : Behind n rest x
  | again {a : Symbol RuleId} {x : Form} (hm : n.isMultiple = true) (ha : n.IsOccurrence a)
      (hx : Behind n rest x) : Behind n rest (a :: x)

namespace Behind

variable {m : Model} {n : Node RuleId} {rest : List (Node RuleId)} {a : Symbol RuleId} {x : Form}
  {t : TokenId}

lemma expands (h : Behind n rest x) (ha : n.IsOccurrence a) : Expands (n :: rest) (a :: x) := by
  induction h generalizing a with
  | rest hx => exact hx.single ha
  | again hm ha' _ ih => exact (ih ha').again hm ha

lemma derivesNodes_nil (h : Behind n rest x) (hd : m.Derives x []) : m.DerivesNodes rest [] := by
  induction h with
  | rest hx => exact ⟨_, hx, hd⟩
  | @again a x _ _ _ ih =>
    obtain ⟨z₁, z₂, hz, -, h₂⟩ := Model.Derives.split (x := [a]) hd
    obtain ⟨-, rfl⟩ := List.append_eq_nil_iff.1 hz.symm
    exact ih h₂

lemma first (h : Behind n rest x) (hs : m.Starts x t) :
    m.First rest t ∨ n.isMultiple = true ∧ m.First [n] t := by
  induction h with
  | rest hx => exact Or.inl ⟨_, hx, hs⟩
  | @again a x hm ha _ ih =>
    rcases Model.Starts.split (x := [a]) hs with hs | ⟨-, hs⟩
    · exact Or.inr ⟨hm, [a], Expands.nil.single ha, hs⟩
    · exact ih hs

end Behind

/-- A node is left out, or it occurs and something is left behind it. -/
lemma Expands.cons_inv {n : Node RuleId} {rest : List (Node RuleId)} {x : Form}
    (h : Expands (n :: rest) x) : n.isRequired = false ∧ Expands rest x ∨
      ∃ a y, x = a :: y ∧ n.IsOccurrence a ∧ Behind n rest y := by
  cases h with
  | @cons _ _ copies x hn hc hr =>
    cases copies with
    | nil =>
      refine Or.inl ⟨?_, hr⟩
      by_contra hreq
      have hreq : n.cardinality.required = true := by simpa [Node.isRequired] using hreq
      exact absurd (hc.1 hreq) (Nat.lt_irrefl 0)
    | cons a copies =>
      refine Or.inr ⟨a, copies ++ x, rfl, hn a List.mem_cons_self, ?_⟩
      have hmore : ∀ b ∈ copies, n.IsOccurrence b := fun b hb => hn b (List.mem_cons_of_mem a hb)
      have hm : copies ≠ [] → n.isMultiple = true := by
        intro hne
        by_contra hm
        have hone := hc.2 (by simpa [Node.isMultiple] using hm)
        rw [List.length_cons] at hone
        have hpos := List.length_pos_iff.2 hne
        omega
      clear hc hn
      induction copies with
      | nil => exact .rest hr
      | cons b copies ih =>
        have hm := hm (List.cons_ne_nil b copies)
        exact .again hm (hmore b List.mem_cons_self)
          (ih (fun c hc => hmore c (List.mem_cons_of_mem b hc)) fun _ => hm)

namespace Session

variable {s : Session} {root r id : RuleId} {V : Visit} {C : Gather} {n : Node RuleId}
  {rest nodes : List (Node RuleId)} {p q count : Nat} {o : Outcome} {ph : Phase} {L L' : Set Event}
  {a : Symbol RuleId} {x y : Form} {T : Target}

/-- An outcome and its offers are what a target asks for. -/
def Meets (s : Session) (o : Outcome) (L : Set Event) : Target → Prop
  | .upTo q => o = ⟨true, q, .matching⟩
  | .toStop => o.isUsable = true ∧ o.stop = s.stop
  | .beyond t => Offers L t

/-- Visits of rules are sound, and below a root they meet every target that the rule can read. -/
def Exact (s : Session) (root : RuleId) (V : Visit) : Prop :=
  ∀ b o L, V b o L → s.Sound b o ∧ (s.model.Occurs root b.rule → ∀ T,
    s.Reads [.rule b.rule] b.start T → s.Follows (s.model.Follow root b.rule) T → s.Meets o L T)

/-- Collecting from rules is complete. -/
def Complete (s : Session) (C : Gather) : Prop :=
  ∀ id ph L, C id ph L → Covers (s.model.Nullable id) (s.model.Starts [.rule id]) ph L

lemma Meets.mono (h : s.Meets o L T) (hL : L ⊆ L') : s.Meets o L' T := by
  cases T with
  | upTo q => exact h
  | toStop => exact h
  | beyond t => exact Offers.mono h hL

section

variable (hp : s.model.Plain)

include hp

lemma plain_of_ends (he : s.model.Ends root r nodes) : ∀ n ∈ nodes, n.Plain := by
  obtain ⟨q, hq, hsuffix⟩ := he.part
  exact fun n hn => hp.node q hq n (hsuffix.mem hn)

/-! ## Collecting behind a node -/

variable (hC : s.Complete C)

include hC

lemma covers_nodes_of_ends (he : s.model.Ends root r nodes)
    (hy : (Plan.collectNodes s nodes).Yields V C ph L) :
    Covers (s.model.DerivesNodes nodes []) (s.model.First nodes) ph L :=
  hy.covers_nodes hp (plain_of_ends hp he) fun _ _ _ id _ _ _ k L hc => hC id k L hc

/-- What may come behind an occurrence of a node: what follows it, and the node again if it may be
repeated. -/
def MayFollow (m : Model) (n : Node RuleId) (rest : List (Node RuleId)) (t : TokenId) : Prop :=
  m.First rest t ∨ n.isMultiple = true ∧ m.First [n] t

lemma covers_again (he : s.model.Ends root r (n :: rest))
    (hy : (Plan.collectNodes s (n :: rest) >>= fun _ => Plan.collectNodes s rest).Yields V C ph L) :
    Covers (s.model.DerivesNodes rest []) (MayFollow s.model n rest) ph L := by
  obtain ⟨k, L₁, L₂, hagain, hrest, rfl⟩ := Plan.yields_bind.1 hy
  have hagain := covers_nodes_of_ends hp hC he hagain
  have hrest := covers_nodes_of_ends hp hC he.tail hrest
  refine ⟨hrest.pending, fun t ht => ?_⟩
  rcases ht with ht | ⟨-, hn⟩
  · exact (hrest.offers t ht).mono Set.subset_union_right
  · exact (hagain.offers t (hn.append rest)).mono Set.subset_union_left

lemma covers_once (he : s.model.Ends root r (n :: rest)) (hm : n.isMultiple = false)
    (hy : (Plan.collectNodes s rest).Yields V C ph L) :
    Covers (s.model.DerivesNodes rest []) (MayFollow s.model n rest) ph L := by
  have hrest := covers_nodes_of_ends hp hC he.tail hy
  refine ⟨hrest.pending, fun t ht => hrest.offers t (ht.resolve_right ?_)⟩
  exact fun hn => absurd hn.1 (ne_true_of_eq_false hm)

lemma covers_behind (he : s.model.Ends root r (n :: rest))
    (hy : (Plan.collectBehind s n rest).Yields V C ph L) :
    Covers (s.model.DerivesNodes rest []) (MayFollow s.model n rest) ph L := by
  cases hm : n.isMultiple with
  | false =>
    rw [Plan.collectBehind_once hm] at hy
    exact covers_once hp hC he hm hy
  | true =>
    rw [Plan.collectBehind_multiple hm] at hy
    exact covers_again hp hC he hy

lemma covers_atCaret (he : s.model.Ends root r (n :: rest))
    (hy : (Plan.collectAtCaret s n rest p).Yields V C ph L) :
    Covers (s.model.DerivesNodes rest []) (MayFollow s.model n rest) ph L := by
  cases hm : n.isMultiple with
  | false =>
    rw [Plan.yields_collectAtCaret_once hm] at hy
    exact covers_once hp hC he hm hy
  | true =>
    cases hr : n.isRequired with
    | true =>
      rw [Plan.yields_collectAtCaret_required hm hr] at hy
      exact covers_again hp hC he hy
    | false =>
      rw [Plan.yields_collectAtCaret_optional hm hr] at hy
      have hnodes := covers_nodes_of_ends hp hC he hy
      refine ⟨fun hnull => hnodes.pending (hnull.skip hr), fun t ht => hnodes.offers t ?_⟩
      rcases ht with ⟨x, hx, hs⟩ | ⟨-, hn⟩
      · exact ⟨x, hx.skip hr, hs⟩
      · exact hn.append rest

end

lemma covers_of_behind (hb : Behind n rest y)
    (h : Covers (s.model.DerivesNodes rest []) (MayFollow s.model n rest) ph L) :
    Covers (s.model.Derives y []) (s.model.Starts y) ph L :=
  ⟨fun hd => h.pending (hb.derivesNodes_nil hd), fun t ht => h.offers t (hb.first ht)⟩

/-- Where collecting is complete, the outcome at the stop meets the target. -/
lemma meets_at_stop {b : Bool} (hread : s.Reads y s.stop T)
    (hcovers : Covers (s.model.Derives y []) (s.model.Starts y) ph L) :
    s.Meets ⟨b, s.stop, ph⟩ L T := by
  cases T with
  | upTo q =>
    obtain ⟨-, hle, hlt, -⟩ := hread
    exact absurd hlt (Nat.not_lt.2 hle)
  | toStop =>
    have hd : s.model.Derives y (Form.ofTokens (s.stream.kinds s.stop s.stop)) := hread
    rw [TokenStream.kinds_self] at hd
    obtain rfl := hcovers.pending hd
    exact ⟨Outcome.isUsable_pending, rfl⟩
  | beyond t =>
    obtain ⟨b, hd⟩ := hread
    rw [TokenStream.kinds_self] at hd
    exact hcovers.offers t ⟨b, hd⟩

/-! ## One node -/

section

variable (hp : s.model.Plain) (hll : s.model.LL1 root) (hV : s.Exact root V)
  (he : s.model.Ends root r (n :: rest)) (hv : s.stream.Visible p) (hlt : p < s.stop)
  (hy : (Plan.matchNode s n p).Yields V C o L)

include hp hll hV he hv hlt hy

/-- A node that may be left out or repeated fails, if the next token says that it does not occur. -/
lemma node_fails (hn : n.isRequired = false ∨ n.isMultiple = true)
    (ht : s.model.Predict root r rest (s.stream.kind p)) : o = ⟨false, p, .matching⟩ := by
  have hfirst := hll.not_first he hn ht
  cases hs : n.symbol with
  | token u =>
    obtain ⟨rfl, -⟩ := (Plan.yields_matchNode_token hs).1 hy
    rcases s.matchToken_eq n.any u p with ⟨-, hkind⟩ | hfailed
    · have hany : n.any = false := (plain_of_ends hp he n List.mem_cons_self).1
      have hocc : n.IsOccurrence (.token u) := Node.isOccurrence_token hs fun _ => rfl
      refine absurd ⟨[.token u], Expands.nil.single hocc, [], ?_⟩ hfirst
      rw [hkind hany]
      exact .refl _
    · exact hfailed
  | rule id =>
    have hvisit := (Plan.yields_matchNode_rule hs).1 hy
    have hsound := (hV _ o L hvisit).1
    cases hu : o.isUsable with
    | false =>
      obtain ⟨matched, stop, phase⟩ := o
      obtain rfl : stop = p := hsound.stay hu
      simp only [Outcome.isUsable, Bool.or_eq_false_iff, decide_eq_false_iff_not, not_not] at hu
      obtain ⟨rfl, rfl⟩ := hu
      rfl
    | true =>
      -- what the rule consumes begins with the token
      have hlt : p < o.stop := hsound.lt_stop (hll.not_nullable he hn hs) hu
      have hd := hsound.derives hu
      rw [TokenStream.kinds_cons hv hsound.visible hlt] at hd
      have hocc : n.IsOccurrence (.rule id) := Node.isOccurrence_rule hs
      exact absurd ⟨[.rule id], Expands.nil.single hocc, _, hd⟩ hfirst

omit hll in
/-- **One occurrence of a node.**  It ends in front of the stop where the derivation says, it ends at
the stop, or it offers the token behind the stop. -/
theorem occurrence_cases (ha : n.IsOccurrence a) (hb : Behind n rest y)
    (hread : s.Reads (a :: y) p T) (hT : s.Follows (s.model.Follow root r) T) :
    (∃ q, o = ⟨true, q, .matching⟩ ∧ s.Reads [a] p (.upTo q) ∧ s.Reads y q T) ∨
      (o.stop = s.stop ∧ (o.phase = .pending ∨ n.isTerminal = true ∧ o.matched = true) ∧
        s.Reads y s.stop T) ∨
      ∃ t, T = .beyond t ∧ Offers L t := by
  have hsplit := Reads.split (x := [a]) hread hv hlt.le
  cases hs : n.symbol with
  | token u =>
    have hterm : n.isTerminal = true := by simp [Node.isTerminal, Node.tokenId?, hs]
    have hany : n.any = false := (plain_of_ends hp he n List.mem_cons_self).1
    simp only [Node.IsOccurrence, hs] at ha
    obtain ⟨u', rfl, hu⟩ := ha
    obtain rfl := hu hany
    obtain ⟨rfl, rfl⟩ := (Plan.yields_matchNode_token hs).1 hy
    have hmatch : s.stream.kind p = u' →
        s.matchToken n.any u' p = ⟨true, s.stream.advance p, .matching⟩ := by
      intro hkind
      simp [matchToken, hany, hkind]
    rcases hsplit with ⟨q, hx, hrest⟩ | ⟨hx, hrest⟩ | ⟨t, rfl, hx⟩
    · obtain ⟨hkind, hq | ⟨hq, -⟩⟩ := hx.token_inv hv hlt
      · obtain rfl := Target.upTo.inj hq
        exact Or.inl ⟨_, hmatch hkind, hx, hrest⟩
      · cases hq
    · obtain ⟨hkind, hq | ⟨-, hstop⟩⟩ := hx.token_inv hv hlt
      · cases hq
      · rw [hmatch hkind]
        exact Or.inr (Or.inl ⟨hstop, Or.inr ⟨hterm, rfl⟩, hrest⟩)
    · obtain ⟨-, hq | ⟨hq, -⟩⟩ := hx.token_inv hv hlt <;> cases hq
  | rule id =>
    simp only [Node.IsOccurrence, hs] at ha
    subst ha
    have hvisit := (Plan.yields_matchNode_rule hs).1 hy
    obtain ⟨hsound, hmeets⟩ := hV _ o L hvisit
    have hmeets := hmeets (he.occurs hs)
    rcases hsplit with ⟨q, hx, hrest⟩ | ⟨hx, hrest⟩ | ⟨t, rfl, hx⟩
    · have hahead := hrest.ahead hx.1 hx.2.2.1 hT
      have hfollow := he.follow (hb.expands (Node.isOccurrence_rule hs)) hahead
      exact Or.inl ⟨q, hmeets (.upTo q) hx hfollow, hx, hrest⟩
    · obtain ⟨hu, hstop⟩ := hmeets .toStop hx trivial
      have hreached : s.reached o.stop = true := hstop ▸ reached_stop
      exact Or.inr (Or.inl ⟨hstop, Or.inl (hsound.collected hu hreached), hrest⟩)
    · exact Or.inr (Or.inr ⟨t, rfl, hmeets (.beyond t) hx trivial⟩)

end

/-- An occurrence of a node that may be repeated is not empty. -/
lemma lt_of_occurrence (hll : s.model.LL1 root) (he : s.model.Ends root r (n :: rest))
    (hm : n.isMultiple = true) (ha : n.IsOccurrence a) (h : s.Reads [a] p (.upTo q)) : p < q := by
  obtain ⟨-, hle, -, hd⟩ := h
  refine Nat.lt_of_le_of_ne hle ?_
  rintro rfl
  rw [TokenStream.kinds_self] at hd
  cases hs : n.symbol with
  | token u =>
    simp only [Node.IsOccurrence, hs] at ha
    obtain ⟨u', rfl, -⟩ := ha
    simpa using hd.token_inv
  | rule id =>
    simp only [Node.IsOccurrence, hs] at ha
    subst ha
    exact hll.not_nullable he (Or.inr hm) hs hd

/-! ## Nodes in a row -/

/-- Matching nodes from a position in front of the stop meets every target that they can read. -/
def MeetsNodes (s : Session) (root r : RuleId) (V : Visit) (C : Gather)
    (nodes : List (Node RuleId)) : Prop :=
  ∀ p o L T x, s.stream.Visible p → p < s.stop → (Plan.matchNodes s nodes p).Yields V C o L →
    Expands nodes x → s.Reads x p T → s.Follows (s.model.Follow root r) T → s.Meets o L T

section

variable (hp : s.model.Plain) (hll : s.model.LL1 root) (hV : s.Exact root V) (hC : s.Complete C)

include hp hll hV hC

omit hp hll hV hC in
/-- In front of the stop a further occurrence is tried. -/
lemma repeats_inv (hlt : p < s.stop) (hcount : s.stream.size ≤ p + count)
    (hy : (Plan.matchRepeats s n rest count p >>= Plan.resume s rest).Yields V C o L) :
    ∃ k o' L₁ L₂, s.stream.size ≤ p + (k + 1) ∧ (Plan.matchNode s n p).Yields V C o' L₁ ∧
      (Plan.repeatOn s n rest k p o' >>= Plan.resume s rest).Yields V C o L₂ ∧ L = L₁ ∪ L₂ := by
  have hsize : p < s.stream.size := hlt.trans_le stop_le_size
  obtain ⟨k, rfl⟩ : ∃ k, count = k + 1 := Nat.exists_eq_succ_of_ne_zero (by omega)
  obtain ⟨o', L₁, L₂, hnode, hgo, hL⟩ :=
    (Plan.yields_matchRepeats_succ (TokenStream.atEnd_of_lt hsize)).1 hy
  exact ⟨k, o', L₁, L₂, hcount, hnode, hgo, hL⟩

omit hp hll hV hC in
/-- No nodes read nothing. -/
lemma meets_nil (hv : s.stream.Visible p) (hlt : p < s.stop) (hread : s.Reads [] p T) :
    s.Meets ⟨true, p, .matching⟩ L T := by
  have hstop := TokenStream.kinds_cons hv visible_stop hlt
  cases T with
  | upTo q =>
    obtain ⟨hvq, hpq, -, hd⟩ := hread
    have hnil := List.map_eq_nil_iff.1 hd.nil_inv
    obtain rfl := TokenStream.eq_of_kinds_eq_nil hv hvq hpq hnil
    rfl
  | toStop =>
    have hd := Model.Derives.nil_inv hread
    simp [hstop, Form.ofTokens] at hd
  | beyond t =>
    obtain ⟨b, hd⟩ := hread
    simpa using hd.nil_inv

lemma meets_repeats (he : s.model.Ends root r (n :: rest)) (hm : n.isMultiple = true)
    (hrest : s.MeetsNodes root r V C rest) (hb : Behind n rest y) (hv : s.stream.Visible p)
    (hlt : p < s.stop) (hcount : s.stream.size ≤ p + count) (hread : s.Reads y p T)
    (hT : s.Follows (s.model.Follow root r) T)
    (hy : (Plan.matchRepeats s n rest count p >>= Plan.resume s rest).Yields V C o L) :
    s.Meets o L T := by
  induction hb generalizing p count L with
  | rest hx =>
    obtain ⟨count, o', L₁, L₂, -, hnode, hgo, rfl⟩ := repeats_inv hlt hcount hy
    have hahead := (hread.ahead hv hlt hT).predict hx
    obtain rfl := node_fails hp hll hV he hv hlt hnode (Or.inr hm) hahead
    rw [Plan.repeatOn_failed] at hgo
    exact (hrest p o L₂ T _ hv hlt hgo hx hread hT).mono Set.subset_union_right
  | @again a x _ ha hb ih =>
    obtain ⟨count, o', L₁, L₂, hcount, hnode, hgo, rfl⟩ := repeats_inv hlt hcount hy
    rcases occurrence_cases hp hV he hv hlt hnode ha hb hread hT with
      ⟨q, rfl, hx, hread⟩ | ⟨hstop, hends, hread⟩ | ⟨t, rfl, hoffers⟩
    · have hpq := lt_of_occurrence hll he hm ha hx
      have hq : s.reached q = false := not_reached_of_lt hx.1 hx.2.2.1
      rw [Plan.repeatOn_more (by rw [hq, Bool.and_false]) hpq.ne'] at hgo
      exact (ih hx.1 hx.2.2.1 (by omega) hread hgo).mono Set.subset_union_right
    · obtain ⟨matched, stop, phase⟩ := o'
      obtain rfl : stop = s.stop := hstop
      refine Meets.mono ?_ Set.subset_union_right
      cases phase with
      | pending =>
        rw [Plan.repeatOn_pending] at hgo
        obtain ⟨ph, hcollect, rfl⟩ := Plan.yields_finished.1 hgo
        exact meets_at_stop hread (covers_of_behind hb (covers_behind hp hC he hcollect))
      | matching =>
        obtain ⟨hterm, rfl⟩ := hends.resolve_left Phase.noConfusion
        rw [Plan.repeatOn_atCaret hterm reached_stop] at hgo
        obtain ⟨ph, hcollect, rfl⟩ := Plan.yields_finished.1 hgo
        exact meets_at_stop hread (covers_of_behind hb (covers_atCaret hp hC he hcollect))
    · exact hoffers.mono Set.subset_union_left

/-- **Matching nodes meets every target that they can read.** -/
theorem meets_nodes (he : s.model.Ends root r nodes) : s.MeetsNodes root r V C nodes := by
  induction nodes with
  | nil =>
    intro p o L T x hv hlt hy hx hread hT
    cases hx
    obtain ⟨rfl, -⟩ := Plan.yields_pure.1 hy
    exact meets_nil hv hlt hread
  | cons n rest ih =>
    intro p o L T x hv hlt hy hx hread hT
    rw [Plan.matchNodes_cons] at hy
    obtain ⟨o', L₁, L₂, hnode, hgo, rfl⟩ := Plan.yields_bind.1 hy
    rcases hx.cons_inv with ⟨hr, hx⟩ | ⟨a, y, rfl, ha, hb⟩
    · have hahead := (hread.ahead hv hlt hT).predict hx
      obtain rfl := node_fails hp hll hV he hv hlt hnode (Or.inl hr) hahead
      rw [Plan.matchOn_skipped hr] at hgo
      exact (ih he.tail p o L₂ T x hv hlt hgo hx hread hT).mono Set.subset_union_right
    rcases occurrence_cases hp hV he hv hlt hnode ha hb hread hT with
      ⟨q, rfl, hx, hread⟩ | ⟨hstop, hends, hread⟩ | ⟨t, rfl, hoffers⟩
    · refine Meets.mono ?_ Set.subset_union_right
      have hq : s.reached q = false := not_reached_of_lt hx.1 hx.2.2.1
      cases hm : n.isMultiple with
      | true =>
        rw [Plan.matchOn_multiple hq hm] at hgo
        exact meets_repeats hp hll hV hC he hm (ih he.tail) hb hx.1 hx.2.2.1 (by omega) hread hT hgo
      | false =>
        rw [Plan.matchOn_once hq hm] at hgo
        cases hb with
        | rest hx' => exact ih he.tail q o L₂ T y hx.1 hx.2.2.1 hgo hx' hread hT
        | again hm' => exact absurd hm' (ne_true_of_eq_false hm)
    · obtain ⟨matched, stop, phase⟩ := o'
      obtain rfl : stop = s.stop := hstop
      refine Meets.mono ?_ Set.subset_union_right
      cases phase with
      | pending =>
        rw [Plan.matchOn_pending] at hgo
        obtain ⟨ph, hcollect, rfl⟩ := Plan.yields_bind_pure.1 hgo
        exact meets_at_stop hread (covers_of_behind hb (covers_behind hp hC he hcollect))
      | matching =>
        obtain ⟨-, rfl⟩ := hends.resolve_left Phase.noConfusion
        rw [Plan.matchOn_atCaret reached_stop] at hgo
        obtain ⟨ph, hcollect, rfl⟩ := Plan.yields_bind_pure.1 hgo
        exact meets_at_stop hread (covers_of_behind hb (covers_atCaret hp hC he hcollect))
    · exact hoffers.mono Set.subset_union_left

end

end Session

end GrammarCompletion
