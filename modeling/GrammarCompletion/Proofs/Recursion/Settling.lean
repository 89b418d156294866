/-
# What is kept is settled

A rule is matched in a frame of its own in rounds.  All rules inside it are settled, but for the
rule itself at its own spot, which has the seed of the round; so each round has the outcome of the
plain recursion (`Session.plainRound`).  A rule that did not find itself has the same outcome with
every seed, and hence does not grow.  What the rounds end with is therefore that to which the rule
settles (`keeps_matchGrown`), and it is kept when the frame is left (`keeps_matchInFrame`).
-/
import GrammarCompletion.Proofs.Recursion.Memo

namespace GrammarCompletion

open Walk Filter

namespace Session

/-- A rule is visited inside the frames at the spots `l`. -/
structure Entered (s : Session) (l : List Spot) (depth : Nat) (a : Spot) : Prop where
  linked : Linked s.model (a :: l)
  isOpen : ∀ b ∈ l, s.reached b.start = false
  nodup : l.Nodup
  depth_eq : depth + l.length = s.limits.depth
  valid : s.model.WellFormed → ∀ b ∈ a :: l, b.rule.index < s.model.ruleCount

/-- The outcome of a visit inside the frames at the spots `l`: that to which the rule settles, or
the seed, if the rule is that of the innermost frame. -/
structure Answers (s : Session) (l : List Spot) (r : Run) (a : Spot) (o : Outcome) : Prop where
  lawful : s.Lawful a o
  settled : s.model.DirectFrom a.rule →
    a ∉ l ∧ s.Settles a o ∨ l.head? = some a ∧ r.Flagged 0 ∧ o = r.seed a

variable {s : Session} {l : List Spot} {a b : Spot} {o : Outcome} {r r' : Run} {d : Nat}

lemma Entered.room (h : s.Entered l d a) : s.Room l d [] :=
  ⟨h.isOpen, h.nodup, fun hwf b hb => h.valid hwf b (List.mem_cons_of_mem a hb), List.nodup_nil,
    fun _ => List.forall_mem_nil _, h.depth_eq⟩

/-! ## Matching the body of a rule in its frame -/

/-- Nodes are to be matched at a position in the frame of a rule: they are the end of a sequence of
the rule, and the nodes before them are nullable if the position is that of the frame. -/
structure Within (s : Session) (a : Spot) (nodes : List (Node RuleId)) (p : Nat) : Prop where
  le : a.start ≤ p
  part : ∃ list, s.model.body a.rule = .ok (.sequences list) ∧ ∃ q ∈ list, ∃ pre,
    q.nodes = pre ++ nodes ∧ (p = a.start → s.model.DerivesNodes pre [])

section

variable {n : Node RuleId} {rest : List (Node RuleId)} {p q : Nat} {id : RuleId}

/-- Where the sequences of a rule begin, nothing is before them. -/
lemma Within.entry {list : List (Sequence RuleId)} {k : Sequence RuleId}
    (hb : s.model.body a.rule = .ok (.sequences list)) (hk : k ∈ list) :
    s.Within a k.nodes a.start :=
  ⟨Nat.le_refl _, list, hb, k, hk, [], rfl, fun _ => .nil⟩

lemma Within.refers (h : s.Within a (n :: rest) p) (hn : n.symbol = .rule id) :
    s.model.Refers a.rule id := by
  obtain ⟨list, hb, q, hq, pre, hnodes, -⟩ := h.part
  exact ⟨list, hb, q, hq, n, by simp [hnodes], hn⟩

lemma Within.leftRefers (h : s.Within a (n :: rest) p) (hn : n.symbol = .rule id)
    (hp : p = a.start) : s.model.LeftRefers a.rule id := by
  obtain ⟨list, hb, q, hq, pre, hnodes, hpre⟩ := h.part
  exact ⟨list, hb, q, hq, pre, n, rest, hnodes, hn, hpre hp⟩

lemma Within.valid (h : s.Within a (n :: rest) p) (hwf : s.model.WellFormed) :
    s.model.ValidNodes (n :: rest) := by
  obtain ⟨list, hb, q, hq, pre, hnodes, -⟩ := h.part
  exact fun k hk => hwf q (Model.mem_sequences hb hq) k (by simp [hnodes, List.mem_cons.1 hk])

/-- Behind a node, at a later position or where the node derives the empty string. -/
lemma Within.next (h : s.Within a (n :: rest) p) (hpq : p ≤ q)
    (hn : q = a.start → p = a.start → s.model.DerivesNodes [n] []) : s.Within a rest q := by
  obtain ⟨list, hb, k, hk, pre, hnodes, hpre⟩ := h.part
  refine ⟨h.le.trans hpq, list, hb, k, hk, pre ++ [n], by simp [hnodes], fun hq => ?_⟩
  have hp : p = a.start := Nat.le_antisymm (hq ▸ hpq) h.le
  exact (hpre hp).append (hn hq hp)

/-- Behind an occurrence of a node that matched, and before a further one of the same node. -/
lemma Within.after (h : s.Within a (n :: rest) p) (ha : s.reached a.start = false)
    (hn : s.LawfulNode n p ⟨true, q, .matching⟩) :
    s.Within a rest q ∧ s.Within a (n :: rest) q := by
  refine ⟨h.next hn.le fun hq hp => hn.derivesNodes (hp ▸ ha) (hq.trans hp.symm) .nil,
    h.le.trans hn.le, ?_⟩
  -- where the node is matched again, nothing before it has changed
  obtain ⟨list, hb, k, hk, pre, hnodes, hpre⟩ := h.part
  refine ⟨list, hb, k, hk, pre, hnodes, fun hq => hpre ?_⟩
  exact Nat.le_antisymm (hq ▸ hn.le) h.le

/-- The rule that is entered from a frame. -/
lemma Within.entered (h : s.Within a (n :: rest) p) (ha : s.Entered l (d + 1) a)
    (hq : s.reached a.start = false) (hal : a ∉ l) (hn : n.symbol = .rule id) :
    s.Entered (a :: l) d ⟨id, p⟩ where
  linked := ha.linked.enter h.le fun hp => h.leftRefers hn hp
  isOpen := List.forall_mem_cons.2 ⟨hq, ha.isOpen⟩
  nodup := List.nodup_cons.2 ⟨hal, ha.nodup⟩
  depth_eq := by
    have := ha.depth_eq
    rw [List.length_cons]
    omega
  valid hwf := List.forall_mem_cons.2 ⟨h.valid hwf n List.mem_cons_self id hn, ha.valid hwf⟩

end

/-- What is known of the rules that are matched inside the frame of `a`. -/
def AnswersWithin (s : Session) (l : List Spot) (a : Spot) (r : Run) (b : Spot) (o : Outcome) :
    Prop :=
  s.Answers (a :: l) r b o ∧ (s.model.DirectFrom a.rule → s.model.DirectFrom b.rule)

lemma Answers.later (h : s.Answers l r b o) (hl : Run.MovesOn l r r') :
    s.Answers l r' b o := by
  refine ⟨h.lawful, fun hd => (h.settled hd).imp_right ?_⟩
  rintro ⟨hhead, hflag, ho⟩
  refine ⟨hhead, hl.flagged 0 hflag, ?_⟩
  rw [ho, Run.seed_congr (hl.kept b (List.mem_of_head? hhead))]

/-- Matching the body of a rule in its frame. -/
lemma matching_frameRegime (hq : s.reached a.start = false) :
    ((s.frameRegime (a :: l) (a :: l)).inside []).Matching s (s.AnswersWithin l a) (s.Within a)
      fun nodes => s.model.WellFormed → s.model.ValidNodes nodes where
  events := collecting_frameRegime.events.inside []
  stable hl h := ⟨h.1.later hl, h.2⟩
  skip h hr := h.next (Nat.le_refl _) fun _ _ => .skip hr .nil
  stay _ _ hn := (hn.mono fun _ _ h => h.1.lawful).lawful.stop_eq
  next _ h hn _ := by
    have hnext := h.after hq (hn.mono fun _ _ h => h.1.lawful).lawful
    exact ⟨hnext.1, fun _ => hnext.2⟩
  due _ h _ _ :=
    ⟨fun hwf n hn => h.valid hwf n (List.mem_cons_of_mem _ hn), fun _ hwf => h.valid hwf⟩

/-- The regime of the part of a walk in the frame of `a` in which its own result may change. -/
def growRegime (s : Session) (l : List Spot) (a : Spot) : Regime :=
  (s.frameRegime (a :: l) l).inside []

/-- The regime of a round in the frame of `a`. -/
def roundRegime (s : Session) (l : List Spot) (a : Spot) : Regime :=
  (s.frameRegime (a :: l) (a :: l)).inside []

/-- The outcome of a round is that of the plain recursion with the same seed. -/
lemma eventually_plainRound (h : s.BodyMatches (s.AnswersWithin l a r) a o)
    (hd : s.model.DirectFrom a.rule) : ∀ᶠ depth in atTop, s.plainRound depth a (r.seed a) = o := by
  refine (h.mono fun b o hb => ?_).plainRound
  rcases hb.1.settled (hb.2 hd) with ⟨hbl, ho⟩ | ⟨hhead, -, ho⟩
  · exact Or.inr ⟨fun hba => hbl (hba ▸ List.mem_cons_self), ho⟩
  · obtain rfl : a = b := by simpa using hhead
    exact Or.inl ⟨rfl, ho⟩

/-- If the rule did not find itself in a round, the seed makes no difference. -/
lemma eventually_plainRound_of_not_flagged (h : s.BodyMatches (s.AnswersWithin l a r) a o)
    (hd : s.model.DirectFrom a.rule) (hf : ¬ r.Flagged 0) (seed : Outcome) :
    ∀ᶠ depth in atTop, s.plainRound depth a seed = o := by
  refine (h.mono fun b o hb => ?_).plainRound
  rcases hb.1.settled (hb.2 hd) with ⟨hbl, ho⟩ | ⟨-, hflag, -⟩
  · exact Or.inr ⟨fun hba => hbl (hba ▸ List.mem_cons_self), ho⟩
  · exact absurd hflag hf

lemma lawful_of_answersWithin (h : s.BodyMatches (s.AnswersWithin l a r) a o) : s.Lawful a o :=
  (h.mono fun _ _ hb => hb.1.lawful).lawful

/-- A round that starts with a certain result at its own spot. -/
lemma keeps_round {x : Walk Outcome}
    (hx : (s.roundRegime l a).Keeps x fun o r => s.BodyMatches (s.AnswersWithin l a r) a o)
    (e : Option Memo) :
    (s.growRegime l a).KeepsFrom (fun r => r.memo[a]? = e) x fun o r =>
      s.BodyMatches (s.AnswersWithin l a r) a o ∧ r.memo[a]? = e := by
  refine Spec.mono hx (fun _ hr => hr.1) fun r o r' hr h => ?_
  obtain ⟨hinv, hmoves, ho⟩ := h
  refine ⟨hinv, ⟨fun b hb => ?_, hmoves.flagged, hmoves.finished⟩, ho, ?_⟩
  · exact hmoves.kept b (List.mem_cons_of_mem a hb)
  · rw [hmoves.kept a List.mem_cons_self, hr.2]

/-- The result at the spot of a frame is not finished. -/
lemma MemoHolds.not_finished {memo : Std.TreeMap Spot Memo} (h : s.MemoHolds (a :: l) memo)
    (o : Outcome) : memo[a]? ≠ some ⟨o, false⟩ := by
  intro ha
  exact ((h a _ ha).settled rfl).1 List.mem_cons_self

/-- Growing a rule in its frame has the outcome of the plain recursion. -/
lemma keeps_grow (hal : a ∉ l) (hv : s.model.WellFormed → a.rule.index < s.model.ruleCount)
    {x : Walk Outcome}
    (hx : (s.roundRegime l a).Keeps x fun o r => s.BodyMatches (s.AnswersWithin l a r) a o)
    {count : Nat} {best : Outcome} (hbest : s.Lawful a best) :
    (s.growRegime l a).Keeps (Session.grow x a count best) fun o _ =>
      s.Lawful a o ∧ (s.model.DirectFrom a.rule →
        ∀ᶠ depth in atTop, plainGrow (s.plainRound depth a) count best = o) := by
  induction count generalizing best with
  | zero => exact .pure fun _ _ => ⟨hbest, fun _ => Eventually.of_forall fun _ => rfl⟩
  | succ count ih =>
    rw [Session.grow]
    have hinsert : (s.growRegime l a).Keeps
        (modify fun r => { r with memo := r.memo.insert a ⟨best, true⟩ } : Walk Unit)
        fun _ r => r.memo[a]? = some ⟨best, true⟩ := by
      refine .modifyTo fun r hr => ⟨⟨⟨hr.1.spots, ?_⟩, hr.2⟩, ?_, by simp⟩
      · exact .insert (fun b k _ hb => hr.1.memo b k hb)
          ⟨hbest, hv, fun _ => List.mem_cons_self, fun h => Bool.noConfusion h⟩
      · refine .except hal hr.1.memo.not_finished fun b hab => ?_
        rw [getElem?_memo_insert, if_neg hab]
    refine hinsert.bind fun _ => (keeps_round hx _).bind fun o => ?_
    -- the seed of the round was the best result so far
    have hplain : ∀ r, s.BodyMatches (s.AnswersWithin l a r) a o ∧ r.memo[a]? = some ⟨best, true⟩ →
        s.Lawful a o ∧ (s.model.DirectFrom a.rule →
          ∀ᶠ depth in atTop, s.plainRound depth a best = o) := by
      rintro r ⟨ho, hm⟩
      have hseed : r.seed a = best := by simp [Run.seed, hm]
      exact ⟨lawful_of_answersWithin ho, fun hd => hseed ▸ eventually_plainRound ho hd⟩
    refine .intro (fun r _ ho => hplain r ho) fun hround => ?_
    obtain ⟨hlawful, ho⟩ := hround
    split
    · next hbetter =>
      refine ((ih hlawful).mono fun o' _ _ ho' => ⟨ho'.1, fun hd => ?_⟩).keepsFrom
      filter_upwards [ho hd, ho'.2 hd] with depth h₁ h₂
      simp only [plainGrow, h₁, if_pos hbetter, h₂]
    · next hbetter =>
      refine .pure fun _ _ _ => ⟨hbest, fun hd => ?_⟩
      filter_upwards [ho hd] with depth h₁
      simp only [plainGrow, h₁, if_neg hbetter]

/-- Matching a rule in its frame settles it. -/
lemma keeps_matchGrown (hq : s.reached a.start = false) (hal : a ∉ l)
    (hv : s.model.WellFormed → a.rule.index < s.model.ruleCount)
    {matchRule : RuleId → Nat → Walk Outcome} {collect : RuleId → Walk Phase}
    (hx : (s.roundRegime l a).Keeps (s.matchBody matchRule collect a) fun o r =>
      s.BodyMatches (s.AnswersWithin l a r) a o) :
    (s.growRegime l a).KeepsFrom (fun r => r.memo[a]? = none) (s.matchGrown matchRule collect a)
      fun o _ => s.Lawful a o ∧ (s.model.DirectFrom a.rule → s.Settles a o) := by
  -- in the first round there is no result at the spot, so the seed is a failure
  refine (keeps_round hx none).bind fun first => ?_
  refine .get fun r hr ⟨ho, hm⟩ => ?_
  have hlawful : s.Lawful a first := lawful_of_answersWithin ho
  have hseed : r.seed a = ⟨false, a.start, .matching⟩ := by simp [Run.seed, hm]
  have hfirst : s.model.DirectFrom a.rule →
      ∀ᶠ depth in atTop, s.plainRound depth a ⟨false, a.start, .matching⟩ = first :=
    fun hd => hseed ▸ eventually_plainRound ho hd
  split
  · refine ((keeps_grow hal hv hx hlawful).mono fun o _ _ hgrow => ?_).keepsFrom
    exact ⟨hgrow.1, fun hd => settles_grown hq (hfirst hd) (hgrow.2 hd)⟩
  · next hflag =>
    -- the rule did not find itself, and a second round would be like the first
    have hf : ¬ r.Flagged 0 := fun hf => hflag (Run.head?_any_recursed.2 hf)
    refine .pure fun _ _ _ => ⟨hlawful, fun hd => settles_grown hq (hfirst hd) ?_⟩
    filter_upwards [eventually_plainRound_of_not_flagged ho hd hf first] with depth hround
    exact plainGrow_eq hround

/-! ## Visiting a rule -/

/-- The result of a rule is kept when its frame is left, and what the frames outside it rely on is
as before. -/
lemma leave_frameRegime (hal : a ∉ l) (hv : s.model.WellFormed → a.rule.index < s.model.ruleCount)
    {r₀ r : Run} (hr : (s.growRegime l a).inv r) (hmoves : Run.MovesOn l (r₀.enter a) r)
    (ho : s.Lawful a o) (hs : s.model.DirectFrom a.rule → s.Settles a o) :
    Spec (fun r' => r' = r) (Session.leave a o)
      (fun _ _ r' => ((s.frameRegime l l).inside []).inv r' ∧ Run.MovesOn l r₀ r') s.Breaks := by
  obtain ⟨⟨hspots, hmemo⟩, hcollecting⟩ := hr
  refine .modify ?_
  rintro r' rfl
  have htail : r'.frames.tail.map Frame.spot = l := by rw [List.map_tail, hspots, List.tail_cons]
  split
  · refine ⟨⟨⟨htail, hmemo.erase⟩, hcollecting⟩, hmoves.leave.trans ?_⟩
    refine .except hal hmemo.not_finished fun b hab => ?_
    rw [getElem?_memo_erase, if_neg hab]
  · have hkept : s.MemoHolds l (r'.memo.insert a ⟨o, false⟩) :=
      .insert (fun b e hab hb => (hmemo b e hb).leave hab) ⟨ho, hv, nofun, fun _ => ⟨hal, hs⟩⟩
    refine ⟨⟨⟨htail, hkept⟩, hcollecting⟩, hmoves.leave.trans ?_⟩
    refine .except hal hmemo.not_finished fun b hab => ?_
    rw [getElem?_memo_insert, if_neg hab]

/-- Matching a rule in a frame of its own. -/
lemma keeps_matchInFrame (hal : a ∉ l)
    (hv : s.model.WellFormed → a.rule.index < s.model.ruleCount)
    {matchRule : RuleId → Nat → Walk Outcome} {collect : RuleId → Walk Phase}
    (hx : (s.growRegime l a).KeepsFrom (fun r => r.memo[a]? = none)
      (s.matchGrown matchRule collect a)
      fun o _ => s.Lawful a o ∧ (s.model.DirectFrom a.rule → s.Settles a o)) :
    ((s.frameRegime l l).inside []).KeepsFrom (fun r => r.memo[a]? = none)
      (s.matchInFrame matchRule collect a) fun o r => s.Answers l r a o := by
  rw [matchInFrame_eq]
  have hevents := (allowsEvents_frameRegime (s := s) (l := l) (k := l)).inside []
  refine (Regime.KeepsFrom.emit hevents trivial fun _ hm => hm).bind fun _ => ?_
  refine Spec.bind (A := fun r _ r' => r' = r.enter a) (.modify fun _ _ => rfl) fun r₀ _ hr₀ => ?_
  obtain ⟨⟨⟨hspots, hmemo⟩, hcollecting⟩, hm⟩ := hr₀
  have henter : (s.growRegime l a).inv (r₀.enter a) :=
    ⟨⟨by simp [Run.enter, hspots], hmemo.enter hm⟩, hcollecting⟩
  have hgrown : Spec (fun r => r = r₀.enter a) (s.matchGrown matchRule collect a)
      (fun _ o r => (s.growRegime l a).inv r ∧ Run.MovesOn l (r₀.enter a) r ∧
        s.Lawful a o ∧ (s.model.DirectFrom a.rule → s.Settles a o)) s.Breaks := by
    refine Spec.mono hx ?_ ?_
    · rintro r rfl
      exact ⟨henter, hm⟩
    · rintro r o r' rfl h
      exact h
  refine Spec.bind hgrown fun _ o _ => ?_
  -- outside the frame the walk has moved on from where the frame was entered
  refine Spec.bind (A := fun _ _ r => ((s.frameRegime l l).inside []).inv r ∧ Run.MovesOn l r₀ r)
    (fun r hr => ?_) fun r _ hr => ?_
  · obtain ⟨hinv, hmoves, ho, hs⟩ := hr
    exact leave_frameRegime hal hv hinv hmoves ho hs r rfl
  obtain ⟨-, -, ho, hs⟩ := hr
  refine Spec.bind (A := fun _ _ r => ((s.frameRegime l l).inside []).inv r ∧ Run.MovesOn l r₀ r)
    (.modify fun r' hr' => ?_) fun _ _ _ => ?_
  · have hevent := hevents r' (.exit a.rule o.matched o.stop o.phase) trivial hr'.1
    exact ⟨hevent.1, hr'.2.trans hevent.2⟩
  · exact .pure fun r' hr' => ⟨hr'.1, hr'.2, ho, fun hd => Or.inl ⟨hal, hs hd⟩⟩

end Session

end GrammarCompletion
