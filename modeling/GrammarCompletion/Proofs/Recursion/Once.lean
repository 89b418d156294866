/-
# Without left recursion

In a model without left recursion, a walk enters no rule twice at one position.  While the rule is
being matched, it could only be entered again behind nodes that derive the empty string, and that
would be left recursion.  Afterwards its result is kept.  Hence no frame is ever marked, every result
is kept when its frame is left, and none grows (`Session.StraightIn`).

So nothing that is there for left recursion is ever used.  `Session.matchOnce` visits rules without
it, and the walk does the same (`matchRule_eq_once`).
-/
import GrammarCompletion.Proofs.Limits.Rounds
import GrammarCompletion.Proofs.Offers.Walk
import GrammarCompletion.Proofs.Predictive.Completion
import GrammarCompletion.Proofs.Recursion.Fresh

namespace GrammarCompletion

open Walk Regime

/-! ## Entries -/

/-- The spot at which a rule is entered. -/
def Event.entered? : Event → Option Spot
  | enter r p => some ⟨r, p⟩
  | _ => none

/-- The spots at which rules were entered, the last one first. -/
def Run.entered (r : Run) : List Spot := r.events.filterMap Event.entered?

section

variable {e : Event} {l : List Event} {q : RuleId} {p : Nat}

lemma Event.entered?_eq_none (h : e.isFraming = false) : e.entered? = none := by
  cases e <;> first | rfl | cases h

lemma Event.entered?_eq_some_iff : e.entered? = some ⟨q, p⟩ ↔ e = .enter q p := by
  cases e <;> simp [entered?]

lemma Event.isSome_entered? : e.entered?.isSome = e.isEnter := by
  cases e <;> rfl

lemma length_entered : (l.filterMap Event.entered?).length = l.countP Event.isEnter := by
  rw [List.length_filterMap_eq_countP]
  exact List.countP_congr fun e _ => by rw [Event.isSome_entered?]

lemma count_entered : (l.filterMap Event.entered?).count ⟨q, p⟩ = l.count (.enter q p) := by
  rw [List.count_filterMap, List.count]
  exact List.countP_congr fun e _ => by simp [Event.entered?_eq_some_iff]

end

/-! ## Plans -/

/-- A plan is carried out alike if it asks for rules only where they are matched alike. -/
lemma Plan.Mirrors.run_congr {K : Regime} {Ask : Spot → Prop} {V : Spot → Outcome → Prop} {α : Type}
    {Q : α → α → Prop} {matchRule matchRule' : RuleId → Nat → Walk Outcome}
    {collect : RuleId → Walk Phase} {x : Plan α} {r : Run}
    (h : Plan.Mirrors (· = ·) Ask V Q x x) (hevents : K.AllowsEvents fun e => e.isFraming = false)
    (hoffer : ∀ t c, K.Keeps
      (modify fun r => { r with candidates := r.candidates.offerToken t c } : Walk Unit)
      fun _ _ => True)
    (hcollect : ∀ q, K.Keeps (collect q) fun _ _ => True)
    (hmatch : ∀ a, Ask a → K.Keeps (matchRule a.rule a.start) fun o _ => V a o)
    (hsame : ∀ a r, Ask a → K.inv r →
      matchRule a.rule a.start r = matchRule' a.rule a.start r)
    (hr : K.inv r) : x.run matchRule collect r = x.run matchRule' collect r := by
  induction x generalizing r with
  | done a => rfl
  | visit q p next ih =>
    cases h with
    | visit hp ha h =>
      have hvisit : (Plan.visit q p next).run matchRule collect r =
          (matchRule q p >>= fun o => (next o).run matchRule' collect) r :=
        (hmatch ⟨q, p⟩ ha).bind_congr hr fun o r' hr' ho => ih o (h o o ho ⟨rfl, rfl, rfl⟩) hr'
      rw [hvisit, run]
      simp only [Bind.bind, EStateM.bind, hsame ⟨q, p⟩ r ha hr]
  | gather q next ih =>
    cases h with
    | gather h => exact (hcollect q).bind_congr hr fun ph r' hr' _ => ih ph (h ph) hr'
  | offer t c next ih =>
    cases h with
    | offer h =>
      refine (Keeps.emit hevents rfl).bind_congr hr fun _ r' hr' _ => ?_
      exact (hoffer t c).bind_congr hr' fun _ r'' hr'' _ => ih h hr''
  | note e next ih =>
    cases h with
    | note he h =>
      have he := Event.isFraming_of_isProgress he
      exact (Keeps.emit hevents he).bind_congr hr fun _ r' hr' _ => ih h hr'

/-! ## Runs -/

/-- A run in which left recursion never mattered. -/
structure Run.Straight (s : Session) (r : Run) : Prop where
  /-- No rule was entered twice at one position. -/
  nodup : r.entered.Nodup
  /-- Rules of the model were entered, where the grammar sees a token and the caret is not reached. -/
  isOpen : ∀ a ∈ r.entered, a.rule.index < s.model.ruleCount ∧ s.stream.Visible a.start ∧
    s.reached a.start = false
  /-- No rule was found to be entered already. -/
  unguarded : ∀ q p, .leftRecursion q p ∉ r.events
  /-- No frame is marked. -/
  unmarked : ∀ f ∈ r.frames, f.recursed = false ∧ f.tainted = false

/-- The run after a frame was left and the result was kept. -/
def Run.keep (a : Spot) (o : Outcome) (r : Run) : Run :=
  { r with frames := r.frames.tail, memo := r.memo.insert a ⟨o, false⟩ }

namespace Session

/-- What every outcome of a rule at a visible position satisfies. -/
structure LawfulVisible (s : Session) (a : Spot) (o : Outcome) : Prop extends s.Lawful a o where
  visible : s.stream.Visible o.stop

/-- A run in which left recursion never mattered, inside frames at the spots `l`. -/
structure StraightIn (s : Session) (l : List Spot) (r : Run) : Prop extends r.Straight s where
  spots : r.frames.map Frame.spot = l
  /-- Results are kept when their rules were left, and do not grow. -/
  memo : ∀ a e, r.memo[a]? = some e → e.growing = false ∧ a ∉ l ∧ s.LawfulVisible a e.outcome
  /-- A rule that was entered is still being matched, or its result is kept. -/
  known : ∀ a ∈ r.entered, a ∈ l ∨ ∃ e, r.memo[a]? = some e

variable {s : Session} {l : List Spot} {a : Spot} {o : Outcome} {r r' : Run} {e : Event} {d : Nat}

namespace StraightIn

/-- Neither the fuel nor the candidates and the rules that are being collected from are looked at. -/
lemma of_eq (h : s.StraightIn l r) (hevents : r'.events = r.events) (hframes : r'.frames = r.frames)
    (hmemo : r'.memo = r.memo) : s.StraightIn l r' := by
  have hentered : r'.entered = r.entered := by rw [Run.entered, Run.entered, hevents]
  refine ⟨⟨?_, ?_, ?_, ?_⟩, ?_, ?_, ?_⟩
  · exact hentered ▸ h.nodup
  · exact hentered ▸ h.isOpen
  · exact hevents ▸ h.unguarded
  · exact hframes ▸ h.unmarked
  · exact hframes ▸ h.spots
  · exact hmemo ▸ h.memo
  · exact hentered ▸ hmemo ▸ h.known

/-- An event that neither enters a rule nor finds one to be entered already. -/
lemma record (h : s.StraightIn l r) (he : e.entered? = none)
    (hguard : ∀ q p, e ≠ .leftRecursion q p) : s.StraightIn l (r.record e) := by
  have hentered : (r.record e).entered = r.entered := List.filterMap_cons_none he
  refine ⟨⟨?_, ?_, fun q p hmem => ?_, h.unmarked⟩, h.spots, h.memo, ?_⟩
  · exact hentered ▸ h.nodup
  · exact hentered ▸ h.isOpen
  · exact (List.mem_cons.1 hmem).elim (fun heq => hguard q p heq.symm) (h.unguarded q p)
  · exact hentered ▸ h.known

/-- A rule is entered that has no result and is not being matched. -/
lemma enter (h : s.StraightIn l r) (hal : a ∉ l) (hm : r.memo[a]? = none)
    (hopen : a.rule.index < s.model.ruleCount ∧ s.stream.Visible a.start ∧
      s.reached a.start = false) :
    s.StraightIn (a :: l) ((r.record (.enter a.rule a.start)).enter a) := by
  have hentered : ((r.record (.enter a.rule a.start)).enter a).entered = a :: r.entered := rfl
  refine ⟨⟨?_, ?_, fun q p hmem => ?_, ?_⟩, ?_, fun b e hb => ?_, ?_⟩
  · refine hentered ▸ List.nodup_cons.2 ⟨fun hmem => ?_, h.nodup⟩
    rcases h.known a hmem with hmem | ⟨e, he⟩
    · exact hal hmem
    · simp [hm] at he
  · exact hentered ▸ List.forall_mem_cons.2 ⟨hopen, h.isOpen⟩
  · exact (List.mem_cons.1 hmem).elim nofun (h.unguarded q p)
  · exact List.forall_mem_cons.2 ⟨⟨rfl, rfl⟩, h.unmarked⟩
  · exact congrArg (a :: ·) h.spots
  · obtain ⟨hgrowing, hbl, hlawful⟩ := h.memo b e hb
    refine ⟨hgrowing, fun hmem => ?_, hlawful⟩
    rcases List.mem_cons.1 hmem with rfl | hmem
    · exact absurd (hm.symm.trans hb) (by simp)
    · exact hbl hmem
  · refine hentered ▸ List.forall_mem_cons.2 ⟨Or.inl List.mem_cons_self, fun b hb => ?_⟩
    exact (h.known b hb).imp_left (List.mem_cons_of_mem a)

/-- The innermost frame is left. -/
lemma leave (h : s.StraightIn (a :: l) r) (hal : a ∉ l) (ho : s.LawfulVisible a o) :
    s.StraightIn l (r.keep a o) := by
  refine ⟨⟨h.nodup, h.isOpen, h.unguarded, ?_⟩, ?_, ?_, fun b hb => ?_⟩
  · exact fun f hf => h.unmarked f (List.mem_of_mem_tail hf)
  · rw [Run.keep, List.map_tail, h.spots, List.tail_cons]
  · refine forall_memo_insert (fun b e _ hb => ?_) ⟨rfl, hal, ho⟩
    obtain ⟨hgrowing, hbl, hlawful⟩ := h.memo b e hb
    exact ⟨hgrowing, fun hmem => hbl (List.mem_cons_of_mem a hmem), hlawful⟩
  · by_cases hab : a = b
    · exact Or.inr ⟨_, by rw [Run.keep, getElem?_memo_insert, if_pos hab]⟩
    · refine (h.known b hb).imp (fun hmem => ?_) fun hmem => ?_
      · exact (List.mem_cons.1 hmem).resolve_left fun hba => hab hba.symm
      · rwa [Run.keep, getElem?_memo_insert, if_neg hab]

lemma start (s : Session) : s.StraightIn [] s.start := by
  refine ⟨⟨List.nodup_nil, nofun, nofun, nofun⟩, rfl, fun a e he => ?_, nofun⟩
  simp [Session.start] at he

end StraightIn

/-- The regime of walks without left recursion, inside frames at the spots `l`. -/
def straightRegime (s : Session) (l : List Spot) : Regime where
  inv := s.StraightIn l
  later _ _ := True
  fault _ := Run.Straight s
  refl _ := trivial
  trans _ _ := trivial

lemma collecting_straightRegime :
    (s.straightRegime l).Collecting s (fun _ _ _ => True) fun _ _ _ => True where
  events _ e he hr := by
    refine ⟨hr.record (Event.entered?_eq_none he) fun q p heq => ?_, trivial⟩
    rw [heq] at he
    cases he
  fuel := ⟨fun _ _ hr => ⟨hr.of_eq rfl rfl rfl, trivial⟩, fun _ hr => hr.toStraight⟩
  stack _ _ hr := ⟨hr.of_eq rfl rfl rfl, trivial⟩
  offerNode _ _ _ _ _ _ hr := ⟨hr.of_eq rfl rfl rfl, trivial⟩
  offerSet _ _ _ _ _ hr := ⟨hr.of_eq rfl rfl rfl, trivial⟩
  offerRule _ _ _ hr := ⟨hr.of_eq rfl rfl rfl, trivial⟩
  skip _ _ := trivial
  next _ _ _ := trivial
  call _ _ := trivial
  enter _ _ _ _ := trivial
  defect _ _ _ hr := hr.toStraight
  limit _ _ _ hr := hr.toStraight

/-! ## Bodies -/

/-- Inside a frame, rules are asked for at visible positions. -/
lemma guide_visible (hq : s.reached a.start = false) :
    s.Guide s.LawfulVisible (fun nodes p => s.Within a nodes p ∧ s.stream.Visible p)
      fun b => s.AskedWithin a b ∧ s.stream.Visible b.start where
  ask h hn := ⟨(guide_within hq).ask h.1 hn, h.2⟩
  skip h hr := ⟨(guide_within hq).skip h.1 hr, h.2⟩
  le h hn := (guide_within hq).le h.1 (hn.mono fun _ _ ho => ho.toLawful)
  stay h hn := (guide_within hq).stay h.1 (hn.mono fun _ _ ho => ho.toLawful)
  next h hn hc := by
    have hnext := (guide_within hq).next h.1 (hn.mono fun _ _ ho => ho.toLawful) hc
    have hv := hn.stop (G := s.stream.Visible) (fun _ hp => hp.advance) (fun _ _ ho => ho.visible) h.2
    exact ⟨⟨hnext.1, hv⟩, fun hm => ⟨hnext.2 hm, hv⟩⟩

lemma BodyMatches.lawfulVisible (h : s.BodyMatches s.LawfulVisible a o)
    (ha : s.stream.Visible a.start) : s.LawfulVisible a o :=
  ⟨(h.mono fun _ _ ho => ho.toLawful).lawful,
    h.stop (G := s.stream.Visible) (fun _ hp => hp.advance) (fun _ _ ho => ho.visible) ha⟩

/-- What is asked for inside the frame of `a` is entered there. -/
lemma AskedWithin.entered {b : Spot} (hb : s.AskedWithin a b) (ha : s.Entered l (d + 1) a)
    (hq : s.reached a.start = false) (hal : a ∉ l) : s.Entered (a :: l) d b := by
  obtain ⟨n, rest, hwithin, hn⟩ := hb
  exact hwithin.entered ha hq hal hn

section

variable {matchRule matchRule' : RuleId → Nat → Walk Outcome} {collect : RuleId → Walk Phase}

/-- The rules that are asked for inside the frame of `a` stay within its regime. -/
def Answering (s : Session) (l : List Spot) (a : Spot) (matchRule : RuleId → Nat → Walk Outcome) :
    Prop :=
  ∀ b, s.AskedWithin a b ∧ s.stream.Visible b.start →
    ((s.straightRegime (a :: l)).inside []).Keeps (matchRule b.rule b.start)
      fun o _ => s.LawfulVisible b o

/-- Matching a body stays within the regime of its frame. -/
lemma keeps_straightBody (hv : s.stream.Visible a.start) (hq : s.reached a.start = false)
    (hmatch : s.Answering l a matchRule) :
    ((s.straightRegime (a :: l)).inside []).Keeps (s.matchBody matchRule (s.collectRule d) a)
      fun o _ => s.LawfulVisible a o := by
  have hmatching := (guide_visible hq).matching
    ((collecting_straightRegime (s := s) (l := a :: l)).events.inside [])
  refine (hmatching.body ?_ ?_ ?_ ?_).mono fun o _ _ ho => ho.lawfulVisible hv
  · exact fun n rest p id htodo hn => hmatch ⟨id, p⟩ ((guide_visible hq).ask htodo hn)
  · exact fun nodes _ => collecting_straightRegime.collectNodes trivial
  · exact fun list hb q hmem => ⟨.entry hb hmem, hv⟩
  · exact fun _ _ r hr => hr.1.toStraight

/-- Bodies are matched alike if the rules inside them are. -/
lemma matchBody_congr (hv : s.stream.Visible a.start) (hq : s.reached a.start = false)
    (hmatch : s.Answering l a matchRule)
    (hsame : ∀ b r, s.AskedWithin a b ∧ s.stream.Visible b.start →
      ((s.straightRegime (a :: l)).inside []).inv r →
        matchRule b.rule b.start r = matchRule' b.rule b.start r)
    (hr : ((s.straightRegime (a :: l)).inside []).inv r) :
    s.matchBody matchRule (s.collectRule d) a r = s.matchBody matchRule' (s.collectRule d) a r := by
  cases hb : s.model.body a.rule with
  | error e =>
    rw [matchBody, matchBody, hb]
    rfl
  | ok body =>
    rw [matchBody_eq_run a hb, matchBody_eq_run a hb]
    have hplan : Plan.Mirrors (· = ·) (fun b => s.AskedWithin a b ∧ s.stream.Visible b.start)
        s.LawfulVisible (Outcome.Mirrors (· = ·)) (Plan.matchBody s a.start body)
        (Plan.matchBody s a.start body) := by
      refine (Mirror.refl s).matchBody (guide_visible hq) ?_ rfl fun _ => ⟨rfl, rfl, rfl⟩
      rintro list rfl q hmem
      exact ⟨.entry hb hmem, hv⟩
    have hcollecting := collecting_straightRegime (s := s) (l := a :: l)
    refine hplan.run_congr (hcollecting.events.inside [])
      (fun t c => Collecting.modifyCandidates (f := (·.offerToken t c)) ?_) (fun q => ?_) hmatch hsame hr
    · exact fun r hr => ⟨hr.of_eq rfl rfl rfl, trivial⟩
    · exact (hcollecting.rule trivial).mono fun _ _ _ _ => trivial

end

/-! ## Frames -/

/-- Matches a rule in a frame of its own: its body is matched once, and the result is kept. -/
def matchInFrameOnce (s : Session) (matchRule : RuleId → Nat → Walk Outcome)
    (collect : RuleId → Walk Phase) (a : Spot) : Walk Outcome := do
  Walk.emit (.enter a.rule a.start)
  modify (Run.enter a)
  let o ← s.matchBody matchRule collect a
  modify (Run.keep a o)
  Walk.emit (.exit a.rule o.matched o.stop o.phase)
  return o

lemma head?_any_unmarked (h : r.Straight s) :
    r.frames.head?.any Frame.recursed = false ∧ r.frames.head?.any Frame.tainted = false := by
  cases hf : r.frames with
  | nil => exact ⟨rfl, rfl⟩
  | cons f rest => exact h.unmarked f (hf ▸ List.mem_cons_self)

section

variable {matchRule matchRule' : RuleId → Nat → Walk Outcome} {collect : RuleId → Walk Phase}

/-- Where no frame is marked, nothing grows and every result is kept. -/
lemma matchInFrame_eq_once {A : Outcome → Run → Prop}
    (hbody : ((s.straightRegime (a :: l)).inside []).Keeps (s.matchBody matchRule collect a) A)
    (hsame : ∀ r, ((s.straightRegime (a :: l)).inside []).inv r →
      s.matchBody matchRule collect a r = s.matchBody matchRule' collect a r)
    (hr : ((s.straightRegime (a :: l)).inside []).inv
      ((r.record (.enter a.rule a.start)).enter a)) :
    s.matchInFrame matchRule collect a r = s.matchInFrameOnce matchRule' collect a r := by
  have honce : s.matchInFrameOnce matchRule' collect a r = (do
      let o ← s.matchBody matchRule collect a
      modify (Run.keep a o)
      Walk.emit (.exit a.rule o.matched o.stop o.phase)
      return o : Walk Outcome) ((r.record (.enter a.rule a.start)).enter a) := by
    simp only [Bind.bind, EStateM.bind, hsame _ hr]
    rfl
  rw [honce, matchInFrame_eq, matchGrown, bind_assoc]
  refine hbody.bind_congr hr fun o r' hr' _ => ?_
  obtain ⟨hrecursed, htainted⟩ := head?_any_unmarked hr'.1.toStraight
  have hleave : leave a o r' = (modify (Run.keep a o) : Walk Unit) r' := by
    simp [leave, Run.keep, htainted, modify, modifyGet, MonadStateOf.modifyGet, EStateM.modifyGet]
  rw [bind_assoc]
  change ((if r'.frames.head?.any Frame.recursed = true then
    grow (s.matchBody matchRule collect a) a (s.stream.size + 1 - o.stop) o else pure o) >>= _) r' = _
  rw [hrecursed, if_neg Bool.false_ne_true, pure_bind]
  simp only [Bind.bind, EStateM.bind, hleave]

/-- Matching a rule in a frame of its own leaves its result behind. -/
lemma keeps_straightFrame (hal : a ∉ l)
    (hopen : a.rule.index < s.model.ruleCount ∧ s.stream.Visible a.start ∧
      s.reached a.start = false)
    (hbody : ((s.straightRegime (a :: l)).inside []).Keeps (s.matchBody matchRule collect a)
      fun o _ => s.LawfulVisible a o) :
    ((s.straightRegime l).inside []).KeepsFrom (fun r => r.memo[a]? = none)
      (s.matchInFrame matchRule collect a) fun o _ => s.LawfulVisible a o := by
  rintro r ⟨⟨hr, hcollecting⟩, hm⟩
  have henter : ((s.straightRegime (a :: l)).inside []).inv
      ((r.record (.enter a.rule a.start)).enter a) := ⟨hr.enter hal hm hopen, hcollecting⟩
  rw [matchInFrame_eq_once hbody (fun _ _ => rfl) henter]
  have hrest : Spec ((s.straightRegime (a :: l)).inside []).inv (do
      let o ← s.matchBody matchRule collect a
      modify (Run.keep a o)
      Walk.emit (.exit a.rule o.matched o.stop o.phase)
      return o : Walk Outcome)
      (fun _ o r' => ((s.straightRegime l).inside []).inv r' ∧ True ∧ s.LawfulVisible a o)
      fun _ => Run.Straight s := by
    refine Spec.bind hbody fun _ o _ => ?_
    rintro r' ⟨⟨hr', hcollecting'⟩, -, ho⟩
    exact ⟨⟨(hr'.leave hal ho).record rfl fun _ _ => nofun, hcollecting'⟩, trivial, ho⟩
  exact hrest _ henter

end

/-! ## Visits -/

/-- A rule that is entered is not being matched there, without left recursion. -/
lemma Entered.not_mem (h : s.Entered l d a) (hno : ∀ q, ¬ s.model.LeftReach q q) : a ∉ l := by
  intro hal
  exact hno a.rule (((List.pairwise_cons.1 h.linked).1 a hal).2 rfl)

/-- **A visit of a rule stays within the regime**, without left recursion. -/
theorem visiting_straightRegime (hwf : s.model.WellFormed) (hno : ∀ q, ¬ s.model.LeftReach q q) :
    Regime.Visiting s (fun l => (s.straightRegime l).inside [])
      (fun l d a => s.Entered l d a ∧ s.stream.Visible a.start)
      fun _ _ a o => s.LawfulVisible a o where
  events _ := collecting_straightRegime.events.inside []
  fuel _ := collecting_straightRegime.fuel.inside []
  collect h hq := (collecting_straightRegime.rule trivial).mono fun _ _ _ _ =>
    ⟨⟨lawfulFor_of_reached (Nat.le_refl _) hq, fun _ => rfl⟩, h.2⟩
  known _ _ hr hm := (hr.1.memo _ _ hm).2.2
  unfinished _ _ hr hm := absurd (hr.1.memo _ _ hm).1 (Bool.false_ne_true ·.symm)
  guard h _ hr _ hmem := absurd (hr.1.spots ▸ hmem) (h.1.not_mem hno)
  limit _ _ hr _ := hr.1.toStraight
  frame {l d a} h hq ih := by
    have hal := h.1.not_mem hno
    have hbody := keeps_straightBody (d := d) (l := l) h.2 hq
      fun b hb => ih (a :: l) b ⟨hb.1.entered h.1 hq hal, hb.2⟩
    refine (keeps_straightFrame hal ⟨?_, h.2, hq⟩ hbody).weaken fun r hr => hr.1
    exact h.1.valid hwf a List.mem_cons_self

variable (s) in
/-- Matches a rule at a position, where nothing is done about left recursion: a rule that has no
result is matched in a frame of its own, and every result is used as it is. -/
def matchOnce : (depth : Nat) → RuleId → (start : Nat) → Walk Outcome
  | depth, rule, start => do
    Walk.burn s.limits.fuel
    if s.reached start then
      Walk.emit (.caret start)
      let phase ← s.collectRule depth rule
      return ⟨false, start, phase⟩
    else
      match (← get).memo[(⟨rule, start⟩ : Spot)]? with
      | some memo =>
        Walk.emit (.memoHit rule start)
        return memo.outcome
      | none =>
        match depth with
        | 0 => throw (.recursionLimit s.limits.depth)
        | depth + 1 => s.matchInFrameOnce (matchOnce depth) (s.collectRule depth) ⟨rule, start⟩

/-- **Nothing that is there for left recursion is used** in a visit of a rule, without left
recursion. -/
theorem matchRule_eq_once (hwf : s.model.WellFormed) (hno : ∀ q, ¬ s.model.LeftReach q q)
    (h : s.Entered l d a) (hv : s.stream.Visible a.start)
    (hr : ((s.straightRegime l).inside []).inv r) :
    s.matchRule d a.rule a.start r = s.matchOnce d a.rule a.start r := by
  have hvisiting := visiting_straightRegime hwf hno
  induction d using Nat.strong_induction_on generalizing l a r with
  | _ d ih =>
    rw [matchRule.eq_def, matchOnce.eq_def]
    refine (Keeps.burn (hvisiting.fuel l)).bind_congr hr fun _ r hr _ => ?_
    cases hq : s.reached a.start with
    | true => rfl
    | false =>
      simp only [Bool.false_eq_true, if_false]
      have hget : ∀ f : Run → Walk Outcome, (get >>= f) r = f r r := fun _ => rfl
      rw [hget, hget]
      cases hm : r.memo[a]? with
      | some e =>
        -- no result grows
        have hgrowing := (hr.1.memo a e hm).1
        simp only [hgrowing, Bool.false_eq_true, if_false]
      | none =>
        have hal := h.not_mem hno
        have hany : (r.frames.any fun f => f.spot = a) = false := by
          rw [← hr.1.spots] at hal
          simpa using hal
        simp only [hany, Bool.false_eq_true, if_false]
        cases d with
        | zero => rfl
        | succ d =>
          have hanswering : s.Answering l a (s.matchRule d) :=
            fun b hb => hvisiting.rule ⟨hb.1.entered h hq hal, hb.2⟩
          refine matchInFrame_eq_once (keeps_straightBody hv hq hanswering) (fun r hr => ?_)
            ⟨hr.1.enter hal hm ⟨h.valid hwf a List.mem_cons_self, hv, hq⟩, hr.2⟩
          refine matchBody_congr hv hq hanswering (fun b r hb hr => ?_) hr
          exact ih d (Nat.lt_succ_self d) (hb.1.entered h hq hal) hb.2 hr

/-! ## Walks -/

/-- The positions at which the grammar sees a token and the caret is not reached. -/
def openPositions (s : Session) : List Nat :=
  (List.range s.stream.size).filter fun p => !(s.stream.token p).isHidden && !s.reached p

variable {root : RuleId} {name : String}

lemma entered_root (hroot : root.index < s.model.ruleCount) :
    s.Entered [] s.limits.depth ⟨root, s.stream.skipHidden 0⟩ :=
  ⟨List.pairwise_singleton _ _, List.forall_mem_nil _, List.nodup_nil, rfl,
    fun _ => by simpa using hroot⟩

/-- A walk without left recursion leaves a run in which it never mattered. -/
lemma straight_of_walk (hwf : s.model.WellFormed) (hno : ∀ q, ¬ s.model.LeftReach q q)
    (hroot : root.index < s.model.ruleCount)
    (h : (∃ o, s.walk root = .ok o r) ∨ ∃ e, s.walk root = .error e r) : r.Straight s := by
  have hvisible := TokenStream.visible_skipHidden (s := s.stream) (Nat.zero_le _)
  have hkeeps := (visiting_straightRegime hwf hno).rule ⟨entered_root hroot, hvisible⟩
  have hstart : ((s.straightRegime []).inside []).inv s.start := ⟨.start s, rfl⟩
  rcases h with ⟨o, h⟩ | ⟨e, h⟩
  · exact (hkeeps.ok hstart h).1.1.toStraight
  · exact hkeeps.error hstart h

/-- The events of a request are those of a run in which left recursion never mattered. -/
lemma exists_straight (hwf : s.model.WellFormed) (hno : ∀ q, ¬ s.model.LeftReach q q)
    (name : String) : ∃ r : Run, r.Straight s ∧ (s.completeTraced name).2 = r.events.reverse := by
  cases hroot : s.model.ruleId? name with
  | none => exact ⟨s.start, (StraightIn.start s).toStraight, by simp [completeTraced, hroot, start]⟩
  | some root =>
    have hindex := index_lt_of_ruleId? hroot
    cases hw : s.walk root with
    | ok o r =>
      exact ⟨r, straight_of_walk hwf hno hindex (Or.inl ⟨o, hw⟩),
        by simp [completeTraced, hroot, hw]⟩
    | error e r =>
      exact ⟨r, straight_of_walk hwf hno hindex (Or.inr ⟨e, hw⟩),
        by simp [completeTraced, hroot, hw]⟩

/-- There are at most as many entries as there are rules at the positions with input before the
caret. -/
lemma length_entered_le (h : r.Straight s) :
    r.entered.length ≤ s.model.ruleCount * s.openPositions.length := by
  refine length_spots_le h.nodup (fun a ha => ?_) fun a ha => (h.isOpen a ha).1
  obtain ⟨-, hv, hq⟩ := h.isOpen a ha
  have hsize := TokenStream.lt_size_of_not_reached hq
  exact List.mem_filter.2 ⟨List.mem_range.2 hsize, by simp [hv.2 hsize, hq]⟩

/-- No rule is matched twice at one position. -/
structure EntersOnce (s : Session) (name : String) : Prop where
  /-- No rule is entered twice at one position. -/
  once : ∀ q p, (s.completeTraced name).2.count (.enter q p) ≤ 1
  /-- No rule is found to be entered already. -/
  unguarded : ∀ q p, .leftRecursion q p ∉ (s.completeTraced name).2
  /-- At no moment is a frame marked. -/
  unmarked : ∀ root, s.model.ruleId? name = some root → ∀ r, s.Passes root r →
    ∀ f ∈ r.frames, f.recursed = false ∧ f.tainted = false
  /-- Each rule that is entered has its body matched once, and its result is kept. -/
  single : ∀ root, s.model.ruleId? name = some root →
    s.walk root = (s.matchOnce s.limits.depth root (s.stream.skipHidden 0)).run s.start
  /-- There are at most as many entries as there are rules at positions with input before the
  caret. -/
  entries : (s.completeTraced name).2.countP Event.isEnter ≤
    s.model.ruleCount * s.openPositions.length

/-- **No rule is matched twice at one position**, without left recursion. -/
theorem enters_once (hwf : s.model.WellFormed) (hno : ∀ q, ¬ s.model.LeftReach q q)
    (name : String) : s.EntersOnce name := by
  obtain ⟨r, hr, hevents⟩ := exists_straight hwf hno name
  refine ⟨fun q p => ?_, fun q p hmem => ?_, fun root hroot r hpasses => ?_, fun root hroot => ?_, ?_⟩
  · rw [hevents, List.count_reverse, ← count_entered]
    exact List.nodup_iff_count_le_one.1 hr.nodup _
  · rw [hevents, List.mem_reverse] at hmem
    exact hr.unguarded q p hmem
  · obtain ⟨n, -, hend⟩ := hpasses
    have hstraight := straight_of_walk (s := s.withLimits ⟨n, s.limits.depth⟩) hwf hno
      (index_lt_of_ruleId? hroot) hend
    exact hstraight.unmarked
  · exact matchRule_eq_once hwf hno (entered_root (index_lt_of_ruleId? hroot))
      (TokenStream.visible_skipHidden (Nat.zero_le _)) ⟨.start s, rfl⟩
  · rw [hevents, List.countP_reverse, ← length_entered]
    exact length_entered_le hr

/-- Over a chain of numbers two rules are entered, at the first two of its positions. -/
theorem enters_once_chains :
    let s := onLine chains [⟨1⟩, ⟨2⟩, ⟨1⟩]
    s.model.WellFormed ∧ (∀ q, ¬ s.model.LeftReach q q) ∧
      (s.completeTraced "chain").2.countP Event.isEnter = 2 ∧ s.openPositions = [0, 1, 2] ∧
      s.EntersOnce "chain" := by
  have hwf : chains.WellFormed := by decide
  have hcount : ((onLine chains [⟨1⟩, ⟨2⟩, ⟨1⟩]).completeTraced "chain").2.countP Event.isEnter = 2 := by
    cbv
  exact ⟨hwf, not_leftReach_chains, hcount, by decide, enters_once hwf not_leftReach_chains "chain"⟩

end Session

end GrammarCompletion
