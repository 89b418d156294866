/-
# Loops end on their own

A walk has two loops, the repetition of a node and the growth of a left-recursive rule.  Both are
given a count of rounds, so that they are functions, and both return when the count is used up.  But
neither is ended by it: a repetition goes on only after it has consumed input, and a growth only
after the result got longer, and no outcome gets past the end of the input (`Session.LawfulIn`).

To say so of whole walks, this file has the walk once more, with loops that know no count of their
own.  Each of them may take as many rounds as the walk is given, and it fails if it would go on
after the last one (`Session.visitWithin`).  With more rounds than tokens no loop fails, and the
visit is the same (`visitsLast`); so is the answer (`completeWithin_eq`).

This needs that what is remembered are outcomes that rules can have, which every visit of a rule
leaves true (`keeps_visit`).
-/
import GrammarCompletion.Proofs.Invariance.Hidden

namespace GrammarCompletion

open Walk

namespace Walk.Regime

variable {K : Regime} {α β : Type}

section

variable {A : α → Run → Prop} {x : Walk α} {r : Run}

/-- Two parts of walks that begin alike do the same if they go on alike. -/
lemma Keeps.bind_congr {f g : α → Walk β} (hx : K.Keeps x A) (hr : K.inv r)
    (h : ∀ a r', K.inv r' → A a r' → f a r' = g a r') : (x >>= f) r = (x >>= g) r := by
  simp only [Bind.bind, EStateM.bind]
  cases hxr : x r with
  | error e r' => rfl
  | ok a r' =>
    obtain ⟨hinv, -, ha⟩ := hx.ok hr hxr
    exact h a r' hinv ha

end

/-! ## Walks that may fail to have a result -/

/-- Within a regime, a part of a walk that may fail does not, and does the same as a part that
cannot. -/
def Lasts (K : Regime) (x : OptionT Walk α) (y : Walk α) : Prop :=
  ∀ r, K.inv r → x.run r = (some <$> y : Walk (Option α)) r

namespace Lasts

variable {x : OptionT Walk α} {y : Walk α}

lemma pure (a : α) : K.Lasts (Pure.pure a) (Pure.pure a) :=
  fun _ _ => rfl

lemma lift (y : Walk α) : K.Lasts (liftM y) y :=
  fun _ _ => rfl

/-- Two steps, of which the second one starts from the runs that the first one can leave. -/
lemma step {f : α → OptionT Walk β} {g : α → Walk β} {r : Run} (hx : K.Lasts x y) (hr : K.inv r)
    (hf : ∀ a r', y r = .ok a r' → (f a).run r' = (some <$> g a : Walk (Option β)) r') :
    (x >>= f).run r = (some <$> (y >>= g) : Walk (Option β)) r := by
  have hstep := hx r hr
  rw [OptionT.run_bind]
  simp only [Option.elimM, Bind.bind, EStateM.bind, Functor.map, EStateM.map] at hstep ⊢
  rw [hstep]
  cases hyr : y r with
  | error e r' => rfl
  | ok a r' => exact hf a r' hyr

lemma bind {A : α → Prop} {f : α → OptionT Walk β} {g : α → Walk β} (hx : K.Lasts x y)
    (hy : K.Keeps y fun a _ => A a) (hf : ∀ a, A a → K.Lasts (f a) (g a)) :
    K.Lasts (x >>= f) (y >>= g) := by
  refine fun r hr => hx.step hr fun a r' hyr => ?_
  obtain ⟨hinv, -, ha⟩ := hy.ok hr hyr
  exact hf a ha r' hinv

lemma map (hx : K.Lasts x y) (g : α → β) :
    K.Lasts (x >>= fun a => Pure.pure (g a)) (y >>= fun a => Pure.pure (g a)) :=
  fun _ hr => hx.step hr fun _ _ _ => rfl

/-- What is done after a step that cannot fail. -/
lemma lift_bind {A : α → Prop} {f : α → OptionT Walk β} {g : α → Walk β}
    (hy : K.Keeps y fun a _ => A a) (hf : ∀ a, A a → K.Lasts (f a) (g a)) :
    K.Lasts (liftM y >>= f) (y >>= g) :=
  (lift y).bind hy hf

lemma ite {c : Prop} [Decidable c] {x' : OptionT Walk α} {y' : Walk α} (hx : c → K.Lasts x y)
    (hx' : ¬ c → K.Lasts x' y') : K.Lasts (if c then x else x') (if c then y else y') := by
  split
  · next hc => exact hx hc
  · next hc => exact hx' hc

lemma get {f : Run → OptionT Walk α} {g : Run → Walk α}
    (h : ∀ r, K.inv r → K.Lasts (f r) (g r)) :
    K.Lasts (MonadState.get >>= f) (MonadState.get >>= g) :=
  fun r hr => h r hr r hr

end Lasts

end Walk.Regime

namespace Session

/-! ## A walk whose loops fail when their rounds are used up -/

section

variable (s : Session) (rounds : Nat)

/-- Matches one occurrence of a node, given how to match a rule. -/
def nodeWithin (visit : RuleId → Nat → OptionT Walk Outcome) (n : Node RuleId) (p : Nat) :
    OptionT Walk Outcome :=
  match n.symbol with
  | .token id => return s.matchToken n.any id p
  | .rule id => visit id p

/-- Matches further occurrences of a node from a position on, and fails if `count` rounds do not
bring this to an end. -/
def repeatsWithin (visit : RuleId → Nat → OptionT Walk Outcome) (collect : RuleId → Walk Phase)
    (n : Node RuleId) (rest : List (Node RuleId)) :
    (count : Nat) → (p : Nat) → OptionT Walk Continuation
  | 0, _ => failure
  | count + 1, p =>
    if s.stream.atEnd p then return .next p
    else do
      let o ← s.nodeWithin visit n p
      if o.phase = .pending then
        let phase ← s.collectBehind collect n rest
        return .finished ⟨skippable rest, o.stop, phase⟩
      else if !o.matched then return .next o.stop
      else if n.isTerminal && s.reached o.stop then
        let phase ← s.collectAtCaret collect n rest o.stop
        return .finished ⟨skippable rest, o.stop, phase⟩
      else if o.stop = p then return .next p
      else repeatsWithin visit collect n rest count o.stop

/-- Matches nodes in a row from a position on. -/
def nodesWithin (visit : RuleId → Nat → OptionT Walk Outcome) (collect : RuleId → Walk Phase) :
    List (Node RuleId) → (p : Nat) → OptionT Walk Outcome
  | [], p => return ⟨true, p, .matching⟩
  | n :: rest, p => do
    let o ← s.nodeWithin visit n p
    if o.phase = .pending then
      let phase ← s.collectBehind collect n rest
      return ⟨o.matched && skippable rest, o.stop, phase⟩
    else if !o.matched then
      if n.isRequired then return ⟨false, o.stop, .matching⟩
      else nodesWithin visit collect rest o.stop
    else if s.reached o.stop then
      let phase ← s.collectAtCaret collect n rest o.stop
      return ⟨skippable rest, o.stop, phase⟩
    else if n.isMultiple then
      match ← s.repeatsWithin visit collect n rest rounds o.stop with
      | .finished o => return o
      | .next p => nodesWithin visit collect rest p
    else nodesWithin visit collect rest o.stop

/-- Tries the alternatives of a rule, the first of which has index `i`, from a position on. -/
def sequencesWithin (visit : RuleId → Nat → OptionT Walk Outcome) (collect : RuleId → Walk Phase)
    (start : Nat) : (i : Nat) → Tally → List (Sequence RuleId) → OptionT Walk Tally
  | _, t, [] => return t
  | i, t, q :: rest => do
    let o ← s.nodesWithin rounds visit collect q.nodes start
    Walk.emit (.alternative i o.matched o.stop)
    sequencesWithin visit collect start (i + 1) (t.add o) rest

/-- Matches the body of a rule at a spot. -/
def bodyWithin (visit : RuleId → Nat → OptionT Walk Outcome) (collect : RuleId → Walk Phase)
    (a : Spot) : OptionT Walk Outcome := do
  match ← (Walk.ofExcept (s.model.body a.rule) : Walk (RuleBody RuleId)) with
  | .tokenSet tokens => return s.matchTokenSet tokens a.start
  | .sequences list =>
    let t ← s.sequencesWithin rounds visit collect a.start 0 {} list
    return t.outcome a.start

/-- Matches the body of a left-recursive rule again, with the best result so far in place of the
inner one, while the result gets longer, and fails if `count` rounds do not bring this to an end. -/
def growWithin (body : OptionT Walk Outcome) (a : Spot) :
    (count : Nat) → (best : Outcome) → OptionT Walk Outcome
  | 0, _ => failure
  | count + 1, best => do
    modify fun r => { r with memo := r.memo.insert a ⟨best, true⟩ }
    let o ← body
    if o.isUsable && best.stop < o.stop then growWithin body a count o else return best

/-- What a rule is matched to in its frame. -/
def grownWithin (visit : RuleId → Nat → OptionT Walk Outcome) (collect : RuleId → Walk Phase)
    (a : Spot) : OptionT Walk Outcome := do
  let seed ← s.bodyWithin rounds visit collect a
  if (← get).frames.head?.any Frame.recursed then
    growWithin (s.bodyWithin rounds visit collect a) a rounds seed
  else return seed

/-- Matches a rule in a frame of its own. -/
def frameWithin (visit : RuleId → Nat → OptionT Walk Outcome) (collect : RuleId → Walk Phase)
    (a : Spot) : OptionT Walk Outcome := do
  Walk.emit (.enter a.rule a.start)
  modify (Run.enter a)
  let o ← s.grownWithin rounds visit collect a
  leave a o
  Walk.emit (.exit a.rule o.matched o.stop o.phase)
  return o

/-- Matches a rule at a position, and fails if a loop does not end within so many rounds. -/
def visitWithin : (depth : Nat) → RuleId → (start : Nat) → OptionT Walk Outcome
  | depth, rule, start => do
    Walk.burn s.limits.fuel
    if s.reached start then
      Walk.emit (.caret start)
      let phase ← s.collectRule depth rule
      return ⟨false, start, phase⟩
    else
      let r ← get
      match r.memo[(⟨rule, start⟩ : Spot)]? with
      | some memo =>
        Walk.emit (.memoHit rule start)
        if memo.growing then markRecursion ⟨rule, start⟩
        return memo.outcome
      | none =>
        if r.frames.any fun f => f.spot = ⟨rule, start⟩ then
          Walk.emit (.leftRecursion rule start)
          markRecursion ⟨rule, start⟩
          return ⟨false, start, .matching⟩
        else
          match depth with
          | 0 => throwThe CompletionError (.recursionLimit s.limits.depth)
          | depth + 1 =>
            s.frameWithin rounds (visitWithin depth) (s.collectRule depth) ⟨rule, start⟩

/-- The completion for a rule as the root of the text, unless a loop does not end within so many
rounds. -/
def completeWithin (root : String) : Option (Except CompletionError Completion) :=
  match s.model.ruleId? root with
  | none => some (.error (.unknownRule root))
  | some rule =>
    match (s.visitWithin rounds s.limits.depth rule (s.stream.skipHidden 0)).run.run s.start with
    | .ok (some o) r => some (s.completion o r.candidates)
    | .ok none _ => none
    | .error e _ => some (.error e)

end

/-! ## No outcome gets past the end of the input -/

/-- What every outcome of a rule at a spot in the stream satisfies. -/
structure LawfulIn (s : Session) (a : Spot) (o : Outcome) : Prop extends s.Lawful a o where
  le_size : o.stop ≤ s.stream.size

variable {s : Session} {n : Node RuleId} {rest nodes : List (Node RuleId)}
  {p count rounds left d : Nat} {o best : Outcome} {a : Spot}
  {visit : RuleId → Nat → OptionT Walk Outcome}

lemma NodeMatches.lawfulIn (h : s.NodeMatches s.LawfulIn n p o) (hp : p ≤ s.stream.size) :
    s.LawfulNode n p o ∧ o.stop ≤ s.stream.size :=
  ⟨(h.mono fun _ _ ho => ho.toLawful).lawful,
    h.stop (G := (· ≤ s.stream.size)) (fun _ => TokenStream.advance_le_size)
      (fun _ _ ho => ho.le_size) hp⟩

lemma BodyMatches.lawfulIn (h : s.BodyMatches s.LawfulIn a o) (ha : a.start ≤ s.stream.size) :
    s.LawfulIn a o :=
  ⟨(h.mono fun _ _ ho => ho.toLawful).lawful,
    h.stop (G := (· ≤ s.stream.size)) (fun _ => TokenStream.advance_le_size)
      (fun _ _ ho => ho.le_size) ha⟩

/-- A walk that starts in the stream has lawful outcomes there. -/
lemma predicts_lawfulIn :
    s.Predicts s.LawfulIn (fun a => a.start ≤ s.stream.size) fun _ p => p ≤ s.stream.size where
  ask hp _ := hp
  skip hp _ := hp
  le hp hn := (hn.lawfulIn hp).1.le
  stay hp hn := (hn.lawfulIn hp).1.stop_eq
  next hp hn _ := ⟨(hn.lawfulIn hp).2, fun _ => (hn.lawfulIn hp).2⟩
  entry ha _ _ _ := ha
  fail ha _ := ⟨lawful_failed, ha⟩
  collected ha hq _ := ⟨⟨lawfulFor_of_reached (Nat.le_refl _) hq, fun _ => rfl⟩, ha⟩
  matched ha _ ho := ho.lawfulIn ha

/-- What every part of a walk that matches keeps: lawful outcomes are remembered, and nothing is
being collected from. -/
def lawfulRegime (s : Session) : Regime := (remembers s.LawfulIn).inside []

/-- A visit of a rule has a lawful outcome, and leaves only such ones behind. -/
theorem keeps_visit (ha : a.start ≤ s.stream.size) :
    s.lawfulRegime.Keeps (s.matchRule d a.rule a.start) fun o _ => s.LawfulIn a o :=
  predicts_lawfulIn.remembering.rule ha

lemma matching_lawfulRegime : s.lawfulRegime.Matching s (fun _ => s.LawfulIn)
    (fun _ q => q ≤ s.stream.size) fun _ => True :=
  predicts_lawfulIn.toGuide.matching fun _ _ _ hr => ⟨hr, trivial⟩

lemma calls_lawfulRegime : Regime.Matching.Calls s.lawfulRegime (fun _ => s.LawfulIn)
    (fun _ q => q ≤ s.stream.size) (s.matchRule d) :=
  fun _ _ q id hq _ => keeps_visit (a := ⟨id, q⟩) hq

lemma collects_lawfulRegime :
    Regime.Matching.Collects s.lawfulRegime s (fun _ => True) (s.collectRule d) :=
  fun _ _ => collecting_remembers.collectNodes trivial

lemma keeps_matchNode (hp : p ≤ s.stream.size) :
    s.lawfulRegime.Keeps (s.matchNode (s.matchRule d) n p) fun o _ =>
      p ≤ o.stop ∧ o.stop ≤ s.stream.size := by
  have hnode : s.lawfulRegime.Keeps (s.matchNode (s.matchRule d) n p) fun o _ =>
      s.NodeMatches s.LawfulIn n p o :=
    @Regime.Matching.node _ s _ _ _ n [] p calls_lawfulRegime hp
  exact hnode.mono fun o _ _ ho => ⟨(ho.lawfulIn hp).1.le, (ho.lawfulIn hp).2⟩

/-- A repetition stays in the stream. -/
lemma keeps_matchRepeats (hm : n.isMultiple = true) (hp : p ≤ s.stream.size) :
    s.lawfulRegime.Keeps (s.matchRepeats (s.matchRule d) (s.collectRule d) n rest count p)
      fun k _ => ∀ q, k = .next q → q ≤ s.stream.size :=
  (matching_lawfulRegime.repeats calls_lawfulRegime collects_lawfulRegime hm hp hp).mono
    fun _ _ _ hk => hk.2

lemma keeps_matchNodes (hp : p ≤ s.stream.size) :
    s.lawfulRegime.Keeps (s.matchNodes (s.matchRule d) (s.collectRule d) nodes p) fun _ _ => True :=
  (matching_lawfulRegime.nodes calls_lawfulRegime collects_lawfulRegime hp).mono
    fun _ _ _ _ => trivial

/-- A round of a rule has a lawful outcome. -/
lemma keeps_matchBody (ha : a.start ≤ s.stream.size) (hq : s.reached a.start = false) :
    s.lawfulRegime.Keeps (s.matchBody (s.matchRule d) (s.collectRule d) a) fun o _ =>
      s.LawfulIn a o :=
  predicts_lawfulIn.remembering.body ha hq fun _ hb => keeps_visit hb

/-! ## The rounds last -/

/-- No loop in a visit of a rule uses up its rounds, wherever in the stream. -/
def VisitsLast (s : Session) (d : Nat) (visit : RuleId → Nat → OptionT Walk Outcome) : Prop :=
  ∀ a : Spot, a.start ≤ s.stream.size →
    s.lawfulRegime.Lasts (visit a.rule a.start) (s.matchRule d a.rule a.start)

lemma lasts_node (hvisit : s.VisitsLast d visit) (hp : p ≤ s.stream.size) :
    s.lawfulRegime.Lasts (s.nodeWithin visit n p) (s.matchNode (s.matchRule d) n p) := by
  cases hn : n.symbol with
  | token id =>
    simp only [nodeWithin, matchNode, hn]
    exact .pure _
  | rule id =>
    simp only [nodeWithin, matchNode, hn]
    exact hvisit ⟨id, p⟩ hp

/-- **A repetition is not ended by its count.**  Every occurrence after which it goes on has
consumed input, so that it ends within one round more than there are positions behind. -/
theorem lasts_repeats (hvisit : s.VisitsLast d visit) (hp : p ≤ s.stream.size)
    (hcount : s.stream.size ≤ p + count) (hleft : s.stream.size < p + left) :
    s.lawfulRegime.Lasts (s.repeatsWithin visit (s.collectRule d) n rest left p)
      (s.matchRepeats (s.matchRule d) (s.collectRule d) n rest count p) := by
  induction left generalizing count p with
  | zero => exact absurd hp (Nat.not_le_of_lt hleft)
  | succ left ih =>
    by_cases hend : s.stream.atEnd p = true
    · have hstop : s.matchRepeats (s.matchRule d) (s.collectRule d) n rest count p =
          pure (.next p) := by
        cases count with
        | zero => rfl
        | succ count => rw [matchRepeats, if_pos hend]
      rw [repeatsWithin, if_pos hend, hstop]
      exact .pure _
    obtain ⟨count, rfl⟩ : ∃ m, count = m + 1 :=
      Nat.exists_eq_succ_of_ne_zero fun hz => by simp [TokenStream.atEnd] at hend; omega
    rw [repeatsWithin, matchRepeats, if_neg hend, if_neg hend]
    refine (lasts_node hvisit hp).bind (keeps_matchNode hp) fun o ho => ?_
    -- the loop goes on in one case only, behind an occurrence that consumed input
    refine .ite (fun _ => .map (.lift _) _) fun _ => .ite (fun _ => .pure _) fun _ => ?_
    refine .ite (fun _ => .map (.lift _) _) fun _ => .ite (fun _ => .pure _) fun hstay => ?_
    exact ih ho.2 (by omega) (by omega)

lemma lasts_nodes (hvisit : s.VisitsLast d visit) (hp : p ≤ s.stream.size)
    (hrounds : s.stream.size < rounds) :
    s.lawfulRegime.Lasts (s.nodesWithin rounds visit (s.collectRule d) nodes p)
      (s.matchNodes (s.matchRule d) (s.collectRule d) nodes p) := by
  induction nodes generalizing p with
  | nil => exact .pure _
  | cons n rest ih =>
    rw [nodesWithin, matchNodes]
    refine (lasts_node hvisit hp).bind (keeps_matchNode hp) fun o ho => ?_
    refine .ite (fun _ => .map (.lift _) _) fun _ => .ite (fun _ => ?_) fun _ => ?_
    · exact .ite (fun _ => .pure _) fun _ => ih ho.2
    refine .ite (fun _ => .map (.lift _) _) fun _ => .ite (fun hm => ?_) fun _ => ih ho.2
    refine (lasts_repeats hvisit ho.2 (by omega) (by omega)).bind (keeps_matchRepeats hm ho.2)
      fun k hk => ?_
    cases k with
    | finished o => exact .pure o
    | next q => exact ih (hk q rfl)

lemma lasts_sequences (hvisit : s.VisitsLast d visit) (hp : p ≤ s.stream.size)
    (hrounds : s.stream.size < rounds) {i : Nat} {t : Tally} {list : List (Sequence RuleId)} :
    s.lawfulRegime.Lasts (s.sequencesWithin rounds visit (s.collectRule d) p i t list)
      (s.matchSequences (s.matchRule d) (s.collectRule d) p i t list) := by
  induction list generalizing i t with
  | nil => exact .pure _
  | cons q rest ih =>
    rw [sequencesWithin, matchSequences]
    refine (lasts_nodes hvisit hp hrounds).bind (keeps_matchNodes hp) fun o _ => ?_
    exact .lift_bind (.emit predicts_lawfulIn.remembering.events trivial) fun _ _ => ih

lemma lasts_body (hvisit : s.VisitsLast d visit) (ha : a.start ≤ s.stream.size)
    (hrounds : s.stream.size < rounds) :
    s.lawfulRegime.Lasts (s.bodyWithin rounds visit (s.collectRule d) a)
      (s.matchBody (s.matchRule d) (s.collectRule d) a) := by
  refine .lift_bind (A := fun _ => True) (.ofExcept (fun _ _ _ _ => trivial) fun _ _ _ _ => trivial)
    fun body _ => ?_
  cases body with
  | tokenSet tokens => exact .pure _
  | sequences list =>
    exact .map (lasts_sequences hvisit ha hrounds) _

/-- **Growth is not ended by its count.**  Every round after which it goes on has a longer result,
so that it ends within one round more than there are positions behind the result. -/
theorem lasts_grow (hvisit : s.VisitsLast d visit) (ha : a.start ≤ s.stream.size)
    (hq : s.reached a.start = false) (hrounds : s.stream.size < rounds) (hbest : s.LawfulIn a best)
    (hcount : s.stream.size < best.stop + count) (hleft : s.stream.size < best.stop + left) :
    s.lawfulRegime.Lasts (growWithin (s.bodyWithin rounds visit (s.collectRule d) a) a left best)
      (grow (s.matchBody (s.matchRule d) (s.collectRule d) a) a count best) := by
  induction left generalizing count best with
  | zero => exact absurd hbest.le_size (Nat.not_le_of_lt hleft)
  | succ left ih =>
    have hin := hbest.le_size
    obtain ⟨count, rfl⟩ : ∃ m, count = m + 1 :=
      Nat.exists_eq_succ_of_ne_zero fun hz => by omega
    rw [growWithin, grow]
    refine .lift_bind (A := fun _ => True)
      (.modify fun r hr => predicts_lawfulIn.remembering.keep true hr hbest) fun _ _ => ?_
    refine (lasts_body hvisit ha hrounds).bind (keeps_matchBody ha hq) fun o ho => ?_
    refine .ite (fun hlonger => ?_) fun _ => .pure _
    simp only [Bool.and_eq_true, decide_eq_true_eq] at hlonger
    exact ih ho (by omega) (by omega)

lemma lasts_grown (hvisit : s.VisitsLast d visit) (ha : a.start ≤ s.stream.size)
    (hq : s.reached a.start = false) (hrounds : s.stream.size < rounds) :
    s.lawfulRegime.Lasts (s.grownWithin rounds visit (s.collectRule d) a)
      (s.matchGrown (s.matchRule d) (s.collectRule d) a) := by
  refine (lasts_body hvisit ha hrounds).bind (keeps_matchBody ha hq) fun seed hseed => ?_
  refine .get fun r _ => .ite (fun _ => ?_) fun _ => .pure _
  have hsize := hseed.le_size
  exact lasts_grow hvisit ha hq hrounds hseed (by omega) (by omega)

lemma lasts_frame (hvisit : s.VisitsLast d visit) (ha : a.start ≤ s.stream.size)
    (hq : s.reached a.start = false) (hrounds : s.stream.size < rounds) :
    s.lawfulRegime.Lasts (s.frameWithin rounds visit (s.collectRule d) a)
      (s.matchInFrame (s.matchRule d) (s.collectRule d) a) := by
  have hremembering := predicts_lawfulIn.remembering (s := s)
  rw [matchInFrame_eq]
  refine .lift_bind (.emit hremembering.events trivial) fun _ _ => ?_
  refine .lift_bind (.modify fun r hr => hremembering.frames r _ hr) fun _ _ => ?_
  -- what is left to do has no loops in it
  exact fun r hr => (lasts_grown hvisit ha hq hrounds).step hr fun _ _ _ => rfl

/-- **No loop in a visit of a rule uses up its rounds**, if there are more of them than tokens. -/
theorem visitsLast (hrounds : s.stream.size < rounds) :
    s.VisitsLast d (s.visitWithin rounds d) := by
  have hremembering := predicts_lawfulIn.remembering (s := s)
  induction d using Nat.strong_induction_on with
  | _ d ih =>
    intro a ha
    rw [visitWithin.eq_def, matchRule.eq_def]
    refine .lift_bind (.burn hremembering.fuel) fun _ _ => ?_
    refine .ite (fun _ => ?_) fun hq => ?_
    · exact .lift_bind (.emit hremembering.events trivial) fun _ _ => .map (.lift _) _
    refine .get fun r _ => ?_
    cases r.memo[a]? with
    | some e =>
      refine .lift_bind (.emit hremembering.events trivial) fun _ _ => ?_
      exact .ite (fun _ => .map (.lift _) _) fun _ => .pure _
    | none =>
      refine .ite (fun _ => ?_) fun _ => ?_
      · exact .lift_bind (.emit hremembering.events trivial) fun _ _ => .map (.lift _) _
      cases d with
      | zero => exact fun _ _ => rfl
      | succ d =>
        exact lasts_frame (ih d (Nat.lt_succ_self d)) ha (by simpa using hq) hrounds

/-- **No loop of a completion uses up its rounds**, if there are more of them than tokens: there is
an answer, and it is the same. -/
theorem completeWithin_eq (hrounds : s.stream.size < rounds) (name : String) :
    s.completeWithin rounds name = some (s.complete name) := by
  cases hroot : s.model.ruleId? name with
  | none => rw [completeWithin, hroot, complete_of_unknown hroot]
  | some root =>
    have hstart : s.lawfulRegime.inv s.start := ⟨fun a e he => by simp [start] at he, rfl⟩
    have hlast := visitsLast (d := s.limits.depth) hrounds ⟨root, s.stream.skipHidden 0⟩
      (TokenStream.visible_skipHidden (Nat.zero_le _)).1 s.start hstart
    rw [completeWithin, hroot, complete_of_root hroot, walk]
    simp only [EStateM.run, hlast, Functor.map, EStateM.map]
    cases s.matchRule s.limits.depth root (s.stream.skipHidden 0) s.start with
    | error e r => rfl
    | ok o r => rfl

/-- A sum of two numbers grows once, so that a single round is not enough; with more rounds than
tokens the answer is there. -/
example : (onLine sums [⟨2⟩, ⟨1⟩, ⟨2⟩]).completeWithin 1 "sum" = none ∧
    (onLine sums [⟨2⟩, ⟨1⟩, ⟨2⟩]).completeWithin 4 "sum" =
      some (.ok ⟨["PLUS NUM"], true, none, 3⟩) := by
  refine ⟨by cbv, ?_⟩
  rw [completeWithin_eq (by decide), complete_sums]

end Session

end GrammarCompletion
