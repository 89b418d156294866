/-
# Visiting rules within regimes

A visit of a rule collects, uses a result again, fails where the rule is entered twice, or matches
the rule in a frame of its own.  `Regime.Visiting` lists what has to be checked in each of these
cases for a family of regimes; that every visit stays within its regime is then an induction on how
deep rules may lie inside each other (`Regime.Visiting.rule`).

Most of what is proved about walks does not depend on the frames.  `Regime.Remembering` is the
special case in which one regime does, whose results that can be used again satisfy a property `V`
of the spot and the outcome alone.
-/
import GrammarCompletion.Proofs.Walk.Matching

namespace GrammarCompletion

/-- The run after the active frame at a spot was marked as left-recursive. -/
def Run.mark (a : Spot) (r : Run) : Run :=
  { r with frames := (Frame.mark a r.frames).getD r.frames }

/-- The run after a frame was entered. -/
def Run.enter (a : Spot) (r : Run) : Run :=
  { r with frames := { spot := a } :: r.frames }

/-- What a rule is matched to in its frame: its body once, and again while it grows if the rule was
entered twice. -/
def Session.matchGrown (s : Session) (matchRule : RuleId → Nat → Walk Outcome)
    (collect : RuleId → Walk Phase) (a : Spot) : Walk Outcome := do
  let seed ← s.matchBody matchRule collect a
  if (← get).frames.head?.any Frame.recursed then
    Session.grow (s.matchBody matchRule collect a) a (s.stream.size + 1 - seed.stop) seed
  else return seed

lemma Session.matchInFrame_eq (s : Session) (matchRule : RuleId → Nat → Walk Outcome)
    (collect : RuleId → Walk Phase) (a : Spot) :
    s.matchInFrame matchRule collect a = do
      Walk.emit (.enter a.rule a.start)
      modify (Run.enter a)
      let o ← s.matchGrown matchRule collect a
      Session.leave a o
      Walk.emit (.exit a.rule o.matched o.stop o.phase)
      return o := by
  simp only [matchInFrame, matchGrown, bind_assoc, pure_bind]
  congr 1
  funext _
  congr 1
  funext _
  congr 1
  funext seed
  congr 1
  funext r
  split
  · rfl
  · rfl

lemma getElem?_memo_insert {memo : Std.TreeMap Spot Memo} {a b : Spot} {e : Memo} :
    (memo.insert a e)[b]? = if a = b then some e else memo[b]? := by
  simp [Std.TreeMap.getElem?_insert]

lemma getElem?_memo_erase {memo : Std.TreeMap Spot Memo} {a b : Spot} :
    (memo.erase a)[b]? = if a = b then none else memo[b]? := by
  simp [Std.TreeMap.getElem?_erase]

/-- What is true of all results is still true after one was kept. -/
lemma forall_memo_insert {P : Spot → Memo → Prop} {memo : Std.TreeMap Spot Memo} {a : Spot}
    {e : Memo} (h : ∀ b k, a ≠ b → memo[b]? = some k → P b k) (ha : P a e) :
    ∀ b k, (memo.insert a e)[b]? = some k → P b k := by
  intro b k hb
  rw [getElem?_memo_insert] at hb
  split at hb
  · next hab =>
    obtain rfl := Option.some.inj hb
    exact hab ▸ ha
  · next hab => exact h b k hab hb

/-- What is true of all results but one is true of all after that one was forgotten. -/
lemma forall_memo_erase {P : Spot → Memo → Prop} {memo : Std.TreeMap Spot Memo} {a : Spot}
    (h : ∀ b k, a ≠ b → memo[b]? = some k → P b k) :
    ∀ b k, (memo.erase a)[b]? = some k → P b k := by
  intro b k hb
  rw [getElem?_memo_erase] at hb
  split at hb
  · simp at hb
  · next hab => exact h b k hab hb

namespace Walk.Regime

/-- What is needed to visit rules within the regimes of a family.  `Call i d a` says that the rule
of `a` may be visited there, with at most `d` further rules inside each other, and `V i` says which
outcomes such a visit has. -/
structure Visiting (s : Session) {ι : Type} (K : ι → Regime) (Call : ι → Nat → Spot → Prop)
    (V : ι → Run → Spot → Outcome → Prop) : Prop where
  events : ∀ i, (K i).AllowsEvents fun e => e.isFraming = false
  fuel : ∀ i, (K i).AllowsFuel s.limits.fuel
  collect : ∀ {i d a}, Call i d a → s.reached a.start = true →
    (K i).Keeps (s.collectRule d a.rule) fun ph r => V i r a ⟨false, a.start, ph⟩
  known : ∀ {i d a r o}, Call i d a → s.reached a.start = false → (K i).inv r →
    r.memo[a]? = some ⟨o, false⟩ → V i r a o
  unfinished : ∀ {i d a r o}, Call i d a → s.reached a.start = false → (K i).inv r →
    r.memo[a]? = some ⟨o, true⟩ →
      (K i).inv (r.mark a) ∧ (K i).later r (r.mark a) ∧ V i (r.mark a) a o
  guard : ∀ {i d a r}, Call i d a → s.reached a.start = false → (K i).inv r →
    r.memo[a]? = none → a ∈ r.frames.map Frame.spot →
      let r' := (r.record (.leftRecursion a.rule a.start)).mark a
      (K i).inv r' ∧ (K i).later r r' ∧ V i r' a ⟨false, a.start, .matching⟩
  limit : ∀ {i a r}, Call i 0 a → s.reached a.start = false → (K i).inv r →
    a ∉ r.frames.map Frame.spot → (K i).fault (.recursionLimit s.limits.depth) r
  frame : ∀ {i d a}, Call i (d + 1) a → s.reached a.start = false →
    (∀ j b, Call j d b → (K j).Keeps (s.matchRule d b.rule b.start) fun o r => V j r b o) →
      (K i).KeepsFrom (fun r => r.memo[a]? = none ∧ a ∉ r.frames.map Frame.spot)
        (s.matchInFrame (s.matchRule d) (s.collectRule d) a) fun o r => V i r a o

lemma Keeps.markRecursion {K : Regime} {C : Run → Prop} {a : Spot} {A : Run → Prop}
    (h : ∀ r, K.inv r → C r → K.inv (r.mark a) ∧ K.later r (r.mark a) ∧ A (r.mark a)) :
    K.KeepsFrom C (Session.markRecursion a) fun _ r => A r :=
  fun r hr => h r hr.1 hr.2

namespace Visiting

variable {s : Session} {ι : Type} {K : ι → Regime} {Call : ι → Nat → Spot → Prop}
  {V : ι → Run → Spot → Outcome → Prop}

/-- **A visit of a rule stays within its regime**, if the cases of a visit do. -/
theorem rule (h : Visiting s K Call V) {d : Nat} {i : ι} {a : Spot} (hc : Call i d a) :
    (K i).Keeps (s.matchRule d a.rule a.start) fun o r => V i r a o := by
  -- the rules inside a frame are visited with less depth, and in another regime of the family
  induction d using Nat.strong_induction_on generalizing i a with
  | _ d ih =>
    rw [Session.matchRule.eq_def]
    refine (Keeps.burn (h.fuel i)).seq ?_
    cases hq : s.reached a.start with
    | true =>
      simp only [if_true]
      exact (Keeps.emit (h.events i) rfl).seq ((h.collect hc hq).map fun _ _ _ hv => hv)
    | false =>
      simp only [Bool.false_eq_true, if_false]
      refine .get fun run hrun => ?_
      cases hm : run.memo[a]? with
      | some e =>
        obtain ⟨o, growing⟩ := e
        refine KeepsFrom.weaken (D := fun r => r.memo[a]? = some ⟨o, growing⟩) ?_
          fun r hr => hr ▸ hm
        refine (KeepsFrom.emit (h.events i) rfl fun _ hr => hr).bind fun _ => ?_
        cases growing with
        | false => exact .pure fun r hr hm => h.known hc hq hr hm
        | true =>
          -- the result of an unfinished rule is used, and its frame is marked
          simp only [if_true]
          refine (Keeps.markRecursion (a := a) (A := fun r => V i r a o) fun r hr hm =>
            h.unfinished hc hq hr hm).bind fun _ => ?_
          exact .pure fun _ _ hv => hv
      | none =>
        simp only
        split
        · next hany =>
          refine KeepsFrom.weaken (D := fun r => r.memo[a]? = none ∧ a ∈ r.frames.map Frame.spot)
            ?_ fun r hr => hr ▸ ⟨hm, by simpa using hany⟩
          -- the event and the mark are one step
          exact fun r hr => h.guard hc hq hr.1 hr.2.1 hr.2.2
        · next hany =>
          have hspot : a ∉ run.frames.map Frame.spot := by simpa using hany
          cases d with
          | zero => exact fun r hr => h.limit hc hq hr.1 (hr.2 ▸ hspot)
          | succ d =>
            exact (h.frame hc hq fun j b hb => ih d (Nat.lt_succ_self d) hb).weaken
              fun r hr => hr ▸ ⟨hm, hspot⟩

end Visiting

section

variable {K : Regime} {s : Session} {a : Spot} {W : Outcome → Prop}

/-- Growth stays within a regime if every result may be kept in between. -/
lemma Keeps.grow {body : Walk Outcome} (hbody : K.Keeps body fun o _ => W o)
    (hkeep : ∀ r o, K.inv r → W o → K.inv { r with memo := r.memo.insert a ⟨o, true⟩ } ∧
      K.later r { r with memo := r.memo.insert a ⟨o, true⟩ })
    {count : Nat} {best : Outcome} (hbest : W best) :
    K.Keeps (Session.grow body a count best) fun o _ => W o := by
  induction count generalizing best with
  | zero => exact .pure fun _ _ => hbest
  | succ count ih =>
    rw [Session.grow]
    refine (Keeps.modify fun r hr => hkeep r best hr hbest).seq (hbody.bind fun o => ?_)
    refine .intro (fun _ _ ho => ho) fun ho => ?_
    split
    · exact (ih ho).keepsFrom
    · exact .pure fun _ _ _ => hbest

/-- A rule is matched in its frame within a regime if its parts are: the frame is entered, the body
is matched once or grows, and the frame is left. -/
lemma Keeps.matchInFrame {matchRule : RuleId → Nat → Walk Outcome}
    {collect : RuleId → Walk Phase}
    (henter : K.Keeps (Walk.emit (.enter a.rule a.start)) fun _ _ => True)
    (hpush : ∀ r, K.inv r → K.inv (r.enter a) ∧ K.later r (r.enter a))
    (hbody : K.Keeps (s.matchBody matchRule collect a) fun o _ => W o)
    (hgrow : ∀ count o, W o → K.Keeps (Session.grow (s.matchBody matchRule collect a) a count o)
      fun o _ => W o)
    (hleave : ∀ o, W o → K.Keeps (Session.leave a o) fun _ _ => True)
    (hexit : ∀ o : Outcome, W o →
      K.Keeps (Walk.emit (.exit a.rule o.matched o.stop o.phase)) fun _ _ => True) :
    K.Keeps (s.matchInFrame matchRule collect a) fun o _ => W o := by
  have hgrown : K.Keeps (s.matchGrown matchRule collect a) fun o _ => W o := by
    refine hbody.bind fun seed => .intro (fun _ _ ho => ho) fun hseed => ?_
    refine Keeps.keepsFrom (Keeps.get fun r hr => Keeps.keepsFrom ?_)
    split
    · exact hgrow _ seed hseed
    · exact .pure fun _ _ => hseed
  rw [Session.matchInFrame_eq]
  refine henter.seq ((Keeps.modify hpush).seq (hgrown.bind fun o => ?_))
  refine .intro (fun _ _ ho => ho) fun ho => Keeps.keepsFrom ?_
  exact (hleave o ho).seq ((hexit o ho).seq (.pure fun _ _ => ho))

end

/-- What is needed to visit rules within a regime that does not look at the frames. -/
structure Remembering (K : Regime) (s : Session) (Call : Nat → Spot → Prop)
    (V : Spot → Outcome → Prop) : Prop where
  events : K.AllowsEvents fun _ => True
  fuel : K.AllowsFuel s.limits.fuel
  frames : ∀ r l, K.inv r → K.inv { r with frames := l } ∧ K.later r { r with frames := l }
  keep : ∀ {r a o} b, K.inv r → V a o →
    K.inv { r with memo := r.memo.insert a ⟨o, b⟩ } ∧
      K.later r { r with memo := r.memo.insert a ⟨o, b⟩ }
  forget : ∀ r a, K.inv r → K.inv { r with memo := r.memo.erase a } ∧
    K.later r { r with memo := r.memo.erase a }
  known : ∀ {d r a e}, Call d a → K.inv r → r.memo[a]? = some e → V a e.outcome
  fail : ∀ {d a}, Call d a → s.reached a.start = false → V a ⟨false, a.start, .matching⟩
  collect : ∀ {d a}, Call d a → s.reached a.start = true →
    K.Keeps (s.collectRule d a.rule) fun ph _ => V a ⟨false, a.start, ph⟩
  limit : ∀ {a r}, Call 0 a → s.reached a.start = false → K.inv r →
    K.fault (.recursionLimit s.limits.depth) r
  body : ∀ {d a}, Call (d + 1) a → s.reached a.start = false →
    (∀ b, Call d b → K.Keeps (s.matchRule d b.rule b.start) fun o _ => V b o) →
      K.Keeps (s.matchBody (s.matchRule d) (s.collectRule d) a) fun o _ => V a o

namespace Remembering

variable {K : Regime} {s : Session} {Call : Nat → Spot → Prop} {V : Spot → Outcome → Prop}

lemma leave (h : K.Remembering s Call V) {a : Spot} {o : Outcome} (ho : V a o) :
    K.Keeps (Session.leave a o) fun _ _ => True := by
  refine .modify fun r hr => ?_
  have htail := h.frames r r.frames.tail hr
  split
  · have hforget := h.forget _ a htail.1
    exact ⟨hforget.1, K.trans htail.2 hforget.2⟩
  · have hkeep := h.keep false htail.1 ho
    exact ⟨hkeep.1, K.trans htail.2 hkeep.2⟩

lemma inFrame (h : K.Remembering s Call V) {matchRule : RuleId → Nat → Walk Outcome}
    {collect : RuleId → Walk Phase} {a : Spot}
    (hbody : K.Keeps (s.matchBody matchRule collect a) fun o _ => V a o) :
    K.Keeps (s.matchInFrame matchRule collect a) fun o _ => V a o :=
  .matchInFrame (.emit h.events trivial) (fun r hr => h.frames r _ hr) hbody
    (fun _ _ ho => hbody.grow (fun _ _ hr hv => h.keep true hr hv) ho) (fun _ ho => h.leave ho)
    fun _ _ => .emit h.events trivial

/-- **A visit of a rule has an outcome with the property.** -/
theorem rule (h : K.Remembering s Call V) {d : Nat} {a : Spot} (hc : Call d a) :
    K.Keeps (s.matchRule d a.rule a.start) fun o _ => V a o := by
  have hv : Visiting s (fun _ : Unit => K) (fun _ => Call) fun _ _ => V := {
    events := fun _ => h.events.mono fun _ _ => trivial
    fuel := fun _ => h.fuel
    collect := fun hc hq => h.collect hc hq
    known := fun hc _ hr hm => h.known hc hr hm
    unfinished := fun {_ _ a r o} hc _ hr hm =>
      ⟨(h.frames r _ hr).1, (h.frames r _ hr).2, h.known hc hr hm⟩
    guard := fun {_ _ a r} hc hq hr _ _ => by
      have hevent := h.events r (.leftRecursion a.rule a.start) trivial hr
      have hmark := h.frames _ (r.mark a).frames hevent.1
      exact ⟨hmark.1, K.trans hevent.2 hmark.2, h.fail hc hq⟩
    limit := fun hc hq hr _ => h.limit hc hq hr
    frame := fun hc hq ih => (h.inFrame (h.body hc hq fun b hb => ih () b hb)).keepsFrom }
  exact hv.rule (i := ()) hc

end Remembering

end Walk.Regime

end GrammarCompletion
