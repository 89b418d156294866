/-
# The phrases that are offered

What a walk offers at a place is a phrase, a token with the tokens that have to follow it.  No token
of a phrase is one of those that are never offered, and in a compiled model the wildcard is among
these.  Along a sequence the end of the input stops the walk, so that it neither leads a phrase nor
follows in one.  The tokens of a token set, however, are offered as they are: if the end of the
input is one of them, it is offered, though always alone (`Model.IsPhrase`).

Which phrases a part of a walk may offer is read off its plan, whatever the answers to the requests
in it are (`Plan.Offers`).  `Regime.Recording` lists what has to be checked of a regime that looks at
what a walk records, step by step, so that whole walks stay within it.  The first such regime is that
of walks that offer phrases only, also of those that end with an error
(`Session.isPhrase_of_mem_events`).
-/
import GrammarCompletion.Proofs.Compile.Entries
import GrammarCompletion.Proofs.Compile.Intact
import GrammarCompletion.Proofs.Recursion.Frames
import GrammarCompletion.Proofs.Soundness.Completion
import GrammarCompletion.Proofs.Walk.Mirror
import GrammarCompletion.Proofs.Walk.Visiting

namespace GrammarCompletion

open Walk Regime

/-! ## Phrases -/

/-- A token with the tokens that follow it may be offered. -/
structure Model.IsPhrase (m : Model) (t : TokenId) (k : List TokenId) : Prop where
  /-- None of the tokens is ignored. -/
  shown : ∀ u ∈ t :: k, m.isIgnoredToken u = false
  /-- The end of the input does not follow another token. -/
  tail : .eof ∉ k
  /-- If the end of the input is offered, it is so alone, and as a member of a token set. -/
  lead : t = .eof → k = [] ∧ ∃ r tokens, m.body r = .ok (.tokenSet tokens) ∧ .eof ∈ tokens

/-- The phrase of an event, if it is the offer of a token, may be offered. -/
def Event.Speaks (m : Model) : Event → Prop
  | .offerToken t k => m.IsPhrase t k
  | _ => True

/-- What was offered so far may be offered, and so may the candidates that are left of it. -/
def Run.Speaks (m : Model) (r : Run) : Prop :=
  (∀ e ∈ r.events, e.Speaks m) ∧
    ∀ t k, r.candidates.phrases.get? t = some k → m.IsPhrase t k

namespace Model

variable {m : Model} {t u : TokenId} {k : List TokenId} {n : Node RuleId}
  {rest nodes : List (Node RuleId)}

/-- A token that leads a phrase may be offered bare. -/
lemma IsPhrase.bare (h : m.IsPhrase t k) : m.IsPhrase t [] where
  shown := List.forall_mem_singleton.2 (h.shown t List.mem_cons_self)
  tail := List.not_mem_nil
  lead ht := ⟨rfl, (h.lead ht).2⟩

lemma mem_mandatoryTokens (h : u ∈ m.mandatoryTokens nodes) :
    u ≠ .eof ∧ m.isIgnoredToken u = false := by
  induction nodes with
  | nil => simp [mandatoryTokens] at h
  | cons n rest ih =>
    cases hn : n.symbol with
    | rule id => simp [mandatoryTokens, hn] at h
    | token id =>
      simp only [mandatoryTokens, hn] at h
      split at h
      · next hc =>
        simp only [Bool.and_eq_true, Bool.not_eq_true', decide_eq_true_eq] at hc
        rcases List.mem_cons.1 h with rfl | h
        · exact ⟨hc.1.2, hc.2⟩
        · exact ih h
      · simp at h

lemma mem_continuation (h : u ∈ m.continuation n rest) :
    u ≠ .eof ∧ m.isIgnoredToken u = false := by
  rw [continuation] at h
  split at h
  · exact mem_mandatoryTokens h
  · simp at h

/-- The token of a node, with those that have to follow it. -/
lemma isPhrase_continuation (heof : t ≠ .eof) (ht : m.isIgnoredToken t = false) :
    m.IsPhrase t (m.continuation n rest) where
  shown := List.forall_mem_cons.2 ⟨ht, fun _ hu => (mem_continuation hu).2⟩
  tail hk := (mem_continuation hk).1 rfl
  lead h := absurd h heof

/-- A member of a token set. -/
lemma isPhrase_mem {r : RuleId} {tokens : OrderedSet TokenId}
    (hb : m.body r = .ok (.tokenSet tokens)) (ht : t ∈ tokens)
    (hshown : m.isIgnoredToken t = false) :
    m.IsPhrase t [] where
  shown := List.forall_mem_singleton.2 hshown
  tail := List.not_mem_nil
  lead h := ⟨rfl, r, tokens, hb, h ▸ ht⟩

end Model

/-! ## Plans -/

/-- Whether an event says something about the way of a walk, but neither offers anything nor enters
or leaves a rule or starts to collect from one. -/
def Event.isNote : Event → Bool
  | alternative _ _ _ => true
  | memoHit _ _ => true
  | leftRecursion _ _ => true
  | caret _ => true
  | _ => false

lemma Event.isOffer_of_isNote {e : Event} (h : e.isNote = true) : e.isOffer = false := by
  cases e <;> first | rfl | cases h

/-- All phrases that a plan may offer are as `P` says, whatever the answers to its requests are. -/
inductive Plan.Offers (P : TokenId → List TokenId → Prop) {α : Type} : Plan α → Prop
  | done {a : α} : Offers P (.done a)
  | visit {rule : RuleId} {p : Nat} {next : Outcome → Plan α} (h : ∀ o, Offers P (next o)) :
      Offers P (.visit rule p next)
  | gather {rule : RuleId} {next : Phase → Plan α} (h : ∀ ph, Offers P (next ph)) :
      Offers P (.gather rule next)
  | offer {t : TokenId} {k : List TokenId} {next : Plan α} (hp : P t k) (h : Offers P next) :
      Offers P (.offer t k next)
  | note {e : Event} {next : Plan α} (he : e.isNote = true) (h : Offers P next) :
      Offers P (.note e next)

namespace Plan.Offers

variable {s : Session} {P : TokenId → List TokenId → Prop} {α β : Type} {x y : Plan α}

lemma pure (a : α) : Offers P (Pure.pure a : Plan α) := .done

lemma bind {f : α → Plan β} (h : Offers P x) (hf : ∀ a, Offers P (f a)) : Offers P (x >>= f) := by
  induction h with
  | done => exact hf _
  | visit _ ih => exact .visit ih
  | gather _ ih => exact .gather ih
  | offer hp _ ih => exact .offer hp ih
  | note he _ ih => exact .note he ih

lemma ite {c : Prop} [Decidable c] (hx : c → Offers P x) (hy : ¬ c → Offers P y) :
    Offers P (if c then x else y) := by
  split
  · next hc => exact hx hc
  · next hc => exact hy hc

lemma offerUnlessIgnored {t : TokenId} {k : List TokenId}
    (h : s.model.isIgnoredToken t = false → P t k) : Offers P (Plan.offerUnlessIgnored s t k) :=
  .ite (fun ht => .offer (h (by simpa using ht)) .done) fun _ => .done

variable {n : Node RuleId} {rest : List (Node RuleId)} {p : Nat}

/-- Along a sequence, no token behind the end of the input is reached. -/
lemma collectNodes (nodes : List (Node RuleId)) :
    Offers s.model.IsPhrase (Plan.collectNodes s nodes) := by
  induction nodes with
  | nil => exact .pure _
  | cons n rest ih =>
    cases hn : n.symbol with
    | token t =>
      simp only [Plan.collectNodes, hn]
      refine .ite (fun _ => .pure _) fun heof => ?_
      have hrest : Offers s.model.IsPhrase
          (if n.isRequired = true then Pure.pure .matching else Plan.collectNodes s rest) :=
        .ite (fun _ => .pure _) fun _ => ih
      refine .ite (fun _ => .bind ?_ fun _ => hrest) fun _ => hrest
      exact .offerUnlessIgnored fun ht => Model.isPhrase_continuation heof ht
    | rule id =>
      simp only [Plan.collectNodes, hn]
      exact .gather fun _ => .ite (fun _ => .pure _) fun _ => ih

lemma collectSequences (list : List (Sequence RuleId)) :
    Offers s.model.IsPhrase (Plan.collectSequences s list) := by
  induction list with
  | nil => exact .pure _
  | cons q rest ih => exact (collectNodes q.nodes).bind fun _ => ih.bind fun _ => .pure _

/-- The end of the input is not told apart from the other members of a token set. -/
lemma collectTokens {l : List TokenId}
    (h : ∀ t ∈ l, s.model.isIgnoredToken t = false → P t []) :
    Offers P (Plan.collectTokens s l) := by
  induction l with
  | nil => exact .pure _
  | cons t rest ih =>
    obtain ⟨ht, hrest⟩ := List.forall_mem_cons.1 h
    exact (offerUnlessIgnored ht).bind fun _ => ih hrest

lemma collectBehind : Offers s.model.IsPhrase (Plan.collectBehind s n rest) :=
  .ite (fun _ => (collectNodes _).bind fun _ => collectNodes rest) fun _ => collectNodes rest

lemma collectAtCaret : Offers s.model.IsPhrase (Plan.collectAtCaret s n rest p) := by
  refine .note rfl (.ite (fun _ => (collectNodes _).bind fun _ => ?_) fun _ => collectNodes rest)
  exact .ite (fun _ => collectNodes rest) fun _ => .pure _

lemma matchNode : Offers P (Plan.matchNode s n p) := by
  cases hn : n.symbol with
  | token t =>
    simp only [Plan.matchNode, hn]
    exact .pure _
  | rule id =>
    simp only [Plan.matchNode, hn]
    exact .visit fun _ => .done

lemma matchRepeats (count : Nat) :
    Offers s.model.IsPhrase (Plan.matchRepeats s n rest count p) := by
  induction count generalizing p with
  | zero => exact .pure _
  | succ count ih =>
    refine .ite (fun _ => .pure _) fun _ => matchNode.bind fun o => ?_
    refine .ite (fun _ => collectBehind.bind fun _ => .pure _) fun _ => ?_
    refine .ite (fun _ => .pure _) fun _ => ?_
    refine .ite (fun _ => collectAtCaret.bind fun _ => .pure _) fun _ => ?_
    exact .ite (fun _ => .pure _) fun _ => ih

lemma matchNodes (nodes : List (Node RuleId)) :
    Offers s.model.IsPhrase (Plan.matchNodes s nodes p) := by
  induction nodes generalizing p with
  | nil => exact .pure _
  | cons n rest ih =>
    refine matchNode.bind fun o => ?_
    refine .ite (fun _ => collectBehind.bind fun _ => .pure _) fun _ => ?_
    refine .ite (fun _ => .ite (fun _ => .pure _) fun _ => ih) fun _ => ?_
    refine .ite (fun _ => collectAtCaret.bind fun _ => .pure _) fun _ => ?_
    refine .ite (fun _ => (matchRepeats _).bind ?_) fun _ => ih
    rintro (o | q)
    · exact .pure _
    · exact ih

lemma matchSequences (i : Nat) (t : Tally) (list : List (Sequence RuleId)) :
    Offers s.model.IsPhrase (Plan.matchSequences s p i t list) := by
  induction list generalizing i t with
  | nil => exact .pure _
  | cons q rest ih => exact (matchNodes q.nodes).bind fun o => .note rfl (ih (i + 1) (t.add o))

lemma matchBody (body : RuleBody RuleId) :
    Offers s.model.IsPhrase (Plan.matchBody s p body) := by
  cases body with
  | tokenSet tokens => exact .pure _
  | sequences list => exact (matchSequences 0 {} list).bind fun _ => .pure _

end Plan.Offers

/-! ## Regimes that look at what is recorded -/

namespace Walk.Regime

/-- What is needed to walk within a regime that looks at the events, at the candidates and at the
spots of the frames.  The walk may end with an error at any moment. -/
structure Recording (K : Regime) (s : Session) : Prop where
  fault : ∀ {e r}, K.inv r → K.fault e r
  silent : ∀ {r r'}, K.inv r → r'.events = r.events → r'.candidates = r.candidates →
    r'.frames.map Frame.spot = r.frames.map Frame.spot → K.inv r' ∧ K.later r r'
  note : ∀ {r e}, K.inv r → e.isNote = true → K.inv (r.record e) ∧ K.later r (r.record e)
  offer : ∀ {r t k}, K.inv r → s.model.IsPhrase t k →
    let r' := { r.record (.offerToken t k) with candidates := r.candidates.offerToken t k }
    K.inv r' ∧ K.later r r'
  collect : ∀ {r q}, K.inv r → s.model.isSpecial q = false →
    K.inv (r.record (.collect q)) ∧ K.later r (r.record (.collect q))
  special : ∀ {r q}, K.inv r → s.model.isSpecial q = true →
    let r' := { (r.record (.collect q)).record (.offerRule q) with
      candidates := r.candidates.offerRule q }
    K.inv r' ∧ K.later r r'
  enter : ∀ {r} a, K.inv r → K.inv ((r.record (.enter a.rule a.start)).enter a)
  exit : ∀ {r r' a} memo (o : Outcome), K.inv r → K.inv r' →
    K.later ((r.record (.enter a.rule a.start)).enter a) r' →
    let r'' := { r'.record (.exit a.rule o.matched o.stop o.phase) with
      frames := r'.frames.tail, memo := memo }
    K.inv r'' ∧ K.later r r''

namespace Recording

variable {K : Regime} {s : Session} {a : Spot} {rule : RuleId}

lemma change (h : K.Recording s) {f : Run → Run} (hevents : ∀ r, (f r).events = r.events)
    (hcandidates : ∀ r, (f r).candidates = r.candidates)
    (hframes : ∀ r, (f r).frames.map Frame.spot = r.frames.map Frame.spot) :
    K.Keeps (modify f : Walk Unit) fun _ _ => True :=
  .modify fun r hr => h.silent hr (hevents r) (hcandidates r) (hframes r)

lemma burn (h : K.Recording s) : K.Keeps (burn s.limits.fuel) fun _ _ => True :=
  .burn ⟨fun _ _ hr => h.silent hr rfl rfl rfl, fun _ hr => h.fault hr⟩

lemma emit (h : K.Recording s) {e : Event} (he : e.isNote = true) :
    K.Keeps (emit e) fun _ _ => True :=
  .modify fun _ hr => h.note hr he

lemma markRecursion (h : K.Recording s) :
    K.Keeps (Session.markRecursion a) fun _ _ => True :=
  h.change (fun _ => rfl) (fun _ => rfl) fun _ => Run.map_spot_mark

/-- A rule without a body ends the walk, and nothing is offered then. -/
lemma body (h : K.Recording s) {α : Type} {f : RuleBody RuleId → Walk α}
    (hf : ∀ body, s.model.body rule = .ok body → K.Keeps (f body) fun _ _ => True) :
    K.Keeps (Walk.ofExcept (s.model.body rule) >>= f) fun _ _ => True := by
  cases hb : s.model.body rule with
  | error e => exact .throw fun _ hr => h.fault hr
  | ok body => exact hf body hb

section

variable {matchRule : RuleId → Nat → Walk Outcome} {collect : RuleId → Walk Phase}

/-- A plan that is carried out offers what it may. -/
lemma run (h : K.Recording s) {α : Type} {x : Plan α} (hx : x.Offers s.model.IsPhrase)
    (hmatch : ∀ rule p, K.Keeps (matchRule rule p) fun _ _ => True)
    (hcollect : ∀ rule, K.Keeps (collect rule) fun _ _ => True) :
    K.Keeps (x.run matchRule collect) fun _ _ => True := by
  induction hx with
  | done => exact .pure fun _ _ => trivial
  | visit _ ih => exact (hmatch _ _).bind fun o => (ih o).keepsFrom
  | gather _ ih => exact (hcollect _).bind fun ph => (ih ph).keepsFrom
  | @offer t k _ hp _ ih =>
    -- the event and the candidate are one step
    have hoffer : K.Keeps (do
        Walk.emit (.offerToken t k)
        modify fun r => { r with candidates := r.candidates.offerToken t k } : Walk Unit)
        fun _ _ => True :=
      fun _ hr => ⟨(h.offer hr hp).1, (h.offer hr hp).2, trivial⟩
    rw [Plan.run, ← bind_assoc]
    exact hoffer.seq ih
  | note he _ ih => exact (h.emit he).seq ih

lemma matchBody (h : K.Recording s)
    (hmatch : ∀ rule p, K.Keeps (matchRule rule p) fun _ _ => True)
    (hcollect : ∀ rule, K.Keeps (collect rule) fun _ _ => True) :
    K.Keeps (s.matchBody matchRule collect a) fun _ _ => True := by
  cases hb : s.model.body a.rule with
  | error e =>
    rw [Session.matchBody, hb]
    exact .throw fun _ hr => h.fault hr
  | ok body =>
    rw [Session.matchBody_eq_run a hb]
    exact h.run (.matchBody body) hmatch hcollect

/-- A frame is left with the rule for which it was entered. -/
lemma matchInFrame (h : K.Recording s)
    (hbody : K.Keeps (s.matchBody matchRule collect a) fun _ _ => True) :
    K.Keeps (s.matchInFrame matchRule collect a) fun _ _ => True := by
  have hgrown : K.Keeps (s.matchGrown matchRule collect a) fun _ _ => True := by
    refine hbody.bind fun seed => Keeps.keepsFrom (Keeps.get fun r _ => Keeps.keepsFrom ?_)
    split
    · exact hbody.grow (fun _ _ hr _ => h.silent hr rfl rfl rfl) trivial
    · exact .pure fun _ _ => trivial
  rw [Session.matchInFrame_eq]
  refine Spec.bind (A := fun r _ r' => r' = r.record (.enter a.rule a.start))
    (.modify fun _ _ => rfl) fun r _ hr => ?_
  refine Spec.bind (A := fun _ _ r' => K.inv r' ∧ r' = (r.record (.enter a.rule a.start)).enter a)
    (.modify ?_) fun _ _ _ => ?_
  · rintro r' rfl
    exact ⟨h.enter a hr, rfl⟩
  refine Spec.bind (A := fun r' _ r'' => K.inv r'' ∧ K.later r' r'') (Spec.mono hgrown
    (fun _ h => h.1) fun _ _ _ _ h => ⟨h.1, h.2.1⟩) fun r' o hr' => ?_
  -- the frame is left and the event recorded in two steps
  obtain ⟨-, rfl⟩ := hr'
  rintro r'' ⟨hinv, hlater⟩
  have hexit := h.exit (if r''.frames.head?.any Frame.tainted then r''.memo.erase a
    else r''.memo.insert a ⟨o, false⟩) o hr hinv hlater
  exact ⟨hexit.1, hexit.2, trivial⟩

end

lemma collectRule (h : K.Recording s) (d : Nat) (rule : RuleId) :
    K.Keeps (s.collectRule d rule) fun _ _ => True := by
  induction d using Nat.strong_induction_on generalizing rule with
  | _ d ih =>
    rw [Session.collectRule.eq_def]
    refine h.burn.seq ?_
    cases hspecial : s.model.isSpecial rule with
    | true =>
      simp only [if_true]
      exact fun _ hr => ⟨(h.special hr hspecial).1, (h.special hr hspecial).2, trivial⟩
    | false =>
    simp only [Bool.false_eq_true, if_false]
    refine Keeps.seq (Keeps.modify fun _ hr => h.collect hr hspecial) ?_
    refine .get fun r _ => Keeps.keepsFrom ?_
    split
    · exact .pure fun _ _ => trivial
    refine h.body fun body hb => ?_
    cases body with
    | tokenSet tokens =>
      -- there is no rule in the plan, so it does not matter what is done with rules
      have hrun : s.collectTokens tokens.toList = (Plan.collectTokens s tokens.toList).run
          (fun _ p => pure ⟨false, p, .matching⟩) fun _ => pure .matching :=
        Session.collectTokens_eq_run _
      dsimp only
      rw [hrun]
      exact h.run (.collectTokens fun t ht hshown => Model.isPhrase_mem hb ht hshown)
        (fun _ _ => .pure fun _ _ => trivial) fun _ => .pure fun _ _ => trivial
    | sequences list =>
      cases d with
      | zero => exact .throw fun _ hr => h.fault hr
      | succ d =>
        have hrun : s.collectSequences (s.collectRule d) list =
            (Plan.collectSequences s list).run (fun _ p => pure ⟨false, p, .matching⟩)
              (s.collectRule d) := Session.collectSequences_eq_run list
        have hlist : K.Keeps (s.collectSequences (s.collectRule d) list) fun _ _ => True := by
          rw [hrun]
          exact h.run (.collectSequences list) (fun _ _ => .pure fun _ _ => trivial)
            (ih d (Nat.lt_succ_self d))
        refine Keeps.seq (h.change (fun _ => rfl) (fun _ => rfl) fun _ => rfl) ?_
        refine Keeps.bind hlist fun _ => Keeps.keepsFrom ?_
        exact Keeps.seq (h.change (fun _ => rfl) (fun _ => rfl) fun _ => rfl)
          (.pure fun _ _ => trivial)

/-- **A visit of a rule stays within a regime that looks at what is recorded.** -/
theorem matchRule (h : K.Recording s) (d : Nat) (rule : RuleId) (p : Nat) :
    K.Keeps (s.matchRule d rule p) fun _ _ => True := by
  induction d using Nat.strong_induction_on generalizing rule p with
  | _ d ih =>
    rw [Session.matchRule.eq_def]
    refine h.burn.seq ?_
    split
    · exact (h.emit rfl).seq ((h.collectRule d rule).map fun _ _ _ _ => trivial)
    refine .get fun r _ => Keeps.keepsFrom ?_
    split
    · refine (h.emit rfl).seq ?_
      split
      · exact h.markRecursion.seq (.pure fun _ _ => trivial)
      · exact .pure fun _ _ => trivial
    split
    · exact (h.emit rfl).seq (h.markRecursion.seq (.pure fun _ _ => trivial))
    cases d with
    | zero => exact .throw fun _ hr => h.fault hr
    | succ d =>
      exact h.matchInFrame (h.matchBody (ih d (Nat.lt_succ_self d)) (h.collectRule d))

end Recording

end Walk.Regime

/-! ## Walks -/

namespace Session

/-- The regime of walks that offer phrases only, also before an error. -/
def phraseRegime (m : Model) : Regime where
  inv r := r.Speaks m
  later _ _ := True
  fault _ r := r.Speaks m
  refl _ := trivial
  trans _ _ := trivial

variable {s : Session} {r : Run}

lemma speaks_record {e : Event} (hr : r.Speaks s.model) (he : e.Speaks s.model) :
    (r.record e).Speaks s.model :=
  ⟨List.forall_mem_cons.2 ⟨he, hr.1⟩, hr.2⟩

/-- Of the offers of a token, what is left is one of them or the bare token. -/
lemma speaks_offer {t : TokenId} {k : List TokenId} (hr : r.Speaks s.model)
    (h : s.model.IsPhrase t k) :
    Run.Speaks s.model { r with candidates := r.candidates.offerToken t k } := by
  refine ⟨hr.1, fun u j hj => ?_⟩
  rw [Candidates.get?_phrases_offerToken] at hj
  split at hj
  · next hu =>
    subst hu
    cases hg : r.candidates.phrases.get? u with
    | none =>
      obtain rfl : k = j := by simpa [hg] using hj
      exact h
    | some known =>
      simp only [hg, Option.some.injEq] at hj
      subst hj
      split
      · exact hr.2 u known hg
      · exact h.bare
  · exact hr.2 u j hj

/-- Whatever is offered may be offered. -/
lemma recording_phraseRegime : (phraseRegime s.model).Recording s where
  fault hr := hr
  silent hr hevents hcandidates _ := ⟨⟨hevents ▸ hr.1, hcandidates ▸ hr.2⟩, trivial⟩
  note {r e} hr he := by
    refine ⟨speaks_record hr ?_, trivial⟩
    cases e with
    | offerToken => cases he
    | _ => trivial
  offer {r t k} hr hp :=
    ⟨speaks_offer (r := r.record (.offerToken t k)) (speaks_record hr hp) hp, trivial⟩
  collect hr _ := ⟨speaks_record hr trivial, trivial⟩
  special hr _ := ⟨speaks_record (speaks_record hr trivial) trivial, trivial⟩
  enter _ hr := speaks_record hr trivial
  exit _ _ _ hr _ := ⟨speaks_record hr trivial, trivial⟩

lemma speaks_start : s.start.Speaks s.model := ⟨List.forall_mem_nil _, nofun⟩

/-- Whatever is offered on the way is a phrase, also if the walk ends with an error. -/
theorem isPhrase_of_mem_events {name : String} {t : TokenId} {k : List TokenId}
    (h : .offerToken t k ∈ (s.completeTraced name).2) : s.model.IsPhrase t k := by
  rw [completeTraced] at h
  cases hroot : s.model.ruleId? name with
  | none => simp [hroot] at h
  | some root =>
    have hkeeps := (recording_phraseRegime (s := s)).matchRule s.limits.depth root
      (s.stream.skipHidden 0)
    cases hw : s.walk root with
    | ok o r =>
      simp only [hroot, hw, List.mem_reverse] at h
      exact (hkeeps.ok speaks_start hw).1.1 _ h
    | error e r =>
      simp only [hroot, hw, List.mem_reverse] at h
      exact (hkeeps.error speaks_start hw).1 _ h

/-- A walk ends with candidates that are phrases. -/
theorem isPhrase_of_get?_phrases {root : RuleId} {o : Outcome} {r : Run} {t : TokenId}
    {k : List TokenId} (hw : s.walk root = .ok o r)
    (h : r.candidates.phrases.get? t = some k) : s.model.IsPhrase t k := by
  have hkeeps := (recording_phraseRegime (s := s)).matchRule s.limits.depth root
    (s.stream.skipHidden 0)
  exact (hkeeps.ok speaks_start hw).1.2 t k h

end Session

/-! ## Compiled models -/

namespace Grammar

/-- **Which phrases a compiled model offers.**  The wildcard is in none of them, and neither is any
other token that is never offered.  The end of the input follows no other token, and if it leads a
phrase, then it is alone and one of the tokens of a rule that chooses between tokens. -/
theorem offers_of_compile {g : Grammar} {v : Vocabulary} {p : Policy} {loader : Option Loader}
    {m : Model} (h : g.compile v p loader = .ok m) (stream : TokenStream) (caret : Caret)
    (limits : Limits) (root : String) {t : TokenId} {k : List TokenId}
    (ho : .offerToken t k ∈ (Session.completeTraced ⟨m, stream, caret, limits⟩ root).2) :
    (∀ u ∈ t :: k, u ≠ .wildcard ∧ u ∉ m.ignoredTokens) ∧ .eof ∉ k ∧
      (t = .eof → k = [] ∧ ∃ r tokens, m.body r = .ok (.tokenSet tokens) ∧ .eof ∈ tokens) := by
  have hphrase := Session.isPhrase_of_mem_events ho
  have hshown : ∀ u ∈ t :: k, u ∉ m.ignoredTokens :=
    fun u hu => of_decide_eq_false (hphrase.shown u hu)
  refine ⟨fun u hu => ⟨?_, hshown u hu⟩, hphrase.tail, hphrase.lead⟩
  rintro rfl
  exact hshown _ hu (intact_of_compile h).wildcard

/-- After a number, the model of sums offers a sign. -/
theorem offers_of_compile_sums :
    sums.compile sumTokens {} none = .ok sumModel ∧
      let s := Session.onLine sumModel [⟨2⟩]
      .offerToken ⟨1⟩ [] ∈ (s.completeTraced "sum").2 ∧
        (∀ u ∈ [(⟨1⟩ : TokenId)], u ≠ .wildcard ∧ u ∉ sumModel.ignoredTokens) ∧
        .eof ∉ ([] : List TokenId) ∧
        ((⟨1⟩ : TokenId) = .eof → ([] : List TokenId) = [] ∧
          ∃ r tokens, sumModel.body r = .ok (.tokenSet tokens) ∧ .eof ∈ tokens) := by
  have hoffer : .offerToken ⟨1⟩ [] ∈ ((Session.onLine sumModel [⟨2⟩]).completeTraced "sum").2 := by
    refine List.contains_iff_mem.1 ?_
    cbv
  exact ⟨compile_sums, hoffer, offers_of_compile compile_sums _ _ _ "sum" hoffer⟩

/-- `r: EOF | A` -/
def ending : Grammar where
  name := "ending"
  rules := [⟨"r", [[.token "EOF"], [.token "A"]]⟩]

/-- The tokens of the grammar that chooses between a token and the end of the input. -/
def endingTokens : Vocabulary := Vocabulary.initial.insertAll [("A", ⟨1⟩)]

/-- The end of the input among single tokens is offered. -/
theorem eof_offered : ∃ m,
    ending.compile endingTokens {} none = .ok m ∧
      (∀ e ∈ endingTokens.ids.entries, e.2 = .eof → e.1 = "EOF") ∧
      (∀ e ∈ endingTokens.ids.entries, e.2 ≠ .wildcard) ∧
      (Session.onLine m []).complete "r" = .ok ⟨["A", "EOF"], false, none, 0⟩ ∧
      .offerToken .eof [] ∈ ((Session.onLine m []).completeTraced "r").2 := by
  let m : Model := {
    rules := .ofList [("r", .tokenSet (.ofList [.eof, ⟨1⟩]))]
    tokenNames := .ofList [(.eof, "EOF"), (⟨1⟩, "A")] }
  have hcompile : ending.compile endingTokens {} none = .ok m := by decide
  have hcomplete : (Session.onLine m []).complete "r" = .ok ⟨["A", "EOF"], false, none, 0⟩ := by cbv
  have hoffer : .offerToken .eof [] ∈ ((Session.onLine m []).completeTraced "r").2 := by
    refine List.contains_iff_mem.1 ?_
    cbv
  exact ⟨m, hcompile, by decide, by decide, hcomplete, hoffer⟩

end Grammar

end GrammarCompletion
