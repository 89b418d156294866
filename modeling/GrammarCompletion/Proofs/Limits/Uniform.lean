/-
# Walks under different limits

A walk is compared with the same walk under other limits.  `Walk.Uniform` lists what has to be
checked of a property of *families* of walks, one for each of several limits, so that the family of
all visits of a rule has it.  A part of a walk sees its limits in three places only: where fuel is
used up, where rules lie too deep inside each other, and nowhere else; so nearly all of the closure
is the same for all such properties.
-/
import GrammarCompletion.Proofs.Walk.Visiting

namespace GrammarCompletion

/-- The same run with another amount of fuel. -/
def Run.withFuel (r : Run) (n : Nat) : Run := { r with fuel := n }

/-- The same session with other limits. -/
def Session.withLimits (s : Session) (l : Limits) : Session := { s with limits := l }

namespace Session

variable {s : Session} {l : Limits}

@[simp] lemma model_withLimits : (s.withLimits l).model = s.model := rfl

@[simp] lemma stream_withLimits : (s.withLimits l).stream = s.stream := rfl

@[simp] lemma limits_withLimits : (s.withLimits l).limits = l := rfl

@[simp] lemma reached_withLimits : (s.withLimits l).reached = s.reached := rfl

@[simp] lemma matchToken_withLimits : (s.withLimits l).matchToken = s.matchToken := rfl

@[simp] lemma matchTokenSet_withLimits : (s.withLimits l).matchTokenSet = s.matchTokenSet := rfl

end Session

namespace Walk

/-- What is needed of a property of families of walks under the limits `limits i`, inside which at
most `d i` rules may lie inside each other for a family `d` with `Depths`. -/
structure Uniform {ι : Type} (limits : ι → Limits) (Depths : (ι → Nat) → Prop)
    (P : ∀ {α : Type}, (ι → Walk α) → Prop) : Prop where
  pure : ∀ {α : Type} (a : α), P fun _ => (pure a : Walk α)
  bind : ∀ {α β : Type} {x : ι → Walk α} {f : ι → α → Walk β}, P x → (∀ a, P fun i => f i a) →
    P fun i => x i >>= f i
  get : ∀ {α : Type} {f : ι → Run → Walk α}, (∀ i r n, f i (r.withFuel n) = f i r) →
    (∀ r, P fun i => f i r) → P fun i => get >>= f i
  modify : ∀ {f : Run → Run}, (∀ r n, f (r.withFuel n) = (f r).withFuel n) →
    P fun _ => (modify f : Walk Unit)
  burn : P fun i => burn (limits i).fuel
  defect : ∀ {α : Type} (d : Defect), P fun _ => (throw (.defect d) : Walk α)
  limit : ∀ {α : Type} {d : ι → Nat} {x : ι → Nat → Walk α}, Depths d →
    (∀ e, Depths e → (∀ i, d i = e i + 1) → P fun i => x i (e i)) →
      P fun i => match d i with
        | 0 => throw (.recursionLimit (limits i).depth)
        | n + 1 => x i n

namespace Uniform

variable {ι : Type} {limits : ι → Limits} {Depths : (ι → Nat) → Prop}
  {P : ∀ {α : Type}, (ι → Walk α) → Prop} {s : Session} {d : ι → Nat}
  {matchRule : ι → RuleId → Nat → Walk Outcome} {collect : ι → RuleId → Walk Phase}

section

variable {α β : Type} {x : ι → Walk α}

lemma seq {y : ι → Walk β} (h : Uniform limits Depths P) (hx : P x) (hy : P y) :
    P fun i => x i >>= fun _ => y i :=
  h.bind hx fun _ => hy

/-- The condition is the same under all limits, and how it is decided does not matter. -/
lemma branch (_ : Uniform limits Depths P) {c : Prop} {inst : ι → Decidable c} {y : ι → Walk α}
    (hx : c → P x) (hy : ¬ c → P y) :
    P fun i => @ite _ c (inst i) (x i) (y i) := by
  by_cases hc : c
  · simpa only [if_pos hc] using hx hc
  · simpa only [if_neg hc] using hy hc

lemma emit (h : Uniform limits Depths P) (e : Event) : P fun _ => emit e :=
  h.modify fun _ _ => rfl

lemma ofExcept (h : Uniform limits Depths P) (y : Except Defect α) : P fun _ => ofExcept y := by
  cases y with
  | ok a => exact h.pure a
  | error d => exact h.defect d

lemma discard (h : Uniform limits Depths P) (hx : P x) : P fun i => Functor.discard (x i) := by
  have heq : (fun i => Functor.discard (x i)) = fun i => x i >>= fun _ => Pure.pure () := by
    funext i r
    simp only [Functor.discard, Functor.mapConst, Function.comp_apply, EStateM.map, Bind.bind,
      EStateM.bind, Pure.pure, EStateM.pure]
  rw [heq]
  exact h.seq hx (h.pure ())

end

/-! ## Collecting -/

lemma offer (h : Uniform limits Depths P) (t : TokenId) (c : List TokenId) :
    P fun i => (s.withLimits (limits i)).offer t c := by
  simp only [Session.offer, Session.model_withLimits]
  refine h.branch (fun _ => ?_) fun _ => h.pure ()
  exact h.seq (h.emit _) (h.modify fun _ _ => rfl)

lemma collectNodes (h : Uniform limits Depths P) (hcollect : ∀ id, P fun i => collect i id)
    (nodes : List (Node RuleId)) :
    P fun i => (s.withLimits (limits i)).collectNodes (collect i) nodes := by
  induction nodes with
  | nil => exact h.pure _
  | cons n rest ih =>
    simp only [Session.collectNodes, Session.model_withLimits]
    split
    · next t _ =>
      refine h.branch (fun _ => h.pure _) fun _ => ?_
      -- what follows the offer of the token
      have hrest : P fun i => if n.isRequired = true then (Pure.pure .matching : Walk Phase)
          else (s.withLimits (limits i)).collectNodes (collect i) rest := by
        exact h.branch (fun _ => h.pure _) fun _ => ih
      exact h.branch (fun _ => h.seq (h.offer _ _) hrest) fun _ => hrest
    · next id _ =>
      refine h.bind (hcollect id) fun q => ?_
      exact h.branch (fun _ => h.pure _) fun _ => ih

lemma collectSequences (h : Uniform limits Depths P) (hcollect : ∀ id, P fun i => collect i id)
    (list : List (Sequence RuleId)) :
    P fun i => (s.withLimits (limits i)).collectSequences (collect i) list := by
  induction list with
  | nil => exact h.pure _
  | cons q rest ih =>
    simp only [Session.collectSequences]
    refine h.bind (h.collectNodes hcollect q.nodes) fun ph => ?_
    exact h.bind ih fun _ => h.pure _

lemma collectTokens (h : Uniform limits Depths P) (list : List TokenId) :
    P fun i => (s.withLimits (limits i)).collectTokens list := by
  induction list with
  | nil => exact h.pure _
  | cons t rest ih => exact h.seq (h.offer t []) ih

/-- Collecting from a rule. -/
lemma collectRule [Inhabited ι] (h : Uniform limits Depths P) (hd : Depths d) (rule : RuleId) :
    P fun i => (s.withLimits (limits i)).collectRule (d i) rule := by
  -- all members of the family go down at once, so the depth of one of them will do
  induction hn : d default using Nat.strong_induction_on generalizing d rule with
  | _ n ih =>
    have heq : (fun i => (s.withLimits (limits i)).collectRule (d i) rule) = fun i => _ :=
      funext fun i => Session.collectRule.eq_def _ _ _
    rw [heq]
    simp only [Session.model_withLimits]
    refine h.seq h.burn (h.seq (h.emit _) ?_)
    refine h.branch (fun _ => ?_) fun _ => ?_
    · exact h.seq (h.seq (h.emit _) (h.modify fun _ _ => rfl)) (h.pure _)
    refine h.get (fun _ _ _ => rfl) fun r => h.branch (fun _ => h.pure _) fun _ => ?_
    refine h.bind (h.ofExcept _) fun body => ?_
    cases body with
    | tokenSet tokens => exact h.collectTokens _
    | sequences list =>
      refine h.limit hd fun e he hde => ?_
      refine h.seq (h.modify fun _ _ => rfl) (h.bind (h.collectSequences (fun id => ?_) list) ?_)
      · exact ih (e default) (by rw [← hn, hde]; exact Nat.lt_succ_self _) he id rfl
      · exact fun ph => h.seq (h.modify fun _ _ => rfl) (h.pure ph)

/-! ## Matching -/

lemma matchNode (h : Uniform limits Depths P) (hmatch : ∀ id p, P fun i => matchRule i id p)
    (n : Node RuleId) (p : Nat) :
    P fun i => (s.withLimits (limits i)).matchNode (matchRule i) n p := by
  simp only [Session.matchNode, Session.matchToken_withLimits]
  split
  · exact h.pure _
  · exact hmatch _ _

lemma collectBehind (h : Uniform limits Depths P) (hcollect : ∀ id, P fun i => collect i id)
    (n : Node RuleId) (rest : List (Node RuleId)) :
    P fun i => (s.withLimits (limits i)).collectBehind (collect i) n rest := by
  simp only [Session.collectBehind]
  refine h.branch (fun _ => ?_) fun _ => h.collectNodes hcollect _
  exact h.seq (h.discard (h.collectNodes hcollect _)) (h.collectNodes hcollect _)

lemma collectAtCaret (h : Uniform limits Depths P) (hcollect : ∀ id, P fun i => collect i id)
    (n : Node RuleId) (rest : List (Node RuleId)) (p : Nat) :
    P fun i => (s.withLimits (limits i)).collectAtCaret (collect i) n rest p := by
  simp only [Session.collectAtCaret, Session.collectAfterRepeat]
  refine h.seq (h.emit _) (h.branch (fun _ => ?_) fun _ => h.collectNodes hcollect _)
  refine h.bind (h.collectNodes hcollect _) fun ph => ?_
  exact h.branch (fun _ => h.collectNodes hcollect _) fun _ => h.pure _

lemma matchRepeats (h : Uniform limits Depths P) (hmatch : ∀ id p, P fun i => matchRule i id p)
    (hcollect : ∀ id, P fun i => collect i id) (n : Node RuleId) (rest : List (Node RuleId))
    (count p : Nat) :
    P fun i => (s.withLimits (limits i)).matchRepeats (matchRule i) (collect i) n rest count p := by
  induction count generalizing p with
  | zero => exact h.pure _
  | succ count ih =>
    simp only [Session.matchRepeats, Session.stream_withLimits, Session.reached_withLimits]
    refine h.branch (fun _ => h.pure _) fun _ => h.bind (h.matchNode hmatch n p) fun o => ?_
    refine h.branch (fun _ => ?_) fun _ => h.branch (fun _ => h.pure _) fun _ => ?_
    · exact h.bind (h.collectBehind hcollect n rest) fun _ => h.pure _
    refine h.branch (fun _ => ?_) fun _ => h.branch (fun _ => h.pure _) fun _ => ih _
    exact h.bind (h.collectAtCaret hcollect n rest _) fun _ => h.pure _

lemma matchNodes (h : Uniform limits Depths P) (hmatch : ∀ id p, P fun i => matchRule i id p)
    (hcollect : ∀ id, P fun i => collect i id) (nodes : List (Node RuleId)) (p : Nat) :
    P fun i => (s.withLimits (limits i)).matchNodes (matchRule i) (collect i) nodes p := by
  induction nodes generalizing p with
  | nil => exact h.pure _
  | cons n rest ih =>
    simp only [Session.matchNodes, Session.stream_withLimits, Session.reached_withLimits]
    refine h.bind (h.matchNode hmatch n p) fun o => ?_
    refine h.branch (fun _ => ?_) fun _ => h.branch (fun _ => ?_) fun _ => ?_
    · exact h.bind (h.collectBehind hcollect n rest) fun _ => h.pure _
    · exact h.branch (fun _ => h.pure _) fun _ => ih _
    refine h.branch (fun _ => ?_) fun _ => h.branch (fun _ => ?_) fun _ => ih _
    · exact h.bind (h.collectAtCaret hcollect n rest _) fun _ => h.pure _
    · refine h.bind (h.matchRepeats hmatch hcollect n rest _ _) fun k => ?_
      cases k with
      | finished o => exact h.pure o
      | next q => exact ih q

lemma matchSequences (h : Uniform limits Depths P) (hmatch : ∀ id p, P fun i => matchRule i id p)
    (hcollect : ∀ id, P fun i => collect i id) (start : Nat) (k : Nat) (t : Tally)
    (list : List (Sequence RuleId)) :
    P fun i =>
      (s.withLimits (limits i)).matchSequences (matchRule i) (collect i) start k t list := by
  induction list generalizing k t with
  | nil => exact h.pure _
  | cons q rest ih =>
    simp only [Session.matchSequences]
    exact h.bind (h.matchNodes hmatch hcollect q.nodes start) fun o => h.seq (h.emit _) (ih _ _)

lemma matchBody (h : Uniform limits Depths P) (hmatch : ∀ id p, P fun i => matchRule i id p)
    (hcollect : ∀ id, P fun i => collect i id) (a : Spot) :
    P fun i => (s.withLimits (limits i)).matchBody (matchRule i) (collect i) a := by
  simp only [Session.matchBody, Session.model_withLimits, Session.matchTokenSet_withLimits]
  refine h.bind (h.ofExcept _) fun body => ?_
  cases body with
  | tokenSet tokens => exact h.pure _
  | sequences list =>
    exact h.bind (h.matchSequences hmatch hcollect a.start 0 {} list) fun t => h.pure _

lemma grow (h : Uniform limits Depths P) {body : ι → Walk Outcome} (hbody : P body) (a : Spot)
    (count : Nat) (best : Outcome) : P fun i => Session.grow (body i) a count best := by
  induction count generalizing best with
  | zero => exact h.pure _
  | succ count ih =>
    simp only [Session.grow]
    refine h.seq (h.modify fun _ _ => rfl) (h.bind hbody fun o => ?_)
    exact h.branch (fun _ => ih o) fun _ => h.pure _

lemma matchInFrame (h : Uniform limits Depths P) (hmatch : ∀ id p, P fun i => matchRule i id p)
    (hcollect : ∀ id, P fun i => collect i id) (a : Spot) :
    P fun i => (s.withLimits (limits i)).matchInFrame (matchRule i) (collect i) a := by
  have hbody := h.matchBody (s := s) hmatch hcollect a
  simp only [Session.matchInFrame_eq, Session.matchGrown, Session.stream_withLimits]
  refine h.seq (h.emit _) (h.seq (h.modify fun _ _ => rfl) (h.bind ?_ fun o => ?_))
  · refine h.bind hbody fun seed => h.get (fun _ _ _ => rfl) fun r => ?_
    exact h.branch (fun _ => h.grow hbody a _ _) fun _ => h.pure _
  · exact h.seq (h.modify fun _ _ => rfl) (h.seq (h.emit _) (h.pure o))

/-- **The family of all visits of a rule has the property.** -/
theorem visit [Inhabited ι] (h : Uniform limits Depths P) (hd : Depths d) (rule : RuleId)
    (start : Nat) : P fun i => (s.withLimits (limits i)).matchRule (d i) rule start := by
  induction hn : d default using Nat.strong_induction_on generalizing d rule start with
  | _ n ih =>
    have heq : (fun i => (s.withLimits (limits i)).matchRule (d i) rule start) = fun i => _ :=
      funext fun i => Session.matchRule.eq_def _ _ _ _
    rw [heq]
    simp only [Session.reached_withLimits]
    refine h.seq h.burn (h.branch (fun _ => ?_) fun _ => ?_)
    · exact h.seq (h.emit _) (h.bind (h.collectRule hd rule) fun _ => h.pure _)
    refine h.get (fun _ _ _ => rfl) fun r => ?_
    split
    · next e _ =>
      refine h.seq (h.emit _) (h.branch (fun _ => ?_) fun _ => h.pure _)
      exact h.seq (h.modify fun _ _ => rfl) (h.pure _)
    refine h.branch (fun _ => ?_) fun _ => ?_
    · exact h.seq (h.emit _) (h.seq (h.modify fun _ _ => rfl) (h.pure _))
    refine h.limit hd fun e he hde => h.matchInFrame (fun id p => ?_) (fun id => ?_) _
    · exact ih (e default) (by rw [← hn, hde]; exact Nat.lt_succ_self _) he id p rfl
    · exact h.collectRule he id

end Uniform

end Walk

end GrammarCompletion
