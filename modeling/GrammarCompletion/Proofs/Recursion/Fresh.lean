/-
# Finished results are those of fresh walks

A result that is kept for later, and that is finished, is the outcome that the rule has at the
position in a walk that starts there with nothing remembered, under all limits from some point on
(`finished_eq_fresh`).  This is so for every rule from which only direct left recursion can be
reached, at every moment of a walk.

Two rules that are left-recursive through each other are an exception.  Where the first is grown,
it consumes what the second would have needed; entered on its own the second would be grown itself,
and get further (`stale_crossed`).
-/
import GrammarCompletion.Proofs.Limits.Cutoff
import GrammarCompletion.Proofs.Recursion.Visit
import GrammarCompletion.Proofs.Soundness.Completion

namespace GrammarCompletion

open Walk

namespace Session

variable {s : Session} {l : Limits} {a : Spot} {o : Outcome} {r : Run} {root : RuleId}

/-- A walk over a rule from a position, with nothing remembered. -/
def fresh (s : Session) (a : Spot) : EStateM.Result CompletionError Run Outcome :=
  (s.matchRule s.limits.depth a.rule a.start).run s.start

/-- A rule has an outcome at a spot in fresh walks under all limits that are large enough. -/
def FreshHas (s : Session) (a : Spot) (o : Outcome) : Prop :=
  ∃ n, ∀ l : Limits, n ≤ l.fuel → n ≤ l.depth → ∃ r, (s.withLimits l).fresh a = .ok o r

/-- A walk over a rule comes past a run: the run is the one at the end, or the one in which some
rule is about to be visited, where the same walk with less fuel ends.  Finished results are never
taken back, so that no others can be seen in between. -/
def Passes (s : Session) (root : RuleId) (r : Run) : Prop :=
  ∃ n ≤ s.limits.fuel, (∃ o, (s.withLimits ⟨n, s.limits.depth⟩).walk root = .ok o r) ∨
    ∃ e, (s.withLimits ⟨n, s.limits.depth⟩).walk root = .error e r

/-! ## Fresh walks -/

/-- A fresh walk stays within the regime without frames. -/
lemma keeps_fresh (hv : s.model.WellFormed → a.rule.index < s.model.ruleCount) :
    ((s.frameRegime [] []).inside []).Keeps (s.matchRule s.limits.depth a.rule a.start)
      fun o r => s.Answers [] r a o := by
  refine visiting_frameRegime.rule (a := a) (i := []) ?_
  exact ⟨List.pairwise_singleton _ a, List.forall_mem_nil _, List.nodup_nil, rfl,
    fun hwf => by simpa using hv hwf⟩

lemma inv_start : ((s.frameRegime [] []).inside []).inv s.start :=
  ⟨⟨rfl, memoHolds_empty⟩, rfl⟩

/-- What is finished when a fresh walk ends, with an outcome or an error, is settled. -/
lemma memoSettled_of_fresh (hv : s.model.WellFormed → a.rule.index < s.model.ruleCount)
    (h : (∃ o, s.fresh a = .ok o r) ∨ ∃ e, s.fresh a = .error e r) : s.MemoSettled r.memo := by
  have hkeeps := keeps_fresh hv
  rcases h with ⟨o, h⟩ | ⟨e, h⟩
  · exact (hkeeps.ok inv_start h).1.1.memo.memoSettled
  · exact (hkeeps.error inv_start h).memo

/-- The outcome of a fresh walk is that to which the rule settles. -/
lemma settles_of_fresh (hv : s.model.WellFormed → a.rule.index < s.model.ruleCount)
    (hd : s.model.DirectFrom a.rule) (h : s.fresh a = .ok o r) : s.Settles a o := by
  have hanswer := ((keeps_fresh hv).ok inv_start h).2.2
  rcases hanswer.settled hd with ⟨-, hs⟩ | ⟨hhead, -⟩
  · exact hs
  · simp at hhead

/-- A fresh walk does the same under larger limits, and only the fuel that is left is another. -/
lemma fresh_extends {l l' : Limits} (hfuel : l.fuel ≤ l'.fuel) (hdepth : l.depth ≤ l'.depth)
    (h : (s.withLimits l).fresh a = .ok o r) :
    ∃ n, (s.withLimits l').fresh a = .ok o (r.withFuel n) := by
  obtain ⟨k, hk⟩ := Nat.exists_eq_add_of_le hfuel
  have hextends := visit_extends (m := l') (k := k) hdepth h
  have hstart : (s.withLimits l).start.withFuel ((s.withLimits l).start.fuel + k) =
      (s.withLimits l').start := by
    simp only [start, Run.withFuel, limits_withLimits, hk]
  rw [hstart] at hextends
  exact ⟨_, hextends⟩

lemma FreshHas.of_fresh (h : (s.withLimits l).fresh a = .ok o r) : s.FreshHas a o := by
  refine ⟨max l.fuel l.depth, fun l' hfuel hdepth => ?_⟩
  obtain ⟨n, hn⟩ := fresh_extends (le_of_max_le_left hfuel) (le_of_max_le_right hdepth) h
  exact ⟨_, hn⟩

/-- There is at most one outcome under large limits. -/
lemma FreshHas.unique {o' : Outcome} (h : s.FreshHas a o) (h' : s.FreshHas a o') : o = o' := by
  obtain ⟨n, hn⟩ := h
  obtain ⟨m, hm⟩ := h'
  obtain ⟨r, hr⟩ := hn ⟨n + m, n + m⟩ (Nat.le_add_right n m) (Nat.le_add_right n m)
  obtain ⟨r', hr'⟩ := hm ⟨n + m, n + m⟩ (Nat.le_add_left m n) (Nat.le_add_left m n)
  exact (by simpa using hr.symm.trans hr' : o = o' ∧ r = r').1

/-- In a well-formed model every fresh walk ends without an error under large limits. -/
lemma exists_freshHas (hwf : s.model.WellFormed) (ha : a.rule.index < s.model.ruleCount) :
    ∃ n r o, (s.withLimits ⟨n, s.depthBound⟩).fresh a = .ok o r := by
  obtain ⟨n, y, r, hn⟩ := metered_visit s s.depthBound s.depthBound a.rule a.start
    { fuel := 0 }
  have hend : (s.withLimits ⟨n, s.depthBound⟩).fresh a = ends y (r.withFuel 0) := hn.enough n 0
  cases y with
  | ok o => exact ⟨n, _, o, hend⟩
  | error e =>
    -- the depth is large enough, so the fuel would have to run out, but it does not
    have hkeeps := keeps_fresh (s := s.withLimits ⟨n, s.depthBound⟩) fun _ => ha
    have hbreaks := hkeeps.error inv_start hend
    obtain ⟨p, rfl⟩ := hbreaks.exhausted hwf (Nat.le_refl _)
    exact absurd rfl (hn.fueled p)

/-! ## What a rule settles to under other limits -/

@[simp] lemma plainNode_withLimits : (s.withLimits l).plainNode = s.plainNode := rfl

@[simp] lemma plainRepeats_withLimits : (s.withLimits l).plainRepeats = s.plainRepeats := by
  funext w leaves n rest count p
  induction count generalizing p with
  | zero => rfl
  | succ count ih => simp [plainRepeats, ih]

@[simp] lemma plainNodes_withLimits : (s.withLimits l).plainNodes = s.plainNodes := by
  funext w leaves nodes p
  induction nodes generalizing p with
  | nil => rfl
  | cons n rest ih => simp [plainNodes, ih]

@[simp] lemma plainSequences_withLimits :
    (s.withLimits l).plainSequences = s.plainSequences := by
  funext w leaves start t list
  induction list generalizing t with
  | nil => rfl
  | cons q rest ih => simp [plainSequences, ih]

@[simp] lemma plainSeeded_withLimits : (s.withLimits l).plainSeeded = s.plainSeeded := by
  funext w leaves a seed
  simp [plainSeeded, plainBody]

@[simp] lemma plainRule_withLimits : (s.withLimits l).plainRule = s.plainRule := by
  funext depth a
  induction depth generalizing a with
  | zero => rfl
  | succ depth ih =>
    have hrule : (s.withLimits l).plainRule depth = s.plainRule depth := funext ih
    simp [plainRule, hrule]

/-- What a rule settles to does not depend on the limits. -/
lemma settles_withLimits : (s.withLimits l).Settles a o ↔ s.Settles a o := by
  simp only [Settles, plainRule_withLimits]

/-! ## Finished results -/

lemma index_lt_of_ruleId? {m : Model} {name : String} (h : m.ruleId? name = some root) :
    root.index < m.ruleCount := by
  obtain ⟨i, hi, rfl⟩ := Option.map_eq_some_iff.1 h
  obtain ⟨hlt, -⟩ := List.idxOf?_eq_some_iff.1 hi
  rwa [OrderedMap.keys, List.length_map] at hlt

/-- Whatever a walk has finished at some moment is settled. -/
lemma settles_of_passes (hroot : root.index < s.model.ruleCount) (hr : s.Passes root r)
    (hm : r.memo[a]? = some ⟨o, false⟩) (hwf : s.model.WellFormed)
    (hd : s.model.DirectFrom a.rule) : a.rule.index < s.model.ruleCount ∧ s.Settles a o := by
  obtain ⟨n, -, hend⟩ := hr
  have hmemo := memoSettled_of_fresh (s := s.withLimits ⟨n, s.limits.depth⟩)
    (a := ⟨root, s.stream.skipHidden 0⟩) (fun _ => hroot) hend
  obtain ⟨hv, hs⟩ := hmemo a o hm
  exact ⟨hv hwf, settles_withLimits.1 (hs hd)⟩

/-- The result at a spot when a walk ends. -/
def memo? (x : EStateM.Result CompletionError Run Outcome) (a : Spot) : Option Memo :=
  match x with
  | .ok _ r => r.memo[a]?
  | .error _ r => r.memo[a]?

/-- A walk comes past the run at its end. -/
lemma exists_passes {e : Memo} (h : memo? (s.walk root) a = some e) :
    ∃ r, s.Passes root r ∧ r.memo[a]? = some e := by
  cases hw : s.walk root with
  | ok o r =>
    rw [hw] at h
    exact ⟨r, ⟨s.limits.fuel, Nat.le_refl _, Or.inl ⟨o, hw⟩⟩, h⟩
  | error e r =>
    rw [hw] at h
    exact ⟨r, ⟨s.limits.fuel, Nat.le_refl _, Or.inr ⟨e, hw⟩⟩, h⟩

/-- The rule of sums refers to no other rule. -/
lemma directFrom_sum : sums.DirectFrom ⟨0⟩ := by
  refine .of_refers fun r hr => ?_
  obtain ⟨list, hb, q, hq, n, hn, hsymbol⟩ := hr
  have hvalid : ∀ q ∈ sums.sequences, ∀ n ∈ q.nodes,
      n.symbol = .token ⟨1⟩ ∨ n.symbol = .token ⟨2⟩ ∨ n.symbol = .rule ⟨0⟩ := by decide
  have hcases := hvalid q (Model.mem_sequences hb hq) n hn
  rw [hsymbol] at hcases
  simpa using hcases

/-- **A finished result is the outcome of a fresh walk**, at every moment of a walk, for every rule
from which only direct left recursion can be reached. -/
theorem finished_eq_fresh (hwf : s.model.WellFormed) {name : String}
    (hroot : s.model.ruleId? name = some root) (hr : s.Passes root r)
    (hm : r.memo[a]? = some ⟨o, false⟩) (hd : s.model.DirectFrom a.rule) : s.FreshHas a o := by
  obtain ⟨ha, hs⟩ := settles_of_passes (index_lt_of_ruleId? hroot) hr hm hwf hd
  obtain ⟨n, r', o', hfresh⟩ := exists_freshHas hwf ha
  have hs' : (s.withLimits ⟨n, s.depthBound⟩).Settles a o' :=
    settles_of_fresh (fun _ => ha) hd hfresh
  obtain rfl : o = o' := hs.unique (settles_withLimits.1 hs')
  exact .of_fresh hfresh

/-- The finished result of a sum in a walk over it. -/
theorem finished_sum :
    let s := onLine sums [⟨2⟩, ⟨1⟩, ⟨2⟩]
    s.model.WellFormed ∧ s.model.ruleId? "sum" = some ⟨0⟩ ∧ s.model.DirectFrom ⟨0⟩ ∧
      (∃ r, s.Passes ⟨0⟩ r ∧ r.memo[(⟨⟨0⟩, 0⟩ : Spot)]? = some ⟨⟨true, 3, .pending⟩, false⟩) ∧
      s.FreshHas ⟨⟨0⟩, 0⟩ ⟨true, 3, .pending⟩ := by
  have hwf : sums.WellFormed := by decide
  have hroot : sums.ruleId? "sum" = some ⟨0⟩ := by decide
  have hmemo : memo? ((onLine sums [⟨2⟩, ⟨1⟩, ⟨2⟩]).walk ⟨0⟩) ⟨⟨0⟩, 0⟩ =
      some ⟨⟨true, 3, .pending⟩, false⟩ := by cbv
  obtain ⟨r, hr, hm⟩ := exists_passes hmemo
  exact ⟨hwf, hroot, directFrom_sum, ⟨r, hr, hm⟩,
    finished_eq_fresh hwf hroot hr hm directFrom_sum⟩

/-- `s: a Q | b X R; a: b X | Y; b: a Z` -/
def crossed : Model where
  rules := .ofList [
    ("s", .sequences [⟨[.rule ⟨1⟩ .one, .token ⟨4⟩ .one], none⟩,
      ⟨[.rule ⟨2⟩ .one, .token ⟨1⟩ .one, .token ⟨5⟩ .one], none⟩]),
    ("a", .sequences [⟨[.rule ⟨2⟩ .one, .token ⟨1⟩ .one], none⟩, ⟨[.token ⟨3⟩ .one], none⟩]),
    ("b", .sequences [⟨[.rule ⟨1⟩ .one, .token ⟨2⟩ .one], none⟩])]
  tokenNames := .ofList [(⟨1⟩, "X"), (⟨2⟩, "Z"), (⟨3⟩, "Y"), (⟨4⟩, "Q"), (⟨5⟩, "R")]

/-- Left recursion through another rule is an exception.  Here `b` is entered when `a` has been grown
over all of the input, finds that result, and fails.  A fresh walk over `b` matches two tokens. -/
theorem stale_crossed :
    let s := onLine crossed [⟨3⟩, ⟨2⟩, ⟨1⟩]
    s.model.WellFormed ∧ s.model.ruleId? "s" = some ⟨0⟩ ∧
      ∃ r, s.Passes ⟨0⟩ r ∧ r.memo[(⟨⟨2⟩, 0⟩ : Spot)]? = some ⟨⟨false, 0, .matching⟩, false⟩ ∧
        s.FreshHas ⟨⟨2⟩, 0⟩ ⟨true, 2, .matching⟩ ∧ ¬ s.FreshHas ⟨⟨2⟩, 0⟩ ⟨false, 0, .matching⟩ := by
  have hmemo : memo? ((onLine crossed [⟨3⟩, ⟨2⟩, ⟨1⟩]).walk ⟨0⟩) ⟨⟨2⟩, 0⟩ =
      some ⟨⟨false, 0, .matching⟩, false⟩ := by cbv
  have hfresh : outcome? (((onLine crossed [⟨3⟩, ⟨2⟩, ⟨1⟩]).withLimits ⟨100, 10⟩).fresh ⟨⟨2⟩, 0⟩) =
      some ⟨true, 2, .matching⟩ := by cbv
  obtain ⟨r, hr, hm⟩ := exists_passes hmemo
  obtain ⟨r', hr'⟩ := exists_of_outcome? hfresh
  have hhas : (onLine crossed [⟨3⟩, ⟨2⟩, ⟨1⟩]).FreshHas ⟨⟨2⟩, 0⟩ ⟨true, 2, .matching⟩ :=
    .of_fresh hr'
  refine ⟨by decide, by decide, r, hr, hm, hhas, fun hstale => ?_⟩
  exact absurd (hhas.unique hstale) (by decide)

end Session

end GrammarCompletion
