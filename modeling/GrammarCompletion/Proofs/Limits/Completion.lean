/-
# Answers under different limits

The limits decide whether a completion is found, and never which one.  As the fuel goes up, the
answer is that the fuel ran out up to some amount, and from there on one and the same; and under no
limits does an answer depend on how many rounds the loops of the walk are given (`complete_fuel`).
As both limits go up, a completion once found stays (`complete_more`).  A limit of the depth that
cannot be exceeded is known in advance: as many rules can lie inside each other as there are rules
at tokens (`complete_depth`).
-/
import GrammarCompletion.Proofs.Limits.Rounds
import GrammarCompletion.Proofs.Recursion.Fresh

namespace GrammarCompletion

open Walk

namespace Session

variable {s : Session} {l : Limits} {root : RuleId} {name : String} {c : Completion}

/-! ## Answers -/

@[simp] lemma answer_withLimits : (s.withLimits l).answer = s.answer := rfl

/-- The candidates may name rules that the model does not have, but nothing else goes wrong at the
end of a walk. -/
lemma completion_ne_error {o : Outcome} {k : Candidates} {e : CompletionError}
    (he : ∀ d, e ≠ .defect d) : s.completion o k ≠ .error e := by
  rw [completion]
  cases k.render s.model with
  | error d => exact fun h => he d (by simpa [Except.mapError, bind, Except.bind] using h.symm)
  | ok texts => simp [Except.mapError, bind, Except.bind, pure, Except.pure]

/-- An error that is not a defect comes from the walk. -/
lemma answer_eq_error {x : EStateM.Result CompletionError Run Outcome} {e : CompletionError}
    (he : ∀ d, e ≠ .defect d) (h : s.answer x = .error e) : ∃ r, x = .error e r := by
  cases x with
  | ok o r => exact absurd h (completion_ne_error he)
  | error e' r =>
    obtain rfl : e' = e := by simpa [answer] using h
    exact ⟨r, rfl⟩

/-! ## Fuel -/

/-- The amount of fuel that a completion needs, and the answer that it has from there on. -/
lemma exists_fuel (s : Session) (depth : Nat) (name : String) :
    ∃ n result, (∀ f, result ≠ .error (.fuelExhausted f)) ∧
      ∀ f, (s.withLimits ⟨f, depth⟩).complete name =
        if f < n then .error (.fuelExhausted f) else result := by
  cases hroot : s.model.ruleId? name with
  | none =>
    refine ⟨0, .error (.unknownRule name), by simp, fun f => ?_⟩
    exact complete_of_unknown hroot
  | some root =>
    obtain ⟨n, y, r, hn⟩ := metered_visit s depth depth root (s.stream.skipHidden 0) { fuel := 0 }
    have hcomplete : ∀ f, (s.withLimits ⟨f, depth⟩).complete name =
        s.answer ((s.withLimits ⟨f, depth⟩).walk root) := fun f => complete_of_root hroot
    refine ⟨n, s.answer (ends y r), fun f he => ?_, fun f => ?_⟩
    · obtain ⟨r', hr'⟩ := answer_eq_error (by simp) he
      cases y with
      | ok o => simp [ends] at hr'
      | error e =>
        obtain ⟨rfl, -⟩ : e = .fuelExhausted f ∧ r = r' := by simpa [ends] using hr'
        exact hn.fueled f rfl
    rw [hcomplete]
    split
    · next hf =>
      obtain ⟨r', hr'⟩ := hn.short f f hf
      have hwalk : (s.withLimits ⟨f, depth⟩).walk root = .error (.fuelExhausted f) r' := hr'
      rw [hwalk, answer]
    · next hf =>
      obtain ⟨g, rfl⟩ := Nat.exists_eq_add_of_le (Nat.le_of_not_lt hf)
      have hwalk : (s.withLimits ⟨n + g, depth⟩).walk root = ends y (r.withFuel g) := hn.enough _ g
      -- the fuel that is left plays no part in the answer
      rw [hwalk]
      cases y <;> rfl

/-- **A completion always ends, and the fuel only cuts off.**  With less than a certain amount of
fuel, the answer is that the fuel ran out, and with that amount or any more it is always the same
one.  It is not the count of their rounds that ends the loops: the walk whose loops fail when their
rounds are used up never fails, for any number of rounds that is larger than the input, and has the
same answer. -/
theorem complete_fuel (s : Session) (depth : Nat) (name : String) :
    ∃ n result, (∀ f, result ≠ .error (.fuelExhausted f)) ∧
      ∀ f, (s.withLimits ⟨f, depth⟩).complete name =
          (if f < n then .error (.fuelExhausted f) else result) ∧
        ∀ more, (s.withLimits ⟨f, depth⟩).completeWithin (s.stream.size + 1 + more) name =
          some ((s.withLimits ⟨f, depth⟩).complete name) := by
  obtain ⟨n, result, hresult, hfuel⟩ := s.exists_fuel depth name
  refine ⟨n, result, hresult, fun f => ⟨hfuel f, fun more => ?_⟩⟩
  have hrounds : (s.withLimits ⟨f, depth⟩).stream.size < s.stream.size + 1 + more :=
    Nat.lt_add_right more (Nat.lt_succ_self s.stream.size)
  exact completeWithin_eq hrounds name

/-! ## Depth -/

/-- A completion that is found is found under larger limits. -/
theorem complete_more (h : s.complete name = .ok c) (hfuel : s.limits.fuel ≤ l.fuel)
    (hdepth : s.limits.depth ≤ l.depth) : (s.withLimits l).complete name = .ok c := by
  obtain ⟨root, o, r, hroot, hw, hc⟩ := complete_eq_ok h
  have hfresh : (s.withLimits s.limits).fresh ⟨root, s.stream.skipHidden 0⟩ = .ok o r := hw
  obtain ⟨n, hn⟩ := fresh_extends hfuel hdepth hfresh
  have hwalk : (s.withLimits l).walk root = .ok o (r.withFuel n) := hn
  rw [complete_of_root (s := s.withLimits l) hroot, hwalk]
  exact hc

/-- A walk over a well-formed model does not exceed a limit of the depth as large as the bound. -/
lemma walk_ne_recursionLimit (hwf : s.model.WellFormed) (hroot : root.index < s.model.ruleCount)
    (hbound : s.depthBound ≤ s.limits.depth) {n : Nat} {r : Run} :
    s.walk root ≠ .error (.recursionLimit n) r := by
  intro hw
  have hfresh : s.fresh ⟨root, s.stream.skipHidden 0⟩ = .error (.recursionLimit n) r := hw
  have hbreaks := (keeps_fresh fun _ => hroot).error inv_start hfresh
  obtain ⟨f, hf⟩ := hbreaks.exhausted hwf hbound
  simp at hf

lemma depthBound_eq (s : Session) :
    s.depthBound = s.model.ruleCount * s.stream.toList.length := by
  simp [depthBound, TokenStream.toList, TokenStream.size]

/-- **The limit of the depth only cuts off.**  It is never exceeded if it allows for every rule at
every token, the closing one included; and a completion that is found under some limits is found
under all larger ones. -/
theorem complete_depth (hwf : s.model.WellFormed) (name : String) :
    (s.model.ruleCount * s.stream.toList.length ≤ s.limits.depth →
      ∀ n, s.complete name ≠ .error (.recursionLimit n)) ∧
    ∀ c l, s.complete name = .ok c → s.limits.fuel ≤ l.fuel → s.limits.depth ≤ l.depth →
      (s.withLimits l).complete name = .ok c := by
  refine ⟨fun hbound n h => ?_, fun c l => complete_more⟩
  rw [← depthBound_eq] at hbound
  cases hroot : s.model.ruleId? name with
  | none => simp [complete_of_unknown hroot] at h
  | some root =>
    rw [complete_of_root hroot] at h
    obtain ⟨r, hr⟩ := answer_eq_error (by simp) h
    exact walk_ne_recursionLimit hwf (index_lt_of_ruleId? hroot) hbound hr

/-- A sum of three tokens, where four rules may lie inside each other. -/
theorem complete_depth_sum :
    let s := (onLine sums [⟨2⟩, ⟨1⟩, ⟨2⟩]).withLimits ⟨100, 4⟩
    s.model.WellFormed ∧ s.model.ruleCount * s.stream.toList.length = 4 ∧
      s.complete "sum" = .ok ⟨["PLUS NUM"], true, none, 3⟩ ∧
      (∀ n, s.complete "sum" ≠ .error (.recursionLimit n)) ∧
      (s.withLimits ⟨200, 9⟩).complete "sum" = .ok ⟨["PLUS NUM"], true, none, 3⟩ := by
  have hwf : sums.WellFormed := by decide
  have hcomplete : ((onLine sums [⟨2⟩, ⟨1⟩, ⟨2⟩]).withLimits ⟨100, 4⟩).complete "sum" =
      .ok ⟨["PLUS NUM"], true, none, 3⟩ := by cbv
  have hcount : sums.ruleCount * (onLine sums [⟨2⟩, ⟨1⟩, ⟨2⟩]).stream.toList.length = 4 := by decide
  have hdepth := complete_depth
    (s := (onLine sums [⟨2⟩, ⟨1⟩, ⟨2⟩]).withLimits ⟨100, 4⟩) hwf "sum"
  refine ⟨hwf, hcount, hcomplete, hdepth.1 (Nat.le_of_eq hcount), ?_⟩
  exact hdepth.2 _ ⟨200, 9⟩ hcomplete (by decide) (by decide)

end Session

end GrammarCompletion
