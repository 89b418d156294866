/-
# Completions in the loop form

A left-recursive rule may be replaced by a loop: a completion has the same candidates, the same flag
and the same typed part (`Session.complete_looped`).  The walks are not compared with each other.
Each offers what the visit of its root is said to offer, and these visits are the same.
-/
import GrammarCompletion.Proofs.Loops.Matching
import GrammarCompletion.Proofs.Offers.Walk
import Mathlib

namespace GrammarCompletion

namespace Model.Loops

variable {m : Model} {a : RuleId} {list : List (Sequence RuleId)} {base step name : String}

lemma keys_loopForm (h : m.Loops a list base step) :
    (m.loopForm a base step).rules.keys = m.rules.keys ++ [base, step] := by
  obtain ⟨name, hname, hentries⟩ := h.entries
  have hkeys : (m.rules.entries.set a.index
      (name, .sequences [loopOf m.baseRule m.stepRule])).map Prod.fst = m.rules.keys := by
    rw [List.map_set]
    refine List.ext_getElem? fun i => ?_
    by_cases hi : i = a.index
    · subst hi
      have hlt : a.index < (m.rules.entries.map Prod.fst).length := by
        rw [List.length_map]
        exact h.index_lt
      rw [List.getElem?_set_self hlt, OrderedMap.keys, List.getElem?_map, hname]
      rfl
    · rw [List.getElem?_set_ne (Ne.symm hi)]
      rfl
  rw [OrderedMap.keys, hentries, List.map_append, hkeys]
  rfl

/-- The rules of the model keep their ids. -/
lemma ruleId?_loopForm (h : m.Loops a list base step) {root : RuleId}
    (hroot : m.ruleId? name = some root) : (m.loopForm a base step).ruleId? name = some root := by
  obtain ⟨i, hi, rfl⟩ := Option.map_eq_some_iff.1 hroot
  refine Option.map_eq_some_iff.2 ⟨i, ?_, rfl⟩
  have hindex : m.rules.keys.findIdx? (· == name) = some i := hi
  rw [OrderedMap.indexOf?, h.keys_loopForm, List.idxOf?, List.findIdx?_append, hindex,
    Option.some_or]

lemma ruleName_loopForm (h : m.Loops a list base step) {r : RuleId} (hr : m.ruleName r = .ok name) :
    (m.loopForm a base step).ruleName r = .ok name := by
  rw [ruleName_eq_ok_iff] at hr ⊢
  have hlt : r.index < m.rules.keys.length := (List.getElem?_eq_some_iff.1 hr).1
  rw [h.keys_loopForm, List.getElem?_append_left hlt, hr]

end Model.Loops

namespace Session

variable {s : Session} {a : RuleId} {list : List (Sequence RuleId)} {base step name : String}

/-- **A left-recursive rule behaves like its loop form.** -/
theorem complete_looped (h : s.model.Loops a list base step) {c c' : Completion}
    (hc : s.complete name = .ok c) (hc' : (s.looped a base step).complete name = .ok c') :
    c'.candidates = c.candidates ∧ c'.fullyParsed = c.fullyParsed ∧ c'.typedPart = c.typedPart := by
  obtain ⟨root, o, r, hroot, hw, hcomp⟩ := complete_eq_ok hc
  obtain ⟨root', o', r', hroot', hw', hcomp'⟩ := complete_eq_ok hc'
  obtain rfl : root = root' := Option.some.inj ((h.ruleId?_loopForm hroot).symm.trans hroot')
  obtain ⟨hrender, hflag⟩ := completion_eq_ok hcomp
  obtain ⟨hrender', hflag'⟩ := completion_eq_ok hcomp'
  obtain ⟨L, hvisit, hreflects⟩ :=
    walk_visits (h.directFrom root) (index_lt_of_ruleId? hroot) hw
  obtain ⟨L', hvisit', hreflects'⟩ :=
    walk_visits (h.directFrom_loopForm root) (index_lt_of_ruleId? hroot') hw'
  have hstart : s.UpToStop ⟨root, s.stream.skipHidden 0⟩ :=
    ⟨TokenStream.visible_skipHidden (Nat.zero_le _), TokenStream.skipHidden_zero_le_stop⟩
  obtain ⟨rfl, rfl⟩ := (hvisit.looped h hstart).unique hvisit'
  refine ⟨?_, ?_, ?_⟩
  · exact hreflects.render_eq hreflects' (fun _ => Model.tokenName_loopForm)
      (fun _ _ => h.ruleName_loopForm) hrender hrender'
  · rw [hflag, hflag']
    rfl
  · rw [typedPart_of_complete hc, typedPart_of_complete hc']
    rfl

/-- Sums are `base step*`, where the base is `NUM` and the step is `PLUS NUM`. -/
lemma loops_sums : sums.Loops ⟨0⟩ [⟨[.rule ⟨0⟩ .one, .token ⟨1⟩ .one, .token ⟨2⟩ .one], none⟩,
    ⟨[.token ⟨2⟩ .one], none⟩] "base" "step" := by
  have hrequires : sums.Requires := by
    unfold Model.Requires
    decide
  refine ⟨by decide, by decide, hrequires.not_nullable, by decide, ?_, ?_, by decide, by decide,
    by decide, by decide, by decide⟩
  · intro q hq hd
    rw [hrequires.derivesNodes_nil_iff] at hd
    revert q
    decide
  · -- the other alternative is a token
    have hrefers : ∀ r r', ¬ sums.RefersBesides ⟨0⟩ r r' := by
      rintro ⟨i⟩ r' ⟨list, hb, q, hq, htail, pre, n, post, hnodes, hn, -⟩
      obtain ⟨name, hentry⟩ := Model.body_eq_ok_iff.1 hb
      obtain rfl : i = 0 := Nat.lt_one_iff.1 (List.getElem?_eq_some_iff.1 hentry).1
      have hall : ∀ q ∈ sums.sequences, q.tailOf? ⟨0⟩ = none → ∀ n ∈ q.nodes, n.ruleRef? = none := by
        decide
      have hnone := hall q (Model.mem_sequences hb hq) (htail rfl) n (by simp [hnodes])
      simp [Node.ruleRef?, hn] at hnone
    intro r hr
    obtain ⟨r', hr', -⟩ := Relation.TransGen.head'_iff.1 hr
    exact hrefers r r' hr'

/-- After the sum of two numbers, the loop says the same as the left-recursive rule. -/
theorem complete_looped_sum :
    let s := onLine sums [⟨2⟩, ⟨1⟩, ⟨2⟩]
    s.complete "sum" = .ok ⟨["PLUS NUM"], true, none, 3⟩ ∧
      ∃ c', (s.looped ⟨0⟩ "base" "step").complete "sum" = .ok c' ∧ c'.candidates = ["PLUS NUM"] ∧
        c'.fullyParsed = true ∧ c'.typedPart = none := by
  have hlooped : ((onLine sums [⟨2⟩, ⟨1⟩, ⟨2⟩]).looped ⟨0⟩ "base" "step").complete "sum" =
      .ok ⟨["PLUS NUM"], true, none, 3⟩ := by
    cbv
  exact ⟨complete_sums, _, hlooped, complete_looped loops_sums complete_sums hlooped⟩

end Session

end GrammarCompletion
