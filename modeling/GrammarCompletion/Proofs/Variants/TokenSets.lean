/-
# Token sets as sequences

The body of a rule that chooses between single tokens is kept as a token set.  That is a matter of
speed: a model in which any of the token sets are unfolded, each into one sequence for each of its
tokens, gives the same answers (`Session.complete_unfolded`).

Only the end of the input must not be among the tokens, because a token set offers it and a sequence
does not.  And a rule whose body is a token set is collected from without being entered, so that a
walk over sequences may exceed the limit of how deep rules lie inside each other where a walk over
token sets does not.  There is no other difference (`Session.complete_unfolded_or_limit`).
-/
import GrammarCompletion.Proofs.Compile.Entries
import GrammarCompletion.Proofs.Variants.Walking

namespace GrammarCompletion

/-! ## Candidates that look alike -/

/-- The same rules, and the same tokens with the same tokens behind them, which may have been
offered in another order. -/
structure Candidates.Looks (c c' : Candidates) : Prop where
  rules : c'.rules = c.rules
  phrases : ∀ t, c'.phrases.get? t = c.phrases.get? t

namespace Candidates.Looks

variable {c c' : Candidates} {m m' : Model}

lemma propose (h : c.Looks c') (hm : ∀ t, m'.isIgnoredToken t = m.isIgnoredToken t) (t : TokenId)
    (k : List TokenId) : (c.propose m t k).Looks (c'.propose m' t k) := by
  refine ⟨by rw [rules_propose, rules_propose, h.rules], fun u => ?_⟩
  rw [Candidates.propose, Candidates.propose, hm]
  split
  · exact h.phrases u
  · simp only [get?_phrases_offerToken, h.phrases]

lemma proposeAll (h : c.Looks c') (hm : ∀ t, m'.isIgnoredToken t = m.isIgnoredToken t)
    {l l' : List TokenId} (hl : l.Perm l') : (c.proposeAll m l).Looks (c'.proposeAll m' l') := by
  refine ⟨by rw [rules_proposeAll, rules_proposeAll, h.rules], fun u => ?_⟩
  simp only [get?_phrases_proposeAll, hm, h.phrases, hl.mem_iff]

end Candidates.Looks

/-! ## Walks -/

namespace Session

open Candidates

variable {s : Session} {m' : Model} {name : String} {c c' : Completion}

/-- A model in which token sets are unfolded is walked like the model itself, except that it may
exceed the limit of how deep rules lie inside each other. -/
lemma companion_unfolded (h : s.model.Variant RuleBody.Unfolds m') :
    s.Companion m' Looks (· = .recursionLimit s.limits.depth) where
  resembles := h.toResembles
  limit _ _ := rfl
  empty := ⟨rfl, fun _ => rfl⟩
  token t n rest hc := by
    rw [Model.continuation_congr h.isIgnoredToken]
    exact hc.propose h.isIgnoredToken t _
  tokens hl hc := hc.proposeAll h.isIgnoredToken hl
  rule r hc := ⟨congrArg (·.insert r) hc.rules, hc.phrases⟩

/-- A completion over the model is one over the unfolded model too, unless too many rules lie inside
each other there. -/
theorem complete_unfolded_or_limit (h : s.model.Variant RuleBody.Unfolds m') (name : String) :
    (s.withModel m').complete name = s.complete name ∨
      (s.withModel m').complete name = .error (.recursionLimit s.limits.depth) := by
  rcases (companion_unfolded h).complete (fun _ _ hc => hc.rules) name with
    ⟨e, he', rfl | he⟩ | ⟨k, c, k', c', hk, hk', hlooks, hparsed, htyped, hposition⟩
  · exact Or.inr he'
  · exact Or.inl (he'.trans he.symm)
  · have htexts : c'.candidates = c.candidates :=
      render_eq_of_get? hlooks.phrases (fun r => by rw [hlooks.rules]) h.toResembles.tokenName
        (fun r name hname => (h.toResembles.ruleName r).trans hname) hk.render hk'.render
    have hsame : c' = c := by
      cases c
      cases c'
      simp_all
    exact Or.inl (hk'.1.trans (hsame ▸ hk.1.symm))

/-- **Token sets may be unfolded**: whenever there is a completion with and without that, it is the
same one. -/
theorem complete_unfolded (h : s.model.Variant RuleBody.Unfolds m') (hc : s.complete name = .ok c)
    (hc' : (s.withModel m').complete name = .ok c') : c' = c := by
  rcases complete_unfolded_or_limit h name with heq | hlimit
  · exact Except.ok.inj (hc'.symm.trans (heq.trans hc))
  · cases hc'.symm.trans hlimit

end Session

/-! ## Sums without token sets -/

namespace Grammar

/-- Sums in which the choice between the signs is unfolded. -/
def unfoldedSums : Model :=
  { sumModel with rules := .ofList [
    ("sum", .sequences [⟨[.token ⟨2⟩ .one, .rule ⟨1⟩ .zeroOrMore], none⟩]),
    ("sum_alt0_block1", .sequences [⟨[.rule ⟨2⟩ .one, .token ⟨2⟩ .one], none⟩]),
    ("sum_alt0_block1_alt0_block0",
      .sequences [⟨[.token ⟨3⟩ .one], none⟩, ⟨[.token ⟨1⟩ .one], none⟩])] }

lemma variant_unfoldedSums : sumModel.Variant RuleBody.Unfolds unfoldedSums where
  rules := .cons ⟨rfl, .refl _⟩ (.cons ⟨rfl, .refl _⟩ (.cons
    ⟨rfl, .tokens (l := [⟨3⟩, ⟨1⟩]) (by decide) (by decide) rfl⟩ .nil))
  special := rfl
  ignored := rfl
  names := rfl
  tokens := rfl

/-- After a sum of two numbers, both models offer the signs. -/
theorem complete_unfoldedSums :
    sumModel.Variant RuleBody.Unfolds unfoldedSums ∧
      ∃ c c', (Session.onLine sumModel [⟨2⟩, ⟨1⟩, ⟨2⟩]).complete "sum" = .ok c ∧
        (Session.onLine unfoldedSums [⟨2⟩, ⟨1⟩, ⟨2⟩]).complete "sum" = .ok c' ∧
        c.candidates = ["MINUS", "PLUS"] ∧ c' = c := by
  have hc : (Session.onLine sumModel [⟨2⟩, ⟨1⟩, ⟨2⟩]).complete "sum" =
      .ok ⟨["MINUS", "PLUS"], true, none, 3⟩ := by cbv
  have hc' : (Session.onLine unfoldedSums [⟨2⟩, ⟨1⟩, ⟨2⟩]).complete "sum" =
      .ok ⟨["MINUS", "PLUS"], true, none, 3⟩ := by cbv
  exact ⟨variant_unfoldedSums, _, _, hc, hc', rfl,
    Session.complete_unfolded variant_unfoldedSums hc hc'⟩

end Grammar

end GrammarCompletion
