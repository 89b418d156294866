/-
# Sound candidates

A string of symbols *leads on* from a position when some string derived from the root starts with
the tokens before the position, followed by the string.  Collecting keeps to strings that lead on
from the stop: what is due leads on, so do the rules that are collected from, and hence every token
with its continuation and every rule that is offered.
-/
import GrammarCompletion.Proofs.Derivation
import GrammarCompletion.Proofs.Visible
import GrammarCompletion.Walk.Collect

namespace GrammarCompletion

namespace Session

/-- The kinds of the tokens before the caret that the grammar sees. -/
def typed (s : Session) : List TokenId := s.stream.kinds 0 s.stop

/-- The root derives a string that starts with the tokens before a position, followed by `x`. -/
def LeadsOn (s : Session) (root : RuleId) (p : Nat) (x : Form) : Prop :=
  ∃ b, s.model.Derives [.rule root] (Form.ofTokens (s.stream.kinds 0 p) ++ (x ++ b))

/-- Candidates that lead on from the stop: the tokens with what has to follow them, and the rules,
which are special. -/
structure Viable (s : Session) (root : RuleId) (c : Candidates) : Prop where
  phrases : ∀ t l, c.phrases.get? t = some l → s.LeadsOn root s.stop (.token t :: Form.ofTokens l)
  rules : ∀ r ∈ c.rules, s.model.isSpecial r = true ∧ s.LeadsOn root s.stop [.rule r]

variable {s : Session} {root : RuleId} {p q : Nat} {x y z : Form} {n : Node RuleId}

/-! ## Strings that lead on -/

namespace LeadsOn

lemma of_append (h : s.LeadsOn root p (x ++ y)) : s.LeadsOn root p x := by
  obtain ⟨b, hb⟩ := h
  exact ⟨y ++ b, by simpa using hb⟩

/-- A part of the string may be derived further. -/
lemma derive (h : s.LeadsOn root p (x ++ z)) (hd : s.model.Derives x y) :
    s.LeadsOn root p (y ++ z) := by
  obtain ⟨b, hb⟩ := h
  refine ⟨b, hb.trans ?_⟩
  simpa using hd.congr (Form.ofTokens (s.stream.kinds 0 p)) (z ++ b)

/-- Tokens that were consumed are behind a later position. -/
lemma advance (h : s.LeadsOn root p (x ++ y)) (hpq : p ≤ q)
    (hd : s.model.Derives x (.ofTokens (s.stream.kinds p q))) : s.LeadsOn root q y := by
  obtain ⟨b, hb⟩ := h.derive hd
  refine ⟨b, ?_⟩
  rw [← TokenStream.kinds_append (Nat.zero_le p) hpq, Form.ofTokens_append]
  simpa using hb

end LeadsOn

/-! ## What follows a token for certain -/

lemma expands_mandatoryTokens (m : Model) (nodes : List (Node RuleId)) :
    ∃ z, Expands nodes (Form.ofTokens (m.mandatoryTokens nodes) ++ z) := by
  induction nodes with
  | nil => exact ⟨[], .nil⟩
  | cons n rest ih =>
    rw [Model.mandatoryTokens]
    split
    · next id hn =>
      split
      · obtain ⟨z, hz⟩ := ih
        exact ⟨z, hz.single (Node.isOccurrence_token hn fun _ => rfl)⟩
      · exact exists_expands _
    · exact exists_expands _

lemma expands_continuation (m : Model) (rest : List (Node RuleId)) {t : TokenId}
    (hn : n.symbol = .token t) :
    ∃ z, Expands (n :: rest) (.token t :: Form.ofTokens (m.continuation n rest) ++ z) := by
  have ht : n.IsOccurrence (.token t) := Node.isOccurrence_token hn fun _ => rfl
  obtain ⟨z, hz⟩ : ∃ z, Expands rest (Form.ofTokens (m.continuation n rest) ++ z) := by
    rw [Model.continuation]
    split
    · exact expands_mandatoryTokens m rest
    · exact exists_expands rest
  exact ⟨z, hz.single ht⟩

/-! ## Offers -/

namespace Viable

variable {c : Candidates} {t : TokenId} {l : List TokenId} {r : RuleId}

lemma empty : s.Viable root ∅ :=
  ⟨nofun, fun _ h => absurd h OrderedSet.not_mem_empty⟩

lemma offerToken (h : s.Viable root c) (ht : s.LeadsOn root s.stop (.token t :: Form.ofTokens l)) :
    s.Viable root (c.offerToken t l) := by
  refine ⟨fun u k hk => ?_, fun r hr => h.rules r ?_⟩
  · -- the phrase is new, or known already, or it differs from the known one and loses its tail
    have hbare : s.LeadsOn root s.stop [.token t] := ht.of_append (x := [.token t])
    rw [Candidates.get?_phrases_offerToken] at hk
    split at hk
    · next hu =>
      subst hu
      split at hk
      · obtain rfl := Option.some.inj hk
        exact ht
      · next known hknown =>
        split at hk <;> obtain rfl := Option.some.inj hk
        · exact h.phrases u _ hknown
        · exact hbare
    · exact h.phrases u k hk
  · unfold Candidates.offerToken at hr
    split at hr
    · exact hr
    · split at hr <;> exact hr

lemma offerRule (h : s.Viable root c) (hs : s.model.isSpecial r = true)
    (hr : s.LeadsOn root s.stop [.rule r]) : s.Viable root (c.offerRule r) := by
  refine ⟨h.phrases, fun r' hr' => ?_⟩
  rcases OrderedSet.mem_insert.1 hr' with rfl | hr'
  · exact ⟨hs, hr⟩
  · exact h.rules r' hr'

end Viable

end Session

end GrammarCompletion
