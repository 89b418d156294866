/-
# Ignoring tokens

A policy may name tokens that are never offered.  To ignore further tokens is a filter on what is
offered, and on nothing else: the walk takes the same way and ends with the same verdict on the text
before the caret or with the same error, the same rules are offered, and of the tokens those that
are not ignored now (`Session.complete_addIgnoredTokens`).

What follows a token may well be another than before, since a token that is ignored ends the tokens
that have to follow, and since phrases that are cut off there may agree or differ.  But no phrase
holds a token that is ignored.
-/
import GrammarCompletion.Proofs.Offers.Phrases
import GrammarCompletion.Proofs.Variants.Walking

namespace GrammarCompletion

/-! ## Candidates that are withheld -/

/-- The same rules as in other candidates, and the same tokens but for those of a list, whatever
follows them. -/
structure Candidates.Withholds (J : List TokenId) (c c' : Candidates) : Prop where
  rules : c'.rules = c.rules
  leads : ∀ t, t ∈ c'.leads ↔ t ∈ c.leads ∧ t ∉ J

variable {J : List TokenId} {m : Model} {t : TokenId}

lemma Model.isIgnoredToken_addIgnoredTokens : (m.addIgnoredTokens J).isIgnoredToken t = false ↔
    m.isIgnoredToken t = false ∧ t ∉ J := by
  simp [isIgnoredToken, addIgnoredTokens]

namespace Candidates.Withholds

variable {c c' : Candidates}

lemma empty : Withholds J ∅ ∅ := ⟨rfl, fun _ => ⟨nofun, fun h => nomatch h.1⟩⟩

/-- A token of the list is offered in neither case, another one in both or in none. -/
lemma propose (h : Withholds J c c') (t : TokenId) (k k' : List TokenId) :
    Withholds J (c.propose m t k) (c'.propose (m.addIgnoredTokens J) t k') := by
  refine ⟨?_, fun u => ?_⟩
  · rw [rules_propose, rules_propose, h.rules]
  · rw [mem_leads_propose, mem_leads_propose, Model.isIgnoredToken_addIgnoredTokens, h.leads]
    constructor
    · rintro (⟨rfl, hm, hJ⟩ | ⟨hu, hJ⟩)
      · exact ⟨Or.inl ⟨rfl, hm⟩, hJ⟩
      · exact ⟨Or.inr hu, hJ⟩
    · rintro ⟨⟨rfl, hm⟩ | hu, hJ⟩
      · exact Or.inl ⟨rfl, hm, hJ⟩
      · exact Or.inr ⟨hu, hJ⟩

lemma proposeAll (h : Withholds J c c') {l l' : List TokenId} (hl : l.Perm l') :
    Withholds J (c.proposeAll m l) (c'.proposeAll (m.addIgnoredTokens J) l') := by
  refine ⟨?_, fun u => ?_⟩
  · rw [rules_proposeAll, rules_proposeAll, h.rules]
  · rw [mem_leads_proposeAll, mem_leads_proposeAll, Model.isIgnoredToken_addIgnoredTokens, h.leads,
      hl.mem_iff]
    constructor
    · rintro (⟨hu, hm, hJ⟩ | ⟨hu, hJ⟩)
      · exact ⟨Or.inl ⟨hu, hm⟩, hJ⟩
      · exact ⟨Or.inr hu, hJ⟩
    · rintro ⟨⟨hu, hm⟩ | hu, hJ⟩
      · exact Or.inl ⟨hu, hm, hJ⟩
      · exact Or.inr ⟨hu, hJ⟩

end Candidates.Withholds

/-! ## Walks -/

namespace Session

open Candidates

/-- The model with further ignored tokens is walked like the model itself. -/
lemma companion_addIgnoredTokens (s : Session) (J : List TokenId) :
    s.Companion (s.model.addIgnoredTokens J) (Withholds J) fun _ => False where
  resembles :=
    have h := Model.Resembles.refl RuleBody.Unfolds.refl s.model
    ⟨h.rules, h.special, h.ignored, h.names⟩
  limit h h' := nomatch h.symm.trans h'
  empty := .empty
  token t _ _ h := h.propose t _ _
  tokens hl h := h.proposeAll hl
  rule r h := ⟨congrArg (·.insert r) h.rules, h.leads⟩

/-- **Ignoring further tokens is a filter on what is offered.**  With and without it there is the
same error, or there are two completions with the same verdict on the text before the caret, the
same rules, and the same tokens but for those that are ignored now.  And none of these is in what
was offered on the way, neither as the first token nor as one that follows. -/
theorem complete_addIgnoredTokens (s : Session) (J : List TokenId) (name : String) :
    let s' := s.withModel (s.model.addIgnoredTokens J)
    (∃ e, s.complete name = .error e ∧ s'.complete name = .error e) ∨
      ∃ k c k' c', s.EndsWith name k c ∧ s'.EndsWith name k' c' ∧
        c'.fullyParsed = c.fullyParsed ∧ c'.typedPart = c.typedPart ∧ k'.rules = k.rules ∧
        (∀ t, t ∈ k'.leads ↔ t ∈ k.leads ∧ t ∉ J) ∧
        (∀ t l, k'.phrases.get? t = some l → ∀ u ∈ t :: l, u ∉ J ∧ u ∉ s.model.ignoredTokens) ∧
        ∀ t l, .offerToken t l ∈ (s'.completeTraced name).2 →
          ∀ u ∈ t :: l, u ∉ J ∧ u ∉ s.model.ignoredTokens := by
  intro s'
  -- a phrase that may be offered holds no token that is ignored
  have hshown : ∀ {t l}, s'.model.IsPhrase t l →
      ∀ u ∈ t :: l, u ∉ J ∧ u ∉ s.model.ignoredTokens := by
    intro t l hphrase u hu
    obtain ⟨hm, hJ⟩ := Model.isIgnoredToken_addIgnoredTokens.1 (hphrase.shown u hu)
    exact ⟨hJ, of_decide_eq_false hm⟩
  rcases (s.companion_addIgnoredTokens J).complete (fun _ _ h => h.rules) name with
    ⟨e, he', hfalse | he⟩ | ⟨k, c, k', c', hk, hk', hD, hparsed, htyped, -⟩
  · exact hfalse.elim
  · exact Or.inl ⟨e, he, he'⟩
  · obtain ⟨-, root, o, r', -, hw', rfl⟩ := id hk'
    exact Or.inr ⟨k, c, _, c', hk, hk', hparsed, htyped, hD.rules, hD.leads,
      fun t l hl => hshown (isPhrase_of_get?_phrases hw' hl),
      fun t l hl => hshown (isPhrase_of_mem_events hl)⟩

end Session

end GrammarCompletion
