/-
# Candidates

The candidates of a completion are phrases of tokens and names of rules.  A phrase is a token with
the tokens that have to follow it, such as `CREATE TABLE`.  Phrases with the same first token are
merged: as long as all offers of a token agree on what follows it, that is kept, and once two of
them differ the bare token is left for good.
-/
import GrammarCompletion.Model.Basic
import GrammarCompletion.Text

namespace GrammarCompletion

/-- The tokens and rules that were offered. -/
structure Candidates where
  /-- The offered tokens, each with the tokens that have to follow it. -/
  phrases : OrderedMap TokenId (List TokenId) := ∅
  /-- The offered rules. -/
  rules : OrderedSet RuleId := ∅
deriving DecidableEq

namespace Candidates

/-- No candidates. -/
def empty : Candidates := {}

instance : EmptyCollection Candidates := ⟨empty⟩

/-- Offers a token with the tokens that have to follow it. -/
def offerToken (c : Candidates) (lead : TokenId) (continuation : List TokenId) : Candidates :=
  match c.phrases.get? lead with
  | none => { c with phrases := c.phrases.insert lead continuation }
  | some known =>
    if known = continuation then c else { c with phrases := c.phrases.insert lead [] }

/-- Offers a rule. -/
def offerRule (c : Candidates) (id : RuleId) : Candidates :=
  { c with rules := c.rules.insert id }

/-- The tokens that were offered, the oldest first. -/
def leads (c : Candidates) : List TokenId := c.phrases.keys

/-- The text of a phrase. -/
def phraseText (m : Model) (lead : TokenId) (continuation : List TokenId) : String :=
  " ".intercalate ((lead :: continuation).map m.tokenName)

/-- The texts of the candidates, in order and without repetition. -/
def render (c : Candidates) (m : Model) : Except Defect (List String) := do
  let phrases := c.phrases.entries.map fun e => phraseText m e.1 e.2
  let rules ← c.rules.toList.mapM m.ruleName
  return Text.sorted (phrases ++ rules)

/-- After an offer of a token, what follows it is what the offer says if the token is new or the
offer agrees, and nothing otherwise; other tokens are as before. -/
theorem get?_phrases_offerToken {c : Candidates} {lead t : TokenId} {continuation : List TokenId} :
    (c.offerToken lead continuation).phrases.get? t =
      if t = lead then
        match c.phrases.get? lead with
        | none => some continuation
        | some known => some (if known = continuation then known else [])
      else c.phrases.get? t := by
  simp only [offerToken]
  split
  · next h => simp [OrderedMap.get?_insert]
  · next known h =>
    split
    · split
      · next ht => simp [ht, h]
      · rfl
    · simp [OrderedMap.get?_insert]

/-- The offer of a token leaves the rules as they are. -/
theorem rules_offerToken {c : Candidates} {lead : TokenId} {continuation : List TokenId} :
    (c.offerToken lead continuation).rules = c.rules := by
  unfold offerToken
  split
  · rfl
  · split <;> rfl

/-- An offer adds its token and leaves the others as they are. -/
theorem mem_leads_offerToken {c : Candidates} {lead t : TokenId} {continuation : List TokenId} :
    t ∈ (c.offerToken lead continuation).leads ↔ t = lead ∨ t ∈ c.leads := by
  simp only [leads, ← OrderedMap.mem_iff, offerToken]
  split
  · exact OrderedMap.mem_insert
  · next known h =>
    split
    · exact ⟨Or.inr, fun ht => ht.elim (fun e => e ▸ OrderedMap.mem_of_get? h) id⟩
    · exact OrderedMap.mem_insert

end Candidates

end GrammarCompletion
