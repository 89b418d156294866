import GrammarCompletion.Model.Dump
import GrammarCompletion.Vocabulary.Listing
import GrammarCompletion.Proofs.Loops.Completion
import GrammarCompletion.Proofs.Predictive.Completion
import GrammarCompletion.Proofs.Compile.Preservation
import GrammarCompletion.Proofs.Compile.Supported
import GrammarCompletion.Proofs.Binary.Truncation
import GrammarCompletion.Proofs.Binary.Shortest
import GrammarCompletion.Proofs.Imports.Flattening
import GrammarCompletion.Proofs.Imports.Overriding
import GrammarCompletion.Proofs.Imports.Cycles
import GrammarCompletion.Proofs.Safety.Completion
import GrammarCompletion.Proofs.Variants.Ignoring
import GrammarCompletion.Proofs.Variants.TokenSets
import GrammarCompletion.Proofs.Variants.Order
import GrammarCompletion.Proofs.Collecting.First
import GrammarCompletion.Proofs.Repetition.Completion
import GrammarCompletion.Proofs.Offers.Merging
import GrammarCompletion.Proofs.Trace.Faithful
import GrammarCompletion.Proofs.Variants.Sealed
import GrammarCompletion.Proofs.Recursion.Once
import GrammarCompletion.Proofs.Vocabulary.Names
import GrammarCompletion.Proofs.Vocabulary.Listings
import GrammarCompletion.Proofs.Calls.Handover
import GrammarCompletion.Proofs.Json.Interchange
import GrammarCompletion.Proofs.Calls.Basic
import GrammarCompletion.Proofs.Calls.Restoring
