/-
# Imports are flattened

A grammar with imports is compiled as if its rules came after those of all grammars that it imports,
directly or through others, in one grammar without imports.  Each grammar stands in it once, after
what it imports itself, and in the order of the directives otherwise.

So a name is compiled from the last rule that it has in this order, and it stands where its first
one stands: a rule of an importing grammar takes the place of an imported rule.
-/
import GrammarCompletion.Proofs.Compile.Table
import GrammarCompletion.Proofs.Imports.Traversal

namespace GrammarCompletion

open ImportGraph

namespace Grammar

variable {g : Grammar} {gs : OrderedMap String Grammar} {names : List String}

/-- The grammar without imports that has the rules of the grammars of some names, of each of them
once. -/
def flat (g : Grammar) (gs : OrderedMap String Grammar) (names : List String) : Grammar where
  name := g.name
  rules := ((OrderedSet.ofList names).toList.filterMap (node? g gs)).flatMap Grammar.rules

lemma parserRules_flat : (g.flat gs names).parserRules =
    ((OrderedSet.ofList names).toList.filterMap (node? g gs)).flatMap parserRules :=
  List.filter_flatMap

/-- **Imports are flattened.**  A grammar that can load all its imports, and does not import itself,
is compiled like one grammar without imports, with the rules of the grammars in its listing.  A
grammar that stands in the listing more than once counts where it stands first.  The model has
every name at the place of its first rule in this order, and with the body of its last one. -/
theorem compile_eq_compile_flat (hg : Sound g gs) :
    ∃ names, (∀ l, Listing g gs [g.name] l ↔ l = names) ∧ (∀ a, a ∈ names ↔ Reachable g gs a) ∧
      ∀ v p, g.compile v p (some (.memory gs)) = (g.flat gs names).compile v p none ∧
        ∀ m, g.compile v p (some (.memory gs)) = .ok m →
          ∃ defs, (g.flat gs names).drafts v = .ok defs ∧ m.Defines defs := by
  obtain ⟨names, hnames⟩ := hg.exists_listing .root
  have honly : ∀ l, Listing g gs [g.name] l ↔ l = names :=
    fun l => ⟨fun hl => hl.unique hnames, fun he => he ▸ hnames⟩
  refine ⟨names, honly, fun a => hnames.mem_iff_reachable, fun v p => ?_⟩
  have himports : (g.flat gs names).imports = [] := rfl
  have hflat : g.compile v p (some (.memory gs)) = (g.flat gs names).compile v p none := by
    have hdrafts : (g.flat gs names).drafts v = Draft.ofRules v (g.flat gs names).parserRules := rfl
    rw [compile_of_run (Traversal.run_of_sound hg hnames), compile_of_no_imports himports, hdrafts,
      parserRules_flat]
  refine ⟨hflat, fun m hm => ?_⟩
  rw [hflat, compile_of_no_imports himports] at hm
  obtain ⟨defs, hdefs, hm⟩ := Except.bind_eq_ok.1 hm
  exact ⟨defs, hdefs, defines_of_link hm⟩

/-- Pairs of items: `base` is imported three times, and its `item` replaced by the importing
grammar. -/
def pairs : Grammar where
  name := "pairs"
  imports := ["left", "right", "base", "left"]
  rules := [⟨"item", [[.token "B"]]⟩, ⟨"list", [[.rule "pair", .rule "item"]]⟩]

/-- The grammars that pairs are made of. -/
def pairLibrary : OrderedMap String Grammar := .ofList [
  ("right", ⟨"right", ["base"], [⟨"pair", [[.rule "item", .rule "item"]]⟩]⟩),
  ("left", ⟨"left", ["base"], [⟨"pair", [[.rule "item"]]⟩]⟩),
  ("base", ⟨"base", [], [⟨"item", [[.token "A"]]⟩]⟩)]

lemma sound_pairs : Sound pairs pairLibrary :=
  sound_of_rank (fun a => ["base", "left", "right", "pairs"].idxOf a) (by decide)

/-- The imports of pairs are flattened. -/
theorem compile_eq_compile_flat_pairs :
    Sound pairs pairLibrary ∧ ∃ names,
      (∀ l, Listing pairs pairLibrary [pairs.name] l ↔ l = names) ∧
      (∀ a, a ∈ names ↔ Reachable pairs pairLibrary a) ∧
      ∀ v p, pairs.compile v p (some (.memory pairLibrary)) =
          (pairs.flat pairLibrary names).compile v p none ∧
        ∀ m, pairs.compile v p (some (.memory pairLibrary)) = .ok m →
          ∃ defs, (pairs.flat pairLibrary names).drafts v = .ok defs ∧ m.Defines defs :=
  ⟨sound_pairs, compile_eq_compile_flat sound_pairs⟩

example : (pairs.compile (Vocabulary.initial.insertAll [("A", ⟨1⟩), ("B", ⟨2⟩)]) {}
      (some (.memory pairLibrary))).map (fun m => m.rules.entries) = .ok [
    ("item", .tokenSet (.ofList [⟨2⟩])),
    ("pair", .sequences [⟨[.rule ⟨0⟩ .one, .rule ⟨0⟩ .one], none⟩]),
    ("list", .sequences [⟨[.rule ⟨1⟩ .one, .rule ⟨0⟩ .one], none⟩])] := by
  decide

end Grammar

end GrammarCompletion
