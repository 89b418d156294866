/-
# Collections that differ in one grammar

If two loaders yield grammars with the same imports under every name, they are traversed alike: the
traversals are stopped by the same fault, or they yield corresponding grammars in the same order
(`run_alike`).  This is the case if the block of a rule is replaced in one grammar of a collection
(`withBlock`).
-/
import GrammarCompletion.Proofs.Imports.Traversal
import GrammarCompletion.Proofs.Results

namespace GrammarCompletion

open ImportGraph

/-! ## Traversals of corresponding grammars -/

namespace Traversal

/-- Two loaders and a correspondence of the grammars that they yield. -/
structure Corresponding (R : Grammar → Grammar → Prop) (l l' : Loader) : Prop where
  /-- Corresponding grammars import the same. -/
  imports : ∀ ⦃h h'⦄, R h h' → h.imports = h'.imports
  /-- Every name is found by both or by none. -/
  load : ∀ name, (∃ h h', l.load name = .ok h ∧ l'.load name = .ok h' ∧ R h h') ∨
    ∃ e, l.load name = .error e ∧ l'.load name = .error e

variable {R : Grammar → Grammar → Prop} {l l' : Loader} {g h h' : Grammar} {budget : Nat}
  {path names : List String} {importer name : String} {t t' : Traversal}

/-- Two traversals have imported the same names and finished corresponding grammars. -/
structure Alike (R : Grammar → Grammar → Prop) (t t' : Traversal) : Prop where
  /-- The same names were imported. -/
  imported : t.imported = t'.imported
  /-- The finished grammars correspond to each other. -/
  finished : List.Forall₂ R t.finished t'.finished

/-- Two results are both successes or the same fault, and leave traversals that are alike. -/
def AlikeResults (R : Grammar → Grammar → Prop) :
    EStateM.Result ImportError Traversal Unit → EStateM.Result ImportError Traversal Unit → Prop
  | .ok _ t, .ok _ t' => Alike R t t'
  | .error e t, .error e' t' => e = e' ∧ Alike R t t'
  | _, _ => False

/-- Two traversals that are alike remain so. -/
def Agree (R : Grammar → Grammar → Prop) (x y : Follow Unit) : Prop :=
  ∀ t t', Alike R t t' → AlikeResults R (x.run t) (y.run t')

lemma Agree.bind {x y x' y' : Follow Unit} (h : Agree R x y) (h' : Agree R x' y') :
    Agree R (do x; x') (do y; y') := by
  intro t t' ht
  have hresults := h t t' ht
  rw [EStateM.run_bind, EStateM.run_bind]
  cases hx : x.run t <;> cases hy : y.run t' <;> rw [hx, hy] at hresults
  · exact h' _ _ hresults
  · exact hresults.elim
  · exact hresults.elim
  · exact hresults

lemma Agree.forM {f f' : String → Follow Unit} (h : ∀ a, Agree R (f a) (f' a)) :
    Agree R (names.forM f) (names.forM f') := by
  induction names with
  | nil => exact fun _ _ ht => ht
  | cons a names ih => exact (h a).bind ih

lemma Agree.finish (hR : R h h') : Agree R
    (modify fun t => { t with finished := t.finished ++ [h] })
    (modify fun t => { t with finished := t.finished ++ [h'] }) :=
  fun _ _ ht => ⟨ht.imported, List.rel_append ht.finished (.cons hR .nil)⟩

/-- A directive is followed alike, if the grammar that it leads to is visited alike. -/
lemma Agree.follow {importer' : String} (hl : Corresponding R l l')
    (hvisit : ∀ h h', R h h' →
      Agree R (enter (some l) budget path name h) (enter (some l') budget path name h')) :
    Agree R (follow (some l) budget path importer name)
      (follow (some l') budget path importer' name) := by
  intro t t' ht
  by_cases hpath : name ∈ path
  · rw [follow_cycle hpath, follow_cycle hpath]
    exact ⟨rfl, ht⟩
  by_cases hknown : name ∈ t.imported
  · rw [follow_again hpath hknown, follow_again hpath (ht.imported ▸ hknown)]
    exact ht
  · have hadd : Alike R { t with imported := name :: t.imported }
        { t' with imported := name :: t'.imported } :=
      ⟨congrArg (name :: ·) ht.imported, ht.finished⟩
    rw [follow_new hpath hknown, follow_new hpath (ht.imported ▸ hknown)]
    rcases hl.load name with ⟨h, h', hload, hload', hR⟩ | ⟨e, hload, hload'⟩
    · simp only [fetch, hload, hload', pure_bind]
      exact hvisit h h' hR _ _ hadd
    · simp only [fetch, hload, hload']
      exact ⟨rfl, hadd⟩

/-- Directives are followed alike.  The induction is on what is left of the budget. -/
lemma Agree.directives {importer' : String} (hl : Corresponding R l l') :
    Agree R (names.forM (Traversal.follow (some l) budget path importer))
      (names.forM (Traversal.follow (some l') budget path importer')) := by
  induction budget generalizing path names importer importer' with
  | zero => exact .forM fun name => .follow hl fun h h' _ _ _ ht => ⟨rfl, ht⟩
  | succ budget ih =>
    refine .forM fun name => .follow hl fun h h' hR => ?_
    rw [enter, enter, visit_eq, visit_eq, hl.imports hR]
    exact ih.bind (.finish hR)

/-- **Loaders that correspond to each other are traversed alike**: with one fault, or up to the
root, after grammars that correspond to each other. -/
theorem run_alike (hl : Corresponding R l l')
    (hcount : directiveCount (some l) g = directiveCount (some l') g) :
    (∃ e grammars grammars', run (some l) g = (grammars, some e) ∧
      run (some l') g = (grammars', some e)) ∨
    ∃ imported imported', List.Forall₂ R imported imported' ∧
      run (some l) g = (imported ++ [g], none) ∧ run (some l') g = (imported' ++ [g], none) := by
  have hdirectives : Agree R
      (g.imports.forM (follow (some l) (directiveCount (some l) g) [g.name] g.name))
      (g.imports.forM (follow (some l') (directiveCount (some l) g) [g.name] g.name)) :=
    .directives hl
  have hresults := hdirectives {} {} ⟨rfl, .nil⟩
  rw [run, run, ← hcount, visit_eq, visit_eq, EStateM.run_bind, EStateM.run_bind]
  revert hresults
  cases EStateM.run (g.imports.forM (follow (some l) _ [g.name] g.name)) {} <;>
    cases EStateM.run (g.imports.forM (follow (some l') _ [g.name] g.name)) {} <;> intro hresults
  · exact .inr ⟨_, _, hresults.finished, rfl, rfl⟩
  · exact hresults.elim
  · exact hresults.elim
  · obtain ⟨rfl, -⟩ := hresults
    exact .inl ⟨_, _, _, rfl, rfl⟩

end Traversal

/-! ## Another block for a rule -/

namespace Grammar

/-- The rule with another block, if it has a given name. -/
def Rule.withBlock (name : String) (block : Block) (r : Rule) : Rule :=
  if r.name = name then ⟨name, block⟩ else r

/-- The grammar with another block for the rules of a name. -/
def withBlock (h : Grammar) (name : String) (block : Block) : Grammar :=
  { h with rules := h.rules.map (Rule.withBlock name block) }

variable {g h h' : Grammar} {gs : OrderedMap String Grammar} {n key : String} {block : Block}

@[simp] lemma Rule.name_withBlock (r : Rule) : (r.withBlock n block).name = r.name := by
  unfold Rule.withBlock
  split
  · next hr => exact hr.symm
  · rfl

lemma Rule.withBlock_of_ne {r : Rule} (hr : r.name ≠ n) : r.withBlock n block = r := if_neg hr

lemma parserRules_withBlock :
    (h.withBlock n block).parserRules = h.parserRules.map (Rule.withBlock n block) := by
  have hlexer : ∀ r : Rule, (r.withBlock n block).isLexer = r.isLexer := fun r => by
    rw [Rule.isLexer, Rule.isLexer, Rule.name_withBlock]
  rw [parserRules, parserRules, withBlock, List.filter_map]
  refine congrArg _ (List.filter_congr fun r _ => ?_)
  rw [Function.comp_apply, hlexer]

/-- A grammar is the same, or has another block for the rules of a name. -/
def SameBut (n : String) (block : Block) (h h' : Grammar) : Prop := h' = h ∨ h' = h.withBlock n block

/-- Two rules have one name, and are the same unless it is a given name. -/
def Rule.SameBut (n : String) (r r' : Rule) : Prop := r'.name = r.name ∧ (r.name ≠ n → r' = r)

lemma SameBut.forall₂_rules (hs : SameBut n block h h') :
    List.Forall₂ (Rule.SameBut n) h.parserRules h'.parserRules := by
  rcases hs with rfl | rfl
  · exact List.forall₂_same.2 fun r _ => ⟨rfl, fun _ => rfl⟩
  · rw [parserRules_withBlock]
    refine List.forall₂_map_right_iff.2 (List.forall₂_same.2 fun r _ => ?_)
    exact ⟨Rule.name_withBlock r, Rule.withBlock_of_ne⟩

/-- A collection with another block for a rule of one of its grammars. -/
lemma corresponding_withBlock (hh : gs.get? key = some h) :
    Traversal.Corresponding (SameBut n block) (.memory gs)
      (.memory (gs.insert key (h.withBlock n block))) where
  imports := by
    rintro h h' (rfl | rfl) <;> rfl
  load := by
    intro name
    simp only [Loader.load, OrderedMap.get?_insert]
    by_cases hname : name = key
    · subst hname
      exact .inl ⟨h, _, by rw [hh], by rw [if_pos rfl], .inr rfl⟩
    · rw [if_neg hname]
      cases gs.get? name with
      | none => exact .inr ⟨_, rfl, rfl⟩
      | some h => exact .inl ⟨h, h, rfl, rfl, .inl rfl⟩

/-- The number of directives does not depend on the blocks. -/
lemma directiveCount_withBlock (hh : gs.get? key = some h) :
    Traversal.directiveCount (some (.memory gs)) g =
      Traversal.directiveCount (some (.memory (gs.insert key (h.withBlock n block)))) g := by
  obtain ⟨i, hi⟩ := List.mem_iff_getElem?.1 (OrderedMap.mem_entries_of_get? hh)
  obtain ⟨hlt, hget⟩ := List.getElem?_eq_some_iff.1 hi
  have hsame : (gs.insert key (h.withBlock n block)).values.map (fun h => h.imports) =
      gs.values.map fun h => h.imports := by
    rw [OrderedMap.values, OrderedMap.entries_insert_of_getElem? hi, OrderedMap.values]
    refine List.ext_getElem? fun j => ?_
    by_cases hij : i = j
    · subst hij
      simp [hlt, hget, withBlock]
    · simp [List.getElem?_set_ne hij]
  simp only [Traversal.directiveCount, Option.elim_some, Loader.grammars, List.flatMap_def,
    List.map_cons, hsame]

end Grammar

end GrammarCompletion
