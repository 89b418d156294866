/-
# The traversal of the imports

A traversal follows the directives of a grammar one after the other (`follow`).  What a directive
does depends on three things: whether its name is on the way from the root, whether it was imported
before, and what its grammar imports.

Where the graph of imports is sound, no name is met on the way, and a name that was imported before
is done together with everything that it imports (`Stands`).  So the names of a listing are done in
its order, each of them at its first place (`follow_listing`).  The budget lasts, because the names
on the way are different, and each of them stands in a directive.
-/
import GrammarCompletion.OrderedSet
import GrammarCompletion.Proofs.Imports.Graph
import Mathlib.Data.List.Nodup

namespace GrammarCompletion

open Relation ImportGraph

namespace Traversal

variable {g h : Grammar} {gs : OrderedMap String Grammar} {loader : Option Loader}
  {budget : Nat} {path way names below l : List String} {importer name a b : String}
  {t t' : Traversal} {done : OrderedSet String}

/-! ## One directive -/

/-- Follows one import directive of a grammar. -/
def follow (loader : Option Loader) (budget : Nat) (path : List String) (importer name : String) :
    Follow Unit := do
  if name ∈ path then throw (.cycle name)
  if name ∉ (← get).imported then
    modify fun t => { t with imported := name :: t.imported }
    let imported ← fetch loader importer name
    match budget with
    | 0 => throw (.cycle name)
    | budget + 1 => visit loader budget (name :: path) imported

/-- A grammar is finished when its directives have been followed. -/
lemma visit_eq : visit loader budget path g = (do
    g.imports.forM (follow loader budget path g.name)
    modify fun t => { t with finished := t.finished ++ [g] }) := by
  rw [visit.eq_def]
  rfl

lemma run_bind_ok {α β : Type} {x : Follow α} {f : α → Follow β} {r : α}
    (hx : x.run t = .ok r t') : (x >>= f).run t = (f r).run t' := by
  rw [EStateM.run_bind, hx]

lemma run_bind_error {α β : Type} {x : Follow α} {f : α → Follow β} {e : ImportError}
    (hx : x.run t = .error e t') : (x >>= f).run t = .error e t' := by
  rw [EStateM.run_bind, hx]

/-- A name that was imported before is not imported again. -/
lemma follow_again (hpath : name ∉ path) (ht : name ∈ t.imported) :
    (follow loader budget path importer name).run t = .ok () t := by
  simp [follow, hpath, ht]

/-- A name on the way is a cycle. -/
lemma follow_cycle (hpath : name ∈ path) :
    (follow loader budget path importer name).run t = .error (.cycle name) t := by
  simp [follow, hpath]

/-- Visits a grammar that was imported, if the budget allows it. -/
def enter (loader : Option Loader) (budget : Nat) (path : List String) (name : String)
    (h : Grammar) : Follow Unit :=
  match budget with
  | 0 => throw (.cycle name)
  | budget + 1 => visit loader budget (name :: path) h

/-- A new name is loaded and visited. -/
lemma follow_new (hpath : name ∉ path) (ht : name ∉ t.imported) :
    (follow loader budget path importer name).run t =
      (fetch loader importer name >>= enter loader budget path name).run
        { t with imported := name :: t.imported } := by
  simp [follow, hpath, ht]
  rfl

lemma load_memory (hget : gs.get? name = some h) : (Loader.memory gs).load name = .ok h := by
  simp [Loader.load, hget]

lemma load_memory_none (hget : gs.get? name = none) :
    (Loader.memory gs).load name = .error (.notFound name) := by
  simp [Loader.load, hget]

/-- A new name that there is no grammar for. -/
lemma follow_missing (hpath : name ∉ path) (ht : name ∉ t.imported) (hget : gs.get? name = none) :
    (follow (some (.memory gs)) budget path importer name).run t =
      .error (.loadFailed name (.notFound name)) { t with imported := name :: t.imported } := by
  rw [follow_new hpath ht, fetch]
  simp only [load_memory_none hget]
  rfl

/-- A new name of a grammar at hand: its directives are followed, and then it is finished. -/
lemma follow_grammar (budget : Nat) (importer : String) (hpath : name ∉ path)
    (ht : name ∉ t.imported) (hget : gs.get? name = some h) :
    (follow (some (.memory gs)) (budget + 1) path importer name).run t = (do
      h.imports.forM (follow (some (.memory gs)) budget (name :: path) h.name)
      modify fun t => { t with finished := t.finished ++ [h] } : Follow Unit).run
        { t with imported := name :: t.imported } := by
  rw [follow_new hpath ht, fetch]
  simp only [load_memory hget, pure_bind, enter, visit_eq]

/-! ## The way from the root -/

/-- The names on the way from the root to an importing grammar, without the root. -/
structure OnWay (g : Grammar) (gs : OrderedMap String Grammar) (way : List String)
    (importer : String) : Prop where
  /-- The names are different. -/
  nodup : way.Nodup
  /-- Each of them stands in a directive. -/
  imported : ∀ a ∈ way, ∃ b, Edge g gs b a
  /-- The importing grammar is reached from all of them, and from the root. -/
  reaches : ∀ a ∈ way ++ [g.name], ReflTransGen (Edge g gs) a importer

lemma OnWay.root : OnWay g gs [] g.name where
  nodup := List.nodup_nil
  imported := by simp
  reaches := by simp [ReflTransGen.refl]

/-- Where the root lies, an importing grammar can be reached. -/
lemma OnWay.reachable (hw : OnWay g gs way importer) : Reachable g gs importer :=
  hw.reaches g.name (by simp)

/-- In a sound graph an import does not lead back to the way. -/
lemma OnWay.not_mem (hw : OnWay g gs way importer) (hg : Sound g gs)
    (hname : Edge g gs importer name) : name ∉ way ++ [g.name] := by
  intro hmem
  have hcycle : TransGen (Edge g gs) name name := .tail' (hw.reaches name hmem) hname
  exact hg.acyclic name (hw.reachable.step hname) hcycle

/-- A name that is not on the way yet is the next one on it. -/
lemma OnWay.extend (hw : OnWay g gs way importer) (hnew : name ∉ way)
    (hname : Edge g gs importer name) : OnWay g gs (name :: way) name where
  nodup := List.nodup_cons.2 ⟨hnew, hw.nodup⟩
  imported := by
    intro a ha
    rcases List.mem_cons.1 ha with rfl | ha
    · exact ⟨importer, hname⟩
    · exact hw.imported a ha
  reaches := by
    intro a ha
    rcases List.mem_cons.1 ha with rfl | ha
    · exact .refl
    · exact (hw.reaches a ha).tail hname

lemma OnWay.enter (hw : OnWay g gs way importer) (hg : Sound g gs)
    (hname : Edge g gs importer name) : OnWay g gs (name :: way) name :=
  hw.extend (fun hmem => hw.not_mem hg hname (List.mem_append_left _ hmem)) hname

/-- No way is longer than the number of directives. -/
lemma OnWay.length_le (hw : OnWay g gs way importer) :
    way.length ≤ directiveCount (some (.memory gs)) g := by
  refine (List.subperm_of_subset hw.nodup fun a ha => ?_).length_le
  obtain ⟨b, h, hnode, hmem⟩ := hw.imported a ha
  refine List.mem_flatMap.2 ⟨h, ?_, hmem⟩
  by_cases hroot : b = g.name
  · subst hroot
    obtain rfl := Option.some.inj (node?_root.symm.trans hnode)
    exact List.mem_cons_self
  · rw [node?_of_ne hroot] at hnode
    exact List.mem_cons_of_mem _ (List.mem_map.2 ⟨_, OrderedMap.mem_entries_of_get? hnode, rfl⟩)

/-! ## What is done -/

/-- Where a traversal stands, between two directives: with some names on the way and some done. -/
structure Stands (g : Grammar) (gs : OrderedMap String Grammar) (way : List String)
    (done : OrderedSet String) (t : Traversal) : Prop where
  /-- What was imported is done or on the way. -/
  imported : ∀ a, a ∈ t.imported ↔ a ∈ done ∨ a ∈ way
  /-- The grammars of the names that are done are finished in their order. -/
  finished : t.finished = done.toList.filterMap (node? g gs)
  /-- What is done has all its imports done. -/
  closed : ∀ a b, a ∈ done → Edge g gs a b → b ∈ done

lemma Stands.start : Stands g gs [] ∅ {} where
  imported := by simp
  finished := rfl
  closed := by simp

lemma Stands.enter (hs : Stands g gs way done t) :
    Stands g gs (name :: way) done { t with imported := name :: t.imported } where
  imported a := by simp only [List.mem_cons, hs.imported, or_left_comm]
  finished := hs.finished
  closed := hs.closed

/-- The grammar in front is done when its imports are. -/
lemma Stands.finish (hs : Stands g gs (name :: way) done t) (hnode : node? g gs name = some h)
    (hnew : name ∉ done) (himports : ∀ b ∈ h.imports, b ∈ done) :
    Stands g gs way (done.insert name) { t with finished := t.finished ++ [h] } where
  imported a := by simp only [hs.imported, List.mem_cons, OrderedSet.mem_insert, or_left_comm,
    or_assoc]
  finished := by
    simp [hs.finished, OrderedSet.toList_insert, hnew, hnode]
  closed := by
    intro a b ha hab
    rw [OrderedSet.mem_insert] at ha ⊢
    rcases ha with rfl | ha
    · obtain ⟨h', hnode', hb⟩ := hab
      obtain rfl := Option.some.inj (hnode.symm.trans hnode')
      exact .inr (himports b hb)
    · exact .inr (hs.closed a b ha hab)

/-- What is done has everything done that can be reached from it. -/
lemma Stands.mem_of_transGen (hs : Stands g gs way done t) (ha : a ∈ done)
    (hab : TransGen (Edge g gs) a b) : b ∈ done := by
  induction hab with
  | single hab => exact hs.closed _ _ ha hab
  | tail _ hcb ih => exact hs.closed _ _ ih hcb

/-! ## Listings -/

/-- The names of a listing have been followed: they are done in its order, each at its first place. -/
def Follows (g : Grammar) (gs : OrderedMap String Grammar) (names l : List String) : Prop :=
  ∀ (caller : String) (budget : Nat) ⦃way importer done t⦄, OnWay g gs way importer →
    (∀ a ∈ names, Edge g gs importer a) →
    directiveCount (some (.memory gs)) g ≤ budget + way.length → Stands g gs way done t →
    ∃ t', (names.forM (follow (some (.memory gs)) budget (way ++ [g.name]) caller)).run t =
      .ok () t' ∧ Stands g gs way (done.insertAll l) t'

/-- A new grammar is visited: what it imports is done, and then the grammar itself. -/
lemma follow_enter (hg : Sound g gs) (hnode : node? g gs name = some h)
    (hbelow : Listing g gs h.imports below) (ih : Follows g gs h.imports below)
    (hw : OnWay g gs way importer) (hname : Edge g gs importer name)
    (hbudget : directiveCount (some (.memory gs)) g ≤ budget + way.length)
    (hs : Stands g gs way done t) (ht : name ∉ t.imported) (caller : String) :
    ∃ t', (follow (some (.memory gs)) budget (way ++ [g.name]) caller name).run t = .ok () t' ∧
      Stands g gs way (done.insertAll (below ++ [name])) t' := by
  have hpath : name ∉ way ++ [g.name] := hw.not_mem hg hname
  have hroot : name ≠ g.name := fun he => hpath (by simp [he])
  have hw' := hw.enter hg hname
  -- there is room for one more name on the way
  obtain ⟨left, rfl⟩ : ∃ left, budget = left + 1 := by
    have hlen : way.length + 1 ≤ directiveCount (some (.memory gs)) g := hw'.length_le
    exact ⟨budget - 1, by omega⟩
  have hdirectives : ∀ a ∈ h.imports, Edge g gs name a := fun a ha => ⟨h, hnode, ha⟩
  obtain ⟨t', hrun, hs'⟩ := ih h.name left hw' hdirectives (by rw [List.length_cons]; omega) hs.enter
  refine ⟨{ t' with finished := t'.finished ++ [h] }, ?_, ?_⟩
  · have hget : gs.get? name = some h := (node?_of_ne hroot).symm.trans hnode
    rw [follow_grammar left caller hpath ht hget]
    exact run_bind_ok hrun
  · have hnew : name ∉ done.insertAll below := by
      rw [OrderedSet.mem_insertAll, not_or]
      have hreach : Reachable g gs name := hw.reachable.step hname
      exact ⟨fun hmem => ht ((hs.imported name).2 (.inl hmem)),
        fun hmem => hg.acyclic name hreach (Listing.transGen_of_mem_below hnode hbelow hmem)⟩
    rw [OrderedSet.insertAll_append]
    refine hs'.finish hnode hnew fun b hb => ?_
    exact OrderedSet.mem_insertAll.2 (.inr (hbelow.mem_of_mem_names hb))

/-- One directive is followed. -/
lemma follow_name (hg : Sound g gs) (hnode : node? g gs name = some h)
    (hbelow : Listing g gs h.imports below) (ih : Follows g gs h.imports below)
    (hw : OnWay g gs way importer) (hname : Edge g gs importer name)
    (hbudget : directiveCount (some (.memory gs)) g ≤ budget + way.length)
    (hs : Stands g gs way done t) (caller : String) :
    ∃ t', (follow (some (.memory gs)) budget (way ++ [g.name]) caller name).run t = .ok () t' ∧
      Stands g gs way (done.insertAll (below ++ [name])) t' := by
  by_cases ht : name ∈ t.imported
  · -- it is not on the way, so it is done, and all that stands below it
    have hpath : name ∉ way ++ [g.name] := hw.not_mem hg hname
    have hdone : name ∈ done := ((hs.imported name).1 ht).resolve_right fun hmem =>
      hpath (List.mem_append_left _ hmem)
    have hsub : ∀ b ∈ below ++ [name], b ∈ done := by
      intro b hb
      rcases List.mem_append.1 hb with hb | hb
      · exact hs.mem_of_transGen hdone (Listing.transGen_of_mem_below hnode hbelow hb)
      · exact List.mem_singleton.1 hb ▸ hdone
    rw [OrderedSet.insertAll_of_subset hsub]
    exact ⟨t, follow_again hpath ht, hs⟩
  · exact follow_enter hg hnode hbelow ih hw hname hbudget hs ht caller

/-- The directives of a sound graph are followed in the order of their listing. -/
lemma follow_listing (hg : Sound g gs) (hl : Listing g gs names l) : Follows g gs names l := by
  induction hl with
  | nil => exact fun _ _ _ _ _ t _ _ _ hs => ⟨t, rfl, hs⟩
  | @cons name names below others h hnode hbelow _ ihb iho =>
    intro caller budget way importer done t hw hedges hbudget hs
    have hname := hedges name List.mem_cons_self
    obtain ⟨t₁, hrun₁, hs₁⟩ := follow_name hg hnode hbelow ihb hw hname hbudget hs caller
    have hrest : ∀ a ∈ names, Edge g gs importer a :=
      fun a ha => hedges a (List.mem_cons_of_mem name ha)
    obtain ⟨t₂, hrun₂, hs₂⟩ := iho caller budget hw hrest hbudget hs₁
    refine ⟨t₂, ?_, ?_⟩
    · rw [List.forM_eq_forM, List.forM_cons, run_bind_ok hrun₁]
      exact hrun₂
    · rw [← List.singleton_append, ← List.append_assoc, OrderedSet.insertAll_append]
      exact hs₂

/-- **The order of the imports.**  In a sound graph nothing stops the traversal, and it yields the
grammars in the order of the listing of the root, each of them once. -/
theorem run_of_sound (hg : Sound g gs) (hl : Listing g gs [g.name] names) :
    run (some (.memory gs)) g =
      ((OrderedSet.ofList names).toList.filterMap (node? g gs), none) := by
  cases hl with
  | @cons _ _ below others h hnode hbelow hothers =>
    cases hothers
    obtain rfl : g = h := Option.some.inj (node?_root.symm.trans hnode)
    have hdirectives : ∀ a ∈ g.imports, Edge g gs g.name a := fun a ha => ⟨g, hnode, ha⟩
    obtain ⟨t, hrun, hs⟩ := follow_listing hg hbelow g.name
      (directiveCount (some (.memory gs)) g) OnWay.root hdirectives (by simp) Stands.start
    have hroot : g.name ∉ (∅ : OrderedSet String).insertAll below := by
      rw [OrderedSet.mem_insertAll, not_or]
      exact ⟨by simp, fun hmem =>
        hg.acyclic g.name .root (Listing.transGen_of_mem_below hnode hbelow hmem)⟩
    have hvisit : (visit (some (.memory gs)) (directiveCount (some (.memory gs)) g) [g.name] g).run
        {} = .ok () { t with finished := t.finished ++ [g] } := by
      rw [visit_eq]
      exact run_bind_ok hrun
    rw [run, hvisit, OrderedSet.ofList, OrderedSet.insertAll_append, OrderedSet.insertAll_cons,
      OrderedSet.insertAll_nil, OrderedSet.toList_insert, if_neg hroot, List.filterMap_append]
    simp [hs.finished]

end Traversal

end GrammarCompletion
