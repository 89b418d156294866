/-
# Cycles of imports

A traversal stops with a cycle when it meets a name that it is following already.  Where all imports
can be loaded it stops for no other reason, and it stops if and only if the graph has a cycle that
can be reached from the root (`compile_cycle_iff`).

If there is no cycle, nothing stops the traversal, which is known from the order of the imports.  In
the other direction, it is enough to look at a traversal that is not stopped.  When a grammar is
finished, no imports lead on from it without end (`Grounded`): they lead to grammars that were
finished before it.  In the end this is true of the root, and then nothing that it reaches lies on a
cycle.
-/
import GrammarCompletion.Proofs.Compile.Table
import GrammarCompletion.Proofs.Imports.Course

namespace GrammarCompletion

open Relation ImportGraph

variable {g h : Grammar} {gs : OrderedMap String Grammar} {a b : String}

namespace ImportGraph

/-- From a grammar no imports lead on without end. -/
def Grounded (g : Grammar) (gs : OrderedMap String Grammar) (a : String) : Prop :=
  Acc (fun b a => Edge g gs a b) a

/-- A grammar is grounded if all its imports are. -/
lemma Grounded.of_imports (hnode : node? g gs a = some h)
    (himports : ∀ b ∈ h.imports, Grounded g gs b) : Grounded g gs a := by
  refine Acc.intro a ?_
  rintro b ⟨h', hnode', hb⟩
  obtain rfl := Option.some.inj (hnode.symm.trans hnode')
  exact himports b hb

lemma Grounded.of_reaching (ha : Grounded g gs a) (hab : ReflTransGen (Edge g gs) a b) :
    Grounded g gs b := by
  induction hab with
  | refl => exact ha
  | tail _ hcb ih => exact ih.inv hcb

/-- A grounded grammar does not import itself.  The first step around a cycle would lead to a name on
the same cycle. -/
lemma Grounded.not_cycle (ha : Grounded g gs a) : ¬ TransGen (Edge g gs) a a := by
  induction ha with
  | intro a _ ih =>
    intro haa
    obtain ⟨b, hab, hba⟩ := TransGen.head'_iff.1 haa
    exact ih b hab (.tail' hba hab)

/-- What can be reached lies in a collection of names that all imports stay in. -/
lemma Reachable.mem_names {names : List String} (ha : Reachable g gs a) (hroot : g.name ∈ names)
    (hnames : ∀ a ∈ names, ∃ h, node? g gs a = some h ∧ h.imports ⊆ names) : a ∈ names := by
  induction ha with
  | refl => exact hroot
  | tail _ hcb ih =>
    obtain ⟨h, hnode, hsub⟩ := hnames _ ih
    obtain ⟨h', hnode', hb⟩ := hcb
    obtain rfl := Option.some.inj (hnode.symm.trans hnode')
    exact hsub hb

end ImportGraph

/-! ## Traversals that are not stopped -/

namespace Traversal

variable {path names loads : List String} {t t' : Traversal} {fault : Option ImportError}
  {name : String}

lemma node?_of_load (hroot : g.name ∈ path) (hpath : name ∉ path)
    (hload : (Loader.memory gs).load name = .ok h) : node? g gs name = some h := by
  have hne : name ≠ g.name := fun he => hpath (he ▸ hroot)
  rw [node?_of_ne hne]
  cases hget : gs.get? name with
  | none => simp [load_memory_none hget] at hload
  | some h' => rw [Except.ok.inj ((load_memory hget).symm.trans hload)]

/-- Directives that are followed to their end lead to grounded grammars.  What was imported and is
not on the way is finished. -/
lemma Course.grounded (hc : Course (.memory gs) path names t loads t' fault) (hf : fault = none)
    (hroot : g.name ∈ path) (ht : ∀ a ∈ t.imported, a ∈ path ∨ Grounded g gs a) :
    (∀ a ∈ t'.imported, a ∈ path ∨ Grounded g gs a) ∧ ∀ a ∈ names, Grounded g gs a := by
  induction hc with
  | done => exact ⟨ht, List.forall_mem_nil _⟩
  | cycle | missing | stopped => simp at hf
  | again hpath hknown _ ih =>
    obtain ⟨ht', hnames⟩ := ih hf hroot ht
    exact ⟨ht', List.forall_mem_cons.2 ⟨(ht _ hknown).resolve_left hpath, hnames⟩⟩
  | @next path names _ _ name h t t' _ _ hpath _ hload _ _ ih ihrest =>
    have hin : ∀ a ∈ name :: t.imported, a ∈ name :: path ∨ Grounded g gs a := by
      refine List.forall_mem_cons.2 ⟨.inl List.mem_cons_self, fun a ha => ?_⟩
      exact (ht a ha).imp_left (List.mem_cons_of_mem name)
    obtain ⟨ht', himports⟩ := ih rfl (List.mem_cons_of_mem name hroot) hin
    have hname : Grounded g gs name := .of_imports (node?_of_load hroot hpath hload) himports
    have hleave : ∀ a ∈ t'.imported, a ∈ path ∨ Grounded g gs a := by
      intro a ha
      rcases ht' a ha with hmem | hground
      · exact (List.mem_cons.1 hmem).elim (fun he => .inr (he ▸ hname)) .inl
      · exact .inr hground
    obtain ⟨ht'', hnames⟩ := ihrest hf hroot hleave
    exact ⟨ht'', List.forall_mem_cons.2 ⟨hname, hnames⟩⟩

/-- If everything can be loaded, only a cycle stops a traversal. -/
lemma Course.cycle_of_fault (hc : Course (.memory gs) path names t loads t' fault)
    (hfound : ∀ a, Reachable g gs a → ∃ h, node? g gs a = some h) (hroot : g.name ∈ path)
    (hnames : ∀ a ∈ names, Reachable g gs a) : ∀ e ∈ fault, ∃ name, e = .cycle name := by
  induction hc with
  | done => simp
  | cycle => simp
  | again _ _ _ ih => exact ih hroot (List.forall_mem_cons.1 hnames).2
  | @missing path _ name _ _ hpath _ hload =>
    -- the name can be reached, so there is a grammar of that name
    obtain ⟨h, hnode⟩ := hfound name (hnames name List.mem_cons_self)
    have hne : name ≠ g.name := fun he => hpath (he ▸ hroot)
    rw [node?_of_ne hne] at hnode
    simp [load_memory hnode] at hload
  | @stopped path _ _ name _ _ _ _ hpath _ hload _ ih =>
    have hnode := node?_of_load hroot hpath hload
    exact ih (List.mem_cons_of_mem name hroot) fun b hb =>
      (hnames name List.mem_cons_self).step ⟨_, hnode, hb⟩
  | next _ _ _ _ _ _ ihrest => exact ihrest hroot (List.forall_mem_cons.1 hnames).2

/-- What is finished can be reached. -/
lemma Course.finished (hc : Course (.memory gs) path names t loads t' fault)
    (hroot : g.name ∈ path) (hnames : ∀ a ∈ names, Reachable g gs a) :
    ∀ h ∈ t'.finished, h ∈ t.finished ∨ ∃ a, Reachable g gs a ∧ node? g gs a = some h := by
  induction hc with
  | done | cycle | missing => exact fun _ => .inl
  | again _ _ _ ih => exact ih hroot (List.forall_mem_cons.1 hnames).2
  | @stopped path _ _ name _ _ _ _ hpath _ hload _ ih =>
    have hnode := node?_of_load hroot hpath hload
    exact ih (List.mem_cons_of_mem name hroot) fun b hb =>
      (hnames name List.mem_cons_self).step ⟨_, hnode, hb⟩
  | @next path _ _ _ name h _ _ _ _ hpath _ hload _ _ ih ihrest =>
    have hnode := node?_of_load hroot hpath hload
    obtain ⟨hname, hnames⟩ := List.forall_mem_cons.1 hnames
    have hin := ih (List.mem_cons_of_mem name hroot) fun b hb => hname.step ⟨_, hnode, hb⟩
    intro h' hh'
    rcases ihrest hroot hnames h' hh' with hmem | hreach
    · rcases List.mem_append.1 hmem with hmem | hmem
      · exact hin h' hmem
      · exact .inr ⟨name, hname, List.mem_singleton.1 hmem ▸ hnode⟩
    · exact .inr hreach

/-! ## Whole traversals -/

@[simp] lemma outcome_snd : (outcome g t fault).2 = fault := by
  cases fault <;> rfl

/-- The root imports what it can reach. -/
lemma reachable_of_import (ha : a ∈ g.imports) : Reachable g gs a :=
  Reachable.root.step ⟨g, node?_root, ha⟩

/-- The grammars that are finished can be reached. -/
lemma reachable_of_mem_run (hh : h ∈ (run (some (.memory gs)) g).1) :
    ∃ a, Reachable g gs a ∧ node? g gs a = some h := by
  obtain ⟨loads, t, fault, hcourse, hrun⟩ := exists_run g gs
  have hfinished : ∀ h ∈ t.finished, ∃ a, Reachable g gs a ∧ node? g gs a = some h := fun h hh =>
    (hcourse.finished List.mem_cons_self (fun _ => reachable_of_import) h hh).resolve_left
      List.not_mem_nil
  rw [hrun] at hh
  cases fault with
  | some e => exact hfinished h hh
  | none =>
    rcases List.mem_append.1 hh with hh | hh
    · exact hfinished h hh
    · exact ⟨g.name, .root, List.mem_singleton.1 hh ▸ node?_root⟩

section

variable (hfound : ∀ a, Reachable g gs a → ∃ h, node? g gs a = some h)

include hfound

/-- If everything can be loaded, a traversal can only be stopped by a cycle. -/
lemma cycle_of_run {e : ImportError} (he : (run (some (.memory gs)) g).2 = some e) :
    ∃ name, e = .cycle name := by
  obtain ⟨loads, t, fault, hcourse, hrun⟩ := exists_run g gs
  rw [hrun, outcome_snd] at he
  exact hcourse.cycle_of_fault hfound List.mem_cons_self (fun _ => reachable_of_import) e he

/-- **When a traversal is not stopped**, if everything can be loaded. -/
theorem run_eq_none_iff : (run (some (.memory gs)) g).2 = none ↔
    ∀ a, Reachable g gs a → ¬ TransGen (Edge g gs) a a := by
  constructor
  · intro hnone a ha
    obtain ⟨loads, t, fault, hcourse, hrun⟩ := exists_run g gs
    rw [hrun, outcome_snd] at hnone
    obtain ⟨-, himports⟩ := hcourse.grounded hnone List.mem_cons_self (by simp)
    have hroot : Grounded g gs g.name := .of_imports node?_root himports
    exact (hroot.of_reaching ha).not_cycle
  · intro hacyclic
    have hsound : Sound g gs := ⟨hfound, hacyclic⟩
    obtain ⟨names, hnames⟩ := hsound.exists_listing .root
    rw [run_of_sound hsound hnames]

/-- **When a traversal is stopped by a cycle**, if everything can be loaded. -/
theorem run_eq_cycle_iff :
    (∃ name, (run (some (.memory gs)) g).2 = some (.cycle name)) ↔
      ∃ a, Reachable g gs a ∧ TransGen (Edge g gs) a a := by
  constructor
  · rintro ⟨name, hname⟩
    by_contra hnone
    have hacyclic : ∀ a, Reachable g gs a → ¬ TransGen (Edge g gs) a a :=
      fun a ha haa => hnone ⟨a, ha, haa⟩
    simp [(run_eq_none_iff hfound).2 hacyclic] at hname
  · rintro ⟨a, ha, haa⟩
    cases hfault : (run (some (.memory gs)) g).2 with
    | none => exact absurd haa ((run_eq_none_iff hfound).1 hfault a ha)
    | some e =>
      obtain ⟨name, rfl⟩ := cycle_of_run hfound hfault
      exact ⟨name, rfl⟩

end

end Traversal

/-! ## Compilations -/

open Traversal

namespace Grammar

variable {v : Vocabulary} {p : Policy} {loader : Option Loader}

/-- If the grammars that are finished have drafts, a compilation fails for an import if and only if
the traversal of the imports does. -/
lemma compile_eq_imports_iff {e : ImportError}
    (hdrafts : ∀ h ∈ (Traversal.run loader g).1, ∃ defs, h.drafts v = .ok defs) :
    g.compile v p loader = .error (.imports e) ↔ (Traversal.run loader g).2 = some e := by
  obtain ⟨drafts, hdrafts⟩ := Except.exists_mapM_iff.2 hdrafts
  rw [Grammar.compile]
  simp only [hdrafts]
  cases (Traversal.run loader g).2 with
  | none => exact ⟨fun h => absurd h DraftTable.link_ne_imports, by simp⟩
  | some fault => exact ⟨fun h => by cases h; rfl, fun h => by cases h; rfl⟩

/-- **Cycles are reported exactly.**  The directives of a grammar take one course, in which no name is
loaded twice; a traversal takes it and ends, and it has taken down the names that were loaded.  If
all grammars that are imported can be loaded and have drafts, then a compilation fails for a cycle if
and only if the root reaches one. -/
theorem compile_cycle_iff (g : Grammar) (gs : OrderedMap String Grammar) (v : Vocabulary) :
    (∃ loads t fault,
      (∀ loads' t' fault', Course (.memory gs) [g.name] g.imports {} loads' t' fault' ↔
        loads' = loads ∧ t' = t ∧ fault' = fault) ∧
      (visit (some (.memory gs)) (directiveCount (some (.memory gs)) g) [g.name] g).run {} =
        ending g t fault ∧
      t.imported = loads.reverse ∧ loads.Nodup) ∧
    ((∀ a, Reachable g gs a → ∃ h, node? g gs a = some h ∧ ∃ defs, h.drafts v = .ok defs) →
      ∀ p, (∃ name, g.compile v p (some (.memory gs)) = .error (.imports (.cycle name))) ↔
        ∃ a, Reachable g gs a ∧ TransGen (Edge g gs) a a) := by
  constructor
  · obtain ⟨loads, t, fault, hcourse, hvisit⟩ := exists_visit g gs
    have himported : t.imported = loads.reverse := by
      rw [hcourse.imported_eq, List.append_nil]
    refine ⟨loads, t, fault, fun loads' t' fault' => ⟨hcourse.unique, ?_⟩, hvisit, himported, ?_⟩
    · rintro ⟨rfl, rfl, rfl⟩
      exact hcourse
    · exact List.nodup_reverse.1 (himported ▸ hcourse.nodup List.nodup_nil)
  · intro hall p
    have hfound : ∀ a, Reachable g gs a → ∃ h, node? g gs a = some h :=
      fun a ha => (hall a ha).imp fun _ h => h.1
    have hdrafts : ∀ h ∈ (Traversal.run (some (.memory gs)) g).1, ∃ defs, h.drafts v = .ok defs := by
      intro h hh
      obtain ⟨a, ha, hnode⟩ := reachable_of_mem_run hh
      obtain ⟨h', hnode', hdefs⟩ := hall a ha
      exact Option.some.inj (hnode'.symm.trans hnode) ▸ hdefs
    simp only [compile_eq_imports_iff hdrafts]
    exact run_eq_cycle_iff hfound

/-- Two grammars that import each other, behind one that both share.  One of them has the name of
the root, which does not matter: it is known by the name under which it is imported. -/
def mutualLibrary : OrderedMap String Grammar := .ofList [
  ("item", ⟨"item", [], [⟨"item", [[.token "A"]]⟩]⟩),
  ("left", ⟨"left", ["item", "right"], [⟨"pair", [[.rule "item", .rule "item"]]⟩]⟩),
  ("right", ⟨"root", ["item", "left"], [⟨"list", [[.rule "pair"]]⟩]⟩)]

/-- The root from which the cycle is reached. -/
def mutualRoot : Grammar where
  name := "root"
  imports := ["item", "left", "item", "left"]
  rules := [⟨"all", [[.rule "list", .token "EOF"]]⟩]

/-- All grammars on the way are there, and have drafts. -/
lemma drafts_mutual : ∀ a, Reachable mutualRoot mutualLibrary a →
    ∃ h, node? mutualRoot mutualLibrary a = some h ∧
      ∃ defs, h.drafts clashTokens = .ok defs := by
  have hroot : node? mutualRoot mutualLibrary "root" = some mutualRoot := node?_root
  have hnames : ∀ a ∈ ["root", "item", "left", "right"],
      ∃ h, node? mutualRoot mutualLibrary a = some h ∧
        h.imports ⊆ ["root", "item", "left", "right"] ∧
          ∃ defs, h.drafts clashTokens = .ok defs := by
    simp only [List.forall_mem_cons]
    exact ⟨⟨_, hroot, by decide, _, rfl⟩, ⟨_, rfl, by decide, _, rfl⟩, ⟨_, rfl, by decide, _, rfl⟩,
      ⟨_, rfl, by decide, _, rfl⟩, List.forall_mem_nil _⟩
  intro a ha
  have hmem : a ∈ ["root", "item", "left", "right"] :=
    ha.mem_names (by decide) fun b hb => (hnames b hb).imp fun _ h => ⟨h.1, h.2.1⟩
  exact (hnames a hmem).imp fun _ h => ⟨h.1, h.2.2⟩

/-- The cycle behind the shared grammar is reported. -/
theorem compile_cycle_mutual :
    (∀ a, Reachable mutualRoot mutualLibrary a →
      ∃ h, node? mutualRoot mutualLibrary a = some h ∧
        ∃ defs, h.drafts clashTokens = .ok defs) ∧
    ((∃ name, mutualRoot.compile clashTokens {} (some (.memory mutualLibrary)) =
        .error (.imports (.cycle name))) ↔
      ∃ a, Reachable mutualRoot mutualLibrary a ∧ TransGen (Edge mutualRoot mutualLibrary) a a) :=
  ⟨drafts_mutual, (compile_cycle_iff mutualRoot mutualLibrary clashTokens).2 drafts_mutual {}⟩

example : mutualRoot.compile clashTokens {} (some (.memory mutualLibrary)) =
    .error (.imports (.cycle "left")) := by
  decide

end Grammar

end GrammarCompletion
