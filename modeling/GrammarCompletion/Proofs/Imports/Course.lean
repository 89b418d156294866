/-
# The course of a traversal

A traversal of the imports has a budget, so that it is known to end.  The budget is never used up
when the grammars are at hand: what the traversal does is what the directives say, however far they
lead.  `Course` says this without a budget, directive by directive, and takes down which names are
loaded on the way.

Every course ends (`exists_course`).  The names that are being followed are different from each
other, and each of them stands in a directive, so that there are no more of them than directives.  No
name is loaded twice, since a name is taken down as imported before it is loaded.
-/
import GrammarCompletion.Proofs.Imports.Traversal

namespace GrammarCompletion

open Relation ImportGraph

namespace Traversal

/-- What following some import directives comes to, with the names of a path on the way: the names
that are loaded, where the traversal stands in the end, and what stopped it if it was stopped. -/
inductive Course (l : Loader) :
    List String → List String → Traversal → List String → Traversal → Option ImportError → Prop
  /-- There is nothing left to follow. -/
  | done {path : List String} {t : Traversal} : Course l path [] t [] t none
  /-- A name on the way is a cycle. -/
  | cycle {path names : List String} {name : String} {t : Traversal} (hpath : name ∈ path) :
      Course l path (name :: names) t [] t (some (.cycle name))
  /-- A name that was imported before is passed over. -/
  | again {path names loads : List String} {name : String} {t t' : Traversal}
      {fault : Option ImportError} (hpath : name ∉ path) (ht : name ∈ t.imported)
      (h : Course l path names t loads t' fault) : Course l path (name :: names) t loads t' fault
  /-- A new name cannot be loaded. -/
  | missing {path names : List String} {name : String} {t : Traversal} {e : LoadError}
      (hpath : name ∉ path) (ht : name ∉ t.imported) (hload : l.load name = .error e) :
      Course l path (name :: names) t [name] { t with imported := name :: t.imported }
        (some (.loadFailed name e))
  /-- The directives of a new grammar are not followed to their end. -/
  | stopped {path names loads : List String} {name : String} {h : Grammar} {t t' : Traversal}
      {e : ImportError} (hpath : name ∉ path) (ht : name ∉ t.imported) (hload : l.load name = .ok h)
      (hin : Course l (name :: path) h.imports { t with imported := name :: t.imported } loads t'
        (some e)) :
      Course l path (name :: names) t (name :: loads) t' (some e)
  /-- The directives of a new grammar are followed, and then those that come after it. -/
  | next {path names loads loads' : List String} {name : String} {h : Grammar}
      {t t' t'' : Traversal} {fault : Option ImportError} (hpath : name ∉ path)
      (ht : name ∉ t.imported) (hload : l.load name = .ok h)
      (hin : Course l (name :: path) h.imports { t with imported := name :: t.imported } loads t'
        none)
      (hrest : Course l path names { t' with finished := t'.finished ++ [h] } loads' t'' fault) :
      Course l path (name :: names) t (name :: (loads ++ loads')) t'' fault

variable {g h : Grammar} {gs : OrderedMap String Grammar} {l : Loader} {budget : Nat}
  {path way names loads loads' : List String} {importer caller name : String} {t t' t'' : Traversal}
  {fault fault' : Option ImportError}

/-- Directives take one course only. -/
lemma Course.unique (h : Course l path names t loads t' fault)
    (h' : Course l path names t loads' t'' fault') : loads' = loads ∧ t'' = t' ∧ fault' = fault := by
  induction h generalizing loads' t'' fault' with
  | done =>
    cases h'
    exact ⟨rfl, rfl, rfl⟩
  | cycle hpath => cases h' <;> first | exact ⟨rfl, rfl, rfl⟩ | contradiction
  | again hpath ht _ ih =>
    cases h' with
    | again _ _ h' => exact ih h'
    | _ => contradiction
  | missing hpath ht hload =>
    cases h' with
    | missing _ _ hload' =>
      obtain rfl := Except.error.inj (hload.symm.trans hload')
      exact ⟨rfl, rfl, rfl⟩
    | stopped _ _ hload' | next _ _ hload' => simp [hload] at hload'
    | _ => contradiction
  | stopped hpath ht hload _ ih =>
    cases h' with
    | missing _ _ hload' => simp [hload] at hload'
    | stopped _ _ hload' hin' =>
      obtain rfl := Except.ok.inj (hload.symm.trans hload')
      obtain ⟨rfl, rfl, he⟩ := ih hin'
      exact ⟨rfl, rfl, he⟩
    | next _ _ hload' hin' =>
      obtain rfl := Except.ok.inj (hload.symm.trans hload')
      exact absurd (ih hin').2.2 (by simp)
    | _ => contradiction
  | next hpath ht hload _ _ ih ihrest =>
    cases h' with
    | missing _ _ hload' => simp [hload] at hload'
    | stopped _ _ hload' hin' =>
      obtain rfl := Except.ok.inj (hload.symm.trans hload')
      exact absurd (ih hin').2.2 (by simp)
    | next _ _ hload' hin' hrest' =>
      obtain rfl := Except.ok.inj (hload.symm.trans hload')
      obtain ⟨rfl, rfl, -⟩ := ih hin'
      obtain ⟨rfl, rfl, rfl⟩ := ihrest hrest'
      exact ⟨rfl, rfl, rfl⟩
    | _ => contradiction

/-- What is loaded is taken down, the last name first. -/
lemma Course.imported_eq (h : Course l path names t loads t' fault) :
    t'.imported = loads.reverse ++ t.imported := by
  induction h with
  | done | cycle | missing => simp
  | again _ _ _ ih => exact ih
  | stopped _ _ _ _ ih => simp [ih]
  | next _ _ _ _ _ ih ihrest => simp [ih, ihrest]

/-- **No name is loaded twice**, and none that was imported before. -/
lemma Course.nodup (h : Course l path names t loads t' fault) (ht : t.imported.Nodup) :
    t'.imported.Nodup := by
  induction h with
  | done | cycle => exact ht
  | again _ _ _ ih => exact ih ht
  | missing _ hnew _ => exact List.nodup_cons.2 ⟨hnew, ht⟩
  | stopped _ hnew _ _ ih => exact ih (List.nodup_cons.2 ⟨hnew, ht⟩)
  | next _ hnew _ _ _ ih ihrest => exact ihrest (ih (List.nodup_cons.2 ⟨hnew, ht⟩))

/-! ## Every course ends -/

/-- How a traversal with a budget reports where it stands and what stopped it. -/
def result (t : Traversal) : Option ImportError → EStateM.Result ImportError Traversal Unit
  | none => .ok () t
  | some e => .error e t

/-- Directives that are followed with a large enough budget take their course.  The induction is on
the budget: it is smaller by one for the directives of a grammar that is entered. -/
lemma exists_course (budget : Nat) (caller : String) (t : Traversal)
    (hw : OnWay g gs way importer) (hnames : ∀ a ∈ names, Edge g gs importer a)
    (hbudget : directiveCount (some (.memory gs)) g ≤ budget + way.length) :
    ∃ loads t' fault, Course (.memory gs) (way ++ [g.name]) names t loads t' fault ∧
      (names.forM (follow (some (.memory gs)) budget (way ++ [g.name]) caller)).run t =
        result t' fault := by
  induction budget using Nat.strongRecOn generalizing way importer names t caller with
  | ind budget ihbudget =>
    induction names generalizing t with
    | nil => exact ⟨[], t, none, .done, rfl⟩
    | cons name names ih =>
      obtain ⟨hname, hnames⟩ := List.forall_mem_cons.1 hnames
      rw [List.forM_eq_forM, List.forM_cons]
      by_cases hpath : name ∈ way ++ [g.name]
      · exact ⟨[], t, _, .cycle hpath, run_bind_error (follow_cycle hpath)⟩
      by_cases ht : name ∈ t.imported
      · obtain ⟨loads, t', fault, hcourse, hrun⟩ := ih t hnames
        refine ⟨loads, t', fault, .again hpath ht hcourse, ?_⟩
        rw [run_bind_ok (follow_again hpath ht)]
        exact hrun
      cases hget : gs.get? name with
      | none =>
        exact ⟨_, _, _, .missing hpath ht (load_memory_none hget),
          run_bind_error (follow_missing hpath ht hget)⟩
      | some h =>
        have hroot : name ≠ g.name := fun he => hpath (by simp [he])
        have hnode : node? g gs name = some h := (node?_of_ne hroot).trans hget
        have hw' : OnWay g gs (name :: way) name :=
          hw.extend (fun hmem => hpath (List.mem_append_left _ hmem)) hname
        -- there is room for one more name on the way
        obtain ⟨left, rfl⟩ : ∃ left, budget = left + 1 := by
          have hlen : way.length + 1 ≤ directiveCount (some (.memory gs)) g := hw'.length_le
          exact ⟨budget - 1, by omega⟩
        obtain ⟨loads, t', fault, hin, hrun⟩ := ihbudget left (Nat.lt_succ_self left) h.name
          { t with imported := name :: t.imported } hw' (fun a ha => ⟨h, hnode, ha⟩)
          (by rw [List.length_cons]; omega)
        have henter := follow_grammar left caller hpath ht hget
        cases fault with
        | some e =>
          refine ⟨_, _, _, .stopped hpath ht (load_memory hget) hin, run_bind_error ?_⟩
          rw [henter]
          exact run_bind_error hrun
        | none =>
          obtain ⟨loads', t'', fault, hrest, hrun'⟩ :=
            ih { t' with finished := t'.finished ++ [h] } hnames
          refine ⟨_, t'', fault, .next hpath ht (load_memory hget) hin hrest, ?_⟩
          rw [run_bind_ok (henter.trans (run_bind_ok hrun))]
          exact hrun'

/-- How the visit of a grammar ends after its directives have been followed. -/
def ending (g : Grammar) (t : Traversal) :
    Option ImportError → EStateM.Result ImportError Traversal Unit
  | none => .ok () { t with finished := t.finished ++ [g] }
  | some e => .error e t

/-- **A traversal ends**, with what the course of its directives comes to. -/
theorem exists_visit (g : Grammar) (gs : OrderedMap String Grammar) :
    ∃ loads t fault, Course (.memory gs) [g.name] g.imports {} loads t fault ∧
      (visit (some (.memory gs)) (directiveCount (some (.memory gs)) g) [g.name] g).run {} =
        ending g t fault := by
  obtain ⟨loads, t, fault, hcourse, hrun⟩ := exists_course
    (directiveCount (some (.memory gs)) g) g.name {} OnWay.root
    (fun a ha => ⟨g, node?_root, ha⟩) (Nat.le_add_right _ _)
  rw [List.nil_append] at hcourse hrun
  refine ⟨loads, t, fault, hcourse, ?_⟩
  rw [visit_eq]
  cases fault with
  | none =>
    rw [run_bind_ok hrun]
    rfl
  | some e => exact run_bind_error hrun

/-- The grammars that are finished in the end, and what stopped the traversal. -/
def outcome (g : Grammar) (t : Traversal) : Option ImportError → List Grammar × Option ImportError
  | none => (t.finished ++ [g], none)
  | some e => (t.finished, some e)

lemma exists_run (g : Grammar) (gs : OrderedMap String Grammar) :
    ∃ loads t fault, Course (.memory gs) [g.name] g.imports {} loads t fault ∧
      run (some (.memory gs)) g = outcome g t fault := by
  obtain ⟨loads, t, fault, hcourse, hvisit⟩ := exists_visit g gs
  refine ⟨loads, t, fault, hcourse, ?_⟩
  rw [run, hvisit]
  cases fault <;> rfl

end Traversal

end GrammarCompletion
