/-
# The graph of imports

A grammar and a collection of grammars at hand make a graph.  Its nodes are names: that of the
grammar itself, which is the root, and those of the collection.  An edge is an import directive.

Where everything that can be reached from the root is there and nothing of it can be reached from
itself, the directives can be unfolded into a list in which every grammar comes after what it
imports (`Listing`).  A grammar that is imported more than once stands in this list more than once.
-/
import GrammarCompletion.Import.Order
import Mathlib.Data.Set.Finite.List
import Mathlib.Logic.Relation
import Mathlib.Order.WellFounded
import Mathlib.Tactic.Lemma

namespace GrammarCompletion

open Relation

namespace ImportGraph

variable {g h : Grammar} {gs : OrderedMap String Grammar} {a b : String}

/-- The grammar of a name.  The root is found under its own name, whatever the collection has under
it. -/
def node? (g : Grammar) (gs : OrderedMap String Grammar) (name : String) : Option Grammar :=
  if name = g.name then some g else gs.get? name

/-- A grammar imports the grammar of a name. -/
def Edge (g : Grammar) (gs : OrderedMap String Grammar) (a b : String) : Prop :=
  ∃ h, node? g gs a = some h ∧ b ∈ h.imports

/-- The root imports a grammar, directly or through others, or is it. -/
def Reachable (g : Grammar) (gs : OrderedMap String Grammar) (a : String) : Prop :=
  ReflTransGen (Edge g gs) g.name a

/-- Everything that the root imports is there, and nothing of it imports itself. -/
structure Sound (g : Grammar) (gs : OrderedMap String Grammar) : Prop where
  /-- The grammar of every name can be loaded. -/
  found : ∀ a, Reachable g gs a → ∃ h, node? g gs a = some h
  /-- No grammar imports itself, directly or through others. -/
  acyclic : ∀ a, Reachable g gs a → ¬ TransGen (Edge g gs) a a

/-- The grammars of some names in depth-first order, each after everything that it imports.  What is
imported more than once stands more than once. -/
inductive Listing (g : Grammar) (gs : OrderedMap String Grammar) :
    List String → List String → Prop
  /-- Nothing is listed for no names. -/
  | nil : Listing g gs [] []
  /-- A grammar comes after what it imports, and before the grammars that are named after it. -/
  | cons {name : String} {names below others : List String} {h : Grammar} :
      node? g gs name = some h → Listing g gs h.imports below → Listing g gs names others →
      Listing g gs (name :: names) (below ++ name :: others)

@[simp] lemma node?_root : node? g gs g.name = some g := if_pos rfl

lemma node?_of_ne (ha : a ≠ g.name) : node? g gs a = gs.get? a := if_neg ha

lemma Reachable.root : Reachable g gs g.name := .refl

lemma Reachable.step (ha : Reachable g gs a) (hab : Edge g gs a b) : Reachable g gs b :=
  ha.tail hab

/-- What can be reached and is there has one of finitely many names. -/
lemma mem_names_of_node? (ha : node? g gs a = some h) : a ∈ g.name :: gs.keys := by
  by_cases hroot : a = g.name
  · exact hroot ▸ List.mem_cons_self
  · rw [node?_of_ne hroot] at ha
    exact List.mem_cons_of_mem _ (OrderedMap.mem_of_get? ha)

/-! ## Listings -/

namespace Listing

variable {names l l' : List String}

/-- A listing is determined by its names. -/
lemma unique (hl : Listing g gs names l) (hl' : Listing g gs names l') : l = l' := by
  induction hl generalizing l' with
  | nil =>
    cases hl'
    rfl
  | cons hnode _ _ ihb iho =>
    cases hl' with
    | cons hnode' hb' ho' =>
      obtain rfl := Option.some.inj (hnode.symm.trans hnode')
      rw [ihb hb', iho ho']

/-- The names themselves are listed. -/
lemma mem_of_mem_names (hl : Listing g gs names l) (ha : a ∈ names) : a ∈ l := by
  induction hl with
  | nil => simp at ha
  | cons _ _ _ _ iho =>
    rcases List.mem_cons.1 ha with rfl | ha
    · simp
    · simp [iho ha]

/-- Only what is imported is listed. -/
lemma exists_name_reaching (hl : Listing g gs names l) (hb : b ∈ l) :
    ∃ a ∈ names, ReflTransGen (Edge g gs) a b := by
  induction hl with
  | nil => simp at hb
  | @cons name names below others h hnode _ _ ihb iho =>
    rw [List.mem_append, List.mem_cons] at hb
    rcases hb with hb | rfl | hb
    · obtain ⟨c, hc, hcb⟩ := ihb hb
      exact ⟨name, List.mem_cons_self, .head ⟨h, hnode, hc⟩ hcb⟩
    · exact ⟨b, List.mem_cons_self, .refl⟩
    · obtain ⟨a, ha, hab⟩ := iho hb
      exact ⟨a, List.mem_cons_of_mem name ha, hab⟩

/-- What stands below a name is imported by it. -/
lemma transGen_of_mem_below {below : List String} (hnode : node? g gs a = some h)
    (hl : Listing g gs h.imports below) (hb : b ∈ below) : TransGen (Edge g gs) a b := by
  obtain ⟨c, hc, hcb⟩ := hl.exists_name_reaching hb
  exact .head' ⟨h, hnode, hc⟩ hcb

/-- Names of which each one has a listing have one together. -/
lemma exists_of_forall (hnames : ∀ a ∈ names, ∃ l, Listing g gs [a] l) :
    ∃ l, Listing g gs names l := by
  induction names with
  | nil => exact ⟨[], .nil⟩
  | cons a names ih =>
    obtain ⟨l, hl⟩ := hnames a List.mem_cons_self
    obtain ⟨others, ho⟩ := ih fun b hb => hnames b (List.mem_cons_of_mem a hb)
    cases hl with
    | cons hnode hbelow _ => exact ⟨_, .cons hnode hbelow ho⟩

/-- Below a name, everything that can be reached from it is listed. -/
lemma mem_of_reaching (hl : Listing g gs names l) (ha : a ∈ l) (hab : Edge g gs a b) : b ∈ l := by
  induction hl with
  | nil => simp at ha
  | @cons name names below others h hnode hbelow _ ihb iho =>
    rw [List.mem_append, List.mem_cons] at ha ⊢
    rcases ha with ha | rfl | ha
    · exact .inl (ihb ha)
    · obtain ⟨h', hnode', hb⟩ := hab
      obtain rfl := Option.some.inj (hnode.symm.trans hnode')
      exact .inl (hbelow.mem_of_mem_names hb)
    · exact .inr (.inr (iho ha))

end Listing

/-- The listing of the root has exactly what can be reached. -/
lemma Listing.mem_iff_reachable {l : List String} (hl : Listing g gs [g.name] l) :
    a ∈ l ↔ Reachable g gs a := by
  constructor
  · intro ha
    obtain ⟨b, hb, hba⟩ := hl.exists_name_reaching ha
    obtain rfl := List.mem_singleton.1 hb
    exact hba
  · intro ha
    induction ha with
    | refl => exact hl.mem_of_mem_names List.mem_cons_self
    | tail _ hcb ih => exact hl.mem_of_reaching ih hcb

/-! ## Graphs without cycles -/

namespace Sound

variable (hg : Sound g gs)

include hg

/-- Finitely many names can be reached. -/
lemma finite_reachable : Finite {a // Reachable g gs a} := by
  refine Set.Finite.subset (List.finite_toSet (g.name :: gs.keys)) fun a ha => ?_
  obtain ⟨h, hnode⟩ := hg.found a ha
  exact mem_names_of_node? hnode

/-- Every name that can be reached has a listing.  The induction is on what the name imports: the
graph is finite and has no cycles. -/
lemma exists_listing (ha : Reachable g gs a) : ∃ l, Listing g gs [a] l := by
  let below : {a // Reachable g gs a} → {a // Reachable g gs a} → Prop :=
    fun b a => TransGen (Edge g gs) a b
  have hfinite := hg.finite_reachable
  have htrans : IsTrans _ below := ⟨fun _ _ _ hab hbc => hbc.trans hab⟩
  have hirrefl : Std.Irrefl below := ⟨fun a => hg.acyclic a a.2⟩
  have hwf : WellFounded below := Finite.wellFounded_of_trans_of_irrefl below
  have hall : ∀ a : {a // Reachable g gs a}, ∃ l, Listing g gs [a.1] l := by
    intro a
    induction a using hwf.induction with
    | _ a ih =>
      obtain ⟨h, hnode⟩ := hg.found a a.2
      have himports : ∀ b ∈ h.imports, ∃ l, Listing g gs [b] l := fun b hb =>
        ih ⟨b, a.2.step ⟨h, hnode, hb⟩⟩ (.single ⟨h, hnode, hb⟩)
      obtain ⟨l, hl⟩ := Listing.exists_of_forall himports
      exact ⟨_, .cons hnode hl .nil⟩
  exact hall ⟨a, ha⟩

end Sound

/-- A graph has no cycles if numbers can be given to the names that fall along the imports. -/
lemma sound_of_rank (rank : String → Nat) (hg : ∀ e ∈ (g.name, g) :: gs.entries, ∀ b ∈ e.2.imports,
    rank b < rank e.1 ∧ (node? g gs b).isSome) : Sound g gs := by
  have hedge : ∀ a b, Edge g gs a b → rank b < rank a ∧ (node? g gs b).isSome := by
    rintro a b ⟨h, hnode, hb⟩
    refine hg (a, h) ?_ b hb
    by_cases hroot : a = g.name
    · subst hroot
      obtain rfl := Option.some.inj (node?_root.symm.trans hnode)
      exact List.mem_cons_self
    · rw [node?_of_ne hroot] at hnode
      exact List.mem_cons_of_mem _ (OrderedMap.mem_entries_of_get? hnode)
  have hfall : ∀ a b, TransGen (Edge g gs) a b → rank b < rank a := by
    intro a b hab
    induction hab with
    | single hab => exact (hedge _ _ hab).1
    | tail _ hcb ih => exact ((hedge _ _ hcb).1).trans ih
  refine ⟨fun a ha => ?_, fun a _ haa => (hfall a a haa).false⟩
  cases ha with
  | refl => exact ⟨g, node?_root⟩
  | tail _ hca => exact Option.isSome_iff_exists.1 (hedge _ _ hca).2

end ImportGraph

end GrammarCompletion
