/-
# What plans yield

The meaning of a plan without a run: given which outcomes the visits of rules have and what they
offer, and the same for collecting, a plan *yields* a result and a set of offers (`Plan.Yields`).
The order and the number of offers are left out, as the candidates do not depend on them.

Plans that mirror each other yield the same offers (`Yields.mirror`).  With one plan on both sides,
this says that only those visits matter for which a plan asks.
-/
import GrammarCompletion.Proofs.Walk.Mirror
import Mathlib.Data.Set.Basic

namespace GrammarCompletion

/-- Which outcomes rules have at their spots, and what they offer. -/
abbrev Visit : Type := Spot → Outcome → Set Event → Prop

/-- In which phases collecting from rules ends, and what they offer. -/
abbrev Gather : Type := RuleId → Phase → Set Event → Prop

namespace Plan

/-- A plan has a result and offers, given what is known of visits and of collecting. -/
inductive Yields (V : Visit) (C : Gather) {α : Type} : Plan α → α → Set Event → Prop
  | done {a : α} : Yields V C (.done a) a ∅
  | visit {rule : RuleId} {p : Nat} {next : Outcome → Plan α} {o : Outcome} {a : α}
      {L L' : Set Event} (hv : V ⟨rule, p⟩ o L) (h : Yields V C (next o) a L') :
      Yields V C (.visit rule p next) a (L ∪ L')
  | gather {rule : RuleId} {next : Phase → Plan α} {ph : Phase} {a : α} {L L' : Set Event}
      (hc : C rule ph L) (h : Yields V C (next ph) a L') :
      Yields V C (.gather rule next) a (L ∪ L')
  | offer {t : TokenId} {c : List TokenId} {next : Plan α} {a : α} {L : Set Event}
      (h : Yields V C next a L) : Yields V C (.offer t c next) a ({.offerToken t c} ∪ L)
  | note {e : Event} {next : Plan α} {a : α} {L : Set Event} (h : Yields V C next a L) :
      Yields V C (.note e next) a L

variable {V V' : Visit} {C C' : Gather} {α β : Type} {x : Plan α} {f : α → Plan β} {a a' : α} {b : β}
  {L L' : Set Event}

@[simp] lemma yields_pure : (pure a : Plan α).Yields V C a' L ↔ a' = a ∧ L = ∅ := by
  constructor
  · intro h
    cases h
    exact ⟨rfl, rfl⟩
  · rintro ⟨rfl, rfl⟩
    exact .done

lemma Yields.bind (hx : x.Yields V C a L) (hf : (f a).Yields V C b L') :
    (x >>= f).Yields V C b (L ∪ L') := by
  induction hx with
  | done =>
    rw [Set.empty_union]
    exact hf
  | visit hv _ ih =>
    rw [Set.union_assoc]
    exact .visit hv (ih hf)
  | gather hc _ ih =>
    rw [Set.union_assoc]
    exact .gather hc (ih hf)
  | offer _ ih =>
    rw [Set.union_assoc]
    exact .offer (ih hf)
  | note _ ih => exact .note (ih hf)

/-- A plan that goes on after another one has what both offer. -/
lemma yields_bind : (x >>= f).Yields V C b L ↔
    ∃ a L₁ L₂, x.Yields V C a L₁ ∧ (f a).Yields V C b L₂ ∧ L = L₁ ∪ L₂ := by
  constructor
  · intro h
    change (Plan.bind f x).Yields V C b L at h
    induction x generalizing L with
    | done a => exact ⟨a, ∅, L, .done, h, (Set.empty_union L).symm⟩
    | visit rule p next ih =>
      cases h with
      | visit hv h =>
        obtain ⟨a, L₁, L₂, h₁, h₂, rfl⟩ := ih _ h
        exact ⟨a, _, L₂, .visit hv h₁, h₂, (Set.union_assoc _ _ _).symm⟩
    | gather rule next ih =>
      cases h with
      | gather hc h =>
        obtain ⟨a, L₁, L₂, h₁, h₂, rfl⟩ := ih _ h
        exact ⟨a, _, L₂, .gather hc h₁, h₂, (Set.union_assoc _ _ _).symm⟩
    | offer t c next ih =>
      cases h with
      | offer h =>
        obtain ⟨a, L₁, L₂, h₁, h₂, rfl⟩ := ih h
        exact ⟨a, _, L₂, .offer h₁, h₂, (Set.union_assoc _ _ _).symm⟩
    | note e next ih =>
      cases h with
      | note h =>
        obtain ⟨a, L₁, L₂, h₁, h₂, rfl⟩ := ih h
        exact ⟨a, L₁, L₂, .note h₁, h₂, rfl⟩
  · rintro ⟨a, L₁, L₂, h₁, h₂, rfl⟩
    exact h₁.bind h₂

@[simp] lemma yields_ite {p : Prop} [Decidable p] {y : Plan α} :
    (if p then x else y).Yields V C a L ↔ if p then x.Yields V C a L else y.Yields V C a L := by
  split <;> rfl

@[simp] lemma yields_note {e : Event} : (note e x).Yields V C a L ↔ x.Yields V C a L := by
  constructor
  · intro h
    cases h with
    | note h => exact h
  · exact .note

lemma Yields.mono (h : x.Yields V C a L) (hV : ∀ b o L, V b o L → V' b o L)
    (hC : ∀ r ph L, C r ph L → C' r ph L) : x.Yields V' C' a L := by
  induction h with
  | done => exact .done
  | visit hv _ ih => exact .visit (hV _ _ _ hv) ih
  | gather hc _ ih => exact .gather (hC _ _ _ hc) ih
  | offer _ ih => exact .offer ih
  | note _ ih => exact .note ih

/-- A plan yields one result and one set of offers, if visits and collecting do. -/
lemma Yields.unique (h : x.Yields V C a L) (h' : x.Yields V' C' a' L')
    (hV : ∀ b o L o' L', V b o L → V' b o' L' → o = o' ∧ L = L')
    (hC : ∀ r ph L ph' L', C r ph L → C' r ph' L' → ph = ph' ∧ L = L') : a = a' ∧ L = L' := by
  induction h generalizing L' with
  | done =>
    cases h'
    exact ⟨rfl, rfl⟩
  | visit hv _ ih =>
    cases h' with
    | visit hv' h' =>
      obtain ⟨rfl, rfl⟩ := hV _ _ _ _ _ hv hv'
      obtain ⟨rfl, rfl⟩ := ih h'
      exact ⟨rfl, rfl⟩
  | gather hc _ ih =>
    cases h' with
    | gather hc' h' =>
      obtain ⟨rfl, rfl⟩ := hC _ _ _ _ _ hc hc'
      obtain ⟨rfl, rfl⟩ := ih h'
      exact ⟨rfl, rfl⟩
  | offer _ ih =>
    cases h' with
    | offer h' =>
      obtain ⟨rfl, rfl⟩ := ih h'
      exact ⟨rfl, rfl⟩
  | note _ ih =>
    cases h' with
    | note h' => exact ih h'

/-- Plans that mirror each other yield the same offers, if corresponding visits do. -/
lemma Yields.mirror {T : Nat → Nat → Prop} {Ask : Spot → Prop} {W : Spot → Outcome → Prop}
    {Q : α → β → Prop} {y : Plan β} (h : x.Yields V C a L) (hm : Plan.Mirrors T Ask W Q x y)
    (hV : ∀ b p' o L, Ask b → T b.start p' → V b o L →
      W b o ∧ ∃ o', o.Mirrors T o' ∧ V' ⟨b.rule, p'⟩ o' L)
    (hC : ∀ r ph L, C r ph L → C' r ph L) : ∃ b, y.Yields V' C' b L ∧ Q a b := by
  induction hm generalizing L with
  | done hq =>
    cases h
    exact ⟨_, .done, hq⟩
  | visit hp ha _ ih =>
    cases h with
    | visit hv h =>
      obtain ⟨hw, o', ho, hv'⟩ := hV _ _ _ _ ha hp hv
      obtain ⟨b, hb, hq⟩ := ih _ _ hw ho h
      exact ⟨b, .visit hv' hb, hq⟩
  | gather _ ih =>
    cases h with
    | gather hc h =>
      obtain ⟨b, hb, hq⟩ := ih _ h
      exact ⟨b, .gather (hC _ _ _ hc) hb, hq⟩
  | offer _ ih =>
    cases h with
    | offer h =>
      obtain ⟨b, hb, hq⟩ := ih h
      exact ⟨b, .offer hb, hq⟩
  | note _ _ ih =>
    cases h with
    | note h =>
      obtain ⟨b, hb, hq⟩ := ih h
      exact ⟨b, .note hb, hq⟩

/-- A plan that asks for no visits yields what a plan like it does, where as much is known of
collecting. -/
lemma Yields.unvisited {y : Plan α} (h : x.Yields V C a L)
    (hm : Plan.Mirrors (· = ·) (fun _ => False) (fun _ _ => True) (· = ·) x y)
    (hC : ∀ r ph L, C r ph L → C' r ph L) : y.Yields V' C' a L := by
  obtain ⟨_, hy, rfl⟩ := h.mirror hm (fun _ _ _ _ hfalse => hfalse.elim) hC
  exact hy

end Plan

end GrammarCompletion
