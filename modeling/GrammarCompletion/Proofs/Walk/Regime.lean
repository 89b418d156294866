/-
# Regimes of a walk

What is proved about a walk is proved part by part.  A *regime* says what every part keeps: an
invariant of the run, a way in which the run may only move on (`later`), and what is left when the
walk ends with an error.  `K.Keeps x A` says that the part `x` stays within the regime `K` and that
its result satisfies `A` in the run that it leaves behind.

The rules below follow the ways in which parts are put together.
-/
import GrammarCompletion.Walk.Collect
import Mathlib.Tactic.Common

namespace GrammarCompletion

/-- The run after an event was recorded. -/
def Run.record (e : Event) (r : Run) : Run := { r with events := e :: r.events }

/-- Whether an event is about the rules that a walk is in: one is entered or left, or found to be
entered already. -/
def Event.isFraming : Event → Bool
  | enter _ _ => true
  | exit _ _ _ _ => true
  | leftRecursion _ _ => true
  | _ => false

namespace Walk

variable {α β : Type}

/-- From every run with `P`, a part of a walk ends with a result and a run as `Q` says, which may
look back at the run before, or with an error and a run as `E` says. -/
def Spec (P : Run → Prop) (x : Walk α) (Q : Run → α → Run → Prop)
    (E : CompletionError → Run → Prop) : Prop :=
  ∀ r, P r → match x r with
    | .ok a r' => Q r a r'
    | .error e r' => E e r'

variable {P P' : Run → Prop} {x : Walk α} {Q Q' : Run → α → Run → Prop}
  {E : CompletionError → Run → Prop}

lemma Spec.pure {a : α} (h : ∀ r, P r → Q r a r) : Spec P (pure a : Walk α) Q E := h

lemma Spec.bind {f : α → Walk β} {A : Run → α → Run → Prop} {B : Run → β → Run → Prop}
    (hx : Spec P x A E) (hf : ∀ r a, P r → Spec (A r a) (f a) (fun _ b r' => B r b r') E) :
    Spec P (x >>= f) B E := by
  intro r hr
  have h := hx r hr
  simp only [Bind.bind, EStateM.bind]
  cases hxr : x r with
  | ok a r' =>
    rw [hxr] at h
    exact hf r a hr r' h
  | error e r' =>
    rw [hxr] at h
    exact h

lemma Spec.mono (h : Spec P x Q E) (hP : ∀ r, P' r → P r)
    (hQ : ∀ r a r', P' r → Q r a r' → Q' r a r') : Spec P' x Q' E := by
  intro r hr
  have hx := h r (hP r hr)
  cases hxr : x r with
  | ok a r' =>
    rw [hxr] at hx
    exact hQ r a r' hr hx
  | error e r' =>
    rw [hxr] at hx
    exact hx

lemma Spec.get {f : Run → Walk α} (hf : ∀ r, P r → Spec (fun r' => r' = r) (f r)
    (fun _ a r' => Q r a r') E) : Spec P (get >>= f) Q E := by
  intro r hr
  exact hf r hr r rfl

lemma Spec.modify {f : Run → Run} {Q : Run → Unit → Run → Prop} (h : ∀ r, P r → Q r () (f r)) :
    Spec P (modify f : Walk Unit) Q E := h

lemma Spec.throw {e : CompletionError} (h : ∀ r, P r → E e r) :
    Spec P (throw e : Walk α) Q E := h

lemma Spec.ok {r r' : Run} {a : α} (h : Spec P x Q E) (hr : P r) (hx : x r = .ok a r') :
    Q r a r' := by
  have h := h r hr
  rwa [hx] at h

lemma Spec.error {r r' : Run} {e : CompletionError} (h : Spec P x Q E) (hr : P r)
    (hx : x r = .error e r') : E e r' := by
  have h := h r hr
  rwa [hx] at h

/-- What the parts of a walk keep. -/
structure Regime where
  /-- What is true of every run. -/
  inv : Run → Prop
  /-- How a run may differ from an earlier one. -/
  later : Run → Run → Prop
  /-- What is true of a run that ends with an error. -/
  fault : CompletionError → Run → Prop
  refl : ∀ r, later r r
  trans : ∀ {r₁ r₂ r₃}, later r₁ r₂ → later r₂ r₃ → later r₁ r₃

namespace Regime

variable {K : Regime} {A : α → Run → Prop} {B : β → Run → Prop}

/-- A part of a walk stays within the regime, and its result is as `A` says. -/
def Keeps (K : Regime) (x : Walk α) (A : α → Run → Prop) : Prop :=
  Spec K.inv x (fun r a r' => K.inv r' ∧ K.later r r' ∧ A a r') K.fault

/-- The same for a part that starts from a run with a further property. -/
def KeepsFrom (K : Regime) (C : Run → Prop) (x : Walk α) (A : α → Run → Prop) : Prop :=
  Spec (fun r => K.inv r ∧ C r) x (fun r a r' => K.inv r' ∧ K.later r r' ∧ A a r') K.fault

lemma Keeps.pure {a : α} (h : ∀ r, K.inv r → A a r) : K.Keeps (pure a : Walk α) A :=
  Spec.pure fun r hr => ⟨hr, K.refl r, h r hr⟩

lemma KeepsFrom.pure {C : Run → Prop} {a : α} (h : ∀ r, K.inv r → C r → A a r) :
    K.KeepsFrom C (pure a : Walk α) A :=
  Spec.pure fun r hr => ⟨hr.1, K.refl r, h r hr.1 hr.2⟩

lemma Keeps.bind {f : α → Walk β} (hx : K.Keeps x A) (hf : ∀ a, K.KeepsFrom (A a) (f a) B) :
    K.Keeps (x >>= f) B :=
  Spec.bind hx fun _ a _ => Spec.mono (hf a) (fun _ h => ⟨h.1, h.2.2⟩)
    fun _ _ _ h h' => ⟨h'.1, K.trans h.2.1 h'.2.1, h'.2.2⟩

/-- Nothing has to be known of the run at the start. -/
lemma Keeps.keepsFrom {C : Run → Prop} (h : K.Keeps x A) : K.KeepsFrom C x A :=
  Spec.mono h (fun _ hr => hr.1) fun _ _ _ _ h => h

/-- Two parts of which the second does not look at the result of the first. -/
lemma Keeps.seq {y : Walk β} (hx : K.Keeps x A) (hy : K.Keeps y B) :
    K.Keeps (x >>= fun _ => y) B :=
  hx.bind fun _ => hy.keepsFrom

lemma KeepsFrom.bind {C : Run → Prop} {f : α → Walk β} (hx : K.KeepsFrom C x A)
    (hf : ∀ a, K.KeepsFrom (A a) (f a) B) : K.KeepsFrom C (x >>= f) B :=
  Spec.bind hx fun _ a _ => Spec.mono (hf a) (fun _ h => ⟨h.1, h.2.2⟩)
    fun _ _ _ h h' => ⟨h'.1, K.trans h.2.1 h'.2.1, h'.2.2⟩

/-- What is known of the earlier run may be used for the result. -/
lemma Keeps.from {A' : α → Run → Prop} {C : Run → Prop} (h : K.Keeps x A)
    (hA : ∀ r a r', K.inv r' → C r → K.later r r' → A a r' → A' a r') : K.KeepsFrom C x A' :=
  Spec.mono h (fun _ hr => hr.1) fun r a r' hr h => ⟨h.1, h.2.1, hA r a r' h.1 hr.2 h.2.1 h.2.2⟩

/-- What stays true in later runs is known afterwards as well. -/
lemma Keeps.frame {C : Run → Prop} (h : K.Keeps x A)
    (hC : ∀ {r r'}, K.later r r' → C r → C r') : K.KeepsFrom C x fun a r => C r ∧ A a r :=
  h.from fun _ _ _ _ hr hl ha => ⟨hC hl hr, ha⟩

/-- Less may be asked of the run at the start. -/
lemma KeepsFrom.weaken {C D : Run → Prop} (h : K.KeepsFrom D x A) (hC : ∀ r, C r → D r) :
    K.KeepsFrom C x A :=
  Spec.mono h (fun r hr => ⟨hr.1, hC r hr.2⟩) fun _ _ _ _ h => h

/-- What follows from the run at the start may be assumed. -/
lemma KeepsFrom.intro {C : Run → Prop} {P : Prop} (hP : ∀ r, K.inv r → C r → P)
    (h : P → K.KeepsFrom C x A) : K.KeepsFrom C x A :=
  fun r hr => h (hP r hr.1 hr.2) r hr

lemma Keeps.mono {A' : α → Run → Prop} (h : K.Keeps x A)
    (hA : ∀ a r, K.inv r → A a r → A' a r) : K.Keeps x A' :=
  Spec.mono h (fun _ hr => hr) fun _ a r' _ h => ⟨h.1, h.2.1, hA a r' h.1 h.2.2⟩

lemma Keeps.map {g : α → β} (h : K.Keeps x A) (hB : ∀ a r, K.inv r → A a r → B (g a) r) :
    K.Keeps (x >>= fun a => Pure.pure (g a)) B :=
  h.bind fun a => .pure fun r hr hA => hB a r hr hA

/-- A part whose result is not looked at. -/
lemma Keeps.discard (h : K.Keeps x A) : K.Keeps (Functor.discard x) fun _ _ => True := by
  have hx : Functor.discard x = x >>= fun _ => Pure.pure () := by
    funext r
    simp only [Functor.discard, Functor.mapConst, Function.comp_apply, EStateM.map, Bind.bind,
      EStateM.bind, Pure.pure, EStateM.pure]
  rw [hx]
  exact h.map fun _ _ _ _ => trivial

lemma Keeps.get {f : Run → Walk α} (hf : ∀ r, K.inv r → K.KeepsFrom (fun r' => r' = r) (f r) A) :
    K.Keeps (get >>= f) A :=
  Spec.get fun r hr => Spec.mono (hf r hr) (fun _ h => ⟨h.symm ▸ hr, h⟩) fun _ _ _ h h' => h ▸ h'

lemma KeepsFrom.get {C : Run → Prop} {f : Run → Walk α}
    (hf : ∀ r, K.inv r → C r → K.KeepsFrom (fun r' => r' = r) (f r) A) :
    K.KeepsFrom C (get >>= f) A :=
  Spec.get fun r hr => Spec.mono (hf r hr.1 hr.2) (fun _ h => ⟨h.symm ▸ hr.1, h⟩)
    fun _ _ _ h h' => h ▸ h'

/-- What is known of the run after a change. -/
lemma Keeps.modifyTo {f : Run → Run} {B : Run → Prop}
    (h : ∀ r, K.inv r → K.inv (f r) ∧ K.later r (f r) ∧ B (f r)) :
    K.Keeps (modify f : Walk Unit) fun _ r => B r :=
  Spec.modify h

lemma Keeps.modify {f : Run → Run} (h : ∀ r, K.inv r → K.inv (f r) ∧ K.later r (f r)) :
    K.Keeps (modify f : Walk Unit) fun _ _ => True :=
  Spec.modify fun r hr => ⟨(h r hr).1, (h r hr).2, trivial⟩

lemma Keeps.throw {e : CompletionError} (h : ∀ r, K.inv r → K.fault e r) :
    K.Keeps (throw e : Walk α) A :=
  Spec.throw h

lemma Keeps.ofExcept {y : Except Defect α} (hok : ∀ a, y = .ok a → ∀ r, K.inv r → A a r)
    (herr : ∀ d, y = .error d → ∀ r, K.inv r → K.fault (.defect d) r) :
    K.Keeps (Walk.ofExcept y) A := by
  cases y with
  | ok a => exact .pure (hok a rfl)
  | error d => exact .throw (herr d rfl)

/-- Events of a kind are not looked at. -/
def AllowsEvents (K : Regime) (P : Event → Prop) : Prop :=
  ∀ r e, P e → K.inv r → K.inv (r.record e) ∧ K.later r (r.record e)

lemma AllowsEvents.mono {P Q : Event → Prop} (h : K.AllowsEvents P) (hQ : ∀ e, Q e → P e) :
    K.AllowsEvents Q :=
  fun r e he => h r e (hQ e he)

lemma Keeps.emit {P : Event → Prop} (h : K.AllowsEvents P) {e : Event} (he : P e) :
    K.Keeps (emit e) fun _ _ => True :=
  .modify fun r hr => h r e he hr

lemma KeepsFrom.emit {C : Run → Prop} {P : Event → Prop} (h : K.AllowsEvents P) {e : Event}
    (he : P e) (hC : ∀ r, C r → C (r.record e)) :
    K.KeepsFrom C (Walk.emit e) fun _ r => C r :=
  Spec.modify fun r hr => ⟨(h r e he hr.1).1, (h r e he hr.1).2, hC r hr.2⟩

/-- Runs that differ in the fuel only are not told apart, and a walk may run out of fuel. -/
def AllowsFuel (K : Regime) (limit : Nat) : Prop :=
  (∀ r n, K.inv r → K.inv { r with fuel := n } ∧ K.later r { r with fuel := n }) ∧
    ∀ r, K.inv r → K.fault (.fuelExhausted limit) r

lemma Keeps.burn {limit : Nat} (h : K.AllowsFuel limit) :
    K.Keeps (burn limit) fun _ _ => True := by
  refine Spec.get fun r hr => ?_
  rintro r' rfl
  cases hf : r'.fuel with
  | zero => exact h.2 r' hr
  | succ n => exact ⟨(h.1 r' n hr).1, (h.1 r' n hr).2, trivial⟩

end Regime

end Walk

end GrammarCompletion
