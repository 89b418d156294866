/-
# Limits only cut off

Two properties of visits under different limits.  A visit is *metered*: it uses up a certain amount
of fuel, with any more than that it does the same, and with any less it runs out of fuel.  And a
visit *extends*: if it ends without an error, then it does the same with more fuel and more depth.
-/
import GrammarCompletion.Proofs.Limits.Uniform
import Mathlib

namespace GrammarCompletion

namespace Walk

variable {α β : Type}

/-! ## Fuel -/

/-- The end of a part of a walk, with a result or an error. -/
def ends (y : Except CompletionError α) (r : Run) : EStateM.Result CompletionError Run α :=
  match y with
  | .ok a => .ok a r
  | .error e => .error e r

/-- From a run, a part of a walk needs an amount `n` of fuel, and then has the end `y`. -/
structure Needs (x : Nat → Walk α) (r : Run) (n : Nat) (y : Except CompletionError α) (r' : Run) :
    Prop where
  fueled : ∀ p, y ≠ .error (.fuelExhausted p)
  enough : ∀ p f, x p (r.withFuel (n + f)) = ends y (r'.withFuel f)
  short : ∀ p f, f < n → ∃ r'', x p (r.withFuel f) = .error (.fuelExhausted p) r''

/-- A part of a walk needs some amount of fuel from every run.  The family is indexed by the fuel
that the whole walk started with, which is what an error reports. -/
def Metered (x : Nat → Walk α) : Prop :=
  ∀ r, ∃ n y r', Needs x r n y r'

lemma Needs.ok {x : Nat → Walk α} {r r' : Run} {a : α}
    (h : ∀ p f, x p (r.withFuel f) = .ok a (r'.withFuel f)) : Needs x r 0 (.ok a) r' :=
  ⟨nofun, fun p f => by rw [Nat.zero_add]; exact h p f, nofun⟩

lemma Metered.pure (a : α) : Metered fun _ => (pure a : Walk α) :=
  fun r => ⟨0, .ok a, r, .ok fun _ _ => rfl⟩

lemma Metered.bind {x : Nat → Walk α} {f : Nat → α → Walk β} (hx : Metered x)
    (hf : ∀ a, Metered fun p => f p a) : Metered fun p => x p >>= f p := by
  intro r
  -- the first part needs `n`, and the second one needs `m` from the run that it leaves
  obtain ⟨n, y, r₁, hn⟩ := hx r
  cases y with
  | error e =>
    refine ⟨n, .error e, r₁, fun p he => hn.fueled p ?_, fun p g => ?_, fun p g hg => ?_⟩
    · rw [Except.error.injEq] at he ⊢
      exact he
    · have henough := hn.enough p g
      simp only [Bind.bind, EStateM.bind, henough, ends]
    · obtain ⟨r'', hshort⟩ := hn.short p g hg
      exact ⟨r'', by simp only [Bind.bind, EStateM.bind, hshort]⟩
  | ok a =>
    obtain ⟨m, y, r₂, hm⟩ := hf a r₁
    have hstep : ∀ p g, (x p >>= f p) (r.withFuel (n + g)) = f p a (r₁.withFuel g) := by
      intro p g
      have henough := hn.enough p g
      simp only [Bind.bind, EStateM.bind, henough, ends]
    refine ⟨n + m, y, r₂, hm.fueled, fun p g => ?_, fun p g hg => ?_⟩
    · rw [Nat.add_assoc]
      exact (hstep p (m + g)).trans (hm.enough p g)
    · -- the fuel runs out in the first part or in the second one
      by_cases hgn : g < n
      · obtain ⟨r'', hshort⟩ := hn.short p g hgn
        exact ⟨r'', by simp only [Bind.bind, EStateM.bind, hshort]⟩
      · obtain ⟨g, rfl⟩ := Nat.exists_eq_add_of_le (Nat.le_of_not_lt hgn)
        obtain ⟨r'', hshort⟩ := hm.short p g (Nat.lt_of_add_lt_add_left hg)
        exact ⟨r'', (hstep p g).trans hshort⟩

lemma Metered.burn : Metered burn := by
  refine fun r => ⟨1, .ok (), r, nofun, fun p f => ?_, fun p f hf => ?_⟩
  · rw [Nat.add_comm]
    rfl
  · obtain rfl := Nat.lt_one_iff.1 hf
    exact ⟨_, rfl⟩

/-- Walks with a certain limit of the depth are metered. -/
lemma uniform_metered (depth : Nat) :
    Uniform (fun p => ⟨p, depth⟩) (fun d => ∃ n, ∀ p : Nat, d p = n) Metered where
  pure := Metered.pure
  bind := Metered.bind
  get {_ f} hf hx r := by
    obtain ⟨n, y, r', hn⟩ := hx r r
    have hget : ∀ p g, (get >>= f p) (r.withFuel g) = f p r (r.withFuel g) :=
      fun p g => congrFun (hf p r g) _
    exact ⟨n, y, r', hn.fueled, fun p g => (hget p _).trans (hn.enough p g),
      fun p g hg => (hn.short p g hg).imp fun _ h => (hget p g).trans h⟩
  modify {f} hf r := ⟨0, .ok (), f r, .ok fun _ n => congrArg (EStateM.Result.ok ()) (hf r n)⟩
  burn := Metered.burn
  defect d r := ⟨0, .error (.defect d), r, nofun, fun p f => by rw [Nat.zero_add]; rfl, nofun⟩
  limit {_ d x} hd hx := by
    obtain ⟨n, hn⟩ := hd
    simp only [hn]
    cases n with
    | zero =>
      exact fun r => ⟨0, .error (.recursionLimit depth), r, nofun,
        fun p f => by rw [Nat.zero_add]; rfl, nofun⟩
    | succ n => exact hx (fun _ => n) ⟨n, fun _ => rfl⟩ hn

/-! ## More of everything -/

/-- What the first part of a walk does without an error, the second one does too, with more fuel. -/
def Extends (k : Nat) (x : Bool → Walk α) : Prop :=
  ∀ r a r', x false r = .ok a r' →
    x true (r.withFuel (r.fuel + k)) = .ok a (r'.withFuel (r'.fuel + k))

lemma Extends.bind {k : Nat} {x : Bool → Walk α} {f : Bool → α → Walk β} (hx : Extends k x)
    (hf : ∀ a, Extends k fun i => f i a) : Extends k fun i => x i >>= f i := by
  intro r b r' h
  simp only [Bind.bind, EStateM.bind] at h ⊢
  cases hr : x false r with
  | error e r₁ => simp [hr] at h
  | ok a r₁ =>
    rw [hr] at h
    rw [hx r a r₁ hr]
    exact hf a r₁ b r' h

lemma Extends.burn (k : Nat) (limits : Bool → Limits) :
    Extends k fun i => burn (limits i).fuel := by
  intro r a r' h
  obtain ⟨n, r₀, rfl⟩ : ∃ n, ∃ r₀ : Run, r = r₀.withFuel n := ⟨r.fuel, r, rfl⟩
  cases n with
  | zero => nomatch h
  | succ n =>
    obtain rfl : r₀.withFuel n = r' := by injection h
    have hfuel : n + 1 + k = n + k + 1 := by omega
    change Walk.burn _ (r₀.withFuel (n + 1 + k)) = .ok a (r₀.withFuel (n + k))
    rw [hfuel]
    rfl

/-- What a walk does under some limits it does under others that allow for more depth. -/
lemma uniform_extends (k : Nat) (limits : Bool → Limits) :
    Uniform limits (fun d => d false ≤ d true) (Extends k) where
  pure a r a' r' h := by
    obtain ⟨rfl, rfl⟩ : a = a' ∧ r = r' := by simpa [Pure.pure, EStateM.pure] using h
    rfl
  bind := Extends.bind
  get hf hx r a r' h := by
    have hx := hx r r a r' h
    exact (congrFun (hf true r (r.fuel + k)) _).trans hx
  modify {f} hf r a r' h := by
    obtain rfl : f r = r' := by injection h
    have hfuel : (f r).fuel = r.fuel := by
      change (f (r.withFuel r.fuel)).fuel = r.fuel
      rw [hf]
      rfl
    rw [hfuel]
    exact congrArg (EStateM.Result.ok ()) (hf r (r.fuel + k))
  burn := .burn k limits
  defect d r a r' h := by simp [throw, throwThe, MonadExceptOf.throw, EStateM.throw] at h
  limit {_ d x} hd hx := by
    cases hfalse : d false with
    | zero =>
      -- the first walk is cut off here, so there is nothing to compare
      intro r a r' h
      simp [hfalse, throw, throwThe, MonadExceptOf.throw, EStateM.throw] at h
    | succ n =>
      obtain ⟨m, hm⟩ := Nat.exists_eq_succ_of_ne_zero (n := d true) (by omega)
      have hpred : ∀ i, d i = d i - 1 + 1 := by rintro (_ | _) <;> omega
      intro r a r' h
      have hstep := hx (fun i => d i - 1) (Nat.sub_le_sub_right hd 1) hpred r a r'
      simp only [hfalse, hm] at h hstep ⊢
      exact hstep h

end Walk

namespace Session

variable {s : Session} {d d' start k : Nat} {rule : RuleId} {r r' : Run} {o : Outcome}

/-- **A visit needs a certain amount of fuel.** -/
theorem metered_visit (s : Session) (depth d : Nat) (rule : RuleId) (start : Nat) :
    Walk.Metered fun p => (s.withLimits ⟨p, depth⟩).matchRule d rule start :=
  (Walk.uniform_metered depth).visit (d := fun _ => d) ⟨d, fun _ => rfl⟩ rule start

/-- **A visit that ends without an error does the same under larger limits.** -/
theorem visit_extends {l m : Limits} (hd : d ≤ d')
    (h : (s.withLimits l).matchRule d rule start r = .ok o r') :
    (s.withLimits m).matchRule d' rule start (r.withFuel (r.fuel + k)) =
      .ok o (r'.withFuel (r'.fuel + k)) :=
  (Walk.uniform_extends k fun i => bif i then m else l).visit (d := fun i => bif i then d' else d)
    hd rule start r o r' h

end Session

end GrammarCompletion
