/-
# Reading from the left

What a string of symbols may be asked to read from a position on: the visible tokens up to a position
in front of the stop, those up to the stop, or all of those and a token behind them (`Target`).  A
concatenation reads a target in parts (`Session.Reads.split`), and what is read in front of the stop
begins with the kind of the token there (`Session.Reads.ahead`).
-/
import GrammarCompletion.Proofs.Predictive.Grammar
import GrammarCompletion.Proofs.Visible

namespace GrammarCompletion

namespace TokenStream

variable {s : TokenStream} {p q q' : Nat} {u v : List TokenId}

lemma kinds_cons (hp : s.Visible p) (hq : s.Visible q) (h : p < q) :
    s.kinds p q = s.kind p :: s.kinds (s.advance p) q := by
  rw [← kinds_append le_advance (advance_le_of_visible hq h),
    kinds_advance hp (Nat.lt_of_lt_of_le h hq.1), List.singleton_append]

/-- Between visible positions there are tokens. -/
lemma eq_of_kinds_eq_nil (hp : s.Visible p) (hq : s.Visible q) (hpq : p ≤ q)
    (h : s.kinds p q = []) : q = p := by
  by_contra hne
  rw [kinds_cons hp hq (Nat.lt_of_le_of_ne hpq (Ne.symm hne))] at h
  simp at h

/-- Where the tokens up to a position are taken apart, there is a visible position. -/
lemma exists_visible_of_kinds (hp : s.Visible p) (hq : s.Visible q) (hpq : p ≤ q)
    (h : s.kinds p q = u ++ v) :
    ∃ e, s.Visible e ∧ p ≤ e ∧ e ≤ q ∧ u = s.kinds p e ∧ v = s.kinds e q := by
  induction u generalizing p with
  | nil => exact ⟨p, hp, Nat.le_refl p, hpq, kinds_self.symm, by simpa using h.symm⟩
  | cons t u ih =>
    have hlt : p < q := by
      refine Nat.lt_of_le_of_ne hpq ?_
      rintro rfl
      simp at h
    rw [kinds_cons hp hq hlt, List.cons_append] at h
    obtain ⟨rfl, htail⟩ := List.cons.inj h
    obtain ⟨e, he, hpe, heq, rfl, rfl⟩ := ih hp.advance (advance_le_of_visible hq hlt) htail
    have hle : p < e := Nat.lt_of_lt_of_le (lt_advance (Nat.lt_of_lt_of_le hlt hq.1)) hpe
    exact ⟨e, he, hle.le, heq, (kinds_cons hp he hle).symm, rfl⟩

end TokenStream

/-- What may be read from a position on. -/
inductive Target where
  /-- The tokens up to a position in front of the stop. -/
  | upTo (q : Nat)
  /-- The tokens up to the stop. -/
  | toStop
  /-- The tokens up to the stop and one behind them. -/
  | beyond (t : TokenId)

namespace Session

variable (s : Session)

/-- A string reads a target from a position on: it derives the tokens, and what comes behind the
last one if a token behind the stop is read. -/
def Reads (x : Form) (p : Nat) : Target → Prop
  | .upTo q => s.stream.Visible q ∧ p ≤ q ∧ q < s.stop ∧
      s.model.Derives x (Form.ofTokens (s.stream.kinds p q))
  | .toStop => s.model.Derives x (Form.ofTokens (s.stream.kinds p s.stop))
  | .beyond t => ∃ b, s.model.Derives x (Form.ofTokens (s.stream.kinds p s.stop) ++ .token t :: b)

/-- The token behind a target in front of the stop is one of some tokens. -/
def Follows (F : TokenId → Prop) : Target → Prop
  | .upTo q => F (s.stream.kind q)
  | _ => True

variable {s} {x y : Form} {p q : Nat} {T : Target} {root r : RuleId}

lemma visible_stop : s.stream.Visible s.stop := TokenStream.visible_stop

lemma reached_stop : s.reached s.stop = true := TokenStream.reached_stop

lemma not_reached_of_lt (hv : s.stream.Visible p) (hlt : p < s.stop) : s.reached p = false := by
  by_contra hne
  exact absurd (TokenStream.stop_le hv (by simpa [reached] using hne)) (Nat.not_le.2 hlt)

/-- What is read in front of the stop begins with the token there, or nothing is read. -/
lemma Reads.ahead (h : s.Reads x p T) (hp : s.stream.Visible p) (hlt : p < s.stop)
    (hT : s.Follows (s.model.Follow root r) T) : s.model.Ahead root r x (s.stream.kind p) := by
  have hstop := TokenStream.kinds_cons hp visible_stop hlt
  cases T with
  | upTo q =>
    obtain ⟨hq, hpq, -, hd⟩ := h
    rcases Nat.eq_or_lt_of_le hpq with rfl | hpq
    · rw [TokenStream.kinds_self] at hd
      exact Or.inr ⟨hd, hT⟩
    · rw [TokenStream.kinds_cons hp hq hpq] at hd
      exact Or.inl ⟨_, hd⟩
  | toStop =>
    have hd : s.model.Derives x (Form.ofTokens (s.stream.kinds p s.stop)) := h
    rw [hstop] at hd
    exact Or.inl ⟨_, hd⟩
  | beyond t =>
    obtain ⟨b, hd⟩ := h
    rw [hstop] at hd
    exact Or.inl ⟨_, hd⟩

/-- What a rule reads is read by one of its strings. -/
lemma Reads.rule_inv (h : s.Reads [.rule r] p T) : ∃ x, s.model.Produces r x ∧ s.Reads x p T := by
  have htokens : ∀ {v : List TokenId}, Form.ofTokens v ≠ [.rule r] := by
    intro v hz
    cases v <;> simp [Form.ofTokens] at hz
  have hmore : ∀ {v : List TokenId} {t : TokenId} {b : Form},
      Form.ofTokens v ++ .token t :: b ≠ [.rule r] := by
    intro v t b hz
    cases v <;> simp [Form.ofTokens] at hz
  cases T with
  | upTo q =>
    obtain ⟨hq, hpq, hqs, hd⟩ := h
    obtain ⟨x, hx, hd⟩ := hd.rule_inv.resolve_left htokens
    exact ⟨x, hx, hq, hpq, hqs, hd⟩
  | toStop => exact (Model.Derives.rule_inv h).resolve_left htokens
  | beyond t =>
    obtain ⟨b, hd⟩ := h
    obtain ⟨x, hx, hd⟩ := hd.rule_inv.resolve_left hmore
    exact ⟨x, hx, b, hd⟩

/-- A token reads itself, and nothing else. -/
lemma Reads.token_inv {u : TokenId} (h : s.Reads [.token u] p T) (hp : s.stream.Visible p)
    (hlt : p < s.stop) : s.stream.kind p = u ∧
      (T = .upTo (s.stream.advance p) ∨ T = .toStop ∧ s.stream.advance p = s.stop) := by
  have hsingle : ∀ {q}, s.stream.Visible q → p < q →
      s.model.Derives [.token u] (Form.ofTokens (s.stream.kinds p q)) →
      s.stream.kind p = u ∧ q = s.stream.advance p := by
    intro q hq hpq hd
    have hz := hd.token_inv
    rw [TokenStream.kinds_cons hp hq hpq] at hz
    obtain ⟨hkind, hrest⟩ := List.cons.inj hz
    refine ⟨Symbol.token.inj hkind, ?_⟩
    exact TokenStream.eq_of_kinds_eq_nil hp.advance hq (TokenStream.advance_le_of_visible hq hpq)
      (List.map_eq_nil_iff.1 hrest)
  cases T with
  | upTo q =>
    obtain ⟨hq, hpq, -, hd⟩ := h
    have hne : p ≠ q := by
      rintro rfl
      rw [TokenStream.kinds_self] at hd
      simpa using hd.token_inv
    obtain ⟨hkind, rfl⟩ := hsingle hq (Nat.lt_of_le_of_ne hpq hne) hd
    exact ⟨hkind, Or.inl rfl⟩
  | toStop =>
    obtain ⟨hkind, hstop⟩ := hsingle visible_stop hlt h
    exact ⟨hkind, Or.inr ⟨rfl, hstop.symm⟩⟩
  | beyond t =>
    obtain ⟨b, hd⟩ := h
    have hz := hd.token_inv
    rw [TokenStream.kinds_cons hp visible_stop hlt] at hz
    simp [Form.ofTokens] at hz

/-- Where the tokens up to a position are derived by a concatenation, it is taken apart at a visible
position. -/
lemma exists_visible_of_derives {z₁ z₂ : Form} (hp : s.stream.Visible p) (hq : s.stream.Visible q)
    (hpq : p ≤ q) (hz : Form.ofTokens (s.stream.kinds p q) = z₁ ++ z₂) :
    ∃ e, s.stream.Visible e ∧ p ≤ e ∧ e ≤ q ∧ z₁ = .ofTokens (s.stream.kinds p e) ∧
      z₂ = .ofTokens (s.stream.kinds e q) := by
  obtain ⟨u, v, huv, rfl, rfl⟩ := List.map_eq_append_iff.1 hz
  obtain ⟨e, he, hpe, heq, rfl, rfl⟩ := TokenStream.exists_visible_of_kinds hp hq hpq huv
  exact ⟨e, he, hpe, heq, rfl, rfl⟩

/-- **A concatenation reads a target in parts**: the left part ends in front of the stop, it ends at
the stop, or it is the left part that reads behind the stop. -/
theorem Reads.split (h : s.Reads (x ++ y) p T) (hp : s.stream.Visible p) (hle : p ≤ s.stop) :
    (∃ q, s.Reads x p (.upTo q) ∧ s.Reads y q T) ∨ s.Reads x p .toStop ∧ s.Reads y s.stop T ∨
      ∃ t, T = .beyond t ∧ s.Reads x p T := by
  -- what is left for the right part, if the left part ends at a position up to the stop
  have hends : ∀ {e}, s.stream.Visible e → p ≤ e → e ≤ s.stop →
      s.model.Derives x (.ofTokens (s.stream.kinds p e)) → s.Reads y e T →
      (∃ q, s.Reads x p (.upTo q) ∧ s.Reads y q T) ∨ s.Reads x p .toStop ∧ s.Reads y s.stop T := by
    intro e he hpe hes hx hy
    rcases Nat.eq_or_lt_of_le hes with rfl | hlt
    · exact Or.inr ⟨hx, hy⟩
    · exact Or.inl ⟨e, ⟨he, hpe, hlt, hx⟩, hy⟩
  cases T with
  | upTo q =>
    obtain ⟨hq, hpq, hqs, hd⟩ := h
    obtain ⟨z₁, z₂, hz, h₁, h₂⟩ := hd.split
    obtain ⟨e, he, hpe, heq, rfl, rfl⟩ := exists_visible_of_derives hp hq hpq hz
    exact (hends he hpe (heq.trans hqs.le) h₁ ⟨hq, heq, hqs, h₂⟩).imp_right Or.inl
  | toStop =>
    obtain ⟨z₁, z₂, hz, h₁, h₂⟩ := Model.Derives.split h
    obtain ⟨e, he, hpe, hes, rfl, rfl⟩ := exists_visible_of_derives hp visible_stop hle hz
    exact (hends he hpe hes h₁ h₂).imp_right Or.inl
  | beyond t =>
    obtain ⟨b, hd⟩ := h
    obtain ⟨z₁, z₂, hz, h₁, h₂⟩ := hd.split
    rcases List.append_eq_append_iff.1 hz with ⟨c, rfl, hc⟩ | ⟨c, hkinds, rfl⟩
    · cases c with
      | nil =>
        rw [List.append_nil] at h₁
        refine Or.inr (Or.inl ⟨h₁, b, ?_⟩)
        rw [TokenStream.kinds_self]
        rw [List.nil_append] at hc
        exact hc ▸ h₂
      | cons a c =>
        rw [List.cons_append] at hc
        obtain ⟨rfl, -⟩ := List.cons.inj hc
        exact Or.inr (Or.inr ⟨t, rfl, c, h₁⟩)
    · obtain ⟨e, he, hpe, hes, rfl, rfl⟩ := exists_visible_of_derives hp visible_stop hle hkinds
      exact (hends he hpe hes h₁ ⟨b, h₂⟩).imp_right Or.inl

end Session

end GrammarCompletion
