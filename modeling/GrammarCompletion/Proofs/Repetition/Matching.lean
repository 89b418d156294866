/-
# Copies in a row

A rule whose only alternative starts with a node that may be repeated (`Model.RepeatsFirst`), over a
text that consists of copies of a list of tokens (`Session.Copies`).  If the node matches each copy and
nothing more (`Session.ConsumesCopies`), then matching the rule goes from copy to copy and ends behind
the last one, where it is collected what may follow (`Session.Visits.endsCopies`).

The induction is on the plain reading of the nodes, in which the first occurrence of a node and the
further ones are alike (`Session.ParsesNodes.copies`).
-/
import GrammarCompletion.Proofs.Offers.Mirroring
import GrammarCompletion.Proofs.Offers.Walk
import GrammarCompletion.Proofs.Reference.Matching

namespace GrammarCompletion

/-- A rule has one alternative, which starts with a node that may be repeated and is not for the rule
itself. -/
structure Model.RepeatsFirst (m : Model) (r : RuleId) (n : Node RuleId) (rest : List (Node RuleId)) :
    Prop where
  body : ∃ k, m.body r = .ok (.sequences [k]) ∧ k.nodes = n :: rest
  multiple : n.isMultiple = true
  other : n.symbol ≠ .rule r

lemma Model.RepeatsFirst.refers {m : Model} {r id : RuleId} {n : Node RuleId}
    {rest : List (Node RuleId)} (h : m.RepeatsFirst r n rest) (hn : n.symbol = .rule id) :
    m.Refers r id := by
  obtain ⟨k, hb, hk⟩ := h.body
  exact ⟨[k], hb, k, List.mem_singleton_self k, n, by simp [hk], hn⟩

namespace Session

variable (s : Session)

/-- The text consists of so many copies of a list of kinds: all tokens are visible, they are on lines
before that of the caret, and the end of the input comes after them. -/
structure Copies (v : List TokenId) (m : Nat) : Prop where
  kinds : s.stream.body.toList.map Token.kind = (List.replicate m v).flatten
  visible : ∀ t ∈ s.stream.body.toList, t.isHidden = false
  before : ∀ t ∈ s.stream.body.toList, t.line < s.caret.line
  final : s.stream.final.kind = .eof

/-- One occurrence of a node has an outcome at a position, and it offers a set: a rule does so in a walk
over the rule with nothing remembered, under some limits. -/
def NodeHas (n : Node RuleId) (p : Nat) (o : Outcome) (L : Set Event) : Prop :=
  match n.symbol with
  | .token t => o = s.matchToken n.any t p ∧ L = ∅
  | .rule id => ∃ l r, (s.withLimits l).fresh ⟨id, p⟩ = .ok o r ∧ r.offers = L

/-- At the start of each copy, a node matches and consumes that copy. -/
def ConsumesCopies (n : Node RuleId) (v : List TokenId) (m : Nat) : Prop :=
  ∀ i < m, ∃ o L, s.NodeHas n (i * v.length) o L ∧ o.matched = true ∧ o.stop = (i + 1) * v.length

/-- What a node offers at the start of a copy, it offers at the start of the last one. -/
def OffersAtLast (n : Node RuleId) (v : List TokenId) (m : Nat) : Prop :=
  ∀ i < m, ∃ o L o' L', s.NodeHas n (i * v.length) o L ∧ s.NodeHas n ((m - 1) * v.length) o' L' ∧
    L ⊆ L'

/-- What a node offers at the start of any of the copies from one on, which have a length. -/
def copyOffers (n : Node RuleId) (w m i : Nat) : Set Event :=
  {e | ∃ j o L, i ≤ j ∧ j < m ∧ s.ParsesNode s.Visits n (j * w) o L ∧ e ∈ L}

variable {s} {s' : Session} {v : List TokenId} {m k k' i j p q w : Nat} {n : Node RuleId}
  {rest : List (Node RuleId)} {root : RuleId} {V : Visit} {C : Gather} {a b : Spot}
  {o o' σ : Outcome} {L L' : Set Event} {ph : Phase} {seen : Bool}

/-! ## The text -/

namespace Copies

variable (h : s.Copies v m)

include h

lemma size_eq : s.stream.size = m * v.length := by
  have hlength := congrArg List.length h.kinds
  simpa [TokenStream.size] using hlength

lemma isHidden_token (hp : p < s.stream.size) : (s.stream.token p).isHidden = false := by
  have hp' : p < s.stream.body.toList.length := by simpa [TokenStream.size] using hp
  rw [TokenStream.token_eq_getElem hp']
  exact h.visible _ (List.getElem_mem hp')

lemma visible_of_le (hp : p ≤ s.stream.size) : s.stream.Visible p := ⟨hp, h.isHidden_token⟩

lemma visible_start (hi : i < m) : s.stream.Visible (i * v.length) :=
  h.visible_of_le (h.size_eq ▸ Nat.mul_le_mul_right _ hi.le)

/-- The caret is reached at the end of the text, and not before. -/
lemma reached_iff : s.reached p = true ↔ m * v.length ≤ p := by
  rw [← h.size_eq]
  constructor
  · intro hq
    by_contra hlt
    have hlt : p < s.stream.size := Nat.lt_of_not_le hlt
    have hp' : p < s.stream.body.toList.length := by simpa [TokenStream.size] using hlt
    have hline := h.before _ (List.getElem_mem hp')
    rw [← TokenStream.token_eq_getElem hp'] at hline
    have hend : s.stream.atEnd p = false := by simpa [TokenStream.atEnd] using hlt
    simp [Session.reached, TokenStream.reached, hend, hline, Nat.lt_asymm hline] at hq
  · exact fun hle => TokenStream.reached_of_atEnd (TokenStream.atEnd_iff.2 hle)

lemma not_reached_of_lt (hp : p < m * v.length) : s.reached p = false := by
  rw [Bool.eq_false_iff]
  exact fun hq => Nat.not_le.2 hp (h.reached_iff.1 hq)

lemma skipHidden_eq (hp : p ≤ s.stream.size) : s.stream.skipHidden p = p := by
  rw [TokenStream.skipHidden]
  cases hn : s.stream.size - p with
  | zero => rfl
  | succ count =>
    rw [TokenStream.skipFrom, h.isHidden_token (by omega)]
    simp

lemma advance_eq (hp : p < s.stream.size) : s.stream.advance p = p + 1 := by
  have hend : s.stream.atEnd p = false := by simpa [TokenStream.atEnd] using hp
  rw [TokenStream.advance, if_neg (ne_true_of_eq_false hend), h.skipHidden_eq hp]

lemma stop_eq : s.stop = m * v.length := by
  have hreached : s.reached s.stop = true := TokenStream.reached_stop
  have hle : s.stop ≤ s.stream.size := stop_le_size
  exact Nat.le_antisymm (h.size_eq ▸ hle) (h.reached_iff.1 hreached)

lemma upToStop (hp : p ≤ m * v.length) : s.UpToStop ⟨root, p⟩ :=
  ⟨h.visible_of_le (h.size_eq ▸ hp), h.stop_eq ▸ hp⟩

end Copies

lemma Copies.getElem?_kinds (h : s.Copies v m) (hp : p < s.stream.size) :
    (List.replicate m v).flatten[p]? = some (s.stream.kind p) := by
  have hp' : p < s.stream.body.toList.length := by simpa [TokenStream.size] using hp
  rw [← h.kinds, List.getElem?_map, List.getElem?_eq_getElem hp', Option.map_some,
    TokenStream.kind, TokenStream.token_eq_getElem hp']

/-- The kinds in the last copy are those of the list. -/
lemma Copies.kind_last (h : s.Copies v (k + 1)) (hj : j < v.length) :
    s.stream.kind (k * v.length + j) = v[j] := by
  have hlt : k * v.length + j < s.stream.size := by
    rw [h.size_eq, Nat.add_mul, Nat.one_mul]
    omega
  have hkind := h.getElem?_kinds hlt
  have hlast : (List.replicate (k + 1) v).flatten = (List.replicate k v).flatten ++ v := by
    simp [List.replicate_succ']
  rw [hlast, List.getElem?_append_right (by simp)] at hkind
  simpa [hj] using hkind.symm

lemma Copies.kind_size (h : s.Copies v m) : s.stream.kind (m * v.length) = .eof := by
  have hend : s.stream.atEnd (m * v.length) = true := by simp [TokenStream.atEnd, h.size_eq]
  rw [TokenStream.kind, TokenStream.token_of_atEnd hend, h.final]

/-! ## Single copies -/

/-- What a node does in a run of its own is what it does according to the visits of rules. -/
lemma NodeHas.parsesNode (h : s.NodeHas n p o L)
    (hn : ∀ id, n.symbol = .rule id → s.model.DirectFrom id ∧
      (s.model.WellFormed → id.index < s.model.ruleCount))
    (hp : s.stream.Visible p) : s.ParsesNode s.Visits n p o L := by
  obtain ⟨symbol, k, any⟩ := n
  cases symbol with
  | token t =>
    obtain ⟨rfl, rfl⟩ : o = s.matchToken any t p ∧ L = ∅ := h
    exact .token
  | rule id =>
    obtain ⟨l, r, hrun, rfl⟩ :
      ∃ l r, (s.withLimits l).fresh ⟨id, p⟩ = .ok o r ∧ r.offers = L := h
    obtain ⟨hd, hv⟩ := hn id rfl
    have hd : (s.withLimits l).model.DirectFrom id := hd
    exact .rule (visits_withLimits (fresh_visits hd hv hrun).1 hp)

/-! ## From copy to copy -/

lemma ParsesNode.unique_visits (h : s.ParsesNode s.Visits n p o L)
    (h' : s.ParsesNode s.Visits n p o' L') : o = o' ∧ L = L' :=
  h.unique (fun _ _ _ hv _ _ hv' => hv.unique hv') h'

/-- At the start of each copy, of which all have a length, a node matches according to the visits of
rules, and it consumes that copy. -/
def PassesCopies (s : Session) (n : Node RuleId) (w m : Nat) : Prop :=
  ∀ i < m, ∃ o L, s.ParsesNode s.Visits n (i * w) o L ∧ o.matched = true ∧ o.stop = (i + 1) * w

/-- What is offered from a copy on is offered there or from the next one on. -/
lemma copyOffers_eq (hn : s.ParsesNode s.Visits n (i * w) o L) (hi : i < m) :
    s.copyOffers n w m i = L ∪ s.copyOffers n w m (i + 1) := by
  ext e
  constructor
  · rintro ⟨j, o', L', hij, hj, hn', he⟩
    rcases Nat.eq_or_lt_of_le hij with rfl | hlt
    · obtain ⟨-, rfl⟩ := hn.unique_visits hn'
      exact Or.inl he
    · exact Or.inr ⟨j, o', L', hlt, hj, hn', he⟩
  · rintro (he | ⟨j, o', L', hij, hj, hn', he⟩)
    · exact ⟨i, o, L, Nat.le_refl i, hi, hn, he⟩
    · exact ⟨j, o', L', Nat.le_of_succ_le hij, hj, hn', he⟩

@[simp] lemma copyOffers_self : s.copyOffers n w m m = ∅ := by
  refine Set.eq_empty_of_forall_notMem ?_
  rintro e ⟨j, -, -, hle, hlt, -⟩
  exact absurd hlt (Nat.not_lt.2 hle)

/-- **Matching goes from copy to copy** and ends behind the last one, where the caret is reached. -/
theorem ParsesNodes.copies (h : s.ParsesNodes V C seen (n :: rest) (i * w) o L) (hi : i < m)
    (hm : n.isMultiple = true) (hw : 0 < w) (hreached : ∀ p, s.reached p = true ↔ m * w ≤ p)
    (hcopies : s.PassesCopies n w m)
    (hV : ∀ p o L, s.ParsesNode V n p o L → s.ParsesNode s.Visits n p o L) :
    ∃ ph E, s.ExpectsBehind C n rest ph E ∧ o = ⟨skippable rest, m * w, ph⟩ ∧
      L = s.copyOffers n w m i ∪ E := by
  -- by the number of copies behind the one at the position
  obtain ⟨d, hd⟩ := Nat.exists_eq_add_of_lt hi
  induction d generalizing seen i L with
  | zero =>
    obtain ⟨⟨matched, q, phase⟩, L₁, hcopy, hmatched, hstop⟩ := hcopies i hi
    obtain rfl : matched = true := hmatched
    obtain rfl : q = m * w := by rw [hd]; exact hstop
    have hq : s.reached (m * w) = true := (hreached _).2 (Nat.le_refl _)
    cases h with
    | ends hn ho hbehind =>
      obtain ⟨rfl, rfl⟩ := hcopy.unique_visits (hV _ _ _ hn)
      refine ⟨_, _, hbehind, by simp, ?_⟩
      have hlast : i + 1 = m := hd.symm
      rw [copyOffers_eq hcopy hi, hlast, copyOffers_self, Set.union_empty]
    | fails hn => cases (hcopy.unique_visits (hV _ _ _ hn)).1
    | skips hn => cases (hcopy.unique_visits (hV _ _ _ hn)).1
    | passes hn hq' =>
      obtain ⟨⟨⟩, -⟩ := hcopy.unique_visits (hV _ _ _ hn)
      exact absurd hq (ne_true_of_eq_false hq')
    | repeats hn hq' =>
      obtain ⟨⟨⟩, -⟩ := hcopy.unique_visits (hV _ _ _ hn)
      exact absurd hq (ne_true_of_eq_false hq')
  | succ d ih =>
    obtain ⟨⟨matched, q, phase⟩, L₁, hcopy, hmatched, hstop⟩ := hcopies i hi
    obtain rfl : matched = true := hmatched
    obtain rfl : q = (i + 1) * w := hstop
    -- another copy comes behind this one, so the caret is not reached there
    have hlt : i + 1 < m := by omega
    have hq : s.reached ((i + 1) * w) = false := by
      rw [Bool.eq_false_iff]
      intro hq
      exact absurd ((hreached _).1 hq) (Nat.not_le.2 (Nat.mul_lt_mul_of_pos_right hlt hw))
    have hlawful : s.LawfulNode n (i * w) ⟨true, (i + 1) * w, phase⟩ :=
      (hcopy.nodeMatches fun _ _ _ hv => hv.lawful).lawful
    have hphase : phase = .matching := by
      cases phase with
      | matching => rfl
      | pending => exact absurd (hlawful.caret rfl) (ne_true_of_eq_false hq)
    subst hphase
    have hne : (i + 1) * w ≠ i * w := by
      rw [Nat.add_mul, Nat.one_mul]
      omega
    cases h with
    | ends hn ho =>
      obtain ⟨rfl, -⟩ := hcopy.unique_visits (hV _ _ _ hn)
      exact absurd ho (not_atCaret_of_not_reached hq)
    | fails hn => cases (hcopy.unique_visits (hV _ _ _ hn)).1
    | skips hn => cases (hcopy.unique_visits (hV _ _ _ hn)).1
    | passes hn _ hm' =>
      obtain ⟨⟨⟩, -⟩ := hcopy.unique_visits (hV _ _ _ hn)
      rcases hm' with hm' | heq
      · exact absurd hm (ne_true_of_eq_false hm')
      · exact absurd heq hne
    | repeats hn _ _ _ hmore =>
      obtain ⟨⟨⟩, rfl⟩ := hcopy.unique_visits (hV _ _ _ hn)
      obtain ⟨ph, E, hbehind, ho, rfl⟩ := ih hmore hlt (by omega)
      refine ⟨ph, E, hbehind, ho, ?_⟩
      rw [copyOffers_eq hcopy hi, Set.union_assoc]

/-! ## The rule over all copies -/

/-- What a rule is to do over copies of a list, if its alternative starts with a node: it ends behind
the last copy, and it offers what the node does and what may follow. -/
def EndsCopies (s : Session) (n : Node RuleId) (rest : List (Node RuleId)) (w m : Nat) (o : Outcome)
    (L : Set Event) : Prop :=
  ∃ ph E, s.ExpectsBehind (s.Gathers []) n rest ph E ∧
    Longest 0 [⟨skippable rest, m * w, ph⟩] o ∧ L = s.copyOffers n w m 0 ∪ E

lemma EndsCopies.unique (h : s.EndsCopies n rest w m o L) (h' : s.EndsCopies n rest w m o' L') :
    o = o' ∧ L = L' := by
  obtain ⟨ph, E, hbehind, ho, rfl⟩ := h
  obtain ⟨ph', E', hbehind', ho', rfl⟩ := h'
  obtain ⟨rfl, rfl⟩ := hbehind.unique (fun _ _ _ hg _ _ hg' => hg.unique hg') hbehind'
  exact ⟨ho.unique ho', rfl⟩

section

variable (heof : s.model.EofRequired) (hrow : s.model.RepeatsFirst root n rest)
  (h : s.Copies v m) (hv : v ≠ []) (hm : 0 < m) (hcopies : s.PassesCopies n v.length m)

include heof hrow h hv hm hcopies

/-- A round of the rule goes over all copies, whatever the rule is taken to do at its own spot. -/
lemma Round.endsCopies (hround : s.Round s.Visits ⟨root, 0⟩ σ o L) (hσ : s.Sound ⟨root, 0⟩ σ) :
    s.EndsCopies n rest v.length m o L := by
  have hw : 0 < v.length := List.length_pos_iff.2 hv
  have ha : s.UpToStop ⟨root, 0⟩ := h.upToStop (Nat.zero_le _)
  have hq : s.reached 0 = false := h.not_reached_of_lt (Nat.mul_pos hm hw)
  obtain ⟨body, hb, hy⟩ := hround
  obtain ⟨k, hk, hnodes⟩ := hrow.body
  obtain rfl : body = .sequences [k] := Except.ok.inj (hb.symm.trans hk)
  -- only rules up to the stop are asked for, and what is known of them is sound
  let V : Visit := fun b o L => Inside s.Visits ⟨root, 0⟩ σ b o L ∧ s.UpToStop b
  have hinside : ∀ b o L, s.UpToStop b → Inside s.Visits ⟨root, 0⟩ σ b o L → s.Sound b o := by
    rintro b o L hb (⟨-, hv⟩ | ⟨rfl, rfl, -⟩)
    · exact hv.sound heof hb
    · exact hσ
  have hy' := (predicts_sound heof).yields ha hq hb hy hinside
  obtain ⟨t, ht, rfl⟩ := Plan.yields_matchBody_sequences.1 hy'
  have hE : ∀ nodes ph L, (Plan.collectNodes s nodes).Yields V (s.Gathers []) ph L →
      s.ExpectsNodes (s.Gathers []) nodes ph L := fun nodes ph L hy =>
    expectsNodes_of_yields (fun _ _ _ _ _ _ _ _ _ hg =>
      ⟨hg, fun hk => Model.nullable_of_ruleLeaves (hk ▸ hg.ruleLeaves)⟩) hy
  have hone : ∀ b o L, V b o L → ∀ o' L', V b o' L' → o = o' ∧ L = L' := fun b o L hb o' L' hb' =>
    hb.1.unique (fun _ _ _ _ _ hv hv' => hv.unique hv') hb'.1
  obtain ⟨os, hall, htallied⟩ := parsesAll_of_yields hE (fun b o L hb => hinside b o L hb.2 hb.1)
    hone tallied_nil
    (fun q hq => heof q (Model.mem_sequences hb hq)) ht
  -- the node is not for the rule itself, so what happens at its spot makes no difference
  have hV : ∀ p o L, s.ParsesNode V n p o L → s.ParsesNode s.Visits n p o L := by
    rintro p o L (_ | ⟨⟨-, hvisit⟩ | ⟨heq, -⟩, -⟩)
    · exact .token
    · exact .rule hvisit
    · exact absurd (congrArg (Symbol.rule ∘ Spot.rule) heq) hrow.other
  cases hall with
  | cons hseq hnil =>
    cases hnil
    rw [hnodes] at hseq
    have hstart : 0 * v.length = 0 := Nat.zero_mul _
    obtain ⟨ph, E, hbehind, rfl, rfl⟩ := ParsesNodes.copies (i := 0) (hstart.symm ▸ hseq) hm
      hrow.multiple hw (fun p => h.reached_iff) hcopies hV
    exact ⟨ph, E, hbehind, htallied.longest, Set.union_empty _⟩

/-- **A visit of the rule goes over all copies.** -/
theorem Visits.endsCopies (hvisit : s.Visits ⟨root, 0⟩ o L) : s.EndsCopies n rest v.length m o L := by
  have hq : s.reached 0 = false :=
    h.not_reached_of_lt (Nat.mul_pos hm (List.length_pos_iff.2 hv))
  have hupTo : s.UpToStop ⟨root, 0⟩ := h.upToStop (Nat.zero_le _)
  have hopen : s.Open ⟨root, 0⟩ := ⟨hupTo.1, hupTo.2, hq⟩
  cases visits_iff.1 hvisit with
  | collected hq' => exact absurd hq' (ne_true_of_eq_false hq)
  | @matched seed _ L₁ L₂ _ hround hgrows =>
    have hfirst := hround.endsCopies heof hrow h hv hm hcopies hopen.sound_failed
    have hseed : s.Sound ⟨root, 0⟩ seed :=
      hround.sound heof hopen (fun _ _ _ hv => hv.sound heof) hopen.sound_failed
    -- a second round would be like the first
    have hagain : ∀ o L, s.Round s.Visits ⟨root, 0⟩ seed o L → seed = o ∧ L₁ = L :=
      fun o L hround' =>
        hfirst.unique (hround'.endsCopies heof hrow h hv hm hcopies hseed)
    generalize s.stream.size + 1 - seed.stop = count at hgrows
    cases hgrows with
    | spent => rwa [Set.union_empty]
    | done hround' =>
      obtain ⟨-, rfl⟩ := hagain _ _ hround'
      rwa [Set.union_self]
    | more hround' hex =>
      obtain ⟨rfl, -⟩ := hagain _ _ hround'
      exact absurd hex.2 (Nat.lt_irrefl _)

end

end Session

end GrammarCompletion
