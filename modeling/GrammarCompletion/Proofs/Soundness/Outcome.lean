/-
# Sound outcomes

An outcome is sound when the tokens that it consumed are derived by what was matched, be it a rule
or nodes in a row.  The difficulty is that an outcome has two flags, and that the flags and the
stop of a rule may come from different sequences.  Soundness is therefore stated for every *usable*
outcome, and not only for one that matched: a phase that is pending says as well that what was
consumed is derived, because collecting has found that nothing more is required.

`Session.Consumes` holds for the outcomes of nodes, and `Session.Concludes` for the outcomes of
sequences and rules, which have turned to collecting when they reached the caret.
-/
import GrammarCompletion.Proofs.Visible
import GrammarCompletion.Proofs.Walk.Matches
import Mathlib.Data.List.Infix

namespace GrammarCompletion

namespace Model

/-- The nodes behind a node derive the empty string only if none of them is required. -/
def FlatTails (m : Model) : Prop :=
  ∀ q ∈ m.sequences, ∀ n rest, n :: rest <:+ q.nodes → m.DerivesNodes rest [] →
    skippable rest = true

/-- Tails are flat if every tail that is not skippable has a token that is required. -/
lemma flatTails_of_terminal {m : Model} (h : ∀ q ∈ m.sequences, ∀ rest ∈ q.nodes.tails,
    skippable rest = true ∨ ∃ n ∈ rest, n.isTerminal = true ∧ n.isRequired = true) :
    m.FlatTails := by
  intro q hq n rest hsuffix hd
  have htail := (List.mem_tails _ _).2 ((List.suffix_cons n rest).trans hsuffix)
  refine (h q hq rest htail).resolve_right ?_
  rintro ⟨k, hk, hterm, hr⟩
  cases hs : k.symbol with
  | token t => exact hd.ne_nil hk hs hr rfl
  | rule id => simp [Node.isTerminal, Node.tokenId?, hs] at hterm

/-- A list of tokens may come after an occurrence of a node that is followed by nodes. -/
def DerivesBehind (m : Model) (n : Node RuleId) (rest : List (Node RuleId)) (v : List TokenId) :
    Prop :=
  ∀ a u, n.IsOccurrence a → m.Derives [a] (.ofTokens u) → m.DerivesNodes (n :: rest) (u ++ v)

variable {m : Model} {n : Node RuleId} {rest : List (Node RuleId)} {u v : List TokenId}

lemma DerivesNodes.derivesBehind (h : m.DerivesNodes rest v) : m.DerivesBehind n rest v :=
  fun _ _ ha hu => h.single ha hu

lemma DerivesBehind.again {a : Symbol RuleId} (hm : n.isMultiple = true) (ha : n.IsOccurrence a)
    (hu : m.Derives [a] (.ofTokens u)) (h : m.DerivesBehind n rest v) :
    m.DerivesBehind n rest (u ++ v) :=
  fun _ _ hb hw => (h a u ha hu).again hm hb hw

end Model

namespace Session

variable {s : Session}

/-- An outcome at a position consumes tokens as `D` says, if it is usable, and does not get past the
stop. -/
structure Consumes (s : Session) (D : List TokenId → Prop) (p : Nat) (o : Outcome) : Prop where
  visible : s.stream.Visible o.stop
  le : p ≤ o.stop
  le_stop : o.stop ≤ s.stop
  derives : o.isUsable = true → D (s.stream.kinds p o.stop)
  caret : o.phase = .pending → s.reached o.stop = true

/-- An outcome that moreover is pending as soon as it reaches the caret.  If moreover the caret was
not reached at the start and the tails of sequences are flat, a pending outcome has matched. -/
structure Concludes (s : Session) (D : List TokenId → Prop) (p : Nat) (o : Outcome) : Prop extends
    s.Consumes D p o where
  collected : o.isUsable = true → s.reached o.stop = true → o.phase = .pending
  matched : s.model.FlatTails → s.reached p = false → o.phase = .pending → o.matched = true

/-- The outcome of a rule at a spot is sound. -/
structure Sound (s : Session) (a : Spot) (o : Outcome) : Prop extends
    s.Concludes (fun v => s.model.Derives [.rule a.rule] (.ofTokens v)) a.start o where
  stay : o.isUsable = false → o.stop = a.start
  unmatched : s.reached a.start = true → o.matched = false

/-- Nodes are to be matched at a position: they are the end of a sequence, and the position is one
at which input may be consumed. -/
structure Ready (s : Session) (nodes : List (Node RuleId)) (p : Nat) : Prop where
  visible : s.stream.Visible p
  le_stop : p ≤ s.stop
  not_reached : s.reached p = false
  part : ∃ q ∈ s.model.sequences, nodes <:+ q.nodes

variable {n : Node RuleId} {rest nodes : List (Node RuleId)} {p q : Nat} {o : Outcome}

/-! ## Occurrences of nodes -/

/-- The outcome of an occurrence of a node is sound. -/
structure SoundNode (s : Session) (n : Node RuleId) (p : Nat) (o : Outcome) : Prop where
  consumes : ∃ a, n.IsOccurrence a ∧ s.Consumes (fun v => s.model.Derives [a] (.ofTokens v)) p o
  stay : o.isUsable = false → o.stop = p
  collected : n.isTerminal = false → o.isUsable = true → s.reached o.stop = true →
    o.phase = .pending
  matched : s.model.FlatTails → o.phase = .pending → o.matched = true

lemma soundNode_matchToken {id : TokenId} (h : s.Ready (n :: rest) p) (hn : n.symbol = .token id) :
    s.SoundNode n p (s.matchToken n.any id p) := by
  have hterm : n.isTerminal = true := by simp [Node.isTerminal, Node.tokenId?, hn]
  rcases s.matchToken_eq n.any id p with ⟨ho, hkind⟩ | ho <;> rw [ho]
  · have hsize := TokenStream.lt_size_of_not_reached h.not_reached
    refine ⟨⟨_, Node.isOccurrence_token hn hkind, ?_⟩, nofun, by simp [hterm], nofun⟩
    refine ⟨h.visible.advance, TokenStream.le_advance,
      TokenStream.advance_le_stop h.not_reached h.le_stop, fun _ => ?_, nofun⟩
    rw [TokenStream.kinds_advance h.visible hsize]
    exact .refl _
  · refine ⟨⟨.token id, Node.isOccurrence_token hn fun _ => rfl, ?_⟩, fun _ => rfl,
      by simp [hterm], nofun⟩
    exact ⟨h.visible, Nat.le_refl p, h.le_stop, nofun, nofun⟩

lemma NodeMatches.sound (h : s.NodeMatches s.Sound n p o) (hr : s.Ready (n :: rest) p) :
    s.SoundNode n p o := by
  cases hn : n.symbol with
  | token id =>
    rw [NodeMatches, hn] at h
    exact h ▸ soundNode_matchToken hr hn
  | rule id =>
    rw [NodeMatches, hn] at h
    exact ⟨⟨_, Node.isOccurrence_rule hn, h.toConsumes⟩, h.stay, fun _ => h.collected,
      fun hf => h.matched hf hr.not_reached⟩

/-! ## Where nodes are to be matched -/

lemma Ready.tail_part (h : s.Ready (n :: rest) p) : ∃ q ∈ s.model.sequences, rest <:+ q.nodes := by
  obtain ⟨q, hq, hsuffix⟩ := h.part
  exact ⟨q, hq, (List.suffix_cons n rest).trans hsuffix⟩

lemma Ready.skip (h : s.Ready (n :: rest) p) : s.Ready rest p :=
  ⟨h.visible, h.le_stop, h.not_reached, h.tail_part⟩

/-- Where a node fails, it has not moved. -/
lemma SoundNode.stop_eq (h : s.SoundNode n p ⟨false, q, .matching⟩) : q = p :=
  h.stay Outcome.isUsable_failed

lemma SoundNode.ready (h : s.SoundNode n p ⟨true, q, .matching⟩) (hr : s.Ready (n :: rest) p)
    (hq : (n.isTerminal && s.reached q) = false) : s.Ready rest q ∧ s.Ready (n :: rest) q := by
  obtain ⟨a, -, hc⟩ := h.consumes
  have hreached : s.reached q = false := by
    cases ht : n.isTerminal with
    | true => simpa [ht] using hq
    | false =>
      by_contra hne
      exact absurd (h.collected ht rfl (by simpa using hne)) (by simp)
  refine ⟨⟨hc.visible, hc.le_stop, hreached, hr.tail_part⟩, ?_⟩
  exact ⟨hc.visible, hc.le_stop, hreached, hr.part⟩

lemma Ready.eof (h : s.Ready nodes p) (heof : s.model.EofRequired) :
    ∀ n ∈ nodes, n.symbol = .token .eof → n.isRequired = true := by
  obtain ⟨q, hq, hsuffix⟩ := h.part
  exact fun n hn => heof q hq n (hsuffix.mem hn)

/-- Behind a node, flat tails derive the empty string only if they are skippable. -/
lemma Ready.skippable (h : s.Ready (n :: rest) p) (hf : s.model.FlatTails)
    (hd : s.model.DerivesNodes rest []) : skippable rest = true := by
  obtain ⟨q, hq, hsuffix⟩ := h.part
  exact hf q hq n rest hsuffix hd

/-! ## Nodes in a row -/

lemma behind_eq : n.behind rest = rest ∨ n.behind rest = n :: rest ∧ n.isRequired = false := by
  unfold Node.behind
  split
  · next h => exact Or.inr ⟨rfl, by simp_all⟩
  · exact Or.inl rfl

/-- Behind a node that is sound, collecting says whether the end of the sequence may be empty. -/
lemma SoundNode.concludes (hn : s.SoundNode n p o) (hr : s.Ready (n :: rest) p)
    (heof : s.model.EofRequired) (hq : s.reached o.stop = true) {ph : Phase} (hl :
      s.model.NodesLeave [] nodes ph) (hnodes : nodes = rest ∨ nodes = n :: rest ∧
      n.isRequired = false) {D : List TokenId → Prop} (hD : s.model.DerivesNodes rest [] →
      D (s.stream.kinds p o.stop)) {b : Bool} (hb : b = true → skippable rest = true)
    (hflat : s.model.FlatTails → skippable rest = true → b = true) :
    s.Concludes D p ⟨b, o.stop, ph⟩ := by
  have hskip : skippable rest = true → skippable nodes = true := by
    rcases hnodes with rfl | ⟨rfl, hreq⟩
    · exact id
    · exact fun h => by simpa [skippable, hreq] using h
  have hnull : ph = .pending → s.model.DerivesNodes rest [] := by
    rintro rfl
    rcases hnodes with rfl | ⟨rfl, -⟩
    · exact Model.derivesNodes_of_nodesLeave hl
    · exact Model.derivesNodes_of_nodesLeave hl.tail
  have hnodes_eof : ∀ n ∈ nodes, n.symbol = .token .eof → n.isRequired = true := by
    rcases hnodes with rfl | ⟨rfl, -⟩
    · exact hr.skip.eof heof
    · exact hr.eof heof
  obtain ⟨a, -, hc⟩ := hn.consumes
  -- a usable outcome is pending, or all nodes behind may be skipped: the rest is empty either way
  refine ⟨⟨hc.visible, hc.le, hc.le_stop, fun hu => hD ?_, fun _ => hq⟩, fun hu _ => ?_,
    fun hf _ hph => hflat hf (hr.skippable hf (hnull hph))⟩
  · cases hph : ph with
    | pending => exact hnull hph
    | matching => exact .of_skippable (hb (by simpa [Outcome.isUsable, hph] using hu))
  · cases hph : ph with
    | pending => rfl
    | matching =>
      have hb' : b = true := by simpa [Outcome.isUsable, hph] using hu
      rw [← hph]
      exact hl.eq_pending (hskip (hb hb')) hnodes_eof

/-- What is known after repeating a node: a sound outcome, or a place from which the rest may be
matched. -/
def SoundContinuation (s : Session) (n : Node RuleId) (rest : List (Node RuleId)) (p : Nat) :
    Continuation → Prop
  | .finished o => s.Concludes (s.model.DerivesBehind n rest) p o
  | .next q => p ≤ q ∧ s.Ready rest q ∧ ∀ v, s.model.DerivesNodes rest v →
      s.model.DerivesBehind n rest (s.stream.kinds p q ++ v)

lemma soundContinuation_next (hr : s.Ready rest p) : s.SoundContinuation n rest p (.next p) :=
  ⟨Nat.le_refl p, hr, fun v hv => by simpa using hv.derivesBehind⟩

lemma SoundNode.derives (hn : s.SoundNode n p o) (hu : o.isUsable = true) :
    p ≤ o.stop ∧ ∃ a, n.IsOccurrence a ∧
      s.model.Derives [a] (.ofTokens (s.stream.kinds p o.stop)) := by
  obtain ⟨a, ha, hc⟩ := hn.consumes
  exact ⟨hc.le, a, ha, hc.derives hu⟩

lemma SoundNode.derivesBehind (hn : s.SoundNode n p o) (hm : n.isMultiple = true)
    (hu : o.isUsable = true) {v : List TokenId} (hv : s.model.DerivesBehind n rest v) :
    s.model.DerivesBehind n rest (s.stream.kinds p o.stop ++ v) := by
  obtain ⟨-, a, ha, hd⟩ := hn.derives hu
  exact hv.again hm ha hd

lemma SoundNode.derivesNodes (hn : s.SoundNode n p o) (hu : o.isUsable = true) {v : List TokenId}
    (hv : s.model.DerivesBehind n rest v) :
    s.model.DerivesNodes (n :: rest) (s.stream.kinds p o.stop ++ v) := by
  obtain ⟨-, a, ha, hd⟩ := hn.derives hu
  exact hv a _ ha hd

lemma SoundNode.caret (hn : s.SoundNode n p o) (ho : o.phase = .pending) :
    s.reached o.stop = true := by
  obtain ⟨a, -, hc⟩ := hn.consumes
  exact hc.caret ho

/-- An outcome from a later position is one from an earlier position. -/
lemma Concludes.after {D D' : List TokenId → Prop} (h : s.Concludes D q o)
    (hq : s.reached q = false) (hpq : p ≤ q)
    (hD : ∀ v, D v → D' (s.stream.kinds p q ++ v)) : s.Concludes D' p o := by
  refine ⟨⟨h.visible, hpq.trans h.le, h.le_stop, fun hu => ?_, h.caret⟩, h.collected,
    fun hf _ => h.matched hf hq⟩
  rw [← TokenStream.kinds_append hpq h.le]
  exact hD _ (h.derives hu)

lemma Repeats.sound (heof : s.model.EofRequired) (hm : n.isMultiple = true) {count : Nat}
    {k : Continuation} (h : s.Repeats s.Sound n rest count p k) (hr : s.Ready (n :: rest) p) :
    s.SoundContinuation n rest p k := by
  induction h with
  | spent => exact soundContinuation_next hr.skip
  | atEnd => exact soundContinuation_next hr.skip
  | pending _ hn hl =>
    have hn := hn.sound hr
    refine hn.concludes hr heof (hn.caret rfl) hl (Or.inl rfl) (fun hd => ?_) id fun _ => id
    simpa using hn.derivesBehind hm Outcome.isUsable_pending hd.derivesBehind
  | failed _ hn =>
    obtain rfl := (hn.sound hr).stop_eq
    exact soundContinuation_next hr.skip
  | atCaret _ hn _ hq hl =>
    have hn := hn.sound hr
    refine hn.concludes hr heof hq hl behind_eq (fun hd => ?_) id fun _ => id
    simpa using hn.derivesBehind hm Outcome.isUsable_matched hd.derivesBehind
  | idle => exact soundContinuation_next hr.skip
  | @more _ p q k _ hn hc _ _ ih =>
    have hn := hn.sound hr
    have hpq := (hn.derives rfl).1
    have ih := ih (hn.ready hr hc).2
    cases k with
    | finished o =>
      exact ih.after (hn.ready hr hc).2.not_reached hpq fun v hv => hn.derivesBehind hm rfl hv
    | next q' =>
      refine ⟨hpq.trans ih.1, ih.2.1, fun v hv => ?_⟩
      -- what this occurrence consumed comes before what the further ones did
      rw [← TokenStream.kinds_append hpq ih.1, List.append_assoc]
      exact hn.derivesBehind hm rfl (ih.2.2 v hv)

/-- **Nodes in a row derive what their outcome consumes.** -/
theorem Matches.sound (heof : s.model.EofRequired) (h : s.Matches s.Sound nodes p o)
    (hr : s.Ready nodes p) : s.Concludes (s.model.DerivesNodes nodes) p o := by
  induction h with
  | nil =>
    refine ⟨⟨hr.visible, Nat.le_refl _, hr.le_stop, fun _ => ?_, nofun⟩, fun _ h => ?_, nofun⟩
    · simpa using .nil
    · exact absurd h (ne_true_of_eq_false hr.not_reached)
  | @pending n rest p q b ph hn hl =>
    have hn := hn.sound hr
    refine hn.concludes hr heof (hn.caret rfl) hl (Or.inl rfl) (fun hd => ?_)
      (fun h => (Bool.and_eq_true_iff.1 h).2) fun hf h => ?_
    · simpa using hn.derivesNodes Outcome.isUsable_pending hd.derivesBehind
    · have hb : b = true := hn.matched hf rfl
      simp [hb, h]
  | failed hreq hn =>
    obtain ⟨a, -, hc⟩ := (hn.sound hr).consumes
    exact ⟨⟨hc.visible, hc.le, hc.le_stop, nofun, nofun⟩, nofun, nofun⟩
  | skipped hreq hn _ ih =>
    obtain rfl := (hn.sound hr).stop_eq
    exact (ih hr.skip).after hr.not_reached (Nat.le_refl _) fun v hv => by simpa using hv.skip hreq
  | atCaret hn hq hl =>
    have hn := hn.sound hr
    refine hn.concludes hr heof hq hl behind_eq (fun hd => ?_) id fun _ => id
    simpa using hn.derivesNodes Outcome.isUsable_matched hd.derivesBehind
  | once hn hq _ _ ih =>
    have hn := hn.sound hr
    have hr' := (hn.ready hr (by simp [hq])).1
    exact (ih hr').after hq (hn.derives rfl).1 fun v hv => hn.derivesNodes rfl hv.derivesBehind
  | finished hn hq hm hk =>
    have hn := hn.sound hr
    have hr' := (hn.ready hr (by simp [hq])).2
    exact (hk.sound heof hm hr').after hq (hn.derives rfl).1 fun v hv => hn.derivesNodes rfl hv
  | @repeated n rest p q q' o hn hq hm hk _ ih =>
    -- three parts of the input: the first occurrence, the further ones, and the rest
    have hn := hn.sound hr
    obtain ⟨hqq', hr', hd⟩ := hk.sound heof hm (hn.ready hr (by simp [hq])).2
    have hpq := (hn.derives rfl).1
    refine (ih hr').after hr'.not_reached (hpq.trans hqq') fun v hv => ?_
    rw [← TokenStream.kinds_append hpq hqq', List.append_assoc]
    exact hn.derivesNodes rfl (hd v hv)

/-! ## Rules -/

/-- Whether a usable outcome matched may be taken from a comparison with others. -/
lemma robust_concludes {D : List TokenId → Prop} : Outcome.Robust (s.Concludes D p) := by
  intro o b h hu hb
  refine ⟨⟨h.visible, h.le, h.le_stop, fun _ => h.derives hu, h.caret⟩, ?_, ?_⟩
  · intro _
    exact h.collected hu
  · intro hf hp hph
    exact hb (h.matched hf hp hph)

/-- A rule may be matched at a spot. -/
structure Open (s : Session) (a : Spot) : Prop where
  visible : s.stream.Visible a.start
  le_stop : a.start ≤ s.stop
  not_reached : s.reached a.start = false

variable {a : Spot}

lemma Open.ready (h : s.Open a) {list : List (Sequence RuleId)} {q : Sequence RuleId}
    (hb : s.model.body a.rule = .ok (.sequences list)) (hq : q ∈ list) :
    s.Ready q.nodes a.start :=
  ⟨h.visible, h.le_stop, h.not_reached, q, Model.mem_sequences hb hq, List.suffix_refl _⟩

/-- Where the caret is reached nothing is consumed, and a phase that is pending says that the rule
derives the empty string. -/
lemma sound_collected (hv : s.stream.Visible a.start) (hle : a.start ≤ s.stop)
    (hq : s.reached a.start = true) {ph : Phase} (hph : s.model.RuleLeaves [] a.rule ph) :
    s.Sound a ⟨false, a.start, ph⟩ := by
  have hpending : (⟨false, a.start, ph⟩ : Outcome).isUsable = true → ph = .pending := by
    simp [Outcome.isUsable_iff]
  refine ⟨⟨⟨hv, Nat.le_refl _, hle, fun hu => ?_, fun _ => hq⟩, fun hu _ => hpending hu,
    fun _ hr => ?_⟩, fun _ => rfl, fun _ => rfl⟩
  · rw [TokenStream.kinds_self]
    exact Model.nullable_of_ruleLeaves (hpending hu ▸ hph)
  · exact absurd hq (ne_true_of_eq_false hr)

lemma Open.sound_failed (h : s.Open a) : s.Sound a ⟨false, a.start, .matching⟩ :=
  ⟨⟨⟨h.visible, Nat.le_refl _, h.le_stop, nofun, nofun⟩, nofun, nofun⟩, fun _ => rfl,
    fun _ => rfl⟩

lemma Open.sound_matchTokenSet (h : s.Open a) {tokens : OrderedSet TokenId}
    (hb : s.model.body a.rule = .ok (.tokenSet tokens)) :
    s.Sound a (s.matchTokenSet tokens a.start) := by
  unfold matchTokenSet
  split
  · next hmem =>
    have hsize := TokenStream.lt_size_of_not_reached h.not_reached
    have hstop := TokenStream.advance_le_stop h.not_reached h.le_stop
    refine ⟨⟨⟨h.visible.advance, TokenStream.le_advance, hstop, fun _ => ?_, fun hph => ?_⟩,
      fun _ hr => ?_, fun _ _ _ => rfl⟩, nofun, fun hr => ?_⟩
    · rw [TokenStream.kinds_advance h.visible hsize]
      exact .of_produces (.tokenSet hb hmem)
    · by_contra hne
      simp [hne] at hph
    · simp [hr]
    · exact absurd hr (ne_true_of_eq_false h.not_reached)
  · exact h.sound_failed

/-- **A rule derives what its outcome consumes**, given that the rules inside it do. -/
theorem BodyMatches.sound (heof : s.model.EofRequired) (h : s.BodyMatches s.Sound a o)
    (ha : s.Open a) : s.Sound a o := by
  cases h with
  | tokenSet hb => exact ha.sound_matchTokenSet hb
  | @sequences list t hb h =>
    -- every sequence is sound for the rule, hence so is the best one
    have hlist : ∀ q ∈ list, ∀ o, s.Matches s.Sound q.nodes a.start o →
        s.Concludes (fun v => s.model.Derives [.rule a.rule] (.ofTokens v)) a.start o := by
      intro q hq o ho
      have hready := ha.ready hb hq
      refine (ho.sound heof hready).after hready.not_reached (Nat.le_refl _) fun v hv => ?_
      simpa using hv.derives hb hq
    rcases h.best robust_concludes hlist with ⟨hu, ht⟩ | ht
    · refine ⟨ht, fun hu' => ?_, fun hr => ?_⟩
      · exact absurd hu (ne_true_of_eq_false hu')
      · exact absurd hr (ne_true_of_eq_false ha.not_reached)
    · exact ht ▸ ha.sound_failed

end Session

end GrammarCompletion
