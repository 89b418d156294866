/-
# Sound completions

In a model whose nodes for the end of the input are never optional, a walk only consumes what is
derived and only offers what leads on.  Three results follow for every completion: each candidate
is the start of a legal continuation of the tokens before the caret (`viable_of_mem_candidates`), a
text that is called fully parsed is derived by the root (`derives_of_fullyParsed`), and, where
nullable tails of sequences are written with optional nodes, a walk that ends pending at the caret
is called fully parsed (`fullyParsed_of_pending`).
-/
import GrammarCompletion.Completion
import GrammarCompletion.Proofs.Results
import GrammarCompletion.Proofs.Soundness.Candidates
import GrammarCompletion.Proofs.Soundness.Outcome
import GrammarCompletion.Proofs.Walk.Collecting
import GrammarCompletion.Proofs.Walk.Visiting
import Mathlib

namespace GrammarCompletion

open Walk

namespace Session

variable {s : Session} {root : RuleId}

/-- The candidates lead on, and the results that can be used again are sound. -/
def soundRegime (s : Session) (root : RuleId) : Regime where
  inv r := s.Viable root r.candidates ∧ ∀ a e, r.memo[a]? = some e → s.Sound a e.outcome
  later _ _ := True
  fault _ _ := True
  refl _ := trivial
  trans _ _ := trivial

/-- The strings of nodes lead on from a position. -/
def NodesLeadOn (s : Session) (root : RuleId) (p : Nat) (nodes : List (Node RuleId)) : Prop :=
  ∀ x, Expands nodes x → s.LeadsOn root p x

lemma allowsCandidates_soundRegime {f : Candidates → Candidates}
    (hf : ∀ c, s.Viable root c → s.Viable root (f c)) :
    (s.soundRegime root).AllowsCandidates f :=
  fun _ hr => ⟨⟨hf _ hr.1, hr.2⟩, trivial⟩

/-- Collecting offers what leads on from the stop. -/
lemma collecting_soundRegime : (s.soundRegime root).Collecting s
    (fun _ _ r => s.LeadsOn root s.stop [.rule r]) fun _ _ => s.NodesLeadOn root s.stop where
  events _ _ _ hr := ⟨hr, trivial⟩
  fuel := ⟨fun _ _ hr => ⟨hr, trivial⟩, fun _ _ => trivial⟩
  stack _ _ hr := ⟨hr, trivial⟩
  offerNode {_ _ n rest _} hdue hn _ _ _ := by
    obtain ⟨z, hz⟩ := expands_continuation s.model rest hn
    exact allowsCandidates_soundRegime fun c hc => hc.offerToken (hdue _ hz).of_append
  offerSet hcall hb ht _ :=
    allowsCandidates_soundRegime fun c hc =>
      hc.offerToken (LeadsOn.derive (z := []) hcall (.of_produces (.tokenSet hb ht)))
  offerRule hcall hs := allowsCandidates_soundRegime fun c hc => hc.offerRule hs hcall
  skip hdue hr x hx := hdue x (hx.skip hr)
  next hdue hn hph x hx :=
    LeadsOn.derive (x := [.rule _]) (y := []) (hdue _ (hx.single (Node.isOccurrence_rule hn)))
      (Model.nullable_of_ruleLeaves hph)
  call hdue hn := by
    obtain ⟨x, hx⟩ := exists_expands _
    exact LeadsOn.of_append (x := [.rule _]) (hdue _ (hx.single (Node.isOccurrence_rule hn)))
  enter {_ _ _ _ _} hcall _ hb hq x hx := by
    simpa using LeadsOn.derive (z := []) hcall (.of_produces (.sequence hb hq hx))
  defect _ _ _ _ := trivial
  limit _ _ _ _ := trivial

/-- What leads on from a position leads on from the position after an occurrence of a node. -/
lemma SoundNode.leadsOn {n : Node RuleId} {rest : List (Node RuleId)} {p : Nat} {o : Outcome}
    (hn : s.SoundNode n p o) (hu : o.isUsable = true)
    (h : s.NodesLeadOn root p (n :: rest)) :
    s.NodesLeadOn root o.stop rest ∧
      (n.isMultiple = true → s.NodesLeadOn root o.stop (n :: rest)) := by
  obtain ⟨hle, a, ha, hd⟩ := hn.derives hu
  exact ⟨fun x hx => LeadsOn.advance (x := [a]) (h _ (hx.single ha)) hle hd,
    fun hm x hx => LeadsOn.advance (x := [a]) (h _ (hx.again hm ha)) hle hd⟩

/-- Matching consumes what is derived. -/
lemma matching_soundRegime : ((s.soundRegime root).inside []).Matching s (fun _ => s.Sound)
    (fun nodes p => s.Ready nodes p ∧ s.NodesLeadOn root p nodes) (s.NodesLeadOn root s.stop) where
  events := collecting_soundRegime.events.inside []
  stable _ h := h
  skip h hr := ⟨h.1.skip, fun x hx => h.2 x (hx.skip hr)⟩
  stay _ h hn := (hn.sound h.1).stop_eq
  next _ h hn hc := by
    have hn := hn.sound h.1
    have hready := hn.ready h.1 hc
    have hleads := hn.leadsOn rfl h.2
    exact ⟨⟨hready.1, hleads.1⟩, fun hm => ⟨hready.2, hleads.2 hm⟩⟩
  due {_ _ _ _ o} _ h hn hcaret := by
    have hn := hn.sound h.1
    obtain ⟨a, -, hc⟩ := hn.consumes
    have hu : o.isUsable = true := by
      rcases hcaret with ho | ho <;> simp [Outcome.isUsable, ho]
    -- candidates are collected only where the caret is reached
    have hstop : o.stop = s.stop := by
      refine TokenStream.eq_stop hc.visible ?_ hc.le_stop
      exact hcaret.elim hc.caret fun ho => ho.2
    exact hstop ▸ hn.leadsOn hu h.2

/-- A rule leads on from a position at which it may be visited. -/
def Leads (s : Session) (root : RuleId) (a : Spot) : Prop :=
  s.stream.Visible a.start ∧ a.start ≤ s.stop ∧ s.LeadsOn root a.start [.rule a.rule]

/-- Visiting a rule that leads on has a sound outcome. -/
lemma remembering_soundRegime (heof : s.model.EofRequired) :
    ((s.soundRegime root).inside []).Remembering s (fun _ => s.Leads root) s.Sound where
  events _ _ _ hr := ⟨hr, trivial⟩
  fuel := collecting_soundRegime.fuel.inside []
  frames _ _ hr := ⟨hr, trivial⟩
  keep _ hr ho :=
    ⟨⟨⟨hr.1.1, forall_memo_insert (fun b e _ hb => hr.1.2 b e hb) ho⟩, hr.2⟩, trivial⟩
  forget _ _ hr := ⟨⟨⟨hr.1.1, forall_memo_erase fun b e _ hb => hr.1.2 b e hb⟩, hr.2⟩, trivial⟩
  known _ hr hm := hr.1.2 _ _ hm
  fail ha hq := Open.sound_failed ⟨ha.1, ha.2.1, hq⟩
  collect {_ a} ha hq := by
    have hstop : a.start = s.stop := TokenStream.eq_stop ha.1 hq ha.2.1
    refine (collecting_soundRegime.rule (hstop ▸ ha.2.2)).mono fun ph _ _ hph => ?_
    exact sound_collected ha.1 ha.2.1 hq hph
  limit _ _ _ := trivial
  body {d a} ha hq ih := by
    have hopen : s.Open a := ⟨ha.1, ha.2.1, hq⟩
    refine (matching_soundRegime.body (fun n rest p id h hn => ih ⟨id, p⟩ ?_) (fun nodes h => ?_)
      (fun list hb q hq => ⟨hopen.ready hb hq, fun x hx => ?_⟩) fun _ _ _ _ => trivial).mono
      fun o _ _ ho => ho.sound heof hopen
    · obtain ⟨x, hx⟩ := exists_expands rest
      exact ⟨h.1.visible, h.1.le_stop,
        LeadsOn.of_append (x := [.rule id]) (h.2 _ (hx.single (Node.isOccurrence_rule hn)))⟩
    · exact collecting_soundRegime.collectNodes (d := d) h
    · simpa using LeadsOn.derive (z := []) ha.2.2 (.of_produces (.sequence hb hq hx))

/-- The walk starts in front of the first token that the grammar sees. -/
lemma typed_eq : s.typed = s.stream.kinds (s.stream.skipHidden 0) s.stop := by
  have hle : s.stream.skipHidden 0 ≤ s.stop := TokenStream.skipHidden_zero_le_stop
  have h := TokenStream.kinds_append (s := s.stream) (Nat.zero_le _) hle
  rw [TokenStream.kinds_skipHidden (Nat.zero_le _), List.nil_append] at h
  exact h.symm

/-- A walk consumes what the root derives and offers what leads on. -/
lemma walk_sound (heof : s.model.EofRequired) {o : Outcome} {r : Run} (h : s.walk root = .ok o r) :
    s.Sound ⟨root, s.stream.skipHidden 0⟩ o ∧ s.Viable root r.candidates := by
  have hstart : s.stream.kinds 0 (s.stream.skipHidden 0) = [] :=
    TokenStream.kinds_skipHidden (Nat.zero_le _)
  have hleads : s.Leads root ⟨root, s.stream.skipHidden 0⟩ :=
    ⟨TokenStream.visible_skipHidden (Nat.zero_le _), TokenStream.skipHidden_zero_le_stop, [], by
      simpa [hstart] using .refl _⟩
  have hrun : ((s.soundRegime root).inside []).inv s.start :=
    ⟨⟨.empty, fun a e ha => by simp [start] at ha⟩, rfl⟩
  have hkeeps := (remembering_soundRegime heof).rule (d := s.limits.depth) hleads
  have hend := Spec.ok hkeeps hrun h
  exact ⟨hend.2.2, hend.1.1.1⟩

/-- The answer that the end of a walk leads to. -/
def answer (s : Session) : EStateM.Result CompletionError Run Outcome →
    Except CompletionError Completion
  | .ok o r => s.completion o r.candidates
  | .error e _ => .error e

lemma complete_of_root {name : String} {root : RuleId}
    (h : s.model.ruleId? name = some root) : s.complete name = s.answer (s.walk root) := by
  simp only [complete, completeTraced, h]
  cases s.walk root <;> rfl

lemma complete_of_unknown {name : String} (h : s.model.ruleId? name = none) :
    s.complete name = .error (.unknownRule name) := by
  simp only [complete, completeTraced, h]

lemma complete_eq_ok {name : String} {c : Completion} (h : s.complete name = .ok c) :
    ∃ root o r, s.model.ruleId? name = some root ∧ s.walk root = .ok o r ∧
      s.completion o r.candidates = .ok c := by
  cases hr : s.model.ruleId? name with
  | none =>
    rw [complete_of_unknown hr] at h
    cases h
  | some root =>
    rw [complete_of_root hr] at h
    cases hw : s.walk root with
    | ok o r =>
      rw [hw] at h
      exact ⟨root, o, r, rfl, hw, h⟩
    | error e r =>
      rw [hw] at h
      cases h

/-- What the end of a walk leads to. -/
lemma completion_eq_ok_iff {o : Outcome} {k : Candidates} {c : Completion} :
    s.completion o k = .ok c ↔ ∃ texts, k.render s.model = .ok texts ∧
      ⟨texts, o.matched && s.reached o.stop, s.stream.typedPart? s.caret, o.stop⟩ = c := by
  rw [completion]
  cases k.render s.model <;>
    simp [Except.mapError, bind, Except.bind, pure, Except.pure]

lemma completion_eq_ok {o : Outcome} {k : Candidates} {c : Completion}
    (h : s.completion o k = .ok c) :
    k.render s.model = .ok c.candidates ∧ c.fullyParsed = (o.matched && s.reached o.stop) := by
  obtain ⟨texts, hr, rfl⟩ := completion_eq_ok_iff.1 h
  exact ⟨hr, rfl⟩

lemma mem_render {k : Candidates} {texts : List String} {text : String}
    (h : k.render s.model = .ok texts) (ht : text ∈ texts) :
    (∃ t l, k.phrases.get? t = some l ∧ text = Candidates.phraseText s.model t l) ∨
      ∃ r ∈ k.rules, s.model.ruleName r = .ok text := by
  cases hrules : k.rules.toList.mapM s.model.ruleName with
  | error e => simp [Candidates.render, hrules, bind, Except.bind] at h
  | ok names =>
    simp only [Candidates.render, hrules, bind, Except.bind, pure, Except.pure,
      Except.ok.injEq] at h
    subst h
    rcases List.mem_append.1 (Text.mem_sorted.1 ht) with hp | hn
    · obtain ⟨⟨t, l⟩, hentry, rfl⟩ := List.mem_map.1 hp
      exact Or.inl ⟨t, l, OrderedMap.get?_of_mem_entries hentry, rfl⟩
    · obtain ⟨r, hr, hname⟩ := Except.exists_of_mem_mapM hrules hn
      exact Or.inr ⟨r, hr, hname⟩

/-- A session for tokens of one character with blanks between them, all on the first line. -/
def onLine (m : Model) (kinds : List TokenId) (caret : Caret := ⟨2, 0⟩) : Session where
  model := m
  stream := .ofTokens (kinds.zipIdx.map fun e => .ofText e.1 "x" 1 (2 * e.2)) fun _ => false
  caret := caret

/-- Sums, `sum: sum PLUS NUM | NUM`. -/
def sums : Model where
  rules := .ofList [("sum", .sequences
    [⟨[.rule ⟨0⟩ .one, .token ⟨1⟩ .one, .token ⟨2⟩ .one], none⟩, ⟨[.token ⟨2⟩ .one], none⟩])]
  tokenNames := .ofList [(⟨1⟩, "PLUS"), (⟨2⟩, "NUM")]

/-- The completion of the sum of two numbers. -/
lemma complete_sums : (onLine sums [⟨2⟩, ⟨1⟩, ⟨2⟩]).complete "sum" =
    .ok ⟨["PLUS NUM"], true, none, 3⟩ := by
  cbv

/-- **Every candidate is a legal continuation** of the tokens before the caret: it is the text of
tokens, or the name of a special rule, with which a string derived from the root goes on. -/
theorem viable_of_mem_candidates (heof : s.model.EofRequired) {name : String} {c : Completion}
    (h : s.complete name = .ok c) {text : String} (ht : text ∈ c.candidates) :
    ∃ root, s.model.ruleId? name = some root ∧
      ((∃ t l b, text = Candidates.phraseText s.model t l ∧
          s.model.Derives [.rule root] (Form.ofTokens (s.typed ++ t :: l) ++ b)) ∨
        ∃ r b, s.model.isSpecial r = true ∧ s.model.ruleName r = .ok text ∧
          s.model.Derives [.rule root] (Form.ofTokens s.typed ++ .rule r :: b)) := by
  obtain ⟨root, o, r, hroot, hw, hc⟩ := complete_eq_ok h
  obtain ⟨hrender, -⟩ := completion_eq_ok hc
  have hviable := (walk_sound heof hw).2
  refine ⟨root, hroot, ?_⟩
  rcases mem_render hrender ht with ⟨t, l, hl, rfl⟩ | ⟨q, hq, hname⟩
  · obtain ⟨b, hb⟩ := hviable.phrases t l hl
    exact Or.inl ⟨t, l, b, rfl, by simpa [typed] using hb⟩
  · obtain ⟨hspecial, b, hb⟩ := hviable.rules q hq
    exact Or.inr ⟨q, b, hspecial, hname, by simpa [typed] using hb⟩

/-- After the sum of two numbers another summand may follow. -/
theorem viable_after_sum :
    let s := onLine sums [⟨2⟩, ⟨1⟩, ⟨2⟩]
    s.model.EofRequired ∧ s.complete "sum" = .ok ⟨["PLUS NUM"], true, none, 3⟩ ∧
      ∃ root, s.model.ruleId? "sum" = some root ∧
        ((∃ t l b, "PLUS NUM" = Candidates.phraseText s.model t l ∧
            s.model.Derives [.rule root] (Form.ofTokens (s.typed ++ t :: l) ++ b)) ∨
          ∃ r b, s.model.isSpecial r = true ∧ s.model.ruleName r = .ok "PLUS NUM" ∧
            s.model.Derives [.rule root] (Form.ofTokens s.typed ++ .rule r :: b)) := by
  have heof : sums.EofRequired := by decide
  exact ⟨heof, complete_sums, viable_of_mem_candidates heof complete_sums List.mem_cons_self⟩

/-- **A text that is called fully parsed is derived by the root.** -/
theorem derives_of_fullyParsed (heof : s.model.EofRequired) {name : String} {c : Completion}
    (h : s.complete name = .ok c) (hf : c.fullyParsed = true) :
    ∃ root, s.model.ruleId? name = some root ∧
      s.model.Derives [.rule root] (.ofTokens s.typed) := by
  obtain ⟨root, o, r, hroot, hw, hc⟩ := complete_eq_ok h
  obtain ⟨-, hflag⟩ := completion_eq_ok hc
  obtain ⟨hmatched, hreached⟩ := Bool.and_eq_true_iff.1 (hflag.symm.trans hf)
  have hsound := (walk_sound heof hw).1
  have hstop : o.stop = s.stop := TokenStream.eq_stop hsound.visible hreached hsound.le_stop
  have hd := hsound.derives (Outcome.isUsable_iff.2 (Or.inl hmatched))
  exact ⟨root, hroot, typed_eq ▸ hstop ▸ hd⟩

/-- The sum of two numbers is derived. -/
theorem derives_sum :
    let s := onLine sums [⟨2⟩, ⟨1⟩, ⟨2⟩]
    s.model.EofRequired ∧ s.complete "sum" = .ok ⟨["PLUS NUM"], true, none, 3⟩ ∧
      ∃ root, s.model.ruleId? "sum" = some root ∧
        s.model.Derives [.rule root] (.ofTokens s.typed) := by
  have heof : sums.EofRequired := by decide
  exact ⟨heof, complete_sums, derives_of_fullyParsed heof complete_sums rfl⟩

/-- **A walk that ends pending is called fully parsed**, unless the caret was reached at its start,
where nothing is matched. -/
theorem fullyParsed_of_pending (heof : s.model.EofRequired) (hflat : s.model.FlatTails)
    {name : String} {c : Completion} (h : s.complete name = .ok c)
    (hroot : s.model.ruleId? name = some root) {o : Outcome} {r : Run} (hw : s.walk root = .ok o r)
    (hph : o.phase = .pending) : c.fullyParsed = !s.reached (s.stream.skipHidden 0) := by
  obtain ⟨root', o', r', hroot', hw', hc⟩ := complete_eq_ok h
  obtain rfl : root = root' := Option.some.inj (hroot.symm.trans hroot')
  obtain ⟨rfl, rfl⟩ : o = o' ∧ r = r' := by simpa using hw.symm.trans hw'
  have hsound := (walk_sound heof hw).1
  rw [(completion_eq_ok hc).2, hsound.caret hph, Bool.and_true]
  cases hq : s.reached (s.stream.skipHidden 0) with
  | true => exact hsound.unmatched hq
  | false => exact hsound.matched hflat hq hph

/-- The outcome of a walk that ends without an error. -/
def outcome? : EStateM.Result CompletionError Run Outcome → Option Outcome
  | .ok o _ => some o
  | .error _ _ => none

lemma exists_of_outcome? {x : EStateM.Result CompletionError Run Outcome} {o : Outcome}
    (h : outcome? x = some o) : ∃ r, x = .ok o r := by
  cases x with
  | ok o' r => exact ⟨r, by rw [Option.some.inj h]⟩
  | error e r => simp [outcome?] at h

/-- The walk over the sum of two numbers ends pending, and the sum is fully parsed. -/
theorem fullyParsed_sum :
    let s := onLine sums [⟨2⟩, ⟨1⟩, ⟨2⟩]
    s.model.EofRequired ∧ s.model.FlatTails ∧
      outcome? (s.walk ⟨0⟩) = some ⟨true, 3, .pending⟩ ∧
      (⟨["PLUS NUM"], true, none, 3⟩ : Completion).fullyParsed =
        !s.reached (s.stream.skipHidden 0) := by
  have heof : sums.EofRequired := by decide
  have hflat : sums.FlatTails := Model.flatTails_of_terminal (by decide)
  have hroot : sums.ruleId? "sum" = some ⟨0⟩ := by decide
  have ho : outcome? ((onLine sums [⟨2⟩, ⟨1⟩, ⟨2⟩]).walk ⟨0⟩) = some ⟨true, 3, .pending⟩ := by cbv
  obtain ⟨r, hw⟩ := exists_of_outcome? ho
  exact ⟨heof, hflat, ho, fullyParsed_of_pending heof hflat complete_sums hroot hw rfl⟩

/-- The walk for a rule ends pending at the caret, but its text is not called fully parsed, in a
well-formed model without special or ignored rules. -/
def PendingUnparsed (s : Session) (name : String) : Prop :=
  s.model.WellFormed ∧ s.model.specialRules = ∅ ∧ s.model.ignoredRules = ∅ ∧
    ∃ root o r c, s.model.ruleId? name = some root ∧ s.walk root = .ok o r ∧
      o.phase = .pending ∧ s.reached o.stop = true ∧ s.complete name = .ok c ∧
        c.fullyParsed = false

/-- A nullable rule behind a token, `s: A n; n: | B`. -/
def nullableTail : Model where
  rules := .ofList [("s", .sequences [⟨[.token ⟨1⟩ .one, .rule ⟨1⟩ .one], none⟩]),
    ("n", .sequences [⟨[], none⟩, ⟨[.token ⟨2⟩ .one], none⟩])]
  tokenNames := .ofList [(⟨1⟩, "A"), (⟨2⟩, "B")]

/-- A nullable root, `s: | B`. -/
def nullableRoot : Model where
  rules := .ofList [("s", .sequences [⟨[], none⟩, ⟨[.token ⟨2⟩ .one], none⟩])]
  tokenNames := .ofList [(⟨1⟩, "A"), (⟨2⟩, "B")]

/-- A repeated rule that may end with the end of the input, `s: x+ n?; x: A EOF?; n: | B`. -/
def optionalEof : Model where
  rules := .ofList [("s", .sequences [⟨[.rule ⟨1⟩ .oneOrMore, .rule ⟨2⟩ .optional], none⟩]),
    ("x", .sequences [⟨[.token ⟨1⟩ .one, .token .eof .optional], none⟩]),
    ("n", .sequences [⟨[], none⟩, ⟨[.token ⟨2⟩ .one], none⟩])]
  tokenNames := .ofList [(⟨1⟩, "A"), (⟨2⟩, "B")]

lemma pendingUnparsed_of_eval {s : Session} {name : String} {q : RuleId} {o : Outcome}
    {c : Completion} (hm : s.model.WellFormed ∧ s.model.specialRules = ∅ ∧ s.model.ignoredRules = ∅)
    (hroot : s.model.ruleId? name = some q) (ho : outcome? (s.walk q) = some o)
    (hend : o.phase = .pending ∧ s.reached o.stop = true) (hc : s.complete name = .ok c)
    (hf : c.fullyParsed = false) : s.PendingUnparsed name := by
  obtain ⟨r, hw⟩ := exists_of_outcome? ho
  exact ⟨hm.1, hm.2.1, hm.2.2, q, o, r, c, hroot, hw, hend.1, hend.2, hc, hf⟩

/-- None of the conditions can be left out: a tail that is nullable without being skippable, a caret
that is reached at the start, and an optional end of the input each hide a complete text. -/
theorem pendingUnparsed_examples :
    (onLine nullableTail [⟨1⟩]).PendingUnparsed "s" ∧
      (onLine nullableRoot []).PendingUnparsed "s" ∧
      (onLine optionalEof [⟨1⟩, ⟨1⟩, ⟨2⟩] ⟨1, 4⟩).PendingUnparsed "s" := by
  refine ⟨?_, ?_, ?_⟩
  · exact pendingUnparsed_of_eval (q := ⟨0⟩) (o := ⟨false, 1, .pending⟩)
      (c := ⟨["B"], false, none, 1⟩) (by decide) (by decide) (by cbv) (by decide) (by cbv) rfl
  · exact pendingUnparsed_of_eval (q := ⟨0⟩) (o := ⟨false, 0, .pending⟩)
      (c := ⟨["B"], false, none, 0⟩) (by decide) (by decide) (by cbv) (by decide) (by cbv) rfl
  · exact pendingUnparsed_of_eval (q := ⟨0⟩) (o := ⟨false, 2, .pending⟩)
      (c := ⟨["A", "B"], false, none, 2⟩) (by decide) (by decide) (by cbv) (by decide) (by cbv) rfl

end Session

end GrammarCompletion
