/-
# Faithful traces

A walk records what it does three times: in the events, in the candidates and in the frames.  The
three never get out of step (`Run.Faithful`).  The rules that were entered and not left are those of
the frames, the candidates are those of the offers among the events, and the rules that are offered
are the special ones that are collected from.  This is so at every moment of a walk, and hence also
where it ends with an error.

At the end no frame is left.  Hence the events of a walk are bracketed if it has an answer, and the
beginning of a bracketed word otherwise, and the candidates can be told from them
(`Session.truthful`).
-/
import GrammarCompletion.Proofs.Offers.Merging
import GrammarCompletion.Proofs.Offers.Phrases
import GrammarCompletion.Proofs.Recursion.Frames
import GrammarCompletion.Proofs.Safety.Completion
import GrammarCompletion.Proofs.Trace.Brackets

namespace GrammarCompletion

open Walk Regime

/-- The events of a run agree with its frames and with its candidates. -/
structure Run.Faithful (m : Model) (r : Run) : Prop where
  /-- The rules that were entered and not left are those of the frames. -/
  brackets : openRules [] r.events.reverse = some ((r.frames.map Frame.spot).map Spot.rule)
  /-- The candidates are those that were offered. -/
  candidates : r.candidates = .ofEvents r.events.reverse
  /-- The rules that are offered are the special ones that are collected from. -/
  special : ∀ q, .offerRule q ∈ r.events ↔ m.isSpecial q = true ∧ .collect q ∈ r.events

namespace Run.Faithful

variable {m : Model} {r r' : Run} {e : Event} {q : RuleId} {t : TokenId} {k : List TokenId}

/-- Fuel, results and rules that are being collected from are not looked at, nor are marks. -/
lemma of_eq (h : r.Faithful m) (hevents : r'.events = r.events)
    (hcandidates : r'.candidates = r.candidates)
    (hframes : r'.frames.map Frame.spot = r.frames.map Frame.spot) : r'.Faithful m := by
  obtain ⟨hb, hc, hs⟩ := h
  refine ⟨?_, ?_, ?_⟩
  · rw [hevents, hframes, hb]
  · rw [hcandidates, hevents, hc]
  · rwa [hevents]

/-- An event that neither enters nor leaves a rule. -/
lemma reads (h : r.Faithful m) (he : ∀ l, e.openAfter l = some l) :
    openRules [] (e :: r.events).reverse = some ((r.frames.map Frame.spot).map Spot.rule) := by
  rw [List.reverse_cons, openRules_concat, h.brackets, Option.bind_some, he]

/-- An event with the change that it makes to the candidates. -/
lemma records (h : r.Faithful m) :
    r.candidates.record e = .ofEvents (e :: r.events).reverse := by
  rw [List.reverse_cons, Candidates.ofEvents_concat, h.candidates]

/-- An event that neither offers a rule nor starts to collect from one. -/
lemma keeps_special (h : r.Faithful m) (hoffer : ∀ q, e ≠ .offerRule q)
    (hcollect : ∀ q, e ≠ .collect q) (q : RuleId) :
    .offerRule q ∈ e :: r.events ↔ m.isSpecial q = true ∧ .collect q ∈ e :: r.events := by
  rw [List.mem_cons, List.mem_cons, or_iff_right (hoffer q).symm, or_iff_right (hcollect q).symm,
    h.special]

lemma note (h : r.Faithful m) (he : e.isNote = true) : (r.record e).Faithful m where
  brackets := h.reads fun l => by cases e <;> first | rfl | cases he
  candidates := by
    rw [Run.record, ← h.records,
      Candidates.record_of_isOffer_eq_false (Event.isOffer_of_isNote he)]
  special := h.keeps_special (fun q heq => by simp [heq, Event.isNote] at he)
    fun q heq => by simp [heq, Event.isNote] at he

lemma offerToken (h : r.Faithful m) (t : TokenId) (k : List TokenId) : Run.Faithful m
    { r.record (.offerToken t k) with candidates := r.candidates.offerToken t k } where
  brackets := h.reads fun _ => rfl
  candidates := h.records (e := .offerToken t k)
  special := h.keeps_special (fun _ => nofun) fun _ => nofun

/-- Collecting from a rule that is not special. -/
lemma collect (h : r.Faithful m) (hq : m.isSpecial q = false) :
    (r.record (.collect q)).Faithful m where
  brackets := h.reads fun _ => rfl
  candidates := h.records (e := .collect q)
  special q' := by
    simp only [Run.record, List.mem_cons, reduceCtorEq, false_or, Event.collect.injEq, h.special]
    constructor
    · exact fun hmem => ⟨hmem.1, Or.inr hmem.2⟩
    · rintro ⟨hq', rfl | hmem⟩
      · exact absurd (hq.symm.trans hq') Bool.false_ne_true
      · exact ⟨hq', hmem⟩

/-- Collecting from a special rule, which is offered at once. -/
lemma collectSpecial (h : r.Faithful m) (hq : m.isSpecial q = true) : Run.Faithful m
    { (r.record (.collect q)).record (.offerRule q) with
      candidates := r.candidates.offerRule q } where
  brackets := by
    have hcollect := h.reads (e := .collect q) fun _ => rfl
    simp only [Run.record]
    rw [List.reverse_cons, openRules_concat, hcollect]
    rfl
  candidates := by
    simp only [Run.record]
    rw [List.reverse_cons, Candidates.ofEvents_concat, ← h.records (e := .collect q)]
    rfl
  special q' := by
    simp only [Run.record]
    simp only [List.mem_cons, reduceCtorEq, false_or, Event.offerRule.injEq, Event.collect.injEq,
      h.special]
    constructor
    · rintro (rfl | hmem)
      · exact ⟨hq, Or.inl rfl⟩
      · exact ⟨hmem.1, Or.inr hmem.2⟩
    · rintro ⟨hq', rfl | hmem⟩
      · exact Or.inl rfl
      · exact Or.inr ⟨hq', hmem⟩

/-- A rule is entered. -/
lemma enter (h : r.Faithful m) (a : Spot) :
    ((r.record (.enter a.rule a.start)).enter a).Faithful m where
  brackets := by
    simp [Run.record, Run.enter, openRules_concat, h.brackets]
  candidates := h.records (e := .enter a.rule a.start)
  special := h.keeps_special (fun _ => nofun) fun _ => nofun

/-- The innermost rule is left. -/
lemma exit {memo : Std.TreeMap Spot Memo} {a : Spot} {l : List Spot} (h : r.Faithful m)
    (ha : r.frames.map Frame.spot = a :: l) (o : Outcome) : Run.Faithful m
    { r.record (.exit a.rule o.matched o.stop o.phase) with
      frames := r.frames.tail, memo := memo } where
  brackets := by
    simp [Run.record, openRules_concat, h.brackets, List.map_tail, ha]
  candidates := h.records (e := .exit a.rule o.matched o.stop o.phase)
  special := h.keeps_special (fun _ => nofun) fun _ => nofun

lemma start (s : Session) : s.start.Faithful m :=
  ⟨rfl, rfl, fun _ => ⟨nofun, fun h => nomatch h.2⟩⟩

end Run.Faithful

namespace Session

/-- The regime of walks that record what they do faithfully, also before an error, and that leave
the rules they enter. -/
def faithfulRegime (m : Model) : Regime where
  inv := Run.Faithful m
  later r r' := r'.frames.map Frame.spot = r.frames.map Frame.spot
  fault _ := Run.Faithful m
  refl _ := rfl
  trans h h' := h'.trans h

variable {s : Session}

/-- Every step is recorded faithfully. -/
lemma recording_faithfulRegime : (faithfulRegime s.model).Recording s where
  fault hr := hr
  silent hr hevents hcandidates hframes := ⟨hr.of_eq hevents hcandidates hframes, hframes⟩
  note hr he := ⟨hr.note he, rfl⟩
  offer hr _ := ⟨hr.offerToken _ _, rfl⟩
  collect hr hq := ⟨hr.collect hq, rfl⟩
  special hr hq := ⟨hr.collectSpecial hq, rfl⟩
  enter a hr := hr.enter a
  exit {r r' a} memo o hr hr' hlater := by
    have hspots : r'.frames.map Frame.spot = a :: r.frames.map Frame.spot := hlater
    exact ⟨hr'.exit hspots o, by simp [faithfulRegime, List.map_tail, hspots]⟩

variable {name : String}

/-- The events of a request are those of a run that is recorded faithfully.  If there is an answer,
no frame is left in the run, and its candidates are those of the answer. -/
lemma exists_faithful (s : Session) (name : String) :
    ∃ r : Run, r.Faithful s.model ∧ (s.completeTraced name).2 = r.events.reverse ∧
      ∀ c, s.complete name = .ok c →
        r.frames.map Frame.spot = [] ∧ r.candidates.render s.model = .ok c.candidates := by
  have hkeeps := (recording_faithfulRegime (s := s)).matchRule s.limits.depth
  cases hroot : s.model.ruleId? name with
  | none =>
    refine ⟨s.start, .start s, by simp [completeTraced, hroot, start], fun c hc => ?_⟩
    simp [complete_of_unknown hroot] at hc
  | some root =>
    cases hw : s.walk root with
    | ok o r =>
      obtain ⟨hr, hframes, -⟩ := (hkeeps root _).ok (.start s) hw
      refine ⟨r, hr, by simp [completeTraced, hroot, hw], fun c hc => ⟨hframes, ?_⟩⟩
      have hanswer : s.completion o r.candidates = .ok c := by
        simpa [complete, completeTraced, hroot, hw] using hc
      exact (completion_eq_ok hanswer).1
    | error e r =>
      have hr := (hkeeps root _).error (.start s) hw
      refine ⟨r, hr, by simp [completeTraced, hroot, hw], fun c hc => ?_⟩
      simp [complete, completeTraced, hroot, hw] at hc

/-- The rules that are open after the events of a request: none if there is an answer. -/
lemma exists_openRules (s : Session) (name : String) :
    ∃ l, openRules [] (s.completeTraced name).2 = some l ∧
      ∀ c, s.complete name = .ok c → l = [] := by
  obtain ⟨r, hr, hevents, hanswer⟩ := s.exists_faithful name
  refine ⟨_, hevents ▸ hr.brackets, fun c hc => ?_⟩
  rw [(hanswer c hc).1, List.map_nil]

/-- The candidates of a completion are those of its events. -/
lemma render_events {c : Completion} (h : s.complete name = .ok c) :
    (Candidates.ofEvents (s.completeTraced name).2).render s.model = .ok c.candidates := by
  obtain ⟨r, hr, hevents, hanswer⟩ := s.exists_faithful name
  rw [hevents, ← hr.candidates]
  exact (hanswer c h).2

/-- The rules that are offered are the special ones that are collected from. -/
lemma offerRule_mem_events_iff {q : RuleId} : .offerRule q ∈ (s.completeTraced name).2 ↔
    s.model.isSpecial q = true ∧ .collect q ∈ (s.completeTraced name).2 := by
  obtain ⟨r, hr, hevents, -⟩ := s.exists_faithful name
  rw [hevents, List.mem_reverse, List.mem_reverse, hr.special]

/-- The trace of a request for a completion tells the truth about it. -/
structure Truthful (s : Session) (root : String) : Prop where
  /-- No rule is left that was not entered last. -/
  nested : ∃ rest, Bracketed ((s.completeTraced root).2 ++ rest)
  /-- If there is an answer, every rule that was entered has been left. -/
  bracketed : ∀ c, s.complete root = .ok c → Bracketed (s.completeTraced root).2
  /-- A log shows the events. -/
  logged : ∀ v, s.completeLogged v root =
    (s.complete root, ({} : Log).extend s.model v (s.completeTraced root).2)
  /-- In front of an exit, a log is indented deeper than at the start. -/
  indented : ∀ v (log : Log) u e w, (s.completeTraced root).2 = u ++ e :: w → e.isExit = true →
    log.depth < (log.extend s.model v u).depth
  /-- If there is an answer, a log is indented at the end as at the start. -/
  level : ∀ c, s.complete root = .ok c → ∀ v (log : Log),
    (log.extend s.model v (s.completeTraced root).2).depth = log.depth
  /-- The candidates are the tokens and rules that were offered, each token with what follows it if
  all its offers agree on that. -/
  candidates : ∀ c, s.complete root = .ok c → ∀ text, text ∈ c.candidates ↔
    (∃ t k, .offerToken t k ∈ (s.completeTraced root).2 ∧
      (∀ k', .offerToken t k' ∈ (s.completeTraced root).2 → k' = k) ∧
      text = Candidates.phraseText s.model t k) ∨
    (∃ t k k', .offerToken t k ∈ (s.completeTraced root).2 ∧
      .offerToken t k' ∈ (s.completeTraced root).2 ∧ k ≠ k' ∧ text = s.model.tokenName t) ∨
    ∃ r, .offerRule r ∈ (s.completeTraced root).2 ∧ s.model.ruleName r = .ok text

/-- **The trace tells the truth about the walk**, over a model in which nodes refer to rules. -/
theorem truthful (hwf : s.model.WellFormed) (name : String) : s.Truthful name := by
  obtain ⟨l, hopen, hanswer⟩ := s.exists_openRules name
  have hlines : ∀ v, ∀ e ∈ (s.completeTraced name).2, ∃ text, e.line s.model v = .ok text :=
    fun v e he => (valid_of_mem_events hwf he).exists_line v
  refine ⟨exists_bracketed hopen, fun c hc => ?_, fun v => ?_, fun v log u e w heq he => ?_,
    fun c hc v log => ?_, fun c hc text => Candidates.mem_render_ofEvents_iff (render_events hc)⟩
  · rw [Bracketed, hopen, hanswer c hc]
  · simp [completeLogged, Log.ofEvents_eq_extend (hlines v), complete]
  · rw [heq] at hlines hopen
    exact Log.depth_lt_of_exit (hlines v) hopen he
  · have hdepth : (log.extend s.model v (s.completeTraced name).2).depth = log.depth + l.length :=
      Log.depth_extend (hlines v) rfl hopen
    rw [hdepth, hanswer c hc]
    rfl

/-- The trace of the completion of a sum: what is offered is offered once. -/
theorem truthful_sums :
    let s := onLine sums [⟨2⟩, ⟨1⟩, ⟨2⟩]
    s.model.WellFormed ∧ s.complete "sum" = .ok ⟨["PLUS NUM"], true, none, 3⟩ ∧
      .offerToken ⟨1⟩ [⟨2⟩] ∈ (s.completeTraced "sum").2 ∧ s.Truthful "sum" := by
  have hwf : sums.WellFormed := by decide
  have hoffer : .offerToken ⟨1⟩ [⟨2⟩] ∈
      ((onLine sums [⟨2⟩, ⟨1⟩, ⟨2⟩]).completeTraced "sum").2 := by
    refine List.contains_iff_mem.1 ?_
    cbv
  exact ⟨hwf, complete_sums, hoffer, truthful hwf "sum"⟩

end Session

end GrammarCompletion
