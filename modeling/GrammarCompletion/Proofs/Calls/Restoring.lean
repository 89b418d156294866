/-
# What a call leaves behind

Wherever a rule is visited, the run is in order: the frames are those of the visits around it, each
at an open spot that was entered once, the unfinished results belong to these frames, nothing is
being collected from, and what is remembered is as predicted (`Session.Placed`).  A round of
matching a body keeps this inside one more frame, so it holds at every call of a walk
(`Session.Calls.inOrder`).

A call that returns therefore leaves the frames, the rules that are being collected from and the
spots of the unfinished results as they were (`Run.Restores`), and a visit that failed and has not
turned to collecting has not moved (`Session.leaves_no_trace`).  A sequence that fails in its middle
takes nothing back; that the visit does not move is due to the comparison of the sequences, which
passes over those that are not usable (`Session.Lawful`).
-/
import GrammarCompletion.Proofs.Calls.Basic
import GrammarCompletion.Proofs.Invariance.Hidden

namespace GrammarCompletion

open Walk Regime

/-- A run is as another one as far as the rules go that are active: the same frames, by their spots,
the same rules that are being collected from, and no unfinished result without a frame. -/
structure Run.Restores (r r' : Run) : Prop where
  frames : r'.frames.map Frame.spot = r.frames.map Frame.spot
  collecting : r'.collecting = r.collecting
  growing : ∀ a : Spot, ∀ o, r'.memo[a]? = some ⟨o, true⟩ → a ∈ r'.frames.map Frame.spot

namespace Session

/-- A run in which a rule may be visited, inside the frames at the spots `l`. -/
structure Placed (s : Session) (V : Spot → Outcome → Prop) (l : List Spot) (r : Run) : Prop where
  inFrames : s.InFrames l r
  collecting : r.collecting = []
  predicted : ∀ a e, r.memo[a]? = some e → V a e.outcome

variable {s : Session} {name : String} {V : Spot → Outcome → Prop} {At : Spot → Prop}
  {Todo : List (Node RuleId) → Nat → Prop} {l : List Spot} {a b : Spot} {d n : Nat} {o : Outcome}
  {best : Option Outcome} {r r' : Run} {c : Call}

/-! ## Collecting -/

lemma InFrames.extends (h : s.InFrames l r) (hext : r.Extends r') : s.InFrames l r' :=
  (h.of_eq (k := l) hext.memo hext.frames).1

lemma extends_collectNodes {nodes : List (Node RuleId)} {ph : Phase}
    (h : s.collectNodes (s.collectRule d) nodes r = .ok ph r') : r.Extends r' := by
  have hmirror : s.Mirror s (· = ·) fun _ _ => True := .refl s
  have hplan := adds_collecting allowsOffers_gatherRegime
    (fun rule => s.adds_collectRule d rule r.collecting) (hmirror.collectNodes nodes)
  rw [← collectNodes_eq_run] at hplan
  obtain ⟨-, hext, -⟩ := hplan r ph r' rfl h
  exact hext

/-! ## Visits and rounds -/

/-- What guides matching in two ways does so in both. -/
lemma Guide.both {V' : Spot → Outcome → Prop} {Todo' : List (Node RuleId) → Nat → Prop}
    {At' : Spot → Prop} (h : s.Guide V Todo At) (h' : s.Guide V' Todo' At') :
    s.Guide (fun a o => V a o ∧ V' a o) (fun nodes p => Todo nodes p ∧ Todo' nodes p)
      fun a => At a ∧ At' a where
  ask ht hn := ⟨h.ask ht.1 hn, h'.ask ht.2 hn⟩
  skip ht hr := ⟨h.skip ht.1 hr, h'.skip ht.2 hr⟩
  le ht hn := h.le ht.1 (hn.mono fun _ _ hv => hv.1)
  stay ht hn := h.stay ht.1 (hn.mono fun _ _ hv => hv.1)
  next ht hn hc := by
    have hnext := h.next ht.1 (hn.mono fun _ _ hv => hv.1) hc
    have hnext' := h'.next ht.2 (hn.mono fun _ _ hv => hv.2) hc
    exact ⟨⟨hnext.1, hnext'.1⟩, fun hm => ⟨hnext.2 hm, hnext'.2 hm⟩⟩

namespace Placed

lemma of_extends (h : s.Placed V l r) (hext : r.Extends r') : s.Placed V l r' := by
  refine ⟨h.inFrames.extends hext, hext.collecting.trans h.collecting, fun a e ha => ?_⟩
  exact h.predicted a e (hext.memo ▸ ha)

/-- A visit keeps the run in order, and its outcome is as expected. -/
lemma visit (h : s.Predicts V At Todo) (he : s.Entered l d a) (ha : At a) (hr : s.Placed V l r)
    (hrun : s.matchRule d a.rule a.start r = .ok o r') :
    (s.Lawful a o ∧ V a o) ∧ s.Placed V l r' := by
  obtain ⟨hinv, -, hanswer⟩ :=
    (visiting_frameRegime.rule he).ok ⟨hr.inFrames, hr.collecting⟩ hrun
  obtain ⟨hremembers, -, hv⟩ := (h.remembering.rule ha).ok ⟨hr.predicted, hr.collecting⟩ hrun
  exact ⟨⟨hanswer.lawful, hv⟩, hinv.1, hinv.2, hremembers.1⟩

/-- A round of matching a body in its frame keeps the run in order. -/
lemma round (h : s.Predicts V At Todo) (he : s.Entered l (d + 1) a) (ha : At a)
    (hq : s.reached a.start = false) (hal : a ∉ l) (hr : s.Placed V (a :: l) r)
    (hrun : s.matchBody (s.matchRule d) (s.collectRule d) a r = .ok o r') :
    (s.Lawful a o ∧ V a o) ∧ s.Placed V (a :: l) r' := by
  have hremembering := h.remembering
  have hbody := keeps_body he hq hal fun j b hb => visiting_frameRegime.rule (d := d) hb
  obtain ⟨hinv, -, hmatches⟩ := hbody.ok ⟨hr.inFrames, hr.collecting⟩ hrun
  obtain ⟨hremembers, -, hv⟩ := (hremembering.body ha hq fun b hb =>
    hremembering.rule (d := d) hb).ok ⟨hr.predicted, hr.collecting⟩ hrun
  exact ⟨⟨lawful_of_answersWithin hmatches, hv⟩, hinv.1, hinv.2, hremembers.1⟩

/-- The best result so far is kept for the next round. -/
lemma keep (he : s.Entered l d a) (ho : s.Lawful a o) (hv : V a o)
    (hr : s.Placed V (a :: l) r) :
    s.Placed V (a :: l) { r with memo := r.memo.insert a ⟨o, true⟩ } where
  inFrames := by
    have hvalid : s.model.WellFormed → a.rule.index < s.model.ruleCount :=
      fun hwf => he.valid hwf a List.mem_cons_self
    refine ⟨hr.inFrames.spots, .insert (fun b k _ hb => hr.inFrames.memo b k hb) ?_⟩
    exact ⟨ho, hvalid, fun _ => List.mem_cons_self, nofun⟩
  collecting := hr.collecting
  predicted := forall_memo_insert (fun b k _ hb => hr.predicted b k hb) hv

/-- **The run is in order whenever a round begins.** -/
lemma rounds (h : s.Predicts V At Todo) (he : s.Entered l (d + 1) a) (ha : At a)
    (hq : s.reached a.start = false) (hal : a ∉ l) (hr : s.Placed V (a :: l) r)
    (hround : RoundBegins (s.matchBody (s.matchRule d) (s.collectRule d) a) a r best r') :
    s.Placed V (a :: l) r' := by
  induction hround with
  | first => exact hr
  | second hrun _ =>
    obtain ⟨⟨ho, hv⟩, hr'⟩ := round h he ha hq hal hr hrun
    exact hr'.keep he ho hv
  | next _ hrun _ ih =>
    obtain ⟨⟨ho, hv⟩, hr'⟩ := round h he ha hq hal ih hrun
    exact hr'.keep he ho hv

/-- The frame of a rule is entered. -/
lemma enter (hr : s.Placed V l r) (hm : r.memo[a]? = none) :
    s.Placed V (a :: l) ((r.visited n (.enter a.rule a.start)).enter a) where
  inFrames := ⟨congrArg (a :: ·) hr.inFrames.spots, hr.inFrames.memo.enter hm⟩
  collecting := hr.collecting
  predicted := hr.predicted

end Placed

/-! ## The calls of a walk -/

/-- A call is made in order: a rule is visited in the frames around it, and where it is expected. -/
def InOrder (s : Session) (V : Spot → Outcome → Prop) (At : Spot → Prop) (l : List Spot) (r : Run) :
    Call → Prop
  | .visit d a => s.Entered l d a ∧ At a ∧ s.Placed V l r
  | .gather _ _ => s.InFrames l r
  | .scan _ _ => s.InFrames l r

lemma InOrder.inFrames (h : s.InOrder V At l r c) : s.InFrames l r := by
  cases c with
  | visit d a => exact h.2.2.inFrames
  | gather d rule => exact h
  | scan d nodes => exact h

/-- The calls of a visit are in order, if the visit is. -/
lemma InOrder.body (h : s.Predicts V At Todo) (hcall : s.InOrder V At l r (.visit (d + 1) a))
    (hq : s.reached a.start = false) (hm : r.memo[a]? = none)
    (hnew : a ∉ r.frames.map Frame.spot) {body : RuleBody RuleId}
    (hb : s.model.body a.rule = .ok body) {r₁ : Run}
    (hround : RoundBegins (s.matchBody (s.matchRule d) (s.collectRule d) a) a
      ((r.visited n (.enter a.rule a.start)).enter a) best r₁)
    (hask : (Plan.matchBody s a.start body).Asks s d r₁ c r') : s.InOrder V At (a :: l) r' c := by
  obtain ⟨he, ha, hr⟩ := hcall
  have hal : a ∉ l := hr.inFrames.spots ▸ hnew
  have hr₁ : s.Placed V (a :: l) r₁ := (hr.enter hm).rounds h he ha hq hal hround
  -- the rules inside are visited in the frame of the rule, where both guides say
  have hguide := (guide_within hq).both h.toGuide
  have hplan : Plan.Mirrors (· = ·) (fun b => s.AskedWithin a b ∧ At b)
      (fun b o => s.Lawful b o ∧ V b o) (Outcome.Mirrors (· = ·)) (Plan.matchBody s a.start body)
      (Plan.matchBody s a.start body) := by
    refine (Mirror.refl s).matchBody hguide ?_ rfl fun _ => ⟨rfl, rfl, rfl⟩
    rintro list rfl q hmem
    exact ⟨.entry hb hmem, h.entry ha hq hb hmem⟩
  have hentered : ∀ b, s.AskedWithin a b → s.Entered (a :: l) d b := by
    rintro b ⟨k, rest, hwithin, hk⟩
    exact hwithin.entered he hq hal hk
  obtain ⟨hr', hvisit⟩ := hplan.asks (fun _ _ hr hext => hr.of_extends hext)
    (fun b _ _ _ hb hr hrun => hr.visit h (hentered b hb.1) hb.2 hrun) hask hr₁
  cases c with
  | visit e b =>
    obtain ⟨rfl, hasked, hb⟩ := hvisit e b rfl
    exact ⟨hentered b hasked, hb, hr'⟩
  | gather e rule => exact hr'.inFrames
  | scan e nodes => exact hr'.inFrames

/-- Collecting makes no visits, and leaves the frames alone. -/
lemma InOrder.sequences {list : List (Sequence RuleId)} (hr : s.InFrames l r)
    (hask : (Plan.collectSequences s list).Asks s d r c r') : s.InOrder V At l r' c := by
  have hmirror : s.Mirror s (· = ·) fun _ _ => True := .refl s
  have hplan : Plan.Mirrors (· = ·) (fun _ => False) (fun _ _ => True) (· = ·)
      (Plan.collectSequences s list) (Plan.collectSequences s list) := hmirror.collectSequences list
  obtain ⟨hr', hvisit⟩ := hplan.asks (fun _ _ hr hext => hr.extends hext)
    (fun _ _ _ _ hfalse _ _ => hfalse.elim) hask hr
  cases c with
  | visit e b => exact (hvisit e b rfl).2.elim
  | gather e rule => exact hr'
  | scan e nodes => exact hr'

/-- **Every call of a walk is made in order**, and rules are visited where it is predicted. -/
theorem Calls.inOrder (h : s.Predicts V At Todo)
    (hroot : ∀ rule, s.model.ruleId? name = some rule → At ⟨rule, s.stream.skipHidden 0⟩)
    (hc : s.Calls name c r) : ∃ l, s.InOrder V At l r c := by
  induction hc with
  | root hname =>
    refine ⟨[], ⟨List.pairwise_singleton _ _, List.forall_mem_nil _, List.nodup_nil, rfl,
      fun _ => ?_⟩, hroot _ hname, ⟨inv_start.1, rfl, fun a e he => by simp [start] at he⟩⟩
    simpa using index_lt_of_ruleId? hname
  | @caret d n a r _ _ _ ih =>
    obtain ⟨l, hcall⟩ := ih
    exact ⟨l, hcall.inFrames.extends (.visited rfl)⟩
  | @body d n a body best c r r₁ r' _ _ hq hm hnew hb hround hask ih =>
    obtain ⟨l, hcall⟩ := ih
    exact ⟨a :: l, hcall.body h hq hm hnew hb hround hask⟩
  | sequences _ _ _ _ hask ih =>
    obtain ⟨l, hcall⟩ := ih
    refine ⟨l, .sequences ?_ hask⟩
    exact ⟨hcall.inFrames.spots, hcall.inFrames.memo⟩

lemma InFrames.restores (h : s.InFrames l r) (h' : s.InFrames l r')
    (hc : r'.collecting = r.collecting) : r.Restores r' := by
  refine ⟨h'.spots.trans h.spots.symm, hc, fun a o ha => ?_⟩
  exact h'.spots.symm ▸ (h'.memo a _ ha).active rfl

/-- **A call leaves no trace on the active rules, and a failed visit none on the position.**  When a
call returns, the frames and the rules that are being collected from are as they were, and every
unfinished result belongs to a frame.  A visit that failed without turning to collecting stops where
it started. -/
theorem leaves_no_trace (hc : s.Calls name c r) :
    (∀ r', s.Returns r r' c → r.Restores r') ∧
      ∀ d a o r', c = .visit d a → s.matchRule d a.rule a.start r = .ok o r' →
        o.matched = false → o.phase = .matching → o.stop = a.start := by
  obtain ⟨l, horder⟩ := hc.inOrder predicts_lawful fun _ _ => trivial
  refine ⟨fun r' hreturns => ?_, ?_⟩
  · cases c with
    | visit d a =>
      obtain ⟨o, hrun⟩ := hreturns
      obtain ⟨he, -, hr⟩ := horder
      obtain ⟨-, hr'⟩ := hr.visit predicts_lawful he trivial hrun
      exact hr.inFrames.restores hr'.inFrames (hr'.collecting.trans hr.collecting.symm)
    | gather d rule =>
      obtain ⟨ph, hrun⟩ := hreturns
      have hext := extends_collectRule hrun
      exact InFrames.restores horder (InFrames.extends horder hext) hext.collecting
    | scan d nodes =>
      obtain ⟨ph, hrun⟩ := hreturns
      have hext := extends_collectNodes hrun
      exact InFrames.restores horder (InFrames.extends horder hext) hext.collecting
  · rintro d a ⟨matched, stop, phase⟩ r' rfl hrun rfl rfl
    obtain ⟨he, -, hr⟩ := horder
    obtain ⟨⟨hlawful, -⟩, -⟩ := hr.visit predicts_lawful he trivial hrun
    exact hlawful.stay Outcome.isUsable_failed

/-- A sum is entered again where it is being matched, and fails there without a trace. -/
theorem leaves_no_trace_sum :
    let s := onLine sums [⟨2⟩, ⟨1⟩, ⟨2⟩]
    let r := (s.start.visited 999999 (.enter ⟨0⟩ 0)).enter ⟨⟨0⟩, 0⟩
    let o : Outcome := ⟨false, 0, .matching⟩
    s.Calls "sum" (.visit 1023 ⟨⟨0⟩, 0⟩) r ∧
      ∃ r', s.matchRule 1023 ⟨0⟩ 0 r = .ok o r' ∧ r.Restores r' ∧ o.stop = 0 := by
  intro s r o
  have hroot : s.Calls "sum" (.visit 1024 ⟨⟨0⟩, 0⟩) s.start := .root (by decide)
  have hcall : s.Calls "sum" (.visit 1023 ⟨⟨0⟩, 0⟩) r :=
    hroot.body rfl (by decide) (by simp [start]) (by simp [start]) rfl .first .visit
  have ho : outcome? (s.matchRule 1023 ⟨0⟩ 0 r) = some o := by cbv
  obtain ⟨r', hrun⟩ := exists_of_outcome? ho
  obtain ⟨hrestores, hstay⟩ := leaves_no_trace hcall
  exact ⟨hcall, r', hrun, hrestores r' ⟨o, hrun⟩, hstay 1023 ⟨⟨0⟩, 0⟩ o r' rfl hrun rfl rfl⟩

end Session

end GrammarCompletion
