/-
# What a walk offers

A walk offers what the visit of its root is said to offer (`Session.walk_visits`), if only direct
left recursion can be reached from the root.  The difficulty is that a visit inside other visits
uses results again: a result that is finished stands for offers that were made before, and an
unfinished one for those of the rounds around it (`Session.Says`).  So the set of all offers is the
same as if every visit had started with nothing remembered.
-/
import GrammarCompletion.Proofs.Offers.Collecting
import GrammarCompletion.Proofs.Recursion.Fresh

namespace GrammarCompletion

open Walk Regime

namespace Session

/-- What a run has offered agrees with its candidates and with its finished results. -/
structure Told (s : Session) (r : Run) : Prop where
  reflects : r.candidates.Reflects r.offers
  finished : ∀ a : Spot, ∀ o, r.memo[a]? = some ⟨o, false⟩ → ∃ L, s.Visits a o L ∧ L ⊆ r.offers

/-- The regime of a walk inside the frames at the spots `l`, which does not change the results at
the spots `k`. -/
def tellRegime (s : Session) (l k : List Spot) : Regime where
  inv r := ((s.frameRegime l k).inside []).inv r ∧ s.Told r
  later := Run.MovesOn k
  fault _ _ := True
  refl := .refl
  trans := .trans

/-- What a visit inside the frames at the spots `l` offers: what the rule is said to, or nothing, if
the rule is that of the innermost frame and has its seed as its outcome. -/
def Says (s : Session) (l : List Spot) (r : Run) (a : Spot) (o : Outcome) (L : Set Event) : Prop :=
  a ∉ l ∧ s.Visits a o L ∨ l.head? = some a ∧ r.Flagged 0 ∧ o = r.seed a ∧ L = ∅

/-- What a round in the frame of `a` offers. -/
def SaysInRound (s : Session) (l : List Spot) (a : Spot) (r : Run) (o : Outcome) (L : Set Event) :
    Prop :=
  ∃ body, s.model.body a.rule = .ok body ∧
    (Plan.matchBody s a.start body).Yields (s.Says (a :: l) r) (s.Gathers []) o L

variable {s : Session} {l k : List Spot} {a b : Spot} {o best : Outcome} {r r' : Run} {d n : Nat}
  {L : Set Event}

/-! ## Runs that tell what they offer -/

lemma Told.of_extends (h : s.Told r) (hext : r.Extends r') : s.Told r' := by
  refine ⟨hext.reflects h.reflects, fun b o hb => ?_⟩
  rw [hext.memo] at hb
  obtain ⟨L, hv, hL⟩ := h.finished b o hb
  exact ⟨L, hv, hL.trans hext.offers⟩

/-- A result that is not finished stands for no offers. -/
lemma Told.insert_growing (h : s.Told r) :
    s.Told { r with memo := r.memo.insert a ⟨best, true⟩ } := by
  refine ⟨h.reflects, fun b o hb => ?_⟩
  rw [getElem?_memo_insert] at hb
  split at hb
  · simp at hb
  · exact h.finished b o hb

lemma Told.leave (h : s.Told r) (hv : s.Visits a o L) (hL : L ⊆ r.offers)
    (hrun : Session.leave a o r = .ok () r') : s.Told r' ∧ r'.offers = r.offers := by
  obtain ⟨⟩ := hrun
  refine ⟨⟨h.reflects, fun b o' hb => ?_⟩, rfl⟩
  dsimp only at hb
  split at hb
  · rw [getElem?_memo_erase] at hb
    split at hb
    · simp at hb
    · exact h.finished b o' hb
  · rw [getElem?_memo_insert] at hb
    split at hb
    · next hab =>
      obtain rfl : o = o' := by simpa using hb
      exact ⟨L, hab ▸ hv, hL⟩
    · exact h.finished b o' hb

lemma allowsOffers_tellRegime : (s.tellRegime l k).AllowsOffers := by
  intro r r' hr hext
  obtain ⟨⟨hinv, hcollecting⟩, htold⟩ := hr
  have hframes := hinv.of_eq (k := k) hext.memo hext.frames
  exact ⟨⟨⟨hframes.1, hext.collecting.trans hcollecting⟩, htold.of_extends hext⟩, hframes.2⟩

lemma Says.later (h : s.Says l r b o L) (hl : Run.MovesOn l r r') : s.Says l r' b o L := by
  rcases h with h | ⟨hhead, hflag, ho, hL⟩
  · exact Or.inl h
  · refine Or.inr ⟨hhead, hl.flagged 0 hflag, ?_, hL⟩
    rw [ho, Run.seed_congr (hl.kept b (List.mem_of_head? hhead))]

lemma SaysInRound.round (h : s.SaysInRound l a r o L) : s.Round s.Visits a (r.seed a) o L := by
  obtain ⟨body, hb, hy⟩ := h
  refine ⟨body, hb, hy.mono (fun b o L hsays => ?_) fun _ _ _ hc => hc⟩
  rcases hsays with ⟨hbl, hv⟩ | ⟨hhead, -, ho, hL⟩
  · exact Or.inl ⟨fun hba => hbl (hba ▸ List.mem_cons_self), hv⟩
  · obtain rfl : a = b := by simpa using hhead
    exact Or.inr ⟨rfl, ho, hL⟩

/-- If the rule did not find itself in a round, the seed makes no difference. -/
lemma SaysInRound.round_of_not_flagged (h : s.SaysInRound l a r o L) (hf : ¬ r.Flagged 0)
    (seed : Outcome) : s.Round s.Visits a seed o L := by
  obtain ⟨body, hb, hy⟩ := h
  refine ⟨body, hb, hy.mono (fun b o L hsays => ?_) fun _ _ _ hc => hc⟩
  rcases hsays with ⟨hbl, hv⟩ | ⟨-, hflag, -, -⟩
  · exact Or.inl ⟨fun hba => hbl (hba ▸ List.mem_cons_self), hv⟩
  · exact absurd hflag hf

/-! ## What a visit does -/

/-- A visit collects, uses a result again, finds its own frame or enters a frame. -/
lemma matchRule_eq_ok (h : s.matchRule d a.rule a.start r = .ok o r') :
    ∃ n, (s.reached a.start = true ∧ ∃ ph,
        s.collectRule d a.rule (r.visited n (.caret a.start)) = .ok ph r' ∧
          o = ⟨false, a.start, ph⟩) ∨
      s.reached a.start = false ∧
        (r.memo[a]? = some ⟨o, false⟩ ∧ r' = r.visited n (.memoHit a.rule a.start) ∨
        (∃ e : Event, e.isOffer = false ∧ r' = (r.visited n e).mark a ∧
          (r.memo[a]? = some ⟨o, true⟩ ∨ r.memo[a]? = none ∧ a ∈ r.frames.map Frame.spot ∧
            o = ⟨false, a.start, .matching⟩)) ∨
        (r.memo[a]? = none ∧ a ∉ r.frames.map Frame.spot ∧ ∃ e, d = e + 1 ∧
          s.matchInFrame (s.matchRule e) (s.collectRule e) a { r with fuel := n } = .ok o r')) := by
  rw [matchRule.eq_def] at h
  obtain ⟨⟨⟩, r₁, hburn, h⟩ := bind_eq_ok h
  obtain ⟨n, rfl⟩ := burn_eq_ok hburn
  refine ⟨n, ?_⟩
  cases hq : s.reached a.start with
  | true =>
    rw [if_pos hq] at h
    obtain ⟨⟨⟩, r₂, hemit, h⟩ := bind_eq_ok h
    obtain ⟨⟩ := hemit
    obtain ⟨ph, r₃, hcollect, h⟩ := bind_eq_ok h
    obtain ⟨rfl, rfl⟩ := pure_eq_ok h
    exact Or.inl ⟨rfl, ph, hcollect, rfl⟩
  | false =>
    rw [if_neg (ne_true_of_eq_false hq)] at h
    refine Or.inr ⟨rfl, ?_⟩
    obtain ⟨r₂, r₂', hget, h⟩ := bind_eq_ok h
    obtain ⟨⟩ := hget
    dsimp only at h
    cases hm : r.memo[a]? with
    | some e =>
      obtain ⟨o', growing⟩ := e
      rw [hm] at h
      obtain ⟨⟨⟩, r₃, hemit, h⟩ := bind_eq_ok h
      obtain ⟨⟩ := hemit
      cases growing with
      | false =>
        obtain ⟨rfl, rfl⟩ := pure_eq_ok h
        exact Or.inl ⟨rfl, rfl⟩
      | true =>
        obtain ⟨⟨⟩, r₄, hmark, h⟩ := bind_eq_ok h
        obtain ⟨⟩ := hmark
        obtain ⟨rfl, rfl⟩ := pure_eq_ok h
        exact Or.inr (Or.inl ⟨.memoHit a.rule a.start, rfl, rfl, Or.inl rfl⟩)
    | none =>
      rw [hm] at h
      dsimp only at h
      refine Or.inr ?_
      split at h
      · next hany =>
        obtain ⟨⟨⟩, r₃, hemit, h⟩ := bind_eq_ok h
        obtain ⟨⟩ := hemit
        obtain ⟨⟨⟩, r₄, hmark, h⟩ := bind_eq_ok h
        obtain ⟨⟩ := hmark
        obtain ⟨rfl, rfl⟩ := pure_eq_ok h
        exact Or.inl ⟨.leftRecursion a.rule a.start, rfl, rfl,
          Or.inr ⟨rfl, by simpa using hany, rfl⟩⟩
      · next hany =>
        cases d with
        | zero => cases h
        | succ e => exact Or.inr ⟨rfl, by simpa using hany, e, rfl, h⟩

/-! ## Rounds -/

/-- A rule is asked for where it is to be matched in the frame of `a`. -/
def AskedWithin (s : Session) (a b : Spot) : Prop :=
  ∃ n rest, s.Within a (n :: rest) b.start ∧ n.symbol = .rule b.rule

/-- Matching in the frame of a rule is guided by what is left of its sequences. -/
lemma guide_within (hq : s.reached a.start = false) :
    s.Guide s.Lawful (s.Within a) (s.AskedWithin a) where
  ask h hn := ⟨_, _, h, hn⟩
  skip h hr := h.next (Nat.le_refl _) fun _ _ => .skip hr .nil
  le _ hn := hn.lawful.le
  stay _ hn := hn.lawful.stop_eq
  next h hn _ := by
    have hnext := h.after hq hn.lawful
    exact ⟨hnext.1, fun _ => hnext.2⟩

/-- The plan of a body asks for rules only where they are to be matched. -/
lemma mirrors_matchBody (hq : s.reached a.start = false) {body : RuleBody RuleId}
    (hb : s.model.body a.rule = .ok body) :
    Plan.Mirrors (· = ·) (s.AskedWithin a) s.Lawful (Outcome.Mirrors (· = ·))
      (Plan.matchBody s a.start body) (Plan.matchBody s a.start body) := by
  refine (Mirror.refl s).matchBody (guide_within hq) ?_ rfl fun _ => ⟨rfl, rfl, rfl⟩
  rintro list rfl q hmem
  exact .entry hb hmem

/-- Collecting inside frames adds what it is said to. -/
lemma adds_collect (d : Nat) (rule : RuleId) :
    (s.tellRegime l k).Adds (s.collectRule d rule) fun _ ph L => s.Gathers [] rule ph L := by
  intro r ph r' hr hrun
  obtain ⟨-, hext, L, hg, hL⟩ := s.adds_collectRule d rule [] r ph r' hr.1.2 hrun
  obtain ⟨hr', hlater⟩ := allowsOffers_tellRegime r r' hr hext
  exact ⟨hr', hlater, L, hg, hL⟩

/-- Visits of rules inside frames, with at most `d` further rules inside each other, add what they
are said to. -/
def VisitsTold (s : Session) (d : Nat) : Prop :=
  ∀ l a, s.model.DirectFrom a.rule → s.Entered l d a →
    (s.tellRegime l l).Adds (s.matchRule d a.rule a.start) fun r o L =>
      s.Lawful a o ∧ s.Says l r a o L

/-- A round in a frame adds what it is said to. -/
lemma adds_matchBody (ih : s.VisitsTold d) (hd : s.model.DirectFrom a.rule)
    (h : s.Entered l (d + 1) a) (hq : s.reached a.start = false) (hal : a ∉ l) :
    (s.tellRegime (a :: l) (a :: l)).Adds (s.matchBody (s.matchRule d) (s.collectRule d) a)
      fun r o L => s.Lawful a o ∧ s.SaysInRound l a r o L := by
  intro r o r' hr hrun
  have hround := (keeps_body h hq hal fun j b hb => visiting_frameRegime.rule hb).ok hr.1 hrun
  have hlawful : s.Lawful a o := lawful_of_answersWithin hround.2.2
  cases hb : s.model.body a.rule with
  | error e =>
    simp only [matchBody, hb] at hrun
    cases hrun
  | ok body =>
    rw [matchBody_eq_run a hb] at hrun
    have hplan : (s.tellRegime (a :: l) (a :: l)).Adds
        ((Plan.matchBody s a.start body).run (s.matchRule d) (s.collectRule d)) fun r o L =>
          (Plan.matchBody s a.start body).Yields (s.Says (a :: l) r) (s.Gathers []) o L := by
      refine Plan.Mirrors.adds allowsOffers_tellRegime (fun hl hsays => hsays.later hl) ?_
        (adds_collect d) (mirrors_matchBody hq hb)
      rintro b ⟨n, rest, hwithin, hn⟩
      exact ih (a :: l) b (hd.refers (hwithin.refers hn)) (hwithin.entered h hq hal hn)
    obtain ⟨hr', hlater, L, hy, hL⟩ := hplan r o r' hr hrun
    exact ⟨hr', hlater, L, ⟨hlawful, body, hb, hy⟩, hL⟩

/-- A run moves on without changing fewer results. -/
lemma movesOn_tail (h : Run.MovesOn (a :: l) r r') : Run.MovesOn l r r' :=
  ⟨fun b hb => h.kept b (List.mem_cons_of_mem a hb), h.flagged, h.finished⟩

/-- Growing a rule in its frame adds what its rounds are said to. -/
lemma adds_grow (hal : a ∉ l) (hv : s.model.WellFormed → a.rule.index < s.model.ruleCount)
    {x : Walk Outcome} (hx : (s.tellRegime (a :: l) (a :: l)).Adds x fun r o L =>
      s.Lawful a o ∧ s.SaysInRound l a r o L) {count : Nat} (hbest : s.Lawful a best) :
    (s.tellRegime (a :: l) l).Adds (Session.grow x a count best) fun _ o L =>
      s.Lawful a o ∧ s.Grows s.Visits a count best o L := by
  induction count generalizing best with
  | zero => exact .pure fun _ _ => ⟨hbest, .spent⟩
  | succ count ih =>
    intro r o r' hr hrun
    obtain ⟨⟨⟨hspots, hmemo⟩, hcollecting⟩, htold⟩ := hr
    obtain ⟨⟨⟩, r₁, hinsert, hrun⟩ := bind_eq_ok hrun
    obtain ⟨⟩ := hinsert
    obtain ⟨o₁, r₂, hbody, hrun⟩ := bind_eq_ok hrun
    -- the best result so far is the seed of the round
    have hgrowing : s.Remembered (a :: l) a ⟨best, true⟩ :=
      ⟨hbest, hv, fun _ => List.mem_cons_self, nofun⟩
    have hr₁ : (s.tellRegime (a :: l) (a :: l)).inv
        { r with memo := r.memo.insert a ⟨best, true⟩ } :=
      ⟨⟨⟨hspots, .insert (fun b k _ hb => hmemo b k hb) hgrowing⟩, hcollecting⟩,
        htold.insert_growing⟩
    have hlater₁ : Run.MovesOn l r { r with memo := r.memo.insert a ⟨best, true⟩ } := by
      refine .except hal hmemo.not_finished fun b hab => ?_
      rw [getElem?_memo_insert, if_neg hab]
    obtain ⟨hr₂, hlater₂, L, ⟨hlawful, hsays⟩, hL⟩ := hx _ o₁ r₂ hr₁ hbody
    have hlater := hlater₁.trans (movesOn_tail hlater₂)
    have hseed : r₂.seed a = best := by
      rw [Run.seed_congr (hlater₂.kept a List.mem_cons_self), Run.seed, getElem?_memo_insert,
        if_pos rfl]
    have hround : s.Round s.Visits a best o₁ L := hseed ▸ hsays.round
    by_cases hbetter : o₁.Exceeds best
    · rw [if_pos (by simpa [Outcome.Exceeds] using hbetter)] at hrun
      obtain ⟨hr', hlater', L', ⟨hlawful', hgrows⟩, hL'⟩ := ih hlawful r₂ o r' hr₂ hrun
      refine ⟨hr', hlater.trans hlater', L ∪ L', ⟨hlawful', .more hround hbetter hgrows⟩, ?_⟩
      rw [hL', hL, Set.union_assoc]
      rfl
    · rw [if_neg (by simpa [Outcome.Exceeds] using hbetter)] at hrun
      obtain ⟨rfl, rfl⟩ := pure_eq_ok hrun
      exact ⟨hr₂, hlater, L, ⟨hbest, .done hround hbetter⟩, hL⟩

/-! ## Visits -/

/-- Matching a rule in its frame adds what a visit of the rule is said to. -/
lemma adds_matchGrown (hq : s.reached a.start = false) (hal : a ∉ l)
    (hv : s.model.WellFormed → a.rule.index < s.model.ruleCount)
    {matchRule : RuleId → Nat → Walk Outcome} {collect : RuleId → Walk Phase}
    (hx : (s.tellRegime (a :: l) (a :: l)).Adds (s.matchBody matchRule collect a) fun r o L =>
      s.Lawful a o ∧ s.SaysInRound l a r o L) (hr : (s.tellRegime (a :: l) l).inv r)
    (hm : r.memo[a]? = none) (hrun : s.matchGrown matchRule collect a r = .ok o r') :
    (s.tellRegime (a :: l) l).inv r' ∧ ∃ L, s.Visits a o L ∧ r'.offers = r.offers ∪ L := by
  obtain ⟨first, r₁, hfirst, hrun⟩ := bind_eq_ok hrun
  obtain ⟨hr₁, hlater, L, ⟨hlawful, hsays⟩, hL⟩ := hx r first r₁ hr hfirst
  have hseed : r₁.seed a = ⟨false, a.start, .matching⟩ := by
    rw [Run.seed_congr (hlater.kept a List.mem_cons_self), Run.seed, hm]
  have hround : s.Round s.Visits a ⟨false, a.start, .matching⟩ first L := hseed ▸ hsays.round
  obtain ⟨r₂, r₃, hget, hrun⟩ := bind_eq_ok hrun
  obtain ⟨⟩ := hget
  split at hrun
  · obtain ⟨hr', -, L', ⟨-, hgrows⟩, hL'⟩ := adds_grow hal hv hx hlawful r₁ o r' hr₁ hrun
    refine ⟨hr', L ∪ L', visits_iff.2 (.matched hq hround hgrows), ?_⟩
    rw [hL', hL, Set.union_assoc]
  · next hflag =>
    -- the rule did not find itself, and a second round would be like the first
    have hf : ¬ r₁.Flagged 0 := fun hf => hflag (Run.head?_any_recursed.2 hf)
    obtain ⟨ho, hr'⟩ := pure_eq_ok hrun
    subst ho hr'
    have hagain := hsays.round_of_not_flagged hf o
    have hnot : ¬ o.Exceeds o := fun h => Nat.lt_irrefl _ h.2
    refine ⟨hr₁, L, visits_iff.2 ?_, hL⟩
    rcases Nat.eq_zero_or_pos (s.stream.size + 1 - o.stop) with hcount | hcount
    · have hgrows : s.Grows s.Visits a (s.stream.size + 1 - o.stop) o o ∅ :=
        hcount ▸ .spent
      simpa using VisitStep.matched hq hround hgrows
    · obtain ⟨count, hcount⟩ := Nat.exists_eq_succ_of_ne_zero hcount.ne'
      have hgrows : s.Grows s.Visits a (s.stream.size + 1 - o.stop) o o L :=
        hcount ▸ .done hagain hnot
      simpa using VisitStep.matched hq hround hgrows

lemma adds_matchInFrame (hq : s.reached a.start = false) (hal : a ∉ l)
    (hv : s.model.WellFormed → a.rule.index < s.model.ruleCount)
    {matchRule : RuleId → Nat → Walk Outcome} {collect : RuleId → Walk Phase}
    (hx : (s.tellRegime (a :: l) (a :: l)).Adds (s.matchBody matchRule collect a) fun r o L =>
      s.Lawful a o ∧ s.SaysInRound l a r o L) (hr : (s.tellRegime l k).inv r)
    (hm : r.memo[a]? = none) (hrun : s.matchInFrame matchRule collect a r = .ok o r') :
    s.Told r' ∧ ∃ L, s.Visits a o L ∧ r'.offers = r.offers ∪ L := by
  rw [matchInFrame_eq] at hrun
  obtain ⟨⟨⟩, r₁, hemit, hrun⟩ := bind_eq_ok hrun
  obtain ⟨⟩ := hemit
  obtain ⟨⟨⟩, r₂, henter, hrun⟩ := bind_eq_ok hrun
  obtain ⟨⟩ := henter
  obtain ⟨o₁, r₃, hgrown, hrun⟩ := bind_eq_ok hrun
  obtain ⟨⟨⟩, r₄, hleave, hrun⟩ := bind_eq_ok hrun
  obtain ⟨⟨⟩, r₅, hexit, hrun⟩ := bind_eq_ok hrun
  obtain ⟨⟩ := hexit
  obtain ⟨rfl, rfl⟩ := pure_eq_ok hrun
  -- the run in the new frame
  have hnote : r.Extends { r with events := .enter a.rule a.start :: r.events } := .note rfl
  obtain ⟨⟨⟨⟨hspots, hmemo⟩, hcollecting⟩, htold⟩, -⟩ := allowsOffers_tellRegime _ _ hr hnote
  have hinside : (s.tellRegime (a :: l) l).inv
      (Run.enter a { r with events := .enter a.rule a.start :: r.events }) :=
    ⟨⟨⟨congrArg (a :: ·) hspots, hmemo.enter hm⟩, hcollecting⟩, ⟨htold.reflects, htold.finished⟩⟩
  obtain ⟨hr₃, L, hvisits, hL⟩ := adds_matchGrown hq hal hv hx hinside hm hgrown
  have hoffers : r₃.offers = r.offers ∪ L := by
    have henter : Run.offers (Run.enter a { r with events := .enter a.rule a.start :: r.events }) =
        r.offers := Run.offers_of_events (e := .enter a.rule a.start) rfl rfl
    rw [hL, henter]
  have hsub : L ⊆ r₃.offers := hoffers ▸ Set.subset_union_right
  obtain ⟨htold₄, hoffers₄⟩ := hr₃.2.leave hvisits hsub hleave
  refine ⟨htold₄.of_extends (.note rfl), L, hvisits, ?_⟩
  rw [Run.offers_of_events (r := r₄) (e := .exit a.rule o.matched o.stop o.phase) rfl rfl, hoffers₄,
    hoffers]

/-- **A visit inside frames adds what it is said to.** -/
theorem visitsTold (s : Session) (d : Nat) : s.VisitsTold d := by
  induction d using Nat.strong_induction_on with
  | _ d ih =>
    intro l a hd h r o r' hr hrun
    obtain ⟨hinv', hlater, hanswer⟩ := (visiting_frameRegime.rule h).ok hr.1 hrun
    obtain ⟨⟨⟨hspots, hmemo⟩, hcollecting⟩, htold⟩ := hr
    have hlawful : s.Lawful a o := hanswer.lawful
    obtain ⟨n, hcases⟩ := matchRule_eq_ok hrun
    rcases hcases with ⟨hq, ph, hcollect, rfl⟩ | ⟨hq, ⟨hm, rfl⟩ | ⟨e, he, rfl, hself⟩ |
      ⟨hm, hnew, e, rfl, hframe⟩⟩
    · have hvisited : r.Extends (r.visited n (.caret a.start)) := .visited rfl
      obtain ⟨-, hext, L, hg, hL⟩ := s.adds_collectRule d a.rule []
        (r.visited n (.caret a.start)) ph r' hcollecting hcollect
      have hal : a ∉ l := fun hal => absurd hq (ne_true_of_eq_false (h.isOpen a hal))
      refine ⟨⟨hinv', htold.of_extends (hvisited.trans hext)⟩, hlater, L,
        ⟨hlawful, Or.inl ⟨hal, visits_iff.2 (.collected hq hg)⟩⟩, ?_⟩
      rw [hL, Run.offers_of_events (r := r) (e := .caret a.start) rfl rfl]
    · have hvisited : r.Extends (r.visited n (.memoHit a.rule a.start)) := .visited rfl
      obtain ⟨L, hv, hL⟩ := htold.finished a o hm
      have hal : a ∉ l := ((hmemo a _ hm).settled rfl).1
      refine ⟨⟨hinv', htold.of_extends hvisited⟩, hlater, L, ⟨hlawful, Or.inl ⟨hal, hv⟩⟩, ?_⟩
      rw [Run.offers_of_events (r := r) (e := .memoHit a.rule a.start) rfl rfl,
        Set.union_eq_self_of_subset_right hL]
    · -- the rule is entered again, and only by itself
      have hal : a ∈ l := by
        rcases hself with hm | ⟨-, hmem, -⟩
        · exact (hmemo a _ hm).active rfl
        · exact hspots ▸ hmem
      have hhead : l.head? = some a := h.linked.head?_eq hd hal
      have hseed : o = r.seed a := by
        rcases hself with hm | ⟨hm, -, rfl⟩ <;> simp [Run.seed, hm]
      have hflag : ((r.visited n e).mark a).Flagged 0 :=
        Run.flagged_mark_head (hspots.symm ▸ hhead)
      have htold' := htold.of_extends (Run.Extends.visited (n := n) he)
      refine ⟨⟨hinv', ⟨htold'.reflects, htold'.finished⟩⟩, hlater, ∅,
        ⟨hlawful, Or.inr ⟨hhead, hflag, hseed, rfl⟩⟩, ?_⟩
      rw [Set.union_empty, Run.offers_of_events (r := r) he rfl]
    · have hal : a ∉ l := hspots ▸ hnew
      have hv : s.model.WellFormed → a.rule.index < s.model.ruleCount :=
        fun hwf => h.valid hwf a List.mem_cons_self
      have hbody := adds_matchBody (ih e (Nat.lt_succ_self e)) hd h hq hal
      have hr₁ : (s.tellRegime l l).inv { r with fuel := n } :=
        ⟨⟨⟨hspots, hmemo⟩, hcollecting⟩, ⟨htold.reflects, htold.finished⟩⟩
      obtain ⟨htold', L, hvisits, hL⟩ := adds_matchInFrame hq hal hv hbody hr₁ hm hframe
      exact ⟨⟨hinv', htold'⟩, hlater, L, ⟨hlawful, Or.inl ⟨hal, hvisits⟩⟩, hL⟩

/-- **A fresh walk over a rule offers what the visit of the rule is said to**, if only direct left
recursion can be reached from it. -/
theorem fresh_visits (hd : s.model.DirectFrom a.rule)
    (hv : s.model.WellFormed → a.rule.index < s.model.ruleCount) (h : s.fresh a = .ok o r) :
    s.Visits a o r.offers ∧ r.candidates.Reflects r.offers := by
  have hentered : s.Entered [] s.limits.depth a :=
    ⟨List.pairwise_singleton _ _, List.forall_mem_nil _, List.nodup_nil, rfl,
      fun hwf => by simpa using hv hwf⟩
  have hoffers : s.start.offers = ∅ := by
    ext e
    simp [Run.mem_offers, start]
  have hstart : (s.tellRegime [] []).inv s.start := by
    refine ⟨inv_start, ?_, fun a o ha => by simp [start] at ha⟩
    exact hoffers ▸ .empty
  obtain ⟨hr, -, L, ⟨-, hsays⟩, hL⟩ := s.visitsTold s.limits.depth [] a hd hentered _ o r hstart h
  rw [hoffers, Set.empty_union] at hL
  rcases hsays with ⟨-, hv⟩ | ⟨hhead, -⟩
  · exact ⟨hL ▸ hv, hr.2.reflects⟩
  · simp at hhead

/-- **A walk offers what the visit of its root is said to**, if only direct left recursion can be
reached from the root. -/
theorem walk_visits {root : RuleId} (hd : s.model.DirectFrom root)
    (hroot : root.index < s.model.ruleCount) (h : s.walk root = .ok o r) :
    ∃ L, s.Visits ⟨root, s.stream.skipHidden 0⟩ o L ∧ r.candidates.Reflects L :=
  ⟨r.offers, fresh_visits (a := ⟨root, s.stream.skipHidden 0⟩) hd (fun _ => hroot) h⟩

end Session

end GrammarCompletion
