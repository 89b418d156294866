/-
# Visits settle rules

Every visit of a rule stays within the regime of the frames around it (`visiting_frameRegime`).
Hence a whole walk does: it leaves finished results to which their rules settle behind, also when
it ends with an error, and in a well-formed model it can only end with an error if it runs out of
fuel or the limit of the depth is below `Session.depthBound`.
-/
import GrammarCompletion.Proofs.Recursion.Settling

namespace GrammarCompletion

open Walk

namespace Session

variable {s : Session} {l : List Spot} {a : Spot} {o : Outcome} {r : Run} {d : Nat}

/-- There is room for collecting inside the frame of a rule that is entered. -/
lemma Entered.roomInside (h : s.Entered l (d + 1) a) (hq : s.reached a.start = false)
    (hal : a ∉ l) : s.Room (a :: l) d [] := by
  refine ⟨List.forall_mem_cons.2 ⟨hq, h.isOpen⟩, List.nodup_cons.2 ⟨hal, h.nodup⟩, h.valid,
    List.nodup_nil, fun _ => List.forall_mem_nil _, ?_⟩
  have hdepth := h.depth_eq
  rw [List.length_cons, List.length_nil]
  omega

/-- A round in the frame of a rule, given that visits of the rules inside it settle them. -/
lemma keeps_body (h : s.Entered l (d + 1) a) (hq : s.reached a.start = false) (hal : a ∉ l)
    (ih : ∀ j b, s.Entered j d b → ((s.frameRegime j j).inside []).Keeps
      (s.matchRule d b.rule b.start) fun o r => s.Answers j r b o) :
    (s.roundRegime l a).Keeps (s.matchBody (s.matchRule d) (s.collectRule d) a) fun o r =>
      s.BodyMatches (s.AnswersWithin l a r) a o := by
  refine (matching_frameRegime hq).body ?_ ?_ ?_ ?_
  · intro n rest p id hwithin hn
    refine (ih (a :: l) ⟨id, p⟩ (hwithin.entered h hq hal hn)).mono fun o r _ ho => ?_
    exact ⟨ho, fun hd => hd.refers (hwithin.refers hn)⟩
  · intro nodes hdue
    exact collecting_frameRegime.collectNodes ⟨h.roomInside hq hal, hdue⟩
  · exact fun list hb q hmem => .entry hb hmem
  · intro e he r hr
    refine hr.1.breaks fun hwf _ => ?_
    exact absurd he (body_ok (h.valid hwf a List.mem_cons_self))

/-- The frame of a rule that is entered again is marked. -/
lemma mark_frameRegime (hr : ((s.frameRegime l l).inside []).inv r) :
    ((s.frameRegime l l).inside []).inv (r.mark a) ∧
      ((s.frameRegime l l).inside []).later r (r.mark a) := by
  obtain ⟨⟨hspots, hmemo⟩, hcollecting⟩ := hr
  refine ⟨⟨⟨?_, hmemo⟩, hcollecting⟩, fun _ _ => rfl, fun _ hf => hf.mark a, fun _ _ h => h⟩
  rw [Run.map_spot_mark, hspots]

/-- The answer of a rule that is entered again at its own spot is the seed. -/
lemma answers_again (h : s.Entered l d a) (hr : ((s.frameRegime l l).inside []).inv r)
    (hal : a ∈ l) (ho : s.Lawful a o) (hseed : o = r.seed a) : s.Answers l (r.mark a) a o := by
  refine ⟨ho, fun hd => Or.inr ?_⟩
  have hhead : l.head? = some a := h.linked.head?_eq hd hal
  refine ⟨hhead, ?_, ?_⟩
  · exact Run.flagged_mark_head (by rw [hr.1.spots, hhead])
  · rw [hseed]
    exact (Run.seed_congr (by rw [Run.memo_mark])).symm

/-- **A visit of a rule stays within the regime of the frames around it.** -/
theorem visiting_frameRegime : Regime.Visiting s (fun l => (s.frameRegime l l).inside [])
    (fun l d a => s.Entered l d a) fun l r a o => s.Answers l r a o where
  events _ := collecting_frameRegime.events.inside []
  fuel _ := collecting_frameRegime.fuel.inside []
  collect {l d a} h hq := by
    have hcall := (collecting_frameRegime (l := l) (k := l)).rule (r := a.rule)
      ⟨h.room, fun hwf => h.valid hwf a List.mem_cons_self⟩
    refine hcall.mono fun ph r _ hph => ?_
    refine ⟨⟨lawfulFor_of_reached (Nat.le_refl _) hq, fun _ => rfl⟩, fun _ => ?_⟩
    refine Or.inl ⟨fun hal => ?_, settles_reached hq hph⟩
    -- at the spots of frames the caret is not reached
    exact absurd hq (ne_true_of_eq_false (h.isOpen a hal))
  known _ _ hr hm := by
    have hmemo := hr.1.memo _ _ hm
    obtain ⟨hal, hs⟩ := hmemo.settled rfl
    exact ⟨hmemo.lawful, fun hd => Or.inl ⟨hal, hs hd⟩⟩
  unfinished {l d a r o} h hq hr hm := by
    have hmemo := hr.1.memo _ _ hm
    have hseed : o = r.seed a := by simp [Run.seed, hm]
    have hmark := mark_frameRegime (a := a) hr
    exact ⟨hmark.1, hmark.2, answers_again h hr (hmemo.active rfl) hmemo.lawful hseed⟩
  guard {l d a r} h hq hr hm hmem := by
    have hal : a ∈ l := hr.1.spots ▸ hmem
    have hevent := (allowsEvents_frameRegime.inside []) r (.leftRecursion a.rule a.start) trivial hr
    have hseed : (⟨false, a.start, .matching⟩ : Outcome) =
        (r.record (.leftRecursion a.rule a.start)).seed a := by simp [Run.record, Run.seed, hm]
    have hmark := mark_frameRegime (a := a) hevent.1
    exact ⟨hmark.1, hevent.2.trans hmark.2, answers_again h hevent.1 hal lawful_failed hseed⟩
  limit {l a r} h hq hr hmem := by
    refine hr.1.breaks fun hwf hbound => ?_
    have hal : a ∉ l := hr.1.spots ▸ hmem
    -- one more frame would be too many
    have hlength := length_frames_le (List.nodup_cons.2 ⟨hal, h.nodup⟩)
      (List.forall_mem_cons.2 ⟨hq, h.isOpen⟩) (h.valid hwf)
    have hdepth := h.depth_eq
    rw [depthBound, Nat.mul_succ] at hbound
    rw [List.length_cons] at hlength
    omega
  frame {l d a} h hq ih := by
    refine .intro (P := a ∉ l) (fun r hr hm => hr.1.spots ▸ hm.2) fun hal => ?_
    have hv : s.model.WellFormed → a.rule.index < s.model.ruleCount :=
      fun hwf => h.valid hwf a List.mem_cons_self
    refine (keeps_matchInFrame hal hv ?_).weaken fun r hr => hr.1
    exact keeps_matchGrown hq hal hv (keeps_body h hq hal ih)

end Session

end GrammarCompletion
