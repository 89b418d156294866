/-
# Results that are kept

What a walk remembers, inside given frames.  An unfinished result belongs to the spot of a frame,
and a finished one does not; it is that to which its rule settles, if only direct left recursion
can be reached from the rule (`Session.Remembered`).  The walk does not change the results at the
spots of frames, does not take back that a frame is left-recursive, and never changes a finished
result (`Run.MovesOn`).  These three facts make up the regime of a walk inside frames
(`Session.frameRegime`).

Collecting never looks at what is kept, and in a well-formed model it finds room for every rule
that it descends into, if the limit of the depth is that of `Session.depthBound`.
-/
import GrammarCompletion.Completion
import GrammarCompletion.Proofs.Recursion.Frames
import GrammarCompletion.Proofs.Recursion.Plain
import GrammarCompletion.Proofs.Walk.Collecting

namespace GrammarCompletion

open Walk

/-- Every rule to which the nodes refer is in the model. -/
def Model.ValidNodes (m : Model) (nodes : List (Node RuleId)) : Prop :=
  ∀ n ∈ nodes, ∀ id, n.symbol = .rule id → id.index < m.ruleCount

/-- A run moves on without changing the results at the spots `k`. -/
structure Run.MovesOn (k : List Spot) (r r' : Run) : Prop where
  kept : ∀ a ∈ k, r'.memo[a]? = r.memo[a]?
  flagged : ∀ i, r.Flagged i → r'.Flagged i
  finished : ∀ a : Spot, ∀ o, r.memo[a]? = some ⟨o, false⟩ → r'.memo[a]? = some ⟨o, false⟩

namespace Run.MovesOn

variable {k : List Spot} {r r' r'' : Run} {a : Spot}

lemma refl (r : Run) : MovesOn k r r :=
  ⟨fun _ _ => rfl, fun _ h => h, fun _ _ h => h⟩

lemma trans (h : MovesOn k r r') (h' : MovesOn k r' r'') : MovesOn k r r'' := by
  refine ⟨fun a ha => ?_, fun i hi => ?_, fun a o ha => ?_⟩
  · rw [h'.kept a ha, h.kept a ha]
  · exact h'.flagged i (h.flagged i hi)
  · exact h'.finished a o (h.finished a o ha)

/-- A run that differs in other parts only. -/
lemma of_eq (hmemo : r'.memo = r.memo) (hframes : r'.frames = r.frames) : MovesOn k r r' := by
  refine ⟨fun a _ => by rw [hmemo], fun i hi => ?_, fun a o ha => by rw [hmemo, ha]⟩
  obtain ⟨f, hf, hrec⟩ := hi
  exact ⟨f, by rw [hframes, hf], hrec⟩

/-- The result changes at one spot, which has no finished one. -/
lemma except {memo : Std.TreeMap Spot Memo} (hk : a ∉ k)
    (ha : ∀ o, r.memo[a]? ≠ some ⟨o, false⟩) (hmemo : ∀ b, a ≠ b → memo[b]? = r.memo[b]?) :
    MovesOn k r { r with memo } := by
  refine ⟨fun b hb => ?_, fun _ hi => hi, fun b o hb => ?_⟩
  · have hab : a ≠ b := fun hab => hk (hab ▸ hb)
    exact hmemo b hab
  · have hab : a ≠ b := fun hab => ha o (hab ▸ hb)
    exact (hmemo b hab).trans hb

/-- A frame is left, and the frames outside it are as they were when it was entered. -/
lemma leave (h : MovesOn k (r.enter a) r') : MovesOn k r { r' with frames := r'.frames.tail } := by
  refine ⟨h.kept, fun i hi => ?_, h.finished⟩
  obtain ⟨f, hf, hrec⟩ := h.flagged (i + 1) (by simpa [Flagged, enter] using hi)
  exact ⟨f, by simpa using hf, hrec⟩

end Run.MovesOn

namespace Session

/-- What is true of a result that can be used again, inside the frames at the spots `l`. -/
structure Remembered (s : Session) (l : List Spot) (a : Spot) (e : Memo) : Prop where
  lawful : s.Lawful a e.outcome
  valid : s.model.WellFormed → a.rule.index < s.model.ruleCount
  active : e.growing = true → a ∈ l
  settled : e.growing = false → a ∉ l ∧ (s.model.DirectFrom a.rule → s.Settles a e.outcome)

/-- What is true of all results that can be used again. -/
def MemoHolds (s : Session) (l : List Spot) (memo : Std.TreeMap Spot Memo) : Prop :=
  ∀ a e, memo[a]? = some e → s.Remembered l a e

/-- The finished results are settled. -/
def MemoSettled (s : Session) (memo : Std.TreeMap Spot Memo) : Prop :=
  ∀ a : Spot, ∀ o, memo[a]? = some ⟨o, false⟩ →
    (s.model.WellFormed → a.rule.index < s.model.ruleCount) ∧
      (s.model.DirectFrom a.rule → s.Settles a o)

/-- What is true of a run inside the frames at the spots `l`. -/
structure InFrames (s : Session) (l : List Spot) (r : Run) : Prop where
  spots : r.frames.map Frame.spot = l
  memo : s.MemoHolds l r.memo

/-- What is true of a run that ends with an error: in a well-formed model the fuel ran out, unless
the limit of the depth is too small. -/
structure Breaks (s : Session) (e : CompletionError) (r : Run) : Prop where
  memo : s.MemoSettled r.memo
  exhausted : s.model.WellFormed → s.depthBound ≤ s.limits.depth → ∃ n, e = .fuelExhausted n

/-- The regime of a walk inside the frames at the spots `l`, which does not change the results at
the spots `k`. -/
def frameRegime (s : Session) (l k : List Spot) : Regime where
  inv := s.InFrames l
  later := Run.MovesOn k
  fault := s.Breaks
  refl := .refl
  trans := .trans

variable {s : Session} {l k : List Spot} {a b : Spot} {r r' : Run} {d : Nat}

/-! ## The memo -/

section

variable {memo : Std.TreeMap Spot Memo}

lemma MemoHolds.memoSettled (h : s.MemoHolds l memo) : s.MemoSettled memo :=
  fun a _ ha => ⟨(h a _ ha).valid, ((h a _ ha).settled rfl).2⟩

lemma memoHolds_empty : s.MemoHolds [] ∅ :=
  fun _ _ h => by simp at h

/-- A frame is entered at a spot without a result. -/
lemma MemoHolds.enter (h : s.MemoHolds l memo) (ha : memo[a]? = none) :
    s.MemoHolds (a :: l) memo := by
  intro b e hb
  have hb' := h b e hb
  refine ⟨hb'.lawful, hb'.valid, fun hg => List.mem_cons_of_mem a (hb'.active hg), fun hg => ?_⟩
  obtain ⟨hbl, hs⟩ := hb'.settled hg
  refine ⟨fun hmem => ?_, hs⟩
  rcases List.mem_cons.1 hmem with rfl | hmem
  · exact absurd (ha.symm.trans hb) (by simp)
  · exact hbl hmem

/-- A result at another spot is not concerned when the innermost frame is left. -/
lemma Remembered.leave {e : Memo} (h : s.Remembered (a :: l) b e) (hab : a ≠ b) :
    s.Remembered l b e := by
  refine ⟨h.lawful, h.valid, fun hg => ?_, fun hg => ?_⟩
  · exact (List.mem_cons.1 (h.active hg)).resolve_left fun hba => hab hba.symm
  · obtain ⟨hbl, hs⟩ := h.settled hg
    exact ⟨fun hmem => hbl (List.mem_cons_of_mem a hmem), hs⟩

lemma MemoHolds.insert {e : Memo} (h : ∀ b k, a ≠ b → memo[b]? = some k → s.Remembered l b k)
    (ha : s.Remembered l a e) : s.MemoHolds l (memo.insert a e) :=
  forall_memo_insert h ha

lemma MemoHolds.erase (h : s.MemoHolds (a :: l) memo) : s.MemoHolds l (memo.erase a) :=
  forall_memo_erase fun b k hab hb => (h b k hb).leave hab

end

/-! ## Collecting -/

/-- There is room for collecting inside frames and rules that are being collected from. -/
structure Room (s : Session) (l : List Spot) (d : Nat) (c : List RuleId) : Prop where
  isOpen : ∀ b ∈ l, s.reached b.start = false
  nodup : l.Nodup
  valid : s.model.WellFormed → ∀ b ∈ l, b.rule.index < s.model.ruleCount
  nodup_collecting : c.Nodup
  valid_collecting : s.model.WellFormed → ∀ r ∈ c, r.index < s.model.ruleCount
  depth_eq : d + l.length + c.length = s.limits.depth

lemma Room.enter {c : List RuleId} {q : RuleId} (h : s.Room l (d + 1) c) (hq : q ∉ c)
    (hv : s.model.WellFormed → q.index < s.model.ruleCount) : s.Room l d (q :: c) := by
  refine ⟨h.isOpen, h.nodup, h.valid, List.nodup_cons.2 ⟨hq, h.nodup_collecting⟩,
    fun hwf => List.forall_mem_cons.2 ⟨hv hwf, h.valid_collecting hwf⟩, ?_⟩
  have hdepth := h.depth_eq
  rw [List.length_cons]
  omega

/-- The bound on the depth leaves room for one more rule. -/
lemma Room.pos {c : List RuleId} {q : RuleId} (h : s.Room l d c) (hq : q ∉ c)
    (hwf : s.model.WellFormed) (hv : q.index < s.model.ruleCount)
    (hbound : s.depthBound ≤ s.limits.depth) : 0 < d := by
  -- frames and rules that are being collected from share the depth
  have hl := length_frames_le h.nodup h.isOpen (h.valid hwf)
  have hc := length_collecting_le (List.nodup_cons.2 ⟨hq, h.nodup_collecting⟩)
    (List.forall_mem_cons.2 ⟨hv, h.valid_collecting hwf⟩)
  have hdepth := h.depth_eq
  rw [depthBound, Nat.mul_succ] at hbound
  rw [List.length_cons] at hc
  omega

lemma body_ok {q : RuleId} (hv : q.index < s.model.ruleCount) {e : Defect} :
    s.model.body q ≠ .error e := by
  obtain ⟨x, hx⟩ : ∃ x, s.model.rules.entries[q.index]? = some x :=
    ⟨_, List.getElem?_eq_getElem hv⟩
  have hb : s.model.body q = .ok x.2 := Model.body_eq_ok_iff.2 ⟨x.1, hx⟩
  simp [hb]

lemma InFrames.breaks {e : CompletionError} (hr : s.InFrames l r)
    (he : s.model.WellFormed → s.depthBound ≤ s.limits.depth → ∃ n, e = .fuelExhausted n) :
    s.Breaks e r :=
  ⟨hr.memo.memoSettled, he⟩

/-- Neither the events nor the fuel, the candidates and the rules that are being collected from are
looked at. -/
lemma InFrames.of_eq (hr : s.InFrames l r) (hmemo : r'.memo = r.memo)
    (hframes : r'.frames = r.frames) :
    s.InFrames l r' ∧ Run.MovesOn k r r' :=
  ⟨⟨hframes ▸ hr.spots, hmemo ▸ hr.memo⟩, .of_eq hmemo hframes⟩

lemma allowsEvents_frameRegime : (s.frameRegime l k).AllowsEvents fun _ => True :=
  fun _ _ _ hr => hr.of_eq rfl rfl

lemma collecting_frameRegime : (s.frameRegime l k).Collecting s
    (fun d c q => s.Room l d c ∧ (s.model.WellFormed → q.index < s.model.ruleCount))
    (fun d c nodes => s.Room l d c ∧ (s.model.WellFormed → s.model.ValidNodes nodes)) where
  events := allowsEvents_frameRegime.mono fun _ _ => trivial
  fuel := ⟨fun _ _ hr => hr.of_eq rfl rfl, fun _ hr => hr.breaks fun _ _ => ⟨_, rfl⟩⟩
  stack _ _ hr := hr.of_eq rfl rfl
  offerNode _ _ _ _ _ _ hr := hr.of_eq rfl rfl
  offerSet _ _ _ _ _ hr := hr.of_eq rfl rfl
  offerRule _ _ _ hr := hr.of_eq rfl rfl
  skip h _ := ⟨h.1, fun hwf n hn => h.2 hwf n (List.mem_cons_of_mem _ hn)⟩
  next h _ _ := ⟨h.1, fun hwf n hn => h.2 hwf n (List.mem_cons_of_mem _ hn)⟩
  call h hn := ⟨h.1, fun hwf => h.2 hwf _ List.mem_cons_self _ hn⟩
  enter h hq hb hmem := ⟨h.1.enter hq h.2, fun hwf => hwf _ (Model.mem_sequences hb hmem)⟩
  defect h he _ hr := InFrames.breaks hr fun hwf _ => absurd he (body_ok (h.2 hwf))
  limit h hq _ hr := InFrames.breaks hr fun hwf hbound =>
    absurd (h.1.pos hq hwf (h.2 hwf) hbound) (Nat.lt_irrefl 0)

end Session

end GrammarCompletion
