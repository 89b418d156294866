/-
# The frames of a walk

The frames of a run stand for the rules that are being matched.  Each was entered from the one
outside it, so its position is the same or a later one, and where it is the same the outer rule
reaches the inner one from the left (`Linked`).  Hence a rule from which only direct left recursion
can be reached is entered twice only by itself (`Linked.head?_eq`).

There are only so many frames: no spot has two of them, and input is left at every spot
(`length_frames_le`).
-/
import GrammarCompletion.Proofs.Recursion.Lawful
import GrammarCompletion.Proofs.Walk.Visiting
import Mathlib.Data.List.Nodup
import Mathlib.Data.List.Perm.Subperm
import Mathlib.Data.List.ProdSigma

namespace GrammarCompletion

/-! ## Marks -/

namespace Run

/-- The frame at a place, counted from the innermost one, is marked as left-recursive. -/
def Flagged (r : Run) (i : Nat) : Prop := ∃ f, r.frames[i]? = some f ∧ f.recursed = true

/-- What a rule finds that is entered at a spot where it is being matched. -/
def seed (r : Run) (a : Spot) : Outcome :=
  match r.memo[a]? with
  | some e => e.outcome
  | none => ⟨false, a.start, .matching⟩

variable {r r' : Run} {a : Spot} {i : Nat}

lemma head?_any_recursed : r.frames.head?.any Frame.recursed = true ↔ r.Flagged 0 := by
  cases h : r.frames <;> simp [Flagged, h]

lemma seed_congr (h : r'.memo[a]? = r.memo[a]?) : r'.seed a = r.seed a := by
  simp only [seed, h]

@[simp] lemma memo_mark : (r.mark a).memo = r.memo := rfl

@[simp] lemma map_spot_mark : (r.mark a).frames.map Frame.spot = r.frames.map Frame.spot := by
  cases h : Frame.mark a r.frames with
  | none => simp [mark, h]
  | some l => simpa [mark, h] using Frame.map_spot_mark h

end Run

lemma Frame.recursed_mark {a : Spot} {l l' : List Frame} (h : mark a l = some l') {i : Nat}
    {f : Frame} (hf : l[i]? = some f) (hr : f.recursed = true) :
    ∃ f', l'[i]? = some f' ∧ f'.recursed = true := by
  induction l generalizing l' i with
  | nil => simp [mark] at h
  | cons g rest ih =>
    rw [mark] at h
    split at h
    · obtain rfl := Option.some.inj h
      cases i with
      | zero => exact ⟨_, rfl, rfl⟩
      | succ i => exact ⟨f, hf, hr⟩
    · obtain ⟨marked, hm, rfl⟩ := Option.map_eq_some_iff.1 h
      cases i with
      | zero =>
        obtain rfl : g = f := by simpa using hf
        exact ⟨_, rfl, hr⟩
      | succ i => exact ih hm hf

namespace Run

variable {r : Run} {a : Spot} {i : Nat}

lemma Flagged.mark (h : r.Flagged i) (a : Spot) : (r.mark a).Flagged i := by
  obtain ⟨f, hf, hr⟩ := h
  cases hm : Frame.mark a r.frames with
  | none => exact ⟨f, by simpa [Run.mark, hm] using hf, hr⟩
  | some l =>
    obtain ⟨f', hf', hr'⟩ := Frame.recursed_mark hm hf hr
    exact ⟨f', by simpa [Run.mark, hm] using hf', hr'⟩

lemma flagged_mark_head (h : (r.frames.map Frame.spot).head? = some a) : (r.mark a).Flagged 0 := by
  cases hf : r.frames with
  | nil => simp [hf] at h
  | cons f rest =>
    obtain rfl : f.spot = a := by simpa [hf] using h
    exact ⟨{ f with recursed := true }, by simp [Run.mark, hf, Frame.mark], rfl⟩

end Run

/-! ## The order of frames -/

/-- The spots of frames, the innermost one first, each of which was entered from the one outside. -/
def Linked (m : Model) : List Spot → Prop :=
  List.Pairwise fun inner outer => outer.start ≤ inner.start ∧
    (outer.start = inner.start → m.LeftReach outer.rule inner.rule)

namespace Linked

variable {m : Model} {a b : Spot} {l : List Spot}

/-- A rule without left recursion through others can only be entered twice by itself. -/
lemma head?_eq (h : Linked m (a :: l)) (hd : m.DirectFrom a.rule) (ha : a ∈ l) :
    l.head? = some a := by
  obtain ⟨hcall, hl⟩ := List.pairwise_cons.1 h
  cases l with
  | nil => simp at ha
  | cons f l =>
    rcases List.mem_cons.1 ha with rfl | ha
    · rfl
    -- all frames in between start where the rule starts, so the innermost one reaches it and is
    -- reached by it from the left
    obtain ⟨hf, hf'⟩ := hcall f List.mem_cons_self
    obtain ⟨hg, hg'⟩ := (List.pairwise_cons.1 hl).1 a ha
    have hstart : f.start = a.start := Nat.le_antisymm hf hg
    have hrule : f.rule = a.rule := hd.eq (hg' hstart.symm) (hf' hstart)
    obtain ⟨r, p⟩ := f
    obtain ⟨r', p'⟩ := a
    simp_all

/-- A rule that is entered from the innermost frame. -/
lemma enter (h : Linked m (a :: l)) (hle : a.start ≤ b.start)
    (hb : b.start = a.start → m.LeftRefers a.rule b.rule) : Linked m (b :: a :: l) := by
  refine List.pairwise_cons.2 ⟨fun c hc => ?_, h⟩
  rcases List.mem_cons.1 hc with rfl | hc
  · exact ⟨hle, fun heq => .single (hb heq.symm)⟩
  · obtain ⟨hca, hreach⟩ := (List.pairwise_cons.1 h).1 c hc
    refine ⟨hca.trans hle, fun heq => ?_⟩
    have hba : b.start = a.start := Nat.le_antisymm (heq ▸ hca) hle
    exact (hreach (heq.trans hba)).tail (hb hba)

end Linked

/-! ## The number of frames -/

/-- A list without repetition is no longer than one that has a place for each of its elements. -/
lemma length_le_of_injective {α β : Type} {f : α → β} (hf : Function.Injective f) {l : List α}
    {m : List β} (hl : l.Nodup) (h : ∀ a ∈ l, f a ∈ m) : l.length ≤ m.length := by
  have hsubset : l.map f ⊆ m := by
    intro b hb
    obtain ⟨a, ha, rfl⟩ := List.mem_map.1 hb
    exact h a ha
  have hle := (List.subperm_of_subset (List.Nodup.map hf hl) hsubset).length_le
  rwa [List.length_map] at hle

namespace Session

variable {s : Session}

/-- How deep rules can lie inside each other at most. -/
def depthBound (s : Session) : Nat := s.model.ruleCount * (s.stream.size + 1)

/-- There are at most as many spots as there are rules at the positions where they start. -/
lemma length_spots_le {l : List Spot} {positions : List Nat} (hl : l.Nodup)
    (hstart : ∀ a ∈ l, a.start ∈ positions)
    (hvalid : ∀ a ∈ l, a.rule.index < s.model.ruleCount) :
    l.length ≤ s.model.ruleCount * positions.length := by
  -- a spot is a rule and a position
  have hinj : Function.Injective fun a : Spot => (a.rule.index, a.start) := by
    rintro ⟨⟨i⟩, p⟩ ⟨⟨j⟩, q⟩ h
    simpa using h
  have hrange : ∀ a ∈ l, (a.rule.index, a.start) ∈
      List.range s.model.ruleCount ×ˢ positions :=
    fun a ha => List.pair_mem_product.2 ⟨List.mem_range.2 (hvalid a ha), hstart a ha⟩
  have hle := length_le_of_injective hinj hl hrange
  rwa [List.length_product, List.length_range] at hle

/-- There are at most as many frames as there are rules at positions with input. -/
lemma length_frames_le {l : List Spot} (hl : l.Nodup)
    (hopen : ∀ a ∈ l, s.reached a.start = false)
    (hvalid : ∀ a ∈ l, a.rule.index < s.model.ruleCount) :
    l.length ≤ s.model.ruleCount * s.stream.size := by
  have hstart : ∀ a ∈ l, a.start ∈ List.range s.stream.size :=
    fun a ha => List.mem_range.2 (TokenStream.lt_size_of_not_reached (hopen a ha))
  have hle := length_spots_le hl hstart hvalid
  rwa [List.length_range] at hle

/-- There are at most as many rules being collected from as there are rules. -/
lemma length_collecting_le {m : Model} {c : List RuleId} (hc : c.Nodup)
    (hvalid : ∀ r ∈ c, r.index < m.ruleCount) : c.length ≤ m.ruleCount := by
  have hinj : Function.Injective RuleId.index := by
    rintro ⟨i⟩ ⟨j⟩ h
    simpa using h
  have hrange : ∀ r ∈ c, r.index ∈ List.range m.ruleCount :=
    fun r hr => List.mem_range.2 (hvalid r hr)
  have hle := length_le_of_injective hinj hc hrange
  rwa [List.length_range] at hle

end Session

end GrammarCompletion
