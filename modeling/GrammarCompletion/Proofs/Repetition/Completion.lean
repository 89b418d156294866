/-
# Completions behind copies in a row

The completion behind a row of copies does not depend on how many there are
(`Session.complete_copies`).  What is done in the last copy is done alike however many copies there are
before it (`Session.ParsesNode.lastCopy`), and behind it the same may follow.

For whether the text is fully parsed this is so without further conditions.
For the candidates, what is offered at a copy must be offered at the last one too: a node may look past
the end of a copy, and then the text that is complete may also be the beginning of something longer
(`Session.copies_examples`).
-/
import GrammarCompletion.Proofs.Reference.Completion
import GrammarCompletion.Proofs.Repetition.Matching

namespace GrammarCompletion

namespace Session

variable {s s' : Session} {v : List TokenId} {m m' k k' p p' : Nat} {n : Node RuleId}
  {rest : List (Node RuleId)} {root : RuleId} {name : String} {C C' : Gather} {b o o' : Outcome}
  {L L' : Set Event} {ph : Phase} {c c' : Completion}

/-! ## The last copy -/

/-- Positions in the last of `k + 1` and the last of `k' + 1` copies, which have a length. -/
def SameInLast (w k k' p p' : Nat) : Prop := ∃ j ≤ w, p = k * w + j ∧ p' = k' * w + j

section

variable (hmodel : s'.model = s.model) (h : s.Copies v (k + 1)) (h' : s'.Copies v (k' + 1))

include hmodel h h'

omit hmodel in
/-- In the last copy both texts have the same tokens, and then the end of the input. -/
lemma kind_lastCopy (hp : SameInLast v.length k k' p p') : s'.stream.kind p' = s.stream.kind p := by
  obtain ⟨j, hj, rfl, rfl⟩ := hp
  rcases Nat.lt_or_eq_of_le hj with hlt | rfl
  · rw [h.kind_last hlt, h'.kind_last hlt]
  · have hend := h.kind_size
    have hend' := h'.kind_size
    rw [Nat.add_mul, Nat.one_mul] at hend hend'
    rw [hend, hend']

omit hmodel in
lemma atEnd_lastCopy (hp : SameInLast v.length k k' p p') :
    s'.stream.atEnd p' = s.stream.atEnd p := by
  obtain ⟨j, -, rfl, rfl⟩ := hp
  simp [TokenStream.atEnd, h.size_eq, h'.size_eq, Nat.add_mul]

omit hmodel in
lemma reached_lastCopy (hp : SameInLast v.length k k' p p') : s'.reached p' = s.reached p := by
  obtain ⟨j, -, rfl, rfl⟩ := hp
  rw [Bool.eq_iff_iff, h.reached_iff, h'.reached_iff]
  simp [Nat.add_mul]

omit hmodel in
lemma advance_lastCopy (hp : SameInLast v.length k k' p p') :
    SameInLast v.length k k' (s.stream.advance p) (s'.stream.advance p') := by
  have hend := atEnd_lastCopy h h' hp
  obtain ⟨j, hj, rfl, rfl⟩ := hp
  cases hq : s.stream.atEnd (k * v.length + j) with
  | true =>
    rw [TokenStream.advance, TokenStream.advance, if_pos hq, if_pos (hend.trans hq)]
    exact ⟨j, hj, rfl, rfl⟩
  | false =>
    have hlt : k * v.length + j < s.stream.size := by simpa [TokenStream.atEnd] using hq
    have hlt' : k' * v.length + j < s'.stream.size := by
      simpa [TokenStream.atEnd] using hend.trans hq
    have hj' : j < v.length := by
      rw [h.size_eq, Nat.add_mul, Nat.one_mul] at hlt
      omega
    rw [h.advance_eq hlt, h'.advance_eq hlt']
    exact ⟨j + 1, hj', rfl, rfl⟩

/-- What is done in the last copy does not depend on how many there are before. -/
lemma mirror_lastCopy : s.Mirror s' (SameInLast v.length k k') fun _ _ => True where
  ignores t := by rw [hmodel]
  lt_iff := by
    rintro _ _ _ _ ⟨i, -, rfl, rfl⟩ ⟨j, -, rfl, rfl⟩
    omega
  reached := reached_lastCopy h h'
  atEnd _ := atEnd_lastCopy h h'
  token {n _ p p' id} _ _ hp := by
    simp only [matchToken, kind_lastCopy h h' hp, atEnd_lastCopy h h' hp]
    generalize (if n.any = true then !s.stream.atEnd p else decide (s.stream.kind p = id)) = b
    cases b
    · exact ⟨rfl, hp, rfl⟩
    · exact ⟨rfl, advance_lastCopy h h' hp, rfl⟩

omit hmodel in
lemma matchTokenSet_lastCopy (hp : SameInLast v.length k k' p p') (tokens : OrderedSet TokenId) :
    (s.matchTokenSet tokens p).Mirrors (SameInLast v.length k k') (s'.matchTokenSet tokens p') := by
  have hadvance := advance_lastCopy h h' hp
  simp only [matchTokenSet, kind_lastCopy h h' hp, reached_lastCopy h h' hadvance]
  split
  · exact ⟨rfl, hadvance, rfl⟩
  · exact ⟨rfl, hp, rfl⟩

/-- **What a node does at the last copy** does not depend on how many there are before. -/
theorem ParsesNode.lastCopy (hn : s.ParsesNode s.Visits n (k * v.length) o L) :
    ∃ o', o.Mirrors (SameInLast v.length k k') o' ∧
      s'.ParsesNode s'.Visits n (k' * v.length) o' L := by
  have hmirror := mirror_lastCopy hmodel h h'
  have hstart : SameInLast v.length k k' (k * v.length) (k' * v.length) :=
    ⟨0, Nat.zero_le _, rfl, rfl⟩
  cases hn with
  | @token t cardinality any =>
    refine ⟨_, ?_, .token⟩
    exact @Mirror.token _ _ _ _ hmirror ⟨.token t, cardinality, any⟩ [] _ _ t trivial rfl hstart
  | rule hv =>
    have hsize : ∀ {p p'}, SameInLast v.length k k' p p' →
        p ≤ s.stream.size ∧ p' ≤ s'.stream.size := by
      rintro _ _ ⟨j, hj, rfl, rfl⟩
      rw [h.size_eq, h'.size_eq, Nat.add_mul, Nat.add_mul, Nat.one_mul]
      omega
    obtain ⟨o', ho', hv'⟩ := Visits.mirror hmirror hmodel predicts_lawful
      (fun _ _ hp tokens => matchTokenSet_lastCopy h h' hp tokens) hsize hv trivial hstart
    exact ⟨o', ho', .rule hv'⟩

end

/-! ## What may follow -/

section

variable (hmodel : s'.model = s.model) (hC : ∀ id ph L, C id ph L → C' id ph L)

include hmodel hC

/-- What may follow depends on the model only. -/
lemma ExpectsNodes.of_model {nodes : List (Node RuleId)} (h : s.ExpectsNodes C nodes ph L) :
    s'.ExpectsNodes C' nodes ph L := by
  have hoffers : s.terminalOffers = s'.terminalOffers := by
    funext n t rest
    simp only [terminalOffers, Plan.offered, hmodel]
  induction h with
  | nil => exact .nil
  | eof hn => exact .eof hn
  | required hn ht hr => exact hoffers ▸ .required hn ht hr
  | optional hn ht hr _ ih => exact hoffers ▸ .optional hn ht hr ih
  | closed hn hr hc => exact .closed hn hr (hC _ _ _ hc)
  | behind hn hc hk _ ih => exact .behind hn (hC _ _ _ hc) hk ih

lemma ExpectsBehind.of_model (h : s.ExpectsBehind C n rest ph L) :
    s'.ExpectsBehind C' n rest ph L := by
  cases h with
  | once hm h => exact .once hm (h.of_model hmodel hC)
  | again hm hagain h => exact .again hm (hagain.of_model hmodel hC) (h.of_model hmodel hC)

end

/-! ## Completions -/

section

variable (hd : s.model.DirectFrom root) (hrow : s.model.RepeatsFirst root n rest)

include hd hrow

/-- The first node of the rule does in a run of its own what it does in a walk over the rule. -/
lemma NodeHas.visits (hn : s.NodeHas n p o L) (hp : s.stream.Visible p) :
    s.ParsesNode s.Visits n p o L := by
  obtain ⟨k, hb, hk⟩ := hrow.body
  refine hn.parsesNode (fun id hid => ⟨hd.refers (hrow.refers hid), fun hwf => ?_⟩) hp
  exact hwf k (Model.mem_sequences hb (List.mem_singleton_self k)) n (by simp [hk]) id hid

lemma ConsumesCopies.passes (hcopies : s.ConsumesCopies n v m) (h : s.Copies v m) :
    s.PassesCopies n v.length m := by
  intro i hi
  obtain ⟨o, L, hn, hmatched, hstop⟩ := hcopies i hi
  exact ⟨o, L, hn.visits hd hrow (h.visible_start hi), hmatched, hstop⟩

/-- All offers at copies are those at the last one. -/
lemma OffersAtLast.copyOffers (hlast : s.OffersAtLast n v (k + 1)) (h : s.Copies v (k + 1))
    (hn : s.ParsesNode s.Visits n (k * v.length) o L) :
    s.copyOffers n v.length (k + 1) 0 = L := by
  refine Set.Subset.antisymm ?_ fun e he => ⟨k, o, L, Nat.zero_le k, Nat.lt_succ_self k, hn, he⟩
  rintro e ⟨j, o₁, L₁, -, hj, hn₁, he⟩
  obtain ⟨o₂, L₂, o₃, L₃, hn₂, hn₃, hsub⟩ := hlast j hj
  obtain ⟨-, rfl⟩ := hn₁.unique_visits (hn₂.visits hd hrow (h.visible_start hj))
  obtain ⟨-, rfl⟩ := hn.unique_visits (hn₃.visits hd hrow (h.visible_start (Nat.lt_succ_self k)))
  exact hsub he

end

/-- The text is fully parsed if what comes behind the copies may be left out. -/
lemma EndsCopies.fullyParsed (h : s.Copies v m) (ho : s.EndsCopies n rest v.length m o L) :
    (o.matched && s.reached o.stop) = skippable rest := by
  obtain ⟨ph, -, -, hlongest, -⟩ := ho
  have hmatched : o.matched = skippable rest := by
    rw [Bool.eq_iff_iff, hlongest.matched]
    simp
  cases hs : skippable rest with
  | false => rw [hmatched, hs, Bool.false_and]
  | true =>
    rw [hmatched, hs, Bool.true_and]
    have hends := hlongest.of_only (List.mem_singleton_self _) (by simp [Outcome.isUsable, hs])
      fun b hb _ => List.mem_singleton.1 hb
    exact h.reached_iff.2 hends.1.ge

/-- What a completion over copies shows. -/
lemma shows_copies (heof : s.model.EofRequired) (hroot : s.model.ruleId? name = some root)
    (hd : s.model.DirectFrom root) (hrow : s.model.RepeatsFirst root n rest) (h : s.Copies v m)
    (hv : v ≠ []) (hm : 0 < m) (hcopies : s.PassesCopies n v.length m)
    (hc : s.complete name = .ok c) :
    ∃ o L, s.EndsCopies n rest v.length m o L ∧ s.Shows o L c := by
  obtain ⟨root', o, r, hroot', hw, hcomp⟩ := complete_eq_ok hc
  obtain rfl := Option.some.inj (hroot.symm.trans hroot')
  obtain ⟨L, hvisit, hreflects⟩ := walk_visits hd (index_lt_of_ruleId? hroot) hw
  rw [h.skipHidden_eq (Nat.zero_le _)] at hvisit
  exact ⟨o, L, hvisit.endsCopies heof hrow h hv hm hcopies, shows_of_completion hreflects hcomp⟩

/-- **The completion behind copies in a row does not depend on how many there are**, if the root starts
with a node that may be repeated and that matches each copy and nothing more: the text is fully parsed
for any number of them or for none, and the candidates are the same, if what is offered at a copy is
offered at the last one as well. -/
theorem complete_copies (heof : s.model.EofRequired) (hroot : s.model.ruleId? name = some root)
    (hd : s.model.DirectFrom root) (hrow : s.model.RepeatsFirst root n rest)
    (hmodel : s'.model = s.model) (hv : v ≠ []) (hm : 0 < m) (hm' : 0 < m') (h : s.Copies v m)
    (h' : s'.Copies v m') (hcopies : s.ConsumesCopies n v m) (hcopies' : s'.ConsumesCopies n v m')
    (hc : s.complete name = .ok c) (hc' : s'.complete name = .ok c') :
    c'.fullyParsed = c.fullyParsed ∧
      (s.OffersAtLast n v m → s'.OffersAtLast n v m' → c'.candidates = c.candidates) := by
  have hd' : s'.model.DirectFrom root := hmodel ▸ hd
  have hrow' : s'.model.RepeatsFirst root n rest := hmodel ▸ hrow
  have hpasses := hcopies.passes hd hrow h
  have hpasses' := hcopies'.passes hd' hrow' h'
  obtain ⟨o, L, hends, hshows⟩ := shows_copies heof hroot hd hrow h hv hm hpasses hc
  obtain ⟨o', L', hends', hshows'⟩ :=
    shows_copies (hmodel ▸ heof) (hmodel ▸ hroot) hd' hrow' h' hv hm' hpasses' hc'
  refine ⟨?_, fun hlast hlast' => ?_⟩
  · rw [hshows.fullyParsed, hshows'.fullyParsed, hends.fullyParsed h, hends'.fullyParsed h']
  · obtain ⟨k, rfl⟩ := Nat.exists_eq_succ_of_ne_zero hm.ne'
    obtain ⟨k', rfl⟩ := Nat.exists_eq_succ_of_ne_zero hm'.ne'
    obtain ⟨o₁, L₁, hn, -⟩ := hpasses k (Nat.lt_succ_self k)
    obtain ⟨o₁', -, hn'⟩ := hn.lastCopy hmodel h h'
    obtain ⟨ph, E, hbehind, -, rfl⟩ := hends
    obtain ⟨ph', E', hbehind', -, rfl⟩ := hends'
    -- behind the last copy the same may follow
    obtain ⟨-, rfl⟩ := (hbehind.of_model hmodel fun _ _ _ hg =>
      hg.mirror (mirror_lastCopy hmodel h h') hmodel).unique
        (fun _ _ _ hg _ _ hg' => hg.unique hg') hbehind'
    rw [hlast.copyOffers hd hrow h hn] at hshows
    rw [hlast'.copyOffers hd' hrow' h' hn'] at hshows'
    refine List.Pairwise.eq_of_mem_iff hshows'.sorted hshows.sorted fun text => ?_
    rw [hshows.candidates, hshows'.candidates, hmodel]

/-! ## Pairs in a row -/

/-- The outcome of a walk and what it has offered. -/
def told? : EStateM.Result CompletionError Run Outcome → Option (Outcome × List Event)
  | .ok o r => some (o, r.events.filter Event.isOffer)
  | .error _ _ => none

lemma nodeHas_of_told? {n : Node RuleId} {events : List Event} (id : RuleId)
    (hn : n.symbol = .rule id) (h : told? ((s.withLimits {}).fresh ⟨id, p⟩) = some (o, events)) :
    s.NodeHas n p o {e | e ∈ events} := by
  cases hrun : (s.withLimits {}).fresh ⟨id, p⟩ with
  | error e r => simp [hrun, told?] at h
  | ok o' r =>
    obtain ⟨rfl, rfl⟩ : o' = o ∧ r.events.filter Event.isOffer = events := by
      simpa [hrun, told?] using h
    have hoffers : r.offers = {e | e ∈ r.events.filter Event.isOffer} := by
      ext e
      simp [Run.mem_offers]
    simp only [NodeHas, hn]
    exact ⟨{}, r, hrun, hoffers⟩

/-- Models in which only the first rule refers to a rule, and only to the second one. -/
lemma not_leftReach_of_pair {m : Model} (h : ∀ e ∈ m.rules.entries.zipIdx, ∀ q ∈ e.1.2.sequenceList,
    ∀ n ∈ q.nodes, n.ruleRef? = none ∨ e.2 = 0 ∧ n.ruleRef? = some ⟨1⟩) (r : RuleId) :
    ¬ m.LeftReach r r := by
  have hrefers : ∀ x y, m.LeftRefers x y → x = ⟨0⟩ ∧ y = ⟨1⟩ := by
    intro x y hxy
    obtain ⟨list, hb, q, hq, n, hn, hs⟩ := hxy.refers
    obtain ⟨name, he⟩ := Model.body_eq_ok_iff.1 hb
    have hentry : ((name, .sequences list), x.index) ∈ m.rules.entries.zipIdx :=
      List.mem_zipIdx_iff_getElem?.2 he
    rcases h _ hentry q hq n hn with hnone | ⟨hx, hy⟩
    · simp [Node.ruleRef?, hs] at hnone
    · obtain ⟨i⟩ := x
      obtain rfl : i = 0 := hx
      simpa [Node.ruleRef?, hs] using hy
  intro hr
  obtain ⟨y, hry, hyr⟩ := Relation.TransGen.head'_iff.1 hr
  obtain ⟨rfl, rfl⟩ := hrefers _ _ hry
  -- the second rule refers to nothing
  rcases Relation.ReflTransGen.cases_head hyr with heq | ⟨z, hz, -⟩
  · cases heq
  · cases (hrefers _ _ hz).1

/-- `pairs: pair+ DOT?; pair: KEY VALUE COMMA?` -/
def pairs : Model where
  rules := .ofList [
    ("pairs", .sequences [⟨[.rule ⟨1⟩ .oneOrMore, .token ⟨4⟩ .optional], none⟩]),
    ("pair", .sequences [⟨[.token ⟨1⟩ .one, .token ⟨2⟩ .one, .token ⟨3⟩ .optional], none⟩])]
  tokenNames := .ofList [(⟨1⟩, "KEY"), (⟨2⟩, "VALUE"), (⟨3⟩, "COMMA"), (⟨4⟩, "DOT")]

lemma not_leftReach_pairs (r : RuleId) : ¬ pairs.LeftReach r r := not_leftReach_of_pair (by decide) r

/-- Behind one pair and behind two, the same may follow, and both texts are fully parsed. -/
theorem complete_copies_pairs :
    let v : List TokenId := [⟨1⟩, ⟨2⟩]
    let n : Node RuleId := .rule ⟨1⟩ .oneOrMore
    let s := onLine pairs v
    let s' := onLine pairs (v ++ v)
    s.model.EofRequired ∧ s.model.ruleId? "pairs" = some ⟨0⟩ ∧ s.model.DirectFrom ⟨0⟩ ∧
      s.model.RepeatsFirst ⟨0⟩ n [.token ⟨4⟩ .optional] ∧ s'.model = s.model ∧ v ≠ [] ∧ 0 < 1 ∧ 0 < 2 ∧
      s.Copies v 1 ∧ s'.Copies v 2 ∧ s.ConsumesCopies n v 1 ∧ s'.ConsumesCopies n v 2 ∧
      s.OffersAtLast n v 1 ∧ s'.OffersAtLast n v 2 ∧
      ∃ c c', s.complete "pairs" = .ok c ∧ s'.complete "pairs" = .ok c' ∧
        c'.fullyParsed = c.fullyParsed ∧ c'.candidates = c.candidates := by
  let v : List TokenId := [⟨1⟩, ⟨2⟩]
  let n : Node RuleId := .rule ⟨1⟩ .oneOrMore
  let s := onLine pairs v
  let s' := onLine pairs (v ++ v)
  have heof : pairs.EofRequired := by decide
  have hroot : pairs.ruleId? "pairs" = some ⟨0⟩ := by decide
  have hd : pairs.DirectFrom ⟨0⟩ := fun x _ y hxy hyx =>
    absurd (hxy.trans hyx) (not_leftReach_pairs x)
  have hrow : pairs.RepeatsFirst ⟨0⟩ n [.token ⟨4⟩ .optional] :=
    ⟨⟨_, rfl, rfl⟩, rfl, by decide⟩
  have hcopies : s.Copies v 1 := ⟨by decide, by decide, by decide, by decide⟩
  have hcopies' : s'.Copies v 2 := ⟨by decide, by decide, by decide, by decide⟩
  have hone : s.NodeHas n 0 ⟨true, 2, .pending⟩ {e | e ∈ [.offerToken ⟨3⟩ []]} :=
    nodeHas_of_told? ⟨1⟩ rfl (by cbv)
  have hfirst : s'.NodeHas n 0 ⟨true, 2, .matching⟩ {e | e ∈ []} :=
    nodeHas_of_told? ⟨1⟩ rfl (by cbv)
  have hsecond : s'.NodeHas n 2 ⟨true, 4, .pending⟩ {e | e ∈ [.offerToken ⟨3⟩ []]} :=
    nodeHas_of_told? ⟨1⟩ rfl (by cbv)
  have hconsumes : s.ConsumesCopies n v 1 := by
    intro i hi
    obtain rfl : i = 0 := Nat.lt_one_iff.1 hi
    exact ⟨_, _, hone, rfl, rfl⟩
  have hconsumes' : s'.ConsumesCopies n v 2 := by
    intro i hi
    obtain rfl | rfl : i = 0 ∨ i = 1 := by omega
    · exact ⟨_, _, hfirst, rfl, rfl⟩
    · exact ⟨_, _, hsecond, rfl, rfl⟩
  have hlast : s.OffersAtLast n v 1 := by
    intro i hi
    obtain rfl : i = 0 := Nat.lt_one_iff.1 hi
    exact ⟨_, _, _, _, hone, hone, Set.Subset.refl _⟩
  have hlast' : s'.OffersAtLast n v 2 := by
    intro i hi
    obtain rfl | rfl : i = 0 ∨ i = 1 := by omega
    · exact ⟨_, _, _, _, hfirst, hsecond, fun e he => absurd he List.not_mem_nil⟩
    · exact ⟨_, _, _, _, hsecond, hsecond, Set.Subset.refl _⟩
  have hc : s.complete "pairs" = .ok ⟨["COMMA", "DOT", "KEY VALUE"], true, none, 2⟩ := by cbv
  have hc' : s'.complete "pairs" = .ok ⟨["COMMA", "DOT", "KEY VALUE"], true, none, 4⟩ := by cbv
  have hv : v ≠ [] := List.cons_ne_nil _ _
  obtain ⟨hfully, hcandidates⟩ := complete_copies (s := s) heof hroot hd hrow
    (rfl : s'.model = s.model) hv Nat.one_pos Nat.two_pos hcopies hcopies' hconsumes hconsumes' hc hc'
  exact ⟨heof, hroot, hd, hrow, rfl, hv, Nat.one_pos, Nat.two_pos, hcopies, hcopies', hconsumes,
    hconsumes', hlast, hlast', _, _, hc, hc', hfully, hcandidates hlast hlast'⟩

/-! ## Looking past a copy -/

/-- `row: item+; item: A | A A B` -/
def ahead : Model where
  rules := .ofList [
    ("row", .sequences [⟨[.rule ⟨1⟩ .oneOrMore], none⟩]),
    ("item", .sequences [⟨[.token ⟨1⟩ .one], none⟩,
      ⟨[.token ⟨1⟩ .one, .token ⟨1⟩ .one, .token ⟨2⟩ .one], none⟩])]
  tokenNames := .ofList [(⟨1⟩, "A"), (⟨2⟩, "B")]

lemma Copies.kind_single {t : TokenId} (h : s.Copies [t] m) (hp : p < m) : s.stream.kind p = t := by
  have hlt : p < s.stream.size := by rwa [h.size_eq, List.length_singleton, Nat.mul_one]
  have hkind := h.getElem?_kinds hlt
  rw [List.flatten_replicate_singleton, List.getElem?_replicate, if_pos hp] at hkind
  exact (Option.some.inj hkind).symm

section

variable {t u : TokenId} {V : Visit} (h : s.Copies [t] m) (hp : p < m)

include h hp

lemma Copies.parsesNode_token : s.ParsesNode V (.token t .one) p ⟨true, p + 1, .matching⟩ ∅ := by
  have hadvance : s.stream.advance p = p + 1 :=
    h.advance_eq (by rwa [h.size_eq, List.length_singleton, Nat.mul_one])
  have hmatch : s.matchToken false t p = ⟨true, p + 1, .matching⟩ := by
    simp [matchToken, h.kind_single hp, hadvance]
  exact hmatch ▸ .token

lemma Copies.parsesNode_other (hne : t ≠ u) :
    s.ParsesNode V (.token u .one) p ⟨false, p, .matching⟩ ∅ := by
  have hmatch : s.matchToken false u p = ⟨false, p, .matching⟩ := by
    simp [matchToken, h.kind_single hp, hne]
  exact hmatch ▸ .token

lemma Copies.parses_single :
    ∃ ph L, s.ParsesNodes V C false [.token t .one] p ⟨true, p + 1, ph⟩ L := by
  have hn := h.parsesNode_token (V := V) hp
  cases hq : s.reached (p + 1) with
  | true => exact ⟨_, _, .ends hn (Or.inr ⟨rfl, hq⟩) (.once rfl .nil)⟩
  | false => exact ⟨_, _, .passes hn hq (Or.inl rfl) .nil⟩

/-- The longer alternative fails at its last token, or it is cut off by the caret before. -/
lemma Copies.parses_longer (hne : t ≠ u) (ht : t ≠ .eof) (hu : u ≠ .eof) :
    ∃ q L, s.ParsesNodes V C false [.token t .one, .token t .one, .token u .one] p
      ⟨false, q, .matching⟩ L := by
  have hn := h.parsesNode_token (V := V) hp
  cases hq : s.reached (p + 1) with
  | true => exact ⟨_, _, .ends hn (Or.inr ⟨rfl, hq⟩) (.once rfl (.required rfl ht rfl))⟩
  | false =>
    have hp₁ : p + 1 < m := by
      by_contra hle
      exact absurd (h.reached_iff.2 (by simpa using hle)) (ne_true_of_eq_false hq)
    have hn₁ := h.parsesNode_token (V := V) hp₁
    cases hq₁ : s.reached (p + 1 + 1) with
    | true =>
      exact ⟨_, _, .passes hn hq (Or.inl rfl)
        (.ends hn₁ (Or.inr ⟨rfl, hq₁⟩) (.once rfl (.required rfl hu rfl)))⟩
    | false =>
      have hp₂ : p + 1 + 1 < m := by
        by_contra hle
        exact absurd (h.reached_iff.2 (by simpa using hle)) (ne_true_of_eq_false hq₁)
      exact ⟨_, _, .passes hn hq (Or.inl rfl)
        (.passes hn₁ hq₁ (Or.inl rfl) (.fails (h.parsesNode_other hp₂ hne) rfl))⟩

end

/-- An item consumes one token, however many of them follow. -/
lemma consumesCopies_ahead (hmodel : s.model = ahead) (h : s.Copies [⟨1⟩] m) :
    s.ConsumesCopies (.rule ⟨1⟩ .oneOrMore) [⟨1⟩] m := by
  intro i hi
  have hleft : ∀ r, ¬ s.model.LeftReach r r := hmodel ▸ not_leftReach_of_pair (by decide)
  have heof : s.model.EofRequired := hmodel ▸ (by decide : ahead.EofRequired)
  have hwf : s.model.WellFormed := hmodel ▸ (by decide : ahead.WellFormed)
  have hindex : (⟨1⟩ : RuleId).index < s.model.ruleCount := by
    rw [hmodel]
    decide
  obtain ⟨n, r, o, hrun⟩ := exists_freshHas (a := ⟨⟨1⟩, i⟩) hwf hindex
  have hd : (s.withLimits ⟨n, s.depthBound⟩).model.DirectFrom ⟨1⟩ :=
    fun x _ y hxy hyx => absurd (hxy.trans hyx) (hleft x)
  have hupTo : s.UpToStop ⟨⟨1⟩, i⟩ := h.upToStop (by simpa using hi.le)
  have hparses : s.Parses ⟨⟨1⟩, i⟩ o r.offers :=
    (visits_withLimits (fresh_visits hd (fun _ => hindex) hrun).1 hupTo.1).parses heof hleft hupTo
  have hq : s.reached i = false := h.not_reached_of_lt (by simpa using hi)
  have hends : o.matched = true ∧ o.stop = i + 1 := by
    generalize r.offers = L at hparses
    cases hparses with
    | atCaret hq' => exact absurd hq' (ne_true_of_eq_false hq)
    | tokenSet _ hb =>
      rw [hmodel] at hb
      cases hb
    | sequences _ hb hall ho =>
      rw [hmodel] at hb
      cases hb
      -- the outcomes of the two alternatives are known
      obtain ⟨ph, L₁, h₁⟩ := h.parses_single (V := s.Parses) (C := s.Expects) hi
      obtain ⟨q, L₂, h₂⟩ := h.parses_longer (V := s.Parses) (C := s.Expects) (u := ⟨2⟩) hi
        (by decide) (by decide) (by decide)
      obtain ⟨rfl, -⟩ := hall.unique (fun _ _ _ hv _ _ hv' => hv.unique hv')
        (fun _ _ _ hc _ _ hc' => hc.unique hc') (.cons h₁ (.cons h₂ .nil))
      refine ⟨ho.matched.2 ⟨_, List.mem_cons_self, rfl⟩, (ho.of_only List.mem_cons_self rfl ?_).1⟩
      simp [Outcome.isUsable]
  exact ⟨o, r.offers, ⟨⟨n, s.depthBound⟩, r, by simpa using hrun, rfl⟩, hends.1, by simpa using hends.2⟩

/-! ## Where the number of copies makes a difference -/

/-- Completions behind one copy of a token and behind two are not the same, although at the start of each
copy the node that comes first has an outcome that is accepted and ends behind that copy. -/
def CopiesDiffer (m : Model) (x : RuleId) (accepts : Outcome → Bool) : Prop :=
  let s := onLine m [⟨1⟩]
  let s' := onLine m [⟨1⟩, ⟨1⟩]
  ∃ n rest, m.WellFormed ∧ m.ruleId? "row" = some ⟨0⟩ ∧
    m.body ⟨0⟩ = .ok (.sequences [⟨n :: rest, none⟩]) ∧ n.isMultiple = true ∧ n.symbol = .rule x ∧
    s.Copies [⟨1⟩] 1 ∧ s'.Copies [⟨1⟩] 2 ∧
    (∃ o L, s.NodeHas n 0 o L ∧ accepts o = true ∧ o.stop = 1) ∧
    (∃ o L, s'.NodeHas n 0 o L ∧ accepts o = true ∧ o.stop = 1) ∧
    (∃ o L, s'.NodeHas n 1 o L ∧ accepts o = true ∧ o.stop = 2) ∧
    ∃ c c', s.complete "row" = .ok c ∧ s'.complete "row" = .ok c' ∧
      ¬ (c'.fullyParsed = c.fullyParsed ∧ c'.candidates = c.candidates)

lemma nodeHas_of_outcome? {x : RuleId} (hn : n.symbol = .rule x)
    (h : outcome? ((s.withLimits {}).fresh ⟨x, p⟩) = some o) : ∃ L, s.NodeHas n p o L := by
  obtain ⟨r, hrun⟩ := exists_of_outcome? h
  exact ⟨r.offers, by simpa only [NodeHas, hn] using ⟨{}, r, hrun, rfl⟩⟩

lemma copiesDiffer_of_eval {x : RuleId} {accepts : Outcome → Bool} {m : Model} (o₀ o₁ o₂ : Outcome)
    (c c' : Completion) (hwf : m.WellFormed) (hroot : m.ruleId? "row" = some ⟨0⟩)
    (hbody : m.body ⟨0⟩ = .ok (.sequences [⟨n :: rest, none⟩])) (hm : n.isMultiple = true)
    (hn : n.symbol = .rule x)
    (h₀ : outcome? (((onLine m [⟨1⟩]).withLimits {}).fresh ⟨x, 0⟩) = some o₀)
    (h₁ : outcome? (((onLine m [⟨1⟩, ⟨1⟩]).withLimits {}).fresh ⟨x, 0⟩) = some o₁)
    (h₂ : outcome? (((onLine m [⟨1⟩, ⟨1⟩]).withLimits {}).fresh ⟨x, 1⟩) = some o₂)
    (haccepts : accepts o₀ = true ∧ accepts o₁ = true ∧ accepts o₂ = true)
    (hstops : o₀.stop = 1 ∧ o₁.stop = 1 ∧ o₂.stop = 2)
    (hc : (onLine m [⟨1⟩]).complete "row" = .ok c)
    (hc' : (onLine m [⟨1⟩, ⟨1⟩]).complete "row" = .ok c')
    (hne : ¬ (c'.fullyParsed = c.fullyParsed ∧ c'.candidates = c.candidates)) :
    CopiesDiffer m x accepts := by
  have hone : (onLine m [⟨1⟩]).Copies [⟨1⟩] 1 :=
    ⟨rfl, (by decide : ∀ t ∈ (onLine ahead [⟨1⟩]).stream.body.toList, t.isHidden = false),
      (by decide : ∀ t ∈ (onLine ahead [⟨1⟩]).stream.body.toList, t.line < 2), rfl⟩
  have htwo : (onLine m [⟨1⟩, ⟨1⟩]).Copies [⟨1⟩] 2 :=
    ⟨rfl, (by decide : ∀ t ∈ (onLine ahead [⟨1⟩, ⟨1⟩]).stream.body.toList, t.isHidden = false),
      (by decide : ∀ t ∈ (onLine ahead [⟨1⟩, ⟨1⟩]).stream.body.toList, t.line < 2), rfl⟩
  obtain ⟨L₀, hhas₀⟩ := nodeHas_of_outcome? hn h₀
  obtain ⟨L₁, hhas₁⟩ := nodeHas_of_outcome? hn h₁
  obtain ⟨L₂, hhas₂⟩ := nodeHas_of_outcome? hn h₂
  exact ⟨n, rest, hwf, hroot, hbody, hm, hn, hone, htwo, ⟨o₀, L₀, hhas₀, haccepts.1, hstops.1⟩,
    ⟨o₁, L₁, hhas₁, haccepts.2.1, hstops.2.1⟩, ⟨o₂, L₂, hhas₂, haccepts.2.2, hstops.2.2⟩, c, c', hc,
    hc', hne⟩

/-- `row: item+; item: A EOF?` -/
def closed : Model where
  rules := .ofList [("row", .sequences [⟨[.rule ⟨1⟩ .oneOrMore], none⟩]),
    ("item", .sequences [⟨[.token ⟨1⟩ .one, .token .eof .optional], none⟩])]
  tokenNames := .ofList [(⟨1⟩, "A")]

/-- `row: item+; item: A tail; tail: B |` -/
def tailed : Model where
  rules := .ofList [("row", .sequences [⟨[.rule ⟨1⟩ .oneOrMore], none⟩]),
    ("item", .sequences [⟨[.token ⟨1⟩ .one, .rule ⟨2⟩ .one], none⟩]),
    ("tail", .sequences [⟨[.token ⟨2⟩ .one], none⟩, ⟨[], none⟩])]
  tokenNames := .ofList [(⟨1⟩, "A"), (⟨2⟩, "B")]

/-- `row: row* A` -/
def turned : Model where
  rules := .ofList [("row", .sequences [⟨[.rule ⟨0⟩ .zeroOrMore, .token ⟨1⟩ .one], none⟩])]
  tokenNames := .ofList [(⟨1⟩, "A")]

/-- `row: item*; item: other* A; other: item` -/
def entangled : Model where
  rules := .ofList [("row", .sequences [⟨[.rule ⟨1⟩ .zeroOrMore], none⟩]),
    ("item", .sequences [⟨[.rule ⟨2⟩ .zeroOrMore, .token ⟨1⟩ .one], none⟩]),
    ("other", .sequences [⟨[.rule ⟨1⟩ .one], none⟩])]
  tokenNames := .ofList [(⟨1⟩, "A")]

/-- No condition can be left out.  An item that looks past its copy offers the rest of something longer,
once there is a second copy, although each item consumes one token whatever follows.  The others are an
item that may end with the end of the input, one that does not match at the caret as what it requires
there may be empty, the root itself, and one that is left-recursive through another rule. -/
theorem copies_examples :
    ((∀ s : Session, ∀ m, s.model = ahead → s.Copies [⟨1⟩] m →
        s.ConsumesCopies (.rule ⟨1⟩ .oneOrMore) [⟨1⟩] m) ∧
      CopiesDiffer ahead ⟨1⟩ Outcome.matched) ∧
      CopiesDiffer closed ⟨1⟩ Outcome.matched ∧ CopiesDiffer tailed ⟨1⟩ Outcome.isUsable ∧
      CopiesDiffer turned ⟨0⟩ Outcome.matched ∧ CopiesDiffer entangled ⟨1⟩ Outcome.matched := by
  refine ⟨⟨fun s m hmodel h => consumesCopies_ahead hmodel h, ?_⟩, ?_, ?_, ?_, ?_⟩
  · exact copiesDiffer_of_eval ⟨true, 1, .pending⟩ ⟨true, 1, .matching⟩ ⟨true, 2, .pending⟩
      ⟨["A"], true, none, 1⟩ ⟨["A", "B"], true, none, 2⟩ (by decide) (by decide) rfl rfl rfl
      (by cbv) (by cbv) (by cbv) (by decide) (by decide) (by cbv) (by cbv) (by decide)
  · exact copiesDiffer_of_eval ⟨true, 1, .matching⟩ ⟨true, 1, .matching⟩ ⟨true, 2, .matching⟩
      ⟨["A"], true, none, 1⟩ ⟨[], true, none, 2⟩ (by decide) (by decide) rfl rfl rfl
      (by cbv) (by cbv) (by cbv) (by decide) (by decide) (by cbv) (by cbv) (by decide)
  · exact copiesDiffer_of_eval ⟨false, 1, .pending⟩ ⟨true, 1, .matching⟩ ⟨false, 2, .pending⟩
      ⟨["A", "B"], false, none, 1⟩ ⟨["A", "B"], true, none, 2⟩ (by decide) (by decide) rfl rfl rfl
      (by cbv) (by cbv) (by cbv) (by decide) (by decide) (by cbv) (by cbv) (by decide)
  · exact copiesDiffer_of_eval ⟨true, 1, .pending⟩ ⟨true, 1, .matching⟩ ⟨true, 2, .pending⟩
      ⟨["A"], true, none, 1⟩ ⟨["A"], false, none, 1⟩ (by decide) (by decide) rfl rfl rfl
      (by cbv) (by cbv) (by cbv) (by decide) (by decide) (by cbv) (by cbv) (by decide)
  · exact copiesDiffer_of_eval ⟨true, 1, .pending⟩ ⟨true, 1, .matching⟩ ⟨true, 2, .pending⟩
      ⟨["A"], true, none, 1⟩ ⟨["A"], false, none, 1⟩ (by decide) (by decide) rfl rfl rfl
      (by cbv) (by cbv) (by cbv) (by decide) (by decide) (by cbv) (by cbv) (by decide)

end Session

end GrammarCompletion
