/-
# Candidates as sets of offers

Which candidates a walk ends with depends on the set of its offers only, and neither on their order
nor on their number: a token is known with what every offer of it says, and bare as soon as two
offers differ (`Candidates.Reflects`).  Candidates that reflect the same offers have the same texts
(`Candidates.Reflects.render_eq`).
-/
import GrammarCompletion.Proofs.Soundness.Completion
import Mathlib.Data.List.Sort
import Mathlib.Data.Set.Insert

namespace GrammarCompletion

/-- What follows a token for certain, given the offers: what all offers of the token say, or nothing
if two of them differ. -/
structure TailOf (L : Set Event) (t : TokenId) (k : List TokenId) : Prop where
  offered : ∃ k', Event.offerToken t k' ∈ L
  agreed : (∀ k', Event.offerToken t k' ∈ L → k' = k) ∨
    k = [] ∧ ∃ k₁ k₂, Event.offerToken t k₁ ∈ L ∧ Event.offerToken t k₂ ∈ L ∧ k₁ ≠ k₂

namespace TailOf

variable {L : Set Event} {t u : TokenId} {k k' : List TokenId}

lemma unique (h : TailOf L t k) (h' : TailOf L t k') : k = k' := by
  obtain ⟨j, hj⟩ := h.offered
  rcases h.agreed with hk | ⟨rfl, k₁, k₂, h₁, h₂, hne⟩
  · rcases h'.agreed with hk' | ⟨-, k₁, k₂, h₁, h₂, hne⟩
    · exact (hk j hj).symm.trans (hk' j hj)
    · exact absurd ((hk k₁ h₁).trans (hk k₂ h₂).symm) hne
  · rcases h'.agreed with hk' | ⟨rfl, -⟩
    · exact absurd ((hk' k₁ h₁).trans (hk' k₂ h₂).symm) hne
    · rfl

/-- Only the offers of the token matter. -/
lemma congr {L' : Set Event} (h : ∀ j, Event.offerToken t j ∈ L ↔ Event.offerToken t j ∈ L') :
    TailOf L t k ↔ TailOf L' t k := by
  constructor
  · rintro ⟨ho, ha⟩
    simp only [h] at ho ha
    exact ⟨ho, ha⟩
  · rintro ⟨ho, ha⟩
    simp only [← h] at ho ha
    exact ⟨ho, ha⟩

/-- An offer of another token makes no difference. -/
lemma insert_of_ne (hu : u ≠ t) : TailOf (insert (.offerToken t k') L) u k ↔ TailOf L u k := by
  refine congr fun j => ?_
  rw [Set.mem_insert_iff, Event.offerToken.injEq, or_iff_right fun h => hu h.1]

/-- The first offer of a token says what follows it. -/
lemma insert_new (hnew : ∀ j, Event.offerToken t j ∉ L) :
    TailOf (insert (.offerToken t k) L) t k := by
  refine ⟨⟨k, Set.mem_insert _ _⟩, Or.inl fun j hj => ?_⟩
  rcases Set.mem_insert_iff.1 hj with heq | hj
  · exact (Event.offerToken.inj heq).2
  · exact absurd hj (hnew j)

/-- Another offer of a token keeps what follows it if it says the same. -/
lemma insert_known (h : TailOf L t k) :
    TailOf (insert (.offerToken t k') L) t (if k = k' then k else []) := by
  obtain ⟨j, hj⟩ := h.offered
  refine ⟨⟨k', Set.mem_insert _ _⟩, ?_⟩
  rcases h.agreed with hk | ⟨rfl, k₁, k₂, h₁, h₂, hne⟩
  · obtain rfl := hk j hj
    by_cases hjk : j = k'
    · rw [if_pos hjk]
      refine Or.inl fun i hi => ?_
      rcases Set.mem_insert_iff.1 hi with heq | hi
      · exact ((Event.offerToken.inj heq).2).trans hjk.symm
      · exact hk i hi
    · rw [if_neg hjk]
      exact Or.inr ⟨rfl, j, k', Set.mem_insert_of_mem _ hj, Set.mem_insert _ _, hjk⟩
  · have hboth : (if [] = k' then [] else [] : List TokenId) = [] := ite_self []
    rw [hboth]
    exact Or.inr ⟨rfl, k₁, k₂, Set.mem_insert_of_mem _ h₁, Set.mem_insert_of_mem _ h₂, hne⟩

end TailOf

namespace Candidates

/-- The candidates are those of a set of offers. -/
structure Reflects (c : Candidates) (L : Set Event) : Prop where
  phrases : ∀ t k, c.phrases.get? t = some k ↔ TailOf L t k
  rules : ∀ r, r ∈ c.rules ↔ Event.offerRule r ∈ L

variable {c c' : Candidates} {L : Set Event} {t : TokenId} {k : List TokenId} {r : RuleId}

/-- A token leads a candidate if it is known what follows it. -/
lemma mem_leads_iff : t ∈ c.leads ↔ ∃ k, c.phrases.get? t = some k := by
  constructor
  · intro ht
    obtain ⟨⟨t', k⟩, hentry, rfl⟩ := List.mem_map.1 ht
    exact ⟨k, OrderedMap.get?_of_mem_entries hentry⟩
  · rintro ⟨k, hk⟩
    exact OrderedMap.mem_of_get? hk

namespace Reflects

lemma empty : Reflects ∅ ∅ := by
  refine ⟨fun t k => ⟨nofun, fun h => ?_⟩, fun r => ?_⟩
  · obtain ⟨k', hk'⟩ := h.offered
    exact absurd hk' (Set.notMem_empty _)
  · exact ⟨fun h => absurd h OrderedSet.not_mem_empty, fun h => absurd h (Set.notMem_empty _)⟩

/-- A token is unknown as long as it was not offered. -/
lemma get?_eq_none (h : c.Reflects L) :
    c.phrases.get? t = none ↔ ∀ j, Event.offerToken t j ∉ L := by
  constructor
  · intro hnone j hj
    -- what all offers of the token say would be known
    by_cases hall : ∀ i, Event.offerToken t i ∈ L → i = j
    · exact absurd ((h.phrases t j).2 ⟨⟨j, hj⟩, Or.inl hall⟩) (by rw [hnone]; nofun)
    · push Not at hall
      obtain ⟨i, hi, hne⟩ := hall
      have htail : TailOf L t [] := ⟨⟨j, hj⟩, Or.inr ⟨rfl, i, j, hi, hj, hne⟩⟩
      exact absurd ((h.phrases t []).2 htail) (by rw [hnone]; nofun)
  · intro hnew
    cases hg : c.phrases.get? t with
    | none => rfl
    | some k =>
      obtain ⟨j, hj⟩ := ((h.phrases t k).1 hg).offered
      exact absurd hj (hnew j)

lemma offerToken (h : c.Reflects L) (t : TokenId) (k : List TokenId) :
    (c.offerToken t k).Reflects (insert (.offerToken t k) L) := by
  refine ⟨fun u j => ?_, fun r => ?_⟩
  · rw [get?_phrases_offerToken]
    by_cases hu : u = t
    · subst hu
      rw [if_pos rfl]
      -- the phrase of the token is the only one that is left to it
      cases hg : c.phrases.get? u with
      | none =>
        have hnew : TailOf (insert (.offerToken u k) L) u k := .insert_new (h.get?_eq_none.1 hg)
        refine ⟨fun hj => Option.some.inj hj ▸ hnew, fun hj => ?_⟩
        rw [hnew.unique hj]
      | some known =>
        have hknown : TailOf (insert (.offerToken u k) L) u (if known = k then known else []) :=
          ((h.phrases u known).1 hg).insert_known
        refine ⟨fun hj => Option.some.inj hj ▸ hknown, fun hj => ?_⟩
        exact congrArg some (hknown.unique hj)
    · rw [if_neg hu, TailOf.insert_of_ne hu, h.phrases]
  · rw [rules_offerToken, h.rules, Set.mem_insert_iff, or_iff_right (by nofun)]

lemma offerRule (h : c.Reflects L) (r : RuleId) :
    (c.offerRule r).Reflects (insert (.offerRule r) L) := by
  refine ⟨fun t k => (h.phrases t k).trans (TailOf.congr fun j => ?_), fun q => ?_⟩
  · rw [Set.mem_insert_iff, or_iff_right (by nofun)]
  · rw [Candidates.offerRule, OrderedSet.mem_insert, h.rules, Set.mem_insert_iff,
      Event.offerRule.injEq]

/-- The tokens that were offered. -/
lemma mem_leads (h : c.Reflects L) : t ∈ c.leads ↔ ∃ k, Event.offerToken t k ∈ L := by
  rw [mem_leads_iff]
  constructor
  · rintro ⟨k, hk⟩
    exact ((h.phrases t k).1 hk).offered
  · rintro ⟨k, hk⟩
    by_contra hnone
    push Not at hnone
    exact h.get?_eq_none.1 (Option.eq_none_iff_forall_ne_some.2 hnone) k hk

end Reflects

/-! ## Texts -/

lemma render_eq_ok {m : Model} {texts : List String} (h : c.render m = .ok texts) :
    ∃ names, c.rules.toList.mapM m.ruleName = .ok names ∧
      texts = Text.sorted (c.phrases.entries.map (fun e => phraseText m e.1 e.2) ++ names) := by
  cases hrules : c.rules.toList.mapM m.ruleName with
  | error e => simp [render, hrules, bind, Except.bind] at h
  | ok names =>
    simp only [render, hrules, bind, Except.bind, pure, Except.pure, Except.ok.injEq] at h
    exact ⟨names, rfl, h.symm⟩

/-- Candidates have texts if their rules have names. -/
lemma exists_render_iff {m : Model} :
    (∃ texts, c.render m = .ok texts) ↔ ∀ r ∈ c.rules, ∃ name, m.ruleName r = .ok name := by
  refine Iff.trans ?_ (Except.exists_mapM_iff (l := c.rules.toList))
  constructor
  · rintro ⟨texts, h⟩
    obtain ⟨names, hnames, -⟩ := render_eq_ok h
    exact ⟨names, hnames⟩
  · rintro ⟨names, hnames⟩
    exact ⟨_, by rw [render, hnames]; rfl⟩

/-- The texts of phrases and of rules. -/
lemma mem_render_iff {m : Model} {texts : List String} {text : String}
    (h : c.render m = .ok texts) : text ∈ texts ↔
      (∃ t k, c.phrases.get? t = some k ∧ text = phraseText m t k) ∨
        ∃ r ∈ c.rules, m.ruleName r = .ok text := by
  obtain ⟨names, hnames, rfl⟩ := render_eq_ok h
  rw [Text.mem_sorted, List.mem_append]
  refine or_congr ?_ ?_
  · constructor
    · intro ht
      obtain ⟨⟨t, k⟩, hentry, rfl⟩ := List.mem_map.1 ht
      exact ⟨t, k, OrderedMap.get?_of_mem_entries hentry, rfl⟩
    · rintro ⟨t, k, hk, rfl⟩
      obtain ⟨⟨t', k'⟩, hentry, rfl⟩ := List.mem_map.1 (OrderedMap.mem_of_get? hk)
      obtain rfl : k' = k :=
        Option.some.inj ((OrderedMap.get?_of_mem_entries hentry).symm.trans hk)
      exact List.mem_map.2 ⟨_, hentry, rfl⟩
  · constructor
    · intro ht
      obtain ⟨r, hr, hname⟩ := Except.exists_of_mem_mapM hnames ht
      exact ⟨r, hr, hname⟩
    · rintro ⟨r, hr, hname⟩
      obtain ⟨name, hmem, hname'⟩ := Except.exists_mem_of_mapM hnames hr
      obtain rfl : text = name := Except.ok.inj (hname.symm.trans hname')
      exact hmem

/-- Candidates with the same phrases and rules have the same texts, in whatever order they were
offered, if the models name tokens and rules alike. -/
lemma render_eq_of_get? {m m' : Model} {texts texts' : List String}
    (hget : ∀ t, c'.phrases.get? t = c.phrases.get? t) (hrules : ∀ r, r ∈ c'.rules ↔ r ∈ c.rules)
    (htoken : ∀ t, m'.tokenName t = m.tokenName t)
    (hrule : ∀ r name, m.ruleName r = .ok name → m'.ruleName r = .ok name)
    (ht : c.render m = .ok texts) (ht' : c'.render m' = .ok texts') : texts' = texts := by
  have hphrase : ∀ t k, phraseText m' t k = phraseText m t k := by
    intro t k
    simp only [phraseText, List.map_congr_left fun t _ => htoken t]
  -- both lists are sorted, so it is enough that they have the same members
  have hsorted : texts.Pairwise (· < ·) := by
    obtain ⟨names, -, rfl⟩ := render_eq_ok ht
    exact Text.pairwise_sorted
  have hsorted' : texts'.Pairwise (· < ·) := by
    obtain ⟨names, -, rfl⟩ := render_eq_ok ht'
    exact Text.pairwise_sorted
  refine List.Pairwise.eq_of_mem_iff hsorted' hsorted fun text => ?_
  rw [mem_render_iff ht, mem_render_iff ht']
  refine or_congr ?_ ?_
  · refine exists₂_congr fun t k => ?_
    rw [hget, hphrase]
  · constructor
    · rintro ⟨r, hr, hname⟩
      have hr' : r ∈ c.rules := (hrules r).1 hr
      obtain ⟨names, hnames, -⟩ := render_eq_ok ht
      obtain ⟨name, -, hname'⟩ := Except.exists_mem_of_mapM hnames hr'
      obtain rfl : text = name := Except.ok.inj (hname.symm.trans (hrule r name hname'))
      exact ⟨r, hr', hname'⟩
    · rintro ⟨r, hr, hname⟩
      exact ⟨r, (hrules r).2 hr, hrule r text hname⟩

/-- **Candidates of the same offers have the same texts**, if the models name tokens and rules
alike. -/
theorem Reflects.render_eq {m m' : Model} {texts texts' : List String} (h : c.Reflects L)
    (h' : c'.Reflects L) (htoken : ∀ t, m'.tokenName t = m.tokenName t)
    (hrule : ∀ r name, m.ruleName r = .ok name → m'.ruleName r = .ok name)
    (ht : c.render m = .ok texts) (ht' : c'.render m' = .ok texts') : texts' = texts := by
  refine render_eq_of_get? (fun t => Option.ext fun k => ?_) (fun r => ?_) htoken hrule ht ht'
  · rw [h.phrases, h'.phrases]
  · rw [h.rules, h'.rules]

end Candidates

end GrammarCompletion
