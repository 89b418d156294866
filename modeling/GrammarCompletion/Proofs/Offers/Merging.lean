/-
# Merging offers

Candidates are kept in one table, in which an empty continuation stands both for a token that was
offered bare and for a token of which two offers differ.  `Candidates.record` enters one event into
the table, and `Candidates.ofEvents` starts from the empty table.  The two readings of an empty
continuation never get mixed up: the table reflects the set of the offers
(`Candidates.reflects_ofEvents`), and so neither their order nor their number makes a difference
(`Candidates.ofEvents_merges`).
-/
import GrammarCompletion.Proofs.Offers.Candidates
import GrammarCompletion.Proofs.Walk.Mirror

namespace GrammarCompletion

namespace Candidates

/-- The candidates after an event: an offer is entered, and other events change nothing. -/
def record (c : Candidates) : Event → Candidates
  | .offerToken t k => c.offerToken t k
  | .offerRule r => c.offerRule r
  | _ => c

/-- The candidates of a list of events. -/
def ofEvents (l : List Event) : Candidates :=
  l.foldl record ∅

/-- Two lists of events with the same offers. -/
def SameOffers (l l' : List Event) : Prop :=
  ∀ e : Event, e.isOffer = true → (e ∈ l ↔ e ∈ l')

variable {c : Candidates} {L L' : Set Event} {l l' : List Event} {e : Event} {t : TokenId}
  {k k' : List TokenId} {m : Model} {texts : List String}

lemma ofEvents_append (l l' : List Event) : ofEvents (l ++ l') = l'.foldl record (ofEvents l) :=
  List.foldl_append

@[simp] lemma ofEvents_concat (l : List Event) (e : Event) :
    ofEvents (l ++ [e]) = (ofEvents l).record e :=
  ofEvents_append l [e]

lemma record_of_isOffer_eq_false (he : e.isOffer = false) : c.record e = c := by
  cases e <;> first | rfl | cases he

/-! ## The table reflects the offers -/

/-- Only the offers of a set are reflected. -/
lemma Reflects.congr (h : c.Reflects L) (hL : ∀ e : Event, e.isOffer = true → (e ∈ L ↔ e ∈ L')) :
    c.Reflects L' :=
  ⟨fun t k => (h.phrases t k).trans (TailOf.congr fun _ => hL _ rfl),
    fun r => (h.rules r).trans (hL _ rfl)⟩

lemma Reflects.record (h : c.Reflects L) (e : Event) : (c.record e).Reflects (insert e L) := by
  cases he : e.isOffer with
  | false =>
    rw [record_of_isOffer_eq_false he]
    refine h.congr fun e' he' => ?_
    rw [Set.mem_insert_iff, or_iff_right]
    rintro rfl
    exact absurd (he.symm.trans he') Bool.false_ne_true
  | true =>
    cases e with
    | offerToken t k => exact h.offerToken t k
    | offerRule r => exact h.offerRule r
    | _ => cases he

/-- The candidates of a list of events are those of the set of its offers. -/
lemma reflects_ofEvents (l : List Event) : (ofEvents l).Reflects {e | e ∈ l} := by
  induction l using List.reverseRecOn with
  | nil => exact Reflects.empty.congr fun e _ => by simp
  | append_singleton l e ih =>
    rw [ofEvents_concat]
    refine (ih.record e).congr fun e' _ => ?_
    rw [Set.mem_insert_iff, Set.mem_ofPred_eq, Set.mem_ofPred_eq, List.mem_append,
      List.mem_singleton, or_comm]

/-! ## What is kept of several offers -/

/-- A token is unknown as long as it was not offered. -/
lemma get?_ofEvents_eq_none :
    (ofEvents l).phrases.get? t = none ↔ ∀ k, Event.offerToken t k ∉ l :=
  (reflects_ofEvents l).get?_eq_none

/-- What all offers of a token say is kept. -/
lemma get?_ofEvents_of_agreed (hk : Event.offerToken t k ∈ l)
    (hall : ∀ k', Event.offerToken t k' ∈ l → k' = k) :
    (ofEvents l).phrases.get? t = some k :=
  ((reflects_ofEvents l).phrases t k).2 ⟨⟨k, hk⟩, Or.inl hall⟩

/-- As soon as two offers of a token differ, it is bare for good. -/
lemma get?_ofEvents_of_ne (hk : Event.offerToken t k ∈ l) (hk' : Event.offerToken t k' ∈ l)
    (hne : k ≠ k') (rest : List Event) : (ofEvents (l ++ rest)).phrases.get? t = some [] := by
  have hmem : Event.offerToken t k ∈ l ++ rest := List.mem_append_left rest hk
  have hmem' : Event.offerToken t k' ∈ l ++ rest := List.mem_append_left rest hk'
  exact ((reflects_ofEvents _).phrases t []).2
    ⟨⟨k, hmem⟩, Or.inr ⟨rfl, k, k', hmem, hmem', hne⟩⟩

example : (ofEvents [.offerToken ⟨1⟩ [⟨2⟩], .offerToken ⟨3⟩ [⟨2⟩], .offerToken ⟨1⟩ [],
    .offerToken ⟨1⟩ [⟨2⟩]]).phrases.entries = [(⟨1⟩, []), (⟨3⟩, [⟨2⟩])] := by
  decide

/-! ## Texts -/

lemma pairwise_of_render (h : c.render m = .ok texts) : texts.Pairwise (· < ·) := by
  obtain ⟨names, -, rfl⟩ := render_eq_ok h
  exact Text.pairwise_sorted

lemma phraseText_nil : phraseText m t [] = m.tokenName t := by
  simp [phraseText]

/-- The texts of the candidates of a list of events: a phrase on whose token all offers agree, a
token of which two offers differ, or the name of a rule. -/
lemma mem_render_ofEvents_iff {text : String} (h : (ofEvents l).render m = .ok texts) :
    text ∈ texts ↔
      (∃ t k, Event.offerToken t k ∈ l ∧ (∀ k', Event.offerToken t k' ∈ l → k' = k) ∧
        text = phraseText m t k) ∨
      (∃ t k k', Event.offerToken t k ∈ l ∧ Event.offerToken t k' ∈ l ∧ k ≠ k' ∧
        text = m.tokenName t) ∨
      ∃ r, Event.offerRule r ∈ l ∧ m.ruleName r = .ok text := by
  have hl := reflects_ofEvents l
  simp only [mem_render_iff h, hl.phrases, hl.rules]
  constructor
  · rintro (⟨t, k, ⟨⟨j, hj⟩, hall | ⟨rfl, k₁, k₂, h₁, h₂, hne⟩⟩, rfl⟩ | hrule)
    · exact Or.inl ⟨t, k, hall j hj ▸ hj, hall, rfl⟩
    · exact Or.inr (Or.inl ⟨t, k₁, k₂, h₁, h₂, hne, phraseText_nil⟩)
    · exact Or.inr (Or.inr hrule)
  · rintro (⟨t, k, hk, hall, rfl⟩ | ⟨t, k, k', hk, hk', hne, rfl⟩ | hrule)
    · exact Or.inl ⟨t, k, ⟨⟨k, hk⟩, Or.inl hall⟩, rfl⟩
    · exact Or.inl ⟨t, [], ⟨⟨k, hk⟩, Or.inr ⟨rfl, k, k', hk, hk', hne⟩⟩, phraseText_nil.symm⟩
    · exact Or.inr hrule

lemma SameOffers.symm (h : SameOffers l l') : SameOffers l' l :=
  fun e he => (h e he).symm

/-- Lists with the same offers have the same texts. -/
lemma SameOffers.render (h : SameOffers l l') (ht : (ofEvents l).render m = .ok texts) :
    (ofEvents l').render m = .ok texts := by
  have hl : (ofEvents l).Reflects {e | e ∈ l} := reflects_ofEvents l
  have hl' : (ofEvents l').Reflects {e | e ∈ l} := (reflects_ofEvents l').congr h.symm
  have hnames : ∀ r ∈ (ofEvents l').rules, ∃ name, m.ruleName r = .ok name := by
    intro r hr
    exact exists_render_iff.1 ⟨texts, ht⟩ r ((hl.rules r).2 ((hl'.rules r).1 hr))
  obtain ⟨texts', ht'⟩ := exists_render_iff.2 hnames
  rwa [hl.render_eq hl' (fun _ => rfl) (fun _ _ hname => hname) ht ht'] at ht'

/-- **A phrase is kept while all offers of its token agree, whatever the order of the offers.**  Of a
list of events a token is known if it was offered; what follows it is what all its offers say, and
nothing from the second of two different offers on.  The texts are those of the known tokens and of
the offered rules, each once and in order, and there are some unless an offered rule has no name.
They are the same for every permutation of the list and for every list with the same offers. -/
theorem ofEvents_merges (l : List Event) :
    (∀ t, (ofEvents l).phrases.get? t = none ↔ ∀ k, Event.offerToken t k ∉ l) ∧
    (∀ t k, Event.offerToken t k ∈ l → (∀ k', Event.offerToken t k' ∈ l → k' = k) →
      (ofEvents l).phrases.get? t = some k) ∧
    (∀ t k k', Event.offerToken t k ∈ l → Event.offerToken t k' ∈ l → k ≠ k' →
      ∀ rest, (ofEvents (l ++ rest)).phrases.get? t = some []) ∧
    (∀ m : Model, (∃ texts, (ofEvents l).render m = .ok texts) ↔
      ∀ r, Event.offerRule r ∈ l → ∃ name, m.ruleName r = .ok name) ∧
    (∀ m texts, (ofEvents l).render m = .ok texts → texts.Pairwise (· < ·) ∧
      ∀ text, text ∈ texts ↔
        (∃ t k, (ofEvents l).phrases.get? t = some k ∧ text = phraseText m t k) ∨
          ∃ r, Event.offerRule r ∈ l ∧ m.ruleName r = .ok text) ∧
    ∀ l', l.Perm l' ∨ SameOffers l l' → ∀ m texts,
      (ofEvents l).render m = .ok texts ↔ (ofEvents l').render m = .ok texts := by
  have hrules : ∀ r, r ∈ (ofEvents l).rules ↔ Event.offerRule r ∈ l := (reflects_ofEvents l).rules
  refine ⟨fun _ => get?_ofEvents_eq_none, fun _ _ => get?_ofEvents_of_agreed,
    fun _ _ _ => get?_ofEvents_of_ne, fun m => ?_, fun m texts ht => ⟨pairwise_of_render ht, ?_⟩, ?_⟩
  · simp only [exists_render_iff, hrules]
  · intro text
    simp only [mem_render_iff ht, hrules]
  · intro l' h m texts
    have hsame : SameOffers l l' := h.elim (fun hperm e _ => hperm.mem_iff) id
    exact ⟨hsame.render, hsame.symm.render⟩

end Candidates

end GrammarCompletion
