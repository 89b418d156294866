/-
# Blocks that have drafts

A block has drafts if it is sound: it has an alternative, and each of its elements is accepted for
itself, however deep it stands.  Drafts look at every element.  A block is made into a token set
only if there is nothing but terminals in it, and a block in parentheses becomes part of the rule
around it only if it is a single atom.

What a block refers to does not matter here: names are looked up when drafts are linked.
-/
import GrammarCompletion.Proofs.Compile.Places

namespace GrammarCompletion

/-! ## Elements and their parts -/

/-- An element is part of another one: it is that element, or stands under a label or in a block in
parentheses, at any depth. -/
inductive Element.Within (x : Element) : Element → Prop
  | self : Within x x
  | label {name : String} {op : LabelOp} {target : Element} (h : Within x target) :
      Within x (.label name op target)
  | group {c : Cardinality} {block : Block} {a : Alternative} {e : Element} (ha : a ∈ block)
      (he : e ∈ a) (h : Within x e) : Within x (.group c block)

/-- An element is part of an element of a block. -/
def Block.Has (block : Block) (x : Element) : Prop := ∃ a ∈ block, ∃ e ∈ a, x.Within e

/-- What is asked of an element by itself. -/
structure Element.Accepted (v : Vocabulary) (e : Element) : Prop where
  /-- A block in parentheses has an alternative. -/
  inner : ∀ c (block : Block), e = .group c block → block ≠ []
  /-- A terminal is in the vocabulary. -/
  terminal : ∀ name, e.terminalName? = some name → ∃ id, v.get? name = some id
  /-- There is no code to run. -/
  action : ∀ code, e ≠ .action code

/-- All parts of an element are accepted. -/
def Element.Sound (v : Vocabulary) (e : Element) : Prop :=
  ∀ x : Element, x.Within e → x.Accepted v

/-- A block has an alternative, and all parts of its elements are accepted. -/
structure Block.Sound (v : Vocabulary) (block : Block) : Prop where
  /-- There is an alternative. -/
  nonempty : block ≠ []
  /-- The parts are accepted. -/
  accepted : ∀ x, block.Has x → x.Accepted v

variable {g : Grammar} {v : Vocabulary} {owner name : String} {block : Block} {e : Element}
  {atom : Atom} {c : Cardinality} {op : LabelOp}

lemma Block.sound_iff : block.Sound v ↔ block ≠ [] ∧ ∀ a ∈ block, ∀ e ∈ a, e.Sound v := by
  constructor
  · exact fun h => ⟨h.nonempty, fun a ha e he x hx => h.accepted x ⟨a, ha, e, he, hx⟩⟩
  · rintro ⟨hne, h⟩
    exact ⟨hne, fun x ⟨a, ha, e, he, hx⟩ => h a ha e he x hx⟩

namespace Element

lemma sound_label : (label name op e).Sound v ↔ e.Sound v := by
  constructor
  · exact fun h x hx => h x (.label hx)
  · intro h x hx
    cases hx with
    | self => exact ⟨by simp, by simp [terminalName?], by simp⟩
    | label hx => exact h x hx

lemma sound_group : (group c block).Sound v ↔ block.Sound v := by
  constructor
  · exact fun h => ⟨(h _ .self).inner c block rfl, fun x ⟨a, ha, e, he, hx⟩ =>
      h x (.group ha he hx)⟩
  · intro h x hx
    cases hx with
    | self => exact ⟨fun _ _ he => (group.inj he).2 ▸ h.nonempty, by simp [terminalName?], by simp⟩
    | group ha he hx => exact h.accepted x ⟨_, ha, _, he, hx⟩

/-- A terminal is in the vocabulary, and there is nothing else to it. -/
lemma sound_of_terminalName? (he : e.terminalName? = some name) :
    e.Sound v ↔ ∃ id, v.get? name = some id := by
  refine ⟨fun h => (h e .self).terminal name he, fun hid x hx => ?_⟩
  obtain rfl : x = e := by
    cases hx with
    | self => rfl
    | label | group => simp [terminalName?] at he
  refine ⟨?_, fun _ hn => Option.some.inj (he.symm.trans hn) ▸ hid, ?_⟩
  · rintro c block rfl
    simp [terminalName?] at he
  · rintro code rfl
    simp [terminalName?] at he

/-- Other elements without parts are sound, unless they are code to run. -/
lemma sound_of_other (ht : e.terminalName? = none)
    (hl : ∀ name op target, e ≠ .label name op target) (hg : ∀ c block, e ≠ .group c block)
    (ha : ∀ code, e ≠ .action code) : e.Sound v := by
  intro x hx
  cases hx with
  | self => exact ⟨fun c block he => absurd he (hg c block), by simp [ht], ha⟩
  | label => exact (hl _ _ _ rfl).elim
  | group => exact (hg _ _ rfl).elim

lemma not_sound_action {code : String} : ¬ (action code).Sound v :=
  fun h => (h _ .self).action code rfl

end Element

/-! ## Drafts of sound blocks -/

namespace Draft

lemma exists_tokenId_iff :
    (∃ id, tokenId v owner name = .ok id) ↔ ∃ id, v.get? name = some id := by
  unfold tokenId
  cases v.get? name <;> simp

/-- There is a node for the atom that a sound element is. -/
lemma exists_atomNode_iff (he : e.atom? = some atom) :
    (∃ n, atomNode v owner c atom = .ok n) ↔ e.Sound v := by
  induction e using Element.unlabelled.induct with
  | case1 _ _ target ih => rw [ih he, Element.sound_label]
  | case2 e hl =>
    have hterminal : ∀ {name}, e.terminalName? = some name → atom = .terminal name →
        ((∃ n, atomNode v owner c atom = .ok n) ↔ e.Sound v) := by
      rintro name hname rfl
      rw [Element.sound_of_terminalName? hname, atomNode, Except.exists_bind_pure_iff,
        exists_tokenId_iff]
    cases e with
    | label name op target => exact (hl name op target rfl).elim
    | token | literal | charSet => exact hterminal rfl (Option.some.inj he).symm
    | rule | wildcard =>
      obtain rfl := Option.some.inj he
      exact iff_of_true ⟨_, rfl⟩ (Element.sound_of_other rfl (by simp) (by simp) (by simp))
    | _ => simp [Element.atom?] at he

/-- There are tokens for a block of terminals if it is sound. -/
lemma exists_tokenIds_iff {names : List String} (hn : Block.terminals? block = some names)
    (hne : block ≠ []) :
    (∃ ids, names.mapM (tokenId v owner) = .ok ids) ↔ block.Sound v := by
  have hall := exists_of_forall₂ (forall₂_of_terminals? hn)
  rw [Except.exists_mapM_iff, Block.sound_iff]
  constructor
  · refine fun h => ⟨hne, fun a ha e he => ?_⟩
    obtain ⟨name, hname, e', rfl, hterminal⟩ := hall.1 a ha
    obtain rfl := List.mem_singleton.1 he
    exact (Element.sound_of_terminalName? hterminal).2 (exists_tokenId_iff.1 (h name hname))
  · rintro ⟨-, h⟩ name hname
    obtain ⟨_, ha, e, rfl, hterminal⟩ := hall.2 name hname
    have hsound : e.Sound v := h _ ha e (List.mem_singleton_self e)
    exact exists_tokenId_iff.2 ((Element.sound_of_terminalName? hterminal).1 hsound)

/-- There is a node for the atom that a sound block in parentheses is. -/
lemma exists_atomNode_block_iff (ha : block.atom? = some atom) :
    (∃ n, atomNode v owner c atom = .ok n) ↔ block.Sound v := by
  obtain ⟨e, rfl, he⟩ := Block.exists_of_atom? ha
  rw [exists_atomNode_iff he, Block.sound_iff]
  simp

mutual

/-- There are drafts of a block if it is sound. -/
theorem exists_ofBlock_iff {name : String} : (block : Block) →
    ((∃ defs, ofBlock v owner name block = .ok defs) ↔ block.Sound v)
  | [] => by simp [ofBlock, Block.sound_iff]
  | a :: rest => by
    rw [ofBlock]
    split
    · next names hn =>
      rw [Except.exists_bind_pure_iff, exists_tokenIds_iff hn (List.cons_ne_nil a rest)]
    · rw [Block.sound_iff, List.forall_mem_cons, and_iff_right (List.cons_ne_nil a rest),
        ← exists_ofElements_iff a, ← exists_ofAlternatives_iff rest]
      exact Except.exists_bind_iff fun _ => Except.exists_bind_pure_iff

/-- There are sequences for alternatives if their elements are sound. -/
theorem exists_ofAlternatives_iff {name : String} {i : Nat} : (alternatives : List Alternative) →
    ((∃ r, ofAlternatives v owner name i alternatives = .ok r) ↔
      ∀ a ∈ alternatives, ∀ e ∈ a, e.Sound v)
  | [] => by simp [ofAlternatives]
  | a :: rest => by
    rw [ofAlternatives, List.forall_mem_cons, ← exists_ofElements_iff a,
      ← exists_ofAlternatives_iff rest]
    exact Except.exists_bind_iff fun _ => Except.exists_bind_pure_iff

/-- There are nodes for elements if they are sound. -/
theorem exists_ofElements_iff {place : String} {i : Nat} : (elements : List Element) →
    ((∃ r, ofElements v owner place i elements = .ok r) ↔ ∀ e ∈ elements, e.Sound v)
  | [] => by simp [ofElements]
  | e :: rest => by
    rw [ofElements, List.forall_mem_cons, ← exists_ofElement_iff e, ← exists_ofElements_iff rest]
    exact Except.exists_bind_iff fun _ => Except.exists_bind_pure_iff

/-- There is what an element stands for if it is sound. -/
theorem exists_ofElement_iff {place : String} {i : Nat} : (e : Element) →
    ((∃ r, ofElement v owner place i e = .ok r) ↔ e.Sound v)
  | .token name => by
    rw [ofElement]
    exact Except.exists_bind_pure_iff.trans (exists_atomNode_iff rfl)
  | .literal text => by
    rw [ofElement]
    exact Except.exists_bind_pure_iff.trans (exists_atomNode_iff rfl)
  | .charSet text => by
    rw [ofElement]
    exact Except.exists_bind_pure_iff.trans (exists_atomNode_iff rfl)
  | .rule name => by
    rw [ofElement]
    exact Except.exists_bind_pure_iff.trans (exists_atomNode_iff rfl)
  | .wildcard => by
    rw [ofElement]
    exact Except.exists_bind_pure_iff.trans (exists_atomNode_iff rfl)
  | .label label op target => by
    rw [ofElement, Element.sound_label]
    exact exists_ofElement_iff target
  | .group c block => by
    rw [ofElement, Element.sound_group]
    split
    · next a ha => exact Except.exists_bind_pure_iff.trans (exists_atomNode_block_iff ha)
    · exact Except.exists_bind_pure_iff.trans (exists_ofBlock_iff block)
  | .action code => by simp [ofElement, Element.not_sound_action]
  | .semPred code =>
    iff_of_true ⟨_, by rw [ofElement]⟩ (Element.sound_of_other rfl (by simp) (by simp) (by simp))
  | .synPred code =>
    iff_of_true ⟨_, by rw [ofElement]⟩ (Element.sound_of_other rfl (by simp) (by simp) (by simp))
  | .epsilon =>
    iff_of_true ⟨_, by rw [ofElement]⟩ (Element.sound_of_other rfl (by simp) (by simp) (by simp))

end

end Draft

/-- **A grammar has drafts if its blocks are sound.** -/
theorem Grammar.exists_drafts_iff :
    (∃ defs, g.drafts v = .ok defs) ↔ ∀ r ∈ g.parserRules, r.block.Sound v := by
  simp only [Grammar.drafts, Except.exists_bind_pure_iff, Except.exists_mapM_iff,
    Draft.exists_ofBlock_iff]

end GrammarCompletion
