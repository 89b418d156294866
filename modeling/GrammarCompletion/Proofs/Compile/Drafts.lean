/-
# What blocks are compiled to

`Grammar.CompilesBlock` says of a rule body that it is compiled from a block, and the same is said of
the parts.  It does not matter how a body refers to rules: by name, as drafts do, or by id, as
models do.  A block in parentheses is one atom, and then a node for the atom; or it goes by the name
of its place, and the node is for the rule of that name.

Every draft that is made of the rules of a grammar is compiled from a block that goes by the name of
the draft (`drafts_sound`).
-/
import GrammarCompletion.Proofs.Compile.Places
import GrammarCompletion.Proofs.Results

namespace GrammarCompletion

/-! ## Compiled bodies -/

/-- The element matches nothing. -/
def Element.IsSilent (e : Element) : Prop :=
  (∃ code, e.unlabelled = .semPred code) ∨ (∃ code, e.unlabelled = .synPred code) ∨
    e.unlabelled = .epsilon

namespace Grammar

section

variable (g : Grammar) (v : Vocabulary) {ρ : Type} (Ref : String → ρ → Prop)

/-- A node is compiled from an atom. -/
inductive CompilesAtom (v : Vocabulary) (Ref : String → ρ → Prop) (c : Cardinality) :
    Atom → Node ρ → Prop
  | terminal {name : String} {id : TokenId} (h : v.get? name = some id) :
      CompilesAtom v Ref c (.terminal name) (.token id c)
  | rule {name : String} {ref : ρ} (h : Ref name ref) :
      CompilesAtom v Ref c (.rule name) (.rule ref c)
  | wildcard : CompilesAtom v Ref c .wildcard (.wildcard c)

/-- A node, or nothing, is compiled from an element at a place. -/
inductive CompilesElement (place : String) (i : Nat) (e : Element) : Option (Node ρ) → Prop
  | atom {a : Atom} {n : Node ρ} (he : e.atom? = some a) (hn : CompilesAtom v Ref .one a n) :
      CompilesElement place i e (some n)
  | single {c : Cardinality} {block : Block} {a : Atom} {n : Node ρ}
      (he : e.unlabelled = .group c block) (ha : block.atom? = some a)
      (hn : CompilesAtom v Ref c a n) : CompilesElement place i e (some n)
  | block {c : Cardinality} {block : Block} {ref : ρ} (he : e.unlabelled = .group c block)
      (ha : block.atom? = none) (hb : g.Named (Draft.blockName place i) block)
      (hr : Ref (Draft.blockName place i) ref) : CompilesElement place i e (some (.rule ref c))
  | silent (he : e.IsSilent) : CompilesElement place i e none

/-- Nodes are compiled from elements at a place, the first of which has index `i`. -/
inductive CompilesElements (place : String) : Nat → List Element → List (Node ρ) → Prop
  | nil {i : Nat} : CompilesElements place i [] []
  | cons {i : Nat} {e : Element} {rest : List Element} {n : Option (Node ρ)} {nodes : List (Node ρ)}
      (he : g.CompilesElement v Ref place i e n) (h : CompilesElements place (i + 1) rest nodes) :
      CompilesElements place i (e :: rest) (n.toList ++ nodes)

/-- Sequences are compiled from alternatives of a rule, the first of which has index `i`. -/
inductive CompilesAlternatives (name : String) : Nat → List Alternative → List (Sequence ρ) → Prop
  | nil {i : Nat} : CompilesAlternatives name i [] []
  | cons {i : Nat} {a : Alternative} {rest : List Alternative} {q : Sequence ρ}
      {list : List (Sequence ρ)}
      (ha : g.CompilesElements v Ref (Draft.alternativeName name i) 0 a q.nodes)
      (hp : q.predicate = Alternative.predicate? a)
      (h : CompilesAlternatives name (i + 1) rest list) :
      CompilesAlternatives name i (a :: rest) (q :: list)

/-- The body of a rule is compiled from a block. -/
inductive CompilesBlock (name : String) (block : Block) : RuleBody ρ → Prop
  | tokenSet {names : List String} {ids : List TokenId} (hn : Block.terminals? block = some names)
      (hids : List.Forall₂ (fun n id => v.get? n = some id) names ids) :
      CompilesBlock name block (.tokenSet (.ofList ids))
  | sequences {list : List (Sequence ρ)} (hn : Block.terminals? block = none)
      (h : g.CompilesAlternatives v Ref name 0 block list) :
      CompilesBlock name block (.sequences list)

end

/-! ## Drafts -/

/-- A draft is compiled from a block that goes by its name. -/
def SoundDraft (g : Grammar) (v : Vocabulary) (d : String × Draft) : Prop :=
  ∃ block, g.Named d.1 block ∧ g.CompilesBlock v (· = ·) d.1 block d.2

variable {g : Grammar} {v : Vocabulary} {owner name place : String} {c : Cardinality} {a : Atom}

lemma tokenId_eq_ok {id : TokenId} (h : Draft.tokenId v owner name = .ok id) :
    v.get? name = some id := by
  unfold Draft.tokenId at h
  split at h
  · next hid => exact hid.trans (congrArg some (Except.ok.inj h))
  · simp at h

lemma atomNode_sound {n : Node String} (h : Draft.atomNode v owner c a = .ok n) :
    CompilesAtom v (· = ·) c a n := by
  cases a with
  | terminal name =>
    obtain ⟨id, hid, h⟩ := Except.bind_eq_ok.1 h
    obtain rfl : Node.token id c = n := Except.ok.inj h
    exact .terminal (tokenId_eq_ok hid)
  | rule name =>
    obtain rfl : Node.rule name c = n := Except.ok.inj h
    exact .rule rfl
  | wildcard =>
    obtain rfl : Node.wildcard c = n := Except.ok.inj h
    exact .wildcard

/-- Labels do not matter. -/
lemma CompilesElement.congr {ρ : Type} {Ref : String → ρ → Prop} {i : Nat} {e e' : Element}
    {n : Option (Node ρ)} (h : g.CompilesElement v Ref place i e n)
    (he' : e'.unlabelled = e.unlabelled) : g.CompilesElement v Ref place i e' n := by
  cases h with
  | atom he hn =>
    refine .atom ?_ hn
    rw [← Element.atom?_unlabelled, he', Element.atom?_unlabelled, he]
  | single he ha hn => exact .single (he'.trans he) ha hn
  | block he ha hb hr => exact .block (he'.trans he) ha hb hr
  | silent he =>
    refine .silent ?_
    rwa [Element.IsSilent, he']

/-- An element that is an atom yields a node and no drafts. -/
lemma atom_sound {i : Nat} {e : Element} {n : Option (Node String)} {defs : Definitions}
    (he : e.atom? = some a)
    (h : (do return (some (← Draft.atomNode v owner .one a), []) :
      Except CompileError (Option (Node String) × Definitions)) = .ok (n, defs)) :
    g.CompilesElement v (· = ·) place i e n ∧ ∀ d ∈ defs, g.SoundDraft v d := by
  obtain ⟨node, hnode, h⟩ := Except.bind_eq_ok.1 h
  obtain ⟨rfl, rfl⟩ : some node = n ∧ [] = defs := by simpa [pure, Except.pure] using h
  exact ⟨.atom he (atomNode_sound hnode), List.forall_mem_nil _⟩

/-- The blocks in parentheses among elements at a place go by the names of their places. -/
def NamesInner (g : Grammar) (place : String) (i : Nat) (elements : List Element) : Prop :=
  ∀ j e c (inner : Block), elements[j]? = some e → e.unlabelled = .group c inner →
    inner.atom? = none → g.Named (Draft.blockName place (i + j)) inner

lemma NamesInner.tail {i : Nat} {e : Element} {rest : List Element}
    (h : g.NamesInner place i (e :: rest)) : g.NamesInner place (i + 1) rest := by
  intro j e' c inner he hg hs
  have hnamed := h (j + 1) e' c inner (by simpa using he) hg hs
  rwa [Nat.add_comm j 1, ← Nat.add_assoc] at hnamed

lemma Named.namesInner {block : Block} (hb : g.Named name block) {i : Nat} {a : Alternative}
    (ha : block[i]? = some a) : g.NamesInner (Draft.alternativeName name i) 0 a := by
  intro j e c inner he hg hs
  rw [Nat.zero_add]
  exact .inner hb ⟨a, e, c, ha, he, hg, hs⟩

mutual

/-- The drafts of a block that goes by a name are sound, and one of them has that name. -/
theorem ofBlock_sound {name : String} {defs : Definitions} : (block : Block) →
    g.Named name block → Draft.ofBlock v owner name block = .ok defs →
      name ∈ defs.map Prod.fst ∧ ∀ d ∈ defs, g.SoundDraft v d
  | [], _, h => by simp [Draft.ofBlock] at h
  | a :: rest, hb, h => by
    rw [Draft.ofBlock] at h
    split at h
    · next names hn =>
      obtain ⟨ids, hids, h⟩ := Except.bind_eq_ok.1 h
      obtain rfl : [(name, .tokenSet (.ofList ids))] = defs := Except.ok.inj h
      refine ⟨by simp, List.forall_mem_singleton.2 ⟨_, hb, .tokenSet hn ?_⟩⟩
      exact (Except.forall₂_of_mapM hids).imp fun _ _ => tokenId_eq_ok
    · next hn =>
      obtain ⟨⟨nodes, inner⟩, ha, h⟩ := Except.bind_eq_ok.1 h
      obtain ⟨⟨list, others⟩, hrest, h⟩ := Except.bind_eq_ok.1 h
      obtain rfl : (name, _) :: (inner ++ others) = defs := Except.ok.inj h
      obtain ⟨hnodes, hinner⟩ := ofElements_sound a (hb.namesInner (i := 0) rfl) ha
      obtain ⟨hlist, hothers⟩ := ofAlternatives_sound rest
        (fun k a' ha' => hb.namesInner (i := 1 + k) (by simpa [Nat.add_comm] using ha')) hrest
      refine ⟨by simp, List.forall_mem_cons.2 ⟨⟨_, hb, .sequences hn (.cons hnodes rfl hlist)⟩, ?_⟩⟩
      exact List.forall_mem_append.2 ⟨hinner, hothers⟩

/-- The sequences of alternatives are compiled from them, and the drafts are sound. -/
theorem ofAlternatives_sound {name : String} {i : Nat} {list : List (Sequence String)}
    {defs : Definitions} : (alternatives : List Alternative) →
    (∀ k a, alternatives[k]? = some a → g.NamesInner (Draft.alternativeName name (i + k)) 0 a) →
    Draft.ofAlternatives v owner name i alternatives = .ok (list, defs) →
      g.CompilesAlternatives v (· = ·) name i alternatives list ∧ ∀ d ∈ defs, g.SoundDraft v d
  | [], _, h => by
    obtain ⟨rfl, rfl⟩ : [] = list ∧ [] = defs := by simpa [Draft.ofAlternatives] using h
    exact ⟨.nil, List.forall_mem_nil _⟩
  | a :: rest, hnamed, h => by
    rw [Draft.ofAlternatives] at h
    obtain ⟨⟨nodes, inner⟩, ha, h⟩ := Except.bind_eq_ok.1 h
    obtain ⟨⟨list', others⟩, hrest, h⟩ := Except.bind_eq_ok.1 h
    obtain ⟨rfl, rfl⟩ : _ :: list' = list ∧ inner ++ others = defs := by
      simpa [pure, Except.pure] using h
    obtain ⟨hnodes, hinner⟩ := ofElements_sound a (hnamed 0 a rfl) ha
    have hnamed' : ∀ k a', rest[k]? = some a' →
        g.NamesInner (Draft.alternativeName name (i + 1 + k)) 0 a' := by
      intro k a' ha'
      have := hnamed (k + 1) a' (by simpa using ha')
      rwa [Nat.add_comm k 1, ← Nat.add_assoc] at this
    obtain ⟨hlist, hothers⟩ := ofAlternatives_sound rest hnamed' hrest
    exact ⟨.cons hnodes rfl hlist, List.forall_mem_append.2 ⟨hinner, hothers⟩⟩

/-- The nodes of elements are compiled from them, and the drafts are sound. -/
theorem ofElements_sound {place : String} {i : Nat} {nodes : List (Node String)}
    {defs : Definitions} : (elements : List Element) → g.NamesInner place i elements →
    Draft.ofElements v owner place i elements = .ok (nodes, defs) →
      g.CompilesElements v (· = ·) place i elements nodes ∧ ∀ d ∈ defs, g.SoundDraft v d
  | [], _, h => by
    obtain ⟨rfl, rfl⟩ : [] = nodes ∧ [] = defs := by simpa [Draft.ofElements] using h
    exact ⟨.nil, List.forall_mem_nil _⟩
  | e :: rest, hnamed, h => by
    rw [Draft.ofElements] at h
    obtain ⟨⟨n, inner⟩, he, h⟩ := Except.bind_eq_ok.1 h
    obtain ⟨⟨nodes', others⟩, hrest, h⟩ := Except.bind_eq_ok.1 h
    obtain ⟨rfl, rfl⟩ : n.toList ++ nodes' = nodes ∧ inner ++ others = defs := by
      simpa [pure, Except.pure] using h
    obtain ⟨hn, hinner⟩ := ofElement_sound e (fun c b => hnamed 0 e c b rfl) he
    obtain ⟨hnodes, hothers⟩ := ofElements_sound rest hnamed.tail hrest
    exact ⟨.cons hn hnodes, List.forall_mem_append.2 ⟨hinner, hothers⟩⟩

/-- The node of an element is compiled from it, and the drafts are sound. -/
theorem ofElement_sound {place : String} {i : Nat} {n : Option (Node String)}
    {defs : Definitions} : (e : Element) →
    (∀ c (inner : Block), e.unlabelled = .group c inner → inner.atom? = none →
      g.Named (Draft.blockName place i) inner) →
    Draft.ofElement v owner place i e = .ok (n, defs) →
      g.CompilesElement v (· = ·) place i e n ∧ ∀ d ∈ defs, g.SoundDraft v d
  | .token name, _, h => atom_sound rfl h
  | .literal text, _, h => atom_sound rfl h
  | .charSet text, _, h => atom_sound rfl h
  | .rule name, _, h => atom_sound rfl h
  | .wildcard, _, h => atom_sound rfl h
  | .label label op target, hnamed, h => by
    obtain ⟨hn, hdefs⟩ := ofElement_sound target hnamed h
    exact ⟨hn.congr rfl, hdefs⟩
  | .group c block, hnamed, h => by
    rw [Draft.ofElement] at h
    split at h
    · next a ha =>
      obtain ⟨node, hnode, h⟩ := Except.bind_eq_ok.1 h
      obtain ⟨rfl, rfl⟩ : some node = n ∧ [] = defs := by simpa [pure, Except.pure] using h
      exact ⟨.single rfl ha (atomNode_sound hnode), List.forall_mem_nil _⟩
    · next hs =>
      obtain ⟨inner, hinner, h⟩ := Except.bind_eq_ok.1 h
      obtain ⟨rfl, rfl⟩ : some (Node.rule (Draft.blockName place i) c) = n ∧ inner = defs := by
        simpa [pure, Except.pure] using h
      have hb := hnamed c block rfl hs
      exact ⟨.block rfl hs hb rfl, (ofBlock_sound block hb hinner).2⟩
  | .action code, _, h => by simp [Draft.ofElement] at h
  | .semPred code, _, h => by
    obtain ⟨rfl, rfl⟩ : none = n ∧ [] = defs := by simpa [Draft.ofElement] using h
    exact ⟨.silent (.inl ⟨code, rfl⟩), List.forall_mem_nil _⟩
  | .synPred code, _, h => by
    obtain ⟨rfl, rfl⟩ : none = n ∧ [] = defs := by simpa [Draft.ofElement] using h
    exact ⟨.silent (.inr (.inl ⟨code, rfl⟩)), List.forall_mem_nil _⟩
  | .epsilon, _, h => by
    obtain ⟨rfl, rfl⟩ : none = n ∧ [] = defs := by simpa [Draft.ofElement] using h
    exact ⟨.silent (.inr (.inr rfl)), List.forall_mem_nil _⟩

end

/-- **Every draft of a grammar is compiled from a block that goes by its name**, and every parser
rule has one. -/
theorem drafts_sound {defs : Definitions} (h : g.drafts v = .ok defs) :
    (∀ r ∈ g.parserRules, r.name ∈ defs.map Prod.fst) ∧ ∀ d ∈ defs, g.SoundDraft v d := by
  obtain ⟨parts, hparts, h⟩ := Except.bind_eq_ok.1 h
  obtain rfl : parts.flatten = defs := Except.ok.inj h
  refine ⟨fun r hr => ?_, fun d hd => ?_⟩
  · obtain ⟨part, hpart, hdefs⟩ := Except.exists_mem_of_mapM hparts hr
    obtain ⟨d, hd, hname⟩ := List.mem_map.1 (ofBlock_sound r.block (.rule hr) hdefs).1
    exact List.mem_map.2 ⟨d, List.mem_flatten.2 ⟨part, hpart, hd⟩, hname⟩
  · obtain ⟨part, hpart, hd⟩ := List.mem_flatten.1 hd
    obtain ⟨r, hr, hdefs⟩ := Except.exists_of_mem_mapM hparts hpart
    exact (ofBlock_sound r.block (.rule hr) hdefs).2 d hd

end Grammar

end GrammarCompletion
