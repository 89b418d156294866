/-
# The drafts of a rule

The draft of a rule comes first, and those of the blocks in it follow.  Their names are names of
places in the rule (`Under`).  A draft refers to the rules that the text of its block refers to, and
to places; and for each of these there is a draft among them (`Parts`).  No draft is empty, and
wherever a node matches any token, it has the wildcard as its own.

References inside the blocks that become rules of their own are told apart from the others
(`innerReferences`): these are all that is left of a rule if another one takes its place.
-/
import GrammarCompletion.Proofs.Compile.Language

namespace GrammarCompletion

/-! ## Names of places in a rule -/

/-- A name is that of a place in a rule, or in a block in it. -/
inductive Under (rule : String) : String → Prop
  /-- The name of a place in the rule itself. -/
  | place (i j : Nat) : Under rule (placeName rule i j)
  /-- The name of a place in a block in the rule. -/
  | inner {name : String} (i j : Nat) (h : Under rule name) : Under rule (placeName name i j)

variable {rule rule' name place : String} {i j : Nat}

lemma Under.trans (h : Under rule rule') (h' : Under rule' name) : Under rule name := by
  induction h' with
  | place i j => exact .inner i j h
  | inner i j _ ih => exact .inner i j ih

/-- A name is a place in two rules only if one of them is named like a place in the other one. -/
lemma Under.compare (h : Under rule name) (h' : Under rule' name) :
    rule = rule' ∨ Under rule rule' ∨ Under rule' rule := by
  -- the name of a place gives away what it is a place of
  induction h with
  | place i j =>
    generalize hname : placeName rule i j = name at h'
    cases h' with
    | place i' j' => exact .inl (placeName_inj hname).1
    | inner i' j' h' => exact .inr (.inr ((placeName_inj hname).1 ▸ h'))
  | inner i j hr ih =>
    generalize hname : placeName _ i j = name at h'
    cases h' with
    | place i' j' => exact .inr (.inl ((placeName_inj hname).1 ▸ hr))
    | inner i' j' h' => exact ih ((placeName_inj hname).1 ▸ h')

/-- A name without an underscore is not that of a place. -/
lemma not_under_of_plain (h : '_' ∉ name.toList) : ¬ Under rule name := by
  intro hu
  cases hu with
  | place i j => exact h (underscore_mem_placeName rule i j)
  | inner i j _ => exact h (underscore_mem_placeName _ i j)

/-- A name is that of a block at a place, or of a place in it. -/
def UnderPlace (place name : String) : Prop :=
  ∃ j, name = Draft.blockName place j ∨ Under (Draft.blockName place j) name

lemma UnderPlace.under (h : UnderPlace (Draft.alternativeName rule i) name) : Under rule name := by
  obtain ⟨j, rfl | h⟩ := h
  · exact .place i j
  · exact (Under.place i j).trans h

/-! ## References -/

/-- A body has a node for a rule. -/
def RuleBody.Refers {ρ : Type} (body : RuleBody ρ) (ref : ρ) : Prop :=
  ∃ q ∈ body.sequenceList, ∃ n ∈ q.nodes, n.symbol = .rule ref

/-- The references inside the blocks in an element that become rules of their own. -/
def Element.innerReferences (e : Element) : List String :=
  match e.unlabelled with
  | .group _ block => if Block.atom? block = none then Block.references block else []
  | _ => []

/-- The references inside the blocks in an alternative that become rules of their own. -/
def Alternative.innerReferences (a : Alternative) : List String := a.flatMap Element.innerReferences

/-- The references inside the blocks in a block that become rules of their own. -/
def Block.innerReferences (block : Block) : List String :=
  block.flatMap Alternative.innerReferences

lemma Element.references_unlabelled (e : Element) : e.unlabelled.references = e.references := by
  induction e using Element.unlabelled.induct with
  | case1 _ _ target ih => rw [unlabelled, ih, references]
  | case2 e he => rw [unlabelled_eq_self he]

lemma Element.mem_references_of_atom? {e : Element} (h : e.atom? = some (.rule name)) :
    name ∈ e.references := by
  induction e using Element.unlabelled.induct with
  | case1 _ _ target ih => exact ih h
  | case2 e he => cases e <;> simp_all [atom?, references]

lemma Element.mem_references_of_inner {e : Element} (h : name ∈ e.innerReferences) :
    name ∈ e.references := by
  rw [← e.references_unlabelled]
  cases he : e.unlabelled <;> simp_all [innerReferences, references]

lemma Alternative.mem_references_of_mem {a : Alternative} {e : Element} (he : e ∈ a)
    (h : name ∈ e.references) : name ∈ Alternative.references a := by
  induction a with
  | nil => simp at he
  | cons e' rest ih =>
    rw [Alternative.references, List.mem_append]
    rcases List.mem_cons.1 he with rfl | he
    · exact .inl h
    · exact .inr (ih he)

lemma Alternative.mem_references_of_inner {a : Alternative}
    (h : name ∈ Alternative.innerReferences a) : name ∈ Alternative.references a := by
  obtain ⟨e, he, h⟩ := List.mem_flatMap.1 h
  exact Alternative.mem_references_of_mem he (Element.mem_references_of_inner h)

lemma Block.mem_references_of_inner {block : Block} (h : name ∈ block.innerReferences) :
    name ∈ Block.references block := by
  obtain ⟨a, ha, h⟩ := List.mem_flatMap.1 h
  exact Block.mem_references ha (Alternative.mem_references_of_inner h)

/-- A block that is a reference in parentheses. -/
lemma Block.mem_references_of_atom? {block : Block} (h : block.atom? = some (.rule name)) :
    name ∈ Block.references block := by
  obtain ⟨e, rfl, ha⟩ := Block.exists_of_atom? h
  exact Block.mem_references List.mem_cons_self
    (Alternative.mem_references_of_mem List.mem_cons_self (Element.mem_references_of_atom? ha))

/-! ## Parts -/

/-- A node that matches any token has the wildcard as its own. -/
def Node.Proper {ρ : Type} (n : Node ρ) : Prop := n.any = true → n.symbol = .token .wildcard

/-- A body that is not empty, and whose nodes that match any token have the wildcard. -/
def RuleBody.Proper {ρ : Type} : RuleBody ρ → Prop
  | .tokenSet tokens => tokens.toList ≠ []
  | .sequences list => list ≠ [] ∧ ∀ q ∈ list, ∀ n ∈ q.nodes, n.Proper

/-- Nodes that refer to some names, and to the names of drafts. -/
def NodesOf (S : List String) (nodes : List (Node String)) (defs : Definitions) : Prop :=
  ∀ n ∈ nodes, n.Proper ∧ ∀ ref, n.symbol = .rule ref → ref ∈ S ∨ ref ∈ defs.map Prod.fst

/-- A draft that refers to some names, and to the names of drafts. -/
structure DraftOf (S : List String) (d : Draft) (defs : Definitions) : Prop where
  /-- The body is not empty. -/
  proper : d.Proper
  /-- The rules that the draft refers to. -/
  refers : ∀ ref, d.Refers ref → ref ∈ S ∨ ref ∈ defs.map Prod.fst

/-- Drafts whose names have a property, and which refer to some names, and to each other. -/
structure Parts (P : String → Prop) (S : List String) (defs : Definitions) : Prop where
  /-- The names of the drafts. -/
  name : ∀ d ∈ defs, P d.1
  /-- The drafts themselves. -/
  draft : ∀ d ∈ defs, DraftOf S d.2 defs

section

variable {P P' : String → Prop} {S S' : List String} {nodes nodes' : List (Node String)}
  {list list' : List (Sequence String)} {defs defs' : Definitions} {d : Draft}

lemma NodesOf.mono (h : NodesOf S nodes defs) (hS : S ⊆ S') (hdefs : defs ⊆ defs') :
    NodesOf S' nodes defs' := by
  intro n hn
  obtain ⟨hproper, hrefers⟩ := h n hn
  exact ⟨hproper, fun ref href => (hrefers ref href).imp (hS ·) (List.map_subset _ hdefs ·)⟩

lemma NodesOf.append (h : NodesOf S nodes defs) (h' : NodesOf S nodes' defs) :
    NodesOf S (nodes ++ nodes') defs :=
  List.forall_mem_append.2 ⟨h, h'⟩

lemma DraftOf.mono (h : DraftOf S d defs) (hS : S ⊆ S') (hdefs : defs ⊆ defs') :
    DraftOf S' d defs' :=
  ⟨h.proper, fun ref href => (h.refers ref href).imp (hS ·) (List.map_subset _ hdefs ·)⟩

lemma Parts.nil : Parts P S [] := ⟨by simp, by simp⟩

lemma Parts.mono (h : Parts P S defs) (hP : ∀ name, P name → P' name) (hS : S ⊆ S') :
    Parts P' S' defs :=
  ⟨fun d hd => hP _ (h.name d hd), fun d hd => (h.draft d hd).mono hS (List.Subset.refl _)⟩

lemma Parts.append (h : Parts P S defs) (h' : Parts P S defs') : Parts P S (defs ++ defs') where
  name := List.forall_mem_append.2 ⟨h.name, h'.name⟩
  draft := List.forall_mem_append.2
    ⟨fun d hd => (h.draft d hd).mono (List.Subset.refl _) (List.subset_append_left _ _),
      fun d hd => (h'.draft d hd).mono (List.Subset.refl _) (List.subset_append_right _ _)⟩

/-- A draft is put in front of those that it refers to. -/
lemma Parts.cons (h : Parts P S defs) (hP : P name) (hd : DraftOf S d defs) :
    Parts P S ((name, d) :: defs) where
  name := List.forall_mem_cons.2 ⟨hP, h.name⟩
  draft := List.forall_mem_cons.2
    ⟨hd.mono (List.Subset.refl _) (List.subset_cons_self _ _),
      fun d hd => (h.draft d hd).mono (List.Subset.refl _) (List.subset_cons_self _ _)⟩

end

/-- What the drafts of a block are: one of the given name, and those of the blocks in it. -/
def PartsOfBlock (name : String) (block : Block) (defs : Definitions) : Prop :=
  ∃ d inner, defs = (name, d) :: inner ∧ DraftOf (Block.references block) d inner ∧
    Parts (Under name) block.innerReferences inner

/-- What a draft of a rule refers to. -/
lemma PartsOfBlock.refers {ref : String} {block : Block} {part : Definitions}
    {e : String × Draft} (h : PartsOfBlock rule block part) (he : e ∈ part)
    (href : e.2.Refers ref) :
    (ref ∈ Block.references block ∧ (e.1 ≠ rule → ref ∈ block.innerReferences)) ∨
      ref ∈ part.map Prod.fst := by
  obtain ⟨d, inner, rfl, hd, hinner⟩ := h
  rcases List.mem_cons.1 he with rfl | he
  · rcases hd.refers ref href with hmem | hmem
    · exact .inl ⟨hmem, fun hne => absurd rfl hne⟩
    · exact .inr (List.mem_cons_of_mem _ hmem)
  · rcases (hinner.draft e he).refers ref href with hmem | hmem
    · exact .inl ⟨Block.mem_references_of_inner hmem, fun _ => hmem⟩
    · exact .inr (List.mem_cons_of_mem _ hmem)

/-- No draft of a rule is empty. -/
lemma PartsOfBlock.proper {block : Block} {part : Definitions} {e : String × Draft}
    (h : PartsOfBlock rule block part) (he : e ∈ part) : e.2.Proper := by
  obtain ⟨d, inner, rfl, hd, hinner⟩ := h
  rcases List.mem_cons.1 he with rfl | he
  · exact hd.proper
  · exact (hinner.draft e he).proper

/-- What the drafts of a rule are named. -/
lemma PartsOfBlock.name_cases {block : Block} {part : Definitions}
    {e : String × Draft} (h : PartsOfBlock rule block part) (he : e ∈ part) :
    e.1 = rule ∨ Under rule e.1 := by
  obtain ⟨d, inner, rfl, -, hinner⟩ := h
  rcases List.mem_cons.1 he with rfl | he
  · exact .inl rfl
  · exact .inr (hinner.name e he)

namespace Draft

variable {v : Vocabulary} {owner : String} {c : Cardinality} {a : Atom}

lemma atomNode_parts {n : Node String} (h : atomNode v owner c a = .ok n) :
    n.Proper ∧ ∀ ref, n.symbol = .rule ref → a = .rule ref := by
  cases a with
  | terminal name =>
    obtain ⟨id, -, h⟩ := Except.bind_eq_ok.1 h
    obtain rfl : Node.token id c = n := Except.ok.inj h
    exact ⟨by simp [Node.Proper, Node.token], by simp [Node.token]⟩
  | rule name =>
    obtain rfl : Node.rule name c = n := Except.ok.inj h
    exact ⟨by simp [Node.Proper, Node.rule], by simp [Node.rule]⟩
  | wildcard =>
    obtain rfl : Node.wildcard c = n := Except.ok.inj h
    exact ⟨by simp [Node.Proper, Node.wildcard], by simp [Node.wildcard]⟩

/-- An element that occurs as the node of an atom yields no drafts. -/
lemma atom_parts {P : String → Prop} {S S' : List String} {n : Option (Node String)}
    {defs : Definitions} (ha : ∀ ref, a = .rule ref → ref ∈ S)
    (h : (do return (some (← atomNode v owner c a), []) :
      Except CompileError (Option (Node String) × Definitions)) = .ok (n, defs)) :
    NodesOf S n.toList defs ∧ Parts P S' defs := by
  obtain ⟨node, hnode, h⟩ := Except.bind_eq_ok.1 h
  obtain ⟨rfl, rfl⟩ : some node = n ∧ [] = defs := by simpa [pure, Except.pure] using h
  obtain ⟨hproper, hrefers⟩ := atomNode_parts hnode
  refine ⟨fun n hn => ?_, .nil⟩
  obtain rfl : n = node := by simpa using hn
  exact ⟨hproper, fun ref href => .inl (ha ref (hrefers ref href))⟩

/-- A block that becomes a rule of its own. -/
lemma group_parts {place : String} {i : Nat} {block : Block} {defs : Definitions}
    (hs : block.atom? = none) (h : PartsOfBlock (blockName place i) block defs) :
    NodesOf (Element.group c block).references (some (Node.rule (blockName place i) c)).toList defs ∧
      Parts (UnderPlace place) (Element.group c block).innerReferences defs := by
  obtain ⟨d, inner, rfl, hd, hinner⟩ := h
  have hreferences : (Element.group c block).innerReferences = Block.references block := by
    simp [Element.innerReferences, Element.unlabelled, hs]
  constructor
  · intro n hn
    obtain rfl : n = .rule (blockName place i) c := by simpa using hn
    refine ⟨by simp [Node.Proper, Node.rule], fun ref href => .inr ?_⟩
    obtain rfl : blockName place i = ref := by simpa [Node.rule] using href
    exact List.mem_cons_self
  · rw [hreferences]
    refine .cons ?_ ⟨i, .inl rfl⟩ hd
    exact hinner.mono (fun _ hname => ⟨i, .inr hname⟩) fun _ => Block.mem_references_of_inner

/-- An alternative in front of others. -/
lemma alternatives_parts_cons {name : String} {i : Nat} {a : Alternative}
    {rest : List Alternative} {q : Sequence String} {list : List (Sequence String)}
    {inner others : Definitions}
    (ha : NodesOf (Alternative.references a) q.nodes inner ∧
      Parts (UnderPlace (alternativeName name i)) (Alternative.innerReferences a) inner)
    (hrest : (∀ q ∈ list, NodesOf (Block.references rest) q.nodes others) ∧
      Parts (Under name) (Block.innerReferences rest) others) :
    (∀ q' ∈ q :: list, NodesOf (Block.references (a :: rest)) q'.nodes (inner ++ others)) ∧
      Parts (Under name) (Block.innerReferences (a :: rest)) (inner ++ others) := by
  have hfirst : Alternative.references a ⊆ Block.references (a :: rest) :=
    List.subset_append_left _ _
  have hothers : Block.references rest ⊆ Block.references (a :: rest) :=
    List.subset_append_right _ _
  refine ⟨List.forall_mem_cons.2 ⟨?_, fun q' hq' => ?_⟩, .append ?_ ?_⟩
  · exact ha.1.mono hfirst (List.subset_append_left _ _)
  · exact (hrest.1 q' hq').mono hothers (List.subset_append_right _ _)
  · exact ha.2.mono (fun _ => UnderPlace.under) (List.subset_append_left _ _)
  · exact hrest.2.mono (fun _ => id) (List.subset_append_right _ _)

mutual

/-- The drafts of a block. -/
theorem ofBlock_parts {name : String} {defs : Definitions} : (block : Block) →
    ofBlock v owner name block = .ok defs → PartsOfBlock name block defs
  | [], h => by simp [ofBlock] at h
  | a :: rest, h => by
    rw [ofBlock] at h
    split at h
    · next names hn =>
      obtain ⟨ids, hids, h⟩ := Except.bind_eq_ok.1 h
      obtain rfl : [(name, .tokenSet (.ofList ids))] = defs := Except.ok.inj h
      refine ⟨_, [], rfl, ⟨?_, ?_⟩, .nil⟩
      · -- there is a token for each of the alternatives
        have hlen : ids.length = (a :: rest).length :=
          ((forall₂_of_terminals? hn).length_eq.trans
            (Except.forall₂_of_mapM hids).length_eq).symm
        obtain ⟨id, hid⟩ := List.exists_mem_of_length_pos (l := ids) (by simp [hlen])
        exact List.ne_nil_of_mem (OrderedSet.mem_ofList.2 hid)
      · rintro ref ⟨q, hq, -⟩
        simp [RuleBody.sequenceList] at hq
    · next hn =>
      obtain ⟨⟨nodes, inner⟩, ha, h⟩ := Except.bind_eq_ok.1 h
      obtain ⟨⟨list, others⟩, hrest, h⟩ := Except.bind_eq_ok.1 h
      obtain rfl : (name, _) :: (inner ++ others) = defs := Except.ok.inj h
      obtain ⟨hlist, hinner⟩ := alternatives_parts_cons
        (q := ⟨nodes, Alternative.predicate? a⟩) (ofElements_parts a ha)
        (ofAlternatives_parts rest hrest)
      refine ⟨_, _, rfl, ⟨⟨by simp, fun q hq n hn => (hlist q hq n hn).1⟩, ?_⟩, hinner⟩
      rintro ref ⟨q, hq, n, hn, href⟩
      exact (hlist q hq n hn).2 ref href

/-- The sequences of alternatives, and the drafts of the blocks in them. -/
theorem ofAlternatives_parts {name : String} {i : Nat} {list : List (Sequence String)}
    {defs : Definitions} : (alternatives : List Alternative) →
    ofAlternatives v owner name i alternatives = .ok (list, defs) →
      (∀ q ∈ list, NodesOf (Block.references alternatives) q.nodes defs) ∧
        Parts (Under name) (Block.innerReferences alternatives) defs
  | [], h => by
    obtain ⟨rfl, rfl⟩ : [] = list ∧ [] = defs := by simpa [ofAlternatives] using h
    exact ⟨by simp, .nil⟩
  | a :: rest, h => by
    rw [ofAlternatives] at h
    obtain ⟨⟨nodes, inner⟩, ha, h⟩ := Except.bind_eq_ok.1 h
    obtain ⟨⟨list', others⟩, hrest, h⟩ := Except.bind_eq_ok.1 h
    obtain ⟨rfl, rfl⟩ : _ :: list' = list ∧ inner ++ others = defs := by
      simpa [pure, Except.pure] using h
    exact alternatives_parts_cons (ofElements_parts a ha) (ofAlternatives_parts rest hrest)

/-- The nodes of elements, and the drafts of the blocks in them. -/
theorem ofElements_parts {place : String} {i : Nat} {nodes : List (Node String)}
    {defs : Definitions} : (elements : List Element) →
    ofElements v owner place i elements = .ok (nodes, defs) →
      NodesOf (Alternative.references elements) nodes defs ∧
        Parts (UnderPlace place) (Alternative.innerReferences elements) defs
  | [], h => by
    obtain ⟨rfl, rfl⟩ : [] = nodes ∧ [] = defs := by simpa [ofElements] using h
    exact ⟨List.forall_mem_nil _, .nil⟩
  | e :: rest, h => by
    rw [ofElements] at h
    obtain ⟨⟨n, inner⟩, he, h⟩ := Except.bind_eq_ok.1 h
    obtain ⟨⟨nodes', others⟩, hrest, h⟩ := Except.bind_eq_ok.1 h
    obtain ⟨rfl, rfl⟩ : n.toList ++ nodes' = nodes ∧ inner ++ others = defs := by
      simpa [pure, Except.pure] using h
    obtain ⟨hn, hinner⟩ := ofElement_parts e he
    obtain ⟨hnodes, hothers⟩ := ofElements_parts rest hrest
    refine ⟨.append ?_ ?_, .append ?_ ?_⟩
    · exact hn.mono (List.subset_append_left _ _) (List.subset_append_left _ _)
    · exact hnodes.mono (List.subset_append_right _ _) (List.subset_append_right _ _)
    · exact hinner.mono (fun _ => id) (List.subset_append_left _ _)
    · exact hothers.mono (fun _ => id) (List.subset_append_right _ _)

/-- The node of an element, and the drafts of the blocks in it. -/
theorem ofElement_parts {place : String} {i : Nat} {n : Option (Node String)}
    {defs : Definitions} : (e : Element) → ofElement v owner place i e = .ok (n, defs) →
      NodesOf e.references n.toList defs ∧ Parts (UnderPlace place) e.innerReferences defs
  | .token name, h => atom_parts (by simp) h
  | .literal text, h => atom_parts (by simp) h
  | .charSet text, h => atom_parts (by simp) h
  | .rule name, h => atom_parts (by simp [Element.references]) h
  | .wildcard, h => atom_parts (by simp) h
  | .label label op target, h => ofElement_parts target h
  | .group c block, h => by
    rw [ofElement] at h
    split at h
    · next a ha => exact atom_parts (fun ref href => Block.mem_references_of_atom? (href ▸ ha)) h
    · next hs =>
      obtain ⟨inner, hinner, h⟩ := Except.bind_eq_ok.1 h
      obtain ⟨rfl, rfl⟩ : some (Node.rule (blockName place i) c) = n ∧ inner = defs := by
        simpa [pure, Except.pure] using h
      exact group_parts hs (ofBlock_parts block hinner)
  | .action code, h => by simp [ofElement] at h
  | .semPred code, h => by
    obtain ⟨rfl, rfl⟩ : none = n ∧ [] = defs := by simpa [ofElement] using h
    exact ⟨List.forall_mem_nil _, .nil⟩
  | .synPred code, h => by
    obtain ⟨rfl, rfl⟩ : none = n ∧ [] = defs := by simpa [ofElement] using h
    exact ⟨List.forall_mem_nil _, .nil⟩
  | .epsilon, h => by
    obtain ⟨rfl, rfl⟩ : none = n ∧ [] = defs := by simpa [ofElement] using h
    exact ⟨List.forall_mem_nil _, .nil⟩

end

end Draft

end GrammarCompletion
