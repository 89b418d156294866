/-
# Grammars that have a model

A grammar without imports has a model if it has a parser rule, if all blocks in its parser rules are
sound, and if every reference is to a rule that there is (`Grammar.Supported`).  If its names are
apart, then these conditions are also necessary (`compile_iff_supported`).

References are looked up when drafts are linked.  By then all blocks that go by a name have drafts,
so what a supported grammar refers to is found.  In the other direction, a reference is looked up
only if the draft that makes it is still there.  This is where the names have to be apart: what
another draft has replaced may refer to anything.
-/
import GrammarCompletion.Proofs.Compile.Sound
import GrammarCompletion.Proofs.Compile.Table

namespace GrammarCompletion

/-- What a grammar without imports has to have so that there is a model. -/
structure Grammar.Supported (g : Grammar) (v : Vocabulary) : Prop where
  /-- There is a parser rule. -/
  rules : g.parserRules ≠ []
  /-- Every parser rule has an alternative, and all elements in it are accepted. -/
  sound : ∀ r ∈ g.parserRules, r.block.Sound v
  /-- Every reference is to a parser rule, or to a block in parentheses by the name of its place. -/
  reference : ∀ r ∈ g.parserRules, ∀ name, r.block.Has (.rule name) →
    (∃ r' ∈ g.parserRules, r'.name = name) ∨ g.Generates name

variable {g : Grammar} {v : Vocabulary} {loader : Option Loader} {owner name place ref : String}
  {block inner : Block} {a : Alternative} {i j k : Nat} {e : Element} {atom : Atom}
  {c : Cardinality} {defs : Definitions}

/-! ## The drafts of blocks in a block -/

namespace Draft

/-- Labels do not matter. -/
lemma ofElement_unlabelled (e : Element) :
    ofElement v owner place i e.unlabelled = ofElement v owner place i e := by
  induction e using Element.unlabelled.induct with
  | case1 _ _ target ih => rw [Element.unlabelled, ih, ofElement]
  | case2 e hl => rw [Element.unlabelled_eq_self hl]

/-- The drafts of an alternative are among those of the alternatives. -/
lemma exists_of_ofAlternatives {alternatives : List Alternative} {list : List (Sequence String)}
    (h : ofAlternatives v owner name i alternatives = .ok (list, defs))
    (ha : alternatives[k]? = some a) :
    ∃ nodes part, ofElements v owner (alternativeName name (i + k)) 0 a = .ok (nodes, part) ∧
      part ⊆ defs := by
  induction alternatives generalizing i k list defs with
  | nil => simp at ha
  | cons b rest ih =>
    rw [ofAlternatives] at h
    obtain ⟨⟨nodes, part⟩, hpart, h⟩ := Except.bind_eq_ok.1 h
    obtain ⟨⟨list', others⟩, hrest, h⟩ := Except.bind_eq_ok.1 h
    obtain ⟨-, rfl⟩ : _ :: list' = list ∧ part ++ others = defs := by
      simpa [pure, Except.pure] using h
    cases k with
    | zero =>
      obtain rfl : b = a := by simpa using ha
      exact ⟨nodes, part, hpart, List.subset_append_left _ _⟩
    | succ k =>
      obtain ⟨nodes', part', hpart', hsub⟩ := ih (k := k) hrest (by simpa using ha)
      rw [Nat.add_comm k 1, ← Nat.add_assoc]
      exact ⟨nodes', part', hpart', List.subset_append_of_subset_right _ hsub⟩

/-- The drafts of an element are among those of the elements. -/
lemma exists_of_ofElements {elements : List Element} {nodes : List (Node String)}
    (h : ofElements v owner place i elements = .ok (nodes, defs)) (he : elements[k]? = some e) :
    ∃ n part, ofElement v owner place (i + k) e = .ok (n, part) ∧ part ⊆ defs := by
  induction elements generalizing i k nodes defs with
  | nil => simp at he
  | cons b rest ih =>
    rw [ofElements] at h
    obtain ⟨⟨n, part⟩, hpart, h⟩ := Except.bind_eq_ok.1 h
    obtain ⟨⟨nodes', others⟩, hrest, h⟩ := Except.bind_eq_ok.1 h
    obtain ⟨-, rfl⟩ : n.toList ++ nodes' = nodes ∧ part ++ others = defs := by
      simpa [pure, Except.pure] using h
    cases k with
    | zero =>
      obtain rfl : b = e := by simpa using he
      exact ⟨n, part, hpart, List.subset_append_left _ _⟩
    | succ k =>
      obtain ⟨n', part', hpart', hsub⟩ := ih (k := k) hrest (by simpa using he)
      rw [Nat.add_comm k 1, ← Nat.add_assoc]
      exact ⟨n', part', hpart', List.subset_append_of_subset_right _ hsub⟩

/-- A block that is not made into a token set is made of its alternatives. -/
lemma ofBlock_of_terminals?_eq_none (hn : Block.terminals? block = none) :
    ofBlock v owner name block = (do
      let (list, inner) ← ofAlternatives v owner name 0 block
      return (name, .sequences list) :: inner) := by
  cases block with
  | nil => simp [Block.terminals?] at hn
  | cons a rest =>
    rw [ofBlock, hn, ofAlternatives]
    simp

/-- The drafts of a block in parentheses are among those of the block that it is in. -/
lemma exists_of_hasAt (h : ofBlock v owner name block = .ok defs) (hi : block.HasAt i j inner) :
    ∃ part, ofBlock v owner (placeName name i j) inner = .ok part ∧ part ⊆ defs := by
  rw [ofBlock_of_terminals?_eq_none hi.terminals?_eq_none] at h
  obtain ⟨⟨list, others⟩, hlist, h⟩ := Except.bind_eq_ok.1 h
  obtain rfl : (name, .sequences list) :: others = defs := Except.ok.inj h
  obtain ⟨a, e, c, ha, he, hg, hatom⟩ := hi
  obtain ⟨nodes, inA, hnodes, hinA⟩ := exists_of_ofAlternatives hlist ha
  obtain ⟨n, part, hn, hpart⟩ := exists_of_ofElements hnodes he
  rw [Nat.zero_add, Nat.zero_add, ← ofElement_unlabelled, hg, ofElement] at hn
  split at hn
  · next atom hsome => simp [Block.atom?, hsome] at hatom
  · obtain ⟨part', hpart', hn⟩ := Except.bind_eq_ok.1 hn
    obtain ⟨-, rfl⟩ : _ = n ∧ part' = part := by simpa [pure, Except.pure] using hn
    exact ⟨part', hpart', fun d hd => List.mem_cons_of_mem _ (hinA (hpart hd))⟩

end Draft

/-! ## References -/

mutual

/-- A name in an element is a reference in it. -/
theorem Element.within_of_mem_references : (e : Element) → ref ∈ e.references →
    (Element.rule ref).Within e
  | .rule name, h => by
    obtain rfl : ref = name := by simpa [Element.references] using h
    exact .self
  | .group c block, h => by
    obtain ⟨a, ha, e, he, h⟩ := Block.has_of_mem_references block h
    exact .group ha he h
  | .label name op target, h => .label (Element.within_of_mem_references target h)
  | .token _, h | .literal _, h | .charSet _, h | .wildcard, h | .semPred _, h | .synPred _, h
  | .action _, h | .epsilon, h => by simp [Element.references] at h

/-- A name in an alternative is a reference in one of its elements. -/
theorem Alternative.exists_within_of_mem_references : (a : List Element) →
    ref ∈ Alternative.references a → ∃ e ∈ a, (Element.rule ref).Within e
  | [], h => by simp [Alternative.references] at h
  | e :: rest, h => by
    rcases List.mem_append.1 h with h | h
    · exact ⟨e, List.mem_cons_self, Element.within_of_mem_references e h⟩
    · obtain ⟨e', he', h⟩ := Alternative.exists_within_of_mem_references rest h
      exact ⟨e', List.mem_cons_of_mem e he', h⟩

/-- A name in a block is a reference in it. -/
theorem Block.has_of_mem_references : (block : List Alternative) →
    ref ∈ Block.references block → Block.Has block (.rule ref)
  | [], h => by simp [Block.references] at h
  | a :: rest, h => by
    rcases List.mem_append.1 h with h | h
    · exact ⟨a, List.mem_cons_self, Alternative.exists_within_of_mem_references a h⟩
    · obtain ⟨a', ha', h⟩ := Block.has_of_mem_references rest h
      exact ⟨a', List.mem_cons_of_mem a ha', h⟩

end

namespace Grammar

/-- A block that goes by a name has its drafts among those of the grammar. -/
lemma Named.exists_drafts (hb : g.Named name block) (h : g.drafts v = .ok defs) :
    ∃ owner part, Draft.ofBlock v owner name block = .ok part ∧ part ⊆ defs := by
  induction hb with
  | @rule r hr =>
    obtain ⟨parts, hparts, h⟩ := Except.bind_eq_ok.1 h
    obtain rfl : parts.flatten = defs := Except.ok.inj h
    obtain ⟨part, hpart, hblock⟩ := Except.exists_mem_of_mapM hparts hr
    exact ⟨r.name, part, hblock, fun _ hd => List.mem_flatten.2 ⟨part, hpart, hd⟩⟩
  | inner _ hi ih =>
    obtain ⟨owner, part, hpart, hsub⟩ := ih
    obtain ⟨part', hpart', hsub'⟩ := Draft.exists_of_hasAt hpart hi
    exact ⟨owner, part', hpart', fun _ hd => hsub (hsub' hd)⟩

/-- A block that goes by a name has a draft of that name. -/
lemma Named.mem_drafts (hb : g.Named name block) (h : g.drafts v = .ok defs) :
    name ∈ defs.map Prod.fst := by
  obtain ⟨owner, part, hpart, hsub⟩ := hb.exists_drafts h
  obtain ⟨d, inner, rfl, -, -⟩ := Draft.ofBlock_parts block hpart
  exact List.mem_map.2 ⟨_, hsub List.mem_cons_self, rfl⟩

lemma Named.rule_or_generates (hb : g.Named name block) :
    (∃ r ∈ g.parserRules, r.name = name) ∨ g.Generates name := by
  cases hb with
  | @rule r hr => exact .inl ⟨r, hr, rfl⟩
  | inner hb hi => exact .inr ⟨_, _, _, _, _, hb, hi, rfl⟩

lemma exists_named (h : (∃ r ∈ g.parserRules, r.name = name) ∨ g.Generates name) :
    ∃ block, g.Named name block := by
  rcases h with ⟨r, hr, rfl⟩ | ⟨outer, b, inner, i, j, hb, hi, rfl⟩
  · exact ⟨r.block, .rule hr⟩
  · exact ⟨inner, .inner hb hi⟩

/-- A reference within an atom is the atom. -/
lemma atom_of_within (hatom : inner.atom? = some atom) (ha : a ∈ inner) (he : e ∈ a)
    (hw : (Element.rule ref).Within e) : atom = .rule ref := by
  obtain ⟨e', rfl, he'⟩ := Block.exists_of_atom? hatom
  obtain rfl := List.mem_singleton.1 ha
  obtain rfl := List.mem_singleton.1 he
  clear hatom ha he
  induction hw with
  | self => exact (Option.some.inj he').symm
  | label _ ih => exact ih he'
  | group => simp [Element.atom?] at he'

lemma CompilesAtom.refers {ρ : Type} {Ref : String → ρ → Prop} {n : Node ρ}
    (h : CompilesAtom v Ref c (.rule ref) n) : ∃ id, Ref ref id := by
  cases h with
  | rule href => exact ⟨_, href⟩

/-- An element that is a reference refers to the rule. -/
lemma CompilesElement.refers_of_atom? {ρ : Type} {Ref : String → ρ → Prop} {n : Option (Node ρ)}
    (h : g.CompilesElement v Ref place i e n) (he : e.atom? = some (.rule ref)) :
    ∃ id, Ref ref id := by
  cases h with
  | atom ha hn =>
    obtain rfl := Option.some.inj (ha.symm.trans he)
    exact hn.refers
  | single hg | block hg =>
    rw [← Element.atom?_unlabelled, hg] at he
    simp [Element.atom?] at he
  | silent hs =>
    rw [← Element.atom?_unlabelled] at he
    obtain ⟨code, hs⟩ | ⟨code, hs⟩ | hs := hs
    all_goals simp [hs, Element.atom?] at he

/-- A reference in parentheses refers to the rule. -/
lemma CompilesElement.refers_of_group {ρ : Type} {Ref : String → ρ → Prop} {n : Option (Node ρ)}
    (h : g.CompilesElement v Ref place i e n) (he : e.unlabelled = .group c inner)
    (ha : inner.atom? = some (.rule ref)) : ∃ id, Ref ref id := by
  cases h with
  | atom h _ =>
    rw [← Element.atom?_unlabelled, he] at h
    simp [Element.atom?] at h
  | single hg ha' hn =>
    obtain rfl := (Element.group.inj (hg.symm.trans he)).2
    obtain rfl := Option.some.inj (ha'.symm.trans ha)
    exact hn.refers
  | block hg hs =>
    obtain rfl := (Element.group.inj (hg.symm.trans he)).2
    simp [hs] at ha
  | silent hs => simp [Element.IsSilent, he] at hs

/-- Apart from its labels, an element stands in a block that goes by a name. -/
def Stands (g : Grammar) (e : Element) : Prop :=
  ∃ (name : String) (block : Block) (i j : Nat) (a : Alternative) (e' : Element),
    g.Named name block ∧ block[i]? = some a ∧ a[j]? = some e' ∧ e'.unlabelled = e.unlabelled

lemma Named.stands (hb : g.Named name block) (ha : a ∈ block) (he : e ∈ a) : g.Stands e := by
  obtain ⟨i, hi⟩ := List.mem_iff_getElem?.1 ha
  obtain ⟨j, hj⟩ := List.mem_iff_getElem?.1 he
  exact ⟨name, block, i, j, a, e, hb, hi, hj, rfl⟩

/-- A block in parentheses that is more than an atom goes by a name. -/
lemma Stands.of_group (h : g.Stands (.group c inner)) (hatom : inner.atom? = none) (ha : a ∈ inner)
    (he : e ∈ a) : g.Stands e := by
  obtain ⟨name, block, i, j, a', e', hb, ha', he', hu⟩ := h
  exact (Named.inner hb ⟨a', e', c, ha', he', hu, hatom⟩).stands ha he

section

variable {ρ : Type} {Ref : String → ρ → Prop}
  (hall : ∀ name block, g.Named name block → ∃ body, g.CompilesBlock v Ref name block body)

include hall

lemma Stands.exists_compiles (h : g.Stands e) (ht : e.unlabelled.terminalName? = none) :
    ∃ place i n, g.CompilesElement v Ref place i e n := by
  obtain ⟨name, block, i, j, a, e', hb, ha, he, hu⟩ := h
  have ht' : e'.terminalName? = none := by
    rw [← hu] at ht
    cases e' <;> simp_all [Element.unlabelled, Element.terminalName?]
  have hn := Block.terminals?_eq_none (List.mem_of_getElem? ha) (List.mem_of_getElem? he) ht'
  obtain ⟨body, hbody⟩ := hall name block hb
  obtain ⟨n, hcompiles⟩ := hbody.get hn ha he
  exact ⟨_, j, n, hcompiles.congr hu.symm⟩

/-- Where every block that goes by a name is compiled, every reference refers to a rule.  It is
compiled in its place, or in place of the parentheses around it, or inside a block in parentheses
that goes by a name; the induction is on where it stands. -/
lemma Stands.refers (h : g.Stands e) (hw : (Element.rule ref).Within e) : ∃ id, Ref ref id := by
  induction hw with
  | self =>
    obtain ⟨place, i, n, hn⟩ := h.exists_compiles hall rfl
    exact hn.refers_of_atom? rfl
  | label _ ih => exact ih h
  | @group c inner a e ha he hw ih =>
    cases hatom : Block.atom? inner with
    | none => exact ih (h.of_group hatom ha he)
    | some atom =>
      obtain ⟨place, i, n, hn⟩ := h.exists_compiles hall rfl
      exact hn.refers_of_group rfl (hatom.trans (congrArg some (atom_of_within hatom ha he hw)))

end

/-! ## Grammars -/

/-- A grammar without imports has a model if it has drafts that can be linked. -/
lemma exists_compile_of_no_imports_iff (hi : g.imports = []) :
    (∃ m, g.compile v {} loader = .ok m) ↔
      ∃ defs, g.drafts v = .ok defs ∧ Linkable (.ofList defs) v {} := by
  simp only [compile_of_no_imports hi, Except.bind_eq_ok, ← DraftTable.exists_link_iff]
  exact ⟨fun ⟨m, defs, hdefs, hm⟩ => ⟨defs, hdefs, m, hm⟩,
    fun ⟨defs, hdefs, m, hm⟩ => ⟨m, defs, hdefs, hm⟩⟩

/-- The drafts of a supported grammar can be linked. -/
lemma Supported.linkable (h : g.Supported v) (hdefs : g.drafts v = .ok defs) :
    Linkable (.ofList defs) v {} where
  nonempty := by
    intro hnil
    obtain ⟨r, hr⟩ := List.exists_mem_of_ne_nil _ h.rules
    have hmem : r.name ∈ (OrderedMap.ofList defs : DraftTable) :=
      OrderedMap.mem_ofList.2 ((Named.rule hr).mem_drafts hdefs)
    obtain ⟨e, he, -⟩ := List.mem_map.1 hmem
    simp [hnil] at he
  refers := by
    intro e he ref href
    obtain ⟨r, hr, part, hparts, hmem, hsub⟩ :=
      Draft.exists_parts_of_ofRules hdefs (OrderedMap.mem_of_mem_entries_ofList he)
    refine OrderedMap.mem_ofList.2 ?_
    rcases hparts.refers hmem href with ⟨href, -⟩ | href
    · obtain ⟨block, hb⟩ := exists_named (h.reference r hr ref (Block.has_of_mem_references _ href))
      exact hb.mem_drafts hdefs
    · exact List.map_subset _ hsub href
  policy := by simp
  tokens := ⟨[], rfl⟩

/-- A grammar that has a model is supported, if its names are apart. -/
lemma Supported.of_compile {m : Model} (hi : g.imports = []) (hg : g.NamesApart)
    (h : g.compile v {} loader = .ok m) : g.Supported v := by
  obtain ⟨defs, hdefs, hlink⟩ := (exists_compile_of_no_imports_iff hi).1 ⟨m, h⟩
  have hcompiled := compiled_of_compile hi h
  refine ⟨?_, exists_drafts_iff.1 ⟨defs, hdefs⟩, ?_⟩
  · intro hnil
    rw [drafts, hnil] at hdefs
    obtain rfl : [] = defs := Except.ok.inj hdefs
    exact hlink.nonempty rfl
  · rintro r hr name ⟨a, ha, e, he, hw⟩
    have hall : ∀ name block, g.Named name block →
        ∃ body, g.CompilesBlock v (Refers m) name block body :=
      fun name block hb => (hcompiled.entry_of_named hg hb).imp fun _ h => h.2
    obtain ⟨id, hid⟩ := ((Named.rule hr).stands ha he).refers hall hw
    -- what is referred to is in the model, and all of it goes by its name
    obtain ⟨⟨_, body⟩, hentry, rfl⟩ := List.mem_map.1 (exists_refers_iff.1 ⟨id, hid⟩)
    obtain ⟨block, hb, -⟩ := hcompiled.entry _ hentry
    exact hb.rule_or_generates

/-- **The grammars that have a model**, without imports and with names that are apart. -/
theorem compile_iff_supported (g : Grammar) (v : Vocabulary) (loader : Option Loader)
    (hi : g.imports = []) (hg : g.NamesApart) :
    (∃ m, g.compile v {} loader = .ok m) ↔ g.Supported v := by
  constructor
  · rintro ⟨m, hm⟩
    exact .of_compile hi hg hm
  · intro h
    obtain ⟨defs, hdefs⟩ := exists_drafts_iff.2 h.sound
    exact (exists_compile_of_no_imports_iff hi).2 ⟨defs, hdefs, h.linkable hdefs⟩

/-- A rule that refers to the block in parentheses in it by the name of its place.  The rule of the
lexer has no alternatives and does not matter. -/
def reusing : Grammar where
  name := "reusing"
  rules := [
    ⟨"list", [[.semPred "p", .label "x" .append (.group .oneOrMore [[.wildcard, .token "A"]]),
      .group .optional [[.rule "list_alt0_block1"]], .token "EOF"]]⟩,
    ⟨"Skip", []⟩]

/-- What is reused is a rule that there is, so there is a model. -/
theorem compile_reusing : reusing.imports = [] ∧ reusing.NamesApart ∧
    (∃ m, reusing.compile clashTokens {} none = .ok m) ∧ reusing.Supported clashTokens := by
  have hapart : reusing.NamesApart := namesApart_of_plain (by decide) (by decide)
  have hmodel : ∃ m, reusing.compile clashTokens {} none = .ok m := ⟨_, rfl⟩
  exact ⟨rfl, hapart, hmodel,
    (compile_iff_supported reusing clashTokens none rfl hapart).1 hmodel⟩

end Grammar

end GrammarCompletion
