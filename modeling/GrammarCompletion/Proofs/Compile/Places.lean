/-
# Blocks that go by a name

A block goes by a name if it is that of a parser rule, or if it stands in parentheses inside a block
that goes by a name and becomes a rule of its own; then its name says where it stands
(`Grammar.Named`).

The name of a place can be read back from its end: the digits after `_block` and those after `_alt`
are the last ones, so the name determines the outer name and both indices (`placeName_inj`).  Hence
two blocks go by one name only if a parser rule is named like a place that there is in the grammar
(`Grammar.Named.unique`).
-/
import GrammarCompletion.Draft
import GrammarCompletion.Proofs.Results
import Mathlib

namespace GrammarCompletion

/-! ## Names of places -/

/-- The name of the rule for a block, given the block that it is in and where it stands there. -/
def placeName (name : String) (i j : Nat) : String :=
  Draft.blockName (Draft.alternativeName name i) j

lemma isDigit_of_mem_toString {n : Nat} {c : Char} (h : c ∈ (toString n).toList) :
    c.isDigit = true := by
  rw [Nat.toString_eq_ofList_toDigits, String.toList_ofList] at h
  exact Nat.isDigit_of_mem_toDigits (by decide) (by decide) h

/-- Digits at the end of a list can be told from what is before them. -/
lemma eq_of_digits {l l' ds ds' : List Char} {c c' : Char} (h : l ++ c :: ds = l' ++ c' :: ds')
    (hc : c.isDigit = false) (hc' : c'.isDigit = false) (hds : ∀ d ∈ ds, d.isDigit = true)
    (hds' : ∀ d ∈ ds', d.isDigit = true) : l ++ [c] = l' ++ [c'] ∧ ds = ds' := by
  -- a shift would put the letter in front of one of the digits among the other ones
  rcases List.append_eq_append_iff.1 h with ⟨k, rfl, hk⟩ | ⟨k, rfl, hk⟩
  · cases k with
    | nil => simp_all
    | cons d k =>
      obtain ⟨rfl, rfl⟩ := List.cons.inj hk
      exact absurd (hds c' (by simp)) (by simp [hc'])
  · cases k with
    | nil => simp_all
    | cons d k =>
      obtain ⟨rfl, rfl⟩ := List.cons.inj hk
      exact absurd (hds' c (by simp)) (by simp [hc])

/-- A number at the end of a name, behind a text that does not end with a digit, can be read back. -/
lemma append_toString_inj {s s' : String} {i j : Nat} {c : Char} {t : List Char}
    (hc : c.isDigit = false) (h : s.toList ++ t ++ c :: (toString i).toList =
      s'.toList ++ t ++ c :: (toString j).toList) : s = s' ∧ i = j := by
  obtain ⟨hs, hij⟩ := eq_of_digits h hc hc (fun _ => isDigit_of_mem_toString)
    fun _ => isDigit_of_mem_toString
  rw [List.append_assoc, List.append_assoc] at hs
  have hij : toString i = toString j := String.toList_inj.1 hij
  rw [Nat.toString_eq_repr, Nat.toString_eq_repr] at hij
  exact ⟨String.toList_inj.1 (List.append_cancel_right hs), Nat.repr_inj.1 hij⟩

lemma alternativeName_inj {s s' : String} {i j : Nat}
    (h : Draft.alternativeName s i = Draft.alternativeName s' j) : s = s' ∧ i = j := by
  refine append_toString_inj (c := 't') (t := ['_', 'a', 'l']) rfl ?_
  simpa [Draft.alternativeName] using congrArg String.toList h

lemma blockName_inj {s s' : String} {i j : Nat} (h : Draft.blockName s i = Draft.blockName s' j) :
    s = s' ∧ i = j := by
  refine append_toString_inj (c := 'k') (t := ['_', 'b', 'l', 'o', 'c']) rfl ?_
  simpa [Draft.blockName] using congrArg String.toList h

/-- **The name of a place can be read back.** -/
theorem placeName_inj {s s' : String} {i i' j j' : Nat}
    (h : placeName s i j = placeName s' i' j') : s = s' ∧ i = i' ∧ j = j' := by
  obtain ⟨hs, hj⟩ := blockName_inj h
  obtain ⟨hs, hi⟩ := alternativeName_inj hs
  exact ⟨hs, hi, hj⟩

/-- A name without an underscore is no name of a place. -/
lemma underscore_mem_placeName (s : String) (i j : Nat) : '_' ∈ (placeName s i j).toList := by
  simp [placeName, Draft.blockName]

/-! ## Blocks -/

/-- An element without its labels. -/
def Element.unlabelled : Element → Element
  | label _ _ target => target.unlabelled
  | e => e

lemma Element.unlabelled_eq_self {e : Element}
    (h : ∀ (name : String) (op : LabelOp) (target : Element), e = .label name op target → False) :
    e.unlabelled = e := by
  cases e <;> first | rfl | exact (h _ _ _ rfl).elim

lemma Element.atom?_unlabelled (e : Element) : e.unlabelled.atom? = e.atom? := by
  induction e using Element.unlabelled.induct with
  | case1 _ _ target ih => rw [unlabelled, ih, atom?]
  | case2 e he => rw [unlabelled_eq_self he]

lemma Element.atom?_of_terminalName? {e : Element} {name : String}
    (h : e.terminalName? = some name) : e.atom? = some (.terminal name) := by
  cases e <;> simp_all [terminalName?, atom?]

/-- The atom that a block in parentheses is, if it is no more than that. -/
def Block.atom? (block : Block) : Option Atom := (Block.single? block).bind Element.atom?

/-- A block that is an atom has one element only, which is the atom. -/
lemma Block.exists_of_atom? {block : Block} {a : Atom} (h : block.atom? = some a) :
    ∃ e, block = [[e]] ∧ e.atom? = some a := by
  obtain ⟨e, hs, he⟩ := Option.bind_eq_some_iff.1 h
  refine ⟨e, ?_, he⟩
  unfold Block.single? at hs
  split at hs <;> simp_all

/-- The alternatives of a token set are terminals. -/
lemma forall₂_of_terminals? {block : Block} {names : List String}
    (h : Block.terminals? block = some names) :
    List.Forall₂ (fun a name => ∃ e, a = [e] ∧ e.terminalName? = some name) block names := by
  induction block generalizing names with
  | nil =>
    obtain rfl : [] = names := by simpa [Block.terminals?] using h
    exact .nil
  | cons a rest ih =>
    rw [Block.terminals?, List.mapM_cons] at h
    obtain ⟨name, hname, h⟩ := Option.bind_eq_some_iff.1 h
    obtain ⟨names', hnames, h⟩ := Option.bind_eq_some_iff.1 h
    obtain rfl := Option.some.inj h
    refine .cons ?_ (ih hnames)
    split at hname
    · next e => exact ⟨e, rfl, hname⟩
    · simp at hname

/-- In an alternative of a block, at some place, there is a block in parentheses that becomes a rule
of its own. -/
def Block.HasAt (block : Block) (i j : Nat) (inner : Block) : Prop :=
  ∃ a e c, block[i]? = some a ∧ a[j]? = some e ∧ e.unlabelled = .group c inner ∧
    inner.atom? = none

lemma Block.HasAt.unique {block inner inner' : Block} {i j : Nat} (h : block.HasAt i j inner)
    (h' : block.HasAt i j inner') : inner = inner' := by
  obtain ⟨a, e, c, ha, he, hg, -⟩ := h
  obtain ⟨a', e', c', ha', he', hg', -⟩ := h'
  obtain rfl := Option.some.inj (ha.symm.trans ha')
  obtain rfl := Option.some.inj (he.symm.trans he')
  exact (Element.group.inj (hg.symm.trans hg')).2

/-- A block with an element that is no terminal is not a token set. -/
lemma Block.terminals?_eq_none {block : Block} {a : Alternative} {e : Element} (ha : a ∈ block)
    (he : e ∈ a) (ht : e.terminalName? = none) : Block.terminals? block = none := by
  refine Option.eq_none_iff_forall_ne_some.2 fun names hnames => ?_
  obtain ⟨name, -, e', rfl, hname⟩ :=
    (exists_of_forall₂ (forall₂_of_terminals? hnames)).1 a ha
  obtain rfl := List.mem_singleton.1 he
  simp [ht] at hname

/-- Among terminals there are no blocks. -/
lemma Block.HasAt.terminals?_eq_none {block inner : Block} {i j : Nat} (h : block.HasAt i j inner) :
    Block.terminals? block = none := by
  obtain ⟨a, e, c, ha, he, hg, -⟩ := h
  refine Block.terminals?_eq_none (List.mem_of_getElem? ha) (List.mem_of_getElem? he) ?_
  cases e <;> simp_all [Element.unlabelled, Element.terminalName?]

namespace Grammar

/-- A block goes by a name. -/
inductive Named (g : Grammar) : String → Block → Prop
  /-- The block of a parser rule goes by the name of the rule. -/
  | rule {r : Rule} (hr : r ∈ g.parserRules) : Named g r.name r.block
  /-- A block in parentheses goes by the name of its place. -/
  | inner {name : String} {block inner : Block} {i j : Nat} (h : Named g name block)
      (hi : block.HasAt i j inner) : Named g (placeName name i j) inner

/-- A name is that of a block in parentheses. -/
def Generates (g : Grammar) (name : String) : Prop :=
  ∃ outer block inner i j, g.Named outer block ∧ block.HasAt i j inner ∧
    name = placeName outer i j

/-- The names of the parser rules differ from each other, and from those of blocks in parentheses. -/
structure NamesApart (g : Grammar) : Prop where
  nodup : (g.parserRules.map Rule.name).Nodup
  fresh : ∀ r ∈ g.parserRules, ¬ g.Generates r.name

variable {g : Grammar} {name : String} {block block' : Block}

/-- **At most one block goes by a name.** -/
theorem Named.unique (hg : g.NamesApart) (h : g.Named name block) (h' : g.Named name block') :
    block = block' := by
  induction h generalizing block' with
  | @rule r hr =>
    generalize hname : r.name = name at h'
    cases h' with
    | @rule r' hr' => rw [List.inj_on_of_nodup_map hg.nodup hr hr' hname]
    | @inner outer b _ i j h hi => exact absurd ⟨outer, b, _, i, j, h, hi, hname⟩ (hg.fresh r hr)
  | @inner outer b inner i j h hi ih =>
    generalize hname : placeName outer i j = name at h'
    cases h' with
    | @rule r hr => exact absurd ⟨outer, b, inner, i, j, h, hi, hname.symm⟩ (hg.fresh r hr)
    | @inner outer' b' _ i' j' h' hi' =>
      -- the name gives away the outer block, and where the block stands in it
      obtain ⟨rfl, rfl, rfl⟩ := placeName_inj hname
      obtain rfl := ih h'
      exact hi.unique hi'

/-- Rules whose names are free of underscores do not clash with places. -/
lemma namesApart_of_plain (hn : (g.parserRules.map Rule.name).Nodup)
    (h : ∀ r ∈ g.parserRules, '_' ∉ r.name.toList) : g.NamesApart := by
  refine ⟨hn, fun r hr hgen => h r hr ?_⟩
  obtain ⟨outer, -, -, i, j, -, -, hname⟩ := hgen
  exact hname ▸ underscore_mem_placeName outer i j

end Grammar

end GrammarCompletion
