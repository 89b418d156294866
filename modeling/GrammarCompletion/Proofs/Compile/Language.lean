/-
# What a grammar spells

The language of a grammar is read off its syntax (`Spells`): a terminal spells the token that the
vocabulary has for it, the wildcard any token, the name of a rule what an alternative of the block
of that name spells, and a block in parentheses what its alternatives spell in a row, as often as
its operator allows (`spells_group`).  Labels do not matter, and predicates and the empty sequence spell
nothing.

Which block goes by a name is a parameter.  The names of a grammar are those of its parser rules;
that of a place is one as well, because a grammar may refer to it.  Where a grammar does not, it
spells the same without these names (`spellsBlock_rules_iff`).
-/
import GrammarCompletion.Proofs.Compile.Drafts
import GrammarCompletion.Proofs.Derivation

namespace GrammarCompletion

/-- Elements in a row spell a list of tokens, where the blocks that go by a name are given. -/
inductive Spells (v : Vocabulary) (Named : String → Block → Prop) :
    List Element → List TokenId → Prop
  | nil : Spells v Named [] []
  | terminal {e : Element} {rest : List Element} {name : String} {id : TokenId} {w : List TokenId}
      (he : e.terminalName? = some name) (hid : v.get? name = some id)
      (h : Spells v Named rest w) : Spells v Named (e :: rest) (id :: w)
  | wildcard {rest : List Element} {t : TokenId} {w : List TokenId} (h : Spells v Named rest w) :
      Spells v Named (.wildcard :: rest) (t :: w)
  | rule {name : String} {block : Block} {a : Alternative} {rest : List Element}
      {u w : List TokenId} (hb : Named name block) (ha : a ∈ block) (hu : Spells v Named a u)
      (h : Spells v Named rest w) : Spells v Named (.rule name :: rest) (u ++ w)
  | label {name : String} {op : LabelOp} {target : Element} {rest : List Element}
      {w : List TokenId} (h : Spells v Named (target :: rest) w) :
      Spells v Named (.label name op target :: rest) w
  | silent {e : Element} {rest : List Element} {w : List TokenId} (he : e.IsSilent)
      (h : Spells v Named rest w) : Spells v Named (e :: rest) w
  /-- A block that is not required is left out, or left after some repetitions. -/
  | leave {c : Cardinality} {block : Block} {rest : List Element} {w : List TokenId}
      (hc : c.required = false) (h : Spells v Named rest w) :
      Spells v Named (.group c block :: rest) w
  | once {c : Cardinality} {block : Block} {a : Alternative} {rest : List Element}
      {u w : List TokenId} (ha : a ∈ block) (hu : Spells v Named a u)
      (h : Spells v Named rest w) : Spells v Named (.group c block :: rest) (u ++ w)
  | again {c : Cardinality} {block : Block} {a : Alternative} {rest : List Element}
      {u w : List TokenId} (hc : c.multiple = true) (ha : a ∈ block) (hu : Spells v Named a u)
      (h : Spells v Named (.group c block :: rest) w) :
      Spells v Named (.group c block :: rest) (u ++ w)

/-- A block spells what one of its alternatives spells. -/
def SpellsBlock (v : Vocabulary) (Named : String → Block → Prop) (block : Block)
    (w : List TokenId) : Prop :=
  ∃ a ∈ block, Spells v Named a w

/-- An atom spells a list of tokens. -/
def SpellsAtom (v : Vocabulary) (Named : String → Block → Prop) (w : List TokenId) : Atom → Prop
  | .terminal name => ∃ id, v.get? name = some id ∧ w = [id]
  | .rule name => ∃ block, Named name block ∧ SpellsBlock v Named block w
  | .wildcard => ∃ t, w = [t]

section

variable {v : Vocabulary} {Named : String → Block → Prop} {e : Element} {rest : List Element}
  {w u : List TokenId} {c : Cardinality} {block : Block} {atom : Atom} {name : String}

/-! ## Element by element -/

@[simp] lemma spells_nil : Spells v Named [] w ↔ w = [] := by
  constructor
  · intro h
    cases h
    rfl
  · rintro rfl
    exact .nil

/-- Labels do not matter. -/
lemma spells_unlabelled :
    Spells v Named (e.unlabelled :: rest) w ↔ Spells v Named (e :: rest) w := by
  induction e using Element.unlabelled.induct with
  | case1 name op target ih =>
    rw [Element.unlabelled, ih]
    refine ⟨.label, fun h => ?_⟩
    cases h with
    | terminal he => simp [Element.terminalName?] at he
    | label h => exact h
    | silent he h => exact .silent he h
  | case2 e he => rw [Element.unlabelled_eq_self he]

lemma spells_terminal (he : e.terminalName? = some name) : Spells v Named (e :: rest) w ↔
    ∃ id w', v.get? name = some id ∧ Spells v Named rest w' ∧ w = id :: w' := by
  constructor
  · intro h
    cases h with
    | terminal he' hid h =>
      obtain rfl := Option.some.inj (he.symm.trans he')
      exact ⟨_, _, hid, h, rfl⟩
    | silent hs =>
      cases e <;> simp_all [Element.terminalName?, Element.IsSilent, Element.unlabelled]
    | _ => simp [Element.terminalName?] at he
  · rintro ⟨id, w', hid, h, rfl⟩
    exact .terminal he hid h

lemma spells_rule : Spells v Named (.rule name :: rest) w ↔
    ∃ u w', (∃ block, Named name block ∧ SpellsBlock v Named block u) ∧ Spells v Named rest w' ∧
      w = u ++ w' := by
  constructor
  · intro h
    cases h with
    | rule hb ha hu h => exact ⟨_, _, ⟨_, hb, _, ha, hu⟩, h, rfl⟩
    | terminal he => simp [Element.terminalName?] at he
    | silent hs => simp [Element.IsSilent, Element.unlabelled] at hs
  · rintro ⟨u, w', ⟨block, hb, a, ha, hu⟩, h, rfl⟩
    exact .rule hb ha hu h

lemma spells_wildcard : Spells v Named (.wildcard :: rest) w ↔
    ∃ t w', Spells v Named rest w' ∧ w = t :: w' := by
  constructor
  · intro h
    cases h with
    | wildcard h => exact ⟨_, _, h, rfl⟩
    | terminal he => simp [Element.terminalName?] at he
    | silent hs => simp [Element.IsSilent, Element.unlabelled] at hs
  · rintro ⟨t, w', h, rfl⟩
    exact .wildcard h

/-- What an atom is apart from its labels. -/
lemma Element.unlabelled_of_atom? (he : e.atom? = some atom) :
    (∃ name, atom = .terminal name ∧ e.unlabelled.terminalName? = some name) ∨
      (∃ name, atom = .rule name ∧ e.unlabelled = .rule name) ∨
      atom = .wildcard ∧ e.unlabelled = .wildcard := by
  induction e using Element.unlabelled.induct with
  | case1 _ _ target ih => exact ih he
  | case2 e hl =>
    rw [Element.unlabelled_eq_self hl]
    cases e with
    | label name op target => exact (hl name op target rfl).elim
    | token | literal | charSet | rule | wildcard =>
      obtain rfl := Option.some.inj he
      simp [Element.terminalName?]
    | _ => simp [Element.atom?] at he

/-- An atom spells what comes first. -/
lemma spells_atom (he : e.atom? = some atom) : Spells v Named (e :: rest) w ↔
    ∃ u w', SpellsAtom v Named u atom ∧ Spells v Named rest w' ∧ w = u ++ w' := by
  rw [← spells_unlabelled]
  obtain ⟨name, rfl, hu⟩ | ⟨name, rfl, hu⟩ | ⟨rfl, hu⟩ := Element.unlabelled_of_atom? he
  · rw [spells_terminal hu]
    constructor
    · rintro ⟨id, w', hid, h, rfl⟩
      exact ⟨[id], w', ⟨id, hid, rfl⟩, h, rfl⟩
    · rintro ⟨_, w', ⟨id, hid, rfl⟩, h, rfl⟩
      exact ⟨id, w', hid, h, rfl⟩
  · rw [hu, spells_rule]
    rfl
  · rw [hu, spells_wildcard]
    constructor
    · rintro ⟨t, w', h, rfl⟩
      exact ⟨[t], w', ⟨t, rfl⟩, h, rfl⟩
    · rintro ⟨_, w', ⟨t, rfl⟩, h, rfl⟩
      exact ⟨t, w', h, rfl⟩

/-- A block that is one atom spells what the atom spells. -/
lemma spellsBlock_of_atom? (h : block.atom? = some atom) :
    SpellsBlock v Named block w ↔ SpellsAtom v Named w atom := by
  obtain ⟨e, rfl, he⟩ := Block.exists_of_atom? h
  simp [SpellsBlock, spells_atom he]

/-- **A block in parentheses spells what its alternatives spell**, as often as its operator
allows. -/
theorem spells_group : Spells v Named (.group c block :: rest) w ↔
    ∃ (us : List (List TokenId)) (w' : List TokenId), (∀ u ∈ us, SpellsBlock v Named block u) ∧
      c.Allows us.length ∧ Spells v Named rest w' ∧ w = us.flatten ++ w' := by
  constructor
  · intro h
    generalize hl : Element.group c block :: rest = l at h
    induction h with
    | nil => simp at hl
    | terminal he =>
      obtain ⟨rfl, -⟩ := List.cons.inj hl
      simp [Element.terminalName?] at he
    | silent he =>
      obtain ⟨rfl, -⟩ := List.cons.inj hl
      simp [Element.IsSilent, Element.unlabelled] at he
    | wildcard | rule | label => simp at hl
    | leave hc h =>
      obtain ⟨⟨rfl, rfl⟩, rfl⟩ := by simpa using hl
      exact ⟨[], _, List.forall_mem_nil _, ⟨by simp [hc], by simp⟩, h, rfl⟩
    | once ha hu h =>
      obtain ⟨⟨rfl, rfl⟩, rfl⟩ := by simpa using hl
      exact ⟨[_], _, List.forall_mem_singleton.2 ⟨_, ha, hu⟩, c.allows_one, h, by simp⟩
    | again hc ha hu _ _ ih =>
      obtain ⟨us, w', hus, -, h, rfl⟩ := ih hl
      obtain ⟨⟨rfl, rfl⟩, rfl⟩ := by simpa using hl
      exact ⟨_ :: us, w', List.forall_mem_cons.2 ⟨⟨_, ha, hu⟩, hus⟩, .succ hc, h, by simp⟩
  · rintro ⟨us, w', hus, hc, h, rfl⟩
    induction us with
    | nil => exact .leave (Bool.eq_false_iff.2 fun hr => Nat.lt_irrefl 0 (hc.1 hr)) h
    | cons u us ih =>
      obtain ⟨⟨a, ha, hu⟩, hus⟩ := List.forall_mem_cons.1 hus
      rw [List.flatten_cons, List.append_assoc]
      cases us with
      | nil => exact .once ha hu h
      | cons u' us =>
        -- two repetitions need an operator that allows any number of them
        have hm : c.multiple = true := by
          by_contra hm
          have := hc.2 (Bool.eq_false_iff.2 hm)
          simp at this
        exact .again hm ha hu (ih hus (.succ hm))

end

/-! ## References -/

mutual

/-- The names of rules in an element. -/
def Element.references : Element → List String
  | .rule name => [name]
  | .group _ block => Block.references block
  | .label _ _ target => target.references
  | _ => []

/-- The names of rules in elements. -/
def Alternative.references : List Element → List String
  | [] => []
  | e :: rest => e.references ++ Alternative.references rest

/-- The names of rules in alternatives. -/
def Block.references : List Alternative → List String
  | [] => []
  | a :: rest => Alternative.references a ++ Block.references rest

end

lemma Block.mem_references {block : Block} {a : Alternative} (ha : a ∈ block) {name : String}
    (h : name ∈ Alternative.references a) : name ∈ Block.references block := by
  induction block with
  | nil => simp at ha
  | cons b rest ih =>
    rw [Block.references, List.mem_append]
    rcases List.mem_cons.1 ha with rfl | ha
    · exact .inl h
    · exact .inr (ih ha)

/-- What is spelt does not depend on blocks whose names are out of reach. -/
theorem Spells.mono {v : Vocabulary} {Named Named' : String → Block → Prop}
    {l : List Element} {w : List TokenId} (h : Spells v Named l w) {S : String → Prop}
    (hl : ∀ name ∈ Alternative.references l, S name)
    (hN : ∀ name block, S name → Named name block →
      Named' name block ∧ ∀ n ∈ Block.references block, S n) : Spells v Named' l w := by
  induction h with
  | nil => exact .nil
  | terminal he hid _ ih =>
    exact .terminal he hid (ih fun n hn => hl n (List.mem_append_right _ hn))
  | wildcard _ ih => exact .wildcard (ih fun n hn => hl n (List.mem_append_right _ hn))
  | @rule name block a rest u w hb ha _ _ ihu ih =>
    have hname : S name := hl name (by simp [Alternative.references, Element.references])
    obtain ⟨hb', hS⟩ := hN name block hname hb
    exact .rule hb' ha (ihu fun n hn => hS n (Block.mem_references ha hn))
      (ih fun n hn => hl n (List.mem_append_right _ hn))
  | label _ ih => exact .label (ih hl)
  | silent he _ ih => exact .silent he (ih fun n hn => hl n (List.mem_append_right _ hn))
  | leave hc _ ih => exact .leave hc (ih fun n hn => hl n (List.mem_append_right _ hn))
  | once ha _ _ ihu ih =>
    refine .once ha (ihu fun n hn => hl n (List.mem_append_left _ ?_))
      (ih fun n hn => hl n (List.mem_append_right _ hn))
    exact Block.mem_references ha hn
  | again hc ha _ _ ihu ih =>
    refine .again hc ha (ihu fun n hn => hl n (List.mem_append_left _ ?_)) (ih hl)
    exact Block.mem_references ha hn

namespace Grammar

variable {g : Grammar} {v : Vocabulary} {w : List TokenId}

/-- A block is that of the parser rule of a name. -/
def IsRule (g : Grammar) (name : String) (block : Block) : Prop :=
  ∃ r ∈ g.parserRules, r.name = name ∧ r.block = block

/-- Every name of a rule in a parser rule is that of a parser rule. -/
def Closed (g : Grammar) : Prop :=
  ∀ r ∈ g.parserRules, ∀ name ∈ Block.references r.block, ∃ r' ∈ g.parserRules, r'.name = name

instance : Decidable g.Closed :=
  inferInstanceAs (Decidable (∀ r ∈ g.parserRules, ∀ name ∈ Block.references r.block,
    ∃ r' ∈ g.parserRules, r'.name = name))

/-- **Without the names of places the same is spelt**, if all names of rules are defined. -/
theorem spellsBlock_rules_iff (hg : g.NamesApart) (hc : g.Closed) {r : Rule}
    (hr : r ∈ g.parserRules) :
    SpellsBlock v g.Named r.block w ↔ SpellsBlock v g.IsRule r.block w := by
  have hreach : ∀ r ∈ g.parserRules, ∀ n ∈ Block.references r.block,
      ∃ r' ∈ g.parserRules, r'.name = n := hc
  constructor
  · rintro ⟨a, ha, h⟩
    refine ⟨a, ha, h.mono (S := fun n => ∃ r ∈ g.parserRules, r.name = n)
      (fun n hn => hc r hr n (Block.mem_references ha hn)) ?_⟩
    rintro _ block ⟨r', hr', rfl⟩ hb
    obtain rfl := hb.unique hg (.rule hr')
    exact ⟨⟨r', hr', rfl, rfl⟩, hc r' hr'⟩
  · rintro ⟨a, ha, h⟩
    refine ⟨a, ha, h.mono (S := fun _ => True) (fun _ _ => trivial) ?_⟩
    rintro _ _ - ⟨r', hr', rfl, rfl⟩
    exact ⟨.rule hr', fun _ _ => trivial⟩

end Grammar

end GrammarCompletion
