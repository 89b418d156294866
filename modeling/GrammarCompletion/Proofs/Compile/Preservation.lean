/-
# A compilation preserves the language

A parser rule of a compiled grammar derives the lists of tokens that its block spells, and no other
ones (`derives_iff_spells`).  Nothing else is asked of the grammar than that its names are apart: it
may be recursive in any way.

That nothing is lost is shown along the spelling (`Compiled.preserved`): whatever nodes a row of
elements is compiled to, they derive what the elements spell.  That nothing is added is shown along
the derivation, from its end: in every string of it, each rule can be read as the block that goes by
the name of the rule (`Compiled.formReads`), and a step backwards keeps such a reading.
-/
import GrammarCompletion.Proofs.Compile.Entries
import GrammarCompletion.Proofs.Compile.Language

namespace GrammarCompletion

variable {g : Grammar} {v : Vocabulary} {m : Model} {p : Policy} {loader : Option Loader}
  {e : Element} {block : Block} {a : Alternative} {atom : Atom} {c : Cardinality}
  {name place : String} {u w : List TokenId} {i : Nat}

/-- A node that occurs exactly once. -/
lemma Model.DerivesNodes.occurrence {n : Node RuleId} (hn : n.cardinality = .one)
    (h : m.DerivesNodes [n] w) : ∃ s, n.IsOccurrence s ∧ m.Derives [s] (.ofTokens w) := by
  obtain ⟨x, hx, hd⟩ := h
  cases hx with
  | @cons _ _ copies x hcopies hc hr =>
    cases hr
    rw [hn] at hc
    obtain ⟨s, rfl⟩ := List.length_eq_one_iff.1 (Nat.le_antisymm (hc.2 rfl) (hc.1 rfl))
    exact ⟨s, hcopies s List.mem_cons_self, by simpa using hd⟩

lemma Model.DerivesNodes.token {n : Node RuleId} {rest : List (Node RuleId)} {t : TokenId}
    (ht : n.IsOccurrence (.token t)) (h : m.DerivesNodes rest w) :
    m.DerivesNodes (n :: rest) (t :: w) :=
  .single (u := [t]) ht (.refl _) h

namespace Grammar

/-! ## What an element is compiled to -/

section

variable {ρ : Type} {Ref : String → ρ → Prop} {n : Option (Node ρ)}

lemma CompilesAtom.cardinality_eq {node : Node ρ} (h : CompilesAtom v Ref c atom node) :
    node.cardinality = c := by
  cases h <;> rfl

/-- The same atom with another operator. -/
lemma CompilesAtom.once {node : Node ρ} (h : CompilesAtom v Ref c atom node) :
    CompilesAtom v Ref .one atom { node with cardinality := .one } := by
  cases h with
  | terminal h => exact .terminal h
  | rule h => exact .rule h
  | wildcard => exact .wildcard

lemma atom?_of_group (he : e.unlabelled = .group c block) : e.atom? = none := by
  rw [← Element.atom?_unlabelled, he, Element.atom?]

lemma atom?_of_silent (he : e.IsSilent) : e.atom? = none := by
  rw [← Element.atom?_unlabelled]
  rcases he with ⟨code, he⟩ | ⟨code, he⟩ | he <;> rw [he, Element.atom?]

lemma CompilesElement.of_atom? (h : g.CompilesElement v Ref place i e n)
    (he : e.atom? = some atom) : ∃ node, n = some node ∧ CompilesAtom v Ref .one atom node := by
  cases h with
  | atom he' hn =>
    obtain rfl := Option.some.inj (he.symm.trans he')
    exact ⟨_, rfl, hn⟩
  | single hg | block hg => simp [atom?_of_group hg] at he
  | silent hs => simp [atom?_of_silent hs] at he

/-- A block in parentheses is one node, which has its operator. -/
lemma CompilesElement.of_group (h : g.CompilesElement v Ref place i e n)
    (he : e.unlabelled = .group c block) : ∃ node, n = some node ∧ node.cardinality = c ∧
      ((∃ atom, block.atom? = some atom ∧ CompilesAtom v Ref c atom node) ∨
        ∃ ref, g.Named (Draft.blockName place i) block ∧ Ref (Draft.blockName place i) ref ∧
          node = .rule ref c) := by
  cases h with
  | atom ha => simp [atom?_of_group he] at ha
  | single hg ha hn =>
    obtain ⟨rfl, rfl⟩ := Element.group.inj (hg.symm.trans he)
    exact ⟨_, rfl, hn.cardinality_eq, .inl ⟨_, ha, hn⟩⟩
  | block hg ha hb hr =>
    obtain ⟨rfl, rfl⟩ := Element.group.inj (hg.symm.trans he)
    exact ⟨_, rfl, rfl, .inr ⟨_, hb, hr, rfl⟩⟩
  | silent hs => simp [Element.IsSilent, he] at hs

lemma CompilesElement.of_silent (h : g.CompilesElement v Ref place i e n) (he : e.IsSilent) :
    n = none := by
  cases h with
  | atom ha => simp [atom?_of_silent he] at ha
  | single hg | block hg => simp [Element.IsSilent, hg] at he
  | silent => rfl

end

/-- Every sequence of a body is compiled from an alternative. -/
lemma CompilesAlternatives.exists_mem {ρ : Type} {Ref : String → ρ → Prop}
    {list : List (Sequence ρ)} {alternatives : List Alternative} {q : Sequence ρ}
    (h : g.CompilesAlternatives v Ref name i alternatives list) (hq : q ∈ list) :
    ∃ a ∈ alternatives, ∃ place, g.CompilesElements v Ref place 0 a q.nodes := by
  induction h with
  | nil => simp at hq
  | cons ha _ _ ih =>
    rcases List.mem_cons.1 hq with rfl | hq
    · exact ⟨_, List.mem_cons_self, _, ha⟩
    · obtain ⟨b, hb, hc⟩ := ih hq
      exact ⟨b, List.mem_cons_of_mem _ hb, hc⟩

/-! ## Names and rules -/

lemma body_of_refers {id : RuleId} {body : RuleBody RuleId} (hr : Refers m name id)
    (hb : m.bodyOf? name = some body) : m.body id = .ok body := by
  obtain ⟨body', he⟩ := refers_iff.1 hr
  obtain rfl : body' = body := by
    have hb' : m.bodyOf? name = some body' :=
      OrderedMap.get?_of_mem_entries (List.mem_of_getElem? he)
    exact Option.some.inj (hb'.symm.trans hb)
  exact Model.body_eq_ok_iff.2 ⟨name, he⟩

/-- Two names do not refer to one rule. -/
lemma Refers.name_unique {name' : String} {id : RuleId} (h : Refers m name id)
    (h' : Refers m name' id) : name = name' := by
  obtain ⟨body, he⟩ := refers_iff.1 h
  obtain ⟨body', he'⟩ := refers_iff.1 h'
  exact (Prod.ext_iff.1 (Option.some.inj (he.symm.trans he'))).1

/-! ## Nothing is lost -/

/-- Whatever nodes the elements are compiled to, they derive the tokens. -/
def Preserved (g : Grammar) (v : Vocabulary) (m : Model) (l : List Element) (w : List TokenId) :
    Prop :=
  ∀ ⦃place i nodes⦄, g.CompilesElements v (Refers m) place i l nodes → m.DerivesNodes nodes w

/-- A rule derives what an alternative of its block spells. -/
lemma Compiled.derives (hm : g.Compiled v m) (hg : g.NamesApart) (hb : g.Named name block)
    {id : RuleId} (hr : Refers m name id) (ha : a ∈ block) (hu : Spells v g.Named a u)
    (hp : g.Preserved v m a u) : m.Derives [.rule id] (.ofTokens u) := by
  obtain ⟨body, hbody, hc⟩ := hm.entry_of_named hg hb
  have hid := body_of_refers hr hbody
  cases hc with
  | tokenSet hn hids =>
    obtain ⟨token, htoken, e, rfl, he⟩ := (exists_of_forall₂ (forall₂_of_terminals? hn)).1 a ha
    obtain ⟨t, w', ht, hw', rfl⟩ := (spells_terminal he).1 hu
    obtain ⟨t', ht', hget⟩ := (exists_of_forall₂ hids).1 token htoken
    obtain rfl := Option.some.inj (ht.symm.trans hget)
    obtain rfl := spells_nil.1 hw'
    exact .of_produces (.tokenSet hid (OrderedSet.mem_ofList.2 ht'))
  | sequences hn hl =>
    obtain ⟨k, hk⟩ := List.mem_iff_getElem?.1 ha
    obtain ⟨q, hq, hnodes⟩ := hl.get hk
    exact (hp hnodes).derives hid hq

/-- One occurrence of the node for a block in parentheses derives what an alternative spells. -/
lemma Compiled.occurrence (hm : g.Compiled v m) (hg : g.NamesApart) {n : Option (Node RuleId)}
    (h : g.CompilesElement v (Refers m) place i (.group c block) n) (ha : a ∈ block)
    (hu : Spells v g.Named a u) (hp : g.Preserved v m a u) :
    ∃ node s, n = some node ∧ node.cardinality = c ∧ node.IsOccurrence s ∧
      m.Derives [s] (.ofTokens u) := by
  obtain ⟨node, rfl, hcard, ⟨atom, hatom, hn⟩ | ⟨ref, hb, hr, rfl⟩⟩ := h.of_group rfl
  · obtain ⟨e, rfl, he⟩ := Block.exists_of_atom? hatom
    obtain rfl : a = [e] := List.mem_singleton.1 ha
    -- the only element, compiled without the operator
    have hnode : g.CompilesElements v (Refers m) place i [e] [{ node with cardinality := .one }] :=
      .cons (.atom he hn.once) .nil
    obtain ⟨s, hs, hd⟩ := (hp hnode).occurrence rfl
    exact ⟨node, s, rfl, hcard, hs, hd⟩
  · exact ⟨_, _, rfl, rfl, Node.isOccurrence_rule rfl, hm.derives hg hb hr ha hu hp⟩

/-- **The nodes that elements are compiled to derive what the elements spell.** -/
theorem Compiled.preserved (hm : g.Compiled v m) (hg : g.NamesApart) {l : List Element}
    (h : Spells v g.Named l w) : g.Preserved v m l w := by
  induction h with
  | nil =>
    rintro place i nodes ⟨⟩
    exact .nil
  | @terminal e rest name id w he hid _ ih =>
    rintro place i _ (_ | ⟨hn, hrest⟩)
    obtain ⟨n, rfl, hatom⟩ := hn.of_atom? (Element.atom?_of_terminalName? he)
    cases hatom with
    | terminal hid' =>
      obtain rfl := Option.some.inj (hid.symm.trans hid')
      exact .token (Node.isOccurrence_token rfl fun _ => rfl) (ih hrest)
  | @wildcard rest t w _ ih =>
    rintro place i _ (_ | ⟨hn, hrest⟩)
    obtain ⟨n, rfl, ⟨⟩⟩ := hn.of_atom? rfl
    exact .token (Node.isOccurrence_token rfl fun h => nomatch h) (ih hrest)
  | rule hb ha hu _ ihu ih =>
    rintro place i _ (_ | ⟨hn, hrest⟩)
    obtain ⟨n, rfl, hatom⟩ := hn.of_atom? rfl
    cases hatom with
    | rule hr =>
      exact .single (Node.isOccurrence_rule rfl) (hm.derives hg hb hr ha hu ihu) (ih hrest)
  | label _ ih =>
    rintro place i _ (_ | ⟨hn, hrest⟩)
    exact ih (.cons (hn.congr rfl) hrest)
  | silent he _ ih =>
    rintro place i _ (_ | ⟨hn, hrest⟩)
    obtain rfl := hn.of_silent he
    exact ih hrest
  | leave hc _ ih =>
    rintro place i _ (_ | ⟨hn, hrest⟩)
    obtain ⟨node, rfl, rfl, -⟩ := hn.of_group rfl
    exact .skip hc (ih hrest)
  | once ha hu _ ihu ih =>
    rintro place i _ (_ | ⟨hn, hrest⟩)
    obtain ⟨node, s, rfl, -, hs, hd⟩ := hm.occurrence hg hn ha hu ihu
    exact .single hs hd (ih hrest)
  | again hc ha hu _ ihu ih =>
    rintro place i _ (_ | ⟨hn, hrest⟩)
    obtain ⟨node, s, rfl, rfl, hs, hd⟩ := hm.occurrence hg hn ha hu ihu
    exact .again hc hs hd (ih (.cons hn hrest))

/-! ## Nothing is added -/

/-- A symbol is read as tokens: a token as itself, and a rule as what a block that goes by its name
spells. -/
def Reads (g : Grammar) (v : Vocabulary) (m : Model) : Symbol RuleId → List TokenId → Prop
  | .token t, u => u = [t]
  | .rule id, u => ∃ name block, g.Named name block ∧ Refers m name id ∧
      SpellsBlock v g.Named block u

/-- A string is read symbol by symbol. -/
inductive FormReads (g : Grammar) (v : Vocabulary) (m : Model) : Form → List TokenId → Prop
  | nil : FormReads g v m [] []
  | cons {s : Symbol RuleId} {x : Form} {u w : List TokenId} (hs : g.Reads v m s u)
      (hx : FormReads g v m x w) : FormReads g v m (s :: x) (u ++ w)

namespace FormReads

variable {x y : Form} {s : Symbol RuleId}

lemma append (hx : g.FormReads v m x u) (hy : g.FormReads v m y w) :
    g.FormReads v m (x ++ y) (u ++ w) := by
  induction hx with
  | nil => exact hy
  | cons hs _ ih => simpa using .cons hs ih

lemma of_append (h : g.FormReads v m (x ++ y) w) :
    ∃ u u', g.FormReads v m x u ∧ g.FormReads v m y u' ∧ w = u ++ u' := by
  induction x generalizing w with
  | nil => exact ⟨[], w, .nil, h, rfl⟩
  | cons s x ih =>
    cases h with
    | @cons _ _ u _ hs hx =>
      obtain ⟨u', u'', hu', hu'', rfl⟩ := ih hx
      exact ⟨u ++ u', u'', .cons hs hu', hu'', by simp⟩

@[simp] lemma singleton_iff : g.FormReads v m [s] u ↔ g.Reads v m s u := by
  constructor
  · rintro (_ | ⟨hs, ⟨⟩⟩)
    simpa using hs
  · intro hs
    simpa using FormReads.cons hs .nil

/-- A string of tokens is read as itself. -/
lemma ofTokens (w : List TokenId) : g.FormReads v m (.ofTokens w) w := by
  induction w with
  | nil => exact .nil
  | cons t w ih => exact .cons (u := [t]) rfl ih

/-- What is true of the readings of every symbol is true of the parts of a reading. -/
lemma exists_flatten {P : List TokenId → Prop} (h : g.FormReads v m x w)
    (hP : ∀ s ∈ x, ∀ u, g.Reads v m s u → P u) :
    ∃ us : List (List TokenId), us.length = x.length ∧ (∀ u ∈ us, P u) ∧ w = us.flatten := by
  induction h with
  | nil => exact ⟨[], rfl, List.forall_mem_nil _, rfl⟩
  | cons hs _ ih =>
    obtain ⟨hPs, hPx⟩ := List.forall_mem_cons.1 hP
    obtain ⟨us, hlen, hus, rfl⟩ := ih hPx
    exact ⟨_ :: us, by simp [hlen], List.forall_mem_cons.2 ⟨hPs _ hs, hus⟩, rfl⟩

end FormReads

/-- What a rule is read as is spelt by the block of its name. -/
lemma Reads.spellsBlock (hg : g.NamesApart) {id : RuleId} (h : g.Reads v m (.rule id) u)
    (hr : Refers m name id) (hb : g.Named name block) : SpellsBlock v g.Named block u := by
  obtain ⟨name', block', hb', hr', hu⟩ := h
  obtain rfl := hr.name_unique hr'
  obtain rfl := hb.unique hg hb'
  exact hu

/-- An occurrence of the node for an atom is read as what the atom spells. -/
lemma CompilesAtom.spells {n : Node RuleId} {s : Symbol RuleId}
    (h : CompilesAtom v (Refers m) c atom n) (hs : n.IsOccurrence s) (hu : g.Reads v m s u) :
    SpellsAtom v g.Named u atom := by
  cases h with
  | terminal hid =>
    obtain ⟨t, rfl, ht⟩ := hs
    obtain rfl := ht rfl
    exact ⟨_, hid, hu⟩
  | rule hr =>
    obtain rfl := hs
    obtain ⟨name', block, hb, hr', hu⟩ := hu
    obtain rfl := hr.name_unique hr'
    exact ⟨block, hb, hu⟩
  | wildcard =>
    obtain ⟨t, rfl, -⟩ := hs
    exact ⟨t, hu⟩

/-- Occurrences of the node for an element are read as what the element spells. -/
lemma CompilesElement.spells (hg : g.NamesApart) {n : Node RuleId} {copies : Form}
    {rest : List Element} (h : g.CompilesElement v (Refers m) place i e (some n))
    (hcopies : ∀ s ∈ copies, n.IsOccurrence s) (hc : n.cardinality.Allows copies.length)
    (hu : g.FormReads v m copies u) (hrest : Spells v g.Named rest w) :
    Spells v g.Named (e :: rest) (u ++ w) := by
  cases h with
  | atom he ha =>
    rw [ha.cardinality_eq] at hc
    obtain ⟨s, rfl⟩ := List.length_eq_one_iff.1 (Nat.le_antisymm (hc.2 rfl) (hc.1 rfl))
    have hs := ha.spells (hcopies s List.mem_cons_self) (FormReads.singleton_iff.1 hu)
    exact (spells_atom he).2 ⟨u, w, hs, hrest, rfl⟩
  | single he hb ha =>
    obtain ⟨us, hlen, hus, rfl⟩ := hu.exists_flatten fun s hs u hu =>
      (spellsBlock_of_atom? hb).2 (ha.spells (hcopies s hs) hu)
    rw [← spells_unlabelled, he]
    exact spells_group.2 ⟨us, w, hus, hlen ▸ ha.cardinality_eq ▸ hc, hrest, rfl⟩
  | block he hb hnamed hr =>
    obtain ⟨us, hlen, hus, rfl⟩ := hu.exists_flatten fun s hs u hu =>
      (show g.Reads v m (.rule _) u from (hcopies s hs : s = _) ▸ hu).spellsBlock hg hr hnamed
    rw [← spells_unlabelled, he]
    exact spells_group.2 ⟨us, w, hus, hlen ▸ hc, hrest, rfl⟩

/-- A string that nodes stand for is read as what the elements spell. -/
lemma CompilesElements.spells (hg : g.NamesApart) {l : List Element} {nodes : List (Node RuleId)}
    {x : Form} (h : g.CompilesElements v (Refers m) place i l nodes) (hx : Expands nodes x)
    (hw : g.FormReads v m x w) : Spells v g.Named l w := by
  induction h generalizing x w with
  | nil =>
    cases hx
    cases hw
    exact .nil
  | @cons i e rest n nodes he _ ih =>
    cases n with
    | none =>
      cases he with
      | silent he => exact .silent he (ih hx hw)
    | some n =>
      cases hx with
      | cons hn hc hr =>
        obtain ⟨u, w', hu, hw', rfl⟩ := hw.of_append
        exact he.spells hg hn hc hu (ih hr hw')

/-- A rule is read as what it may be replaced by. -/
lemma Compiled.reads (hm : g.Compiled v m) (hg : g.NamesApart) {id : RuleId} {x : Form}
    (h : m.Produces id x) (hw : g.FormReads v m x w) : g.Reads v m (.rule id) w := by
  obtain ⟨body, hbody⟩ : ∃ body, m.body id = .ok body := by
    rcases h with ⟨_, hb, -⟩ | ⟨_, hb, -⟩ <;> exact ⟨_, hb⟩
  obtain ⟨name, he⟩ := Model.body_eq_ok_iff.1 hbody
  obtain ⟨block, hb, hc⟩ := hm.entry _ (List.mem_of_getElem? he)
  refine ⟨name, block, hb, refers_iff.2 ⟨body, he⟩, ?_⟩
  cases hc with
  | @tokenSet names ids hn hids =>
    obtain ⟨tokens, htokens, t, ht, rfl⟩ | ⟨_, hlist, -⟩ := h
    · obtain rfl : OrderedSet.ofList ids = tokens := by simpa [hbody] using htokens
      obtain ⟨token, htoken, hget⟩ := (exists_of_forall₂ hids).2 t (OrderedSet.mem_ofList.1 ht)
      obtain ⟨_, ha, e, rfl, he⟩ :=
        (exists_of_forall₂ (forall₂_of_terminals? hn)).2 token htoken
      obtain rfl : w = [t] := FormReads.singleton_iff.1 hw
      exact ⟨_, ha, .terminal he hget .nil⟩
    · simp [hbody] at hlist
  | sequences hn hl =>
    obtain ⟨_, htokens, -⟩ | ⟨list, hlist, q, hq, hx⟩ := h
    · simp [hbody] at htokens
    · obtain rfl : _ = list := by simpa [hbody] using hlist
      obtain ⟨a, ha, place, hnodes⟩ := hl.exists_mem hq
      exact ⟨a, ha, hnodes.spells hg hx hw⟩

/-- **Every string of a derivation is read as the tokens at its end.** -/
theorem Compiled.formReads (hm : g.Compiled v m) (hg : g.NamesApart) {x : Form}
    (h : m.Derives x (.ofTokens w)) : g.FormReads v m x w := by
  induction h using Relation.ReflTransGen.head_induction_on with
  | refl => exact .ofTokens w
  | head hstep _ ih =>
    obtain ⟨pre, id, y, post, hy, rfl, rfl⟩ := hstep
    obtain ⟨_, w₃, h, h₃, rfl⟩ := ih.of_append
    obtain ⟨w₁, w₂, h₁, h₂, rfl⟩ := h.of_append
    simpa using h₁.append (.cons (hm.reads hg hy h₂) h₃)

/-! ## The language of a rule -/

/-- **A compilation preserves the language.**  Names that are referred to may also be those of
places; where they are not, the language is the one that the parser rules define. -/
theorem derives_iff_spells (hi : g.imports = []) (hg : g.NamesApart)
    (hc : g.compile v p loader = .ok m) {r : Rule} (hr : r ∈ g.parserRules) :
    ∃ id, m.ruleId? r.name = some id ∧
      (∀ w, m.Derives [.rule id] (.ofTokens w) ↔ SpellsBlock v g.Named r.block w) ∧
      (g.Closed → ∀ w, m.Derives [.rule id] (.ofTokens w) ↔ SpellsBlock v g.IsRule r.block w) := by
  have hm := compiled_of_compile hi hc
  have hb : g.Named r.name r.block := .rule hr
  obtain ⟨id, hid⟩ := exists_refers_iff.2 (hm.rule r hr)
  have hspells (w : List TokenId) :
      m.Derives [.rule id] (.ofTokens w) ↔ SpellsBlock v g.Named r.block w := by
    constructor
    · intro h
      exact Reads.spellsBlock hg (FormReads.singleton_iff.1 (hm.formReads hg h)) hid hb
    · rintro ⟨a, ha, h⟩
      exact hm.derives hg hb hid ha h (hm.preserved hg h)
  exact ⟨id, hid, hspells, fun hclosed w => (hspells w).trans (spellsBlock_rules_iff hg hclosed hr)⟩

/-- The rule of sums derives `NUM PLUS NUM`, and what it derives is what its block spells. -/
theorem derives_iff_spells_sums :
    sums.imports = [] ∧ sums.NamesApart ∧ sums.compile sumTokens {} none = .ok sumModel ∧
      ∃ r ∈ sums.parserRules, ∃ id, sumModel.ruleId? r.name = some id ∧
        sumModel.Derives [.rule id] (.ofTokens [⟨2⟩, ⟨1⟩, ⟨2⟩]) ∧
        (∀ w, sumModel.Derives [.rule id] (.ofTokens w) ↔
          SpellsBlock sumTokens sums.Named r.block w) ∧
        ∀ w, sumModel.Derives [.rule id] (.ofTokens w) ↔
          SpellsBlock sumTokens sums.IsRule r.block w := by
  have hr : ⟨"sum", _⟩ ∈ sums.parserRules := List.mem_cons_self
  obtain ⟨id, hid, hnamed, hrules⟩ := derives_iff_spells rfl namesApart_sums compile_sums hr
  refine ⟨rfl, namesApart_sums, compile_sums, _, hr, id, hid, ?_, hnamed, hrules (by decide)⟩
  have hop : Spells sumTokens sums.Named [.token "PLUS"] [⟨1⟩] := .terminal rfl rfl .nil
  have hnum : Spells sumTokens sums.Named [.token "NUM"] [⟨2⟩] := .terminal rfl rfl .nil
  have htail : Spells sumTokens sums.Named
      [.group .one [[.token "PLUS"], [.token "MINUS"]], .token "NUM"] [⟨1⟩, ⟨2⟩] :=
    .once (w := [⟨2⟩]) List.mem_cons_self hop hnum
  exact (hnamed _).2 ⟨_, List.mem_cons_self,
    .terminal rfl rfl (.once (w := []) List.mem_cons_self htail .nil)⟩

end Grammar

end GrammarCompletion
