/-
# The entries of a compiled model

The drafts of a grammar are linked into a model.  Every entry of the model is compiled from a block
that goes by its name (`Grammar.Compiled`); and if the names are apart, then there is an entry for
every block that goes by a name, and it is compiled from that very block (`exists_entry`).  So no
rule takes the place of another one.

Where the names are not apart, one does: a draft that comes later replaces one of the same name, and
nothing is reported (`misplaced`).
-/
import GrammarCompletion.Grammar.Compile
import GrammarCompletion.Proofs.Compile.Drafts

namespace GrammarCompletion

namespace Grammar

variable {g : Grammar} {v : Vocabulary} {p : Policy} {loader : Option Loader} {t : DraftTable}
  {owner name place : String} {m : Model} {block inner : Block}

/-! ## Linking -/

/-- A name refers to an entry of a table. -/
def RefersIn (t : DraftTable) (name : String) (id : RuleId) : Prop := t.ruleId? name = some id

lemma linkNode_rule {c : Cardinality} {n : Node RuleId}
    (h : t.linkNode owner (.rule name c) = .ok n) :
    ∃ id, RefersIn t name id ∧ n = .rule id c := by
  simp only [DraftTable.linkNode, Node.rule] at h
  split at h
  · next id hid => exact ⟨id, hid, (Except.ok.inj h).symm⟩
  · simp at h

lemma CompilesAtom.link {c : Cardinality} {a : Atom} {n : Node String} {n' : Node RuleId}
    (h : CompilesAtom v (· = ·) c a n) (hn : t.linkNode owner n = .ok n') :
    CompilesAtom v (RefersIn t) c a n' := by
  cases h with
  | terminal hid =>
    obtain rfl := Except.ok.inj hn
    exact .terminal hid
  | @rule name ref href =>
    subst href
    obtain ⟨id, hid, rfl⟩ := linkNode_rule hn
    exact .rule hid
  | wildcard =>
    obtain rfl := Except.ok.inj hn
    exact .wildcard

lemma CompilesElement.link {i : Nat} {e : Element} {n : Node String} {n' : Node RuleId}
    (h : g.CompilesElement v (· = ·) place i e (some n)) (hn : t.linkNode owner n = .ok n') :
    g.CompilesElement v (RefersIn t) place i e (some n') := by
  cases h with
  | atom he ha => exact .atom he (ha.link hn)
  | single he hs ha => exact .single he hs (ha.link hn)
  | @block c block ref he hs hb href =>
    subst href
    obtain ⟨id, hid, rfl⟩ := linkNode_rule hn
    exact .block he hs hb hid

lemma CompilesElements.link {i : Nat} {elements : List Element} {nodes : List (Node String)}
    {nodes' : List (Node RuleId)} (h : g.CompilesElements v (· = ·) place i elements nodes)
    (hn : List.Forall₂ (fun n n' => t.linkNode owner n = .ok n') nodes nodes') :
    g.CompilesElements v (RefersIn t) place i elements nodes' := by
  induction h generalizing nodes' with
  | nil =>
    cases hn
    exact .nil
  | @cons i e rest n nodes he _ ih =>
    cases n with
    | none =>
      -- an element that matches nothing has no node in either
      have he' : g.CompilesElement v (RefersIn t) place i e none := by
        cases he with
        | silent he => exact .silent he
      exact .cons he' (ih hn)
    | some n =>
      cases hn with
      | cons hn hrest => exact .cons (he.link hn) (ih hrest)

lemma CompilesAlternatives.link {i : Nat} {alternatives : List Alternative}
    {list : List (Sequence String)} {list' : List (Sequence RuleId)}
    (h : g.CompilesAlternatives v (· = ·) name i alternatives list)
    (hl : List.Forall₂ (fun q q' => t.linkSequence owner q = .ok q') list list') :
    g.CompilesAlternatives v (RefersIn t) name i alternatives list' := by
  induction h generalizing list' with
  | nil =>
    cases hl
    exact .nil
  | cons ha hp _ ih =>
    cases hl with
    | cons hq hrest =>
      obtain ⟨nodes, hnodes, hq⟩ := Except.bind_eq_ok.1 hq
      obtain rfl := Except.ok.inj hq
      exact .cons (ha.link (Except.forall₂_of_mapM hnodes)) hp (ih hrest)

/-- Linking keeps what a body is compiled from. -/
lemma CompilesBlock.link {d : Draft} {body : RuleBody RuleId}
    (h : g.CompilesBlock v (· = ·) name block d) (hb : t.linkBody owner d = .ok body) :
    g.CompilesBlock v (RefersIn t) name block body := by
  cases h with
  | tokenSet hn hids =>
    obtain rfl := Except.ok.inj hb
    exact .tokenSet hn hids
  | sequences hn ha =>
    obtain ⟨list', hlist, hb⟩ := Except.bind_eq_ok.1 hb
    obtain rfl := Except.ok.inj hb
    exact .sequences hn (ha.link (Except.forall₂_of_mapM hlist))

/-! ## Models -/

/-- A name refers to a rule of a model. -/
def Refers (m : Model) (name : String) (id : RuleId) : Prop := m.ruleId? name = some id

/-- A name refers to the rule at the place of its entry. -/
lemma refers_iff {id : RuleId} :
    Refers m name id ↔ ∃ body, m.rules.entries[id.index]? = some (name, body) := by
  obtain ⟨i⟩ := id
  have hkeys : Refers m name ⟨i⟩ ↔ m.rules.keys.idxOf? name = some i := by
    simp [Refers, Model.ruleId?, OrderedMap.indexOf?]
  rw [hkeys, List.idxOf?_eq_some_iff]
  constructor
  · rintro ⟨hlt, hget, -⟩
    have hlt' : i < m.rules.entries.length := by simpa [OrderedMap.keys] using hlt
    refine ⟨m.rules.entries[i].2, ?_⟩
    rw [List.getElem?_eq_getElem hlt', ← hget]
    simp [OrderedMap.keys]
  · rintro ⟨body, hget⟩
    obtain ⟨hlt', hget⟩ := List.getElem?_eq_some_iff.1 hget
    have hlt : i < m.rules.keys.length := by simpa [OrderedMap.keys] using hlt'
    have hname : m.rules.keys[i] = name := by simp [OrderedMap.keys, hget]
    refine ⟨hlt, hname, fun j hj hjname => ?_⟩
    -- no key stands at two places
    have hnodup : m.rules.keys.Nodup := m.rules.nodup_keys
    have hji : j = i := hnodup.getElem_inj_iff.1 (hjname.trans hname.symm)
    omega

lemma exists_refers_iff : (∃ id, Refers m name id) ↔ name ∈ m.rules := by
  constructor
  · rintro ⟨id, h⟩
    obtain ⟨body, hget⟩ := refers_iff.1 h
    exact List.mem_map.2 ⟨_, List.mem_of_getElem? hget, rfl⟩
  · intro h
    obtain ⟨⟨_, body⟩, he, rfl⟩ := List.mem_map.1 h
    obtain ⟨i, hi⟩ := List.mem_iff_getElem?.1 he
    exact ⟨⟨i⟩, refers_iff.2 ⟨body, hi⟩⟩

/-- What is true of a model that a grammar is compiled to. -/
structure Compiled (g : Grammar) (v : Vocabulary) (m : Model) : Prop where
  /-- Every entry is compiled from a block that goes by its name. -/
  entry : ∀ e ∈ m.rules.entries, ∃ block, g.Named e.1 block ∧
    g.CompilesBlock v (Refers m) e.1 block e.2
  /-- Every parser rule has an entry. -/
  rule : ∀ r ∈ g.parserRules, r.name ∈ m.rules

/-- A grammar without imports is the only one to be compiled. -/
lemma run_of_no_imports (h : g.imports = []) : Traversal.run loader g = ([g], none) := by
  obtain ⟨name, imports, rules⟩ := g
  obtain rfl : imports = [] := h
  rw [Traversal.run, Traversal.visit.eq_def]
  rfl

/-- A grammar without imports is compiled from its own drafts. -/
lemma compile_of_no_imports (h : g.imports = []) :
    g.compile v p loader = (do DraftTable.link (.ofList (← g.drafts v)) v p) := by
  rw [Grammar.compile, run_of_no_imports h]
  cases hd : g.drafts v with
  | error e => simp [hd, bind, Except.bind]
  | ok defs => simp [hd, bind, Except.bind, pure, Except.pure]

/-- What linking yields, and what it needs. -/
lemma link_eq_ok_iff : t.link v p = .ok m ↔ t.isEmpty = false ∧
    ∃ rules special ignored tokens, t.linkEntries = .ok rules ∧
      t.policyRules p.specialRules = .ok special ∧ t.policyRules p.ignoredRules = .ok ignored ∧
      DraftTable.policyTokens v p.ignoredTokens = .ok tokens ∧
      Model.addIgnoredTokens (.addIgnoredRules (.addSpecialRules
        { rules := .ofList rules, tokenNames := v.displayNames } special) ignored) tokens = m := by
  simp only [DraftTable.link]
  split
  · next ht => simp [ht, throw, throwThe, MonadExceptOf.throw, bind, Except.bind]
  · next ht =>
    simp only [Except.bind_eq_ok]
    constructor
    · rintro ⟨rules, hrules, special, hspecial, ignored, hignored, tokens, htokens, h⟩
      exact ⟨by simpa using ht, rules, special, ignored, tokens, hrules, hspecial, hignored, htokens,
        Except.ok.inj h⟩
    · rintro ⟨-, rules, special, ignored, tokens, hrules, hspecial, hignored, htokens, rfl⟩
      exact ⟨rules, hrules, special, hspecial, ignored, hignored, tokens, htokens, rfl⟩

/-- The rules of a model are those of its table. -/
lemma rules_of_link (h : t.link v p = .ok m) : ∃ rules, t.linkEntries = .ok rules ∧
    m.rules = .ofList rules := by
  obtain ⟨-, rules, _, _, _, hrules, -, -, -, rfl⟩ := link_eq_ok_iff.1 h
  exact ⟨rules, hrules, rfl⟩

/-- The model has the entries of the table in their order, with linked bodies. -/
lemma entries_of_link (h : t.link v p = .ok m) :
    List.Forall₂ (fun e e' => e.1 = e'.1 ∧ t.linkBody e.1 e.2 = .ok e'.2) t.entries
      m.rules.entries := by
  obtain ⟨rules, hrules, hm⟩ := rules_of_link h
  have hall : List.Forall₂ (fun (e : String × Draft) (e' : String × RuleBody RuleId) =>
      e.1 = e'.1 ∧ t.linkBody e.1 e.2 = .ok e'.2) t.entries rules := by
    refine (Except.forall₂_of_mapM hrules).imp fun e e' he => ?_
    obtain ⟨body, hbody, he⟩ := Except.bind_eq_ok.1 he
    obtain rfl := Except.ok.inj he
    exact ⟨rfl, hbody⟩
  have hkeys : t.keys = rules.map Prod.fst := map_eq_of_forall₂ (hall.imp fun _ _ he => he.1)
  rw [hm, OrderedMap.entries_ofList (hkeys ▸ t.nodup_keys)]
  exact hall

/-- The names of the table are those of the model, in the same order. -/
lemma keys_of_link (h : t.link v p = .ok m) : t.keys = m.rules.keys :=
  map_eq_of_forall₂ ((entries_of_link h).imp fun _ _ he => he.1)

/-- A name refers to the same place in the table and in the model. -/
lemma ruleId?_of_link (h : t.link v p = .ok m) : m.ruleId? = t.ruleId? := by
  funext name
  rw [Model.ruleId?, DraftTable.ruleId?, OrderedMap.indexOf?, OrderedMap.indexOf?, keys_of_link h]

/-- **What a compilation yields**, for a grammar without imports. -/
theorem compiled_of_compile (hi : g.imports = []) (h : g.compile v p loader = .ok m) :
    g.Compiled v m := by
  rw [compile_of_no_imports hi] at h
  obtain ⟨defs, hdefs, h⟩ := Except.bind_eq_ok.1 h
  obtain ⟨hrules, hsound⟩ := drafts_sound hdefs
  have hnames : RefersIn (.ofList defs) = Refers m := by
    funext name id
    rw [RefersIn, Refers, ruleId?_of_link h]
  have hentries := exists_of_forall₂ (entries_of_link h)
  refine ⟨fun e he => ?_, fun r hr => ?_⟩
  · obtain ⟨d, hd, hname, hbody⟩ := hentries.2 e he
    obtain ⟨block, hb, hc⟩ := hsound d (OrderedMap.mem_of_mem_entries_ofList hd)
    rw [← hname, ← hnames]
    exact ⟨block, hb, hc.link hbody⟩
  · have hmem : r.name ∈ (OrderedMap.ofList defs : DraftTable) :=
      OrderedMap.mem_ofList.2 (hrules r hr)
    obtain ⟨d, hd, hname⟩ := List.mem_map.1 hmem
    obtain ⟨e, he, hde, -⟩ := hentries.1 d hd
    exact List.mem_map.2 ⟨e, he, hde.symm.trans hname⟩

/-! ## Blocks have entries of their own -/

/-- What stands in an alternative is compiled in place. -/
lemma CompilesAlternatives.get {ρ : Type} {Ref : String → ρ → Prop} {i k : Nat}
    {alternatives : List Alternative} {list : List (Sequence ρ)} {a : Alternative}
    (h : g.CompilesAlternatives v Ref name i alternatives list) (ha : alternatives[k]? = some a) :
    ∃ q ∈ list, g.CompilesElements v Ref (Draft.alternativeName name (i + k)) 0 a q.nodes := by
  induction h generalizing k with
  | nil => simp at ha
  | @cons i b rest q list hb _ _ ih =>
    cases k with
    | zero =>
      obtain rfl : b = a := by simpa using ha
      exact ⟨q, List.mem_cons_self, hb⟩
    | succ k =>
      obtain ⟨q', hq', hc⟩ := ih (k := k) (by simpa using ha)
      rw [Nat.add_comm k 1, ← Nat.add_assoc]
      exact ⟨q', List.mem_cons_of_mem q hq', hc⟩

lemma CompilesElements.get {ρ : Type} {Ref : String → ρ → Prop} {i k : Nat}
    {elements : List Element} {nodes : List (Node ρ)} {e : Element}
    (h : g.CompilesElements v Ref place i elements nodes) (he : elements[k]? = some e) :
    ∃ n, g.CompilesElement v Ref place (i + k) e n := by
  induction h generalizing k with
  | nil => simp at he
  | @cons i b rest n nodes hb _ ih =>
    cases k with
    | zero =>
      obtain rfl : b = e := by simpa using he
      exact ⟨n, hb⟩
    | succ k =>
      rw [Nat.add_comm k 1, ← Nat.add_assoc]
      exact ih (k := k) (by simpa using he)

/-- A block in parentheses that becomes a rule of its own is referred to by the name of its place. -/
lemma CompilesElement.refers {ρ : Type} {Ref : String → ρ → Prop} {i : Nat} {e : Element}
    {n : Option (Node ρ)} {c : Cardinality} (h : g.CompilesElement v Ref place i e n)
    (he : e.unlabelled = .group c inner) (hs : inner.atom? = none) :
    ∃ ref, Ref (Draft.blockName place i) ref := by
  cases h with
  | atom ha _ =>
    rw [← Element.atom?_unlabelled, he] at ha
    simp [Element.atom?] at ha
  | single hg ha _ =>
    obtain rfl := (Element.group.inj (hg.symm.trans he)).2
    simp [hs] at ha
  | @block _ _ ref _ _ _ href => exact ⟨ref, href⟩
  | silent hsilent => simp [Element.IsSilent, he] at hsilent

/-- What stands in a block is compiled in place, unless it is made into a token set. -/
lemma CompilesBlock.get {ρ : Type} {Ref : String → ρ → Prop} {body : RuleBody ρ} {i j : Nat}
    {a : Alternative} {e : Element} (h : g.CompilesBlock v Ref name block body)
    (hn : Block.terminals? block = none) (ha : block[i]? = some a) (he : a[j]? = some e) :
    ∃ n, g.CompilesElement v Ref (Draft.alternativeName name i) j e n := by
  cases h with
  | tokenSet hn' _ => simp [hn] at hn'
  | sequences _ hlist =>
    obtain ⟨q, -, hq⟩ := hlist.get ha
    obtain ⟨n, hn⟩ := hq.get he
    rw [Nat.zero_add, Nat.zero_add] at hn
    exact ⟨n, hn⟩

lemma CompilesBlock.refers {ρ : Type} {Ref : String → ρ → Prop} {body : RuleBody ρ} {i j : Nat}
    (h : g.CompilesBlock v Ref name block body) (hi : block.HasAt i j inner) :
    ∃ ref, Ref (placeName name i j) ref := by
  have hn := hi.terminals?_eq_none
  obtain ⟨a, e, c, ha, he, hg, hs⟩ := hi
  obtain ⟨n, hn⟩ := h.get hn ha he
  exact hn.refers hg hs

lemma Compiled.entry_of_mem (h : g.Compiled v m) (hg : g.NamesApart) (hb : g.Named name block)
    (hm : name ∈ m.rules) :
    ∃ body, m.bodyOf? name = some body ∧ g.CompilesBlock v (Refers m) name block body := by
  obtain ⟨⟨_, body⟩, he, rfl⟩ := List.mem_map.1 hm
  obtain ⟨block', hb', hc⟩ := h.entry _ he
  obtain rfl := hb.unique hg hb'
  exact ⟨body, OrderedMap.get?_of_mem_entries he, hc⟩

/-- In a model of a grammar whose names are apart, every block that goes by a name has an entry. -/
lemma Compiled.entry_of_named (h : g.Compiled v m) (hg : g.NamesApart) (hb : g.Named name block) :
    ∃ body, m.bodyOf? name = some body ∧ g.CompilesBlock v (Refers m) name block body := by
  induction hb with
  | rule hr => exact h.entry_of_mem hg (.rule hr) (h.rule _ hr)
  | inner hb hat ih =>
    -- the outer entry refers to the name of the place, so there is an entry of that name
    obtain ⟨body, -, hbody⟩ := ih
    exact h.entry_of_mem hg (.inner hb hat) (exists_refers_iff.1 (hbody.refers hat))

/-- **A block that goes by a name has an entry of its own**, if the names are apart.  The blocks in
parentheses that are referred to in this entry go by names as well, so that the same is true of the
entries they refer to. -/
theorem exists_entry (hi : g.imports = []) (hg : g.NamesApart) (hc : g.compile v p loader = .ok m)
    (hb : g.Named name block) :
    ∃ body, m.bodyOf? name = some body ∧ g.CompilesBlock v (Refers m) name block body :=
  (compiled_of_compile hi hc).entry_of_named hg hb

/-- `sum: NUM ((PLUS | MINUS) NUM)*` -/
def sums : Grammar where
  name := "sums"
  rules := [⟨"sum", [[.token "NUM", .group .zeroOrMore
    [[.group .one [[.token "PLUS"], [.token "MINUS"]], .token "NUM"]]]]⟩]

/-- The tokens of sums. -/
def sumTokens : Vocabulary :=
  Vocabulary.initial.insertAll [("PLUS", ⟨1⟩), ("NUM", ⟨2⟩), ("MINUS", ⟨3⟩)]

/-- The model of sums. -/
def sumModel : Model where
  rules := .ofList [
    ("sum", .sequences [⟨[.token ⟨2⟩ .one, .rule ⟨1⟩ .zeroOrMore], none⟩]),
    ("sum_alt0_block1", .sequences [⟨[.rule ⟨2⟩ .one, .token ⟨2⟩ .one], none⟩]),
    ("sum_alt0_block1_alt0_block0", .tokenSet (.ofList [⟨1⟩, ⟨3⟩]))]
  tokenNames := .ofList [(.eof, "EOF"), (⟨1⟩, "PLUS"), (⟨2⟩, "NUM"), (⟨3⟩, "MINUS")]

lemma compile_sums : sums.compile sumTokens {} none = .ok sumModel := by decide

lemma namesApart_sums : sums.NamesApart := namesApart_of_plain (by decide) (by decide)

/-- The blocks of sums have entries of their own. -/
theorem exists_entry_sums :
    sums.imports = [] ∧ sums.NamesApart ∧ sums.compile sumTokens {} none = .ok sumModel ∧
      sums.Named "sum_alt0_block1"
        [[.group .one [[.token "PLUS"], [.token "MINUS"]], .token "NUM"]] ∧
      ∃ body, sumModel.bodyOf? "sum_alt0_block1" = some body ∧
        sums.CompilesBlock sumTokens (Refers sumModel) "sum_alt0_block1"
          [[.group .one [[.token "PLUS"], [.token "MINUS"]], .token "NUM"]] body := by
  have hrule : ⟨"sum", _⟩ ∈ sums.parserRules := List.mem_cons_self
  have hnamed : sums.Named "sum_alt0_block1"
      [[.group .one [[.token "PLUS"], [.token "MINUS"]], .token "NUM"]] :=
    .inner (i := 0) (j := 1) (.rule hrule) ⟨_, _, .zeroOrMore, rfl, rfl, rfl, rfl⟩
  exact ⟨rfl, namesApart_sums, compile_sums, hnamed,
    exists_entry rfl namesApart_sums compile_sums hnamed⟩

/-- `a: (A A); a_alt0_block0: B` -/
def clash : Grammar where
  name := "clash"
  rules := [⟨"a", [[.group .one [[.token "A", .token "A"]]]]⟩, ⟨"a_alt0_block0", [[.token "B"]]⟩]

/-- The tokens of the grammar with a clash of names. -/
def clashTokens : Vocabulary := Vocabulary.initial.insertAll [("A", ⟨1⟩), ("B", ⟨2⟩)]

/-- A parser rule that is named like a place.  The node for the block in parentheses then refers to
that rule, and the block has no entry: nothing is compiled from it. -/
theorem misplaced : ∃ m block,
    clash.imports = [] ∧ (clash.parserRules.map Rule.name).Nodup ∧
      clash.compile clashTokens {} none = .ok m ∧ clash.Named "a_alt0_block0" block ∧
      m.bodyOf? "a" = some (.sequences [⟨[.rule ⟨1⟩ .one], none⟩]) ∧
      m.ruleId? "a_alt0_block0" = some ⟨1⟩ ∧
      ∀ body, m.bodyOf? "a_alt0_block0" = some body →
        ¬ clash.CompilesBlock clashTokens (Refers m) "a_alt0_block0" block body := by
  let m : Model := {
    rules := .ofList [("a", .sequences [⟨[.rule ⟨1⟩ .one], none⟩]),
      ("a_alt0_block0", .tokenSet (.ofList [⟨2⟩]))]
    tokenNames := .ofList [(.eof, "EOF"), (⟨1⟩, "A"), (⟨2⟩, "B")] }
  have hrule : ⟨"a", _⟩ ∈ clash.parserRules := List.mem_cons_self
  refine ⟨m, [[.token "A", .token "A"]], rfl, by decide, by decide, ?_, by decide, by decide, ?_⟩
  · exact .inner (i := 0) (j := 0) (.rule hrule) ⟨_, _, .one, rfl, rfl, rfl, rfl⟩
  · intro body hbody hcompiles
    have hb : .tokenSet (.ofList [⟨2⟩]) = body := Option.some.inj hbody
    -- two tokens in a row are no choice between tokens
    cases hcompiles with
    | tokenSet hn _ => simp [Block.terminals?] at hn
    | sequences => simp at hb

end Grammar

end GrammarCompletion
