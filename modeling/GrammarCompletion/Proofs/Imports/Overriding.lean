/-
# What is left of an imported rule that is replaced

A parser rule of a grammar takes the place of an imported one of the same name.  The draft of the
imported rule is gone then, but those of the blocks in it that become rules of their own stay in the
table, under the names of their places, and are linked with everything else.

If these remains only refer to rules that there are, and no rule, reference or policy is concerned
with their names (`Harmless`), then it does not matter what the imported rule was: there is a model
with another block for it if and only if there is one with its own, and every rule has the same body
in both (`compile_withBlock`).  The condition on references cannot be left out: a reference in a block
of a rule that is replaced is an error if it is to no rule (`remains`).
-/
import GrammarCompletion.Proofs.Compile.Table
import GrammarCompletion.Proofs.Imports.Replacement

namespace GrammarCompletion

namespace Grammar

/-- The parser rules of the imported grammars in their order.  They come before those of the
importing grammar. -/
def importedRules (g : Grammar) (l : Loader) : List Rule :=
  (Traversal.run (some l) g).1.dropLast.flatMap parserRules

/-- Nothing depends on what is left of the imported rules of a name, when another rule takes their
place. -/
structure Harmless (v : Vocabulary) (p : Policy) (n : String) (imported own : List Rule) :
    Prop where
  /-- The rules can be compiled by themselves. -/
  compiles : ∀ r ∈ imported, r.name = n → ∃ defs, Draft.ofBlock v r.name r.name r.block = .ok defs
  /-- The blocks in them that become rules of their own refer to rules that there are. -/
  inner : ∀ r ∈ imported, r.name = n → ∀ ref ∈ Block.innerReferences r.block,
    ∃ r' ∈ imported ++ own, r'.name = ref
  /-- No rule is named like a place in them, and they are not named like a place in a rule. -/
  names : ∀ r ∈ imported ++ own, ¬ Under n r.name ∧ ¬ Under r.name n
  /-- There is no reference to a place in them. -/
  references : ∀ r ∈ imported ++ own, ∀ ref ∈ Block.references r.block, ¬ Under n ref
  /-- The policy does not name a place in them. -/
  policy : ∀ name ∈ p.specialRules ++ p.ignoredRules, ¬ Under n name

variable {v : Vocabulary} {p : Policy} {n : String} {imported own : List Rule}

/-- Where names are free of underscores, only references matter. -/
lemma harmless_of_plain (hn : '_' ∉ n.toList)
    (hcompiles : ∀ r ∈ imported, (Draft.ofBlock v r.name r.name r.block).isOk = true)
    (hinner : ∀ r ∈ imported, ∀ ref ∈ Block.innerReferences r.block,
      ∃ r' ∈ imported ++ own, r'.name = ref)
    (hnames : ∀ r ∈ imported ++ own, '_' ∉ r.name.toList)
    (hrefs : ∀ r ∈ imported ++ own, ∀ ref ∈ Block.references r.block, '_' ∉ ref.toList)
    (hpolicy : ∀ name ∈ p.specialRules ++ p.ignoredRules, '_' ∉ name.toList) :
    Harmless v p n imported own where
  compiles := by
    intro r hr _
    have hok := hcompiles r hr
    cases hdefs : Draft.ofBlock v r.name r.name r.block with
    | error e => simp [hdefs, Except.isOk, Except.toBool] at hok
    | ok defs => exact ⟨defs, rfl⟩
  inner r hr _ := hinner r hr
  names r hr := ⟨not_under_of_plain (hnames r hr), not_under_of_plain hn⟩
  references r hr ref href := not_under_of_plain (hrefs r hr ref href)
  policy name hname := not_under_of_plain (hpolicy name hname)

end Grammar

open Grammar

variable {v : Vocabulary} {p : Policy} {n name : String} {early early' own : List Rule}
  {l l' o : Definitions} {d : Draft}

/-! ## Drafts in both tables -/

lemma lookup_eq_none_of_parts {rule : String} {block : Block} {part : Definitions}
    (h : PartsOfBlock rule block part) (hne : name ≠ rule) (hu : ¬ Under rule name) :
    part.reverse.lookup name = none := by
  refine List.lookup_eq_none_iff.2 fun e he => bne_iff_ne.2 ?_
  rintro rfl
  exact (h.name_cases (List.mem_reverse.1 he)).elim hne hu

/-- Names that are no places in a rule are defined the same, whatever the rule is. -/
lemma lookup_eq_of_sameBut (hs : List.Forall₂ (Rule.SameBut n) early early')
    (hl : Draft.ofRules v early = .ok l) (hl' : Draft.ofRules v early' = .ok l')
    (hne : name ≠ n) (hu : ¬ Under n name) : l.reverse.lookup name = l'.reverse.lookup name := by
  induction hs generalizing l l' with
  | nil =>
    obtain rfl := Except.ok.inj (hl.symm.trans hl')
    rfl
  | @cons r r' early early' hr _ ih =>
    obtain ⟨part, rest, hpart, hrest, rfl⟩ := Draft.ofRules_cons_eq_ok.1 hl
    obtain ⟨part', rest', hpart', hrest', rfl⟩ := Draft.ofRules_cons_eq_ok.1 hl'
    have hsame : part.reverse.lookup name = part'.reverse.lookup name := by
      by_cases hrn : r.name = n
      · have hnone := lookup_eq_none_of_parts (Draft.ofBlock_parts _ hpart) (hrn ▸ hne) (hrn ▸ hu)
        have hrn' : r'.name = n := hr.1.trans hrn
        have hnone' := lookup_eq_none_of_parts (Draft.ofBlock_parts _ hpart') (hrn' ▸ hne)
          (hrn' ▸ hu)
        rw [hnone, hnone']
      · obtain rfl := hr.2 hrn
        rw [Except.ok.inj (hpart.symm.trans hpart')]
    rw [List.reverse_append, List.reverse_append, List.lookup_append, List.lookup_append,
      ih hrest hrest', hsame]

/-- What is left of a rule that is replaced refers to rules that there are, and to itself. -/
lemma Grammar.Harmless.refers_of_left {ref : String} (h : Harmless v p n early' own)
    (hl' : Draft.ofRules v early' = .ok l') (hleft : (name, d) ∈ l') (hunder : Under n name)
    (href : d.Refers ref) :
    (∃ r ∈ early' ++ own, r.name = ref) ∨ ref ∈ l'.map Prod.fst := by
  obtain ⟨r, hr, part, hpart, hep, hsub⟩ := Draft.exists_parts_of_ofRules hl' hleft
  have hnames := h.names r (List.mem_append_left own hr)
  have hne : name ≠ r.name := fun he => hnames.1 (he ▸ hunder)
  -- it can only be a draft of that rule, because no rule is named like a place
  have hrn : r.name = n := by
    have hru : Under r.name name := (hpart.name_cases hep).resolve_left hne
    exact (hru.compare hunder).resolve_right fun hc => hc.elim hnames.2 hnames.1
  rcases hpart.refers hep href with ⟨-, hinner⟩ | hplace
  · exact .inl (h.inner r hr hrn ref (hinner hne))
  · exact .inr (List.map_subset _ hsub hplace)

section

variable (hs : List.Forall₂ (Rule.SameBut n) early early') (hn : ∃ r ∈ own, r.name = n)
  (hl : Draft.ofRules v early = .ok l) (hl' : Draft.ofRules v early' = .ok l')
  (ho : Draft.ofRules v own = .ok o)

include hs hn hl hl' ho

/-- Names that are no places in a rule that is replaced are defined the same. -/
lemma lookup_append_eq (hu : ¬ Under n name) :
    (l ++ o).reverse.lookup name = (l' ++ o).reverse.lookup name := by
  rw [List.reverse_append, List.reverse_append, List.lookup_append, List.lookup_append]
  by_cases hname : name = n
  · subst hname
    obtain ⟨r, hr, rfl⟩ := hn
    obtain ⟨d, hd⟩ : ∃ d, o.reverse.lookup r.name = some d := by
      rw [← OrderedMap.get?_ofList, OrderedMap.exists_get?_iff, OrderedMap.mem_ofList]
      exact Draft.mem_names_of_ofRules ho hr
    rw [hd, Option.some_or, Option.some_or]
  · rw [lookup_eq_of_sameBut hs hl hl' hname hu]

lemma mem_names_iff (hu : ¬ Under n name) :
    name ∈ (OrderedMap.ofList (l ++ o) : DraftTable) ↔
      name ∈ (OrderedMap.ofList (l' ++ o) : DraftTable) := by
  rw [← OrderedMap.exists_get?_iff, ← OrderedMap.exists_get?_iff, OrderedMap.get?_ofList,
    OrderedMap.get?_ofList, lookup_append_eq hs hn hl hl' ho hu]

/-- A draft in one table is also in the other one, or it is left of a rule that is replaced. -/
lemma lookup_cases (hd : (l' ++ o).reverse.lookup name = some d) :
    (l ++ o).reverse.lookup name = some d ∨ Under n name ∧ (name, d) ∈ l' := by
  by_cases hu : Under n name
  · rw [List.reverse_append, List.lookup_append] at hd ⊢
    cases hown : o.reverse.lookup name with
    | some d' =>
      rw [hown] at hd
      exact .inl hd
    | none =>
      rw [hown, Option.none_or, ← OrderedMap.get?_ofList] at hd
      exact .inr ⟨hu, OrderedMap.mem_of_mem_entries_ofList (OrderedMap.mem_entries_of_get? hd)⟩
  · exact .inl ((lookup_append_eq hs hn hl hl' ho hu).trans hd)

/-- **What is left of a rule that is replaced does not matter for linking.** -/
lemma Grammar.Harmless.linkable (h : Harmless v p n early' own)
    (hlink : Linkable (.ofList (l ++ o)) v p) : Linkable (.ofList (l' ++ o)) v p := by
  have hdefs : Draft.ofRules v (early' ++ own) = .ok (l' ++ o) :=
    Draft.ofRules_append_eq_ok.2 ⟨l', o, hl', ho, rfl⟩
  have hmem : ∀ {ref}, ¬ Under n ref → ref ∈ (OrderedMap.ofList (l ++ o) : DraftTable) →
      ref ∈ (OrderedMap.ofList (l' ++ o) : DraftTable) :=
    fun hu => (mem_names_iff hs hn hl hl' ho hu).1
  have hdeclared : ∀ r ∈ early' ++ own, r.name ∈ (OrderedMap.ofList (l' ++ o) : DraftTable) :=
    fun r hr => OrderedMap.mem_ofList.2 (Draft.mem_names_of_ofRules hdefs hr)
  refine ⟨?_, ?_, fun name hname => hmem (h.policy name hname) (hlink.policy name hname),
    hlink.tokens⟩
  · obtain ⟨r, hr, -⟩ := hn
    have hr' := hdeclared r (List.mem_append_right _ hr)
    intro hempty
    simp [OrderedMap.mem_iff, OrderedMap.keys, hempty] at hr'
  · intro e he ref href
    obtain ⟨r, hr, part, hpart, hep, hsub⟩ :=
      Draft.exists_parts_of_ofRules hdefs (OrderedMap.mem_of_mem_entries_ofList he)
    -- places are defined together with the reference
    rcases hpart.refers hep href with ⟨hmemref, -⟩ | hplace
    · have hu : ¬ Under n ref := h.references r hr ref hmemref
      have hlast := OrderedMap.get?_of_mem_entries he
      rw [OrderedMap.get?_ofList] at hlast
      rcases lookup_cases hs hn hl hl' ho hlast with hsame | ⟨hunder, hleft⟩
      · -- the draft is the same as in the other table, where it is linked
        rw [← OrderedMap.get?_ofList] at hsame
        exact hmem hu (hlink.refers e (OrderedMap.mem_entries_of_get? hsame) ref href)
      · rcases h.refers_of_left hl' hleft hunder href with ⟨r', hr', rfl⟩ | hplace
        · exact hdeclared r' hr'
        · exact OrderedMap.mem_ofList.2 (List.map_subset _ (List.subset_append_left l' o) hplace)
    · exact OrderedMap.mem_ofList.2 (List.map_subset _ hsub hplace)

end

/-- The rules of a name may be replaced among the imported ones. -/
lemma Grammar.Harmless.exists_linkable (h : Harmless v p n early' own)
    (hs : List.Forall₂ (Rule.SameBut n) early early') (hn : ∃ r ∈ own, r.name = n)
    (hlink : ∃ l o, Draft.ofRules v early = .ok l ∧ Draft.ofRules v own = .ok o ∧
      Linkable (.ofList (l ++ o)) v p) :
    ∃ l' o, Draft.ofRules v early' = .ok l' ∧ Draft.ofRules v own = .ok o ∧
      Linkable (.ofList (l' ++ o)) v p := by
  obtain ⟨l, o, hl, ho, hlink⟩ := hlink
  obtain ⟨l', hl'⟩ : ∃ l', Draft.ofRules v early' = .ok l' := by
    refine Draft.exists_ofRules_iff.2 fun r' hr' => ?_
    obtain ⟨r, hr, hname, hsame⟩ := (exists_of_forall₂ hs).2 r' hr'
    by_cases hrn : r.name = n
    · exact h.compiles r' hr' (hname.trans hrn)
    · exact hsame hrn ▸ Draft.exists_ofRules_iff.1 ⟨l, hl⟩ r hr
  exact ⟨l', o, hl', ho, h.linkable hs hn hl hl' ho hlink⟩

/-! ## Models with another block -/

namespace Grammar

variable {g h : Grammar} {gs : OrderedMap String Grammar} {key : String} {block : Block}
  {m m' : Model} {loader : Loader} {imported imported' : List Grammar}

lemma Rule.SameBut.symm {r r' : Rule} (h : Rule.SameBut n r r') : Rule.SameBut n r' r :=
  ⟨h.1.symm, fun hne => (h.2 (h.1 ▸ hne)).symm⟩

lemma SameBut.forall₂_flatMap (hs : List.Forall₂ (SameBut n block) imported imported') :
    List.Forall₂ (Rule.SameBut n) (imported.flatMap parserRules)
      (imported'.flatMap parserRules) := by
  induction hs with
  | nil => exact .nil
  | cons hh _ ih => exact List.rel_append hh.forall₂_rules ih

/-- The rules of the imported grammars, where nothing stops the imports. -/
lemma importedRules_of_run (hrun : Traversal.run (some loader) g = (imported ++ [g], none)) :
    g.importedRules loader = imported.flatMap parserRules := by
  simp [importedRules, hrun]

/-- A model is linked from the drafts of the imported rules and of its own ones. -/
lemma compile_eq_ok_iff (hrun : Traversal.run (some loader) g = (imported ++ [g], none)) :
    g.compile v p (some loader) = .ok m ↔ ∃ l o,
      Draft.ofRules v (g.importedRules loader) = .ok l ∧ Draft.ofRules v g.parserRules = .ok o ∧
        DraftTable.link (.ofList (l ++ o)) v p = .ok m := by
  have hrules : (imported ++ [g]).flatMap parserRules =
      imported.flatMap parserRules ++ g.parserRules := by simp
  rw [compile_of_run hrun, importedRules_of_run hrun, hrules]
  simp only [Except.bind_eq_ok, Draft.ofRules_append_eq_ok]
  constructor
  · rintro ⟨_, ⟨l, o, hl, ho, rfl⟩, h⟩
    exact ⟨l, o, hl, ho, h⟩
  · rintro ⟨l, o, hl, ho, h⟩
    exact ⟨_, ⟨l, o, hl, ho, rfl⟩, h⟩

lemma exists_compile_iff (hrun : Traversal.run (some loader) g = (imported ++ [g], none)) :
    (∃ m, g.compile v p (some loader) = .ok m) ↔ ∃ l o,
      Draft.ofRules v (g.importedRules loader) = .ok l ∧ Draft.ofRules v g.parserRules = .ok o ∧
        Linkable (.ofList (l ++ o)) v p := by
  simp only [compile_eq_ok_iff hrun, ← DraftTable.exists_link_iff]
  exact ⟨fun ⟨m, l, o, hl, ho, h⟩ => ⟨l, o, hl, ho, m, h⟩,
    fun ⟨l, o, hl, ho, m, h⟩ => ⟨m, l, o, hl, ho, h⟩⟩

/-- Rules that are not named like a place have the same bodies, whatever an imported rule is that is
replaced. -/
lemma bodyByName?_eq {r : Rule} (hs : List.Forall₂ (Rule.SameBut n) early early')
    (hn : ∃ r ∈ own, r.name = n) (hl : Draft.ofRules v early = .ok l)
    (hl' : Draft.ofRules v early' = .ok l') (ho : Draft.ofRules v own = .ok o)
    (hm : DraftTable.link (.ofList (l ++ o)) v p = .ok m)
    (hm' : DraftTable.link (.ofList (l' ++ o)) v p = .ok m') (hr : r ∈ early ++ own)
    (hu : ¬ Under n r.name) :
    ∃ body, m.bodyByName? r.name = some body ∧ m'.bodyByName? r.name = some body := by
  have hdefs : Draft.ofRules v (early ++ own) = .ok (l ++ o) :=
    Draft.ofRules_append_eq_ok.2 ⟨l, o, hl, ho, rfl⟩
  obtain ⟨d, hd⟩ : ∃ d, (l ++ o).reverse.lookup r.name = some d := by
    rw [← OrderedMap.get?_ofList, OrderedMap.exists_get?_iff, OrderedMap.mem_ofList]
    exact Draft.mem_names_of_ofRules hdefs hr
  have hd' := (lookup_append_eq hs hn hl hl' ho hu).symm.trans hd
  exact ⟨_, (defines_of_link hm).bodyByName? hd, (defines_of_link hm').bodyByName? hd'⟩

/-- **A rule that is replaced does not matter**, if what is left of it does not.  With another block
for the imported rules of a name that the importing grammar has a rule for, there is a model if and
only if there was one, and every rule of the grammars has the body that it had, up to the ids. -/
theorem compile_withBlock (hh : gs.get? key = some h) (hn : ∃ r ∈ g.parserRules, r.name = n)
    (hold : Harmless v p n (g.importedRules (.memory gs)) g.parserRules)
    (hnew : Harmless v p n (g.importedRules (.memory (gs.insert key (h.withBlock n block))))
      g.parserRules) :
    ((∃ m, g.compile v p (some (.memory gs)) = .ok m) ↔
      ∃ m', g.compile v p (some (.memory (gs.insert key (h.withBlock n block)))) = .ok m') ∧
    ∀ m m', g.compile v p (some (.memory gs)) = .ok m →
      g.compile v p (some (.memory (gs.insert key (h.withBlock n block)))) = .ok m' →
      ∀ r ∈ g.importedRules (.memory gs) ++ g.parserRules,
        ∃ body, m.bodyByName? r.name = some body ∧ m'.bodyByName? r.name = some body := by
  rcases Traversal.run_alike (corresponding_withBlock hh) (directiveCount_withBlock hh) with
    ⟨e, grammars, grammars', hrun, hrun'⟩ | ⟨imported, imported', hsame, hrun, hrun'⟩
  · -- there is no model in either case
    refine ⟨?_, fun m _ hm => absurd hm (compile_ne_ok_of_run hrun)⟩
    exact ⟨fun ⟨m, hm⟩ => absurd hm (compile_ne_ok_of_run hrun),
      fun ⟨m, hm⟩ => absurd hm (compile_ne_ok_of_run hrun')⟩
  · have hs := SameBut.forall₂_flatMap hsame
    rw [← importedRules_of_run hrun, ← importedRules_of_run hrun'] at hs
    constructor
    · rw [exists_compile_iff hrun, exists_compile_iff hrun']
      exact ⟨hnew.exists_linkable hs hn,
        hold.exists_linkable (hs.flip.imp fun _ _ hr => Rule.SameBut.symm hr) hn⟩
    · intro m m' hm hm' r hr
      obtain ⟨l, o, hl, ho, hm⟩ := (compile_eq_ok_iff hrun).1 hm
      obtain ⟨l', o', hl', ho', hm'⟩ := (compile_eq_ok_iff hrun').1 hm'
      obtain rfl := Except.ok.inj (ho.symm.trans ho')
      exact bodyByName?_eq hs hn hl hl' ho hm hm' hr (hold.names r hr).1

/-- A list of items, with a rule of its own for an item. -/
def items : Grammar where
  name := "items"
  imports := ["base"]
  rules := [⟨"item", [[.token "A"]]⟩, ⟨"list", [[.rule "item", .rule "list"]]⟩]

/-- `item: (A B)+` -/
def itemBase : Grammar where
  name := "base"
  rules := [⟨"item", [[.group .oneOrMore [[.token "A", .token "B"]]]]⟩]

/-- The collection that items are imported from. -/
def itemLibrary : OrderedMap String Grammar := .ofList [("base", itemBase)]

/-- `(B list)?` -/
def otherItem : Block := [[.group .optional [[.token "B", .rule "list"]]]]

/-- The tokens of items. -/
def itemTokens : Vocabulary := Vocabulary.initial.insertAll [("A", ⟨1⟩), ("B", ⟨2⟩)]

lemma harmless_items :
    Harmless itemTokens {} "item" (items.importedRules (.memory itemLibrary)) items.parserRules :=
  harmless_of_plain (by decide) (by decide) (by decide) (by decide) (by decide) (by decide)

lemma harmless_otherItem : Harmless itemTokens {} "item"
    (items.importedRules (.memory (itemLibrary.insert "base" (itemBase.withBlock "item" otherItem))))
    items.parserRules :=
  harmless_of_plain (by decide) (by decide) (by decide) (by decide) (by decide) (by decide)

/-- The imported item may be the one or the other. -/
theorem compile_otherItem :
    itemLibrary.get? "base" = some itemBase ∧ (∃ r ∈ items.parserRules, r.name = "item") ∧
    Harmless itemTokens {} "item" (items.importedRules (.memory itemLibrary)) items.parserRules ∧
    Harmless itemTokens {} "item"
      (items.importedRules (.memory (itemLibrary.insert "base" (itemBase.withBlock "item" otherItem))))
      items.parserRules ∧
    ((∃ m, items.compile itemTokens {} (some (.memory itemLibrary)) = .ok m) ↔
      ∃ m', items.compile itemTokens {} (some (.memory
        (itemLibrary.insert "base" (itemBase.withBlock "item" otherItem)))) = .ok m') ∧
    ∀ m m', items.compile itemTokens {} (some (.memory itemLibrary)) = .ok m →
      items.compile itemTokens {} (some (.memory
        (itemLibrary.insert "base" (itemBase.withBlock "item" otherItem)))) = .ok m' →
      ∀ r ∈ items.importedRules (.memory itemLibrary) ++ items.parserRules,
        ∃ body, m.bodyByName? r.name = some body ∧ m'.bodyByName? r.name = some body := by
  have hget : itemLibrary.get? "base" = some itemBase := rfl
  have hrule : ∃ r ∈ items.parserRules, r.name = "item" := ⟨_, List.mem_cons_self, rfl⟩
  exact ⟨hget, hrule, harmless_items, harmless_otherItem,
    compile_withBlock hget hrule harmless_items harmless_otherItem⟩

/-- `n: A`, in place of an imported rule. -/
def overriding : Grammar where
  name := "overriding"
  imports := ["base"]
  rules := [⟨"n", [[.token "A"]]⟩]

/-- `n: (A missing)` -/
def overridden : Grammar where
  name := "base"
  rules := [⟨"n", [[.group .one [[.token "A", .rule "missing"]]]]⟩]

/-- The collection with the rule that is replaced. -/
def overriddenLibrary : OrderedMap String Grammar := .ofList [("base", overridden)]

/-- A rule that is replaced, and is an error nevertheless.  The block in parentheses is left of it,
and refers to a rule that there is not; with another block in its place there is a model. -/
theorem remains :
    overriddenLibrary.get? "base" = some overridden ∧
      (∃ r ∈ overriding.parserRules, r.name = "n") ∧ (∃ r ∈ overridden.parserRules, r.name = "n") ∧
      (∀ r ∈ overridden.parserRules, (Draft.ofBlock itemTokens r.name r.name r.block).isOk) ∧
      (Draft.ofBlock itemTokens "n" "n" [[.token "B"]]).isOk ∧
      overriding.compile itemTokens {} (some (.memory overriddenLibrary)) =
        .error (.undefinedRule "n_alt0_block0" "missing") ∧
      ∃ m, overriding.compile itemTokens {} (some (.memory
        (overriddenLibrary.insert "base" (overridden.withBlock "n" [[.token "B"]])))) = .ok m := by
  let m : Model := {
    rules := .ofList [("n", .tokenSet (.ofList [⟨1⟩]))]
    tokenNames := .ofList [(.eof, "EOF"), (⟨1⟩, "A"), (⟨2⟩, "B")] }
  exact ⟨rfl, ⟨_, List.mem_cons_self, rfl⟩, ⟨_, List.mem_cons_self, rfl⟩, by decide, by decide,
    by decide, m, by decide⟩

end Grammar

end GrammarCompletion
