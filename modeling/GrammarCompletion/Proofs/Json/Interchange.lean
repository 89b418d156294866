/-
# Grammars survive their interchange form

The interchange form leaves open in which order the members of an object stand, and an element may
have members of which its tag knows nothing.  `Written` relates elements, alternatives and blocks to
all JSON values that describe them, and `Grammar.Written` does so for grammars.  Every grammar can be
described in this way (`Grammar.exists_written`).

Whatever the form is, the element is read back from it (`Written.reads`): the members that do not
belong to the tag are dropped, and those that do are at most two, so that their order can be gone
through.  With `Json.read_of_spells` this is true of texts as well (`Grammar.read_written`).
-/
import GrammarCompletion.Grammar.Interchange
import GrammarCompletion.Proofs.Json.Spelling
import Mathlib.Data.List.Permutation

namespace GrammarCompletion

namespace Element

/-- The tag of an element. -/
def tag : Element → Tag
  | token _ => .token
  | literal _ => .literal
  | charSet _ => .charSet
  | rule _ => .rule
  | group c _ => .group c
  | label _ op _ => .label op
  | semPred _ => .semPred
  | synPred _ => .synPred
  | action _ => .action
  | epsilon => .epsilon
  | wildcard => .wildcard

/-- The text of an element that consists of one. -/
def text? : Element → Option String
  | token s | literal s | charSet s | rule s | semPred s | synPred s | action s => some s
  | group _ _ | label _ _ _ | epsilon | wildcard => none

/-- The members of an object that describes an element with a tag: the tag, the fields and others
that are not known, in any order. -/
structure Tag.HasMembers (tag : Tag) (fields members : List (String × Json)) : Prop where
  /-- Every field belongs to the tag. -/
  known : ∀ m ∈ fields, m.1 ∈ tag.fields
  /-- Everything else is a string that does not belong to the tag. -/
  perm : ∃ name extra, (name, tag) ∈ Tag.table ∧
    (∀ m ∈ extra, m.1 ≠ "type" ∧ m.1 ∉ tag.fields ∧ ∃ s, m.2 = .string s) ∧
    members.Perm (("type", .string name) :: (fields ++ extra))

end Element

/-- What a JSON value may describe within a grammar. -/
inductive Source where
  /-- An element. -/
  | element (e : Element)
  /-- A sequence of elements. -/
  | alternative (l : Alternative)
  /-- A choice between alternatives. -/
  | block (b : Block)

/-- The JSON values that describe an element, an alternative or a block. -/
inductive Written : Source → Json → Prop
  | text {e : Element} {s key : String} {members : List (String × Json)} (ht : e.text? = some s)
      (hkey : e.tag.fields = [key]) (hm : e.tag.HasMembers [(key, .string s)] members) :
      Written (.element e) (.object members none)
  | bare {e : Element} {members : List (String × Json)} (hnone : e.tag.fields = [])
      (hm : e.tag.HasMembers [] members) : Written (.element e) (.object members none)
  | group {c : Cardinality} {b : Block} {v : Json} {members : List (String × Json)}
      (hb : Written (.block b) v)
      (hm : (Element.Tag.group c).HasMembers [("alternatives", v)] members) :
      Written (.element (.group c b)) (.object members none)
  | label {name : String} {op : LabelOp} {target : Element} {v : Json}
      {members : List (String × Json)} (ht : Written (.element target) v)
      (hm : (Element.Tag.label op).HasMembers [("label", .string name), ("target", v)] members) :
      Written (.element (.label name op target)) (.object members none)
  | noElement : Written (.alternative []) (.array [] none)
  | element {e : Element} {l : Alternative} {v : Json} {items : List Json}
      (he : Written (.element e) v) (hl : Written (.alternative l) (.array items none)) :
      Written (.alternative (e :: l)) (.array (v :: items) none)
  | noAlternative : Written (.block []) (.array [] none)
  | alternative {l : Alternative} {b : Block} {v : Json} {items : List Json}
      (hl : Written (.alternative l) v) (hb : Written (.block b) (.array items none)) :
      Written (.block (l :: b)) (.array (v :: items) none)

/-- The members of an object that describes a grammar: the name, the rules in their order, the
imports unless there are none, and others that are not known, in any order. -/
def Grammar.Written (g : Grammar) (members : List (String × Json)) : Prop :=
  ∃ rules imports extra,
    List.Forall₂ (fun (r : Rule) (m : String × Json) =>
      m.1 = r.name ∧ GrammarCompletion.Written (.block r.block) m.2) g.rules rules ∧
    (imports = [("imports", .array (g.imports.map .string) none)] ∨ g.imports = [] ∧ imports = []) ∧
    (∀ m ∈ extra, m.1 ∉ partNames ∧ ∃ s, m.2 = .string s) ∧
    members.Perm (("name", .string g.name) :: ("rules", .object rules none) :: (imports ++ extra))

namespace Json

variable {members : List (String × Json)} {items : List Json} {v : Json}

/-! ## Values without a break -/

lemma fault?_object (h : ∀ m ∈ members, m.2.fault? = none) :
    (object members none).fault? = none := by
  have hmembers : faultOfMembers? members = none := by
    induction members with
    | nil => rfl
    | cons m members ih =>
      obtain ⟨hm, hrest⟩ := List.forall_mem_cons.1 h
      rw [faultOfMembers?, hm, ih hrest]
      rfl
  rw [fault?, hmembers]
  rfl

lemma fault?_array_cons (hv : v.fault? = none) (h : (array items none).fault? = none) :
    (array (v :: items) none).fault? = none := by
  rw [fault?, Option.or_none] at h ⊢
  rw [faultOfItems?, hv, h]
  rfl

end Json

namespace Element

open Json

variable {tag : Tag} {fields members : List (String × Json)} {nested : Bool} {found : Option Tag}
  {name : String}

/-! ## Members -/

namespace Tag

lemma type_not_mem_fields (tag : Tag) : "type" ∉ tag.fields := by
  cases tag <;> simp [Tag.fields]

lemma lookup_table : ∀ e ∈ table, table.lookup e.1 = some e.2 := by
  decide

/-- Members that are not a tag do not change which tag was found. -/
lemma ofMembers_of_ne (h : ∀ m ∈ members, m.1 ≠ "type" ∧ m.2.fault? = none) :
    ofMembers nested found members = .ok found := by
  induction members with
  | nil => rfl
  | cons m members ih =>
    obtain ⟨name, v⟩ := m
    obtain ⟨⟨hname, hv⟩, hrest⟩ := List.forall_mem_cons.1 h
    have hname : name ≠ "type" := hname
    have hv : v.fault? = none := hv
    simp only [ofMembers, if_neg hname, hv, demandNone]
    exact ih hrest

/-- The tag is found wherever it stands among the members. -/
lemma ofMembers_append {l l' : List (String × Json)} (hname : (name, tag) ∈ table)
    (h : ∀ m ∈ l ++ l', m.1 ≠ "type" ∧ m.2.fault? = none) :
    ofMembers nested none (l ++ ("type", .string name) :: l') = .ok (some tag) := by
  induction l with
  | nil =>
    have htag : Tag.ofJson nested (.string name) = .ok tag := by
      simp only [Tag.ofJson, lookup_table _ hname]
    have hrest : ofMembers nested (some tag) l' = .ok (some tag) := ofMembers_of_ne h
    simp only [List.nil_append, ofMembers, if_true, htag, Json.once]
    exact hrest
  | cons m l ih =>
    obtain ⟨other, v⟩ := m
    obtain ⟨⟨hother, hv⟩, hrest⟩ := List.forall_mem_cons.1 h
    have hother : other ≠ "type" := hother
    have hv : v.fault? = none := hv
    simp only [List.cons_append, ofMembers, if_neg hother, hv, demandNone]
    exact ih hrest

namespace HasMembers

variable (h : tag.HasMembers fields members)
include h

/-- All members but the tag are whole, if the fields are. -/
lemma split (hwhole : ∀ m ∈ fields, m.2.fault? = none) : ∃ name l l', (name, tag) ∈ table ∧
    members = l ++ ("type", .string name) :: l' ∧
    ∀ m ∈ l ++ l', m.1 ≠ "type" ∧ m.2.fault? = none := by
  obtain ⟨name, extra, hname, hextra, hperm⟩ := h.perm
  obtain ⟨l, l', rfl⟩ := List.append_of_mem (hperm.mem_iff.2 List.mem_cons_self)
  have hrest : (l ++ l').Perm (fields ++ extra) :=
    (List.perm_middle.symm.trans hperm).cons_inv
  refine ⟨name, l, l', hname, rfl, fun m hm => ?_⟩
  rcases List.mem_append.1 (hrest.mem_iff.1 hm) with hm | hm
  · exact ⟨fun ht => tag.type_not_mem_fields (ht ▸ h.known m hm), hwhole m hm⟩
  · obtain ⟨hne, -, s, hs⟩ := hextra m hm
    exact ⟨hne, by rw [hs]; rfl⟩

lemma ofMembers_eq (hwhole : ∀ m ∈ fields, m.2.fault? = none) (nested : Bool) :
    ofMembers nested none members = .ok (some tag) := by
  obtain ⟨name, l, l', hname, rfl, hrest⟩ := h.split hwhole
  exact ofMembers_append hname hrest

lemma whole (hwhole : ∀ m ∈ fields, m.2.fault? = none) :
    (Json.object members none).fault? = none := by
  obtain ⟨name, l, l', -, rfl, hrest⟩ := h.split hwhole
  refine fault?_object fun m hm => ?_
  rcases List.mem_append.1 hm with hm | hm
  · exact (hrest m (List.mem_append_left _ hm)).2
  · rcases List.mem_cons.1 hm with rfl | hm
    · rfl
    · exact (hrest m (List.mem_append_right _ hm)).2

/-- The members that belong to the tag are the fields. -/
lemma filter : (members.filter fun m => tag.fields.contains m.1).Perm fields := by
  obtain ⟨name, extra, -, hextra, hperm⟩ := h.perm
  have hfields : fields.filter (fun m => tag.fields.contains m.1) = fields :=
    List.filter_eq_self.2 fun m hm => by simpa using h.known m hm
  have hdrop : extra.filter (fun m => tag.fields.contains m.1) = [] :=
    List.filter_eq_nil_iff.2 fun m hm => by simpa using (hextra m hm).2.1
  have hall := hperm.filter fun m => tag.fields.contains m.1
  rwa [List.filter_cons_of_neg (by simpa using tag.type_not_mem_fields), List.filter_append,
    hfields, hdrop, List.append_nil] at hall

end HasMembers

end Tag

/-- An element can be described with its fields alone. -/
lemma exists_hasMembers (h : fields.map Prod.fst = tag.fields) :
    ∃ members, tag.HasMembers fields members := by
  have htag : tag ∈ Tag.table.map Prod.snd := by
    cases tag with
    | group c => obtain ⟨_ | _, _ | _⟩ := c <;> decide
    | label op => cases op <;> decide
    | _ => decide
  obtain ⟨⟨name, _⟩, hname, rfl⟩ := List.mem_map.1 htag
  exact ⟨_, fun _ hm => h ▸ List.mem_map_of_mem hm, name, [], hname, nofun, .refl _⟩

/-! ## Fields -/

/-- What a member gives where a field is due. -/
def readMember (m : String × Json) : String × Reading :=
  (m.1, ⟨m.2.asString, blockOfJson true m.2, ofJson true m.2⟩)

lemma readMembers_eq_map (l : List (String × Json)) : readMembers l = l.map readMember := by
  induction l with
  | nil => rw [readMembers, List.map_nil]
  | cons m l ih => rw [readMembers, ih, List.map_cons, readMember]

/-- Values that do not belong to the tag are dropped. -/
lemma Fields.ofReadings_filter (l : List (String × Reading)) :
    Fields.ofReadings tag l = Fields.ofReadings tag (l.filter fun e => tag.fields.contains e.1) := by
  unfold Fields.ofReadings
  generalize ({} : Fields) = f
  induction l generalizing f with
  | nil => rfl
  | cons e l ih =>
    rw [List.filter_cons]
    split
    · rw [List.foldlM_cons, List.foldlM_cons]
      exact bind_congr fun f => ih f
    · next he =>
      rw [List.foldlM_cons, Fields.set, if_neg he]
      exact ih f

/-- An object is read from its fields, in the order in which they stand. -/
lemma Tag.HasMembers.ofJson_eq (h : tag.HasMembers fields members)
    (hwhole : ∀ m ∈ fields, m.2.fault? = none) : ∃ l : List (String × Json), l.Perm fields ∧
      ∀ nested, Element.ofJson nested (.object members none) =
        Fields.ofReadings tag (l.map readMember) >>= fun f => f.assemble tag := by
  refine ⟨_, h.filter, fun nested => ?_⟩
  have hfilter : (members.map readMember).filter (fun e => tag.fields.contains e.1) =
      (members.filter fun m => tag.fields.contains m.1).map readMember := by
    rw [List.filter_map]
    rfl
  rw [Element.ofJson, h.ofMembers_eq hwhole nested, readMembers_eq_map, ← hfilter,
    ← Fields.ofReadings_filter]
  rfl

/-- An element that consists of a text is read from the member with that text. -/
lemma Tag.HasMembers.ofJson_text {key s : String} (h : tag.HasMembers [(key, .string s)] members)
    (hkey : key ≠ "alternatives" ∧ key ≠ "target" ∧ key ≠ "label") :
    Element.ofJson nested (.object members none) =
      ({ text := some s } : Fields).assemble tag := by
  obtain ⟨l, hl, hread⟩ := h.ofJson_eq fun m hm => by rw [List.mem_singleton.1 hm]; rfl
  obtain rfl := List.perm_singleton.1 hl
  have hmem : tag.fields.contains key = true := by simpa using h.known _ List.mem_cons_self
  obtain ⟨hblock, htarget, hlabel⟩ := hkey
  rw [hread, List.map_cons, List.map_nil, Fields.ofReadings, List.foldlM_cons, Fields.set,
    readMember, if_pos hmem, if_neg hblock, if_neg htarget, if_neg hlabel]
  rfl

/-! ## Alternatives and blocks -/

lemma alternativeOfJson_array (items : List Json) :
    alternativeOfJson nested (.array items none) = elementsOfJson nested items := by
  rw [alternativeOfJson]
  cases elementsOfJson nested items <;> rfl

lemma blockOfJson_array (items : List Json) :
    blockOfJson nested (.array items none) = alternativesOfJson nested items := by
  rw [blockOfJson]
  cases alternativesOfJson nested items <;> rfl

end Element

open Element Json

/-- What it means that a value is read as what it describes. -/
def Source.ReadFrom (v : Json) : Source → Prop
  | element e => ∀ nested, Element.ofJson nested v = .ok e
  | alternative l => ∀ nested, alternativeOfJson nested v = .ok l
  | block b => ∀ nested, blockOfJson nested v = .ok b

/-- **Elements, alternatives and blocks are read from every value that describes them**, and such a
value has no break. -/
theorem Written.reads {src : Source} {v : Json} (h : Written src v) :
    v.fault? = none ∧ src.ReadFrom v := by
  induction h with
  | @text e s key members ht hkey hm =>
    have hwhole : ∀ m ∈ [(key, Json.string s)], m.2.fault? = none := by simp [fault?]
    refine ⟨hm.whole hwhole, fun nested => ?_⟩
    have hfields : key ≠ "alternatives" ∧ key ≠ "target" ∧ key ≠ "label" := by
      cases e <;> cases ht <;> cases hkey <;> decide
    rw [hm.ofJson_text hfields]
    cases e <;> cases ht <;> rfl
  | @bare e members hnone hm =>
    refine ⟨hm.whole nofun, fun nested => ?_⟩
    obtain ⟨l, hl, hread⟩ := hm.ofJson_eq nofun
    obtain rfl := List.perm_nil.1 hl
    rw [hread]
    cases e <;> first | rfl | cases hnone
  | @group c b v members hb hm ih =>
    obtain ⟨hv, hb⟩ := ih
    have hwhole : ∀ m ∈ [("alternatives", v)], m.2.fault? = none := by simpa using hv
    refine ⟨hm.whole hwhole, fun nested => ?_⟩
    obtain ⟨l, hl, hread⟩ := hm.ofJson_eq hwhole
    obtain rfl := List.perm_singleton.1 hl
    have hblock : blockOfJson true v = .ok b := hb true
    rw [hread, List.map_cons, readMember, hblock]
    rfl
  | @label name op target v members ht hm ih =>
    obtain ⟨hv, ht⟩ := ih
    have hwhole : ∀ m ∈ [("label", Json.string name), ("target", v)], m.2.fault? = none := by
      simpa [fault?] using hv
    refine ⟨hm.whole hwhole, fun nested => ?_⟩
    obtain ⟨l, hl, hread⟩ := hm.ofJson_eq hwhole
    have htarget : Element.ofJson true v = .ok target := ht true
    -- the label and its target may stand in either order
    rcases List.perm_pair.1 hl with rfl | rfl <;>
    · rw [hread, List.map_cons, List.map_cons, readMember, readMember, htarget]
      rfl
  | noElement => exact ⟨rfl, fun nested => by rw [alternativeOfJson_array, elementsOfJson]⟩
  | element he hl ihe ihl =>
    refine ⟨fault?_array_cons ihe.1 ihl.1, fun nested => ?_⟩
    have hrest := ihl.2 nested
    rw [alternativeOfJson_array] at hrest ⊢
    rw [elementsOfJson, ihe.2 nested, hrest]
    rfl
  | noAlternative => exact ⟨rfl, fun nested => by rw [blockOfJson_array, alternativesOfJson]⟩
  | alternative hl hb ihl ihb =>
    refine ⟨fault?_array_cons ihl.1 ihb.1, fun nested => ?_⟩
    have hrest := ihb.2 nested
    rw [blockOfJson_array] at hrest ⊢
    rw [alternativesOfJson, ihl.2 nested, hrest]
    rfl

mutual

/-- Every element can be described. -/
theorem Element.exists_written : ∀ e : Element, ∃ v, Written (.element e) v
  | .token _ | .rule _ | .literal _ | .charSet _ | .semPred _ | .synPred _ | .action _ =>
    let ⟨members, h⟩ := exists_hasMembers rfl
    ⟨.object members none, .text rfl rfl h⟩
  | .epsilon | .wildcard =>
    let ⟨members, h⟩ := @exists_hasMembers _ [] rfl
    ⟨.object members none, .bare rfl h⟩
  | .group _ b =>
    let ⟨_, hb⟩ := Block.exists_written b
    let ⟨members, h⟩ := exists_hasMembers rfl
    ⟨.object members none, .group hb h⟩
  | .label _ _ target =>
    let ⟨_, ht⟩ := Element.exists_written target
    let ⟨members, h⟩ := exists_hasMembers rfl
    ⟨.object members none, .label ht h⟩

/-- Every alternative can be described. -/
theorem Alternative.exists_written : ∀ l : List Element, ∃ items,
    Written (.alternative l) (.array items none)
  | [] => ⟨[], .noElement⟩
  | e :: l =>
    let ⟨_, he⟩ := Element.exists_written e
    let ⟨_, hl⟩ := Alternative.exists_written l
    ⟨_, .element he hl⟩

/-- Every block can be described. -/
theorem Block.exists_written : ∀ b : List (List Element), ∃ items,
    Written (.block b) (.array items none)
  | [] => ⟨[], .noAlternative⟩
  | l :: b =>
    let ⟨_, hl⟩ := Alternative.exists_written l
    let ⟨_, hb⟩ := Block.exists_written b
    ⟨_, .alternative hl hb⟩

end

/-! ## Grammars -/

namespace Grammar

variable {g : Grammar} {members : List (String × Json)}

/-- Every grammar can be described. -/
theorem exists_written (g : Grammar) : ∃ members, g.Written members := by
  have hrules : ∃ rules, List.Forall₂ (fun (r : Rule) (m : String × Json) =>
      m.1 = r.name ∧ GrammarCompletion.Written (.block r.block) m.2) g.rules rules := by
    induction g.rules with
    | nil => exact ⟨[], .nil⟩
    | cons r l ih =>
      obtain ⟨rules, hl⟩ := ih
      obtain ⟨items, hr⟩ := Block.exists_written r.block
      exact ⟨(r.name, .array items none) :: rules, .cons ⟨rfl, hr⟩ hl⟩
  obtain ⟨rules, hrules⟩ := hrules
  exact ⟨_, rules, _, [], hrules, .inl rfl, nofun, .refl _⟩

lemma asStrings_map (l : List String) : (Json.array (l.map .string) none).asStrings = .ok l := by
  have hall : (l.map Json.string).mapM asString = .ok l := by
    induction l with
    | nil => rfl
    | cons s l ih =>
      rw [List.map_cons, List.mapM_cons, ih]
      rfl
  rw [asStrings, hall]
  rfl

/-- Rules are read in their order, if their names are distinct. -/
lemma rulesOfJson_object {l : List Rule} {rules : List (String × Json)}
    (h : List.Forall₂ (fun (r : Rule) (m : String × Json) =>
      m.1 = r.name ∧ GrammarCompletion.Written (.block r.block) m.2) l rules)
    (hnames : (l.map (·.name)).Nodup) : rulesOfJson (.object rules none) = .ok l := by
  have hblocks : rules.mapM (fun m => do return (m.1, ← blockOfJson false m.2)) =
      (.ok (l.map fun r => (r.name, r.block)) : Except Json.Fault _) := by
    clear hnames
    induction h with
    | nil => rfl
    | @cons r m l rules hm _ ih =>
      obtain ⟨hname, hw⟩ := hm
      have hblock : blockOfJson false m.2 = .ok r.block := hw.reads.2 false
      rw [List.mapM_cons, hblock, ih, hname]
      rfl
  have hkeys : ((l.map fun r => (r.name, r.block)).map Prod.fst).Nodup := by
    rwa [List.map_map]
  have hrules : (OrderedMap.ofList (l.map fun r => (r.name, r.block))).entries.map
      (fun e => (⟨e.1, e.2⟩ : Rule)) = l := by
    rw [OrderedMap.entries_ofList hkeys, List.map_map]
    exact List.map_id l
  rw [rulesOfJson, hblocks]
  exact congrArg Except.ok hrules

lemma perm_triple {α : Type} {l : List α} {a b c : α} (h : l.Perm [a, b, c]) :
    l = [a, b, c] ∨ l = [b, a, c] ∨ l = [c, b, a] ∨ l = [b, c, a] ∨ l = [c, a, b] ∨
      l = [a, c, b] := by
  simpa [List.permutations] using List.mem_permutations.2 h

/-- The parts of a grammar may stand in any order. -/
lemma assemble_foldlM_set {rules : Json} {imports : List (String × Json)}
    (hread : rulesOfJson rules = .ok g.rules)
    (hgiven : imports = [("imports", .array (g.imports.map .string) none)] ∨
      g.imports = [] ∧ imports = [])
    (h : members.Perm (("name", .string g.name) :: ("rules", rules) :: imports)) :
    (members.foldlM (fun p m => p.set m.1 m.2) ({} : Parts) >>= Parts.assemble) = .ok g := by
  have hname (p : Parts) (hp : p.name = none) :
      p.set "name" (.string g.name) = pure { p with name := some g.name } := by
    rw [Parts.set, if_pos rfl, hp]
    rfl
  have hrules (p : Parts) (hp : p.rules = none) :
      p.set "rules" rules = pure { p with rules := some g.rules } := by
    rw [Parts.set, if_neg (by decide), if_neg (by decide), if_pos rfl, hp, hread]
    rfl
  have himports (p : Parts) (hp : p.imports = none) :
      p.set "imports" (.array (g.imports.map .string) none) =
        pure { p with imports := some g.imports } := by
    rw [Parts.set, if_neg (by decide), if_pos rfl, hp, asStrings_map]
    rfl
  have hfull : (⟨some g.name, some g.imports, some g.rules⟩ : Parts).assemble = .ok g := rfl
  rcases hgiven with rfl | ⟨hnone, rfl⟩
  · -- three members stand in one of six orders
    rcases perm_triple h with rfl | rfl | rfl | rfl | rfl | rfl <;>
    · simp only [List.foldlM_cons, List.foldlM_nil, hname, hrules, himports, pure_bind]
      exact hfull
  · have hfull : (⟨some g.name, none, some g.rules⟩ : Parts).assemble = .ok g := by
      rw [← hfull, hnone]
      rfl
    rcases List.perm_pair.1 h with rfl | rfl <;>
    · simp only [List.foldlM_cons, List.foldlM_nil, hname, hrules, pure_bind]
      exact hfull

/-- **A grammar is read from every text that describes it**: its rules have distinct names, and no more
than 127 arrays and objects lie inside each other.  Members may stand in any order, those that are
not known are passed over, and so are blanks; characters may be escaped. -/
theorem read_written {text : String} (hnames : (g.rules.map (·.name)).Nodup)
    (hw : g.Written members)
    (htext : Json.Spells depthLimit (.item (.object members none)) text.toList) :
    read text = .ok g := by
  obtain ⟨rules, imports, extra, hrules, hgiven, hextra, hperm⟩ := hw
  have hknown : (members.filter fun m => partNames.contains m.1).Perm
      (("name", .string g.name) :: ("rules", .object rules none) :: imports) := by
    have hdrop : extra.filter (fun m => partNames.contains m.1) = [] :=
      List.filter_eq_nil_iff.2 fun m hm => by simpa using (hextra m hm).1
    have hkeep : imports.filter (fun m => partNames.contains m.1) = imports := by
      rcases hgiven with rfl | ⟨-, rfl⟩ <;> rfl
    have hall := hperm.filter fun m => partNames.contains m.1
    rwa [List.filter_cons_of_pos rfl, List.filter_cons_of_pos rfl, List.filter_append, hkeep,
      hdrop, List.append_nil] at hall
  have hstrings : ∀ m ∈ members, partNames.contains m.1 = false → ∃ s, m.2 = .string s := by
    intro m hm hunknown
    have hpart : m ∉ members.filter fun m => partNames.contains m.1 := fun hmem =>
      Bool.false_ne_true (hunknown.symm.trans (List.mem_filter.1 hmem).2)
    have hnone : m ∉ ("name", .string g.name) :: ("rules", .object rules none) :: imports :=
      fun hmem => hpart (hknown.mem_iff.2 hmem)
    rw [hperm.mem_iff, ← List.cons_append, ← List.cons_append, List.mem_append] at hm
    exact (hextra m (hm.resolve_left hnone)).2
  have hdocument := Json.read_of_spells htext le_rfl hstrings
  have hassemble := assemble_foldlM_set (rulesOfJson_object hrules hnames) hgiven hknown
  have hdecode : ofJson (.object (members.filter fun m => partNames.contains m.1) none) = .ok g :=
    hassemble
  rw [read, hdocument, Document.decode, hdecode]
  rfl

/-- A text in which no member stands in its usual place, some are not known, and characters are
escaped. -/
theorem read_written_rearranged :
    read (" \x7b\"$id\":\"\\n\",\n\"imports\":[\"lib\"],\"rules\":\x7b\"e\":[[\x7b\"note\":\"\"," ++
        "\"target\":\x7b\"value\":\"\\u003d\",\"type\":\"STRING_LITERAL\"\x7d,\"label\":\"l\",\"type\":" ++
        "\"PLUS_ASSIGN\"\x7d],[]],\"d\":[]\x7d,\"name\":\"\\ud83d\\uDE00\"\x7d") =
      .ok { name := "😀", imports := ["lib"],
            rules := [⟨"e", [[.label "l" .append (.literal "=")], []]⟩, ⟨"d", []⟩] } := by
  have hblank : Blank [] := nofun
  have hpair : SpellsChar '😀' _ :=
    @SpellsChar.pair ['d', '8', '3', 'd'] ['D', 'E', '0', '0'] 0xd83d 0xde00 rfl rfl (by decide)
      (by decide) rfl rfl
  -- items and members are written without blanks around them, and names without escapes
  have hitem {d : Nat} {v : Json} {t : List Char} (h : Json.Spells d (.value v) t) :
      Json.Spells d (.item v) ([] ++ t ++ []) := .item hblank h hblank
  have hplain {d : Nat} (s : String) (hs : s.toList.all (fun c => ' ' ≤ c ∧ c ≠ '"' ∧ c ≠ '\\')) :
      Json.Spells d (.value (.string s)) _ := .string (spellsString_self hs)
  have hmember {d : Nat} {v : Json} {t : List Char} (name : String)
      (hname : name.toList.all (fun c => ' ' ≤ c ∧ c ≠ '"' ∧ c ≠ '\\'))
      (h : Json.Spells d (.value v) t) :
      Json.Spells d (.member name v) _ :=
    .member hblank (spellsString_self hname) hblank (hitem h)
  have hequal : SpellsString "=" _ :=
    ⟨_, .cons (@SpellsChar.unit _ ['0', '0', '3', 'd'] rfl (by decide)) .nil, rfl⟩
  have hliteral : Json.Spells 122 (.value (.object [("value", .string "="),
      ("type", .string "STRING_LITERAL")] none)) _ :=
    .object (.moreMembers (hmember "value" (by decide) (.string hequal))
      (.oneMember (hmember "type" (by decide) (hplain _ (by decide)))))
  have hlabel : Json.Spells 123 (.value (.object [("note", .string ""), ("target", _),
      ("label", .string "l"), ("type", .string "PLUS_ASSIGN")] none)) _ :=
    .object (.moreMembers (hmember "note" (by decide) (hplain _ (by decide)))
      (.moreMembers (hmember "target" (by decide) hliteral)
        (.moreMembers (hmember "label" (by decide) (hplain _ (by decide)))
          (.oneMember (hmember "type" (by decide) (hplain _ (by decide)))))))
  have hrules : Json.Spells 126 (.value (.object [("e", .array [.array [_] none, .array [] none] none),
      ("d", .array [] none)] none)) _ :=
    .object (.moreMembers (hmember "e" (by decide) (.array (.moreItems
        (hitem (.array (.oneItem (hitem hlabel)))) (.oneItem (hitem (.array (.noItem hblank)))))))
      (.oneMember (hmember "d" (by decide) (.array (.noItem hblank)))))
  have hbreak : SpellsString "\n" _ := ⟨_, .cons (.short (e := 'n') rfl) .nil, rfl⟩
  have hname : SpellsString "😀" _ := ⟨_, .cons hpair .nil, rfl⟩
  have htext : Json.Spells 127 (.item (.object [("$id", .string "\n"),
      ("imports", .array [.string "lib"] none), ("rules", .object [("e", _), ("d", _)] none),
      ("name", .string "😀")] none)) _ :=
    .item (b := [' ']) (by decide) (.object (.moreMembers (hmember "$id" (by decide) (.string hbreak))
      (.moreMembers (.member (b := ['\n']) (by decide) (spellsString_self (by decide)) hblank
          (hitem (.array (.oneItem (hitem (hplain _ (by decide)))))))
        (.moreMembers (hmember "rules" (by decide) hrules)
          (.oneMember (hmember "name" (by decide) (.string hname))))))) hblank
  refine read_written (by decide) ?written ((congrArg (Json.Spells 127 _) ?spelled).mp htext)
  case spelled => decide +kernel
  case written =>
    -- each object has its members in the reverse of the usual order
    have hvalue : GrammarCompletion.Written (.element (.literal "="))
        (.object [("value", .string "="), ("type", .string "STRING_LITERAL")] none) :=
      .text rfl rfl ⟨by decide, "STRING_LITERAL", [], by decide, nofun, List.reverse_perm [_, _]⟩
    have hlabelled : GrammarCompletion.Written (.element (.label "l" .append (.literal "=")))
        (.object [("note", .string ""), ("target", _), ("label", .string "l"),
          ("type", .string "PLUS_ASSIGN")] none) :=
      .label hvalue ⟨by decide, "PLUS_ASSIGN", [("note", .string "")], by decide, by simp [Tag.fields],
        List.reverse_perm [_, _, _, _]⟩
    exact ⟨[("e", _), ("d", _)], _, [("$id", .string "\n")],
      .cons ⟨rfl, .alternative (.element hlabelled .noElement) (.alternative .noElement .noAlternative)⟩
        (.cons ⟨rfl, .noAlternative⟩ .nil),
      .inl rfl, by simp [partNames], List.reverse_perm [_, _, _, _]⟩

end Grammar

end GrammarCompletion
