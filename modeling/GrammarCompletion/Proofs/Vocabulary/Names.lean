/-
# Names and what they are shown for

A name resolves to the id of its last registration, but it stays the name that is shown for an id
even if it is registered again, for another one.  So a name that is shown for an id can be trusted as
long as it was not registered for two ids (`consistent`), and where it was, it may lead to the other
one (`misleading`).
-/
import GrammarCompletion.Proofs.Compile.Intact
import GrammarCompletion.Proofs.Vocabulary.History

namespace GrammarCompletion

/-- The names under which a compiled model shows tokens are those of the vocabulary. -/
lemma Grammar.tokenNames_of_compile {g : Grammar} {v : Vocabulary} {p : Policy}
    {loader : Option Loader} {m : Model} (h : g.compile v p loader = .ok m) :
    m.tokenNames = v.displayNames := by
  rcases hrun : Traversal.run loader g with ⟨grammars, fault⟩
  cases fault with
  | some fault => exact absurd h (compile_ne_ok_of_run hrun)
  | none =>
    rw [compile_of_run hrun] at h
    obtain ⟨defs, -, h⟩ := Except.bind_eq_ok.1 h
    obtain ⟨-, rules, special, ignored, tokens, -, -, -, -, rfl⟩ := link_eq_ok_iff.1 h
    rfl

namespace Vocabulary

/-- A name was not registered for two ids. -/
def Undisputed (l : List (String × TokenId)) (name : String) : Prop :=
  ∀ id id', (name, id) ∈ l → (name, id') ∈ l → id = id'

/-- Names and ids agree in both directions, as far as some names are concerned. -/
structure Consistent (v : Vocabulary) (names : String → Prop) : Prop where
  /-- The name that is shown for an id resolves to it. -/
  resolves : ∀ id name, names name → v.displayName? id = some name → v.get? name = some id
  /-- No name is shown for two ids. -/
  distinct : ∀ id id' name, names name →
    v.displayName? id = some name → v.displayName? id' = some name → id = id'
  /-- The end of the input goes by its name. -/
  eof : names "EOF" → v.get? "EOF" = some .eof
  /-- What a model that was compiled with the vocabulary offers for an id resolves to the id. -/
  offered : ∀ (g : Grammar) (p : Policy) (loader : Option Loader) (m : Model),
    g.compile v p loader = .ok m → ∀ id name, v.get? name = some id →
      names (m.tokenName id) → v.get? (m.tokenName id) = some id

variable {v : Vocabulary} {l : List (String × TokenId)} {name : String} {id i : TokenId}

/-- Names that were registered once are not disputed. -/
lemma undisputed_of_nodup (h : (l.map Prod.fst).Nodup) (name : String) : Undisputed l name := by
  intro id id' hid hid'
  exact (Prod.mk.inj (List.inj_on_of_nodup_map h hid hid' rfl)).2

lemma LastIn.mem (h : LastIn l name id) : (name, id) ∈ l := by
  obtain ⟨l₁, l₂, rfl, -⟩ := h
  simp

lemma BestIn.mem (h : BestIn l id name) : (name, id) ∈ l := by
  obtain ⟨l₁, l₂, rfl, -, -⟩ := h
  simp

/-- A name that was registered was registered for a last time. -/
lemma exists_lastIn (h : (name, id) ∈ l) : ∃ i, LastIn l name i := by
  induction l using List.reverseRecOn with
  | nil => exact absurd h List.not_mem_nil
  | append_singleton l e ih =>
    obtain ⟨other, i⟩ := e
    by_cases hname : name = other
    · exact ⟨i, lastIn_concat.2 (by rw [if_pos hname])⟩
    · have hmem : (name, id) ∈ l := by simpa [hname] using h
      obtain ⟨j, hj⟩ := ih hmem
      exact ⟨j, lastIn_concat.2 (by rwa [if_neg hname])⟩

namespace Registers

/-- A name that was registered for one id only resolves to it. -/
lemma get?_of_undisputed (h : Registers v l) (hname : Undisputed l name) (hmem : (name, id) ∈ l) :
    v.get? name = some id := by
  obtain ⟨i, hlast⟩ := exists_lastIn hmem
  obtain rfl := hname id i hmem hlast.mem
  exact h.get?_eq_some_iff.2 hlast

/-- The end of the input was registered first. -/
lemma eof_mem (h : Registers v l) : ("EOF", .eof) ∈ l := by
  induction h with
  | initial => exact List.mem_singleton_self _
  | read => exact List.mem_cons_self
  | insert _ _ _ ih => exact List.mem_append_left _ ih

end Registers

/-- **Names and ids agree**, as far as names are concerned that were not registered for two ids. -/
theorem consistent (h : Registers v l) : v.Consistent (Undisputed l) := by
  have hresolves : ∀ id name, Undisputed l name → v.displayName? id = some name →
      v.get? name = some id := fun id name hname hid =>
    h.get?_of_undisputed hname (h.displayName?_eq_some_iff.1 hid).mem
  refine ⟨hresolves, fun id id' name hname hid hid' => ?_,
    fun heof => h.get?_of_undisputed heof h.eof_mem, fun g p loader m hm id name hid hname => ?_⟩
  · exact Option.some.inj ((hresolves id name hname hid).symm.trans (hresolves id' name hname hid'))
  · obtain ⟨n, hn⟩ := h.exists_displayName? (h.get?_eq_some_iff.1 hid).mem
    have htokenName : m.tokenName id = n := by
      have hn' : v.displayNames.get? id = some n := hn
      rw [Model.tokenName, Grammar.tokenNames_of_compile hm, hn']
    rw [htokenName] at hname ⊢
    exact hresolves id n hname hn

/-- A token with three names, of which the symbolic one came last. -/
theorem consistent_parenthesis :
    let l := [("EOF", .eof), ("T__0", ⟨1⟩), ("'('", ⟨1⟩)]
    ∃ v, read "T__0=1\n\n'('=1" = .ok v ∧
      Registers (v.insert "LPAREN" ⟨1⟩) (l ++ [("LPAREN", ⟨1⟩)]) ∧
      (∀ name, Undisputed (l ++ [("LPAREN", ⟨1⟩)]) name) ∧
      (v.insert "LPAREN" ⟨1⟩).displayName? ⟨1⟩ = some "LPAREN" ∧
      (v.insert "LPAREN" ⟨1⟩).Consistent fun _ => True := by
  have hlines : readLines 1 (Text.lines "T__0=1\n\n'('=1".toList) =
      .ok [("T__0", ⟨1⟩), ("'('", ⟨1⟩)] := by decide
  have hread : read "T__0=1\n\n'('=1" = .ok (initial.insertAll [("T__0", ⟨1⟩), ("'('", ⟨1⟩)]) := by
    rw [read, hlines]
    rfl
  have hregisters := (Registers.read hread hlines).insert "LPAREN" ⟨1⟩
  have hundisputed := undisputed_of_nodup (l := [("EOF", .eof), ("T__0", ⟨1⟩), ("'('", ⟨1⟩)] ++
    [("LPAREN", ⟨1⟩)]) (by decide)
  have hconsistent := consistent hregisters
  refine ⟨_, hread, hregisters, hundisputed, by decide, ?_⟩
  rwa [funext fun name => eq_true (hundisputed name)] at hconsistent

/-- A name that is registered for another id is still shown for the one it had before, and a listing
may take the name of the end of the input for another token. -/
theorem misleading :
    (∃ v, v = (initial.insert "A" ⟨1⟩).insert "A" ⟨2⟩ ∧ v.displayName? ⟨1⟩ = some "A" ∧
      v.displayName? ⟨2⟩ = some "A" ∧ v.get? "A" = some ⟨2⟩) ∧
      ∃ v, read "EOF=5" = .ok v ∧ v.get? "EOF" = some ⟨5⟩ := by
  refine ⟨⟨_, rfl, by decide⟩, initial.insertAll [("EOF", ⟨5⟩)], ?_, by decide⟩
  have hlines : readLines 1 (Text.lines "EOF=5".toList) = .ok [("EOF", ⟨5⟩)] := by decide
  rw [read, hlines]
  rfl

end Vocabulary

end GrammarCompletion
