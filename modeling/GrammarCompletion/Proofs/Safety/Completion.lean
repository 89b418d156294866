/-
# Completions are never broken off

A completion that is asked of a compiled model never ends with a defect, whatever the tokens, the
caret, the limits and the root are, and neither does the log of its walk; everything that the walk
does concerns rules of the model and positions of the stream; and the part of a token that is typed
is cut off between two characters (`Session.Unbroken`).

The first half of this is about compilation, which makes models without defects
(`Grammar.intact_of_compile`), and the second about walks over such models (`safe_matchRule`).
-/
import GrammarCompletion.Proofs.Compile.Intact
import GrammarCompletion.Proofs.Limits.Completion
import GrammarCompletion.Proofs.Offers.Candidates
import GrammarCompletion.Proofs.Safety.Stream
import GrammarCompletion.Proofs.Safety.Walk
import GrammarCompletion.Proofs.Trace.Brackets

namespace GrammarCompletion

open Walk

/-! ## Rendering -/

/-- A rule of the model has a name. -/
lemma Model.exists_ruleName {m : Model} {id : RuleId} (h : id.index < m.ruleCount) :
    ∃ name, m.ruleName id = .ok name := by
  have hlen : id.index < m.rules.keys.length := by rwa [OrderedMap.keys, List.length_map]
  exact ⟨_, ruleName_eq_ok_iff.2 (List.getElem?_eq_getElem hlen)⟩

lemma Verbosity.exists_ifVerbose {v : Verbosity} {line : Except Defect String}
    (h : ∃ text, line = .ok text) : ∃ text, v.ifVerbose line = .ok text := by
  obtain ⟨text, rfl⟩ := h
  cases v <;> exact ⟨_, rfl⟩

/-- An event that names rules of the model only has a line. -/
lemma Event.Valid.exists_line {s : Session} {e : Event} (h : e.Valid s) (v : Verbosity) :
    ∃ text, e.line s.model v = .ok text := by
  -- a line can be shown if the name in it can
  have hname : ∀ (id : RuleId) {α : Type} (f : String → α), id.index < s.model.ruleCount →
      ∃ text, (do return f (← s.model.ruleName id) : Except Defect α) = .ok text := by
    intro id α f hid
    obtain ⟨name, hname⟩ := Model.exists_ruleName hid
    exact ⟨f name, by rw [hname]; rfl⟩
  cases e with
  | enter rule p => exact hname rule _ h.1
  | exit rule matched p phase => exact hname rule _ h.1
  | alternative i matched p => exact Verbosity.exists_ifVerbose ⟨_, rfl⟩
  | memoHit rule p => exact Verbosity.exists_ifVerbose (hname rule _ h.1)
  | leftRecursion rule p => exact hname rule _ h.1
  | caret p => exact ⟨_, rfl⟩
  | collect rule => exact Verbosity.exists_ifVerbose (hname rule _ h)
  | offerToken lead continuation => exact ⟨_, rfl⟩
  | offerRule rule => exact hname rule _ h

/-! ## Completions -/

namespace Session

/-- A request for a completion is answered without a defect. -/
structure Unbroken (s : Session) (root : String) : Prop where
  /-- The answer is not a defect. -/
  answer : ∀ d, s.complete root ≠ .error (.defect d)
  /-- A log makes no difference, however much it shows. -/
  logged : ∀ v, (s.completeLogged v root).1 = s.complete root
  /-- The events name rules of the model and positions of the stream, also those before an error. -/
  events : ∀ e ∈ (s.completeTraced root).2, e.Valid s
  /-- The walk ends in the stream. -/
  position : ∀ c, s.complete root = .ok c → c.position ≤ s.stream.size
  /-- There is a token wherever a cursor on the stream can stand. -/
  cursor : ∀ p, s.stream.CursorAt p → s.stream.toList[p]? = some (s.stream.token p)
  /-- What is typed of the token at the caret is cut off it there. -/
  typed : ∀ t, s.stream.tokenAt? s.caret = some t → ∃ typed,
    s.stream.typedPart? s.caret = some typed ∧ t.CutAt s.caret typed

variable {s : Session} {root : RuleId} {name : String} {o : Outcome} {r : Run}

lemma valid_of_walk (hwf : s.model.WellFormed) (hroot : root.index < s.model.ruleCount)
    (hw : s.walk root = .ok o r) : r.Valid s ∧ o.stop ≤ s.stream.size := by
  obtain ⟨hr, -, ho⟩ := (safe_walk hwf hroot).ok valid_start hw
  exact ⟨hr, ho⟩

lemma complete_ne_defect (hwf : s.model.WellFormed) (d : Defect) :
    s.complete name ≠ .error (.defect d) := by
  cases hroot : s.model.ruleId? name with
  | none => simp [complete_of_unknown hroot]
  | some root =>
    have hvalid := index_lt_of_ruleId? hroot
    rw [complete_of_root hroot]
    cases hw : s.walk root with
    | ok o r =>
      have hrules := (valid_of_walk hwf hvalid hw).1.rules
      obtain ⟨texts, htexts⟩ := Candidates.exists_render_iff.2
        fun id hid => Model.exists_ruleName (hrules id hid)
      have hc : s.completion o r.candidates = .ok _ := completion_eq_ok_iff.2 ⟨texts, htexts, rfl⟩
      simp [answer, hc]
    | error e r =>
      have hfault := ((safe_walk hwf hvalid).error valid_start hw).1 d
      simpa [answer] using hfault

lemma valid_of_mem_events (hwf : s.model.WellFormed) {e : Event}
    (he : e ∈ (s.completeTraced name).2) : e.Valid s := by
  rw [completeTraced] at he
  cases hroot : s.model.ruleId? name with
  | none => simp [hroot] at he
  | some root =>
    have hvalid := index_lt_of_ruleId? hroot
    cases hw : s.walk root with
    | ok o r =>
      simp only [hroot, hw, List.mem_reverse] at he
      exact (valid_of_walk hwf hvalid hw).1.events e he
    | error e' r =>
      simp only [hroot, hw, List.mem_reverse] at he
      exact ((safe_walk hwf hvalid).error valid_start hw).2 e he

/-- **Over a model in which nodes refer to rules, nothing breaks.** -/
theorem unbroken (hwf : s.model.WellFormed) (name : String) : s.Unbroken name where
  answer d := complete_ne_defect hwf d
  logged v := by
    have hlines : ∀ e ∈ (s.completeTraced name).2, ∃ text, e.line s.model v = .ok text :=
      fun e he => (valid_of_mem_events hwf he).exists_line v
    simp [completeLogged, Log.ofEvents_eq_extend hlines, complete]
  events e he := valid_of_mem_events hwf he
  position c hc := by
    obtain ⟨root, o, r, hroot, hw, hc⟩ := complete_eq_ok hc
    obtain ⟨texts, -, rfl⟩ := completion_eq_ok_iff.1 hc
    exact (valid_of_walk hwf (index_lt_of_ruleId? hroot) hw).2
  cursor _ hp := hp.token
  typed t ht := TokenStream.cutAt_of_tokenAt? ht

end Session

/-- The id of a name fits into the range of ids, if the number of rules does. -/
lemma ofIndex_of_ruleId? {m : Model} (hm : m.ruleCount ≤ RuleId.bound) {name : String} {id : RuleId}
    (h : m.ruleId? name = some id) : RuleId.ofIndex id.index = .ok id := by
  have hlt : id.index < RuleId.bound := Nat.lt_of_lt_of_le (Session.index_lt_of_ruleId? h) hm
  rw [RuleId.ofIndex, if_pos hlt]

namespace Grammar

/-- **Compiled models keep their promises.**  A model that comes out of a compilation has no defects,
and names of rules have ids unless there are too many rules; and a completion that is asked of it is
never broken off, whatever the stream, the caret, the limits and the root are. -/
theorem unbroken_of_compile {g : Grammar} {v : Vocabulary} {p : Policy} {loader : Option Loader}
    {m : Model} (h : g.compile v p loader = .ok m) : m.Intact ∧
      (m.ruleCount ≤ RuleId.bound →
        ∀ name id, m.ruleId? name = some id → RuleId.ofIndex id.index = .ok id) ∧
      ∀ stream caret limits root, Session.Unbroken ⟨m, stream, caret, limits⟩ root := by
  have hm : m.Intact := intact_of_compile h
  exact ⟨hm, fun hcount _ _ hid => ofIndex_of_ruleId? hcount hid,
    fun _ _ _ root => Session.unbroken hm.wellFormed root⟩

/-- The model of sums keeps its promises. -/
theorem unbroken_of_compile_sums :
    sums.compile sumTokens {} none = .ok sumModel ∧ sumModel.Intact ∧
      (sumModel.ruleCount ≤ RuleId.bound →
        ∀ name id, sumModel.ruleId? name = some id → RuleId.ofIndex id.index = .ok id) ∧
      ∀ stream caret limits root, Session.Unbroken ⟨sumModel, stream, caret, limits⟩ root :=
  ⟨compile_sums, unbroken_of_compile compile_sums⟩

end Grammar

end GrammarCompletion
