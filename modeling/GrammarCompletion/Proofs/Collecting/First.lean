/-
# What a rule can start with

Collecting from a rule follows its references from the left (`Model.LeftRefers`), as long as no rule is
met again inside itself.  Nothing is lost by that as far as the rules go: who reaches a rule by a way on
which another one is met twice also reaches it from where that one is met last
(`Model.leftRefers_outside`).

But collecting also has to get behind the nodes in front of a reference, and a rule that is met again
counts as one that is not empty.  So a token is overlooked if it stands behind a required rule that is
empty by way of the rule it stands in.  In a model that is upright (`Model.Upright`) there is no such
place, and all tokens are offered with which something that the rule derives starts
(`Session.collect_heads`).
-/
import GrammarCompletion.Proofs.Collecting.Nullable
import GrammarCompletion.Proofs.Predictive.Collecting

namespace GrammarCompletion

open Relation

variable {m : Model} {n : Node RuleId} {nodes rest pre : List (Node RuleId)} {r r' x id : RuleId}
  {t : TokenId} {inside : List RuleId}

namespace Model

/-! ## What comes first -/

/-- A symbol comes first in what a rule is replaced by, or behind symbols that may be empty. -/
def Opens (m : Model) (r : RuleId) (a : Symbol RuleId) : Prop :=
  ∃ pre post, m.Produces r (pre ++ a :: post) ∧ m.Derives pre []

/-- A token comes first in a rule without the help of other rules: it is in the set of the rule, or the
rule has a terminal for it, which is no wildcard, behind nodes that may be empty. -/
def Puts (m : Model) (r : RuleId) (t : TokenId) : Prop :=
  (∃ tokens : OrderedSet TokenId, m.body r = .ok (.tokenSet tokens) ∧ t ∈ tokens) ∨
    ∃ list, m.body r = .ok (.sequences list) ∧ ∃ q ∈ list, ∃ pre n post,
      q.nodes = pre ++ n :: post ∧ n.symbol = .token t ∧ n.any = false ∧ m.DerivesNodes pre []

/-- A token comes first in something that a rule derives, and it stands there for a terminal that is no
wildcard or for a member of a set. -/
def Heads (m : Model) (r : RuleId) (t : TokenId) : Prop :=
  ∃ r' b, m.Derives [.rule r] (.rule r' :: b) ∧ m.Puts r' t

/-- An occurrence behind occurrences that may be empty is one of a node behind such nodes. -/
lemma exists_first_of_expands {u v : Form} {a : Symbol RuleId} (h : Expands nodes (u ++ a :: v))
    (hu : m.Derives u []) :
    ∃ pre n post, nodes = pre ++ n :: post ∧ n.IsOccurrence a ∧ m.DerivesNodes pre [] := by
  generalize hform : u ++ a :: v = form at h
  induction h generalizing u with
  | nil => simp at hform
  | @cons n rest copies x hn hc hr ih =>
    have hcopies : Expands [n] (copies ++ []) := .cons hn hc .nil
    rw [List.append_nil] at hcopies
    -- what is found in the rest of the nodes is found behind the first one
    have hbehind : ∀ {u'}, m.Derives copies [] → m.Derives u' [] → u' ++ a :: v = x →
        ∃ pre k post, n :: rest = pre ++ k :: post ∧ k.IsOccurrence a ∧ m.DerivesNodes pre [] := by
      intro u' hcopy hu' hx
      obtain ⟨pre, k, post, rfl, hk, hpre⟩ := ih hu' hx
      have hnil : m.DerivesNodes [n] [] := ⟨copies, hcopies, hcopy⟩
      exact ⟨n :: pre, k, post, rfl, hk, hnil.append hpre⟩
    rcases List.append_eq_append_iff.1 hform with ⟨c, rfl, hav⟩ | ⟨c, rfl, hx⟩
    · cases c with
      | nil => exact hbehind (by simpa using hu) (.refl []) (by simpa using hav)
      | cons b c =>
        obtain ⟨rfl, -⟩ := List.cons.inj hav
        exact ⟨[], n, rest, rfl, hn a (by simp), .nil⟩
    · obtain ⟨z₁, z₂, hz, h₁, h₂⟩ := hu.split
      obtain ⟨rfl, rfl⟩ := List.append_eq_nil_iff.1 hz.symm
      exact hbehind h₁ h₂ hx.symm

/-- What comes first in what a rule derives comes first in what one symbol of it is replaced by. -/
lemma Derives.exists_first {u b : Form} {a : Symbol RuleId} (h : m.Derives u (a :: b)) :
    ∃ pre c post, u = pre ++ c :: post ∧ m.Derives pre [] ∧
      ReflTransGen (fun c d => ∃ r, c = .rule r ∧ m.Opens r d) c a := by
  induction h using ReflTransGen.head_induction_on with
  | refl => exact ⟨[], a, b, rfl, .refl [], .refl⟩
  | head hstep _ ih =>
    obtain ⟨p, r, w, q, hw, rfl, rfl⟩ := hstep
    obtain ⟨pre, c, post, heq, hpre, hc⟩ := ih
    have hrule : m.Derives [.rule r] w := .of_produces hw
    rw [List.append_assoc] at heq
    -- the symbol stands in front of the rule, in its place, or behind it
    rcases List.append_eq_append_iff.1 heq with ⟨pre', rfl, hrest⟩ | ⟨p', rfl, hrest⟩
    · obtain ⟨z₁, z₂, hz, hp, hpre'⟩ := hpre.split
      obtain ⟨rfl, rfl⟩ := List.append_eq_nil_iff.1 hz.symm
      rcases List.append_eq_append_iff.1 hrest with ⟨q', rfl, rfl⟩ | ⟨w', rfl, hpost⟩
      · obtain ⟨z₁, z₂, hz, hw', hq'⟩ := hpre'.split
        obtain ⟨rfl, rfl⟩ := List.append_eq_nil_iff.1 hz.symm
        refine ⟨p ++ .rule r :: q', c, post, by simp, ?_, hc⟩
        exact Derives.append (y := []) hp (Derives.append (y := []) (hrule.trans hw') hq')
      · cases w' with
        | nil =>
          refine ⟨p ++ [.rule r], c, post, by simpa using hpost.symm, ?_, hc⟩
          exact Derives.append (y := []) hp (hrule.trans (by simpa using hpre'))
        | cons d w' =>
          obtain ⟨rfl, -⟩ := List.cons.inj hpost
          exact ⟨p, .rule r, q, rfl, hp, .head ⟨r, rfl, pre', w', hw, hpre'⟩ hc⟩
    · cases p' with
      | nil =>
        -- the symbol comes first in the place of the rule, or the place is empty
        cases w with
        | nil =>
          refine ⟨pre ++ [.rule r], c, post, by simpa using hrest.symm, ?_, hc⟩
          exact Derives.append (y := []) hpre hrule
        | cons d w =>
          obtain ⟨rfl, -⟩ := List.cons.inj hrest
          exact ⟨pre, .rule r, q, by simp, hpre, .head ⟨r, rfl, [], w, hw, .refl []⟩ hc⟩
      | cons d p' =>
        obtain ⟨rfl, -⟩ := List.cons.inj hrest
        exact ⟨pre, c, p' ++ .rule r :: q, by simp, hpre, hc⟩

/-- A rule comes first in a rule where it is referred to from the left. -/
lemma opens_rule_iff : m.Opens r (.rule r') ↔ m.LeftRefers r r' := by
  constructor
  · rintro ⟨u, v, hx, hu⟩
    rcases hx with ⟨tokens, -, t, -, heq⟩ | ⟨list, hb, q, hq, hx⟩
    · have hmem : Symbol.rule r' ∈ u ++ Symbol.rule r' :: v := by simp
      simp [heq] at hmem
    · obtain ⟨pre, n, post, hnodes, hn, hpre⟩ := exists_first_of_expands hx hu
      refine ⟨list, hb, q, hq, pre, n, post, hnodes, ?_, hpre⟩
      cases hs : n.symbol with
      | token t => simp [Node.IsOccurrence, hs] at hn
      | rule id =>
        simp only [Node.IsOccurrence, hs, Symbol.rule.injEq] at hn
        rw [hn]
  · rintro ⟨list, hb, q, hq, pre, n, post, hnodes, hn, u, hu, hd⟩
    obtain ⟨v, hv⟩ := exists_expands post
    refine ⟨u, v, .sequence hb hq ?_, hd⟩
    rw [hnodes]
    exact hu.append (hv.single (Node.isOccurrence_rule hn))

lemma Puts.opens (h : m.Puts r t) : m.Opens r (.token t) := by
  rcases h with ⟨tokens, hb, ht⟩ | ⟨list, hb, q, hq, pre, n, post, hnodes, hn, -, u, hu, hd⟩
  · exact ⟨[], [], .tokenSet hb ht, .refl []⟩
  · obtain ⟨v, hv⟩ := exists_expands post
    refine ⟨u, v, .sequence hb hq ?_, hd⟩
    rw [hnodes]
    exact hu.append (hv.single (Node.isOccurrence_token hn fun _ => rfl))

lemma Opens.puts (hany : ∀ q ∈ m.sequences, ∀ n ∈ q.nodes, n.any = false)
    (h : m.Opens r (.token t)) : m.Puts r t := by
  obtain ⟨u, v, hx, hu⟩ := h
  rcases hx with ⟨tokens, hb, t', ht', heq⟩ | ⟨list, hb, q, hq, hx⟩
  · have hmem : Symbol.token t ∈ u ++ Symbol.token t :: v := by simp
    obtain rfl : t = t' := by simpa [heq] using hmem
    exact Or.inl ⟨tokens, hb, ht'⟩
  · obtain ⟨pre, n, post, hnodes, hn, hpre⟩ := exists_first_of_expands hx hu
    have hfalse := hany q (mem_sequences hb hq) n (by simp [hnodes])
    refine Or.inr ⟨list, hb, q, hq, pre, n, post, hnodes, ?_, hfalse, hpre⟩
    cases hs : n.symbol with
    | token id =>
      simp only [Node.IsOccurrence, hs] at hn
      obtain ⟨t', heq, ht'⟩ := hn
      rw [← ht' hfalse, Symbol.token.inj heq]
    | rule id => simp [Node.IsOccurrence, hs] at hn

lemma Opens.derives {a : Symbol RuleId} (h : m.Opens r a) : ∃ b, m.Derives [.rule r] (a :: b) := by
  obtain ⟨u, v, hx, hu⟩ := h
  exact ⟨v, (Derives.of_produces hx).trans (hu.append_right (a :: v))⟩

/-- What comes first in what a rule derives is the rule itself, or it comes first in a rule that is
reached from the left. -/
lemma Derives.first_of_rule {a : Symbol RuleId} {b : Form} (h : m.Derives [.rule r] (a :: b)) :
    a = .rule r ∨ ∃ r', ReflTransGen m.LeftRefers r r' ∧ m.Opens r' a := by
  obtain ⟨pre, c, post, heq, -, hc⟩ := h.exists_first
  obtain ⟨rfl, rfl⟩ : pre = [] ∧ c = .rule r := by
    cases pre with
    | nil => exact ⟨rfl, (List.cons.inj heq).1.symm⟩
    | cons d pre => simp at heq
  clear heq h
  induction hc with
  | refl => exact Or.inl rfl
  | tail _ hstep ih =>
    obtain ⟨r₁, rfl, hopens⟩ := hstep
    refine Or.inr ⟨r₁, ?_, hopens⟩
    rcases ih with heq | ⟨r', hr', hrule⟩
    · rw [Symbol.rule.inj heq]
    · exact hr'.tail (opens_rule_iff.1 hrule)

/-- A rule derives a string that starts with a rule exactly if it reaches that rule from the left. -/
lemma exists_derives_rule_iff :
    (∃ b, m.Derives [.rule r] (.rule r' :: b)) ↔ ReflTransGen m.LeftRefers r r' := by
  constructor
  · rintro ⟨b, hb⟩
    rcases hb.first_of_rule with heq | ⟨r₁, hr₁, hopens⟩
    · rw [Symbol.rule.inj heq]
    · exact hr₁.tail (opens_rule_iff.1 hopens)
  · intro h
    induction h with
    | refl => exact ⟨[], .refl _⟩
    | tail _ hstep ih =>
      obtain ⟨b, hb⟩ := ih
      obtain ⟨b', hb'⟩ := (opens_rule_iff.2 hstep).derives
      exact ⟨b' ++ b, hb.trans (hb'.append_right b)⟩

lemma heads_iff : m.Heads r t ↔ ∃ r', ReflTransGen m.LeftRefers r r' ∧ m.Puts r' t :=
  exists_congr fun _ => ⟨fun ⟨b, hb, ht⟩ => ⟨exists_derives_rule_iff.1 ⟨b, hb⟩, ht⟩,
    fun ⟨hr, ht⟩ => (exists_derives_rule_iff.2 hr).imp fun _ hb => ⟨hb, ht⟩⟩

/-- **Where there are no wildcards**, the tokens that come first in what a rule derives are those that
start something it derives. -/
theorem heads_iff_starts (hany : ∀ q ∈ m.sequences, ∀ n ∈ q.nodes, n.any = false) :
    m.Heads r t ↔ m.Starts [.rule r] t := by
  constructor
  · rintro ⟨r', b, hb, ht⟩
    obtain ⟨b', hb'⟩ := ht.opens.derives
    exact ⟨b' ++ b, hb.trans (hb'.append_right b)⟩
  · rintro ⟨b, hb⟩
    rcases hb.first_of_rule with heq | ⟨r', hr', hopens⟩
    · cases heq
    · exact heads_iff.2 ⟨r', hr', hopens.puts hany⟩

/-! ## Ways on which no rule is met twice -/

/-- A rule refers from the left to a rule that is not being collected from. -/
def RefersOutside (m : Model) (inside : List RuleId) (r r' : RuleId) : Prop :=
  m.LeftRefers r r' ∧ r' ∉ inside

/-- A way from a rule need not come back to it. -/
lemma leftRefers_outside (h : ReflTransGen (m.RefersOutside inside) r x) :
    x = r ∨ ∃ r', m.LeftRefers r r' ∧ r' ∉ r :: inside ∧
      ReflTransGen (m.RefersOutside (r :: inside)) r' x := by
  induction h with
  | refl => exact Or.inl rfl
  | @tail y z _ hstep ih =>
    obtain ⟨hrefers, hfresh⟩ := hstep
    by_cases hz : z = r
    · exact Or.inl hz
    · have hfresh' : z ∉ r :: inside := by simp [hz, hfresh]
      rcases ih with rfl | ⟨r', hr', hout, hway⟩
      · exact Or.inr ⟨z, hrefers, hfresh', .refl⟩
      · exact Or.inr ⟨r', hr', hout, hway.tail ⟨hrefers, hfresh'⟩⟩

/-- A rule requires a rule that may be empty, behind nodes that may be empty. -/
def LeansOn (m : Model) (r id : RuleId) : Prop :=
  ∃ list, m.body r = .ok (.sequences list) ∧ ∃ q ∈ list, ∃ pre n post, q.nodes = pre ++ n :: post ∧
    n.symbol = .rule id ∧ n.isRequired = true ∧ m.DerivesNodes pre [] ∧ m.Nullable id

/-- No rule that can be reached from the left is left-recursive by way of a rule that it requires and
that may be empty. -/
def Upright (m : Model) (r : RuleId) : Prop :=
  ∀ y, ReflTransGen m.LeftRefers r y → ∀ id, m.LeansOn y id → ¬ ReflTransGen m.LeftRefers id y

end Model

/-! ## Offers -/

open Model

variable {s : Session} {V : Visit} {C : Gather} {list : List (Sequence RuleId)} {q : Sequence RuleId}
  {ph : Phase} {L : Set Event} {root : RuleId}

namespace Plan.Yields

/-- Collecting gets behind nodes that may be left out or whose rules are found to be empty. -/
lemma behind_nodes (h : (collectNodes s (pre ++ nodes)).Yields V C ph L)
    (hskip : ∀ n ∈ pre, n.symbol ≠ .token .eof ∧
      (n.isRequired = true → ∃ id, n.symbol = .rule id ∧ ∀ k L, C id k L → k = .pending)) :
    ∃ ph' L', (collectNodes s nodes).Yields V C ph' L' ∧ L' ⊆ L := by
  induction pre generalizing ph L with
  | nil => exact ⟨ph, L, h, subset_rfl⟩
  | cons n rest ih =>
    obtain ⟨heof, hn⟩ := hskip n List.mem_cons_self
    have hrest : ∀ {k L}, (collectNodes s (rest ++ nodes)).Yields V C k L →
        ∃ ph' L', (collectNodes s nodes).Yields V C ph' L' ∧ L' ⊆ L :=
      fun hy => ih hy fun k hk => hskip k (List.mem_cons_of_mem n hk)
    rw [List.cons_append] at h
    cases hs : n.symbol with
    | token u =>
      have hu : u ≠ .eof := fun hu => heof (hu ▸ hs)
      have hr : ¬ n.isRequired = true := fun hr => by simpa [hs] using hn hr
      obtain ⟨L', hgo, rfl⟩ := (yields_collectNodes_token hs hu).1 h
      rw [if_neg hr] at hgo
      obtain ⟨ph', L'', hy, hsub⟩ := hrest hgo
      exact ⟨ph', L'', hy, hsub.trans Set.subset_union_right⟩
    | rule id =>
      obtain ⟨k, L₁, L₂, hc, hgo, rfl⟩ := (yields_collectNodes_rule hs).1 h
      have hgoes : ¬ (n.isRequired = true ∧ k = .matching) := by
        rintro ⟨hr, rfl⟩
        obtain ⟨id', hid, hpending⟩ := hn hr
        obtain rfl := Symbol.rule.inj (hs.symm.trans hid)
        cases hpending _ L₁ hc
      rw [if_neg hgoes] at hgo
      obtain ⟨ph', L', hy, hsub⟩ := hrest hgo
      exact ⟨ph', L', hy, hsub.trans Set.subset_union_right⟩

/-- Each alternative is collected from. -/
lemma of_mem_sequences (h : (collectSequences s list).Yields V C ph L) (hq : q ∈ list) :
    ∃ ph' L', (collectNodes s q.nodes).Yields V C ph' L' ∧ L' ⊆ L := by
  induction list generalizing ph L with
  | nil => exact absurd hq List.not_mem_nil
  | cons k rest ih =>
    obtain ⟨ph₁, ph₂, L₁, L₂, h₁, h₂, -, rfl⟩ := yields_collectSequences_cons.1 h
    rcases List.mem_cons.1 hq with rfl | hq
    · exact ⟨ph₁, L₁, h₁, Set.subset_union_left⟩
    · obtain ⟨ph', L', hy, hsub⟩ := ih h₂ hq
      exact ⟨ph', L', hy, hsub.trans Set.subset_union_right⟩

/-- Each token of a set is offered, unless it is never offered. -/
lemma of_mem_tokens {tokens : List TokenId} (h : (collectTokens s tokens).Yields V C ph L)
    (ht : t ∈ tokens) (hi : s.model.isIgnoredToken t = false) : GrammarCompletion.Offers L t := by
  induction tokens generalizing L with
  | nil => exact absurd ht List.not_mem_nil
  | cons u rest ih =>
    obtain ⟨L', hrest, rfl⟩ := yields_collectTokens_cons.1 h
    rcases List.mem_cons.1 ht with rfl | ht
    · exact ⟨[], Or.inl (by simp [offered, hi])⟩
    · exact (ih hrest ht).mono Set.subset_union_right

end Plan.Yields

namespace Session

/-- Inside rules that reach it, a rule is found to be empty if it does not lead back to them. -/
lemma Gathers.pending_of_leansOn {k : Phase} (hm : s.model.Unmarked) (heof : s.model.EofRequired)
    (hup : s.model.Upright root) (hroot : ReflTransGen s.model.LeftRefers root r)
    (hinside : ∀ y ∈ inside, ReflTransGen s.model.LeftRefers y r) (hid : s.model.LeansOn r id)
    (hnull : s.model.Nullable id) (hg : s.Gathers (r :: inside) id k L) : k = .pending := by
  have hback := hup r hroot id hid
  refine (Model.ruleLeaves_pending_iff hm heof (fun y hy hreach => ?_) hg.ruleLeaves).2 hnull
  rcases List.mem_cons.1 hy with rfl | hy
  · exact hback hreach
  · exact hback (hreach.trans (hinside y hy))

/-- In an alternative, collecting gets behind nodes that may be empty. -/
lemma exists_yields_behind {post : List (Node RuleId)} (hm : s.model.Unmarked)
    (heof : s.model.EofRequired) (hup : s.model.Upright root)
    (hroot : ReflTransGen s.model.LeftRefers root r)
    (hinside : ∀ y ∈ inside, ReflTransGen s.model.LeftRefers y r)
    (hb : s.model.body r = .ok (.sequences list)) (hq : q ∈ list)
    (hnodes : q.nodes = pre ++ post) (hpre : s.model.DerivesNodes pre [])
    (hC : ∀ id k L, C id k L → s.Gathers (r :: inside) id k L)
    (h : (Plan.collectSequences s list).Yields V C ph L) :
    ∃ ph' L', (Plan.collectNodes s post).Yields V C ph' L' ∧ L' ⊆ L := by
  obtain ⟨ph₁, L₁, hy, hsub⟩ := h.of_mem_sequences hq
  rw [hnodes] at hy
  have hskip : ∀ n ∈ pre, n.symbol ≠ .token .eof ∧
      (n.isRequired = true → ∃ id, n.symbol = .rule id ∧ ∀ k L, C id k L → k = .pending) := by
    intro n hn
    refine ⟨fun hs => ?_, fun hr => ?_⟩
    · have hmem : n ∈ q.nodes := hnodes ▸ List.mem_append_left _ hn
      obtain ⟨id, hid, -⟩ := hpre.nullable hn (heof q (mem_sequences hb hq) n hmem hs)
      simp [hs] at hid
    · obtain ⟨id, hid, hnull⟩ := hpre.nullable hn hr
      obtain ⟨front, back, rfl⟩ := List.append_of_mem hn
      have hfront : s.model.DerivesNodes front [] := derivesNodes_nil fun k hk hreq =>
        hpre.nullable (List.mem_append_left _ hk) hreq
      have hleans : s.model.LeansOn r id :=
        ⟨list, hb, q, hq, front, n, back ++ post, by simp [hnodes], hid, hr, hfront, hnull⟩
      exact ⟨id, hid, fun k L hc =>
        (hC id k L hc).pending_of_leansOn hm heof hup hroot hinside hleans hnull⟩
  obtain ⟨ph', L', hpost, hsub'⟩ := hy.behind_nodes hskip
  exact ⟨ph', L', hpost, hsub'.trans hsub⟩

/-- **Collecting from a rule offers what the rules put** that can be reached without meeting a rule
twice. -/
theorem Gathers.offers_of_puts (hm : s.model.Unmarked) (heof : s.model.EofRequired)
    (hup : s.model.Upright root) (h : s.Gathers inside r ph L)
    (hroot : ReflTransGen s.model.LeftRefers root r)
    (hinside : ∀ y ∈ inside, ReflTransGen s.model.LeftRefers y r) (hr : r ∉ inside)
    (hway : ReflTransGen (s.model.RefersOutside inside) r x) (ht : s.model.Puts x t) (hne : t ≠ .eof)
    (hi : s.model.isIgnoredToken t = false) : Offers L t := by
  refine Gathers.induction (P := fun inside r _ L => ReflTransGen s.model.LeftRefers root r →
    (∀ y ∈ inside, ReflTransGen s.model.LeftRefers y r) → r ∉ inside →
      ReflTransGen (s.model.RefersOutside inside) r x → Offers L t)
    (fun inside r ph L hstep hroot hinside hr hway => ?_) h hroot hinside hr hway
  cases hstep with
  | special hs => exact absurd hs (ne_true_of_eq_false (hm.special r))
  | closed _ hc =>
    rcases hc with hi | hmem
    · exact absurd hi (ne_true_of_eq_false (hm.ignored r))
    · exact absurd hmem hr
  | @tokenSet tokens _ _ _ hb hy =>
    -- a rule with a set refers to no rule, so it is the one that puts the token
    rcases leftRefers_outside hway with rfl | ⟨r', ⟨list, hb', -⟩, -⟩
    · rcases ht with ⟨tokens', hb', ht⟩ | ⟨list, hb', -⟩
      · obtain rfl := RuleBody.tokenSet.inj (Except.ok.inj (hb.symm.trans hb'))
        exact hy.of_mem_tokens ht hi
      · cases hb.symm.trans hb'
    · cases hb.symm.trans hb'
  | @sequences list _ _ _ hb hy =>
    rcases leftRefers_outside hway with rfl | ⟨r', hrefers, hfresh, hway'⟩
    · rcases ht with ⟨tokens', hb', ht⟩ | ⟨list', hb', q, hq, pre, n, post, hnodes, hn, hany, hpre⟩
      · cases hb.symm.trans hb'
      · obtain rfl := RuleBody.sequences.inj (Except.ok.inj (hb.symm.trans hb'))
        obtain ⟨ph', L', hpost, hsub⟩ := exists_yields_behind hm heof hup hroot hinside hb hq hnodes
          hpre (fun _ _ _ hboth => hboth.1) hy
        obtain ⟨L'', -, rfl⟩ := (Plan.yields_collectNodes_token hn hne).1 hpost
        refine ⟨s.model.continuation n post, hsub (Or.inl ?_)⟩
        simp [hany, Plan.offered, hi]
    · obtain ⟨list', hb', q, hq, pre, n, post, hnodes, hn, hpre⟩ := id hrefers
      obtain rfl := RuleBody.sequences.inj (Except.ok.inj (hb.symm.trans hb'))
      obtain ⟨ph', L', hpost, hsub⟩ := exists_yields_behind hm heof hup hroot hinside hb hq hnodes
        hpre (fun _ _ _ hboth => hboth.1) hy
      obtain ⟨k, L₁, L₂, ⟨-, hoffers⟩, -, rfl⟩ := (Plan.yields_collectNodes_rule hn).1 hpost
      refine (hoffers (hroot.tail hrefers) (fun y hy => ?_) hfresh hway').mono
        (Set.subset_union_left.trans hsub)
      rcases List.mem_cons.1 hy with rfl | hy
      · exact .single hrefers
      · exact (hinside y hy).tail hrefers

variable {run run' : Run} {d : Nat}

/-- **Collecting from a rule offers every token that comes first** in something that the rule derives,
be the rules recursive, empty or left-recursive, in an upright model. -/
theorem collect_heads (hm : s.model.Unmarked) (heof : s.model.EofRequired)
    (hup : s.model.Upright r) (hrun : run.collecting = [])
    (h : s.collectRule d r run = .ok ph run') (ht : s.model.Heads r t) (hne : t ≠ .eof)
    (hi : s.model.isIgnoredToken t = false) :
    (∃ c, .offerToken t c ∈ run'.events) ∧
      (run.candidates.Reflects run.offers → t ∈ run'.candidates.leads) := by
  obtain ⟨-, hext, L, hg, hoffers⟩ := s.adds_collectRule d r [] run ph run' hrun h
  obtain ⟨x, hreach, hx⟩ := heads_iff.1 ht
  have hway : ReflTransGen (s.model.RefersOutside []) r x :=
    ReflTransGen.mono (fun _ _ hrefers => ⟨hrefers, List.not_mem_nil⟩) _ _ hreach
  obtain ⟨c, hc⟩ := hg.offers_of_puts hm heof hup .refl (List.forall_mem_nil _) List.not_mem_nil hway
    hx hne hi
  have hmem : .offerToken t c ∈ run'.offers := hoffers ▸ Or.inr hc
  exact ⟨⟨c, hmem.1⟩, fun hreflects => (hext.reflects hreflects).mem_leads.2 ⟨c, hmem⟩⟩

/-- Nothing is offered before the first step. -/
lemma reflects_start (s : Session) : s.start.candidates.Reflects s.start.offers := by
  have hoffers : s.start.offers = ∅ := by
    ext e
    simp [Run.mem_offers, start]
  exact hoffers ▸ .empty

/-- `term: term PLUS | sign NUM; sign: MINUS |` -/
def signed : Model where
  rules := .ofList [
    ("term", .sequences [⟨[.rule ⟨0⟩ .one, .token ⟨2⟩ .one], none⟩,
      ⟨[.rule ⟨1⟩ .one, .token ⟨1⟩ .one], none⟩]),
    ("sign", .sequences [⟨[.token ⟨3⟩ .one], none⟩, ⟨[], none⟩])]
  tokenNames := .ofList [(⟨1⟩, "NUM"), (⟨2⟩, "PLUS"), (⟨3⟩, "MINUS")]

lemma nullable_sign : signed.Nullable ⟨1⟩ :=
  DerivesNodes.nil.derives (q := ⟨[], none⟩) rfl (by decide)

lemma not_nullable_term : ¬ signed.Nullable ⟨0⟩ := by
  have htokens : ∀ q ∈ ([⟨[.rule ⟨0⟩ .one, .token ⟨2⟩ .one], none⟩,
      ⟨[.rule ⟨1⟩ .one, .token ⟨1⟩ .one], none⟩] : List (Sequence RuleId)),
      ∃ n ∈ q.nodes, n.isRequired = true ∧ n.ruleRef? = none := by decide
  intro hnull
  obtain ⟨x, hx, hd⟩ := hnull.produces
  obtain ⟨q, hq, hx⟩ := hx.of_sequences rfl
  obtain ⟨n, hn, hr, hnone⟩ := htokens q hq
  obtain ⟨id, hid, -⟩ := DerivesNodes.nullable ⟨x, hx, hd⟩ hn hr
  simp [Node.ruleRef?, hid] at hnone

lemma not_leftRefers_sign {x : RuleId} : ¬ signed.LeftRefers ⟨1⟩ x := by
  have htokens : ∀ q ∈ ([⟨[.token ⟨3⟩ .one], none⟩, ⟨[], none⟩] : List (Sequence RuleId)),
      ∀ n ∈ q.nodes, n.ruleRef? = none := by decide
  rintro ⟨list, hb, q, hq, pre, n, post, hnodes, hn, -⟩
  obtain ⟨⟩ := hb
  simpa [Node.ruleRef?, hn] using htokens q hq n (by simp [hnodes])

lemma upright_term : signed.Upright ⟨0⟩ := by
  rintro y - id ⟨list, hb, q, hq, pre, n, post, hnodes, hn, -, hpre, hnull⟩ hback
  have hrefers : signed.LeftRefers y id := ⟨list, hb, q, hq, pre, n, post, hnodes, hn, hpre⟩
  have hids : ∀ q ∈ signed.sequences, ∀ n ∈ q.nodes,
      n.ruleRef? = none ∨ n.ruleRef? = some ⟨0⟩ ∨ n.ruleRef? = some ⟨1⟩ := by decide
  have hid := hids q (mem_sequences hb hq) n (by simp [hnodes])
  simp only [Node.ruleRef?, hn, reduceCtorEq, Option.some.injEq, false_or] at hid
  rcases hid with rfl | rfl
  · exact not_nullable_term hnull
  · -- the sign refers to nothing, so it can only lead back to itself
    rcases ReflTransGen.cases_head hback with rfl | ⟨z, hz, -⟩
    · exact not_leftRefers_sign hrefers
    · exact not_leftRefers_sign hz

/-- The number is offered behind the sign, which may be empty, and below left recursion. -/
theorem collect_heads_signed :
    let s := onLine signed []
    s.model.Unmarked ∧ s.model.EofRequired ∧ s.model.Upright ⟨0⟩ ∧ s.start.collecting = [] ∧
      s.model.Heads ⟨0⟩ ⟨1⟩ ∧ (⟨1⟩ : TokenId) ≠ .eof ∧ s.model.isIgnoredToken ⟨1⟩ = false ∧
      ∃ ph run, s.collectRule 5 ⟨0⟩ s.start = .ok ph run ∧
        (∃ c, .offerToken ⟨1⟩ c ∈ run.events) ∧ ⟨1⟩ ∈ run.candidates.leads := by
  have hm : signed.Unmarked := .of_empty rfl rfl
  have heof : signed.EofRequired := by decide
  have hphase : phase? ((onLine signed []).collectRule 5 ⟨0⟩ (onLine signed []).start) =
      some .matching := by cbv
  obtain ⟨run, hrun⟩ := exists_of_phase? hphase
  have hsign : signed.DerivesNodes [.rule ⟨1⟩ .one] [] :=
    .single (u := []) (Node.isOccurrence_rule rfl) nullable_sign .nil
  have hheads : signed.Heads ⟨0⟩ ⟨1⟩ :=
    ⟨⟨0⟩, [], .refl _, Or.inr ⟨_, rfl, ⟨[.rule ⟨1⟩ .one, .token ⟨1⟩ .one], none⟩, by decide,
      [.rule ⟨1⟩ .one], .token ⟨1⟩ .one, [], rfl, rfl, rfl, hsign⟩⟩
  have hi : signed.isIgnoredToken ⟨1⟩ = false := by decide
  obtain ⟨hevent, hleads⟩ := collect_heads (s := onLine signed []) hm heof upright_term
    (rfl : (onLine signed []).start.collecting = []) hrun hheads (by decide) hi
  exact ⟨hm, heof, upright_term, rfl, hheads, by decide, hi, _, run, hrun, hevent,
    hleads (reflects_start _)⟩

/-- A token comes first in what a rule derives, but collecting from the rule at the start of a walk
does not offer it, in a well-formed model without special or ignored rules. -/
def Overlooks (s : Session) (r : RuleId) (t : TokenId) : Prop :=
  s.model.WellFormed ∧ s.model.Unmarked ∧ s.reached (s.stream.skipHidden 0) = true ∧
    s.model.Heads r t ∧ t ≠ .eof ∧ s.model.isIgnoredToken t = false ∧
      ∃ ph run, s.collectRule s.limits.depth r s.start = .ok ph run ∧ t ∉ run.candidates.leads

/-- The tokens that are offered by collecting, if it has a result. -/
def leads? : EStateM.Result CompletionError Run Phase → Option (List TokenId)
  | .ok _ r => some r.candidates.leads
  | .error _ _ => none

lemma exists_of_leads? {x : EStateM.Result CompletionError Run Phase} {l : List TokenId}
    (h : leads? x = some l) : ∃ ph r, x = .ok ph r ∧ r.candidates.leads = l := by
  cases x with
  | ok ph r => exact ⟨ph, r, rfl, Option.some.inj h⟩
  | error e r => simp [leads?] at h

/-- `r: r B |` -/
def nullableLoop : Model where
  rules := .ofList [("r", .sequences [⟨[.rule ⟨0⟩ .one, .token ⟨2⟩ .one], none⟩, ⟨[], none⟩])]
  tokenNames := .ofList [(⟨2⟩, "B")]

/-- `r: EOF? B |` -/
def optionalEnd : Model where
  rules := .ofList [("r", .sequences [⟨[.token .eof .optional, .token ⟨2⟩ .one], none⟩, ⟨[], none⟩])]
  tokenNames := .ofList [(⟨2⟩, "B")]

lemma overlooks_of_eval (hwf : s.model.WellFormed) (hspecial : s.model.specialRules = ∅)
    (hignored : s.model.ignoredRules = ∅) (hq : s.reached (s.stream.skipHidden 0) = true)
    (ht : s.model.Heads r t) (hne : t ≠ .eof) (hi : s.model.isIgnoredToken t = false)
    (hleads : leads? (s.collectRule s.limits.depth r s.start) = some []) : s.Overlooks r t := by
  obtain ⟨ph, run, hrun, hnone⟩ := exists_of_leads? hleads
  exact ⟨hwf, .of_empty hspecial hignored, hq, ht, hne, hi, ph, run, hrun, by simp [hnone]⟩

/-- Neither condition can be left out.  The rule of the first model counts as one that is not empty
inside itself, so collecting does not get to the token behind it; in the second one it does not get past
the end of the input, although that may be left out. -/
theorem overlooks_examples :
    (onLine nullableLoop [] ⟨1, 0⟩).Overlooks ⟨0⟩ ⟨2⟩ ∧
      (onLine optionalEnd [] ⟨1, 0⟩).Overlooks ⟨0⟩ ⟨2⟩ := by
  constructor
  · have hnull : nullableLoop.Nullable ⟨0⟩ :=
      DerivesNodes.nil.derives (q := ⟨[], none⟩) rfl (by decide)
    have hpre : nullableLoop.DerivesNodes [.rule ⟨0⟩ .one] [] :=
      .single (u := []) (Node.isOccurrence_rule rfl) hnull .nil
    have hputs : nullableLoop.Puts ⟨0⟩ ⟨2⟩ :=
      Or.inr ⟨_, rfl, ⟨[.rule ⟨0⟩ .one, .token ⟨2⟩ .one], none⟩, by decide,
        [.rule ⟨0⟩ .one], .token ⟨2⟩ .one, [], rfl, rfl, rfl, hpre⟩
    exact overlooks_of_eval (by decide) rfl rfl (by cbv) ⟨⟨0⟩, [], .refl _, hputs⟩ (by decide)
      (by decide) (by cbv)
  · have hputs : optionalEnd.Puts ⟨0⟩ ⟨2⟩ :=
      Or.inr ⟨_, rfl, ⟨[.token .eof .optional, .token ⟨2⟩ .one], none⟩, by decide,
        [.token .eof .optional], .token ⟨2⟩ .one, [], rfl, rfl, rfl, .skip rfl .nil⟩
    exact overlooks_of_eval (by decide) rfl rfl (by cbv) ⟨⟨0⟩, [], .refl _, hputs⟩ (by decide)
      (by decide) (by cbv)

end Session

end GrammarCompletion
