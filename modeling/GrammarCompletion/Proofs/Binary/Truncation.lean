/-
# A model that breaks off is refused

A decoder goes through the bytes from the front and never looks at how many are left.  So whatever it
does on some bytes, it does as well when more bytes follow, unless it came to their end
(`Steady`).  This goes through `bind`, and holds of the building blocks.

The bytes of a model are read to the last one.  On a proper prefix of them a steady decoder cannot
succeed, since it would then leave bytes over, and it cannot fail for another reason than the end of
the bytes, since it would then fail on all of them.
-/
import GrammarCompletion.Proofs.Binary.RoundTrip

namespace GrammarCompletion

namespace Binary

/-- Unless it comes to the end of the bytes, a decoder does the same if more bytes follow, and leaves
them alone. -/
def Steady {α : Type} (d : Decoder α) : Prop :=
  ∀ l rest, d.run l = .error .endOfBuffer ∨
    d.run (l ++ rest) = (d.run l).map fun r => (r.1, r.2 ++ rest)

/-- A steady decoder that reads some bytes to the last one comes to the end of every proper prefix
of them. -/
lemma Steady.run_of_prefix {α : Type} {d : Decoder α} (hd : Steady d) {l p : Bytes} {a : α}
    (hl : Reads d l a) (hp : p <+: l) (hne : p ≠ l) : d.run p = .error .endOfBuffer := by
  obtain ⟨rest, rfl⟩ := hp
  have hrest : rest ≠ [] := fun hnil => hne (by simp [hnil])
  have hall : d.run (p ++ rest) = .ok (a, []) := by
    simpa using hl []
  refine (hd p rest).resolve_right fun hsame => ?_
  rw [hall] at hsame
  cases hrun : d.run p with
  | error e => simp [hrun, Except.map] at hsame
  | ok r => simp [hrun, Except.map, hrest] at hsame

/-! ## Building blocks -/

namespace Steady

variable {α β : Type} {d d' : Decoder α} {f : α → Decoder β}

lemma pure (a : α) : Steady (Pure.pure a : Decoder α) := fun _ _ => .inr rfl

lemma throw (e : DecodeError) : Steady (throwThe DecodeError e : Decoder α) := fun _ _ => .inr rfl

lemma bind (hd : Steady d) (hf : ∀ a, Steady (f a)) : Steady (d >>= f) := by
  intro l rest
  rw [StateT.run_bind, StateT.run_bind]
  rcases hd l rest with hend | hsame
  · exact .inl (by rw [hend]; rfl)
  · rw [hsame]
    cases d.run l with
    | error e => exact .inr rfl
    | ok r => exact hf r.1 r.2 rest

lemma map (g : α → β) (hd : Steady d) : Steady (g <$> d) := by
  rw [map_eq_pure_bind]
  exact hd.bind fun a => .pure (g a)

lemma ite {c : Prop} [Decidable c] (hd : Steady d) (hd' : Steady d') :
    Steady (if c then d else d') := by
  split
  · exact hd
  · exact hd'

end Steady

lemma steady_byte : Steady takeByte
  | [], _ => .inl rfl
  | _ :: _, _ => .inr rfl

lemma steady_bytes (n : Nat) : Steady (takeBytes n) := by
  intro l rest
  by_cases hn : l.length < n
  · exact .inl (if_pos hn)
  · have hn' : ¬ (l ++ rest).length < n := by
      rw [List.length_append]
      omega
    have hle : n ≤ l.length := Nat.le_of_not_lt hn
    right
    simp only [takeBytes, StateT.run, if_neg hn, if_neg hn', List.splitAt_eq, Except.map,
      List.take_append_of_le_length hle, List.drop_append_of_le_length hle]

lemma steady_groups (top k : Nat) : Steady (decodeGroups top k) := by
  induction k with
  | zero => exact steady_byte.bind fun b => .ite (.pure _) (.throw _)
  | succ k ih => exact steady_byte.bind fun b => .ite (.pure _) (ih.bind fun high => .pure _)

lemma steady_nat32 : Steady decodeNat32 := steady_groups 15 4

lemma steady_length : Steady decodeLength := steady_groups 1 9

lemma steady_signed : Steady decodeSigned := steady_nat32.bind fun _ => .pure _

lemma steady_bool : Steady decodeBool :=
  steady_byte.bind fun _ => .ite (.pure _) (.ite (.pure _) (.throw _))

lemma steady_text : Steady decodeText := by
  refine steady_length.bind fun n => (steady_bytes n).bind fun bytes => ?_
  split
  · exact .pure _
  · exact .throw _

section

variable {α : Type} {d : Decoder α}

lemma steady_option (hd : Steady d) : Steady (decodeOption d) :=
  steady_byte.bind fun _ => .ite (.pure _) (.ite (hd.map some) (.throw _))

lemma steady_many (hd : Steady d) (n : Nat) : Steady (decodeMany d n) := by
  induction n with
  | zero => exact .pure _
  | succ n ih => exact hd.bind fun a => ih.bind fun rest => .pure _

lemma steady_list (hd : Steady d) : Steady (decodeList d) :=
  steady_length.bind (steady_many hd)

end

end Binary

open Binary

/-! ## Parts of models -/

lemma steady_tokenId : Steady TokenId.decode := steady_signed.map TokenId.mk

lemma steady_ruleId : Steady RuleId.decode := steady_nat32.map RuleId.mk

lemma steady_symbol : Steady Symbol.decode := by
  refine steady_nat32.bind fun n => ?_
  split
  · exact steady_tokenId.map _
  · exact steady_ruleId.map _
  · exact .throw _

lemma steady_node : Steady Node.decode :=
  steady_symbol.bind fun _ => steady_bool.bind fun _ => steady_bool.bind fun _ =>
    steady_bool.bind fun _ => .pure _

lemma steady_sequence : Steady Sequence.decode :=
  (steady_list steady_node).bind fun _ => (steady_option steady_text).bind fun _ => .pure _

lemma steady_body : Steady RuleBody.decode := by
  refine steady_nat32.bind fun n => ?_
  split
  · exact (steady_list steady_tokenId).map _
  · exact (steady_list steady_sequence).map _
  · exact .throw _

namespace Model

lemma steady_rule : Steady decodeRule :=
  steady_text.bind fun _ => steady_body.bind fun _ => .pure _

lemma steady_tokenName : Steady decodeTokenName :=
  steady_tokenId.bind fun _ => steady_text.bind fun _ => .pure _

lemma steady_model : Steady decoder :=
  (steady_list steady_rule).bind fun _ => (steady_list steady_ruleId).bind fun _ =>
    (steady_list steady_ruleId).bind fun _ => (steady_list steady_tokenId).bind fun _ =>
      (steady_list steady_tokenName).bind fun _ => .pure _

variable {m : Model} {p : Bytes}

/-- **A model that breaks off is refused**, wherever the cut lies, and what is reported is that the
bytes end too early. -/
theorem decode_of_prefix (h : m.Fits) (hp : p <+: m.encode) (hne : p ≠ m.encode) :
    decode p = .error .endOfBuffer ∧ DecodeError.endOfBuffer.message =
      "binary decode error: Hit the end of buffer, expected more data" := by
  rw [decode, steady_model.run_of_prefix (reads_model h) hp hne]
  exact ⟨rfl, rfl⟩

/-- The first 17 bytes of the edges end inside the rule id of the first node. -/
theorem decode_prefix_edges :
    edges.Fits ∧ edges.encode.take 17 <+: edges.encode ∧ edges.encode.take 17 ≠ edges.encode ∧
      decode (edges.encode.take 17) = .error .endOfBuffer ∧ DecodeError.endOfBuffer.message =
        "binary decode error: Hit the end of buffer, expected more data" := by
  have hne : edges.encode.take 17 ≠ edges.encode := by decide
  exact ⟨by decide, List.take_prefix _ _, hne,
    decode_of_prefix (by decide) (List.take_prefix _ _) hne⟩

end Model

end GrammarCompletion
