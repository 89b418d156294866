/-
# Decoders that read what was written

No mark stands between the parts of a value, so a decoder has to find the end of its part by itself.
`Reads d l a` says that it does: in front of any further bytes, `d` takes exactly the bytes `l` and
yields `a`.  A statement of this form goes through `bind`, with the bytes of the two parts one after
the other, and so it suffices to prove it of the building blocks.

A number takes part in groups of seven bits.  The decoder of `k + 1` groups reads every number below
`(top + 1) * 128 ^ k`, whatever the number of groups the writer had room for.
-/
import GrammarCompletion.Binary
import Mathlib.Algebra.Group.Nat.Defs
import Mathlib.Tactic.Lemma

namespace GrammarCompletion.Binary

/-- In front of any bytes, a decoder takes the bytes `l` and no others, and yields `a`. -/
def Reads {α : Type} (d : Decoder α) (l : Bytes) (a : α) : Prop :=
  ∀ rest, d.run (l ++ rest) = .ok (a, rest)

namespace Reads

variable {α β : Type} {d : Decoder α} {f : α → Decoder β} {l l' : Bytes} {a : α} {b : β}

lemma pure (a : α) : Reads (Pure.pure a) [] a := fun _ => rfl

/-- The parts of a value are read one after the other. -/
lemma bind (hd : Reads d l a) (hf : Reads (f a) l' b) : Reads (d >>= f) (l ++ l') b := by
  intro rest
  have hstep : (d >>= f).run (l ++ (l' ++ rest)) = (f a).run (l' ++ rest) := by
    rw [StateT.run_bind, hd]
    rfl
  rw [List.append_assoc, hstep, hf]

/-- The value is made of the last part. -/
lemma bind_pure (hd : Reads d l a) (hf : f a = Pure.pure b) : Reads (d >>= f) l b := by
  have h : Reads (d >>= f) (l ++ []) b := hd.bind (hf ▸ Reads.pure b)
  rwa [List.append_nil] at h

lemma map (g : α → β) (hd : Reads d l a) : Reads (g <$> d) l (g a) := by
  intro rest
  rw [StateT.run_map, hd]
  rfl

end Reads

/-! ## Bytes and numbers -/

lemma reads_byte (b : UInt8) : Reads takeByte [b] b := fun _ => rfl

lemma reads_bytes (l : Bytes) : Reads (takeBytes l.length) l l := by
  intro rest
  have hlen : ¬ (l ++ rest).length < l.length := by simp
  simp only [takeBytes, StateT.run, if_neg hlen, List.splitAt_eq, List.take_left, List.drop_left]

lemma toNat_ofNat {n : Nat} (h : n < 256) : (UInt8.ofNat n).toNat = n :=
  UInt8.toNat_ofNat_of_lt h

/-- A last group. -/
lemma reads_group {n : Nat} {k top : Nat} (h : n < 128) (htop : k = 0 → n ≤ top) :
    Reads (decodeGroups top k) [UInt8.ofNat n] n := by
  have hbyte : (UInt8.ofNat n).toNat = n := toNat_ofNat (by omega)
  cases k with
  | zero =>
    refine (reads_byte _).bind_pure ?_
    rw [hbyte, if_pos (htop rfl)]
  | succ k =>
    refine (reads_byte _).bind_pure ?_
    rw [hbyte, if_pos h]

/-- A number below the bound of a decoder is read, if the writer had room for all its groups. -/
lemma reads_groups {top k j n : Nat} (htop : top < 128) (hread : n < (top + 1) * 128 ^ k)
    (hwrite : n < 128 ^ (j + 1)) : Reads (decodeGroups top k) (encodeGroups j n) n := by
  induction k generalizing j n with
  | zero =>
    have hn : n ≤ top := by omega
    have hgroups : encodeGroups j n = [UInt8.ofNat n] := by
      cases j with
      | zero => rfl
      | succ j => rw [encodeGroups, if_pos (by omega)]
    rw [hgroups]
    exact reads_group (by omega) fun _ => hn
  | succ k ih =>
    by_cases hn : n < 128
    · have hgroups : encodeGroups j n = [UInt8.ofNat n] := by
        cases j with
        | zero => rfl
        | succ j => rw [encodeGroups, if_pos hn]
      rw [hgroups]
      exact reads_group hn (by simp)
    · cases j with
      | zero => omega
      | succ j =>
        -- the low group is marked, and the groups after it are those of `n / 128`
        have hbyte : (UInt8.ofNat (n % 128 + 128)).toNat = n % 128 + 128 :=
          toNat_ofNat (by omega)
        have hhigh : Reads (decodeGroups top k) (encodeGroups j (n / 128)) (n / 128) :=
          ih (Nat.div_lt_of_lt_mul (by rwa [Nat.pow_succ', Nat.mul_left_comm] at hread))
            (Nat.div_lt_of_lt_mul (by rwa [Nat.pow_succ'] at hwrite))
        rw [encodeGroups, if_neg hn, ← List.singleton_append]
        refine (reads_byte _).bind ?_
        rw [if_neg (by omega)]
        refine hhigh.bind_pure ?_
        rw [hbyte, Nat.add_sub_cancel, Nat.mod_add_div]

/-- A number has room in as many groups as its own value. -/
lemma lt_groups (n : Nat) : n < 128 ^ (n + 1) :=
  Nat.lt_trans (Nat.lt_succ_self n) (Nat.lt_pow_self (by omega))

lemma reads_nat32 {n : Nat} (h : n < 2 ^ 32) : Reads decodeNat32 (encodeNat n) n :=
  reads_groups (by omega) (by omega) (lt_groups n)

lemma reads_length {n : Nat} (h : n < 2 ^ 64) : Reads decodeLength (encodeNat n) n :=
  reads_groups (by omega) (by omega) (lt_groups n)

lemma unzigzag_zigzag (i : Int) : unzigzag (zigzag i) = i := by
  rw [zigzag]
  split <;> rw [unzigzag] <;> split <;> omega

lemma reads_signed (i : Int32) : Reads decodeSigned (encodeSigned i) i := by
  have hlow := i.le_toInt
  have hhigh := i.toInt_lt
  have hbound : zigzag i.toInt < 2 ^ 32 := by
    rw [zigzag]
    split <;> omega
  refine (reads_nat32 hbound).bind_pure ?_
  rw [unzigzag_zigzag, Int32.ofInt_toInt]

/-! ## Values -/

/-- A text whose length is a number of 64 bits. -/
def FitsText (s : String) : Prop := s.utf8ByteSize < 2 ^ 64

/-- A list whose length is a number of 64 bits and whose items can be written. -/
structure FitsList {α : Type} (P : α → Prop) (l : List α) : Prop where
  /-- The length can be written. -/
  length : l.length < 2 ^ 64
  /-- Every item can be written. -/
  item : ∀ a ∈ l, P a

instance (s : String) : Decidable (FitsText s) :=
  inferInstanceAs (Decidable (s.utf8ByteSize < 2 ^ 64))

instance {α : Type} {P : α → Prop} [DecidablePred P] (l : List α) : Decidable (FitsList P l) :=
  decidable_of_iff (l.length < 2 ^ 64 ∧ ∀ a ∈ l, P a)
    ⟨fun h => ⟨h.1, h.2⟩, fun h => ⟨h.length, h.item⟩⟩

lemma reads_bool (b : Bool) : Reads decodeBool (encodeBool b) b := by
  refine (reads_byte _).bind_pure ?_
  cases b <;> rfl

/-- A text is read back, whatever its characters are. -/
lemma reads_text {s : String} (h : FitsText s) : Reads decodeText (encodeText s) s := by
  have hlen : s.toUTF8.data.toList.length = s.utf8ByteSize := rfl
  refine (reads_length h).bind ?_
  rw [← hlen]
  refine (reads_bytes _).bind_pure ?_
  have hback : String.fromUTF8? ⟨s.toUTF8.data.toList.toArray⟩ = some s := by
    rw [Array.toArray_toList, String.fromUTF8?, String.toUTF8_eq_toByteArray,
      dif_pos s.isValidUTF8]
    rfl
  rw [hback]

lemma reads_option {α : Type} {d : Decoder α} {f : α → Bytes} {o : Option α}
    (h : ∀ a ∈ o, Reads d (f a) a) : Reads (decodeOption d) (encodeOption f o) o := by
  cases o with
  | none => exact (reads_byte 0).bind_pure rfl
  | some a => exact (reads_byte 1).bind ((h a rfl).map some)

lemma reads_many {α : Type} {d : Decoder α} {f : α → Bytes} {l : List α}
    (h : ∀ a ∈ l, Reads d (f a) a) : Reads (decodeMany d l.length) (l.flatMap f) l := by
  induction l with
  | nil => exact Reads.pure []
  | cons a l ih =>
    refine (h a List.mem_cons_self).bind ?_
    exact (ih fun b hb => h b (List.mem_cons_of_mem a hb)).bind_pure rfl

/-- A list is read back if its items are. -/
lemma reads_list {α : Type} {d : Decoder α} {f : α → Bytes} {P : α → Prop} {l : List α}
    (hl : FitsList P l) (h : ∀ a, P a → Reads d (f a) a) :
    Reads (decodeList d) (encodeList f l) l :=
  (reads_length hl.length).bind (reads_many fun a ha => h a (hl.item a ha))

end GrammarCompletion.Binary
