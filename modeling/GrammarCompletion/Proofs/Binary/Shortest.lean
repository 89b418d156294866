/-
# The bytes of a model are its shortest ones

Reading accepts more bytes than are written: a number may have more groups than it needs, the keys of
a map and the members of a set may be repeated, and anything may come after the model.  All of this
costs bytes.  What a model that was read is written as is shorter than what it was read from, unless
it is the same (`NoLonger`).

The statement is about the bytes that a decoder takes (`Takes`), and follows the decoder step by step.
A number that has more groups than needed takes a byte more for each of them.  Inserting a repeated key
or member leaves the number of items as it is and drops the bytes of one of them (`Denser`).
-/
import GrammarCompletion.Proofs.Binary.RoundTrip
import GrammarCompletion.Proofs.Results

namespace GrammarCompletion

namespace Binary

/-- Bytes are the same as others, or fewer. -/
def NoLonger (l l' : Bytes) : Prop := l = l' ∨ l.length < l'.length

namespace NoLonger

variable {l l' l'' k k' : Bytes}

lemma refl (l : Bytes) : NoLonger l l := .inl rfl

lemma length_le (h : NoLonger l l') : l.length ≤ l'.length := by
  rcases h with rfl | h
  · exact Nat.le_refl _
  · exact Nat.le_of_lt h

lemma trans (h : NoLonger l l') (h' : NoLonger l' l'') : NoLonger l l'' := by
  rcases h with rfl | h
  · exact h'
  · exact .inr (Nat.lt_of_lt_of_le h h'.length_le)

lemma append (h : NoLonger l l') (h' : NoLonger k k') : NoLonger (l ++ k) (l' ++ k') := by
  have hl := h.length_le
  have hk := h'.length_le
  rcases h with rfl | h
  · rcases h' with rfl | h'
    · exact .inl rfl
    · exact .inr (by simp only [List.length_append]; omega)
  · exact .inr (by simp only [List.length_append]; omega)

end NoLonger

/-- What a decoder yields, and the bytes that it takes for it, are related. -/
def Takes {α : Type} (d : Decoder α) (S : α → Bytes → Prop) : Prop :=
  ∀ l a rest, d.run l = .ok (a, rest) → ∃ taken, l = taken ++ rest ∧ S a taken

/-- What a decoder yields has a property, and it is written in no more bytes than it was read from. -/
def Condenses {α : Type} (d : Decoder α) (f : α → Bytes) (P : α → Prop) : Prop :=
  Takes d fun a l => NoLonger (f a) l ∧ P a

namespace Takes

variable {α β : Type} {d d' : Decoder α} {f : α → Decoder β} {S S' : α → Bytes → Prop}
  {T : β → Bytes → Prop} {a : α}

lemma pure (h : S a []) : Takes (Pure.pure a) S := by
  intro l b rest hrun
  obtain ⟨rfl, rfl⟩ : a = b ∧ l = rest := Prod.mk.inj (Except.ok.inj hrun)
  exact ⟨[], rfl, h⟩

lemma throw (e : DecodeError) : Takes (throwThe DecodeError e) S := by
  intro l b rest hrun
  cases hrun

lemma mono (hd : Takes d S) (h : ∀ a l, S a l → S' a l) : Takes d S' := by
  intro l a rest hrun
  obtain ⟨taken, rfl, hS⟩ := hd _ _ _ hrun
  exact ⟨taken, rfl, h a taken hS⟩

/-- The bytes of the second step come after those of the first one. -/
lemma bind (hd : Takes d S) (hf : ∀ a l, S a l → Takes (f a) fun b l' => T b (l ++ l')) :
    Takes (d >>= f) T := by
  intro l b rest hrun
  rw [StateT.run_bind] at hrun
  obtain ⟨⟨a, mid⟩, ha, hb⟩ := Except.bind_eq_ok.1 hrun
  obtain ⟨taken, rfl, hS⟩ := hd _ _ _ ha
  obtain ⟨taken', rfl, hT⟩ := hf a taken hS _ _ _ hb
  exact ⟨taken ++ taken', (List.append_assoc _ _ _).symm, hT⟩

lemma map {g : α → β} (hd : Takes d S) (h : ∀ a l, S a l → T (g a) l) : Takes (g <$> d) T := by
  rw [map_eq_pure_bind]
  exact hd.bind fun a l hS => .pure (by rw [List.append_nil]; exact h a l hS)

lemma ite {c : Prop} [Decidable c] (hd : c → Takes d S) (hd' : ¬ c → Takes d' S) :
    Takes (if c then d else d') S := by
  split
  · next hc => exact hd hc
  · next hc => exact hd' hc

end Takes

/-! ## Numbers -/

/-- The number of groups for which there is room does not matter. -/
lemma encodeGroups_congr {j k n : Nat} (hj : n < 128 ^ (j + 1)) (hk : n < 128 ^ (k + 1)) :
    encodeGroups j n = encodeGroups k n := by
  induction j generalizing k n with
  | zero =>
    cases k with
    | zero => rfl
    | succ k => rw [encodeGroups, encodeGroups, if_pos (by omega)]
  | succ j ih =>
    by_cases hn : n < 128
    · cases k with
      | zero => rw [encodeGroups, encodeGroups, if_pos hn]
      | succ k => rw [encodeGroups, encodeGroups, if_pos hn, if_pos hn]
    · cases k with
      | zero => omega
      | succ k =>
        rw [encodeGroups, encodeGroups, if_neg hn, if_neg hn,
          ih (Nat.div_lt_of_lt_mul (by rwa [Nat.pow_succ'] at hj))
            (Nat.div_lt_of_lt_mul (by rwa [Nat.pow_succ'] at hk))]

lemma encodeNat_of_lt {n : Nat} (h : n < 128) : encodeNat n = [UInt8.ofNat n] :=
  encodeGroups_congr (k := 0) (lt_groups n) h

/-- A number of more than one group. -/
lemma encodeNat_of_le {n : Nat} (h : 128 ≤ n) :
    encodeNat n = UInt8.ofNat (n % 128 + 128) :: encodeNat (n / 128) := by
  obtain ⟨k, rfl⟩ : ∃ k, n = k + 1 := ⟨n - 1, by omega⟩
  have hroom : (k + 1) / 128 < 128 ^ (k + 1) :=
    Nat.lt_of_le_of_lt (by omega) (lt_groups k)
  rw [encodeNat, encodeGroups, if_neg (by omega), encodeNat,
    encodeGroups_congr hroom (lt_groups _)]

lemma length_encodeNat_pos (n : Nat) : 0 < (encodeNat n).length := by
  by_cases hn : n < 128
  · simp [encodeNat_of_lt hn]
  · simp [encodeNat_of_le (Nat.le_of_not_lt hn)]

/-- A smaller number has no more groups. -/
lemma length_encodeNat_mono {n n' : Nat} (h : n ≤ n') :
    (encodeNat n).length ≤ (encodeNat n').length := by
  induction n using Nat.strongRecOn generalizing n' with
  | ind n ih =>
    by_cases hn : n < 128
    · rw [encodeNat_of_lt hn]
      exact length_encodeNat_pos n'
    · have hle : 128 ≤ n := Nat.le_of_not_lt hn
      have hdiv : (encodeNat (n / 128)).length ≤ (encodeNat (n' / 128)).length :=
        ih (n / 128) (by omega) (Nat.div_le_div_right h)
      rw [encodeNat_of_le hle, encodeNat_of_le (Nat.le_trans hle h)]
      exact Nat.succ_le_succ hdiv

lemma takes_byte : Takes takeByte fun b l => l = [b]
  | [], _, _, hrun => nomatch hrun
  | b :: _, _, _, rfl => ⟨[b], rfl, rfl⟩

/-- Groups that are read hold a bounded number, and are no fewer than those it is written in. -/
lemma takes_groups {top : Nat} (htop : top < 128) (k : Nat) :
    Condenses (decodeGroups top k) encodeNat (· < (top + 1) * 128 ^ k) := by
  have hlast : ∀ b : UInt8, b.toNat < 128 → NoLonger (encodeNat b.toNat) ([b] ++ []) := by
    intro b hb
    rw [encodeNat_of_lt hb, UInt8.ofNat_toNat]
    exact .refl _
  induction k with
  | zero =>
    refine takes_byte.bind ?_
    rintro b _ rfl
    refine .ite (fun hb => .pure ⟨hlast b (by omega), ?_⟩) fun _ => .throw _
    show b.toNat < (top + 1) * 128 ^ 0
    omega
  | succ k ih =>
    have hpow : 0 < 128 ^ k := Nat.pow_pos (by decide)
    have hroom : 128 ≤ (top + 1) * 128 ^ (k + 1) := by
      rw [Nat.pow_succ', Nat.mul_left_comm]
      exact Nat.le_mul_of_pos_right 128 (Nat.mul_pos (Nat.succ_pos top) hpow)
    refine takes_byte.bind ?_
    rintro b _ rfl
    refine .ite (fun hb => .pure ⟨hlast b hb, Nat.lt_of_lt_of_le hb hroom⟩) fun hb => ?_
    refine ih.bind fun high l ⟨hl, hhigh⟩ => .pure ⟨?_, ?_⟩
    · have hlt : b.toNat < 256 := b.toNat_lt
      rw [List.append_nil]
      by_cases hzero : high = 0
      · -- a last group of zero is not needed
        subst hzero
        refine .inr ?_
        have hpos := Nat.lt_of_lt_of_le (length_encodeNat_pos 0) hl.length_le
        rw [encodeNat_of_lt (by omega), List.length_append, List.length_singleton,
          List.length_singleton]
        omega
      · have hmod : (b.toNat - 128 + 128 * high) % 128 + 128 = b.toNat := by omega
        have hdiv : (b.toNat - 128 + 128 * high) / 128 = high := by omega
        rw [encodeNat_of_le (by omega), hmod, hdiv, UInt8.ofNat_toNat, ← List.singleton_append]
        exact .append (.refl _) hl
    · have hlt : b.toNat < 256 := b.toNat_lt
      show b.toNat - 128 + 128 * high < (top + 1) * 128 ^ (k + 1)
      rw [Nat.pow_succ', Nat.mul_left_comm]
      have hnext : 128 * (high + 1) ≤ 128 * ((top + 1) * 128 ^ k) := Nat.mul_le_mul_left 128 hhigh
      omega

lemma takes_nat32 : Condenses decodeNat32 encodeNat (· < 2 ^ 32) :=
  takes_groups (by decide) 4

lemma takes_length : Condenses decodeLength encodeNat (· < 2 ^ 64) :=
  takes_groups (by decide) 9

lemma zigzag_unzigzag (n : Nat) : zigzag (unzigzag n) = n := by
  rw [unzigzag]
  split <;> rw [zigzag] <;> split <;> omega

lemma takes_signed : Condenses decodeSigned encodeSigned fun _ => True := by
  refine takes_nat32.bind fun n l ⟨hl, hn⟩ => .pure ⟨?_, trivial⟩
  have hbounds : -2 ^ 31 ≤ unzigzag n ∧ unzigzag n < 2 ^ 31 := by
    rw [unzigzag]
    split <;> omega
  rw [List.append_nil, encodeSigned, Int32.toInt_ofInt_of_le hbounds.1 hbounds.2, zigzag_unzigzag]
  exact hl

/-! ## Values -/

lemma takes_bool : Takes decodeBool fun b l => l = encodeBool b := by
  refine takes_byte.bind ?_
  rintro b _ rfl
  refine .ite (fun hb => .pure ?_) fun _ => .ite (fun hb => .pure ?_) fun _ => .throw _
  · rw [hb]
    rfl
  · rw [hb]
    rfl

lemma takes_bytes (n : Nat) : Takes (takeBytes n) fun a l => l = a ∧ a.length = n := by
  intro l a rest hrun
  simp only [takeBytes, StateT.run] at hrun
  split at hrun
  · cases hrun
  · next hn =>
    rw [List.splitAt_eq] at hrun
    obtain ⟨rfl, rfl⟩ := Prod.mk.inj (Except.ok.inj hrun)
    exact ⟨_, (List.take_append_drop n l).symm, rfl, by rw [List.length_take]; omega⟩

lemma takes_text : Condenses decodeText encodeText FitsText := by
  refine takes_length.bind fun n l ⟨hl, hn⟩ => (takes_bytes n).bind ?_
  rintro _ bytes ⟨rfl, hlen⟩
  split
  · next s hs =>
    -- the text has the bytes that were taken as its UTF-8 form
    have hbytes : s.toUTF8.data.toList = bytes := by
      rw [String.fromUTF8?] at hs
      split at hs
      · rw [← Option.some.inj hs, String.toUTF8_eq_toByteArray]
        rfl
      · simp at hs
    have hsize : s.utf8ByteSize = n := by
      rw [← hlen, ← hbytes]
      rfl
    refine .pure ⟨?_, ?_⟩
    · rw [List.append_nil, encodeText, hsize, hbytes]
      exact hl.append (.refl _)
    · rw [FitsText, hsize]
      exact hn
  · exact .throw _

section

variable {α : Type} {d : Decoder α} {f : α → Bytes} {P : α → Prop}

lemma takes_option (hd : Condenses d f P) :
    Condenses (decodeOption d) (encodeOption f) fun o => ∀ a ∈ o, P a := by
  refine takes_byte.bind ?_
  rintro b _ rfl
  refine .ite (fun hb => .pure ?_) fun _ => .ite (fun hb => hd.map ?_) fun _ => .throw _
  · rw [hb]
    exact ⟨.refl _, by simp⟩
  · rintro a l ⟨hl, ha⟩
    rw [hb]
    exact ⟨.append (.refl [1]) hl, by simpa using ha⟩

lemma takes_many (hd : Condenses d f P) (n : Nat) :
    Takes (decodeMany d n) fun as l =>
      NoLonger (as.flatMap f) l ∧ as.length = n ∧ ∀ a ∈ as, P a := by
  induction n with
  | zero => exact .pure ⟨.refl _, rfl, List.forall_mem_nil _⟩
  | succ n ih =>
    refine hd.bind fun a l ⟨hl, ha⟩ => ih.bind fun as l' ⟨hl', hlen, has⟩ => .pure ⟨?_, ?_, ?_⟩
    · rw [List.append_nil, List.flatMap_cons]
      exact hl.append hl'
    · rw [List.length_cons, hlen]
    · exact List.forall_mem_cons.2 ⟨ha, has⟩

lemma takes_list (hd : Condenses d f P) : Condenses (decodeList d) (encodeList f) (FitsList P) := by
  refine takes_length.bind fun n l ⟨hl, hn⟩ => ?_
  refine (takes_many hd n).mono fun as l' ⟨hl', hlen, has⟩ => ⟨?_, ?_⟩
  · rw [encodeList, hlen]
    exact hl.append hl'
  · exact ⟨by rw [hlen]; exact hn, has⟩

/-! ## Repeated members and keys -/

/-- Items are the same as others, or no more of them and written in fewer bytes. -/
def Denser (f : α → Bytes) (l l' : List α) : Prop :=
  l = l' ∨ l.length ≤ l'.length ∧ (l.flatMap f).length < (l'.flatMap f).length

namespace Denser

variable {l l' l'' k : List α}

lemma length_le (h : Denser f l l') : l.length ≤ l'.length := by
  rcases h with rfl | h
  · exact Nat.le_refl _
  · exact h.1

lemma trans (h : Denser f l l') (h' : Denser f l' l'') : Denser f l l'' := by
  rcases h with rfl | h
  · exact h'
  · rcases h' with rfl | h'
    · exact .inr h
    · exact .inr ⟨Nat.le_trans h.1 h'.1, Nat.lt_trans h.2 h'.2⟩

lemma append_right (h : Denser f l l') : Denser f (l ++ k) (l' ++ k) := by
  rcases h with rfl | ⟨hlen, hbytes⟩
  · exact .inl rfl
  · refine .inr ⟨?_, ?_⟩
    · simp only [List.length_append]
      omega
    · simp only [List.flatMap_append, List.length_append]
      omega

lemma cons (a : α) (h : Denser f l l') : Denser f (a :: l) (a :: l') := by
  rcases h with rfl | ⟨hlen, hbytes⟩
  · exact .inl rfl
  · refine .inr ⟨?_, ?_⟩
    · simp only [List.length_cons]
      omega
    · simp only [List.flatMap_cons, List.length_append]
      omega

/-- Denser items make a shorter list, since their number takes no more bytes either. -/
lemma noLonger (h : Denser f l l') : NoLonger (encodeList f l) (encodeList f l') := by
  rcases h with rfl | ⟨hlen, hbytes⟩
  · exact .refl _
  · have hcount := length_encodeNat_mono hlen
    refine .inr ?_
    simp only [encodeList, List.length_append]
    omega

end Denser

/-- The items that are read may be replaced by denser ones. -/
lemma Condenses.denser {g : List α → List α} (hd : Condenses (decodeList d) (encodeList f) (FitsList P))
    (hg : ∀ as, Denser f (g as) as) (hmem : ∀ as, ∀ a ∈ g as, a ∈ as) :
    Takes (decodeList d) fun as l => NoLonger (encodeList f (g as)) l ∧ FitsList P (g as) :=
  hd.mono fun as _ ⟨hl, hfits⟩ => ⟨(hg as).noLonger.trans hl,
    Nat.lt_of_le_of_lt (hg as).length_le hfits.length, fun a ha => hfits.item a (hmem as a ha)⟩

/-- A member that is repeated is written once. -/
lemma denser_insertAll [DecidableEq α] (hf : ∀ a, 0 < (f a).length) (s : OrderedSet α)
    (l : List α) : Denser f (s.insertAll l).toList (s.toList ++ l) := by
  induction l generalizing s with
  | nil => exact .inl (by simp)
  | cons a l ih =>
    have hinsert : Denser f (s.insert a).toList (s.toList ++ [a]) := by
      rw [OrderedSet.toList_insert]
      split
      · refine .inr ⟨by simp, ?_⟩
        have ha := hf a
        simp only [List.flatMap_append, List.length_append, List.flatMap_singleton]
        omega
      · exact .inl rfl
    have hall := (ih (s.insert a)).trans hinsert.append_right
    rwa [List.append_assoc, List.singleton_append] at hall

/-- The members of a set are read, if every item takes a byte. -/
lemma Condenses.ofSet [DecidableEq α] (hd : Condenses d f P) (hf : ∀ a, 0 < (f a).length) :
    Takes (decodeList d) fun as l =>
      NoLonger (encodeList f (OrderedSet.ofList as).toList) l ∧
        FitsList P (OrderedSet.ofList as).toList :=
  (takes_list hd).denser (fun as => denser_insertAll hf ∅ as)
    fun _ _ ha => OrderedSet.mem_ofList.1 ha

end

section

variable {κ ν : Type} [DecidableEq κ] {d : Decoder (κ × ν)} {f : κ × ν → Bytes} {P : κ × ν → Prop}

/-- A key that is repeated is written once, with one of its values. -/
lemma denser_insertEntry (hf : ∀ e, 0 < (f e).length) (k : κ) (v : ν) (l : List (κ × ν)) :
    Denser f (OrderedMap.insertEntry k v l) (l ++ [(k, v)]) := by
  induction l with
  | nil => exact .inl rfl
  | cons e l ih =>
    rw [OrderedMap.insertEntry]
    split
    · -- the new value stands in the place of the old one
      refine .inr ⟨by simp, ?_⟩
      have he := hf e
      simp only [List.flatMap_cons, List.cons_append, List.flatMap_append, List.length_append,
        List.flatMap_nil, List.length_nil]
      omega
    · exact ih.cons e

lemma denser_insertAllEntries (hf : ∀ e, 0 < (f e).length) (m : OrderedMap κ ν)
    (l : List (κ × ν)) : Denser f (m.insertAll l).entries (m.entries ++ l) := by
  induction l generalizing m with
  | nil => exact .inl (by simp)
  | cons e l ih =>
    have hinsert : Denser f (m.insert e.1 e.2).entries (m.entries ++ [e]) :=
      denser_insertEntry hf e.1 e.2 m.entries
    have hall := (ih (m.insert e.1 e.2)).trans hinsert.append_right
    rwa [List.append_assoc, List.singleton_append] at hall

/-- The entries of a map are read, if every entry takes a byte. -/
lemma Condenses.ofMap (hd : Condenses d f P) (hf : ∀ e, 0 < (f e).length) :
    Takes (decodeList d) fun es l =>
      NoLonger (encodeList f (OrderedMap.ofList es).entries) l ∧
        FitsList P (OrderedMap.ofList es).entries :=
  (takes_list hd).denser (fun es => denser_insertAllEntries hf ∅ es)
    fun _ _ he => OrderedMap.mem_of_mem_entries_ofList he

end

end Binary

open Binary

/-! ## Parts of models -/

lemma takes_tokenId : Condenses TokenId.decode TokenId.encode fun _ => True :=
  takes_signed.map fun _ _ h => h

lemma takes_ruleId : Condenses RuleId.decode RuleId.encode RuleId.Fits :=
  takes_nat32.map fun _ _ h => h

lemma takes_symbol :
    Condenses Symbol.decode Symbol.encode fun s => ∀ id, s = .rule id → id.Fits := by
  refine takes_nat32.bind fun n l ⟨hl, _⟩ => ?_
  split
  · exact takes_tokenId.map fun id l' ⟨hl', _⟩ => ⟨hl.append hl', by simp⟩
  · refine takes_ruleId.map fun id l' ⟨hl', hid⟩ => ⟨hl.append hl', ?_⟩
    rintro id' ⟨⟩
    exact hid
  · exact .throw _

lemma takes_node : Condenses Node.decode Node.encode Node.Fits := by
  refine takes_symbol.bind fun symbol l ⟨hl, hfits⟩ => ?_
  refine takes_bool.bind ?_
  rintro multiple _ rfl
  refine takes_bool.bind ?_
  rintro required _ rfl
  refine takes_bool.bind ?_
  rintro any _ rfl
  refine .pure ⟨?_, ?_⟩
  · simp only [Node.encode, List.append_assoc, List.append_nil]
    exact hl.append (.refl _)
  · intro id hid
    cases symbol with
    | token => simp [Node.ruleRef?] at hid
    | rule ref => exact hfits id (by simpa [Node.ruleRef?] using hid)

lemma takes_sequence : Condenses Sequence.decode Sequence.encode Sequence.Fits := by
  refine (takes_list takes_node).bind fun nodes l ⟨hl, hnodes⟩ => ?_
  refine (takes_option takes_text).bind fun predicate l' ⟨hl', hpredicate⟩ => ?_
  refine .pure ⟨?_, hnodes, hpredicate⟩
  rw [List.append_nil]
  exact hl.append hl'

lemma length_encode_tokenId_pos (id : TokenId) : 0 < id.encode.length :=
  length_encodeNat_pos _

lemma length_encode_ruleId_pos (id : RuleId) : 0 < id.encode.length :=
  length_encodeNat_pos _

lemma takes_body : Condenses RuleBody.decode RuleBody.encode RuleBody.Fits := by
  refine takes_nat32.bind fun n l ⟨hl, _⟩ => ?_
  split
  · refine (takes_tokenId.ofSet length_encode_tokenId_pos).map fun ids l' ⟨hl', hids⟩ => ?_
    exact ⟨hl.append hl', hids⟩
  · exact (takes_list takes_sequence).map fun list l' ⟨hl', hlist⟩ => ⟨hl.append hl', hlist⟩
  · exact .throw _

namespace Model

lemma takes_rule :
    Condenses decodeRule encodeRule fun e => FitsText e.1 ∧ e.2.Fits := by
  refine takes_text.bind fun name l ⟨hl, hname⟩ => ?_
  refine takes_body.bind fun body l' ⟨hl', hbody⟩ => .pure ⟨?_, hname, hbody⟩
  rw [List.append_nil]
  exact hl.append hl'

lemma takes_tokenName : Condenses decodeTokenName encodeTokenName fun e => FitsText e.2 := by
  refine takes_tokenId.bind fun id l ⟨hl, _⟩ => ?_
  refine takes_text.bind fun name l' ⟨hl', hname⟩ => .pure ⟨?_, hname⟩
  rw [List.append_nil]
  exact hl.append hl'

lemma length_encodeRule_pos (e : String × RuleBody RuleId) : 0 < (encodeRule e).length := by
  have h := length_encodeNat_pos e.1.utf8ByteSize
  simp only [encodeRule, encodeText, List.length_append]
  omega

lemma length_encodeTokenName_pos (e : TokenId × String) : 0 < (encodeTokenName e).length := by
  have h := length_encode_tokenId_pos e.1
  simp only [encodeTokenName, List.length_append]
  omega

/-- A model that is read can be written, in no more bytes than were taken. -/
lemma takes_model : Condenses decoder encode Model.Fits := by
  refine (takes_rule.ofMap length_encodeRule_pos).bind fun rules l₁ ⟨hl₁, hrules⟩ => ?_
  refine (takes_ruleId.ofSet length_encode_ruleId_pos).bind fun special l₂ ⟨hl₂, hspecial⟩ => ?_
  refine (takes_ruleId.ofSet length_encode_ruleId_pos).bind fun ignored l₃ ⟨hl₃, hignored⟩ => ?_
  refine (takes_tokenId.ofSet length_encode_tokenId_pos).bind fun tokens l₄ ⟨hl₄, htokens⟩ => ?_
  refine (takes_tokenName.ofMap length_encodeTokenName_pos).bind fun names l₅ ⟨hl₅, hnames⟩ => ?_
  refine .pure ⟨?_, hrules, hspecial, hignored, htokens, hnames⟩
  simp only [encode, List.append_assoc, List.append_nil]
  exact hl₁.append (hl₂.append (hl₃.append (hl₄.append hl₅)))

variable {bytes : Bytes} {m : Model}

lemma decode_eq_ok_iff : decode bytes = .ok m ↔ ∃ rest, decoder.run bytes = .ok (m, rest) := by
  rw [decode]
  cases decoder.run bytes with
  | error e => simp [Except.map]
  | ok r => simp [Except.map, Prod.ext_iff]

/-- **A model is written in the fewest bytes that it can be read from**, and in the only ones of
that number.  What was read and written once is read and written again without a change. -/
theorem encode_shortest (h : decode bytes = .ok m) :
    m.encode.length ≤ bytes.length ∧ (m.encode.length = bytes.length → m.encode = bytes) ∧
      decode m.encode = .ok m := by
  obtain ⟨rest, hrun⟩ := decode_eq_ok_iff.1 h
  obtain ⟨taken, rfl, hshort, hfits⟩ := takes_model _ _ _ hrun
  have hlen := hshort.length_le
  rw [List.length_append]
  refine ⟨by omega, fun heq => ?_, ?_⟩
  · rcases hshort with hsame | hless
    · -- there are as many bytes only if none are left over
      have hnil : rest = [] := List.length_eq_zero_iff.1 (by rw [hsame] at heq; omega)
      rw [hnil, List.append_nil, hsame]
    · omega
  · have hback := decode_encode_append hfits []
    rwa [List.append_nil] at hback

/-- A model with one rule that is read from many more bytes than needed: the name of the rule is
repeated, and so are its tokens, the numbers have groups of zero, and a byte is left over. -/
def lavish : Bytes :=
  [130, 0, 1, 97, 0, 0, 1, 97, 128, 0, 3, 130, 0, 4, 2, 0, 0, 128, 128, 0, 0, 7]

/-- What the model is written as. -/
def modest : Model where
  rules := .ofList [("a", .tokenSet (.ofList [⟨1⟩, ⟨2⟩]))]
  ignoredTokens := ∅
  tokenNames := ∅

/-- The lavish bytes are not the shortest ones. -/
theorem encode_shortest_modest :
    decode lavish = .ok modest ∧ modest.encode.length ≤ lavish.length ∧
      (modest.encode.length = lavish.length → modest.encode = lavish) ∧
      decode modest.encode = .ok modest := by
  have hread : decode lavish = .ok modest := by decide +kernel
  exact ⟨hread, encode_shortest hread⟩

example : modest.encode = [1, 1, 97, 0, 2, 2, 4, 0, 0, 0, 0] := by decide

end Model

end GrammarCompletion
