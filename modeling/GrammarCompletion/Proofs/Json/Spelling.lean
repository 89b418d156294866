/-
# Texts that spell JSON values

A JSON value can be written in many ways: characters of a string stand for themselves or are escaped,
and there may be blanks between any two tokens.  `Json.Spells d part text` says that a text is one of
these ways to write a part of a value, with at most `d` arrays and objects inside each other.  Only
strings, arrays and objects are considered.

A text that spells a value is read back as that value, as long as the containers do not lie too deep
inside each other (`Spells.reads`).  The induction is on the text; what it says of the items of an
array or the members of an object includes the bracket that closes them, as the reader keeps them
open until then.  The object that is a whole text is read differently, since members with other names
are passed over, and is treated on its own (`read_of_spells`).
-/
import GrammarCompletion.Json.Reader
import Mathlib.Tactic.Common

namespace GrammarCompletion.Json

/-! ## Spellings -/

/-- The code unit that a row of hexadecimal digits denotes. -/
def unitOf? (digits : List Char) : Option Nat :=
  digits.foldlM (fun u c => (hexDigit? c).map fun d => 16 * u + d) 0

/-- The ways to write a character within a string. -/
inductive SpellsChar : Char → List Char → Prop
  | plain {c : Char} (hc : ' ' ≤ c) (hquote : c ≠ '"') (hback : c ≠ '\\') : SpellsChar c [c]
  | short {c e : Char} (h : shortEscape? e = some c) : SpellsChar c ['\\', e]
  | unit {c : Char} {digits : List Char} (hlen : digits.length = 4)
      (h : unitOf? digits = some c.toNat) : SpellsChar c ('\\' :: 'u' :: digits)
  | pair {digits digits' : List Char} {lead trail : Nat} (hlen : digits.length = 4)
      (hlen' : digits'.length = 4) (h : unitOf? digits = some lead)
      (h' : unitOf? digits' = some trail) (hlead : isLeadSurrogate lead = true)
      (htrail : isTrailSurrogate trail = true) :
      SpellsChar (pairChar lead trail) ('\\' :: 'u' :: digits ++ '\\' :: 'u' :: digits')

/-- The ways to write characters in a row. -/
inductive SpellsChars : List Char → List Char → Prop
  | nil : SpellsChars [] []
  | cons {c : Char} {l t t' : List Char} (hc : SpellsChar c t) (h : SpellsChars l t') :
      SpellsChars (c :: l) (t ++ t')

/-- The ways to write a string. -/
def SpellsString (s : String) (text : List Char) : Prop :=
  ∃ body, SpellsChars s.toList body ∧ text = '"' :: body ++ ['"']

/-- Characters that need no escape can stand for themselves. -/
lemma spellsString_self {s : String}
    (h : s.toList.all (fun c => ' ' ≤ c ∧ c ≠ '"' ∧ c ≠ '\\') = true) :
    SpellsString s ('"' :: s.toList ++ ['"']) := by
  refine ⟨s.toList, ?_, rfl⟩
  generalize s.toList = l at h
  induction l with
  | nil => exact .nil
  | cons c l ih =>
    rw [List.all_cons, Bool.and_eq_true, decide_eq_true_eq] at h
    obtain ⟨⟨hc, hquote, hback⟩, hl⟩ := h
    exact .cons (.plain hc hquote hback) (ih hl)

/-- A text of characters that may stand between any two tokens. -/
def Blank (text : List Char) : Prop := ∀ c ∈ text, isSpace c = true

instance (text : List Char) : Decidable (Blank text) :=
  decidable_of_iff (text.all isSpace = true) List.all_eq_true

/-- The parts of a value that are written in a row. -/
inductive Part where
  /-- A value. -/
  | value (v : Json)
  /-- An item of an array, with the blanks around it. -/
  | item (v : Json)
  /-- The items of an array. -/
  | items (l : List Json)
  /-- A member of an object, with the blanks around it. -/
  | member (name : String) (v : Json)
  /-- The members of an object. -/
  | members (l : List (String × Json))

/-- The ways to write a part of a value, with at most `d` arrays and objects inside each other. -/
inductive Spells : (d : Nat) → Part → List Char → Prop
  | string {d : Nat} {s : String} {t : List Char} (h : SpellsString s t) :
      Spells d (.value (.string s)) t
  | array {d : Nat} {l : List Json} {t : List Char} (h : Spells d (.items l) t) :
      Spells (d + 1) (.value (.array l none)) ('[' :: t ++ [']'])
  | object {d : Nat} {l : List (String × Json)} {t : List Char} (h : Spells d (.members l) t) :
      Spells (d + 1) (.value (.object l none)) ('{' :: t ++ ['}'])
  | item {d : Nat} {v : Json} {b t b' : List Char} (hb : Blank b) (h : Spells d (.value v) t)
      (hb' : Blank b') : Spells d (.item v) (b ++ t ++ b')
  | noItem {d : Nat} {b : List Char} (hb : Blank b) : Spells d (.items []) b
  | oneItem {d : Nat} {v : Json} {t : List Char} (h : Spells d (.item v) t) :
      Spells d (.items [v]) t
  | moreItems {d : Nat} {v w : Json} {l : List Json} {t t' : List Char} (h : Spells d (.item v) t)
      (hl : Spells d (.items (w :: l)) t') : Spells d (.items (v :: w :: l)) (t ++ ',' :: t')
  | member {d : Nat} {name : String} {v : Json} {b n b' t : List Char} (hb : Blank b)
      (hn : SpellsString name n) (hb' : Blank b') (h : Spells d (.item v) t) :
      Spells d (.member name v) (b ++ n ++ b' ++ ':' :: t)
  | noMember {d : Nat} {b : List Char} (hb : Blank b) : Spells d (.members []) b
  | oneMember {d : Nat} {name : String} {v : Json} {t : List Char}
      (h : Spells d (.member name v) t) : Spells d (.members [(name, v)]) t
  | moreMembers {d : Nat} {name : String} {v : Json} {m : String × Json}
      {l : List (String × Json)} {t t' : List Char} (h : Spells d (.member name v) t)
      (hl : Spells d (.members (m :: l)) t') :
      Spells d (.members ((name, v) :: m :: l)) (t ++ ',' :: t')

namespace Reader

variable {known : String → Bool} {stack rest : List Frame} {acc : List Char} {c : Char}
  {l t text digits : List Char} {s name : String} {v : Json} {mode : Mode} {d : Nat}

/-! ## Blanks -/

/-- A mode in which blanks do not matter. -/
inductive Idle : Mode → Prop
  | value (c : Bool) : Idle (.value c)
  | member (c : Bool) : Idle (.member c)
  | colon : Idle .colon
  | separator : Idle .separator
  | done (v : Json) : Idle (.done v)

lemma step_space (h : Idle mode) (hc : isSpace c = true) :
    step known ⟨stack, mode⟩ c = ⟨stack, mode⟩ := by
  cases h <;> simp [step, stepBetween, separate, hc]

lemma run_blank (h : Idle mode) (ht : Blank t) : run known ⟨stack, mode⟩ t = ⟨stack, mode⟩ := by
  induction t with
  | nil => rfl
  | cons c t ih =>
    obtain ⟨hc, ht⟩ := List.forall_mem_cons.1 ht
    rw [run_cons, step_space h hc, ih ht]

/-! ## Strings -/

/-- A hexadecimal digit takes one byte. -/
lemma utf8Size_of_hexDigit? {n : Nat} (h : hexDigit? c = some n) : c.utf8Size = 1 := by
  have hle : c ≤ 'f' := by
    unfold hexDigit? at h
    split at h
    · next hc => exact Char.le_trans (by simpa using hc : '0' ≤ c ∧ c ≤ '9').2 (by decide)
    · split at h
      · next hc => exact (by simpa using hc : 'a' ≤ c ∧ c ≤ 'f').2
      · split at h
        · next hc => exact Char.le_trans (by simpa using hc : 'A' ≤ c ∧ c ≤ 'F').2 (by decide)
        · cases h
  exact Char.utf8Size_eq_one_iff.2 (UInt32.le_trans hle (by decide))

/-- Four hexadecimal digits are taken in as the code unit that they denote. -/
lemma run_digits {unit : Nat} {lead : Option Nat} (hlen : digits.length = 4)
    (h : unitOf? digits = some unit) :
    run known ⟨stack, .string acc (.hex 0 (some 0) lead)⟩ digits =
      acceptUnit stack acc unit lead := by
  match digits, hlen with
  | [c₁, c₂, c₃, c₄], _ =>
    simp only [unitOf?, List.foldlM_cons, List.foldlM_nil, Option.bind_eq_bind,
      Option.bind_eq_some_iff, Option.map_eq_some_iff, Option.pure_def, Option.some.injEq] at h
    obtain ⟨_, ⟨d₁, h₁, rfl⟩, _, ⟨d₂, h₂, rfl⟩, _, ⟨d₃, h₃, rfl⟩, _, ⟨d₄, h₄, rfl⟩, rfl⟩ := h
    simp [step, stepString, stepHex, h₁, h₂, h₃, h₄, utf8Size_of_hexDigit? h₁,
      utf8Size_of_hexDigit? h₂, utf8Size_of_hexDigit? h₃, utf8Size_of_hexDigit? h₄]

lemma run_unit {unit : Nat} (hlen : digits.length = 4) (h : unitOf? digits = some unit) :
    run known ⟨stack, .string acc .none⟩ ('\\' :: 'u' :: digits) = acceptUnit stack acc unit none :=
  run_digits hlen h

lemma run_trail {unit lead : Nat} (hlen : digits.length = 4) (h : unitOf? digits = some unit) :
    run known ⟨stack, .string acc (.lead lead)⟩ ('\\' :: 'u' :: digits) =
      acceptUnit stack acc unit (some lead) :=
  run_digits hlen h

/-- A character is not half a surrogate pair. -/
lemma acceptUnit_char (h : Frame.areaPassed stack = false) :
    acceptUnit stack acc c.toNat none = ⟨stack, .string (c :: acc) .none⟩ := by
  have hvalid : c.toNat < 0xd800 ∨ 0xdfff < c.toNat ∧ c.toNat < 0x110000 := c.valid
  have hlead : isLeadSurrogate c.toNat = false := by
    simp only [isLeadSurrogate, Bool.and_eq_false_imp, decide_eq_true_eq, decide_eq_false_iff_not]
    omega
  have htrail : isTrailSurrogate c.toNat = false := by
    simp only [isTrailSurrogate, Bool.and_eq_false_imp, decide_eq_true_eq, decide_eq_false_iff_not]
    omega
  simp [acceptUnit, h, hlead, htrail]

lemma acceptUnit_passed {unit : Nat} {lead : Option Nat} (h : Frame.areaPassed stack = true) :
    acceptUnit stack acc unit lead = ⟨stack, .string acc .none⟩ := by
  simp [acceptUnit, h]

/-- However a character is written, it is added to those before it; where strings are passed over,
it does not matter. -/
lemma run_char (known : String → Bool) (stack : List Frame) (acc : List Char)
    (h : SpellsChar c t) : ∃ acc', run known ⟨stack, .string acc .none⟩ t =
    ⟨stack, .string acc' .none⟩ ∧ (Frame.areaPassed stack = false → acc' = c :: acc) := by
  cases h with
  | plain hc hquote hback =>
    have hlow : ¬ c < ' ' := Char.not_lt.2 hc
    exact ⟨c :: acc, by simp [step, stepString, hquote, hback, hlow], fun _ => rfl⟩
  | @short _ e h =>
    have hu : e ≠ 'u' := by
      rintro rfl
      exact Option.some_ne_none c (h.symm.trans (by decide))
    exact ⟨c :: acc, by simp [step, stepString, hu, h], fun _ => rfl⟩
  | unit hlen h =>
    rw [run_unit hlen h]
    cases hp : Frame.areaPassed stack with
    | true => exact ⟨acc, acceptUnit_passed hp, nofun⟩
    | false => exact ⟨c :: acc, acceptUnit_char hp, fun _ => rfl⟩
  | @pair digits digits' lead trail hlen hlen' h h' hlead htrail =>
    rw [run_append, run_unit hlen h]
    cases hp : Frame.areaPassed stack with
    | true => exact ⟨acc, by rw [acceptUnit_passed hp, run_unit hlen' h', acceptUnit_passed hp], nofun⟩
    | false =>
      have hfirst : acceptUnit stack acc lead none = ⟨stack, .string acc (.lead lead)⟩ := by
        simp [acceptUnit, hp, hlead]
      refine ⟨pairChar lead trail :: acc, ?_, fun _ => rfl⟩
      rw [hfirst, run_trail hlen' h']
      simp [acceptUnit, hp, htrail]

lemma run_chars (known : String → Bool) (stack : List Frame) (acc : List Char)
    (h : SpellsChars l t) : ∃ acc', run known ⟨stack, .string acc .none⟩ t =
    ⟨stack, .string acc' .none⟩ ∧ (Frame.areaPassed stack = false → acc' = l.reverse ++ acc) := by
  induction h generalizing acc with
  | nil => exact ⟨acc, rfl, fun _ => rfl⟩
  | cons hc _ ih =>
    obtain ⟨acc₁, h₁, hacc₁⟩ := run_char known stack acc hc
    obtain ⟨acc₂, h₂, hacc₂⟩ := ih acc₁
    refine ⟨acc₂, by rw [run_append, h₁, h₂], fun hp => ?_⟩
    rw [hacc₂ hp, hacc₁ hp]
    simp

/-- A string is closed after all of its characters were read. -/
lemma run_string (h : SpellsChars s.toList t) (hp : Frame.areaPassed stack = false) :
    run known ⟨stack, .string [] .none⟩ (t ++ ['"']) = closeString known s stack := by
  obtain ⟨acc, hrun, hacc⟩ := run_chars known stack [] h
  rw [run_append, hrun, hacc hp]
  simp [step, stepString]

/-- The value of a member that is passed over. -/
lemma run_passed {members : List (String × Json)} {b : Bool} (h : SpellsString s text) :
    run known ⟨[.passing members], .value b⟩ text = ⟨[.object members], .separator⟩ := by
  obtain ⟨body, hbody, rfl⟩ := h
  obtain ⟨acc, hrun, -⟩ :=
    run_chars known [.passing members] [] hbody
  have hstart : step known ⟨[.passing members], .value b⟩ '"' =
      ⟨[.passing members], .string [] .none⟩ := by
    cases b <;> rfl
  rw [List.cons_append, run_cons, hstart, run_append, hrun]
  simp [step, stepString, closeString, deliver]

/-! ## Values -/

/-- A container into which the next value is put. -/
inductive Receives : List Frame → Prop
  | array (items : List Json) (stack : List Frame) : Receives (.array items :: stack)
  | member (members : List (String × Json)) (name : String) (stack : List Frame) :
      Receives (.member members name :: stack)

lemma Receives.not_passed (h : Receives stack) : Frame.areaPassed stack = false := by
  cases h <;> rfl

lemma Receives.closeString (h : Receives stack) :
    closeString known s stack = deliver (.string s) stack := by
  cases h <;> rfl

lemma Receives.deliver (h : Receives stack) :
    ∃ frames, deliver v stack = ⟨frames, .separator⟩ := by
  cases h <;> exact ⟨_, rfl⟩

lemma Receives.ne_nil (h : Receives stack) : stack ≠ [] := by
  cases h <;> exact List.cons_ne_nil _ _

/-- The name of a member is read up to the colon, blanks included. -/
lemma run_name {b n b' : List Char} {members : List (String × Json)} {c : Bool} (hb : Blank b)
    (hn : SpellsString name n) (hb' : Blank b') :
    run known ⟨.object members :: stack, .member c⟩ (b ++ n ++ b' ++ [':']) =
      ⟨(closeString known name (.object members :: stack)).stack, .value false⟩ := by
  obtain ⟨body, hbody, rfl⟩ := hn
  have hstart : step known ⟨.object members :: stack, .member c⟩ '"' =
      ⟨.object members :: stack, .string [] .none⟩ := by
    cases c <;> rfl
  have hcolon : ∃ frames, closeString known name (.object members :: stack) = ⟨frames, .colon⟩ := by
    cases stack with
    | nil => exact ⟨_, rfl⟩
    | cons f stack => exact ⟨_, rfl⟩
  obtain ⟨frames, hframes⟩ := hcolon
  have hquoted : run known ⟨.object members :: stack, .member c⟩ ('"' :: body ++ ['"']) =
      ⟨frames, .colon⟩ := by
    rw [List.cons_append, run_cons, hstart, run_string hbody rfl, hframes]
  rw [run_append, run_append, run_append, run_blank (.member c) hb, hquoted, run_blank .colon hb',
    hframes]
  rfl

/-- What it means that a text that spells a part is read. -/
def Reads (known : String → Bool) (d : Nat) (text : List Char) : Part → Prop
  | .value v => ∀ stack b, Receives stack → stack.length + d ≤ depthLimit →
      run known ⟨stack, .value b⟩ text = deliver v stack
  | .item v => ∀ stack b, Receives stack → stack.length + d ≤ depthLimit →
      run known ⟨stack, .value b⟩ text = deliver v stack
  | .items l => ∀ items stack b, (l = [] → b = true) → stack.length + 1 + d ≤ depthLimit →
      run known ⟨.array items :: stack, .value b⟩ (text ++ [']']) =
        deliver (.array (items.reverse ++ l) none) stack
  | .member name v => ∀ members stack b, stack ≠ [] → stack.length + 1 + d ≤ depthLimit →
      run known ⟨.object members :: stack, .member b⟩ text =
        ⟨.object ((name, v) :: members) :: stack, .separator⟩
  | .members l => ∀ members stack b, stack ≠ [] → (l = [] → b = true) →
      stack.length + 1 + d ≤ depthLimit →
        run known ⟨.object members :: stack, .member b⟩ (text ++ ['}']) =
          deliver (.object (members.reverse ++ l) none) stack

end Reader

open Reader

variable {known : String → Bool} {d : Nat} {text : List Char}

/-- **A text that spells a part of a value is read as that part.** -/
theorem Spells.reads {part : Part} (h : Spells d part text) : Reads known d text part := by
  induction h with
  | @string d s t h =>
    intro stack b hstack _
    obtain ⟨body, hbody, rfl⟩ := h
    have hstart : step known ⟨stack, .value b⟩ '"' = ⟨stack, .string [] .none⟩ := by
      cases b <;> rfl
    rw [List.cons_append, run_cons, hstart, run_string hbody hstack.not_passed, hstack.closeString]
  | array h ih =>
    intro stack b hstack hdepth
    have hopen : step known ⟨stack, .value b⟩ '[' = ⟨.array [] :: stack, .value true⟩ := by
      have hroom : stack.length < depthLimit := by omega
      have hstart : step known ⟨stack, .value b⟩ '[' = openArray stack := by cases b <;> rfl
      simp [hstart, openArray, hstack.not_passed, hroom]
    rw [List.cons_append, run_cons, hopen, ih [] stack true (fun _ => rfl) (by omega)]
    rfl
  | object h ih =>
    intro stack b hstack hdepth
    have hopen : step known ⟨stack, .value b⟩ '{' = ⟨.object [] :: stack, .member true⟩ := by
      have hroom : stack.length < depthLimit := by omega
      have hstart : step known ⟨stack, .value b⟩ '{' = openObject stack := by cases b <;> rfl
      simp [hstart, openObject, hstack.not_passed, hroom]
    rw [List.cons_append, run_cons, hopen, ih [] stack true hstack.ne_nil (fun _ => rfl) (by omega)]
    rfl
  | @item d v b₁ t b₂ hb h hb' ih =>
    intro stack b hstack hdepth
    have hvalue := ih stack b hstack hdepth
    obtain ⟨frames, hframes⟩ := hstack.deliver (v := v)
    rw [run_append, run_append, run_blank (.value b) hb, hvalue, hframes, run_blank .separator hb']
  | noItem hb =>
    intro items stack b hclosable _
    obtain rfl := hclosable rfl
    rw [run_append, run_blank (.value true) hb, List.append_nil]
    rfl
  | oneItem h ih =>
    intro items stack b _ hdepth
    rw [run_append, ih (.array items :: stack) b (.array items stack) hdepth, deliver,
      ← List.reverse_cons]
    rfl
  | @moreItems d v w l t t' h hl ih ihl =>
    intro items stack b _ hdepth
    have hcomma : step known ⟨.array (v :: items) :: stack, .separator⟩ ',' =
        ⟨.array (v :: items) :: stack, .value false⟩ := rfl
    rw [List.append_assoc, run_append, ih (.array items :: stack) b (.array items stack) hdepth,
      deliver, List.cons_append, run_cons, hcomma, ihl (v :: items) stack false nofun hdepth]
    simp
  | @member d name v b₁ n b₂ t hb hn hb' h ih =>
    intro members stack b hstack hdepth
    have hname : closeString known name (.object members :: stack) =
        ⟨.member members name :: stack, .colon⟩ := by
      cases stack with
      | nil => exact absurd rfl hstack
      | cons f stack => rfl
    have hvalue := ih (.member members name :: stack) false (.member members name stack) hdepth
    rw [List.append_cons, run_append, run_name hb hn hb', hname, hvalue]
    rfl
  | noMember hb =>
    intro members stack b _ hclosable _
    obtain rfl := hclosable rfl
    rw [run_append, run_blank (.member true) hb, List.append_nil]
    rfl
  | oneMember h ih =>
    intro members stack b hstack _ hdepth
    rw [run_append, ih members stack b hstack hdepth, ← List.reverse_cons]
    rfl
  | @moreMembers d name v m l t t' h hl ih ihl =>
    intro members stack b hstack _ hdepth
    have hcomma : step known ⟨.object ((name, v) :: members) :: stack, .separator⟩ ',' =
        ⟨.object ((name, v) :: members) :: stack, .member false⟩ := rfl
    rw [List.append_assoc, run_append, ih members stack b hstack hdepth, List.cons_append, run_cons,
      hcomma, ihl ((name, v) :: members) stack false hstack nofun hdepth]
    simp

/-! ## Whole texts -/

/-- A member of the object that is the whole text is kept if its name is known. -/
def keep (known : String → Bool) (name : String) (v : Json) (members : List (String × Json)) :
    List (String × Json) :=
  if known name then (name, v) :: members else members

/-- A member of the object that is the whole text, which is a string if it is passed over. -/
lemma run_outerMember {name : String} {v : Json} {members : List (String × Json)} {c : Bool}
    (h : Spells d (.member name v) text) (hd : d < depthLimit)
    (hv : known name = false → ∃ s, v = .string s) :
    run known ⟨[.object members], .member c⟩ text =
      ⟨[.object (keep known name v members)], .separator⟩ := by
  cases h with
  | @member _ _ _ b n b' t hb hn hb' h =>
    cases hknown : known name with
    | true =>
      have hname : closeString known name [.object members] = ⟨[.member members name], .colon⟩ := by
        simp [closeString, hknown]
      rw [List.append_cons, run_append, run_name hb hn hb', hname,
        h.reads [.member members name] false (.member members name []) (by simp; omega), keep,
        if_pos hknown]
      rfl
    | false =>
      have hname : closeString known name [.object members] = ⟨[.passing members], .colon⟩ := by
        simp [closeString, hknown]
      obtain ⟨s, rfl⟩ := hv hknown
      cases h with
      | item hb₁ h hb₂ =>
        cases h with
        | string h =>
          rw [List.append_cons, run_append, run_name hb hn hb', hname, run_append, run_append,
            run_blank (.value false) hb₁, run_passed h, run_blank .separator hb₂, keep,
            if_neg (by simp [hknown])]

/-- The members of the object that is the whole text, up to its end. -/
lemma run_outerMembers {l : List (String × Json)} (h : Spells d (.members l) text)
    (hd : d < depthLimit) (hv : ∀ m ∈ l, known m.1 = false → ∃ s, m.2 = .string s)
    (members : List (String × Json)) {c : Bool} (hc : l = [] → c = true) :
    run known ⟨[.object members], .member c⟩ (text ++ ['}']) =
      ⟨[], .done (.object (members.reverse ++ l.filter fun m => known m.1) none)⟩ := by
  induction l generalizing text members c with
  | nil =>
    obtain rfl := hc rfl
    cases h with
    | noMember hb =>
      rw [run_append, run_blank (.member true) hb, List.filter_nil, List.append_nil]
      rfl
  | cons m l ih =>
    obtain ⟨hm, hl⟩ := List.forall_mem_cons.1 hv
    have hkeep : ∀ name v, (keep known name v members).reverse ++ l.filter (fun m => known m.1) =
        members.reverse ++ ((name, v) :: l).filter fun m => known m.1 := by
      intro name v
      rw [keep, List.filter_cons]
      split <;> simp
    cases h with
    | @oneMember _ name v _ h =>
      rw [run_append, run_outerMember h hd hm, ← hkeep, List.filter_nil, List.append_nil]
      rfl
    | @moreMembers _ name v w l t t' h hl' =>
      have hcomma : step known ⟨[.object (keep known name v members)], .separator⟩ ',' =
          ⟨[.object (keep known name v members)], .member false⟩ := rfl
      rw [List.append_assoc, run_append, run_outerMember h hd hm, List.cons_append, run_cons,
        hcomma, ih hl' hl _ nofun, hkeep]

/-- **A text that spells an object is read as that object**, without the members whose names are not
known, if these are strings and no container lies too deep. -/
theorem read_of_spells {l : List (String × Json)} {s : String}
    (h : Spells d (.item (.object l none)) s.toList) (hd : d ≤ depthLimit)
    (hv : ∀ m ∈ l, known m.1 = false → ∃ s, m.2 = .string s) :
    read known s = ⟨.object (l.filter fun m => known m.1) none, none⟩ := by
  have hrun : run known initial s.toList =
      ⟨[], .done (.object (l.filter fun m => known m.1) none)⟩ := by
    generalize s.toList = text at h
    cases h with
    | item hb h hb' =>
      cases h with
      | object h =>
        have hopen : step known ⟨[], .value false⟩ '{' = ⟨[.object []], .member true⟩ := rfl
        have hmembers := run_outerMembers h hd hv [] fun _ => rfl
        rw [initial, run_append, run_append, run_blank (.value false) hb, List.cons_append, run_cons,
          hopen, hmembers, run_blank (.done _) hb']
        rfl
  rw [read, hrun]
  rfl

end GrammarCompletion.Json
