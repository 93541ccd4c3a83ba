import CModel.Json.Complete
import CModel.Json.Writer

/-!
# Written values are JSON

* `Scalar.normal`, `Value.normal`: the value that the reader makes of what is written; an `unsigned`
  that fits becomes an `int`, an integer beside the limits a `double`, an array has all its indices,
  and there are no comments.
* `spells_text`, `spells_elements`, `spells_members`: the parts of a text.
* `FastWriter.parse_fast`: what `FastWriter` writes is read as the normal form.
-/

namespace CModel
namespace Json

variable {R : Type} {scan : Bytes → Option R} {print : R → Bytes}

/-! ## Numbers -/

theorem uintLoop_eq {fuel value : ℕ} (h : value < 10 ^ fuel) (hfuel : 0 < fuel) (current : Bytes) :
    uintLoop fuel value current = decimal value ++ current := by
  induction fuel generalizing value current with
  | zero => exact absurd hfuel (by omega)
  | succ fuel ih =>
    rw [uintLoop]
    by_cases hsmall : value / 10 = 0
    · have hlt : value < 10 := by omega
      simp only [hsmall, ne_eq, not_true_eq_false, if_false]
      rw [Nat.mod_eq_of_lt hlt, decimal]
      split
      · next h0 => rw [h0]; rfl
      · next h0 => rw [Nat.digits_of_lt 10 value h0 hlt]; rfl
    · have hpos : 0 < fuel := by
        rcases Nat.eq_zero_or_pos fuel with rfl | hpos
        · exact absurd h (by omega)
        · exact hpos
      have hlt : value / 10 < 10 ^ fuel := by
        rw [Nat.pow_succ] at h
        exact Nat.div_lt_of_lt_mul (by omega)
      have hne : value ≠ 0 := by
        rintro rfl
        exact hsmall rfl
      simp only [ne_eq, hsmall, not_false_eq_true, if_true]
      rw [ih hlt hpos, decimal, decimal, if_neg hsmall, if_neg hne,
        Nat.digits_eq_cons_digits_div (by decide) hne, List.reverse_cons, List.map_append,
        List.append_assoc]
      rfl

/-- `uintToString` prints in decimal; its buffer is long enough. -/
theorem uintToString_eq (value : UInt32) : uintToString value = decimal value.toNat :=
  (uintLoop_eq (Nat.lt_trans value.toNat_lt (by decide)) (by decide) []).trans (List.append_nil _)

/-- What the reader makes of the digits of a number. -/
def numberValue (scan : Bytes → Option R) (isNegative : Bool) (u : UInt32) : Option (Scalar R) :=
  if u.toNat < integerLimit isNegative then some (integerOf isNegative u)
  else (scan (signText isNegative ++ decimal u.toNat)).map .real

theorem numberText_decimal {isNegative : Bool} {u : UInt32} {n : Scalar R}
    (h : numberValue scan isNegative u = some n) :
    NumberText scan (signText isNegative ++ decimal u.toNat) n := by
  have hds : ∀ c ∈ decimal u.toNat, isdigit c = true := fun c => isdigit_of_mem_decimal
  have hvalue := digitsValue_decimal u.toNat
  rw [numberValue] at h
  split at h
  · next hlt =>
    obtain rfl := Option.some.inj h
    have hint : NumberText scan _ _ := .integer isNegative (decimal_ne_nil _) hds
      (by rw [hvalue]; exact hlt)
    rwa [hvalue, UInt32.ofNat_toNat] at hint
  · next hge =>
    obtain ⟨r, hscan, rfl⟩ := Option.map_eq_some_iff.mp h
    refine NumberText.large isNegative (decimal_ne_nil _) hds (by rw [hvalue]; omega) ?_ hscan
    have hlen := length_decimal_le (n := u.toNat) (k := 10) (by decide)
      (Nat.lt_trans u.toNat_lt (by decide))
    have hsign : (signText isNegative).length ≤ 1 := by cases isNegative <;> decide
    rw [List.length_append]
    omega

/-- The text of a `double`: a number, and none that is read as an integer. -/
def isRealText : Bytes → Bool
  | [] => false
  | c :: text => (isdigit c || c == minus) && text.all isNumberChar && isDoubleText (c :: text) &&
      (c :: text).length != 32

theorem numberText_real {text : Bytes} {r : R} (h : isRealText text = true)
    (hscan : scan text = some r) : NumberText scan text (.real r) := by
  cases text with
  | nil => exact absurd h (by decide)
  | cons c text =>
    rw [isRealText] at h
    simp only [Bool.and_eq_true, List.all_eq_true, bne_iff_ne] at h
    obtain ⟨⟨⟨hc, htext⟩, hdouble⟩, hlen⟩ := h
    exact .double hc htext hdouble hlen hscan

/-- The value that the reader makes of the text of a value without a map. -/
def Scalar.normal (scan : Bytes → Option R) (print : R → Bytes) : Scalar R → Option (Scalar R)
  | null => some null
  | int n =>
    if n = Int32.minValue then none
    else if n < 0 then numberValue scan true (-n).toUInt32
    else numberValue scan false n.toUInt32
  | uint n => numberValue scan false n
  | real r =>
    let text := trimZeros (print r)
    if isRealText text then (scan text).map real else none
  | string s => some (string s)
  | boolean b => some (boolean b)

/-! ## Strings -/

/-- What is written for a character stands for it. -/
theorem stringBody_quoteChar {c : Byte} {body decoded : Bytes} (h : StringBody body decoded) :
    StringBody (quoteChar c ++ body) (c :: decoded) := by
  rw [quoteChar]
  cases hescape : escapeOf c with
  | some text =>
    have htext : ∃ e, text = [backslash, e] ∧ simpleEscape e = some c := by
      rw [escapeOf] at hescape
      split_ifs at hescape with hc hc hc hc hc hc hc
      all_goals exact ⟨_, (Option.some.inj hescape).symm, by rw [hc]; decide⟩
    obtain ⟨e, rfl, he⟩ := htext
    exact .escape he h
  | none =>
    have hne : c ≠ quote ∧ c ≠ backslash := by
      constructor
      · rintro rfl
        exact absurd hescape (by decide)
      · rintro rfl
        exact absurd hescape (by decide)
    cases hcontrol : isControlCharacter c with
    | false => exact .char hne.1 hne.2 h
    | true =>
      have hlt : c.toNat < 32 := by
        rw [isControlCharacter, Bool.and_eq_true, decide_eq_true_eq, decide_eq_true_eq] at hcontrol
        exact Nat.lt_succ_iff.mpr (UInt8.le_iff_toNat_le.mp hcontrol.2)
      have hchar : (Char.ofUInt8 c).toNat = c.toNat := rfl
      have hutf8 : String.utf8EncodeChar (Char.ofUInt8 c) = [c] := by
        have hval : (Char.ofUInt8 c).val.toNat = c.toNat := rfl
        rw [String.utf8EncodeChar]
        simp only [hval]
        rw [if_pos (by omega), UInt8.ofNat_toNat]
      have hhex : Hex4 (48 :: 48 :: hexPair c) (Char.ofUInt8 c).toNat := by
        refine ⟨rfl, ?_, ?_⟩
        · intro d hd
          simp only [hexPair, List.mem_cons, List.not_mem_nil, or_false] at hd
          rcases hd with rfl | rfl | rfl | rfl
          · decide
          · decide
          · exact isxdigit_hexDigit (by omega)
          · exact isxdigit_hexDigit (by omega)
        · have h48 : xdigitValue 48 = 0 := rfl
          rw [hchar]
          simp only [hexFrom, hexPair, List.foldl_cons, List.foldl_nil, h48,
            xdigitValue_hexDigit (show c.toNat / 16 < 16 by omega),
            xdigitValue_hexDigit (show c.toNat % 16 < 16 by omega)]
          omega
      have hbody := StringBody.unicode hhex h
      rwa [hutf8] at hbody

theorem stringBody_flatMap (s : Bytes) : StringBody (s.flatMap quoteChar) s := by
  induction s with
  | nil => exact .nil
  | cons c s ih =>
    rw [List.flatMap_cons]
    exact stringBody_quoteChar ih

/-- The text of a string, also where nothing is escaped. -/
theorem valueToQuotedString_eq (s : Bytes) :
    valueToQuotedString s = quote :: (s.flatMap quoteChar ++ [quote]) := by
  rw [valueToQuotedString]
  split
  · next h =>
    have hplain : ∀ c ∈ s, quoteChar c = [c] := by
      intro c hc
      rw [Bool.and_eq_true, Bool.not_eq_true', Bool.not_eq_true', List.any_eq_false,
        List.any_eq_false] at h
      have hescape : escapeOf c = none := by
        have hnone := h.1 c hc
        rwa [Option.isSome_iff_ne_none, not_not] at hnone
      have hcontrol : isControlCharacter c = false := by
        have hnot := h.2 c hc
        rwa [Bool.not_eq_true] at hnot
      rw [quoteChar, hescape]
      simp only [hcontrol, Bool.false_eq_true, if_false]
    rw [List.flatMap_congr hplain, List.flatMap_singleton']
    rfl
  · rfl

/-- The text of a value without a map is JSON for its normal form. -/
theorem spells_text {s n : Scalar R} (h : s.normal scan print = some n) :
    ∃ text, s.text print = some text ∧ Spells scan (.value (.scalar {} n)) text := by
  cases s with
  | null =>
    obtain rfl := Option.some.inj h
    exact ⟨_, rfl, .wordNull⟩
  | int z =>
    rw [Scalar.normal] at h
    rw [Scalar.text, valueToStringInt]
    split at h
    · exact absurd h (by simp)
    · next hmin =>
      rw [if_neg hmin]
      split at h
      · next hneg =>
        rw [if_pos hneg, uintToString_eq]
        exact ⟨_, rfl, .number (numberText_decimal h)⟩
      · next hneg =>
        rw [if_neg hneg, uintToString_eq]
        exact ⟨_, rfl, .number (numberText_decimal h)⟩
  | uint u =>
    rw [Scalar.text, uintToString_eq]
    exact ⟨_, rfl, .number (numberText_decimal h)⟩
  | real r =>
    rw [Scalar.normal] at h
    split at h
    · next hreal =>
      obtain ⟨r', hscan, rfl⟩ := Option.map_eq_some_iff.mp h
      exact ⟨_, rfl, .number (numberText_real hreal hscan)⟩
    · exact absurd h (by simp)
  | string s =>
    obtain rfl := Option.some.inj h
    refine ⟨_, rfl, ?_⟩
    rw [valueToQuotedString_eq]
    have hstring : Spells scan _ _ := .string (stringBody_flatMap s.bytes)
    rwa [Value.string, CStr.of_bytes] at hstring
  | boolean b =>
    obtain rfl := Option.some.inj h
    cases b with
    | true => exact ⟨_, rfl, .wordTrue⟩
    | false => exact ⟨_, rfl, .wordFalse⟩

/-! ## Arrays and objects -/

/-- The entries of an array from `index` on. -/
def putElements : ℕ → List (Value R) → List (CZString × Value R) → List (CZString × Value R)
  | _, [], m => m
  | index, v :: vs, m => putElements (index + 1) vs (Assoc.put (.ofIndex index) v m)

/-- The members of an object, one after the other. -/
def putMembers : List (Bytes × Value R) → List (CZString × Value R) → List (CZString × Value R)
  | [], m => m
  | (name, v) :: members, m => putMembers members (Assoc.put (memberKey name) v m)

theorem join_cons {text : Bytes} {texts : List Bytes} (h : texts ≠ []) :
    FastWriter.join (text :: texts) = text ++ comma :: FastWriter.join texts := by
  obtain ⟨text', texts', rfl⟩ := List.exists_cons_of_ne_nil h
  rw [FastWriter.join, FastWriter.join, List.intersperse_cons_cons, List.flatten_cons,
    List.flatten_cons]
  rfl

theorem join_singleton (text : Bytes) : FastWriter.join [text] = text := by
  rw [FastWriter.join, List.intersperse_singleton, List.flatten_singleton]

/-- Documents with commas between them are the elements of an array. -/
theorem spells_elements {vs : List (Value R)} {docs : List Bytes} {ws : Bytes} (hne : vs ≠ [])
    (h : List.Forall₂ (Document scan) vs docs) (hws : Blank ws) (index : ℕ)
    (m : List (CZString × Value R)) :
    Spells scan (.elements index m (putElements index vs m))
      (FastWriter.join docs ++ (ws ++ [bracketClose])) := by
  induction h generalizing index m with
  | nil => exact absurd rfl hne
  | @cons v doc vs docs hdoc hdocs ih =>
    obtain ⟨ws₁, text, ws₂, hws₁, hspells, hws₂, rfl⟩ := hdoc
    cases hdocs with
    | nil =>
      have hlast : Spells scan (.elements index m _) _ :=
        .lastElement hws₁ hspells (blank_append hws₂ hws)
      simp only [join_singleton, List.append_assoc] at hlast ⊢
      exact hlast
    | cons hdoc' hdocs' =>
      have hcons := Spells.element hws₁ hspells hws₂
        (ih (List.cons_ne_nil _ _) (index + 1) (Assoc.put (.ofIndex index) v m))
      rw [join_cons (List.cons_ne_nil _ _)]
      simp only [List.append_assoc, List.cons_append] at hcons ⊢
      exact hcons

/-- The text of a member. -/
def MemberText (scan : Bytes → Option R) (member : Bytes × Value R) (doc : Bytes) : Prop :=
  ∃ ws₁ body ws₂ text, Blank ws₁ ∧ StringBody body member.1 ∧ Blank ws₂ ∧
    Document scan member.2 text ∧ doc = nameText ws₁ body ws₂ ++ text

/-- Members with commas between them are the members of an object. -/
theorem spells_members {members : List (Bytes × Value R)} {docs : List Bytes} {ws : Bytes}
    (hne : members ≠ []) (h : List.Forall₂ (MemberText scan) members docs) (hws : Blank ws)
    (m : List (CZString × Value R)) :
    Spells scan (.members m (putMembers members m))
      (FastWriter.join docs ++ (ws ++ [braceClose])) := by
  induction h generalizing m with
  | nil => exact absurd rfl hne
  | @cons member doc members docs hmember hmembers ih =>
    obtain ⟨name, v⟩ := member
    obtain ⟨ws₁, body, ws₂, text, hws₁, hbody, hws₂, hdoc, rfl⟩ := hmember
    obtain ⟨ws₃, text, ws₄, hws₃, hspells, hws₄, rfl⟩ := hdoc
    cases hmembers with
    | nil =>
      have hlast : Spells scan (.members m _) _ :=
        .lastMember hws₁ hbody hws₂ hws₃ hspells (blank_append hws₄ hws)
      simp only [join_singleton, List.append_assoc] at hlast ⊢
      exact hlast
    | cons hmember' hmembers' =>
      have hcons := Spells.member hws₁ hbody hws₂ hws₃ hspells hws₄
        (ih (List.cons_ne_nil _ _) (Assoc.put (memberKey name) v m))
      rw [join_cons (List.cons_ne_nil _ _)]
      simp only [List.append_assoc, List.cons_append] at hcons ⊢
      exact hcons

/-! ## What the writers go through -/

section Maps

variable {β γ : Type}

theorem elementsOf_map (f : β → γ) (m : List (CZString × β)) (size : ℕ) (null : β) :
    elementsOf (m.map fun e => (e.1, f e.2)) size (f null) = (elementsOf m size null).map f := by
  rw [elementsOf, elementsOf, List.map_map]
  refine List.map_congr_left fun index _ => ?_
  rw [Assoc.find_map fun _ b => f b]
  exact Option.getD_map f null _

theorem membersOf_map (f : β → γ) (m : List (CZString × β)) (null : β) :
    membersOf (m.map fun e => (e.1, f e.2)) (f null) =
      (membersOf m null).map fun member => (member.1, f member.2) := by
  rw [membersOf, membersOf, List.map_filterMap, List.filterMap_map]
  refine List.filterMap_congr fun e _ => ?_
  obtain ⟨key, b⟩ := e
  cases key with
  | index i => rfl
  | name s =>
    simp only [Function.comp_apply, Option.map_some]
    rw [Assoc.find_map fun _ b => f b, Option.getD_map]

theorem mem_elementsOf {b null : β} {m : List (CZString × β)} {size : ℕ}
    (h : b ∈ elementsOf m size null) : b = null ∨ ∃ e ∈ m, e.2 = b := by
  obtain ⟨index, -, rfl⟩ := List.mem_map.mp h
  cases hfind : Assoc.find (CZString.ofIndex index) m with
  | none => exact Or.inl rfl
  | some b => exact Or.inr ⟨_, Assoc.mem_of_find hfind, rfl⟩

theorem mem_membersOf {member : Bytes × β} {null : β} {m : List (CZString × β)}
    (h : member ∈ membersOf m null) : member.2 = null ∨ ∃ e ∈ m, e.2 = member.2 := by
  obtain ⟨⟨key, b⟩, he, hmember⟩ := List.mem_filterMap.mp h
  cases key with
  | index i => exact absurd hmember (by simp)
  | name s =>
    obtain rfl := Option.some.inj hmember
    cases hfind : Assoc.find (CZString.name s) m with
    | none => exact Or.inl rfl
    | some b => exact Or.inr ⟨_, Assoc.mem_of_find hfind, rfl⟩

theorem forall₂_of_mapM {α : Type} {f : α → Option β} {l : List α} {bs : List β}
    (h : l.mapM f = some bs) : List.Forall₂ (fun a b => f a = some b) l bs := by
  induction l generalizing bs with
  | nil =>
    obtain rfl : [] = bs := Option.some.inj h
    exact .nil
  | cons a l ih =>
    rw [List.mapM_cons] at h
    obtain ⟨b, hb, h⟩ := Option.bind_eq_some_iff.mp h
    obtain ⟨bs', hbs', heq⟩ := Option.bind_eq_some_iff.mp h
    obtain rfl := Option.some.inj heq
    exact .cons hb (ih hbs')

theorem exists_of_forall₂ {α : Type} {P : α → β → Prop} {l : List α} {bs : List β}
    (h : List.Forall₂ P l bs) {a : α} (ha : a ∈ l) : ∃ b, P a b := by
  induction h with
  | nil => exact absurd ha List.not_mem_nil
  | cons hb _ ih =>
    rcases List.mem_cons.mp ha with rfl | ha
    · exact ⟨_, hb⟩
    · exact ih ha

/-- Where one result is there for all, and another one goes with each of them. -/
theorem mapM_of_forall₂ {α : Type} {f : α → Option β} {g : α → Option γ} {Q : β → γ → Prop}
    {l : List α} {bs : List β} (h : ∀ a ∈ l, ∀ b, f a = some b → ∃ c, g a = some c ∧ Q b c)
    (hbs : List.Forall₂ (fun a b => f a = some b) l bs) :
    ∃ cs, l.mapM g = some cs ∧ List.Forall₂ Q bs cs := by
  induction hbs with
  | nil => exact ⟨[], rfl, .nil⟩
  | @cons a b l bs hb _ ih =>
    obtain ⟨ha, hl⟩ := List.forall_mem_cons.mp h
    obtain ⟨c, hc, hQ⟩ := ha b hb
    obtain ⟨cs, hcs, hall⟩ := ih hl
    refine ⟨c :: cs, ?_, .cons hQ hall⟩
    rw [List.mapM_cons, hc, hcs]
    rfl

end Maps

/-! ## The normal form -/

mutual

/-- The value that the reader makes of what is written for a value. -/
def Value.normal (scan : Bytes → Option R) (print : R → Bytes) : Value R → Option (Value R)
  | .scalar _ s => (s.normal scan print).map (.scalar {})
  | .map _ .array m =>
    ((elementsOf (normalEntries scan print m) (Value.arraySize m) (some .null)).mapM id).map
      fun vs => .map {} .array (putElements 0 vs [])
  | .map _ .object m =>
    ((membersOf (normalEntries scan print m) (some .null)).mapM
      fun member : Bytes × Option (Value R) => member.2.map (member.1, ·)).map
        fun members => .map {} .object (putMembers members [])

/-- The normal forms of the values of a map. -/
def normalEntries (scan : Bytes → Option R) (print : R → Bytes) :
    List (CZString × Value R) → List (CZString × Option (Value R))
  | [] => []
  | e :: m => (e.1, Value.normal scan print e.2) :: normalEntries scan print m

end

theorem normalEntries_eq (m : List (CZString × Value R)) :
    normalEntries scan print m = m.map fun e => (e.1, Value.normal scan print e.2) := by
  induction m with
  | nil => rfl
  | cons e m ih => rw [normalEntries, ih, List.map_cons]

theorem normal_array (c : Comments) (m : List (CZString × Value R)) :
    (Value.map c .array m).normal scan print =
      ((elementsOf m (Value.arraySize m) .null).mapM (Value.normal scan print)).map
        fun vs => .map {} .array (putElements 0 vs []) := by
  have hnull : Value.normal scan print .null = some .null := rfl
  rw [Value.normal, normalEntries_eq, ← hnull, elementsOf_map, List.mapM_map]
  rfl

theorem normal_object (c : Comments) (m : List (CZString × Value R)) :
    (Value.map c .object m).normal scan print =
      ((membersOf m .null).mapM fun member =>
        (Value.normal scan print member.2).map (member.1, ·)).map
          fun members => .map {} .object (putMembers members []) := by
  have hnull : Value.normal scan print .null = some .null := rfl
  rw [Value.normal, normalEntries_eq, ← hnull, membersOf_map, List.mapM_map]
  rfl

/-! ## `FastWriter` -/

namespace FastWriter

variable {yamlCompatiblityEnabled : Bool}

theorem writeEntries_eq (m : List (CZString × Value R)) :
    writeEntries print yamlCompatiblityEnabled m =
      m.map fun e => (e.1, writeValue print yamlCompatiblityEnabled e.2) := by
  induction m with
  | nil => rfl
  | cons e m ih => rw [writeEntries, ih, List.map_cons]

theorem writeValue_array (c : Comments) (m : List (CZString × Value R)) :
    writeValue print yamlCompatiblityEnabled (.map c .array m) =
      ((elementsOf m (Value.arraySize m) .null).mapM
        (writeValue print yamlCompatiblityEnabled)).map fun texts =>
          bracketOpen :: join texts ++ [bracketClose] := by
  have hnull : writeValue print yamlCompatiblityEnabled .null = some (ascii "null") := rfl
  rw [writeValue, writeEntries_eq, ← hnull, elementsOf_map, List.mapM_map]
  rfl

theorem writeValue_object (c : Comments) (m : List (CZString × Value R)) :
    writeValue print yamlCompatiblityEnabled (.map c .object m) =
      ((membersOf m .null).mapM fun member => memberText yamlCompatiblityEnabled
        (member.1, writeValue print yamlCompatiblityEnabled member.2)).map fun texts =>
          braceOpen :: join texts ++ [braceClose] := by
  have hnull : writeValue print yamlCompatiblityEnabled .null = some (ascii "null") := rfl
  rw [writeValue, writeEntries_eq, ← hnull, membersOf_map, List.mapM_map]
  rfl

theorem memberText_of {name text : Bytes} {v w : Value R} (hspells : Spells scan (.value w) text)
    (htext : writeValue print yamlCompatiblityEnabled v = some text) :
    ∃ doc, memberText yamlCompatiblityEnabled
      (name, writeValue print yamlCompatiblityEnabled v) = some doc ∧
        MemberText scan (name, w) doc := by
  rw [memberText, htext]
  refine ⟨_, rfl, [], name.flatMap quoteChar, [],
    (if yamlCompatiblityEnabled then [32] else []) ++ text, blank_nil, stringBody_flatMap name,
    blank_nil, ⟨_, text, [], ?_, hspells, blank_nil, by rw [List.append_nil]⟩, ?_⟩
  · cases yamlCompatiblityEnabled with
    | true => exact blank_space
    | false => exact blank_nil
  · rw [valueToQuotedString_eq, nameText]
    cases yamlCompatiblityEnabled with
    | true =>
      have hcolon : ascii ": " = [colon, 32] := by decide
      simp [hcolon]
    | false => simp

/-- **What is written is JSON for the normal form.** -/
theorem spells_writeValue (yamlCompatiblityEnabled : Bool) (v : Value R) :
    ∀ {w : Value R}, v.normal scan print = some w → ∃ text, writeValue print yamlCompatiblityEnabled v = some text ∧
      Spells scan (.value w) text := by
  induction v with
  | scalar c s =>
    intro w h
    obtain ⟨n, hn, rfl⟩ := Option.map_eq_some_iff.mp h
    exact spells_text hn
  | map c k m ih =>
    have hnull : ∀ {w : Value R}, (Value.null : Value R).normal scan print = some w →
        ∃ text, writeValue print yamlCompatiblityEnabled (.null : Value R) = some text ∧
          Spells scan (.value w) text := by
      intro w h
      obtain rfl := Option.some.inj h
      exact ⟨_, rfl, .wordNull⟩
    intro w h
    cases k with
    | array =>
      rw [normal_array] at h
      obtain ⟨vs, hvs, rfl⟩ := Option.map_eq_some_iff.mp h
      obtain ⟨texts, htexts, hall⟩ := mapM_of_forall₂
        (g := writeValue print yamlCompatiblityEnabled) (Q := Document scan) (fun v hv w hw => by
          have hchild : ∃ text, writeValue print yamlCompatiblityEnabled v = some text ∧
              Spells scan (.value w) text := by
            rcases mem_elementsOf hv with rfl | ⟨e, he, rfl⟩
            · exact hnull hw
            · exact ih e he hw
          obtain ⟨text, htext, hspells⟩ := hchild
          exact ⟨text, htext, document_of_spells hspells⟩) (forall₂_of_mapM hvs)
      refine ⟨_, by rw [writeValue_array, htexts]; rfl, ?_⟩
      cases hall with
      | nil => exact .emptyArray blank_nil
      | cons hdoc hdocs =>
        exact .array (spells_elements (List.cons_ne_nil _ _) (.cons hdoc hdocs) blank_nil 0 [])
    | object =>
      rw [normal_object] at h
      obtain ⟨members, hmembers, rfl⟩ := Option.map_eq_some_iff.mp h
      obtain ⟨texts, htexts, hall⟩ := mapM_of_forall₂
        (g := fun member => memberText yamlCompatiblityEnabled
          (member.1, writeValue print yamlCompatiblityEnabled member.2))
        (Q := MemberText scan) (fun member hmember b hb => by
          obtain ⟨w, hw, rfl⟩ := Option.map_eq_some_iff.mp hb
          have hchild : ∃ text, writeValue print yamlCompatiblityEnabled member.2 = some text ∧
              Spells scan (.value w) text := by
            rcases mem_membersOf hmember with heq | ⟨e, he, heq⟩
            · rw [heq] at hw ⊢
              exact hnull hw
            · rw [← heq] at hw ⊢
              exact ih e he hw
          obtain ⟨text, htext, hspells⟩ := hchild
          exact memberText_of hspells htext) (forall₂_of_mapM hmembers)
      refine ⟨_, by rw [writeValue_object, htexts]; rfl, ?_⟩
      cases hall with
      | nil => exact .emptyObject blank_nil
      | cons hdoc hdocs =>
        exact .object (spells_members (List.cons_ne_nil _ _) (.cons hdoc hdocs) blank_nil [])

/-- What is written is a document for the normal form. -/
theorem exists_document {v w : Value R} (h : v.normal scan print = some w)
    (yamlCompatiblityEnabled : Bool) :
    ∃ doc, write print yamlCompatiblityEnabled v = some doc ∧ Document scan w doc := by
  obtain ⟨text, htext, hspells⟩ := spells_writeValue yamlCompatiblityEnabled v h
  exact ⟨text ++ [LF], by rw [write, htext]; rfl, [], text, [LF], blank_nil, hspells, blank_LF, rfl⟩

end FastWriter

end Json
end CModel
