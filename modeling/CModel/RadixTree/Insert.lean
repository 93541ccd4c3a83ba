import CModel.RadixTree.Tree
import Mathlib.Algebra.Order.Ring.Int
import Mathlib.Tactic.IntervalCases

/-!
# The radix tree as a write-once map

* `Shape`: items are at the bottom only, nodes above it only.
* `entryAt`, `Head.entry`: the map that a tree stands for, and `radixTreeLookup_eq`: a lookup reads
  it.
* `insertAt_spec`: what the descent of an insertion does to the map, whatever allocations fail.
* `growTree_spec`: new nodes on top leave the map alone.
* `Reachable`, `Reachable.wellFormed`: every run of insertions keeps the shape.
* `radixTreeInsert_refines`: **an insertion is one into a write-once map.**
-/

namespace CModel
namespace RadixTree

variable {α : Type}

/-! ## The map of a tree -/

/-- The tree is as high as the head says: nodes at the levels above the bottom, items there. -/
def Shape : ℕ → Slot α → Prop
  | _, .null => True
  | 0, .item _ => True
  | 0, .node _ _ => False
  | h + 1, .node _ slots => ∀ i, Shape h (slots i)
  | _ + 1, .item _ => False

/-- The item under an index. -/
def entryAt (index : ℕ) : ℕ → Slot α → Option α
  | 0, .item x => some x
  | h + 1, .node _ slots => entryAt index h (slots (digit index h))
  | _, _ => none

/-- The item as a `void *`. -/
def Slot.ofEntry : Option α → Slot α
  | none => .null
  | some x => .item x

@[simp] theorem shape_null (h : ℕ) : Shape h (.null : Slot α) := by
  cases h <;> trivial

@[simp] theorem entryAt_null (index h : ℕ) : entryAt index h (.null : Slot α) = none := by
  cases h <;> rfl

theorem entryAt_node (index h count : ℕ) (slots : Fin 8 → Slot α) :
    entryAt index (h + 1) (.node count slots) = entryAt index h (slots (digit index h)) := rfl

/-- At the bottom a slot is its own entry. -/
theorem ofEntry_entryAt_zero {slot : Slot α} (hs : Shape 0 slot) (index : ℕ) :
    Slot.ofEntry (entryAt index 0 slot) = slot := by
  cases slot with
  | null => rfl
  | node count slots => exact hs.elim
  | item x => rfl

/-- The descent of a lookup reads the map. -/
theorem lookupAt_eq {h : ℕ} {slot : Slot α} (hs : Shape h slot) (index : ℕ) :
    lookupAt index h slot = some (Slot.ofEntry (entryAt index h slot)) := by
  induction h generalizing slot with
  | zero => rw [lookupAt, ofEntry_entryAt_zero hs]
  | succ h ih =>
    cases slot with
    | null => rfl
    | node count slots => exact ih (hs _)
    | item x => exact hs.elim

/-! ## Digits -/

theorem digit_eq (index h : ℕ) : (digit index h : ℕ) = index / 8 ^ h % 8 := by
  rw [digit, radixTreeMapShift, Fin.ofNat, Nat.shiftRight_eq_div_pow, mul_comm, pow_mul]
  rfl

/-- Two indices lead to the same slot at the bottom if and only if they agree below `8 ^ h`. -/
theorem digit_eq_and_iff {i j h : ℕ} :
    digit i h = digit j h ∧ i % 8 ^ h = j % 8 ^ h ↔ i % 8 ^ (h + 1) = j % 8 ^ (h + 1) := by
  rw [Fin.ext_iff, digit_eq, digit_eq, pow_succ, Nat.mod_mul, Nat.mod_mul]
  have hpos : 0 < 8 ^ h := Nat.pow_pos (by omega)
  have hi := Nat.mod_lt i hpos
  have hj := Nat.mod_lt j hpos
  constructor
  · rintro ⟨h₁, h₂⟩
    rw [h₁, h₂]
  · intro h₀
    have hmod := congrArg (· % 8 ^ h) h₀
    have hdiv := congrArg (· / 8 ^ h) h₀
    simp only [Nat.add_mul_mod_self_left, Nat.mod_mod, Nat.add_mul_div_left _ _ hpos,
      Nat.div_eq_of_lt hi, Nat.div_eq_of_lt hj, Nat.zero_add] at hmod hdiv
    exact ⟨hdiv, hmod⟩

/-! ## The descent of an insertion -/

/-- What a step of an insertion has done to the map of a subtree of height `h`: it has stored the
item under an index that was free, or it has left the map alone, and then the index was taken or
one of the allocations from `n` to `n'` has failed. -/
structure Inserted (fails : ℕ → Bool) (index : ℕ) (x : α) (h : ℕ) (slot slot' : Slot α)
    (code : ℤ) (n n' : ℕ) : Prop where
  shape : Shape h slot'
  le : n ≤ n'
  stored : code = 0 → entryAt index h slot = none ∧ entryAt index h slot' = some x ∧
    ∀ j, j % 8 ^ h ≠ index % 8 ^ h → entryAt j h slot' = entryAt j h slot
  kept : code ≠ 0 → ∀ j, entryAt j h slot' = entryAt j h slot
  reason : code ≠ 0 → entryAt index h slot ≠ none ∨ ∃ k, n ≤ k ∧ k < n' ∧ fails k = true

/-- The node an insertion goes on in stands for the same map as the slot. -/
theorem childNode_spec (fails : ℕ → Bool) {h : ℕ} {slot : Slot α} (hs : Shape (h + 1) slot)
    (n : ℕ) :
    (childNode fails slot n = some (none, n + 1) ∧ fails n = true) ∨
      ∃ count slots n', childNode fails slot n = some (some (count, slots), n') ∧ n ≤ n' ∧
        (∀ i, Shape h (slots i)) ∧
        ∀ j, entryAt j (h + 1) slot = entryAt j h (slots (digit j h)) := by
  cases slot with
  | null =>
    by_cases hf : fails n = true
    · exact Or.inl ⟨by rw [childNode, if_pos hf], hf⟩
    · exact Or.inr ⟨0, fun _ => .null, n + 1, by rw [childNode, if_neg hf], Nat.le_succ n,
        fun _ => shape_null h, fun j => by rw [entryAt_null, entryAt_null]⟩
  | node count slots => exact Or.inr ⟨count, slots, n, rfl, le_rfl, hs, fun _ => rfl⟩
  | item x => exact hs.elim

/-- One level of the descent: the slot of the node gets what the levels below make of it. -/
theorem insertAt_succ {fails : ℕ → Bool} {index : ℕ} {x : α} {h n n₁ n' count : ℕ}
    {slot new : Slot α} {slots : Fin 8 → Slot α} {code : ℤ}
    (hchild : childNode fails slot n = some (some (count, slots), n₁))
    (hins : insertAt fails index x h (slots (digit index h)) n₁ = some (code, new, n')) :
    insertAt fails index x (h + 1) slot n =
      some (code, .node
        (if (slots (digit index h)).isNull && !new.isNull then count + 1 else count)
        (Function.update slots (digit index h) new), n') := by
  simp only [insertAt, hchild, Option.bind_eq_bind, Option.bind_some, hins]

/-- **The descent of an insertion**, by induction on the height. -/
theorem insertAt_spec (fails : ℕ → Bool) (index : ℕ) (x : α) {h : ℕ} {slot : Slot α}
    (hs : Shape h slot) (n : ℕ) :
    ∃ code slot' n', insertAt fails index x h slot n = some (code, slot', n') ∧
      Inserted fails index x h slot slot' code n n' := by
  induction h generalizing slot n with
  | zero =>
    cases slot with
    | null =>
      refine ⟨0, .item x, n, rfl, trivial, le_rfl, fun _ => ⟨rfl, rfl, ?_⟩,
        fun h0 => absurd rfl h0, fun h0 => absurd rfl h0⟩
      intro j hj
      rw [pow_zero, Nat.mod_one, Nat.mod_one] at hj
      exact absurd rfl hj
    | node count slots => exact hs.elim
    | item y =>
      exact ⟨1, .item y, n, rfl, trivial, le_rfl, fun h0 => absurd h0 one_ne_zero, fun _ _ => rfl,
        fun _ => Or.inl (by simp [entryAt])⟩
  | succ h ih =>
    rcases childNode_spec fails hs n with ⟨hchild, hf⟩ |
      ⟨count, slots, n₁, hchild, hle, hshape, hentry⟩
    · refine ⟨1, slot, n + 1, by simp [insertAt, hchild], hs, Nat.le_succ n,
        fun h0 => absurd h0 one_ne_zero, fun _ _ => rfl, fun _ => Or.inr ⟨n, le_rfl, ?_, hf⟩⟩
      exact Nat.lt_succ_self n
    · obtain ⟨code, new, n', hins, hnew⟩ := ih (hshape (digit index h)) n₁
      refine ⟨code, _, n', insertAt_succ hchild hins, ?_, hle.trans hnew.le, ?_, ?_, ?_⟩
      · intro i
        by_cases hi : i = digit index h
        · rw [hi, Function.update_self]
          exact hnew.shape
        · rw [Function.update_of_ne hi]
          exact hshape i
      · intro h0
        obtain ⟨hfree, hstored, hother⟩ := hnew.stored h0
        refine ⟨by rw [hentry, hfree], by rw [entryAt_node, Function.update_self, hstored], ?_⟩
        intro j hj
        rw [hentry, entryAt_node]
        by_cases hd : digit j h = digit index h
        · rw [hd, Function.update_self]
          exact hother j fun hm => hj (digit_eq_and_iff.mp ⟨hd, hm⟩)
        · rw [Function.update_of_ne hd]
      · intro h0 j
        rw [hentry, entryAt_node]
        by_cases hd : digit j h = digit index h
        · rw [hd, Function.update_self, hnew.kept h0]
        · rw [Function.update_of_ne hd]
      · intro h0
        rcases hnew.reason h0 with htaken | ⟨k, hk, hk', hf⟩
        · exact Or.inl (by rwa [hentry])
        · exact Or.inr ⟨k, hle.trans hk, hk', hf⟩

/-! ## Heads -/

/-- A head that an insertion can work on: the last entry of the table is in order. -/
structure Sane (head : Head α) : Prop where
  table : ∃ a b c, head.heightToMaxindex = [a, b, c, 511]
  height_le : head.height ≤ 3
  shape : Shape head.height head.rnode

/-- The head of a tree that only insertions have touched. -/
structure WellFormed (head : Head α) : Prop where
  table : head.heightToMaxindex = [0, 7, 63, 511]
  height_le : head.height ≤ 3
  shape : Shape head.height head.rnode
  empty : head.height = 0 → head.rnode = .null

theorem WellFormed.sane {head : Head α} (hw : WellFormed head) : Sane head :=
  ⟨⟨0, 7, 63, hw.table⟩, hw.height_le, hw.shape⟩

theorem wellFormed_initialised : WellFormed (initialised : Head α) :=
  ⟨rfl, Nat.zero_le 3, shape_null 0, fun _ => rfl⟩

/-- The map that a head stands for. -/
def Head.entry (head : Head α) (index : ℕ) : Option α :=
  if index < 8 ^ head.height then entryAt index head.height head.rnode else none

/-- The largest index of a tree. -/
theorem WellFormed.maxindex_eq {head : Head α} (hw : WellFormed head) :
    radixTreeMaxindex head = some (8 ^ head.height - 1) := by
  have hle := hw.height_le
  rw [radixTreeMaxindex, hw.table]
  interval_cases head.height <;> rfl

/-- **A lookup reads the map.** -/
theorem radixTreeLookup_eq {head : Head α} (hw : WellFormed head) (index : ℕ) :
    radixTreeLookup head index = some (Slot.ofEntry (head.entry index)) := by
  have hpos : 0 < 8 ^ head.height := Nat.pow_pos (by omega)
  rw [radixTreeLookup, hw.maxindex_eq, Option.bind_eq_bind, Option.bind_some, Head.entry]
  by_cases h : index < 8 ^ head.height
  · rw [if_neg (by omega), if_pos h, lookupAt_eq hw.shape]
  · rw [if_pos (by omega), if_neg h]
    rfl

/-! ## New nodes on top -/

/-- A node on top, with the tree in its first slot. -/
theorem entryAt_top {h index : ℕ} (hlt : index < 8 ^ (h + 1)) (rnode : Slot α) :
    entryAt index (h + 1) (.node 1 (Function.update (fun _ => .null) 0 rnode)) =
      if index < 8 ^ h then entryAt index h rnode else none := by
  have hpos : 0 < 8 ^ h := Nat.pow_pos (by omega)
  have hdigit : digit index h = 0 ↔ index < 8 ^ h := by
    rw [pow_succ] at hlt
    have hdiv : index / 8 ^ h < 8 := Nat.div_lt_of_lt_mul hlt
    rw [Fin.ext_iff, digit_eq, Fin.val_zero, Nat.mod_eq_of_lt hdiv, Nat.div_eq_zero_iff]
    omega
  rw [entryAt_node]
  by_cases h0 : index < 8 ^ h
  · rw [if_pos h0, hdigit.mpr h0, Function.update_self]
  · rw [if_neg h0, Function.update_of_ne (mt hdigit.mp h0), entryAt_null]

/-- What `radix_tree_extend` does to a tree with a root. -/
structure Grown (fails : ℕ → Bool) (k : ℕ) (head head' : Head α) (code : ℤ) (n n' : ℕ) :
    Prop where
  table : head'.heightToMaxindex = head.heightToMaxindex
  le : head.height ≤ head'.height
  height_le : head'.height ≤ head.height + k
  shape : Shape head'.height head'.rnode
  entry : ∀ j, head'.entry j = head.entry j
  done : code = 0 → head'.height = head.height + k
  reason : code ≠ 0 → ∃ i, n ≤ i ∧ i < n' ∧ fails i = true

/-- **New nodes on top leave the map alone**, also when an allocation fails on the way. -/
theorem growTree_spec (fails : ℕ → Bool) {k : ℕ} {head : Head α}
    (hs : Shape head.height head.rnode) (n : ℕ) :
    ∃ code head' n', growTree fails k head n = (code, head', n') ∧
      Grown fails k head head' code n n' := by
  induction k generalizing head n with
  | zero => exact ⟨0, head, n, rfl, rfl, le_rfl, le_rfl, hs, fun _ => rfl, fun _ => rfl,
      fun h0 => absurd rfl h0⟩
  | succ k ih =>
    by_cases hf : fails n = true
    · exact ⟨1, head, n + 1, by rw [growTree, if_pos hf], rfl, le_rfl, by omega, hs,
        fun _ => rfl, fun h0 => absurd h0 one_ne_zero, fun _ => ⟨n, le_rfl, Nat.lt_succ_self n, hf⟩⟩
    · generalize htop : ({ head with
        rnode := .node 1 (Function.update (fun _ => .null) 0 head.rnode)
        height := head.height + 1 } : Head α) = top
      have hheight : top.height = head.height + 1 := by rw [← htop]
      have hrnode : top.rnode = .node 1 (Function.update (fun _ => .null) 0 head.rnode) := by
        rw [← htop]
      have hshape : Shape top.height top.rnode := by
        rw [hheight, hrnode]
        intro i
        by_cases hi : i = 0
        · rw [hi, Function.update_self]
          exact hs
        · rw [Function.update_of_ne hi]
          exact shape_null _
      have hentry : ∀ j, top.entry j = head.entry j := by
        intro j
        have hle : 8 ^ head.height ≤ 8 ^ (head.height + 1) := Nat.pow_le_pow_right (by omega)
          (Nat.le_succ _)
        rw [Head.entry, Head.entry, hheight, hrnode]
        by_cases hj : j < 8 ^ (head.height + 1)
        · rw [if_pos hj, entryAt_top hj]
        · rw [if_neg hj, if_neg (by omega)]
      obtain ⟨code, head', n', hgrow, hg⟩ := ih hshape (n + 1)
      refine ⟨code, head', n', by rw [growTree, if_neg hf, ← hgrow, ← htop], ?_, ?_, ?_, hg.shape,
        fun j => (hg.entry j).trans (hentry j), ?_, ?_⟩
      · rw [hg.table, ← htop]
      · have hle := hg.le
        omega
      · have hle := hg.height_le
        omega
      · intro h0
        have hdone := hg.done h0
        omega
      · intro h0
        obtain ⟨i, hi, hi', hfi⟩ := hg.reason h0
        exact ⟨i, by omega, hi', hfi⟩

/-- The height that the loop over the table comes to. -/
theorem findHeight_spec (a b c : ℕ) {height index : ℕ} (hh : height ≤ 2) (hi : index ≤ 511) :
    ∃ h m, findHeight index ([a, b, c, 511].drop (height + 1)) (height + 1) = some h ∧
      height < h ∧ h ≤ 3 ∧ [a, b, c, 511][h]? = some m ∧ index ≤ m := by
  have h3 : findHeight index [511] 3 = some 3 := by
    rw [findHeight, if_neg (by omega)]
  have h2 : ∃ h m, findHeight index [c, 511] 2 = some h ∧ 2 ≤ h ∧ h ≤ 3 ∧
      [a, b, c, 511][h]? = some m ∧ index ≤ m := by
    by_cases hc : index > c
    · exact ⟨3, 511, by rw [findHeight, if_pos hc, h3], by omega, le_rfl, rfl, hi⟩
    · exact ⟨2, c, by rw [findHeight, if_neg hc], le_rfl, by omega, rfl, by omega⟩
  interval_cases height
  · by_cases hb : index > b
    · obtain ⟨h, m, heq, hlo, hhi, hget, hle⟩ := h2
      refine ⟨h, m, ?_, by omega, hhi, hget, hle⟩
      show findHeight index [b, c, 511] 1 = some h
      rw [findHeight, if_pos hb, heq]
    · refine ⟨1, b, ?_, by omega, by omega, rfl, by omega⟩
      show findHeight index [b, c, 511] 1 = some 1
      rw [findHeight, if_neg hb]
  · obtain ⟨h, m, heq, hlo, hhi, hget, hle⟩ := h2
    exact ⟨h, m, heq, by omega, hhi, hget, hle⟩
  · exact ⟨3, 511, h3, by omega, le_rfl, rfl, hi⟩

/-- `radix_tree_extend` on an index that the highest tree can hold. -/
theorem radixTreeExtend_eq (fails : ℕ → Bool) {head : Head α} (hs : Sane head) {index : ℕ}
    (hh : head.height ≤ 2) (hi : index ≤ 511) :
    ∃ h m, head.height < h ∧ h ≤ 3 ∧ head.heightToMaxindex[h]? = some m ∧ index ≤ m ∧
      radixTreeExtend fails head index =
        if head.rnode.isNull then some (0, { head with height := h }, 0)
        else some (growTree fails (h - head.height) head 0) := by
  obtain ⟨a, b, c, htable⟩ := hs.table
  obtain ⟨h, m, hfind, hlo, hhi, hget, hle⟩ := findHeight_spec a b c hh hi
  refine ⟨h, m, hlo, hhi, by rw [htable, hget], hle, ?_⟩
  rw [radixTreeExtend, htable, hfind]
  rfl

/-- The first part of an insertion: the tree is high enough for the index, or an allocation has
failed, and the map is the same. -/
structure Extended (fails : ℕ → Bool) (index : ℕ) (head head' : Head α) (code : ℤ) (n : ℕ) :
    Prop where
  wellFormed : WellFormed head'
  entry : ∀ j, head'.entry j = head.entry j
  fits : code = 0 → index < 8 ^ head'.height ∧ 0 < head'.height
  reason : code ≠ 0 → ∃ k, k < n ∧ fails k = true

/-- The part of an insertion that extends the tree where that is needed. -/
def prepare (fails : ℕ → Bool) (head : Head α) (m index : ℕ) : Option (ℤ × Head α × ℕ) :=
  if index > m ∨ m = 0 then radixTreeExtend fails head index else some (0, head, 0)

theorem isNull_iff {slot : Slot α} : slot.isNull = true ↔ slot = .null := by
  cases slot <;> simp [Slot.isNull]

/-- The entries of the table are the largest indices. -/
theorem getElem?_table {h m : ℕ} (h3 : h ≤ 3) (hm : [0, 7, 63, 511][h]? = some m) :
    m = 8 ^ h - 1 := by
  interval_cases h <;> exact (Option.some.inj hm).symm

/-- The height and the table decide whether the tree is extended. -/
theorem extend_condition {h index : ℕ} (h3 : h ≤ 3) (hi : index ≤ 511) :
    (index > 8 ^ h - 1 ∨ 8 ^ h - 1 = 0) → h ≤ 2 := by
  interval_cases h <;> omega

/-- **Extending a tree keeps its map.** -/
theorem prepare_spec (fails : ℕ → Bool) {head : Head α} (hw : WellFormed head) {index : ℕ}
    (hi : index ≤ 511) :
    ∃ code head' n, prepare fails head (8 ^ head.height - 1) index = some (code, head', n) ∧
      Extended fails index head head' code n := by
  have hpos : 0 < 8 ^ head.height := Nat.pow_pos (by omega)
  by_cases hcond : index > 8 ^ head.height - 1 ∨ 8 ^ head.height - 1 = 0
  · obtain ⟨h, m, hlo, hhi, hget, hle, heq⟩ := radixTreeExtend_eq fails hw.sane
      (extend_condition hw.height_le hi hcond) hi
    rw [hw.table] at hget
    have hm := getElem?_table hhi hget
    have hpos' : 0 < 8 ^ h := Nat.pow_pos (by omega)
    rw [prepare, if_pos hcond, heq]
    by_cases hnull : head.rnode.isNull = true
    · -- an empty tree only gets another height
      have hrnode := isNull_iff.mp hnull
      refine ⟨0, { head with height := h }, 0, by rw [if_pos hnull], ⟨⟨hw.table, hhi, ?_, ?_⟩,
        ?_, fun _ => ⟨by show index < 8 ^ h; omega, by show 0 < h; omega⟩,
        fun h0 => absurd rfl h0⟩⟩
      · show Shape h head.rnode
        rw [hrnode]
        exact shape_null h
      · intro _
        exact hrnode
      · intro j
        rw [Head.entry, Head.entry, hrnode]
        simp
    · obtain ⟨code, head', n, hgrow, hg⟩ := growTree_spec (k := h - head.height) fails hw.shape 0
      rw [if_neg hnull, hgrow]
      have hheight := hg.height_le
      refine ⟨code, head', n, rfl, ⟨⟨hg.table.trans hw.table, by omega, hg.shape, ?_⟩,
        hg.entry, ?_, ?_⟩⟩
      · intro h0
        exact absurd (isNull_iff.mpr (hw.empty (by have hle := hg.le; omega))) hnull
      · intro h0
        rw [hg.done h0, show head.height + (h - head.height) = h by omega]
        omega
      · intro h0
        obtain ⟨k, -, hk, hf⟩ := hg.reason h0
        exact ⟨k, hk, hf⟩
  · rw [not_or, not_lt] at hcond
    refine ⟨0, head, 0, by rw [prepare, if_neg (by omega)], ⟨hw, fun _ => rfl, fun _ => ⟨by omega,
      ?_⟩, fun h0 => absurd rfl h0⟩⟩
    by_contra h0
    rw [show head.height = 0 by omega] at hcond
    exact hcond.2 rfl

theorem radixTreeInsert_eq (fails : ℕ → Bool) {head : Head α} {m : ℕ}
    (hm : radixTreeMaxindex head = some m) (index : ℕ) (x : α) :
    radixTreeInsert fails head index x =
      (prepare fails head m index).bind fun r =>
        if r.1 ≠ 0 then some r
        else (insertAt fails index x r.2.1.height r.2.1.rnode r.2.2).bind fun s =>
          some (s.1, { r.2.1 with rnode := s.2.1 }, s.2.2) := by
  simp only [radixTreeInsert, hm, Option.bind_eq_bind, Option.bind_some, prepare]
  split <;> rfl

/-! ## Insertion -/

/-- What an insertion does to the map. -/
structure WritesOnce (fails : ℕ → Bool) (index : ℕ) (x : α) (head head' : Head α) (code : ℤ)
    (n : ℕ) : Prop where
  wellFormed : WellFormed head'
  stored : code = 0 → head.entry index = none ∧ head'.entry index = some x ∧
    ∀ j, j ≠ index → head'.entry j = head.entry j
  kept : code ≠ 0 → ∀ j, head'.entry j = head.entry j
  reason : code ≠ 0 → head.entry index ≠ none ∨ ∃ k, k < n ∧ fails k = true

/-- **An insertion on the map of the tree.** -/
theorem radixTreeInsert_spec (fails : ℕ → Bool) {head : Head α} (hw : WellFormed head)
    {index : ℕ} (hi : index ≤ 511) (x : α) :
    ∃ code head' n, radixTreeInsert fails head index x = some (code, head', n) ∧
      WritesOnce fails index x head head' code n := by
  obtain ⟨error, head₁, n₁, hprep, hext⟩ := prepare_spec fails hw hi
  rw [radixTreeInsert_eq fails hw.maxindex_eq, hprep, Option.bind_some]
  by_cases herr : error = 0
  · obtain ⟨hfits, hheight⟩ := hext.fits herr
    have hw₁ := hext.wellFormed
    obtain ⟨code, slot', n', hins, hspec⟩ := insertAt_spec fails index x hw₁.shape n₁
    have hentry : ∀ j, ({ head₁ with rnode := slot' } : Head α).entry j =
        if j < 8 ^ head₁.height then entryAt j head₁.height slot' else none := fun j => rfl
    have hold : ∀ j, head.entry j =
        if j < 8 ^ head₁.height then entryAt j head₁.height head₁.rnode else none := fun j =>
      (hext.entry j).symm
    refine ⟨code, { head₁ with rnode := slot' }, n', ?_, ⟨⟨hw₁.table, hw₁.height_le, hspec.shape,
      ?_⟩, ?_, ?_, ?_⟩⟩
    · simp only [ne_eq, herr, not_true_eq_false, if_false, hins, Option.bind_some]
    · intro h0
      exact absurd h0 (by show head₁.height ≠ 0; omega)
    · intro h0
      obtain ⟨hfree, hstored, hother⟩ := hspec.stored h0
      refine ⟨by rw [hold, if_pos hfits, hfree], by rw [hentry, if_pos hfits, hstored], ?_⟩
      intro j hj
      rw [hentry, hold]
      by_cases hlt : j < 8 ^ head₁.height
      · rw [if_pos hlt, if_pos hlt, hother j]
        rwa [Nat.mod_eq_of_lt hlt, Nat.mod_eq_of_lt hfits]
      · rw [if_neg hlt, if_neg hlt]
    · intro h0 j
      rw [hentry, hold, hspec.kept h0]
    · intro h0
      rcases hspec.reason h0 with htaken | ⟨k, -, hk, hf⟩
      · left
        rwa [hold, if_pos hfits]
      · exact Or.inr ⟨k, hk, hf⟩
  · refine ⟨error, head₁, n₁, by rw [if_pos herr], ⟨hext.wellFormed, fun h0 => absurd h0 herr,
      fun _ => hext.entry, ?_⟩⟩
    intro h0
    obtain ⟨k, hk, hf⟩ := hext.reason h0
    exact Or.inr ⟨k, hk, hf⟩

/-! ## Runs -/

/-- The trees that insertions with indices up to `511` build, whatever allocations fail. -/
inductive Reachable : Head α → Prop
  | initialised : Reachable initialised
  | insert {head head' : Head α} {fails : ℕ → Bool} {index : ℕ} {x : α} {code : ℤ} {n : ℕ}
      (h : Reachable head) (hi : index ≤ 511)
      (hins : radixTreeInsert fails head index x = some (code, head', n)) : Reachable head'

theorem Reachable.wellFormed {head : Head α} (h : Reachable head) : WellFormed head := by
  induction h with
  | initialised => exact wellFormed_initialised
  | @insert head head' fails index x code n h hi hins ih =>
    obtain ⟨code', head'', n', hins', hspec⟩ := radixTreeInsert_spec fails ih hi x
    rw [hins, Option.some.injEq, Prod.mk.injEq, Prod.mk.injEq] at hins'
    obtain ⟨-, rfl, -⟩ := hins'
    exact hspec.wellFormed

/-- **An insertion is one into a write-once map.**  It returns; it returns `0` only if the index
was absent, and then a lookup finds the item there and all else as before; where it returns
something else, all lookups are as before, and then the index was present or one of its allocations
has failed. -/
theorem radixTreeInsert_refines {head : Head α} (h : Reachable head) {index : ℕ}
    (hi : index ≤ 511) (x : α) (fails : ℕ → Bool) :
    ∃ code head' n, radixTreeInsert fails head index x = some (code, head', n) ∧
      (code = 0 → radixTreeLookup head index = some .null ∧
        radixTreeLookup head' index = some (.item x) ∧
        ∀ j, j ≠ index → radixTreeLookup head' j = radixTreeLookup head j) ∧
      (code ≠ 0 → ∀ j, radixTreeLookup head' j = radixTreeLookup head j) ∧
      (radixTreeLookup head index = some .null → (∀ k < n, fails k = false) → code = 0) := by
  have hw := h.wellFormed
  obtain ⟨code, head', n, hins, hspec⟩ := radixTreeInsert_spec fails hw hi x
  have hlookup := radixTreeLookup_eq hw
  have hlookup' := radixTreeLookup_eq hspec.wellFormed
  refine ⟨code, head', n, hins, ?_, ?_, ?_⟩
  · intro h0
    obtain ⟨hfree, hstored, hother⟩ := hspec.stored h0
    refine ⟨by rw [hlookup, hfree]; rfl, by rw [hlookup', hstored]; rfl, ?_⟩
    intro j hj
    rw [hlookup', hlookup, hother j hj]
  · intro h0 j
    rw [hlookup', hlookup, hspec.kept h0]
  · intro hnull hok
    by_contra h0
    rcases hspec.reason h0 with htaken | ⟨k, hk, hf⟩
    · rw [hlookup] at hnull
      cases hentry : head.entry index with
      | none => exact htaken hentry
      | some y =>
        rw [hentry] at hnull
        exact absurd hnull (by simp [Slot.ofEntry])
    · rw [hok k hk] at hf
      exact absurd hf Bool.false_ne_true

/-- The first insertion. -/
theorem radixTreeInsert_refines_first :
    ∃ code head' n, radixTreeInsert (fun _ => false) (initialised : Head ℕ) 9 5 =
        some (code, head', n) ∧
      (code = 0 → radixTreeLookup (initialised : Head ℕ) 9 = some .null ∧
        radixTreeLookup head' 9 = some (.item 5) ∧
        ∀ j, j ≠ 9 → radixTreeLookup head' j = radixTreeLookup (initialised : Head ℕ) j) ∧
      (code ≠ 0 → ∀ j, radixTreeLookup head' j = radixTreeLookup (initialised : Head ℕ) j) ∧
      (radixTreeLookup (initialised : Head ℕ) 9 = some .null →
        (∀ k < n, (fun _ => false) k = false) → code = 0) :=
  radixTreeInsert_refines .initialised (by omega) 5 fun _ => false

end RadixTree
end CModel
