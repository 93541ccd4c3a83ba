import CModel.RadixTree.Insert
import Mathlib.Data.Fintype.Card

/-!
# The counts of the nodes

A deletion frees a node when its `count` comes to zero.  An insertion raises counts at two places,
where it links a new node and where it stores the item, and a new root starts with one.

* `occupied`, `Counted`: every node counts its slots that are not `NULL`.
* `insertAt_counted`, `growTree_counted`: the descent and the new nodes on top keep that, also
  where an allocation fails between two levels.
* `insertAll`: any insertions one behind the other.
* `Within`: what hangs in the tree, and how deep.
* `insertAll_counts`: **behind any insertions the nodes lie above the height and count right, items
  hang in the lowest nodes only, and only a tree without any insertion has height `0`**.
-/

namespace CModel
namespace RadixTree

variable {α : Type} {fails : ℕ → Bool} {head head' : Head α} {index h n n' : ℕ} {x : α} {code : ℤ}

/-! ## Counts -/

/-- How many slots of a node are not `NULL`. -/
def occupied (slots : Fin 8 → Slot α) : ℕ :=
  (Finset.univ.filter fun i => (slots i).isNull = false).card

/-- Every node counts its slots that are not `NULL`. -/
def Counted : Slot α → Prop
  | .null => True
  | .node count slots => count = occupied slots ∧ ∀ i, Counted (slots i)
  | .item _ => True

theorem occupied_null : occupied (fun _ => (.null : Slot α)) = 0 := by
  simp [occupied, Slot.isNull]

/-- A slot that gets its first contents is one more; no slot is emptied. -/
theorem occupied_update {slots : Fin 8 → Slot α} {i : Fin 8} {new : Slot α}
    (hkeep : new.isNull = true → (slots i).isNull = true) :
    occupied (Function.update slots i new) =
      if (slots i).isNull && !new.isNull then occupied slots + 1 else occupied slots := by
  have hother : ∀ j, j ≠ i → Function.update slots i new j = slots j := fun j hj =>
    Function.update_of_ne hj _ _
  by_cases hnew : (slots i).isNull && !new.isNull
  · rw [if_pos hnew]
    rw [Bool.and_eq_true, Bool.not_eq_true'] at hnew
    have hset : (Finset.univ.filter fun j => (Function.update slots i new j).isNull = false) =
        insert i (Finset.univ.filter fun j => (slots j).isNull = false) := by
      ext j
      simp only [Finset.mem_filter, Finset.mem_univ, true_and, Finset.mem_insert]
      by_cases hj : j = i
      · rw [hj, Function.update_self]
        simp [hnew.2]
      · rw [hother j hj]
        simp [hj]
    rw [occupied, hset, Finset.card_insert_of_notMem (by simp [hnew.1]), occupied]
  · rw [if_neg hnew, occupied, occupied]
    congr 1
    ext j
    simp only [Finset.mem_filter, Finset.mem_univ, true_and]
    by_cases hj : j = i
    · rw [hj, Function.update_self]
      cases hn : new.isNull <;> cases ho : (slots i).isNull <;> simp_all
    · rw [hother j hj]

/-! ## The descent -/

/-- The node an insertion goes on in counts right; one fresh from `calloc` counts none. -/
theorem childNode_counted {slot : Slot α} {count : ℕ} {slots : Fin 8 → Slot α}
    (hc : Counted slot) (hchild : childNode fails slot n = some (some (count, slots), n')) :
    count = occupied slots ∧ ∀ i, Counted (slots i) := by
  cases slot with
  | null =>
    rw [childNode] at hchild
    split at hchild
    · simp at hchild
    · simp only [Option.some.injEq, Prod.mk.injEq] at hchild
      obtain ⟨⟨rfl, rfl⟩, -⟩ := hchild
      exact ⟨occupied_null.symm, fun _ => trivial⟩
  | node count' slots' =>
    simp only [childNode, Option.some.injEq, Prod.mk.injEq] at hchild
    obtain ⟨⟨rfl, rfl⟩, -⟩ := hchild
    exact hc
  | item y => simp [childNode] at hchild

/-- **The descent keeps the counts right**, and empties no slot, whatever allocations fail. -/
theorem insertAt_counted {slot new : Slot α} (hc : Counted slot)
    (hins : insertAt fails index x h slot n = some (code, new, n')) :
    Counted new ∧ (new.isNull = true → slot.isNull = true) := by
  induction h generalizing slot n new n' code with
  | zero =>
    rw [insertAt] at hins
    by_cases hnull : slot.isNull = true
    · simp only [hnull, if_true, Option.some.injEq, Prod.mk.injEq] at hins
      obtain ⟨-, rfl, -⟩ := hins
      exact ⟨trivial, fun _ => hnull⟩
    · rw [if_neg hnull] at hins
      simp only [Option.some.injEq, Prod.mk.injEq] at hins
      obtain ⟨-, rfl, -⟩ := hins
      exact ⟨hc, id⟩
  | succ h ih =>
    simp only [insertAt, Option.bind_eq_bind, Option.bind_eq_some_iff] at hins
    obtain ⟨⟨node, n₁⟩, hchild, hins⟩ := hins
    cases node with
    | none =>
      simp only [Option.some.injEq, Prod.mk.injEq] at hins
      obtain ⟨-, rfl, -⟩ := hins
      exact ⟨hc, id⟩
    | some node =>
      obtain ⟨count, slots⟩ := node
      obtain ⟨hcount, hslots⟩ := childNode_counted hc hchild
      simp only [Option.bind_eq_some_iff] at hins
      obtain ⟨⟨code', new', n₂⟩, hbelow, hins⟩ := hins
      obtain ⟨hnew, hkeep⟩ := ih (hslots (digit index h)) hbelow
      simp only [Option.some.injEq, Prod.mk.injEq] at hins
      obtain ⟨-, rfl, -⟩ := hins
      refine ⟨⟨by rw [occupied_update hkeep, hcount], ?_⟩, ?_⟩
      · intro i
        by_cases hi : i = digit index h
        · rw [hi, Function.update_self]
          exact hnew
        · rw [Function.update_of_ne hi]
          exact hslots i
      · intro h0
        exact absurd h0 (by simp [Slot.isNull])

/-! ## New nodes on top -/

/-- **New nodes on top of a root count one slot each.** -/
theorem growTree_counted {k : ℕ} (hc : Counted head.rnode) (hroot : head.rnode.isNull = false) :
    Counted (growTree fails k head n).2.1.rnode := by
  induction k generalizing head n with
  | zero => exact hc
  | succ k ih =>
    rw [growTree]
    split
    · exact hc
    · refine ih ⟨?_, ?_⟩ rfl
      · rw [occupied_update (fun h0 => absurd h0 (by rw [hroot]; exact Bool.false_ne_true)),
          occupied_null, hroot]
        rfl
      · intro i
        by_cases hi : i = 0
        · rw [hi, Function.update_self]
          exact hc
        · rw [Function.update_of_ne hi]
          trivial

/-- What the first part of an insertion does: nothing, another height for an empty tree, or new
nodes on top of the root. -/
theorem prepare_cases (hw : WellFormed head) (hi : index ≤ 511)
    (hprep : prepare fails head (8 ^ head.height - 1) index = some (code, head', n)) :
    (head' = head ∧ 0 < head.height) ∨
      (∃ h, 0 < h ∧ head' = { head with height := h }) ∨
      (head.rnode.isNull = false ∧ ∃ k, growTree fails k head 0 = (code, head', n)) := by
  rw [prepare] at hprep
  by_cases hcond : index > 8 ^ head.height - 1 ∨ 8 ^ head.height - 1 = 0
  · obtain ⟨h, m, hlo, -, -, -, heq⟩ := radixTreeExtend_eq fails hw.sane
      (extend_condition hw.height_le hi hcond) hi
    rw [if_pos hcond, heq] at hprep
    by_cases hnull : head.rnode.isNull = true
    · rw [if_pos hnull, Option.some.injEq, Prod.mk.injEq, Prod.mk.injEq] at hprep
      exact Or.inr (Or.inl ⟨h, by omega, hprep.2.1.symm⟩)
    · rw [if_neg hnull, Option.some.injEq] at hprep
      exact Or.inr (Or.inr ⟨by simpa using hnull, _, hprep⟩)
  · rw [if_neg hcond, Option.some.injEq, Prod.mk.injEq, Prod.mk.injEq] at hprep
    refine Or.inl ⟨hprep.2.1.symm, Nat.pos_of_ne_zero fun h0 => hcond (Or.inr ?_)⟩
    rw [h0]
    rfl

/-- The first part keeps the counts right, and there is a height behind it. -/
theorem prepare_counted (hw : WellFormed head) (hc : Counted head.rnode) (hi : index ≤ 511)
    (hprep : prepare fails head (8 ^ head.height - 1) index = some (code, head', n)) :
    Counted head'.rnode ∧ 0 < head'.height := by
  rcases prepare_cases hw hi hprep with ⟨rfl, hpos⟩ | ⟨h, hpos, rfl⟩ | ⟨hroot, k, hgrow⟩
  · exact ⟨hc, hpos⟩
  · exact ⟨hc, hpos⟩
  · obtain ⟨code', head'', n₁, hgrow', hg⟩ := growTree_spec (k := k) fails hw.shape 0
    have hcount : Counted (growTree fails k head 0).2.1.rnode := growTree_counted hc hroot
    rw [hgrow] at hcount
    rw [hgrow, Prod.mk.injEq, Prod.mk.injEq] at hgrow'
    obtain ⟨-, rfl, -⟩ := hgrow'
    refine ⟨hcount, Nat.lt_of_lt_of_le (Nat.pos_of_ne_zero ?_) hg.le⟩
    intro h0
    rw [hw.empty h0] at hroot
    exact absurd hroot (by simp [Slot.isNull])

/-! ## Insertions -/

/-- The tree is in order and its nodes count right. -/
structure CountsRight (head : Head α) : Prop where
  wellFormed : WellFormed head
  counted : Counted head.rnode

/-- **An insertion keeps the counts right**, and leaves a tree with a height. -/
theorem radixTreeInsert_counted (hr : CountsRight head) (hi : index ≤ 511)
    (hins : radixTreeInsert fails head index x = some (code, head', n)) :
    Counted head'.rnode ∧ 0 < head'.height := by
  rw [radixTreeInsert_eq fails hr.wellFormed.maxindex_eq, Option.bind_eq_some_iff] at hins
  obtain ⟨⟨error, head₁, n₁⟩, hprep, hins⟩ := hins
  obtain ⟨hcounted, hpos⟩ := prepare_counted hr.wellFormed hr.counted hi hprep
  by_cases herr : error = 0
  · simp only [ne_eq, herr, not_true_eq_false, if_false, Option.bind_eq_some_iff] at hins
    obtain ⟨⟨code', new, n₂⟩, hbelow, hins⟩ := hins
    simp only [Option.some.injEq, Prod.mk.injEq] at hins
    obtain ⟨-, rfl, -⟩ := hins
    exact ⟨(insertAt_counted hcounted hbelow).1, hpos⟩
  · simp only [ne_eq, herr, not_false_eq_true, if_true, Option.some.injEq, Prod.mk.injEq] at hins
    obtain ⟨-, rfl, -⟩ := hins
    exact ⟨hcounted, hpos⟩

/-- The arguments of a call of `radix_tree_insert`, and which of its allocations fail. -/
structure Call (α : Type) where
  fails : ℕ → Bool
  index : ℕ
  item : α

/-- Insertions one behind the other, whatever they return. -/
def insertAll : List (Call α) → Head α → Option (Head α)
  | [], head => some head
  | c :: calls, head => do
    let (_, head, _) ← radixTreeInsert c.fails head c.index c.item
    insertAll calls head

theorem insertAll_countsRight {calls : List (Call α)} (hr : CountsRight head)
    (hi : ∀ c ∈ calls, c.index ≤ 511) :
    ∃ head', insertAll calls head = some head' ∧ CountsRight head' ∧
      (calls ≠ [] → 0 < head'.height) := by
  induction calls generalizing head with
  | nil => exact ⟨head, rfl, hr, fun h0 => absurd rfl h0⟩
  | cons c calls ih =>
    have hc := hi c List.mem_cons_self
    obtain ⟨code, head₁, n, hins, hspec⟩ := radixTreeInsert_spec c.fails hr.wellFormed hc c.item
    obtain ⟨hcounted, hpos⟩ := radixTreeInsert_counted hr hc hins
    obtain ⟨head', hall, hr', hpos'⟩ := ih ⟨hspec.wellFormed, hcounted⟩ fun d hd =>
      hi d (List.mem_cons_of_mem c hd)
    refine ⟨head', by simp only [insertAll, hins, Option.bind_eq_bind, Option.bind_some, hall], hr',
      fun _ => ?_⟩
    cases calls with
    | nil =>
      rw [insertAll, Option.some.injEq] at hall
      rwa [← hall]
    | cons d calls => exact hpos' (by simp)

/-! ## What hangs in the tree -/

/-- What `rnode` leads to over `d` slots. -/
inductive Within (head : Head α) : ℕ → Slot α → Prop
  | root : Within head 0 head.rnode
  | down {d count : ℕ} {slots : Fin 8 → Slot α} (h : Within head d (.node count slots))
      (i : Fin 8) : Within head (d + 1) (slots i)

/-- Over `d` slots one comes to a tree that is lower by `d`, and counts right. -/
theorem CountsRight.within (hr : CountsRight head) {d : ℕ} {slot : Slot α}
    (hs : Within head d slot) :
    Counted slot ∧ (slot.isNull = false → d ≤ head.height) ∧ Shape (head.height - d) slot := by
  induction hs with
  | root => exact ⟨hr.counted, fun _ => Nat.zero_le _, hr.wellFormed.shape⟩
  | @down d count slots hs i ih =>
    obtain ⟨hcounted, hle, hshape⟩ := ih
    have hle := hle rfl
    cases hleft : head.height - d with
    | zero =>
      rw [hleft] at hshape
      exact hshape.elim
    | succ k =>
      rw [hleft] at hshape
      rw [show head.height - (d + 1) = k by omega]
      exact ⟨hcounted.2 i, fun _ => by omega, hshape i⟩

/-- **The shape of the tree**: behind any insertions with indices up to `511`, whatever allocations
fail, a node lies at a depth below the height, and its count is the number of its slots that are not
`NULL`; an item hangs in a node at depth `height - 1`; and the height is `0` exactly if nothing has
been inserted yet, and then there is no root. -/
theorem insertAll_counts (calls : List (Call α)) (hi : ∀ c ∈ calls, c.index ≤ 511) :
    ∃ head, insertAll calls initialised = some head ∧
      (∀ d count slots, Within head d (.node count slots) →
        d < head.height ∧ count = occupied slots) ∧
      (∀ d count slots i x, Within head d (.node count slots) → slots i = .item x →
        d + 1 = head.height) ∧ (∀ x, head.rnode ≠ .item x) ∧
      (head.height = 0 ↔ calls = []) ∧ (head.height = 0 → head.rnode = .null) := by
  have hstart : CountsRight (initialised : Head α) := ⟨wellFormed_initialised, trivial⟩
  obtain ⟨head, hall, hr, hpos⟩ := insertAll_countsRight hstart hi
  have hdepth : ∀ d count slots, Within head d (.node count slots) → d < head.height := by
    intro d count slots hs
    obtain ⟨-, -, hshape⟩ := hr.within hs
    by_contra hge
    rw [show head.height - d = 0 by omega] at hshape
    exact hshape.elim
  refine ⟨head, hall, fun d count slots hs => ⟨hdepth d count slots hs, (hr.within hs).1.1⟩,
    ?_, ?_, ⟨?_, ?_⟩, hr.wellFormed.empty⟩
  · intro d count slots i x hs hitem
    obtain ⟨-, -, hshape⟩ := hr.within (hs.down i)
    have hlt := hdepth d count slots hs
    rw [hitem] at hshape
    by_contra hne
    rw [show head.height - (d + 1) = (head.height - (d + 2)) + 1 by omega] at hshape
    exact hshape.elim
  · intro x hroot
    have hshape := hr.wellFormed.shape
    cases hheight : head.height with
    | zero =>
      rw [hr.wellFormed.empty hheight] at hroot
      simp at hroot
    | succ k =>
      rw [hroot, hheight] at hshape
      exact hshape.elim
  · intro h0
    by_contra hne
    have hlt := hpos hne
    omega
  · intro h0
    rw [h0, insertAll, Option.some.injEq] at hall
    rw [← hall]
    rfl

/-- Two items, and an insertion whose second `calloc` fails behind a node that is linked already. -/
theorem insertAll_counts_failing :
    ∃ head, insertAll [⟨fun _ => false, 9, 5⟩, ⟨fun _ => false, 10, 6⟩,
        ⟨fun n => n == 1, 100, 7⟩] (initialised : Head ℕ) = some head ∧
      (∀ d count slots, Within head d (.node count slots) →
        d < head.height ∧ count = occupied slots) ∧
      (∀ d count slots i x, Within head d (.node count slots) → slots i = .item x →
        d + 1 = head.height) ∧ (∀ x, head.rnode ≠ .item x) ∧
      (head.height = 0 ↔ [(⟨fun _ => false, 9, 5⟩ : Call ℕ), ⟨fun _ => false, 10, 6⟩,
        ⟨fun n => n == 1, 100, 7⟩] = []) ∧ (head.height = 0 → head.rnode = .null) :=
  insertAll_counts _ (by decide)

end RadixTree
end CModel
