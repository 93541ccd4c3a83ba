import CModel.RadixTree.Insert
import Mathlib.Data.List.FinRange
import Mathlib.Data.List.Range

/-!
# `radix_tree_gang_lookup`

The scan goes down to one node at the bottom after the other.  Where there is none it follows a
`NULL` slot.

* `Filled`: a node at the bottom holds an item, which insertions keep.
* `lookupFrom_spec`: one descent, in terms of the eight indices of its node.
* `gangFrom_of_dense`, `gangFrom_of_not_dense`: the whole scan.
* `radixTreeGangLookup_scans_iff`: **the scan is right if and only if it meets no gap of eight
  indices.**
-/

namespace CModel
namespace RadixTree

variable {α : Type}

/-! ## What the scan is for -/

/-- The items under the indices from `lo` to below `hi`, in ascending order. -/
def Head.present (head : Head α) (lo hi : ℕ) : List α :=
  (List.range' lo (hi - lo)).filterMap head.entry

/-- The scan ends without following a `NULL` slot, and stores the items of the smallest present
indices from `firstIndex` on, as many as there are and `maxItems` allows. -/
def GangScans (head : Head α) (firstIndex maxItems : ℕ) : Prop :=
  radixTreeGangLookup head firstIndex maxItems =
    some (((head.present firstIndex 512).take maxItems).map .item)

/-- From the node of `firstIndex` on, until `maxItems` items are found or the tree ends, every node
at the bottom has an item. -/
def Dense (head : Head α) (firstIndex maxItems : ℕ) : Prop :=
  ∀ b, firstIndex / 8 ≤ b → 8 * b < 8 ^ head.height →
    (head.present firstIndex (8 * b)).length < maxItems →
    ∃ j, j / 8 = b ∧ head.entry j ≠ none

/-! ## Nodes at the bottom -/

/-- Every node at the bottom holds an item. -/
def Filled : ℕ → Slot α → Prop
  | 1, .node _ slots => ∃ i, slots i ≠ .null
  | h + 2, .node _ slots => ∀ i, Filled (h + 1) (slots i)
  | _, _ => True

@[simp] theorem filled_null (h : ℕ) : Filled h (.null : Slot α) := by
  unfold Filled
  split <;> trivial

theorem childNode_filled {fails : ℕ → Bool} {h n n' count : ℕ} {slot : Slot α}
    {slots : Fin 8 → Slot α} (hf : Filled (h + 2) slot)
    (hchild : childNode fails slot n = some (some (count, slots), n')) (i : Fin 8) :
    Filled (h + 1) (slots i) := by
  cases slot with
  | null =>
    rw [childNode] at hchild
    split at hchild
    · exact absurd hchild (by simp)
    · simp only [Option.some.injEq, Prod.mk.injEq] at hchild
      obtain ⟨⟨-, rfl⟩, -⟩ := hchild
      exact filled_null _
  | node count' slots' =>
    simp only [childNode, Option.some.injEq, Prod.mk.injEq] at hchild
    obtain ⟨⟨-, rfl⟩, -⟩ := hchild
    exact hf i
  | item x => exact absurd hchild (by simp [childNode])

/-- The descent of an insertion makes no node at the bottom without an item: after the `calloc`
of one, nothing can fail. -/
theorem insertAt_filled {fails : ℕ → Bool} {index : ℕ} {x : α} {h n n' : ℕ} {code : ℤ}
    {slot slot' : Slot α} (hs : Shape h slot) (hf : Filled h slot)
    (hins : insertAt fails index x h slot n = some (code, slot', n')) :
    Filled h slot' ∧ (h = 0 → slot' ≠ .null) := by
  induction h generalizing slot slot' n n' code with
  | zero =>
    cases slot <;> simp only [insertAt, Slot.isNull] at hins <;>
      obtain ⟨-, rfl, -⟩ := Option.some.inj hins <;> exact ⟨by simp [Filled], by simp⟩
  | succ h ih =>
    refine ⟨?_, fun h0 => absurd h0 (Nat.succ_ne_zero h)⟩
    rcases childNode_spec fails hs n with ⟨hchild, -⟩ |
      ⟨count, slots, n₁, hchild, -, hshape, -⟩
    · simp only [insertAt, hchild, Option.bind_eq_bind, Option.bind_some] at hins
      obtain ⟨-, rfl, -⟩ := Option.some.inj hins
      exact hf
    · obtain ⟨code', new, n'', hat, -⟩ :=
        insertAt_spec fails index x (hshape (digit index h)) n₁
      rw [insertAt_succ hchild hat] at hins
      obtain ⟨-, rfl, -⟩ := Option.some.inj hins
      cases h with
      | zero =>
        refine ⟨digit index 0, ?_⟩
        rw [Function.update_self]
        exact (ih (hshape _) (by simp [Filled]) hat).2 rfl
      | succ h =>
        intro i
        by_cases hi : i = digit index (h + 1)
        · rw [hi, Function.update_self]
          exact (ih (hshape _) (childNode_filled hf hchild _) hat).1
        · rw [Function.update_of_ne hi]
          exact childNode_filled hf hchild i

theorem growTree_filled {fails : ℕ → Bool} {k n n' : ℕ} {code : ℤ} {head head' : Head α}
    (hpos : 0 < head.height) (hf : Filled head.height head.rnode)
    (hgrow : growTree fails k head n = (code, head', n')) :
    Filled head'.height head'.rnode := by
  induction k generalizing head n with
  | zero =>
    obtain ⟨-, rfl, -⟩ := hgrow
    exact hf
  | succ k ih =>
    rw [growTree] at hgrow
    split at hgrow
    · obtain ⟨-, rfl, -⟩ := hgrow
      exact hf
    · refine ih (Nat.succ_pos _) ?_ hgrow
      obtain ⟨h, hh⟩ := Nat.exists_eq_succ_of_ne_zero hpos.ne'
      show Filled (head.height + 1) (.node 1 (Function.update (fun _ => .null) 0 head.rnode))
      rw [hh] at hf ⊢
      intro i
      by_cases hi : i = 0
      · rw [hi, Function.update_self]
        exact hf
      · rw [Function.update_of_ne hi]
        exact filled_null _

theorem prepare_filled {fails : ℕ → Bool} {m index n : ℕ} {code : ℤ} {head head' : Head α}
    (hw : WellFormed head) (hf : Filled head.height head.rnode)
    (hprep : prepare fails head m index = some (code, head', n)) :
    Filled head'.height head'.rnode := by
  rw [prepare] at hprep
  split at hprep
  · rw [radixTreeExtend, Option.bind_eq_bind, Option.bind_eq_some_iff] at hprep
    obtain ⟨h, -, hext⟩ := hprep
    split at hext
    · next hnull =>
      obtain ⟨-, rfl, -⟩ := Option.some.inj hext
      show Filled h head.rnode
      rw [isNull_iff.mp hnull]
      exact filled_null h
    · next hnull =>
      refine growTree_filled (Nat.pos_of_ne_zero ?_) hf (Option.some.inj hext)
      intro h0
      exact hnull (isNull_iff.mpr (hw.empty h0))
  · obtain ⟨-, rfl, -⟩ := Option.some.inj hprep
    exact hf

/-- **Every node at the bottom of a tree holds an item.** -/
theorem Reachable.filled {head : Head α} (h : Reachable head) :
    Filled head.height head.rnode := by
  induction h with
  | initialised => exact filled_null 0
  | @insert head head' fails index x code n h hi hins ih =>
    have hw := h.wellFormed
    obtain ⟨error, head₁, n₁, hprep, hext⟩ := prepare_spec fails hw hi
    have hf₁ := prepare_filled hw ih hprep
    rw [radixTreeInsert_eq fails hw.maxindex_eq, hprep, Option.bind_some] at hins
    split at hins
    · obtain ⟨-, rfl, -⟩ := Option.some.inj hins
      exact hf₁
    · obtain ⟨code', slot', n', hat, -⟩ := insertAt_spec fails index x hext.wellFormed.shape n₁
      rw [hat, Option.bind_some] at hins
      obtain ⟨-, rfl, -⟩ := Option.some.inj hins
      exact (insertAt_filled hext.wellFormed.shape hf₁ hat).1

/-! ## One descent -/

/-- The indices of one node at the bottom agree in all digits but the last. -/
theorem digit_of_div_eq {i j : ℕ} (hij : i / 8 = j / 8) (h : ℕ) :
    digit i (h + 1) = digit j (h + 1) := by
  rw [Fin.ext_iff, digit_eq, digit_eq, pow_succ', ← Nat.div_div_eq_div_mul,
    ← Nat.div_div_eq_div_mul, hij]

theorem digit_zero (index : ℕ) : (digit index 0 : ℕ) = index % 8 := by
  rw [digit_eq, pow_zero, Nat.div_one]

/-- **One descent**: to the slots of the node if it has an item, and along `NULL` if not. -/
theorem lookupFrom_spec (index m : ℕ) {h : ℕ} {slot : Slot α} (hs : Shape (h + 1) slot)
    (hf : Filled (h + 1) slot) :
    ((∃ j, j / 8 = index / 8 ∧ entryAt j (h + 1) slot ≠ none) ∧ ∃ slots,
      (∀ j : Fin 8, slots j = Slot.ofEntry (entryAt (8 * (index / 8) + j) (h + 1) slot)) ∧
      lookupFrom index m (h + 1) slot =
        some (scanSlots slots m ((List.finRange 8).drop (digit index 0)) index [])) ∨
    ((∀ j, j / 8 = index / 8 → entryAt j (h + 1) slot = none) ∧
      lookupFrom index m (h + 1) slot = none) := by
  induction h generalizing slot with
  | zero =>
    cases slot with
    | null => exact Or.inr ⟨fun j _ => entryAt_null j 1, rfl⟩
    | node count slots =>
      have hdigit : ∀ j : Fin 8, digit (8 * (index / 8) + j) 0 = j := by
        intro j
        rw [Fin.ext_iff, digit_zero]
        omega
      have hslots : ∀ j : Fin 8,
          slots j = Slot.ofEntry (entryAt (8 * (index / 8) + j) 1 (.node count slots)) := by
        intro j
        rw [entryAt_node, hdigit, ofEntry_entryAt_zero (hs j)]
      obtain ⟨i, hi⟩ := hf
      refine Or.inl ⟨⟨8 * (index / 8) + i, by omega, fun hnone => hi ?_⟩, slots, hslots, rfl⟩
      rw [hslots, hnone]
      rfl
    | item x => exact hs.elim
  | succ h ih =>
    cases slot with
    | null => exact Or.inr ⟨fun j _ => entryAt_null j _, rfl⟩
    | node count slots =>
      have hentry : ∀ j, j / 8 = index / 8 → entryAt j (h + 2) (.node count slots) =
          entryAt j (h + 1) (slots (digit index (h + 1))) := by
        intro j hj
        rw [entryAt_node, digit_of_div_eq hj]
      rcases ih (hs (digit index (h + 1))) (hf _) with ⟨⟨j, hj, hne⟩, slots', heq, hrun⟩ |
        ⟨hnone, hrun⟩
      · refine Or.inl ⟨⟨j, hj, by rwa [hentry j hj]⟩, slots', ?_, hrun⟩
        intro k
        rw [heq, hentry _ (by omega)]
      · exact Or.inr ⟨fun j hj => by rw [hentry j hj, hnone j hj], hrun⟩
    | item x => exact hs.elim

/-- The loop over the slots of a node: it collects the items until there are `m`. -/
theorem scanSlots_eq {slots : Fin 8 → Slot α} {e : Fin 8 → Option α}
    (he : ∀ j, slots j = Slot.ofEntry (e j)) (m : ℕ) (js : List (Fin 8)) (index : ℕ)
    (results : List (Slot α)) (h : results.length < m) :
    scanSlots slots m js index results =
      if results.length + (js.filterMap e).length < m then
        (results ++ (js.filterMap e).map .item, index + js.length)
      else (results ++ ((js.filterMap e).take (m - results.length)).map .item, 0) := by
  induction js generalizing index results with
  | nil => simp [scanSlots, h]
  | cons j js ih =>
    cases hj : e j with
    | none =>
      have hnull : (slots j).isNull = true := by
        rw [he, hj]
        rfl
      rw [scanSlots, if_pos hnull, ih (index + 1) results h, List.filterMap_cons_none hj,
        List.length_cons, Nat.add_assoc, Nat.add_comm 1]
    | some x =>
      have hslot : slots j = .item x := by
        rw [he, hj]
        rfl
      rw [scanSlots, hslot, List.filterMap_cons_some hj, List.length_cons]
      by_cases hfull : results.length + 1 = m
      · rw [if_neg (by simp [Slot.isNull]), if_pos hfull, if_neg (by omega),
          show m - results.length = 1 by omega]
        rfl
      · have hlen : (results ++ [Slot.item x]).length = results.length + 1 := by simp
        rw [if_neg (by simp [Slot.isNull]), if_neg hfull, ih (index + 1) _ (by omega), hlen]
        have hsub : m - results.length = m - (results.length + 1) + 1 := by omega
        rw [hsub, List.take_succ_cons, List.map_cons, List.map_cons, List.append_assoc,
          List.append_assoc, List.singleton_append, List.singleton_append, List.length_cons,
          Nat.add_right_comm, Nat.add_assoc index, Nat.add_assoc results.length,
          Nat.add_comm 1 js.length]

/-! ## The items of a range -/

theorem Head.present_append (head : Head α) {lo mid hi : ℕ} (h : lo ≤ mid) (h' : mid ≤ hi) :
    head.present lo hi = head.present lo mid ++ head.present mid hi := by
  rw [Head.present, Head.present, Head.present, ← List.filterMap_append]
  congr 1
  rw [show hi - lo = (mid - lo) + (hi - mid) by omega, ← List.range'_append_1,
    show lo + (mid - lo) = mid by omega]

theorem Head.present_of_le (head : Head α) {lo hi : ℕ} (h : hi ≤ lo) :
    head.present lo hi = [] := by
  rw [Head.present, Nat.sub_eq_zero_of_le h]
  rfl

/-- Past the largest index there is nothing. -/
theorem Head.present_of_pow_le (head : Head α) {lo : ℕ} (h : 8 ^ head.height ≤ lo) (hi : ℕ) :
    head.present lo hi = [] := by
  refine List.filterMap_eq_nil_iff.mpr ?_
  intro j hj
  obtain ⟨hle, -⟩ := List.mem_range'_1.mp hj
  rw [Head.entry, if_neg (by omega)]

/-- The slots of a node from one index on are the rest of its range. -/
theorem filterMap_drop_finRange (f : ℕ → Option α) (base d : ℕ) :
    ((List.finRange 8).drop d).filterMap (fun j : Fin 8 => f (base + j)) =
      (List.range' (base + d) (8 - d)).filterMap f := by
  have hmap : (List.finRange 8).map (fun j : Fin 8 => base + (j : ℕ)) = List.range' base 8 := by
    rw [List.range'_eq_map_range, ← List.map_coe_finRange_eq_range, List.map_map]
    rfl
  have hdrop := congrArg (List.drop d) hmap
  rw [← List.map_drop, List.drop_range', Nat.mul_one] at hdrop
  rw [← hdrop, List.filterMap_map]
  rfl

/-! ## The whole scan -/

/-- A tree with a node in its root, as a scan finds it. -/
structure Scannable (head : Head α) : Prop where
  pos : 0 < head.height
  height_le : head.height ≤ 3
  shape : Shape head.height head.rnode
  filled : Filled head.height head.rnode

variable {head : Head α}

/-- One round of the loop. -/
theorem gangFrom_step (hs : Scannable head) {maxItems cur : ℕ} {results : List (Slot α)}
    (hlen : results.length < maxItems) (hcur : cur < 8 ^ head.height) :
    ((∃ j, j / 8 = cur / 8 ∧ head.entry j ≠ none) ∧
      gangFrom head (8 ^ head.height - 1) maxItems cur results =
        if results.length + (head.present cur (8 * (cur / 8 + 1))).length < maxItems then
          gangFrom head (8 ^ head.height - 1) maxItems (8 * (cur / 8 + 1))
            (results ++ (head.present cur (8 * (cur / 8 + 1))).map .item)
        else some (results ++ ((head.present cur (8 * (cur / 8 + 1))).take
          (maxItems - results.length)).map .item)) ∨
    ((∀ j, j / 8 = cur / 8 → head.entry j = none) ∧
      gangFrom head (8 ^ head.height - 1) maxItems cur results = none) := by
  obtain ⟨h, hh⟩ := Nat.exists_eq_succ_of_ne_zero hs.pos.ne'
  have hshape := hs.shape
  have hfilled := hs.filled
  have hpow : 8 ^ head.height = 8 * 8 ^ h := by rw [hh, Nat.succ_eq_add_one, pow_succ']
  have hentry : ∀ j, j / 8 = cur / 8 → head.entry j = entryAt j (h + 1) head.rnode := by
    intro j hj
    rw [Head.entry, if_pos (by omega), hh]
  rw [hh] at hshape hfilled
  rcases lookupFrom_spec cur (maxItems - results.length) hshape hfilled with
    ⟨⟨j, hj, hne⟩, slots, hslots, hrun⟩ | ⟨hnone, hrun⟩
  · refine Or.inl ⟨⟨j, hj, by rwa [hentry j hj]⟩, ?_⟩
    have he : ∀ j : Fin 8, slots j = Slot.ofEntry (head.entry (8 * (cur / 8) + j)) := by
      intro j
      rw [hslots, hentry _ (by omega)]
    have hfound : ((List.finRange 8).drop (digit cur 0)).filterMap
        (fun j : Fin 8 => head.entry (8 * (cur / 8) + j)) =
        head.present cur (8 * (cur / 8 + 1)) := by
      rw [filterMap_drop_finRange, digit_zero, Head.present,
        show 8 * (cur / 8) + cur % 8 = cur by omega,
        show 8 - cur % 8 = 8 * (cur / 8 + 1) - cur by omega]
    have hscan := scanSlots_eq he (maxItems - results.length)
      ((List.finRange 8).drop (digit cur 0)) cur [] (by rw [List.length_nil]; omega)
    rw [hfound, List.length_nil, Nat.zero_add, List.nil_append, List.nil_append, Nat.sub_zero,
      List.length_drop, List.length_finRange] at hscan
    rw [gangFrom, if_pos hlen, dif_neg (by omega), hh]
    rw [Nat.succ_eq_add_one, hrun, hscan]
    by_cases hfew : results.length + (head.present cur (8 * (cur / 8 + 1))).length < maxItems
    · have hnext : cur + (8 - (digit cur 0 : ℕ)) = 8 * (cur / 8 + 1) := by
        rw [digit_zero]
        omega
      rw [if_pos hfew, if_pos (by omega)]
      simp only [hnext]
      rw [if_neg (by omega), dif_pos (by omega)]
    · rw [if_neg hfew, if_neg (by omega)]
      rfl
  · refine Or.inr ⟨fun j hj => by rw [hentry j hj, hnone j hj], ?_⟩
    rw [gangFrom, if_pos hlen, dif_neg (by omega), hh]
    rw [Nat.succ_eq_add_one, hrun]

/-- Whether a scan meets a gap, from the next node on. -/
theorem dense_next {cur k : ℕ}
    (hblock : ∃ j, j / 8 = cur / 8 ∧ head.entry j ≠ none)
    (hfew : (head.present cur (8 * (cur / 8 + 1))).length < k) :
    Dense head cur k ↔
      Dense head (8 * (cur / 8 + 1)) (k - (head.present cur (8 * (cur / 8 + 1))).length) := by
  have hsplit : ∀ b, cur / 8 + 1 ≤ b → (head.present cur (8 * b)).length =
      (head.present cur (8 * (cur / 8 + 1))).length +
        (head.present (8 * (cur / 8 + 1)) (8 * b)).length := by
    intro b hb
    rw [head.present_append (by omega : cur ≤ 8 * (cur / 8 + 1)) (by omega), List.length_append]
  constructor
  · intro hdense b hb hlt hcount
    exact hdense b (by omega) hlt (by rw [hsplit b (by omega)]; omega)
  · intro hdense b hb hlt hcount
    by_cases hb' : b = cur / 8
    · rw [hb']
      exact hblock
    · rw [hsplit b (by omega)] at hcount
      exact hdense b (by omega) hlt (by omega)

/-- **The scan without a gap.** -/
theorem gangFrom_of_dense (hs : Scannable head) {maxItems cur : ℕ} {results : List (Slot α)}
    (hlen : results.length < maxItems) (hdense : Dense head cur (maxItems - results.length)) :
    gangFrom head (8 ^ head.height - 1) maxItems cur results =
      some (results ++ ((head.present cur 512).take (maxItems - results.length)).map .item) := by
  have hpos : 0 < 8 ^ head.height := Nat.pow_pos (by omega)
  have htop : 8 ^ head.height ≤ 512 := Nat.pow_le_pow_right (by omega) hs.height_le
  by_cases hcur : cur < 8 ^ head.height
  · have h8 : 8 ∣ 8 ^ head.height := dvd_pow_self 8 hs.pos.ne'
    have hsplit := head.present_append (by omega : cur ≤ 8 * (cur / 8 + 1))
      (by omega : 8 * (cur / 8 + 1) ≤ 512)
    rcases gangFrom_step hs hlen hcur with ⟨hblock, hrun⟩ | ⟨hnone, -⟩
    · rw [hrun]
      generalize hfound : head.present cur (8 * (cur / 8 + 1)) = found at *
      have hlen' : (results ++ found.map Slot.item).length = results.length + found.length := by
        rw [List.length_append, List.length_map]
      by_cases hfew : results.length + found.length < maxItems
      · have hnext := (dense_next hblock (by rw [hfound]; omega)).mp hdense
        rw [hfound, Nat.sub_sub] at hnext
        have ih := gangFrom_of_dense hs (hlen'.trans_lt hfew) (by rwa [hlen'])
        have htake : found.take (maxItems - results.length) = found :=
          List.take_of_length_le (by omega)
        rw [if_pos hfew, ih, hlen', hsplit, List.append_assoc, ← List.map_append,
          List.take_append, htake, Nat.sub_sub]
      · rw [if_neg hfew, hsplit, List.take_append_of_le_length (by omega)]
    · obtain ⟨j, hj, hne⟩ := hdense (cur / 8) le_rfl (by omega)
        (by rw [head.present_of_le (by omega), List.length_nil]; omega)
      exact absurd (hnone j hj) hne
  · rw [gangFrom, if_pos hlen, dif_pos (by omega), head.present_of_pow_le (by omega),
      List.take_nil, List.map_nil, List.append_nil]
termination_by 8 ^ head.height - cur

/-- **The scan along a gap** follows a `NULL` slot. -/
theorem gangFrom_of_not_dense (hs : Scannable head) {maxItems cur : ℕ}
    {results : List (Slot α)} (hlen : results.length < maxItems)
    (hgap : ¬ Dense head cur (maxItems - results.length)) :
    gangFrom head (8 ^ head.height - 1) maxItems cur results = none := by
  have h8 : 8 ∣ 8 ^ head.height := dvd_pow_self 8 hs.pos.ne'
  by_cases hcur : cur < 8 ^ head.height
  · rcases gangFrom_step hs hlen hcur with ⟨hblock, hrun⟩ | ⟨-, hrun⟩
    · rw [hrun]
      generalize hfound : head.present cur (8 * (cur / 8 + 1)) = found at *
      have hlen' : (results ++ found.map Slot.item).length = results.length + found.length := by
        rw [List.length_append, List.length_map]
      by_cases hfew : results.length + found.length < maxItems
      · rw [dense_next hblock (by rw [hfound]; omega), hfound, Nat.sub_sub] at hgap
        rw [if_pos hfew]
        exact gangFrom_of_not_dense hs (hlen'.trans_lt hfew) (by rwa [hlen'])
      · -- the results are full before the next node
        refine absurd ?_ hgap
        intro b hb hlt hcount
        by_cases hb' : b = cur / 8
        · rw [hb']
          exact hblock
        · rw [head.present_append (by omega : cur ≤ 8 * (cur / 8 + 1)) (by omega),
            List.length_append, hfound] at hcount
          omega
    · exact hrun
  · exact absurd (fun b hb hlt _ => absurd hlt (by omega)) hgap
termination_by 8 ^ head.height - cur

/-- A tree that has a root can be scanned. -/
theorem Reachable.scannable (h : Reachable head) (hroot : head.rnode ≠ .null) :
    Scannable head :=
  ⟨Nat.pos_of_ne_zero fun h0 => hroot (h.wellFormed.empty h0), h.wellFormed.height_le,
    h.wellFormed.shape, h.filled⟩

/-- The scan of a tree that has a root is its loop. -/
theorem radixTreeGangLookup_eq (h : Reachable head) (hroot : head.rnode ≠ .null)
    (firstIndex maxItems : ℕ) :
    radixTreeGangLookup head firstIndex maxItems =
      gangFrom head (8 ^ head.height - 1) maxItems firstIndex [] := by
  have hpos := (h.scannable hroot).pos
  have h8 : 8 ^ 1 ≤ 8 ^ head.height := Nat.pow_le_pow_right (by omega) hpos
  rw [radixTreeGangLookup, h.wellFormed.maxindex_eq, Option.bind_eq_bind, Option.bind_some,
    if_neg]
  rintro (hnull | h0)
  · exact hroot (isNull_iff.mp hnull)
  · omega

/-- **The scan is right if and only if it meets no gap**: the tree is empty, or every node at the
bottom from the one of `firstIndex` on, until the results are full or the tree ends, has an
item. -/
theorem radixTreeGangLookup_scans_iff (h : Reachable head) (firstIndex : ℕ) {maxItems : ℕ}
    (hmax : 1 ≤ maxItems) :
    GangScans head firstIndex maxItems ↔
      head.rnode = .null ∨ Dense head firstIndex maxItems := by
  by_cases hroot : head.rnode = .null
  · refine iff_of_true ?_ (Or.inl hroot)
    have hpresent : head.present firstIndex 512 = [] := by
      refine List.filterMap_eq_nil_iff.mpr ?_
      intro j _
      rw [Head.entry, hroot, entryAt_null, ite_self]
    rw [GangScans, hpresent, radixTreeGangLookup, h.wellFormed.maxindex_eq, Option.bind_eq_bind,
      Option.bind_some, if_pos (Or.inl (isNull_iff.mpr hroot)), List.take_nil, List.map_nil]
  · have hs := h.scannable hroot
    rw [or_iff_right hroot, GangScans, radixTreeGangLookup_eq h hroot]
    constructor
    · intro hscan
      by_contra hgap
      rw [gangFrom_of_not_dense hs hmax hgap] at hscan
      exact absurd hscan (by simp)
    · intro hdense
      exact gangFrom_of_dense hs hmax hdense

/-- The tree after the insertion of `5` under `0`. -/
def zeroStored : Head ℕ :=
  { height := 1
    rnode := .node 1 (Function.update (fun _ => .null) 0 (.item 5))
    heightToMaxindex := [0, 7, 63, 511] }

theorem reachable_zeroStored : Reachable zeroStored := by
  have hins : radixTreeInsert (fun _ => false) (initialised : Head ℕ) 0 5 =
      some (0, zeroStored, 1) := rfl
  exact .insert .initialised (by omega) hins

/-- A scan of one node. -/
theorem radixTreeGangLookup_scans_iff_zeroStored :
    GangScans zeroStored 0 5 ↔ zeroStored.rnode = .null ∨ Dense zeroStored 0 5 :=
  radixTreeGangLookup_scans_iff reachable_zeroStored 0 (by omega)

/-- The tree after the further insertion of `6` under `100`. -/
def gapTree : Head ℕ :=
  { height := 3
    rnode := .node 2 (Function.update
      (Function.update (fun _ => .null) 0
        (.node 1 (Function.update (fun _ => .null) 0 zeroStored.rnode))) 1
      (.node 1 (Function.update (fun _ => .null) 4
        (.node 1 (Function.update (fun _ => .null) 4 (.item 6))))))
    heightToMaxindex := [0, 7, 63, 511] }

/-- A scan from `0` over items under `0` and `100` follows the `NULL` slot between them. -/
theorem radixTreeGangLookup_follows_null :
    Reachable gapTree ∧ radixTreeLookup gapTree 0 = some (.item 5) ∧
      radixTreeLookup gapTree 100 = some (.item 6) ∧ radixTreeGangLookup gapTree 0 5 = none ∧
      ¬ GangScans gapTree 0 5 := by
  have hins : radixTreeInsert (fun _ => false) zeroStored 100 6 = some (0, gapTree, 4) := rfl
  have h : Reachable gapTree := .insert reachable_zeroStored (by omega) hins
  have hroot : gapTree.rnode ≠ .null := by simp [gapTree]
  have hgap : ¬ Dense gapTree 0 5 := by
    intro hdense
    have hcount : (gapTree.present 0 (8 * 1)).length = 1 := rfl
    obtain ⟨j, hj, hne⟩ := hdense 1 (by omega) (by show 8 * 1 < 8 ^ 3; omega)
      (by rw [hcount]; omega)
    obtain ⟨hlo, hhi⟩ : 8 ≤ j ∧ j < 16 := by omega
    interval_cases j <;> exact hne rfl
  have hnone : radixTreeGangLookup gapTree 0 5 = none := by
    rw [radixTreeGangLookup_eq h hroot]
    exact gangFrom_of_not_dense (h.scannable hroot) (by rw [List.length_nil]; omega) hgap
  refine ⟨h, rfl, rfl, hnone, ?_⟩
  rw [GangScans, hnone]
  exact (Option.some_ne_none _).symm

end RadixTree
end CModel
