import CModel.RadixTree.Insert

/-!
# `radix_tree_delete`

The path of `radix_tree_delete` starts at `&head->rnode`, and from there on the address of a slot is
taken for the address of a node, where `radix_tree_insert` reads what is in the slot.  So the
path never leaves the head: its nodes and slots are addresses counted from there.

* `radixTreeDelete`: the descent, the counts on the way back, the test of the root.
* `Built`: the trees that insertions and deletions build; `Built.sane`.
* `radixTreeDelete_exact_iff`: **a deletion does its task if and only if the index is larger than
  all that the tree can hold.**
-/

namespace CModel
namespace RadixTree

variable {α : Type}

/-! ## The model -/

/-- What `radix_tree_delete` returns: what a slot holds, or an address in or behind the head. -/
inductive VoidPtr (α : Type) where
  | held (s : Slot α)
  | intoHead (offset : ℕ)

/-- `offsetof(radix_tree_head, rnode)` -/
def rnodeOffset : ℕ := 8

/-- `offsetof(radix_tree_head, height_to_maxindex)` -/
def tableOffset : ℕ := 16

/-- `offsetof(radix_tree_node, slots)` -/
def slotsOffset : ℕ := 8

/-- One entry of the path: the address of the node, and that of the slot in it. -/
structure PathEntry where
  node : Option ℕ
  slot : ℕ

/-- The loop of `radix_tree_delete` down the path, which is kept with its last entry first.  The
test `pathp->slot == NULL` is of an address and never holds. -/
def descend (index : ℕ) : (height : ℕ) → PathEntry → List PathEntry → List PathEntry
  | 0, entry, path => entry :: path
  | h + 1, entry, path =>
    descend index h ⟨some entry.slot, entry.slot + slotsOffset + 8 * digit index h⟩ (entry :: path)

/-- `--(node->count)` for a node at an address counted from the head, with the new count.  In the
table it hits a largest index; on `rnode` it would make a number of a pointer, and behind the head
there is nothing. -/
def decrementCount (head : Head α) (node : ℕ) : Option (ℕ × Head α) :=
  if node < tableOffset then none
  else
    let k := (node - tableOffset) / 4
    match head.heightToMaxindex[k]? with
    | none => none
    | some m =>
      let count := (m + (2 ^ 32 - 1)) % 2 ^ 32
      some (count, { head with heightToMaxindex := head.heightToMaxindex.set k count })

/-- The loop back up the path.  A count that gets to `0` would free an address in the head, which
`calloc` has not returned. -/
def ascend (head : Head α) : List PathEntry → Option (Head α)
  | [] => none
  | entry :: _ =>
    match entry.node with
    | none => some head
    | some node => do
      let (count, head) ← decrementCount head node
      if count = 0 then none else some head

/-- `radix_tree_delete`: what it returns, and the head. -/
def radixTreeDelete (head : Head α) (index : ℕ) : Option (VoidPtr α × Head α) := do
  let m ← radixTreeMaxindex head
  if index > m then some (.held .null, head)
  else do
    let path := descend index head.height ⟨none, rnodeOffset⟩ []
    let entry ← path.head?
    let head ← ascend head path
    let head := if head.rnode.isNull then { head with height := 0 } else head
    some (.intoHead entry.slot, head)

/-! ## What a deletion is for -/

/-- The deletion of `index` returns the item under it, or `NULL`, and takes out this entry and no
other. -/
def DeletesExactly (head : Head α) (index : ℕ) : Prop :=
  ∃ s head', radixTreeDelete head index = some (.held s, head') ∧
    radixTreeLookup head index = some s ∧
    radixTreeLookup head' index = some .null ∧
    ∀ j, j ≠ index → radixTreeLookup head' j = radixTreeLookup head j

/-- The trees that successful insertions and deletions build. -/
inductive Built : Head α → Prop
  | initialised : Built initialised
  | insert {head head' : Head α} {fails : ℕ → Bool} {index : ℕ} {x : α} {n : ℕ}
      (h : Built head) (hins : radixTreeInsert fails head index x = some (0, head', n)) :
      Built head'
  | delete {head head' : Head α} {index : ℕ} {ret : VoidPtr α} (h : Built head)
      (hdel : radixTreeDelete head index = some (ret, head')) : Built head'

/-! ## What the two operations keep -/

/-- The loop over the table ends inside it. -/
theorem findHeight_lt {index : ℕ} {table : List ℕ} {height h : ℕ}
    (hfind : findHeight index table height = some h) : height ≤ h ∧ h < height + table.length := by
  induction table generalizing height with
  | nil => exact absurd hfind (by simp [findHeight])
  | cons m table ih =>
    rw [findHeight] at hfind
    rw [List.length_cons]
    split at hfind
    · have hle := ih hfind
      omega
    · have heq := Option.some.inj hfind
      omega

theorem radixTreeExtend_sane (fails : ℕ → Bool) {head head' : Head α} (hs : Sane head)
    {index n : ℕ} {code : ℤ} (hext : radixTreeExtend fails head index = some (code, head', n)) :
    Sane head' := by
  obtain ⟨a, b, c, htable⟩ := hs.table
  rw [radixTreeExtend, Option.bind_eq_bind, Option.bind_eq_some_iff] at hext
  obtain ⟨h, hfind, hext⟩ := hext
  obtain ⟨hlo, hhi⟩ := findHeight_lt hfind
  have hheight := hs.height_le
  rw [List.length_drop, htable] at hhi
  have h3 : h ≤ 3 := by
    have hlen : [a, b, c, 511].length = 4 := rfl
    omega
  split at hext
  · next hnull =>
    obtain ⟨-, rfl, -⟩ := Option.some.inj hext
    refine ⟨⟨a, b, c, htable⟩, h3, ?_⟩
    show Shape h head.rnode
    rw [isNull_iff.mp hnull]
    exact shape_null h
  · obtain ⟨code', head'', n', hgrow, hg⟩ := growTree_spec (k := h - head.height) fails hs.shape 0
    rw [hgrow] at hext
    obtain ⟨-, rfl, -⟩ := Option.some.inj hext
    have hle := hg.height_le
    exact ⟨⟨a, b, c, hg.table.trans htable⟩, by omega, hg.shape⟩

theorem radixTreeInsert_sane (fails : ℕ → Bool) {head head' : Head α} (hs : Sane head)
    {index n : ℕ} {x : α} {code : ℤ}
    (hins : radixTreeInsert fails head index x = some (code, head', n)) : Sane head' := by
  cases hm : radixTreeMaxindex head with
  | none =>
    rw [radixTreeInsert, hm] at hins
    exact absurd hins (by simp)
  | some m =>
    rw [radixTreeInsert_eq fails hm, Option.bind_eq_some_iff] at hins
    obtain ⟨⟨error, head₁, n₁⟩, hprep, hins⟩ := hins
    have hs₁ : Sane head₁ := by
      rw [prepare] at hprep
      split at hprep
      · exact radixTreeExtend_sane fails hs hprep
      · obtain ⟨-, rfl, -⟩ := Option.some.inj hprep
        exact hs
    split at hins
    · obtain ⟨-, rfl, -⟩ := Option.some.inj hins
      exact hs₁
    · obtain ⟨code', slot', n', hat, hspec⟩ := insertAt_spec fails index x hs₁.shape n₁
      rw [hat, Option.bind_some] at hins
      obtain ⟨-, rfl, -⟩ := Option.some.inj hins
      exact ⟨hs₁.table, hs₁.height_le, hspec.shape⟩

/-- The nodes of the path are eight bytes apart, or more. -/
theorem descend_aligned (index : ℕ) {h : ℕ} {entry : PathEntry} {path : List PathEntry}
    (hnode : ∀ node ∈ entry.node, 8 ∣ node) (hslot : 8 ∣ entry.slot) :
    ∀ e ∈ (descend index h entry path).head?, (∀ node ∈ e.node, 8 ∣ node) := by
  induction h generalizing entry path with
  | zero =>
    intro e he
    obtain rfl := Option.some.inj he
    exact hnode
  | succ h ih =>
    refine ih ?_ ?_
    · intro node hn
      obtain rfl := Option.some.inj hn
      exact hslot
    · show 8 ∣ entry.slot + slotsOffset + 8 * digit index h
      have h8 : slotsOffset = 8 := rfl
      omega

/-- A count on the path is the first or the third entry of the table. -/
theorem decrementCount_sane {head head' : Head α} (hs : Sane head) {node count : ℕ}
    (hnode : 8 ∣ node) (hdec : decrementCount head node = some (count, head')) : Sane head' := by
  obtain ⟨a, b, c, htable⟩ := hs.table
  rw [decrementCount] at hdec
  split at hdec
  · exact absurd hdec (by simp)
  · next hge =>
    have h16 : tableOffset = 16 := rfl
    have heven : (node - tableOffset) / 4 % 2 = 0 := by omega
    generalize (node - tableOffset) / 4 = k at hdec heven
    simp only [htable] at hdec
    split at hdec
    · exact absurd hdec (by simp)
    · next m hm =>
      rw [Option.some.injEq, Prod.mk.injEq] at hdec
      obtain ⟨-, rfl⟩ := hdec
      obtain ⟨hk, -⟩ := List.getElem?_eq_some_iff.mp hm
      have hk4 : k < 4 := hk
      refine ⟨?_, hs.height_le, hs.shape⟩
      obtain rfl | rfl : k = 0 ∨ k = 2 := by omega
      · exact ⟨_, b, c, rfl⟩
      · exact ⟨a, b, _, rfl⟩

theorem ascend_sane {head head' : Head α} (hs : Sane head) {path : List PathEntry}
    (hal : ∀ e ∈ path.head?, ∀ node ∈ e.node, 8 ∣ node) (hasc : ascend head path = some head') :
    Sane head' := by
  cases path with
  | nil => exact absurd hasc (by simp [ascend])
  | cons entry path =>
    rw [ascend] at hasc
    split at hasc
    · obtain rfl := Option.some.inj hasc
      exact hs
    · next node hnode =>
      rw [Option.bind_eq_bind, Option.bind_eq_some_iff] at hasc
      obtain ⟨⟨count, head₁⟩, hdec, hasc⟩ := hasc
      have hcount : (if count = 0 then none else some head₁) = some head' := hasc
      split at hcount
      · exact absurd hcount (by simp)
      · obtain rfl := Option.some.inj hcount
        exact decrementCount_sane hs (hal entry rfl node hnode) hdec

theorem radixTreeDelete_sane {head head' : Head α} (hs : Sane head) {index : ℕ}
    {ret : VoidPtr α} (hdel : radixTreeDelete head index = some (ret, head')) : Sane head' := by
  rw [radixTreeDelete, Option.bind_eq_bind, Option.bind_eq_some_iff] at hdel
  obtain ⟨m, -, hdel⟩ := hdel
  split at hdel
  · obtain ⟨-, rfl⟩ := Option.some.inj hdel
    exact hs
  · simp only [Option.bind_eq_bind, Option.bind_eq_some_iff] at hdel
    obtain ⟨entry, -, head₁, hasc, hdel⟩ := hdel
    have hs₁ := ascend_sane hs (descend_aligned index (by simp) (by decide)) hasc
    obtain ⟨-, rfl⟩ := Option.some.inj hdel
    split
    · next hnull =>
      refine ⟨hs₁.table, Nat.zero_le 3, ?_⟩
      show Shape 0 head₁.rnode
      rw [isNull_iff.mp hnull]
      exact shape_null 0
    · exact hs₁

/-- **Every tree in use is one that the operations can work on.** -/
theorem Built.sane {head : Head α} (h : Built head) : Sane head := by
  induction h with
  | initialised => exact wellFormed_initialised.sane
  | insert h hins ih => exact radixTreeInsert_sane _ ih hins
  | delete h hdel ih => exact radixTreeDelete_sane ih hdel

/-! ## The result -/

theorem Sane.maxindex {head : Head α} (hs : Sane head) :
    ∃ m, radixTreeMaxindex head = some m := by
  obtain ⟨a, b, c, htable⟩ := hs.table
  have hle := hs.height_le
  rw [radixTreeMaxindex, htable]
  interval_cases head.height <;> exact ⟨_, rfl⟩

theorem Sane.lookup {head : Head α} (hs : Sane head) (index : ℕ) :
    ∃ s, radixTreeLookup head index = some s := by
  obtain ⟨m, hm⟩ := hs.maxindex
  rw [radixTreeLookup, hm, Option.bind_eq_bind, Option.bind_some]
  split
  · exact ⟨.null, rfl⟩
  · exact ⟨_, lookupAt_eq hs.shape index⟩

/-- A deletion within the tree hands back an address, never an item. -/
theorem radixTreeDelete_address {head head' : Head α} {index m : ℕ} {ret : VoidPtr α}
    (hm : radixTreeMaxindex head = some m) (hle : index ≤ m)
    (hdel : radixTreeDelete head index = some (ret, head')) : ∃ k, ret = .intoHead k := by
  rw [radixTreeDelete, hm, Option.bind_eq_bind, Option.bind_some, if_neg (by omega)] at hdel
  simp only [Option.bind_eq_bind, Option.bind_eq_some_iff] at hdel
  obtain ⟨entry, -, head₁, -, hdel⟩ := hdel
  obtain ⟨rfl, -⟩ := Option.some.inj hdel
  exact ⟨entry.slot, rfl⟩

/-- **A deletion does its task if and only if the index is larger than all that the tree can
hold**, which is when it does nothing. -/
theorem radixTreeDelete_exact_iff {head : Head α} (h : Built head) (index : ℕ) :
    DeletesExactly head index ↔ ∃ m, radixTreeMaxindex head = some m ∧ m < index := by
  obtain ⟨m, hm⟩ := h.sane.maxindex
  constructor
  · rintro ⟨s, head', hdel, -⟩
    refine ⟨m, hm, ?_⟩
    by_contra hle
    obtain ⟨k, hk⟩ := radixTreeDelete_address hm (Nat.le_of_not_lt hle) hdel
    exact absurd hk (by simp)
  · rintro ⟨m', hm', hlt⟩
    have hdel : radixTreeDelete head index = some (.held .null, head) := by
      rw [radixTreeDelete, hm', Option.bind_eq_bind, Option.bind_some, if_pos hlt]
    have hlookup : radixTreeLookup head index = some .null := by
      rw [radixTreeLookup, hm', Option.bind_eq_bind, Option.bind_some, if_pos hlt]
    exact ⟨.null, head, hdel, hlookup, hlookup, fun _ _ => rfl⟩

/-- An index that the first tree cannot hold. -/
theorem radixTreeDelete_exact_iff_initialised :
    DeletesExactly (initialised : Head ℕ) 9 ↔
      ∃ m, radixTreeMaxindex (initialised : Head ℕ) = some m ∧ m < 9 :=
  radixTreeDelete_exact_iff .initialised 9

/-- The head after the insertion of `5` under `9`. -/
def nineStored : Head ℕ :=
  { height := 2
    rnode := .node 1 (Function.update (fun _ => .null) 1
      (.node 1 (Function.update (fun _ => .null) 1 (.item 5))))
    heightToMaxindex := [0, 7, 63, 511] }

/-- The deletion of `9` after the insertion of `9`: the largest index of trees of height `2` goes
down, the address behind the head is returned, and the item is still there. -/
theorem radixTreeDelete_keeps_item :
    Built nineStored ∧ radixTreeLookup nineStored 9 = some (.item 5) ∧
      radixTreeDelete nineStored 9 =
        some (.intoHead 40, { nineStored with heightToMaxindex := [0, 7, 62, 511] }) ∧
      radixTreeLookup { nineStored with heightToMaxindex := [0, 7, 62, 511] } 9 =
        some (.item 5) ∧
      ¬ DeletesExactly nineStored 9 := by
  have hdel : radixTreeDelete nineStored 9 =
      some (.intoHead 40, { nineStored with heightToMaxindex := [0, 7, 62, 511] }) := rfl
  have hins : radixTreeInsert (fun _ => false) (initialised : Head ℕ) 9 5 =
      some (0, nineStored, 2) := rfl
  refine ⟨.insert .initialised hins, rfl, hdel, rfl, ?_⟩
  rintro ⟨s, head', hdel', -⟩
  rw [hdel] at hdel'
  exact absurd (congrArg Prod.fst (Option.some.inj hdel')) (by simp)

end RadixTree
end CModel
