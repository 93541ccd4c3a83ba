import CModel.RbTree.InsertColor
import CModel.RbTree.Locate

/-!
# The store of ids is a finite set

* `Represents`: the tree in the memory, a red-black tree with the ids in ascending order, and the
  set of the ids.
* `Represents.search`, `Represents.insert`, `Represents.delete`, `Represents.print`: what the calls
  do to them.
* `Calls.represents`, `calls_isSet`: **after any calls the store is the set of its ids.**
-/

namespace CModel
namespace RbTree

open RedBlack RbRoot NodeType Ids

variable {w : Ids} {T : CTree Item} {s : Finset ℤ} {content : ℕ} {id : ℤ}

/-- The tree `T` is in the memory, and `s` are the ids in it. -/
structure Represents (w : Ids) (T : CTree Item) (s : Finset ℤ) : Prop where
  stores : Stores w.root [] T
  balanced : IsRedBlack T
  ascending : Ascending T.inorder
  data : Dated w T.inorder
  mem : ∀ id, id ∈ s ↔ ∃ a ∈ T.inorder, a.id = id

theorem represents_init : Represents rbtreeInit .leaf ∅ where
  stores := ⟨rfl, fun P hP => by rw [List.mem_singleton.mp hP]; trivial, List.nodup_nil⟩
  balanced := ⟨rfl, 0, rfl⟩
  ascending := List.Pairwise.nil
  data _ ha := absurd ha List.not_mem_nil
  mem _ := by simp

namespace Represents

/-- The data of others do not matter. -/
theorem new (h : Represents w T s) (id : ℤ) :
    Represents { w with data := (w.data.new id).2 } T s where
  stores := h.stores
  balanced := h.balanced
  ascending := h.ascending
  data a ha := by
    rw [Store.new_snd_cell, Function.update_of_ne (ne_of_lt (Store.lt_next (h.data a ha)))]
    exact h.data a ha
  mem := h.mem

/-- The whole tree, seen from the place of an id. -/
theorem locate_stores (h : Represents w T s) (id : ℤ) :
    Stores w.root [] (fill (locate id [] T).1 (locate id [] T).2) := by
  rw [fill_locate]
  exact h.stores

theorem inorder_locate (T : CTree Item) (id : ℤ) :
    T.inorder = before (locate id [] T).1 ++ (locate id [] T).2.inorder ++
      after (locate id [] T).1 := by
  rw [← inorder_fill, fill_locate, fill_nil]

/-- A leaf is between the smaller and the larger ids. -/
theorem bounds (h : Represents w T s) (hleaf : (locate id [] T).2 = .leaf) :
    (∀ a ∈ before (locate id [] T).1, a.id < id) ∧ ∀ a ∈ after (locate id [] T).1, id < a.id := by
  have hsorted : Ascending (fill [] T).inorder := h.ascending
  exact locate_bounds hsorted (by simp [before]) (by simp [after]) hleaf

/-- An id of the store is found. -/
theorem locate_of_mem (h : Represents w T s) (hmem : id ∈ s) :
    ∃ c l a r, (locate id [] T).2 = .join .left c l a r ∧ a.id = id := by
  refine locate_root.resolve_left ?_
  intro hleaf
  obtain ⟨hbefore, hafter⟩ := h.bounds hleaf
  obtain ⟨a, ha, rfl⟩ := (h.mem id).mp hmem
  rw [inorder_locate T a.id, hleaf, CTree.inorder_leaf, List.append_nil] at ha
  rcases List.mem_append.mp ha with ha | ha
  · exact lt_irrefl _ (hbefore a ha)
  · exact lt_irrefl _ (hafter a ha)

/-- What is found is in the store. -/
theorem locate_of_not_mem (h : Represents w T s) (hmem : id ∉ s) : (locate id [] T).2 = .leaf := by
  refine locate_root.resolve_right ?_
  rintro ⟨c, l, a, r, hfound, rfl⟩
  refine hmem ((h.mem _).mpr ⟨a, ?_, rfl⟩)
  rw [inorder_locate T a.id, hfound]
  simp [CTree.join]

/-- There is enough fuel for the way down. -/
theorem length_lt (h : Represents w T s) (id : ℤ) :
    (locate id [] T).1.length < w.root.fuel + ([] : List (Frame Item)).length :=
  Nat.lt_succ_of_le (h.locate_stores id).length_le

/-! ## `rbtree_search` -/

theorem search (h : Represents w T s) (hid : w.data.cell content = some id) :
    w.rbtreeSearch content = some (rootAddr (locate id [] T).2) := by
  have hroot : Stores w.root [] (fill [] T) := h.stores
  rw [rbtreeSearch, h.stores.root]
  exact searchLoop_spec hroot h.data hid (h.length_lt id)

theorem search_of_mem (h : Represents w T s) (hid : w.data.cell content = some id) (hmem : id ∈ s) :
    ∃ p, w.rbtreeSearch content = some (some p) ∧ w.idOf p = some id := by
  have hsearch := h.search hid
  obtain ⟨c, l, a, r, hfound, rfl⟩ := h.locate_of_mem hmem
  have hstores := h.locate_stores a.id
  have hdata : Dated w (fill (locate a.id [] T).1 (locate a.id [] T).2).inorder := by
    rw [fill_locate]
    exact h.data
  rw [hfound] at hsearch hstores hdata
  rw [rootAddr_join] at hsearch
  exact ⟨a.addr, hsearch, idOf_focus hstores hdata.of_fill⟩

theorem search_of_not_mem (h : Represents w T s) (hid : w.data.cell content = some id)
    (hmem : id ∉ s) : w.rbtreeSearch content = some none := by
  rw [h.search hid, h.locate_of_not_mem hmem, rootAddr_leaf]

/-! ## `rbtree_insert` -/

/-- The place of the id of a new node. -/
theorem calloc_slot (h : Represents w T s) (hid : w.data.cell content = some id) :
    slotLoop (w.calloc content).2 (w.calloc content).1 (w.calloc content).2.root.fuel none none =
      some (if rootAddr (locate id [] T).2 = none then
        some (slotOf (locate id [] T).1, above none (locate id [] T).1) else none) := by
  have hroot : Stores (w.calloc content).2.root _ (fill [] T) := calloc_spec h.stores content
  have hnew : (w.calloc content).2.idOf (w.calloc content).1 = some id := by
    have hcontent : (w.calloc content).2.root.get (w.calloc content).1 dataContent = some content :=
      Owns.read (L := [_]) hroot fun _ hx => congrArg Node.data hx
    have hdata : (w.calloc content).2.data.cell content = some id := hid
    simp only [idOf, hcontent, hdata, Option.bind_eq_bind, Option.bind_some]
  exact slotLoop_spec hroot h.data hnew (Nat.lt_succ_of_lt (h.length_lt id))

/-- The nodes of a tree that were there are as before. -/
structure SameTree (w w' : Ids) : Prop where
  root : w'.root.rbNode = w.root.rbNode
  nodes : ∀ p n, w.root.mem.cell p = some n → w'.root.mem.cell p = some n
  data : w'.data = w.data

theorem insert_of_mem (h : Represents w T s) (hid : w.data.cell content = some id) (hmem : id ∈ s) :
    ∃ w', w.rbtreeInsert content = some (-1, w') ∧ SameTree w w' ∧ Represents w' T s := by
  have hslot := h.calloc_slot hid
  obtain ⟨c, l, a, r, hfound, -⟩ := h.locate_of_mem hmem
  rw [hfound, rootAddr_join, if_neg (Option.some_ne_none _)] at hslot
  refine ⟨(w.calloc content).2, ?_, ⟨rfl, ?_, rfl⟩, ?_⟩
  · simp only [rbtreeInsert, hslot, Option.bind_eq_bind, Option.bind_some]
  · intro p n hp
    have hne : p ≠ w.root.mem.next := ne_of_lt (Store.lt_next hp)
    simp only [calloc, Store.new_snd_cell, Function.update_of_ne hne, hp]
  · exact ⟨(calloc_spec h.stores content).drop, h.balanced, h.ascending, h.data, h.mem⟩

/-- A new item between the smaller and the larger ones. -/
theorem ascending_insert {l₁ l₂ : List Item} {b : Item} (h : Ascending (l₁ ++ l₂))
    (h₁ : ∀ a ∈ l₁, a.id < b.id) (h₂ : ∀ a ∈ l₂, b.id < a.id) : Ascending (l₁ ++ b :: l₂) := by
  obtain ⟨hl₁, hl₂, hcross⟩ := List.pairwise_append.mp h
  refine List.pairwise_append.mpr ⟨hl₁, List.pairwise_cons.mpr ⟨h₂, hl₂⟩, ?_⟩
  intro a ha c hc
  rcases List.mem_cons.mp hc with rfl | hc
  · exact h₁ a ha
  · exact hcross a ha c hc

/-- A node that is linked to its place and then coloured. -/
theorem rbInsert_spec {t : RbRoot} {R : List (Piece ℕ (Option Node))} {fs : List (Frame Item)}
    {p : ℕ} {n : Node} (h : Stores t (cell p n :: R) (fill fs .leaf))
    (hrb : IsRedBlack (fill fs .leaf : CTree Item)) (id : ℤ) :
    ∃ t₁ t₂ T', rbLinkNode t p (above none fs) (slotOf fs) = some t₁ ∧
      rbInsertColor t₁ p = some t₂ ∧ Stores t₂ R T' ∧ IsRedBlack T' ∧
      T'.inorder = before fs ++ ⟨p, n.data, id⟩ :: after fs := by
  obtain ⟨t₁, hlink, h₁⟩ := rbLinkNode_spec h id
  obtain ⟨m, hole, rfl, -⟩ := isRedBlack_fill.mp hrb
  have hred : RedAt t₁ R p fs _ _ :=
    ⟨h₁, rootAddr_join .., CTree.color_join .., ⟨0, hole, valid_red.mpr ⟨rfl, rfl, rfl, rfl⟩⟩, rfl⟩
  obtain ⟨t₂, T', hcolor, h₂, hrb', hinorder⟩ := rbInsertColor_spec hred
  refine ⟨t₁, t₂, T', hlink, hcolor, h₂, hrb', ?_⟩
  rw [hinorder, inorder_fill]
  simp [CTree.join]

theorem insert_of_not_mem (h : Represents w T s) (hid : w.data.cell content = some id)
    (hmem : id ∉ s) :
    ∃ w' T', w.rbtreeInsert content = some (0, w') ∧ Represents w' T' (insert id s) := by
  have hslot := h.calloc_slot hid
  have hleaf := h.locate_of_not_mem hmem
  obtain ⟨hbefore, hafter⟩ := h.bounds hleaf
  have hfill : fill (locate id [] T).1 (locate id [] T).2 = T := fill_locate
  have hold := inorder_locate T id
  rw [hleaf, rootAddr_leaf, if_pos rfl] at hslot
  rw [hleaf] at hfill
  rw [hleaf, CTree.inorder_leaf, List.append_nil] at hold
  obtain ⟨t₁, t₂, T', hlink, hcolor, hstores, hrb, hitems⟩ :=
    rbInsert_spec (hfill.symm ▸ calloc_spec h.stores content) (hfill.symm ▸ h.balanced) id
  have hrun : w.rbtreeInsert content = some (0, { (w.calloc content).2 with root := t₂ }) := by
    simp only [rbtreeInsert, hslot, hlink, hcolor, Option.bind_eq_bind, Option.bind_some]
  refine ⟨_, T', hrun, hstores, hrb, ?_, ?_, ?_⟩
  · rw [hitems]
    exact ascending_insert (hold ▸ h.ascending) hbefore hafter
  · intro a ha
    rw [hitems] at ha
    rcases List.mem_cons.mp (List.perm_middle.mem_iff.mp ha) with rfl | ha
    · exact hid
    · exact h.data a (hold ▸ ha)
  · intro k
    rw [Finset.mem_insert, h.mem, hold, hitems]
    simp only [List.perm_middle.mem_iff, List.exists_mem_cons_iff, eq_comm]

/-! ## `rbtree_delete` -/

theorem delete_of_not_mem (h : Represents w T s) (hid : w.data.cell content = some id)
    (hmem : id ∉ s) : w.rbtreeDelete content = some w := by
  simp only [rbtreeDelete, h.search_of_not_mem hid hmem, Option.bind_eq_bind, Option.bind_some]

/-- A node that is not in the tree is freed. -/
theorem stores_free {t : RbRoot} {p : ℕ} {n : Node} (h : Stores t [cell p n] T) :
    ∃ mem, t.mem.delete p = some mem ∧ Stores { t with mem } [] T := by
  have hview : t.view p = some n := h.pieces.one_at (L := [_])
  obtain ⟨x, hx, -⟩ := Option.map_eq_some_iff.mp hview
  have hroot := Stores.root h
  refine ⟨_, Store.delete_of_some hx, hroot, ?_⟩
  have hfreed : RbRoot.view { t with mem := t.mem.put p (Store.lt_next hx) none } =
      Function.update t.view p none := by
    funext q
    by_cases hq : q = p
    · rw [hq, Function.update_self, RbRoot.view, Store.put_cell, Function.update_self,
        Option.map_none]
    · rw [Function.update_of_ne hq, RbRoot.view, Store.put_cell, Function.update_of_ne hq,
        RbRoot.view]
  rw [hfreed]
  exact (h.pieces.write (L := [_]) none).drop (L := [_])

/-- No other item has the id of an item. -/
theorem id_ne_of_ascending {l₁ l₂ : List Item} {a : Item} (h : Ascending (l₁ ++ a :: l₂)) :
    ∀ b ∈ l₁ ++ l₂, b.id ≠ a.id := by
  obtain ⟨-, hright, hleft⟩ := List.pairwise_append.mp h
  intro b hb
  rcases List.mem_append.mp hb with hb | hb
  · exact ne_of_lt (hleft b hb a List.mem_cons_self)
  · exact ne_of_gt ((List.pairwise_cons.mp hright).1 b hb)

theorem delete_of_mem (h : Represents w T s) (hid : w.data.cell content = some id)
    (hmem : id ∈ s) :
    ∃ w' T', w.rbtreeDelete content = some w' ∧ Represents w' T' (s.erase id) := by
  have hsearch := h.search hid
  obtain ⟨c, l, a, r, hfound, rfl⟩ := h.locate_of_mem hmem
  have hstores := h.locate_stores a.id
  have hfill : fill (locate a.id [] T).1 (locate a.id [] T).2 = T := fill_locate
  have hold := inorder_locate T a.id
  rw [hfound] at hsearch hstores hfill hold
  rw [rootAddr_join] at hsearch
  obtain ⟨t₁, T', v, hv, herase, h₁, hrb, hitems⟩ := rbErase_spec hstores (hfill.symm ▸ h.balanced)
  have hcontent : t₁.get a.addr dataContent = some a.data :=
    hv ▸ Owns.read (L := [_]) h₁ fun _ hx => congrArg Node.data hx
  obtain ⟨mem, hfree, h₂⟩ := stores_free h₁
  -- the items before and after the one that is taken out
  obtain ⟨l₁, l₂, hT, hT'⟩ : ∃ l₁ l₂, T.inorder = l₁ ++ a :: l₂ ∧ T'.inorder = l₁ ++ l₂ :=
    ⟨before (locate a.id [] T).1 ++ l.inorder, r.inorder ++ after (locate a.id [] T).1,
      by simp [hold, CTree.join], by simp [hitems]⟩
  have hne := id_ne_of_ascending (hT ▸ h.ascending)
  have hsub : ∀ b ∈ l₁ ++ l₂, b ∈ T.inorder := fun b hb =>
    hT ▸ List.perm_middle.mem_iff.mpr (List.mem_cons_of_mem a hb)
  have hdata : w.data.cell a.data = some a.id :=
    h.data a (hT ▸ List.perm_middle.mem_iff.mpr List.mem_cons_self)
  have hrun : w.rbtreeDelete content =
      some ⟨{ t₁ with mem }, w.data.put a.data (Store.lt_next hdata) none⟩ := by
    simp only [rbtreeDelete, hsearch, herase, hcontent, Store.delete_of_some hdata, hfree,
      Option.bind_eq_bind, Option.bind_some]
  refine ⟨_, T', hrun, h₂, hrb, ?_, ?_, ?_⟩
  · rw [hT']
    exact (hT ▸ h.ascending).sublist ((List.sublist_cons_self a l₂).append_left l₁)
  · intro b hb
    rw [hT'] at hb
    have hcell := h.data b (hsub b hb)
    rw [Store.put_cell, Function.update_of_ne, hcell]
    rintro heq
    rw [heq, hdata] at hcell
    exact hne b hb (Option.some.inj hcell).symm
  · intro k
    rw [Finset.mem_erase, h.mem, hT, hT']
    constructor
    · rintro ⟨hk, b, hb, rfl⟩
      rcases List.mem_cons.mp (List.perm_middle.mem_iff.mp hb) with rfl | hb
      · exact absurd rfl hk
      · exact ⟨b, hb, rfl⟩
    · rintro ⟨b, hb, rfl⟩
      exact ⟨hne b hb, b, List.perm_middle.mem_iff.mpr (List.mem_cons_of_mem a hb), rfl⟩

/-! ## `print_rbtree` -/

theorem print (h : Represents w T s) : w.printRbtree = some (T.inorder.map Item.id) := by
  obtain ⟨q, hfirst, honward⟩ := rbFirst_spec h.stores
  have hprint := printLoop_spec h.stores h.data honward (Nat.lt_succ_of_le h.stores.size_le)
  simp only [printRbtree, hfirst, Option.bind_eq_bind, Option.bind_some]
  exact hprint

end Represents

/-! ## Runs -/

theorem Calls.represents (h : Calls w s) : ∃ T, Represents w T s := by
  induction h with
  | init => exact ⟨_, represents_init⟩
  | data id _ ih =>
    obtain ⟨T, hT⟩ := ih
    exact ⟨T, hT.new id⟩
  | @insert w w' s content id code _ hid hrun ih =>
    obtain ⟨T, hT⟩ := ih
    by_cases hmem : id ∈ s
    · obtain ⟨w₁, hinsert, -, hT'⟩ := hT.insert_of_mem hid hmem
      obtain ⟨-, rfl⟩ := Prod.mk.inj (Option.some.inj (hrun.symm.trans hinsert))
      rw [Finset.insert_eq_of_mem hmem]
      exact ⟨T, hT'⟩
    · obtain ⟨w₁, T', hinsert, hT'⟩ := hT.insert_of_not_mem hid hmem
      obtain ⟨-, rfl⟩ := Prod.mk.inj (Option.some.inj (hrun.symm.trans hinsert))
      exact ⟨T', hT'⟩
  | @delete w w' s content id _ hid hrun ih =>
    obtain ⟨T, hT⟩ := ih
    by_cases hmem : id ∈ s
    · obtain ⟨w₁, T', hdelete, hT'⟩ := hT.delete_of_mem hid hmem
      obtain rfl := Option.some.inj (hrun.symm.trans hdelete)
      exact ⟨T', hT'⟩
    · obtain rfl := Option.some.inj (hrun.symm.trans (hT.delete_of_not_mem hid hmem))
      rw [Finset.erase_eq_of_notMem hmem]
      exact ⟨T, hT⟩

/-- What the store does when the ids `s` are in it. -/
structure IsSet (w : Ids) (s : Finset ℤ) : Prop where
  /-- `rbtree_search` finds a node with the id where there is one -/
  search : ∀ content id, w.data.cell content = some id →
    ∃ q, w.rbtreeSearch content = some q ∧ (q.isSome ↔ id ∈ s) ∧
      ∀ p, q = some p → w.idOf p = some id
  /-- `rbtree_insert` returns `-1` where the id is there and leaves the tree, else `0` -/
  insert : ∀ content id, w.data.cell content = some id →
    ∃ code w', w.rbtreeInsert content = some (code, w') ∧ (code = -1 ↔ id ∈ s) ∧
      (code = 0 ↔ id ∉ s) ∧ (id ∈ s → Represents.SameTree w w')
  /-- `rbtree_delete` returns, and changes nothing where the id is not there -/
  delete : ∀ content id, w.data.cell content = some id →
    ∃ w', w.rbtreeDelete content = some w' ∧ (id ∉ s → w' = w)
  /-- `print_rbtree` prints the ids in order, each once -/
  print : ∃ l, w.printRbtree = some l ∧ l.Pairwise (· < ·) ∧ ∀ id, id ∈ l ↔ id ∈ s
  /-- properties 2, 4 and 5 -/
  balanced : ∃ T, Stores w.root [] T ∧ T.color = .black ∧ NoRedRed T ∧ EqualBlacks T

/-- After any calls of `rbtree_insert` and `rbtree_delete` the store is the set of the ids that were
inserted and not deleted since, as a red-black tree. -/
theorem calls_isSet (h : Calls w s) : IsSet w s := by
  obtain ⟨T, hT⟩ := h.represents
  obtain ⟨n, hvalid⟩ := hT.balanced.valid
  refine
    { search := fun content id hid => ?_
      insert := fun content id hid => ?_
      delete := fun content id hid => ?_
      print := ⟨_, hT.print, List.pairwise_map.mpr hT.ascending, fun id => ?_⟩
      balanced := ⟨T, hT.stores, hT.balanced.root_black, hvalid.noRedRed, hvalid.equalBlacks⟩ }
  · by_cases hmem : id ∈ s
    · obtain ⟨p, hsearch, hp⟩ := hT.search_of_mem hid hmem
      exact ⟨some p, hsearch, by simp [hmem], fun q hq => Option.some.inj hq ▸ hp⟩
    · exact ⟨none, hT.search_of_not_mem hid hmem, by simp [hmem], by simp⟩
  · by_cases hmem : id ∈ s
    · obtain ⟨w', hinsert, hsame, -⟩ := hT.insert_of_mem hid hmem
      exact ⟨-1, w', hinsert, by simp [hmem], by simp [hmem], fun _ => hsame⟩
    · obtain ⟨w', T', hinsert, -⟩ := hT.insert_of_not_mem hid hmem
      exact ⟨0, w', hinsert, by simp [hmem], by simp [hmem], fun h => absurd h hmem⟩
  · by_cases hmem : id ∈ s
    · obtain ⟨w', T', hdelete, -⟩ := hT.delete_of_mem hid hmem
      exact ⟨w', hdelete, fun h => absurd hmem h⟩
    · exact ⟨w, hT.delete_of_not_mem hid hmem, fun _ => rfl⟩
  · rw [List.mem_map, hT.mem]

/-- Of the ids 5 and 3 the first is deleted. -/
theorem calls_isSet_erase : ∃ w, printRbtree w = some [3] ∧
    IsSet w (Finset.erase (insert 3 (insert 5 ∅)) 5) := by
  have hfive := @Calls.insert _ _ _ 0 5 0 (.data 5 .init) rfl rfl
  have hthree := @Calls.insert _ _ _ 1 3 0 (.data 3 hfive) rfl rfl
  have hdelete := @Calls.delete _ _ _ 0 5 hthree rfl rfl
  exact ⟨_, rfl, calls_isSet hdelete⟩

end RbTree
end CModel
