import CModel.RbTree.ExRbtree
import CModel.RbTree.Walk

/-!
# The place of an id

* `locate`: the way down to an id, or to the leaf where it would be, in the tree.
* `searchLoop_spec`, `slotLoop_spec`: the loops of `rbtree_search` and `rbtree_insert` find it.
* `rbLinkNode_spec`: `rb_link_node` puts a node there.
* `printLoop_spec`: the loop of `print_rbtree`.
-/

namespace CModel
namespace RbTree

open RedBlack RbRoot NodeType Ids

/-! ## In the tree -/

/-- The focus on an id, or on the leaf where it would be. -/
def locate (id : ℤ) : List (Frame Item) → CTree Item → List (Frame Item) × CTree Item
  | fs, .leaf => (fs, .leaf)
  | fs, .node c l a r =>
    if id < a.id then locate id (⟨.left, c, a, r⟩ :: fs) l
    else if id > a.id then locate id (⟨.right, c, a, l⟩ :: fs) r
    else (fs, .node c l a r)

variable {fs : List (Frame Item)} {s : CTree Item} {id : ℤ}

theorem fill_locate : fill (locate id fs s).1 (locate id fs s).2 = fill fs s := by
  induction s generalizing fs with
  | leaf => rfl
  | node c l a r ihl ihr =>
    rw [locate]
    split
    · exact ihl
    · split
      · exact ihr
      · rfl

theorem length_le_locate : fs.length ≤ (locate id fs s).1.length := by
  induction s generalizing fs with
  | leaf => exact Nat.le_refl _
  | node c l a r ihl ihr =>
    rw [locate]
    split
    · exact le_trans (Nat.le_succ _) (@ihl (⟨.left, c, a, r⟩ :: fs))
    · split
      · exact le_trans (Nat.le_succ _) (@ihr (⟨.right, c, a, l⟩ :: fs))
      · exact Nat.le_refl _

/-- A node that is found has the id. -/
theorem locate_root : (locate id fs s).2 = .leaf ∨
    ∃ c l a r, (locate id fs s).2 = .join .left c l a r ∧ a.id = id := by
  induction s generalizing fs with
  | leaf => exact .inl rfl
  | node c l a r ihl ihr =>
    rw [locate]
    split
    · exact ihl
    · split
      · exact ihr
      · exact .inr ⟨c, l, a, r, rfl, by omega⟩

/-- The items by ascending id. -/
def Ascending (l : List Item) : Prop := l.Pairwise fun a b => a.id < b.id

/-- A leaf that is found is between the smaller and the larger ids. -/
theorem locate_bounds (hsorted : Ascending (fill fs s).inorder)
    (hbefore : ∀ a ∈ before fs, a.id < id) (hafter : ∀ a ∈ after fs, id < a.id)
    (hleaf : (locate id fs s).2 = .leaf) :
    (∀ a ∈ before (locate id fs s).1, a.id < id) ∧
      ∀ a ∈ after (locate id fs s).1, id < a.id := by
  induction s generalizing fs with
  | leaf => exact ⟨hbefore, hafter⟩
  | node c l a r ihl ihr =>
    rw [locate] at hleaf ⊢
    have hinner : Ascending (l.inorder ++ a :: r.inorder) := by
      rw [inorder_fill] at hsorted
      exact (List.pairwise_append.mp (List.pairwise_append.mp hsorted).1).2.1
    obtain ⟨-, hright, hleft⟩ := List.pairwise_append.mp hinner
    split at hleaf
    · next hlt =>
      rw [if_pos hlt]
      refine ihl hsorted hbefore ?_ hleaf
      intro b hb
      rcases List.mem_append.mp hb with hb | hb
      · rcases List.mem_cons.mp hb with rfl | hb
        · exact hlt
        · exact lt_trans hlt ((List.pairwise_cons.mp hright).1 b hb)
      · exact hafter b hb
    · next hlt =>
      rw [if_neg hlt]
      split at hleaf
      · next hgt =>
        rw [if_pos hgt]
        refine ihr (by rwa [fill_cons, Frame.plug]) ?_ hafter hleaf
        intro b hb
        rcases List.mem_append.mp hb with hb | hb
        · exact hbefore b hb
        · rcases List.mem_append.mp hb with hb | hb
          · exact lt_trans (hleft b hb a List.mem_cons_self) hgt
          · rw [List.mem_singleton.mp hb]
            exact hgt
      · exact absurd hleaf (by simp)

/-! ## In the memory -/

/-- The slot of the focus. -/
def slotOf : List (Frame Item) → Slot
  | [] => none
  | f :: _ => some (f.item.addr, f.side)

variable {t : RbRoot} {w : Ids} {R : List (Piece ℕ (Option Node))} {c : Color} {l r : CTree Item}
  {a : Item} {content data fuel : ℕ}

theorem readSlot_slotOf (h : Stores t R (fill fs s)) :
    readSlot t (slotOf fs) = some (rootAddr s) := by
  cases fs with
  | nil => exact congrArg some h.root
  | cons f fs =>
    rw [fill_cons, Frame.plug] at h
    exact h.near

/-- The data of the items are there, with the right ids. -/
def Dated (w : Ids) (l : List Item) : Prop := ∀ a ∈ l, w.data.cell a.data = some a.id

theorem Dated.of_fill (hdata : Dated w (fill fs s).inorder) : Dated w s.inorder := fun a ha =>
  hdata a (by
    rw [inorder_fill]
    exact List.mem_append_left _ (List.mem_append_right _ ha))

/-- The id of the node at the focus. -/
theorem idOf_focus (h : Stores w.root R (fill fs (.join .left c l a r)))
    (hdata : Dated w (CTree.join .left c l a r).inorder) : w.idOf a.addr = some a.id := by
  have hid : w.data.cell a.data = some a.id := hdata a (by simp [CTree.join])
  simp only [idOf, h.content, hid, Option.bind_eq_bind, Option.bind_some]

theorem searchLoop_spec (h : Stores w.root R (fill fs s)) (hdata : Dated w s.inorder)
    (hid : w.data.cell content = some id)
    (hfuel : (locate id fs s).1.length < fuel + fs.length) :
    searchLoop w content fuel (rootAddr s) = some (rootAddr (locate id fs s).2) := by
  induction s generalizing fs fuel with
  | leaf =>
    cases fuel with
    | zero => exact absurd hfuel (by simp [locate])
    | succ fuel => rfl
  | node c l a r ihl ihr =>
    have hnear : w.root.get a.addr rbLeft = some (rootAddr l) := Stores.near (d := .left) h
    have hfar : w.root.get a.addr rbRight = some (rootAddr r) := Stores.far (d := .left) h
    have hhere : w.idOf a.addr = some a.id := idOf_focus h hdata
    cases fuel with
    | zero =>
      rw [Nat.zero_add] at hfuel
      exact absurd length_le_locate (Nat.not_le_of_lt hfuel)
    | succ fuel =>
      have hroot : rootAddr (.node c l a r) = some a.addr := rfl
      rw [hroot, locate] at *
      simp only [searchLoop, hid, hhere, Option.bind_eq_bind, Option.bind_some]
      split
      · next hlt =>
        rw [if_pos hlt] at hfuel
        rw [hnear]
        refine ihl (fill_near fs .left c l a r ▸ h) (fun b hb => hdata b ?_) ?_
        · exact List.mem_append_left _ hb
        · rw [List.length_cons]
          omega
      · next hlt =>
        rw [if_neg hlt] at hfuel
        split
        · next hgt =>
          rw [if_pos hgt] at hfuel
          rw [hfar]
          refine ihr (fill_far fs .left c l a r ▸ h) (fun b hb => hdata b ?_) ?_
          · exact List.mem_append_right _ (List.mem_cons_of_mem _ hb)
          · rw [List.length_cons]
            omega
        · rfl

/-- The same way down, with the slot and the parent at hand. -/
theorem slotLoop_spec (h : Stores w.root R (fill fs s)) (hdata : Dated w s.inorder)
    (hid : w.idOf data = some id) (hfuel : (locate id fs s).1.length < fuel + fs.length) :
    slotLoop w data fuel (slotOf fs) (above none fs) =
      some (if rootAddr (locate id fs s).2 = none then
        some (slotOf (locate id fs s).1, above none (locate id fs s).1) else none) := by
  have hslot := readSlot_slotOf h
  induction s generalizing fs fuel with
  | leaf =>
    cases fuel with
    | zero => exact absurd hfuel (by simp [locate])
    | succ fuel =>
      rw [slotLoop, hslot]
      rfl
  | node c l a r ihl ihr =>
    have hhere : w.idOf a.addr = some a.id := idOf_focus h hdata
    cases fuel with
    | zero =>
      rw [Nat.zero_add] at hfuel
      exact absurd length_le_locate (Nat.not_le_of_lt hfuel)
    | succ fuel =>
      have hroot : rootAddr (.node c l a r) = some a.addr := rfl
      rw [hroot] at hslot
      rw [locate] at hfuel ⊢
      simp only [slotLoop, hslot, hid, hhere, Option.bind_eq_bind, Option.bind_some]
      split
      · next hlt =>
        rw [if_pos hlt] at hfuel
        have hl : Stores w.root R (fill (⟨.left, c, a, r⟩ :: fs) l) := h
        refine ihl hl (fun b hb => hdata b ?_) ?_ (readSlot_slotOf hl)
        · exact List.mem_append_left _ hb
        · rw [List.length_cons]
          omega
      · next hlt =>
        rw [if_neg hlt] at hfuel
        split
        · next hgt =>
          rw [if_pos hgt] at hfuel
          have hr : Stores w.root R (fill (⟨.right, c, a, l⟩ :: fs) r) := h
          refine ihr hr (fun b hb => hdata b ?_) ?_ (readSlot_slotOf hr)
          · exact List.mem_append_right _ (List.mem_cons_of_mem _ hb)
          · rw [List.length_cons]
            omega
        · rfl

/-! ## A new node -/

theorem view_rbLinkNode (n : NodeType) (parent : Option ℕ) :
    { n with rbParentColor := address parent, rbLeft := none, rbRight := none }.view =
      ⟨parent, .red, none, none, n.dataContent⟩ := by
  have hfour : address parent % 4 = 0 := by
    cases parent with
    | none => rfl
    | some p => exact Nat.mul_mod_right 4 _
  have haddr : address parent / 4 * 4 = address parent := by omega
  have hred : address parent % 2 = 0 := by omega
  simp only [NodeType.view, rbParent, rbColor, haddr, pointer_address, hred, if_true]

theorem Owns.writeSlot {hole : Option ℕ}
    (h : Owns t (treeRoot fs hole) (ctx none fs hole :: R)) (p : Option ℕ) :
    ∃ t', RbTree.writeSlot t p (slotOf fs) = some t' ∧
      Owns t' (treeRoot fs p) (ctx none fs p :: R) := by
  cases fs with
  | nil =>
    refine ⟨{ t with rbNode := p }, rfl, rfl, ?_⟩
    exact h.pieces.replace (L := []) (List.Perm.refl _) trivial fun _ _ => rfl
  | cons f fs =>
    have hsplit := h.split (L := []) (ctx_cons_splits none f fs hole)
    obtain ⟨t', hset, hown⟩ := hsplit.setNear (L := []) p
    exact ⟨t', hset, hown.join (L := []) (ctx_cons_splits none f fs p)⟩

/-- A node that is linked to a free place is a red leaf of the tree. -/
theorem rbLinkNode_spec {p : ℕ} {n : Node} (h : Stores t (cell p n :: R) (fill fs .leaf)) (id : ℤ) :
    ∃ t', rbLinkNode t p (above none fs) (slotOf fs) = some t' ∧
      Stores t' R (fill fs (.join .left .red .leaf ⟨p, n.data, id⟩ .leaf)) := by
  have hfocus := (Stores.focus_iff.mp h).split (L := [_]) (sub_leaf_splits _)
  have hview : ∀ x : NodeType, x.view = n →
      { x with
        rbParentColor := address (above none fs), rbLeft := none, rbRight := none }.view =
        Node.of .left (above none fs) .red none none n.data := by
    intro x hx
    rw [view_rbLinkNode, ← hx]
    rfl
  obtain ⟨t₁, hset₁, h₁⟩ := hfocus.write (L := [_]) hview
  obtain ⟨t₂, hset₂, h₂⟩ := h₁.writeSlot (some p)
  refine ⟨t₂, ?_, Stores.focus_iff.mpr ?_⟩
  · simp only [rbLinkNode, hset₁, hset₂, Option.bind_eq_bind, Option.bind_some]
  · have hleft := h₂.join (L := [_, _]) (sub_leaf_splits (some p))
    have hright := hleft.join (L := [_, _]) (sub_leaf_splits (some p))
    rw [rootAddr_join]
    exact hright.join (L := [_])
      (sub_join_splits (above none fs) .left .red .leaf ⟨p, n.data, id⟩ .leaf)

/-- `calloc` gives a node that is not in the tree. -/
theorem calloc_spec (h : Stores w.root [] s) (content : ℕ) :
    Stores (w.calloc content).2.root [cell (w.calloc content).1 ⟨none, .red, none, none, content⟩]
      s := by
  have hroot := Stores.root h
  refine ⟨hroot, ?_⟩
  have hview : (w.calloc content).2.root.view =
      Function.update w.root.view w.root.mem.next (some ⟨none, .red, none, none, content⟩) := by
    funext q
    by_cases hq : q = w.root.mem.next
    · rw [hq, Function.update_self, RbRoot.view, calloc]
      simp only [Store.new_snd_cell, Function.update_self, Option.map_some]
      exact congrArg some (view_rbLinkNode ⟨0, none, none, content⟩ none)
    · rw [Function.update_of_ne hq, RbRoot.view, calloc]
      simp only [Store.new_snd_cell, Function.update_of_ne hq]
      rfl
  rw [hview]
  refine (h.pieces.new ?_ _).perm (List.Perm.swap _ _ _)
  intro Q hQ hmem
  obtain rfl := List.mem_singleton.mp hQ
  obtain ⟨v, hv⟩ := (h.pieces.at (L := [])).live _ hmem
  exact absurd (lt_next_of_view hv) (lt_irrefl _)

/-! ## The ids in order -/

theorem printLoop_spec {q : Option ℕ} {l : List Item} (h : Stores w.root R s)
    (hdata : Dated w s.inorder) (hnext : Onward s q l) (hfuel : l.length < fuel) :
    printLoop w fuel q = some (l.map Item.id) := by
  induction fuel generalizing q l with
  | zero => exact absurd hfuel (Nat.not_lt_zero _)
  | succ fuel ih =>
    cases hnext with
    | stop => rfl
    | next focus =>
      subst focus
      obtain ⟨q', hq', honward⟩ := rbNext_spec h
      have hid := idOf_focus h hdata.of_fill
      rw [List.length_cons] at hfuel
      have hrest := ih honward (Nat.lt_of_succ_lt_succ hfuel)
      simp only [printLoop, hid, hq', hrest, Option.bind_eq_bind, Option.bind_some, List.map_cons]

end RbTree
end CModel
