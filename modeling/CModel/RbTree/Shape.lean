import CModel.Foundation.Pieces
import CModel.RbTree.Rbtree
import Mathlib.Data.List.Perm.Subperm

/-!
# Trees in the memory

* `Node`, `RbRoot.view`: the nodes with parent and colour taken apart.
* `sub`, `ctx`: a subtree below a parent, and the way from the root down to a hole, as pieces of the
  memory; `sub_fill_splits`: a tree is the way down to a node and the subtree there.
* `Owns`: the root and the pieces of the memory, with what the assignments of the source do to them.
* `Stores`: a tree in the memory, with what can be read and written at a focus;
  `Stores.rotate`: a rotation in the memory is a rotation of the tree.
-/

namespace CModel
namespace RbTree

open RedBlack RbRoot NodeType

/-- A node of the tree: where it is, its data, and the `id` in the data. -/
structure Item where
  addr : ℕ
  data : ℕ
  id : ℤ

/-! ## Nodes -/

/-- A node with its parent and its colour apart. -/
structure Node where
  parent : Option ℕ
  color : Color
  left : Option ℕ
  right : Option ℕ
  data : ℕ

/-- A node with the child `p` on the side `d`, and `q` on the other side. -/
def Node.of (d : Side) (parent : Option ℕ) (c : Color) (p q : Option ℕ) (data : ℕ) : Node :=
  match d with
  | .left => ⟨parent, c, p, q, data⟩
  | .right => ⟨parent, c, q, p, data⟩

theorem Node.of_other (d : Side) (parent : Option ℕ) (c : Color) (p q : Option ℕ) (data : ℕ) :
    Node.of d.other parent c p q data = Node.of d parent c q p data := by
  cases d <;> rfl

theorem Node.of_data (d : Side) (parent : Option ℕ) (c : Color) (p q : Option ℕ) (data : ℕ) :
    (Node.of d parent c p q data).data = data := by
  cases d <;> rfl

/-- The node that the fields of `struct node_type` stand for. -/
def NodeType.view (n : NodeType) : Node :=
  ⟨n.rbParent, n.rbColor, n.rbLeft, n.rbRight, n.dataContent⟩

theorem pointer_address (p : Option ℕ) : pointer (address p) = p := by
  cases p with
  | none => rfl
  | some p =>
    have hne : 4 * (p + 1) ≠ 0 := by omega
    have hdiv : 4 * (p + 1) / 4 - 1 = p := by omega
    rw [address, pointer, if_neg hne, hdiv]

theorem rbParent_rbSetParent (n : NodeType) (p : Option ℕ) : (n.rbSetParent p).rbParent = p := by
  have haddr : (n.rbParentColor % 4 + address p) / 4 * 4 = address p := by
    cases p <;> simp only [address] <;> omega
  rw [rbParent, rbSetParent, haddr, pointer_address]

theorem rbColor_rbSetParent (n : NodeType) (p : Option ℕ) :
    (n.rbSetParent p).rbColor = n.rbColor := by
  have hmod : (n.rbParentColor % 4 + address p) % 2 = n.rbParentColor % 2 := by
    cases p <;> simp only [address] <;> omega
  rw [rbColor, rbSetParent, hmod, rbColor]

theorem rbParent_rbSetColor (n : NodeType) (c : Color) :
    (n.rbSetColor c).rbParent = n.rbParent := by
  have hdiv : (n.rbParentColor / 2 * 2 + colorBit c) / 4 * 4 = n.rbParentColor / 4 * 4 := by
    cases c <;> simp only [colorBit] <;> omega
  rw [rbParent, rbSetColor, hdiv, rbParent]

theorem rbColor_rbSetColor (n : NodeType) (c : Color) : (n.rbSetColor c).rbColor = c := by
  cases c with
  | red => exact if_pos (by simp only [rbSetColor, colorBit]; omega)
  | black => exact if_neg (by simp only [rbSetColor, colorBit]; omega)

theorem view_rbSetParent (n : NodeType) (p : Option ℕ) :
    (n.rbSetParent p).view = { n.view with parent := p } := by
  rw [view, rbParent_rbSetParent, rbColor_rbSetParent]
  rfl

theorem view_rbSetColor (n : NodeType) (c : Color) :
    (n.rbSetColor c).view = { n.view with color := c } := by
  rw [view, rbParent_rbSetColor, rbColor_rbSetColor]
  rfl

section Fields

variable {n : NodeType} {d : Side} {parent : Option ℕ} {c : Color} {p q : Option ℕ} {data : ℕ}

theorem rbParent_of_view (h : n.view = Node.of d parent c p q data) : n.rbParent = parent := by
  cases d <;> exact congrArg Node.parent h

theorem rbColor_of_view (h : n.view = Node.of d parent c p q data) : n.rbColor = c := by
  cases d <;> exact congrArg Node.color h

theorem child_of_view (h : n.view = Node.of d parent c p q data) : n.child d = p := by
  cases d
  · exact congrArg Node.left h
  · exact congrArg Node.right h

theorem child_other_of_view (h : n.view = Node.of d parent c p q data) : n.child d.other = q := by
  cases d
  · exact congrArg Node.right h
  · exact congrArg Node.left h

theorem view_setChild (h : n.view = Node.of d parent c p q data) (p' : Option ℕ) :
    (n.setChild d p').view = Node.of d parent c p' q data := by
  cases d
  · exact congrArg (fun v : Node => { v with left := p' }) h
  · exact congrArg (fun v : Node => { v with right := p' }) h

theorem view_setChild_other (h : n.view = Node.of d parent c p q data) (q' : Option ℕ) :
    (n.setChild d.other q').view = Node.of d parent c p q' data := by
  rw [← Node.of_other] at h ⊢
  exact view_setChild h q'

end Fields

/-- The nodes of a memory. -/
def RbRoot.view (t : RbRoot) (p : ℕ) : Option Node := (t.mem.cell p).map NodeType.view

/-! ## Pieces of a tree -/

/-- The address of the root of a tree. -/
def rootAddr (t : CTree Item) : Option ℕ := t.root.map Item.addr

@[simp] theorem rootAddr_leaf : rootAddr .leaf = none := rfl

@[simp] theorem rootAddr_join (d : Side) (c : Color) (s : CTree Item) (a : Item) (t : CTree Item) :
    rootAddr (.join d c s a t) = some a.addr := by
  cases d <;> rfl

/-- The addresses of a tree. -/
def addrs : CTree Item → List ℕ
  | .leaf => []
  | .node _ l a r => a.addr :: (addrs l ++ addrs r)

theorem length_addrs (t : CTree Item) : (addrs t).length = t.inorder.length := by
  induction t with
  | leaf => rfl
  | node c l a r ihl ihr =>
    rw [addrs, CTree.inorder_node, List.length_cons, List.length_append, List.length_append,
      List.length_cons, ihl, ihr]
    omega

/-- The tree is below `parent` in the memory. -/
def SubHolds (H : ℕ → Option Node) : Option ℕ → CTree Item → Prop
  | _, .leaf => True
  | parent, .node c l a r => H a.addr = some ⟨parent, c, rootAddr l, rootAddr r, a.data⟩ ∧
      SubHolds H (some a.addr) l ∧ SubHolds H (some a.addr) r

theorem SubHolds.congr {H H' : ℕ → Option Node} {t : CTree Item} {parent : Option ℕ}
    (heq : ∀ p ∈ addrs t, H' p = H p) (h : SubHolds H parent t) : SubHolds H' parent t := by
  induction t generalizing parent with
  | leaf => trivial
  | node c l a r ihl ihr =>
    obtain ⟨ha, hl, hr⟩ := h
    refine ⟨(heq a.addr List.mem_cons_self).trans ha, ihl (fun p hp => heq p ?_) hl,
      ihr (fun p hp => heq p ?_) hr⟩
    · exact List.mem_cons_of_mem _ (List.mem_append_left _ hp)
    · exact List.mem_cons_of_mem _ (List.mem_append_right _ hp)

/-- A tree as a piece of the memory. -/
def sub (parent : Option ℕ) (t : CTree Item) : Piece ℕ (Option Node) where
  cells := addrs t
  holds H := SubHolds H parent t
  congr heq h := h.congr heq

/-- The parent of what is in the hole. -/
def above (parent : Option ℕ) : List (Frame Item) → Option ℕ
  | [] => parent
  | f :: _ => some f.item.addr

/-- The addresses of the frames and their siblings. -/
def frameAddrs : List (Frame Item) → List ℕ
  | [] => []
  | f :: fs => f.item.addr :: (addrs f.sibling ++ frameAddrs fs)

/-- The address of the root of a tree with `hole` at the focus. -/
def treeRoot : List (Frame Item) → Option ℕ → Option ℕ
  | [], hole => hole
  | f :: fs, _ => treeRoot fs (some f.item.addr)

theorem rootAddr_fill (fs : List (Frame Item)) (t : CTree Item) :
    rootAddr (fill fs t) = treeRoot fs (rootAddr t) := by
  induction fs generalizing t with
  | nil => rfl
  | cons f fs ih => rw [fill_cons, ih, Frame.plug, rootAddr_join, treeRoot]

/-- The root is one of the frames, if there are any. -/
theorem exists_treeRoot (f : Frame Item) (fs : List (Frame Item)) (hole : Option ℕ) :
    ∃ q ∈ frameAddrs (f :: fs), treeRoot (f :: fs) hole = some q := by
  induction fs generalizing f hole with
  | nil => exact ⟨_, List.mem_cons_self, rfl⟩
  | cons g fs ih =>
    obtain ⟨q, hq, hroot⟩ := ih g (some f.item.addr)
    exact ⟨q, List.mem_cons_of_mem _ (List.mem_append_right _ hq), hroot⟩

theorem mem_addrs {t : CTree Item} {p : ℕ} (h : rootAddr t = some p) : p ∈ addrs t := by
  cases t with
  | leaf => exact absurd h (by simp)
  | node c l a r =>
    obtain rfl := Option.some.inj h
    exact List.mem_cons_self

/-- The frames are below `parent` in the memory, around what is at `hole`. -/
def FramesHold (H : ℕ → Option Node) (parent : Option ℕ) :
    List (Frame Item) → Option ℕ → Prop
  | [], _ => True
  | f :: fs, hole =>
    H f.item.addr = some (Node.of f.side (above parent fs) f.color hole (rootAddr f.sibling)
      f.item.data) ∧
    SubHolds H (some f.item.addr) f.sibling ∧ FramesHold H parent fs (some f.item.addr)

theorem FramesHold.congr {H H' : ℕ → Option Node} {fs : List (Frame Item)}
    {parent hole : Option ℕ} (heq : ∀ p ∈ frameAddrs fs, H' p = H p)
    (h : FramesHold H parent fs hole) : FramesHold H' parent fs hole := by
  induction fs generalizing hole with
  | nil => trivial
  | cons f fs ih =>
    obtain ⟨ha, hs, hfs⟩ := h
    refine ⟨(heq _ List.mem_cons_self).trans ha, hs.congr fun p hp => heq p ?_,
      ih (fun p hp => heq p ?_) hfs⟩
    · exact List.mem_cons_of_mem _ (List.mem_append_left _ hp)
    · exact List.mem_cons_of_mem _ (List.mem_append_right _ hp)

/-- The nodes of a tree are there. -/
theorem SubHolds.live {H : ℕ → Option Node} {t : CTree Item} {parent : Option ℕ}
    (h : SubHolds H parent t) : ∀ p ∈ addrs t, ∃ n, H p = some n := by
  induction t generalizing parent with
  | leaf => exact fun p hp => absurd hp List.not_mem_nil
  | node c l a r ihl ihr =>
    obtain ⟨ha, hl, hr⟩ := h
    intro p hp
    rcases List.mem_cons.mp hp with rfl | hp
    · exact ⟨_, ha⟩
    · exact (List.mem_append.mp hp).elim (ihl hl p) (ihr hr p)

theorem FramesHold.live {H : ℕ → Option Node} {fs : List (Frame Item)} {parent hole : Option ℕ}
    (h : FramesHold H parent fs hole) : ∀ p ∈ frameAddrs fs, ∃ n, H p = some n := by
  induction fs generalizing hole with
  | nil => exact fun p hp => absurd hp List.not_mem_nil
  | cons f fs ih =>
    obtain ⟨ha, hs, hfs⟩ := h
    intro p hp
    rcases List.mem_cons.mp hp with rfl | hp
    · exact ⟨_, ha⟩
    · exact (List.mem_append.mp hp).elim (hs.live p) (ih hfs p)

theorem length_le_frameAddrs (fs : List (Frame Item)) : fs.length ≤ (frameAddrs fs).length := by
  induction fs with
  | nil => exact Nat.le_refl 0
  | cons f fs ih =>
    rw [frameAddrs, List.length_cons, List.length_cons, List.length_append]
    omega

/-- Frames as a piece of the memory. -/
def ctx (parent : Option ℕ) (fs : List (Frame Item)) (hole : Option ℕ) :
    Piece ℕ (Option Node) where
  cells := frameAddrs fs
  holds H := FramesHold H parent fs hole
  congr heq h := h.congr heq

/-- A node as a piece of the memory. -/
def cell (p : ℕ) (n : Node) : Piece ℕ (Option Node) := Piece.one p (some n)

theorem sub_leaf_splits (parent : Option ℕ) : (sub parent .leaf).Splits [] :=
  ⟨fun H => by simp [sub, SubHolds], List.Perm.refl _⟩

theorem sub_join_splits (parent : Option ℕ) (d : Side) (c : Color) (s : CTree Item) (a : Item)
    (t : CTree Item) :
    (sub parent (.join d c s a t)).Splits
      [cell a.addr (Node.of d parent c (rootAddr s) (rootAddr t) a.data), sub (some a.addr) s,
        sub (some a.addr) t] := by
  cases d with
  | left =>
    refine ⟨fun H => by simp [sub, cell, Piece.one, CTree.join, SubHolds, Node.of], ?_⟩
    simp [sub, cell, Piece.one, CTree.join, addrs]
  | right =>
    constructor
    · intro H
      simp [sub, cell, Piece.one, CTree.join, SubHolds, Node.of, and_comm]
    · simp only [sub, cell, Piece.one, CTree.join, addrs, List.flatMap_cons, List.flatMap_nil,
        List.append_nil]
      exact List.perm_append_comm.cons _

theorem ctx_nil_splits (parent hole : Option ℕ) : (ctx parent [] hole).Splits [] :=
  ⟨fun H => by simp [ctx, FramesHold], List.Perm.refl _⟩

theorem ctx_cons_splits (parent : Option ℕ) (f : Frame Item) (fs : List (Frame Item))
    (hole : Option ℕ) :
    (ctx parent (f :: fs) hole).Splits
      [cell f.item.addr (Node.of f.side (above parent fs) f.color hole (rootAddr f.sibling)
        f.item.data), sub (some f.item.addr) f.sibling, ctx parent fs (some f.item.addr)] := by
  refine ⟨fun H => by simp [ctx, sub, cell, Piece.one, FramesHold], ?_⟩
  simp [ctx, sub, cell, Piece.one, frameAddrs]

theorem sub_fill_splits (parent : Option ℕ) (fs : List (Frame Item)) (t : CTree Item) :
    (sub parent (fill fs t)).Splits [ctx parent fs (rootAddr t), sub (above parent fs) t] := by
  induction fs generalizing t with
  | nil => exact ⟨fun H => by simp [ctx, FramesHold, above], by simp [ctx, frameAddrs, above]⟩
  | cons f fs ih =>
    rw [fill_cons]
    have hplug := ih (f.plug t)
    rw [Frame.plug, rootAddr_join] at hplug
    have hsplit := hplug.trans (L := [_]) (R := []) (sub_join_splits _ _ _ _ _ _)
    -- the node of the frame and the sibling go to the frames above them
    have hmoved := hsplit.perm
      ((List.Perm.swap _ _ _).trans ((List.perm_append_singleton _ [_, _]).cons _))
    exact hmoved.merge (L := []) (ctx_cons_splits parent f fs (rootAddr t))

/-! ## Reading and writing -/

section Access

variable {t : RbRoot} {p : ℕ} {v v' : Node}

theorem get_of_view {β : Type} {f : NodeType → β} {b : β} (h : t.view p = some v)
    (hf : ∀ n : NodeType, n.view = v → f n = b) : t.get p f = some b := by
  obtain ⟨n, hn, hv⟩ := Option.map_eq_some_iff.mp h
  rw [RbRoot.get, hn, Option.map_some, hf n hv]

theorem set_of_view {f : NodeType → NodeType} (h : t.view p = some v)
    (hf : ∀ n : NodeType, n.view = v → (f n).view = v') :
    ∃ t', t.set p f = some t' ∧ t'.rbNode = t.rbNode ∧
      t'.view = Function.update t.view p (some v') := by
  obtain ⟨n, hn, hv⟩ := Option.map_eq_some_iff.mp h
  have hset : t.set p f =
      some { t with mem := t.mem.put p (Store.lt_next hn) (some (f n)) } := by
    rw [RbRoot.set, Store.modify_of_some hn, Option.map_some]
  refine ⟨_, hset, rfl, funext ?_⟩
  intro q
  by_cases hq : q = p
  · rw [hq, Function.update_self, RbRoot.view, Store.put_cell, Function.update_self,
      Option.map_some, hf n hv]
  · rw [Function.update_of_ne hq, RbRoot.view, Store.put_cell, Function.update_of_ne hq,
      RbRoot.view]

end Access

theorem lt_next_of_view {t : RbRoot} {p : ℕ} {v : Node} (h : t.view p = some v) :
    p < t.mem.next := by
  obtain ⟨n, hn, -⟩ := Option.map_eq_some_iff.mp h
  exact Store.lt_next hn

/-- There are not more nodes than addresses. -/
theorem length_le_next {t : RbRoot} {ps : List ℕ} (hnodup : ps.Nodup)
    (hlive : ∀ p ∈ ps, ∃ v, t.view p = some v) : ps.length ≤ t.mem.next := by
  have hsub : ps ⊆ List.range t.mem.next := fun p hp => by
    obtain ⟨v, hv⟩ := hlive p hp
    exact List.mem_range.mpr (lt_next_of_view hv)
  have hle := (List.subperm_of_subset hnodup hsub).length_le
  rwa [List.length_range] at hle

/-- What `root->rb_node` is, and some pieces of the memory. -/
structure Owns (t : RbRoot) (r : Option ℕ) (ps : List (Piece ℕ (Option Node))) : Prop where
  root : t.rbNode = r
  pieces : Pieces t.view ps

namespace Owns

variable {t : RbRoot} {r : Option ℕ} {L R ps qs : List (Piece ℕ (Option Node))}
  {P : Piece ℕ (Option Node)} {p : ℕ} {n n' : Node}

theorem perm (h : Owns t r ps) (hperm : ps.Perm qs) : Owns t r qs := ⟨h.root, h.pieces.perm hperm⟩

theorem split (h : Owns t r (L ++ P :: R)) (hs : P.Splits ps) : Owns t r (L ++ (ps ++ R)) :=
  ⟨h.root, h.pieces.split hs⟩

theorem join (h : Owns t r (L ++ (ps ++ R))) (hs : P.Splits ps) : Owns t r (L ++ P :: R) :=
  ⟨h.root, h.pieces.join hs⟩

theorem read {β : Type} {f : NodeType → β} {b : β} (h : Owns t r (L ++ cell p n :: R))
    (hf : ∀ x : NodeType, x.view = n → f x = b) : t.get p f = some b :=
  get_of_view h.pieces.one_at hf

theorem write {f : NodeType → NodeType} (h : Owns t r (L ++ cell p n :: R))
    (hf : ∀ x : NodeType, x.view = n → (f x).view = n') :
    ∃ t', t.set p f = some t' ∧ Owns t' r (L ++ cell p n' :: R) := by
  obtain ⟨t', hset, hroot, hview⟩ := set_of_view h.pieces.one_at hf
  exact ⟨t', hset, hroot.trans h.root, hview ▸ h.pieces.write (some n')⟩

section Fields

variable {d : Side} {parent : Option ℕ} {c : Color} {x y : Option ℕ} {data : ℕ}

theorem setParent (h : Owns t r (L ++ cell p (Node.of d parent c x y data) :: R))
    (parent' : Option ℕ) :
    ∃ t', t.set p (rbSetParent parent') = some t' ∧
      Owns t' r (L ++ cell p (Node.of d parent' c x y data) :: R) :=
  h.write fun n hn => by
    rw [view_rbSetParent, hn]
    cases d <;> rfl

theorem setColor (h : Owns t r (L ++ cell p (Node.of d parent c x y data) :: R)) (c' : Color) :
    ∃ t', t.set p (rbSetColor c') = some t' ∧
      Owns t' r (L ++ cell p (Node.of d parent c' x y data) :: R) :=
  h.write fun n hn => by
    rw [view_rbSetColor, hn]
    cases d <;> rfl

theorem setNear (h : Owns t r (L ++ cell p (Node.of d parent c x y data) :: R)) (x' : Option ℕ) :
    ∃ t', t.set p (setChild d x') = some t' ∧
      Owns t' r (L ++ cell p (Node.of d parent c x' y data) :: R) :=
  h.write fun _ hn => view_setChild hn x'

theorem setFar (h : Owns t r (L ++ cell p (Node.of d parent c x y data) :: R)) (y' : Option ℕ) :
    ∃ t', t.set p (setChild d.other y') = some t' ∧
      Owns t' r (L ++ cell p (Node.of d parent c x y' data) :: R) :=
  h.write fun _ hn => view_setChild_other hn y'

/-- Parent and colour of another node. -/
theorem copyParentColor {q : ℕ} {e : Side} {parent' : Option ℕ} {c' : Color} {x' y' : Option ℕ}
    {data' : ℕ} (h : Owns t r (L ++ cell p (Node.of d parent c x y data) :: R))
    (hq : t.view q = some (Node.of e parent' c' x' y' data')) :
    ∃ parentColor t', t.get q NodeType.rbParentColor = some parentColor ∧
      t.set p (fun n => { n with rbParentColor := parentColor }) = some t' ∧
      Owns t' r (L ++ cell p (Node.of d parent' c' x y data) :: R) := by
  obtain ⟨m, hm, hview⟩ := Option.map_eq_some_iff.mp hq
  have hf : ∀ n : NodeType, n.view = Node.of d parent c x y data →
      { n with rbParentColor := m.rbParentColor }.view = Node.of d parent' c' x y data := by
    intro n hn
    rw [← rbParent_of_view hview, ← rbColor_of_view hview]
    have hcopy := congrArg (fun v : Node => { v with parent := m.rbParent, color := m.rbColor }) hn
    cases d <;> exact hcopy
  obtain ⟨t', hset, hown⟩ := h.write hf
  exact ⟨m.rbParentColor, t', by rw [RbRoot.get, hm, Option.map_some], hset, hown⟩

end Fields

/-- A tree with another parent. -/
theorem setParentOf {parent : Option ℕ} {s : CTree Item} (h : Owns t r (L ++ sub parent s :: R))
    (parent' : Option ℕ) :
    ∃ t', t.setParentOf (rootAddr s) parent' = some t' ∧
      Owns t' r (L ++ sub parent' s :: R) := by
  cases s with
  | leaf =>
    refine ⟨t, rfl, h.root, ?_⟩
    exact h.pieces.replace (List.Perm.refl _) trivial fun _ _ => rfl
  | node c s₁ a s₂ =>
    have hsplit := h.split (sub_join_splits parent .left c s₁ a s₂)
    obtain ⟨t', hset, hown⟩ := hsplit.setParent parent'
    exact ⟨t', hset, hown.join (sub_join_splits parent' .left c s₁ a s₂)⟩

/-- Another node in the place of the one at the focus. -/
theorem replaceChild {fs : List (Frame Item)} {x : ℕ} (d : Side)
    (h : Owns t (treeRoot fs (some x)) (L ++ ctx none fs (some x) :: R)) (hx : x ∉ frameAddrs fs)
    (y : Option ℕ) :
    ∃ t', t.replaceChild d (above none fs) x y = some t' ∧
      Owns t' (treeRoot fs y) (L ++ ctx none fs y :: R) := by
  cases fs with
  | nil =>
    refine ⟨{ t with rbNode := y }, rfl, rfl, ?_⟩
    exact h.pieces.replace (List.Perm.refl _) trivial fun _ _ => rfl
  | cons f fs =>
    obtain ⟨e, c, a, s⟩ := f
    have hsplit := h.split (ctx_cons_splits none ⟨e, c, a, s⟩ fs (some x))
    obtain ⟨t', hset, hown⟩ := hsplit.setNear y
    refine ⟨t', ?_, hown.join (ctx_cons_splits none ⟨e, c, a, s⟩ fs y)⟩
    simp only [RbRoot.replaceChild, above]
    rcases Side.eq_or_eq_other e d with rfl | rfl
    · rw [hsplit.read fun _ => child_of_view, Option.bind_eq_bind, Option.bind_some, if_pos rfl]
      exact hset
    · -- the node is not its own sibling
      have hne : rootAddr s ≠ some x := fun hs =>
        hx (List.mem_cons_of_mem _ (List.mem_append_left _ (mem_addrs hs)))
      rw [hsplit.read fun _ => child_other_of_view, Side.other_other]
      simpa only [Option.bind_eq_bind, Option.bind_some, if_neg hne] using hset

/-- A rotation. -/
theorem rotate {d : Side} {fs : List (Frame Item)} {cx cy : Color} {s u w : CTree Item} {x y : Item}
    (h : Owns t (treeRoot fs (some x.addr))
      (ctx none fs (some x.addr) :: sub (above none fs) (.join d cx s x (.join d cy u y w)) :: R)) :
    ∃ t', rbRotate d t x.addr = some t' ∧ Owns t' (treeRoot fs (some y.addr))
      (ctx none fs (some y.addr) ::
        sub (above none fs) (.join d cy (.join d cx s x u) y w) :: R) := by
  have hx := h.split (L := [_]) (sub_join_splits _ d cx s x (.join d cy u y w))
  rw [rootAddr_join] at hx
  have h₀ := hx.split (L := [_, _, _]) (sub_join_splits _ d cy u y w)
  have hright := h₀.read (L := [_]) fun _ => child_other_of_view
  have hparent := h₀.read (L := [_]) fun _ => rbParent_of_view
  have hinner := h₀.read (L := [_, _, _]) fun _ => child_of_view
  obtain ⟨t₁, hset₁, h₁⟩ := h₀.setFar (L := [_]) (rootAddr u)
  obtain ⟨t₂, hset₂, h₂⟩ := h₁.setParentOf (L := [_, _, _, _]) (some x.addr)
  obtain ⟨t₃, hset₃, h₃⟩ := h₂.setNear (L := [_, _, _]) (some x.addr)
  obtain ⟨t₄, hset₄, h₄⟩ := h₃.setParent (L := [_, _, _]) (above none fs)
  have hnot : x.addr ∉ frameAddrs fs :=
    h₄.pieces.not_mem (L := [_]) List.mem_cons_self _ List.mem_cons_self
  obtain ⟨t₅, hset₅, h₅⟩ := h₄.replaceChild (L := []) d hnot (some y.addr)
  obtain ⟨t₆, hset₆, h₆⟩ := h₅.setParent (L := [_]) (some y.addr)
  refine ⟨t₆, ?_, ?_⟩
  · simp only [rbRotate, hright, hparent, hinner, hset₁, hset₂, hset₃, hset₄, hset₅, hset₆,
      Option.bind_eq_bind, Option.bind_some]
  · -- the node `y` comes before the node `x` now
    have hmoved := h₆.perm ((@List.perm_middle _ _ [_, _] (_ :: _ :: R)).cons _)
    have hlower := hmoved.join (L := [_, _]) (sub_join_splits (some y.addr) d cx s x u)
    have hall := sub_join_splits (above none fs) d cy (.join d cx s x u) y w
    rw [rootAddr_join] at hall
    exact hlower.join (L := [_]) hall

end Owns

/-! ## Trees -/

/-- The tree that is in the memory, next to the pieces `R`. -/
def Stores (t : RbRoot) (R : List (Piece ℕ (Option Node))) (s : CTree Item) : Prop :=
  Owns t (rootAddr s) (sub none s :: R)

namespace Stores

variable {t : RbRoot} {R : List (Piece ℕ (Option Node))} {fs : List (Frame Item)}
  {s u : CTree Item} {d : Side} {c : Color} {a : Item}

theorem drop {P : Piece ℕ (Option Node)} (h : Stores t (P :: R) s) : Stores t R s :=
  ⟨Owns.root h, h.pieces.drop (L := [_])⟩

theorem focus_iff : Stores t R (fill fs s) ↔
    Owns t (treeRoot fs (rootAddr s)) (ctx none fs (rootAddr s) :: sub (above none fs) s :: R) := by
  rw [Stores, rootAddr_fill]
  exact ⟨fun h => h.split (L := []) (sub_fill_splits none fs s),
    fun h => h.join (L := []) (sub_fill_splits none fs s)⟩

/-- The node at the focus. -/
theorem node (h : Stores t R (fill fs (.join d c s a u))) :
    t.view a.addr =
      some (Node.of d (above none fs) c (rootAddr s) (rootAddr u) a.data) := by
  have hfocus := focus_iff.mp h
  exact (hfocus.split (L := [_]) (sub_join_splits _ d c s a u)).pieces.one_at (L := [_])

theorem parent (h : Stores t R (fill fs (.join d c s a u))) :
    t.get a.addr rbParent = some (above none fs) :=
  get_of_view h.node fun _ => rbParent_of_view

theorem color (h : Stores t R (fill fs (.join d c s a u))) : t.get a.addr rbColor = some c :=
  get_of_view h.node fun _ => rbColor_of_view

theorem content (h : Stores t R (fill fs (.join d c s a u))) :
    t.get a.addr dataContent = some a.data :=
  get_of_view h.node fun _ hn => by cases d <;> exact congrArg Node.data hn

theorem near (h : Stores t R (fill fs (.join d c s a u))) :
    t.get a.addr (child d) = some (rootAddr s) :=
  get_of_view h.node fun _ => child_of_view

theorem far (h : Stores t R (fill fs (.join d c s a u))) :
    t.get a.addr (child d.other) = some (rootAddr u) :=
  get_of_view h.node fun _ => child_other_of_view

theorem parent_of_rootAddr {p : ℕ} (h : Stores t R (fill fs s)) (hp : rootAddr s = some p) :
    t.get p rbParent = some (above none fs) := by
  cases s with
  | leaf => exact absurd hp (by simp)
  | node c l a r =>
    obtain rfl : a.addr = p := Option.some.inj hp
    exact parent (d := .left) h

theorem isRed (h : Stores t R (fill fs s)) :
    isRed t (rootAddr s) = some (s.color == .red) := by
  cases s with
  | leaf => rfl
  | node c l a r =>
    have hcolor := color (d := .left) h
    simp only [rootAddr, CTree.root_node, Option.map_some, RbTree.isRed, hcolor]
    rfl

/-- An assignment to the colour at the focus. -/
theorem paint (h : Stores t R (fill fs (.join d c s a u))) (c' : Color) :
    ∃ t', t.set a.addr (rbSetColor c') = some t' ∧ Stores t' R (fill fs (.join d c' s a u)) := by
  have hfocus := focus_iff.mp h
  have hsplit := hfocus.split (L := [_]) (sub_join_splits _ d c s a u)
  obtain ⟨t', hset, hown⟩ := hsplit.setColor (L := [_]) c'
  refine ⟨t', hset, focus_iff.mpr ?_⟩
  rw [rootAddr_join] at hown ⊢
  exact hown.join (L := [_]) (sub_join_splits _ d c' s a u)

theorem setBlack (h : Stores t R (fill fs (.join d c s a u))) :
    ∃ t', t.set a.addr rbSetBlack = some t' ∧ Stores t' R (fill fs (.join d .black s a u)) :=
  h.paint .black

theorem setRed (h : Stores t R (fill fs (.join d c s a u))) :
    ∃ t', t.set a.addr rbSetRed = some t' ∧ Stores t' R (fill fs (.join d .red s a u)) :=
  h.paint .red

theorem rotate {cx cy : Color} {w : CTree Item} {x y : Item}
    (h : Stores t R (fill fs (.join d cx s x (.join d cy u y w)))) :
    ∃ t', rbRotate d t x.addr = some t' ∧
      Stores t' R (fill fs (.join d cy (.join d cx s x u) y w)) := by
  have hfocus := focus_iff.mp h
  rw [rootAddr_join] at hfocus
  obtain ⟨t', hrotate, hown⟩ := hfocus.rotate
  refine ⟨t', hrotate, focus_iff.mpr ?_⟩
  rw [rootAddr_join]
  exact hown

theorem root (h : Stores t R s) : t.rbNode = rootAddr s := Owns.root h

/-- No frame is at the address of the focus. -/
theorem not_mem_frames (h : Stores t R (fill fs s)) {p : ℕ} (hp : rootAddr s = some p) :
    p ∉ frameAddrs fs :=
  (focus_iff.mp h).pieces.not_mem (L := [_]) (mem_addrs hp) _ List.mem_cons_self

/-- The node at the focus is not the root of the tree. -/
theorem rootAddr_ne_rbNode {f : Frame Item} (h : Stores t R (fill (f :: fs) s)) :
    rootAddr s ≠ t.rbNode := by
  obtain ⟨q, hq, hroot⟩ := exists_treeRoot f fs (rootAddr s)
  rw [(focus_iff.mp h).root, hroot]
  exact fun hs => h.not_mem_frames hs hq

/-- A node has not the same child on both sides. -/
theorem near_ne_far (h : Stores t R (fill fs (.join d c s a u))) {p : ℕ}
    (hp : rootAddr s = some p) : rootAddr u ≠ some p := by
  have hfocus := focus_iff.mp h
  have hsplit := hfocus.split (L := [_]) (sub_join_splits _ d c s a u)
  have hnot := hsplit.pieces.not_mem (L := [_, _]) (mem_addrs hp) (sub (some a.addr) u)
    (List.mem_append_right _ List.mem_cons_self)
  exact fun hu => hnot (mem_addrs hu)

/-- The left child tells on which side the focus is. -/
theorem left_iff (h : Stores t R (fill fs (.join d c s a u))) (hne : rootAddr u ≠ rootAddr s) :
    ∃ q, t.get a.addr (child .left) = some q ∧ (q = rootAddr s ↔ d = .left) := by
  cases d with
  | left => exact ⟨_, h.near, by simp⟩
  | right => exact ⟨_, h.far, by simp [hne]⟩

/-- There are not more frames than addresses. -/
theorem length_le (h : Stores t R (fill fs s)) : fs.length ≤ t.mem.next := by
  have hfocus := (focus_iff.mp h).pieces
  have hnodup : (frameAddrs fs).Nodup := by
    have hall := hfocus.nodup
    rw [List.flatMap_cons, List.nodup_append] at hall
    exact hall.1
  exact Nat.le_trans (length_le_frameAddrs fs)
    (length_le_next hnodup (hfocus.at (L := [])).live)

/-- There are not more items than addresses. -/
theorem size_le (h : Stores t R s) : s.inorder.length ≤ t.mem.next := by
  have hnodup : (addrs s).Nodup := by
    have hall := h.pieces.nodup
    rw [List.flatMap_cons, List.nodup_append] at hall
    exact hall.1
  exact length_addrs s ▸ length_le_next hnodup (h.pieces.at (L := [])).live

end Stores

theorem exists_join {s : CTree Item} {c : Color} (hs : s ≠ .leaf) (hc : s.color = c) (d : Side) :
    ∃ s₁ a s₂, s = .join d c s₁ a s₂ := by
  cases s with
  | leaf => exact absurd rfl hs
  | node c' l a r =>
    obtain rfl : c' = c := hc
    obtain ⟨s₁, s₂, hs⟩ := CTree.node_eq_join d c' l a r
    exact ⟨s₁, a, s₂, hs⟩

theorem exists_join_of_red {s : CTree Item} (hc : s.color = .red) (d : Side) :
    ∃ s₁ a s₂, s = .join d .red s₁ a s₂ :=
  exists_join (fun hs => absurd hc (by simp [hs])) hc d

theorem above_append (parent : Option ℕ) (gs : List (Frame Item)) (f : Frame Item)
    (fs : List (Frame Item)) :
    above parent (gs ++ f :: fs) = above (some f.item.addr) gs := by
  cases gs <;> rfl

/-- The subtree on the side `d`, with its parent as a frame. -/
theorem fill_near (fs : List (Frame Item)) (d : Side) (c : Color) (s : CTree Item) (a : Item)
    (u : CTree Item) : fill fs (.join d c s a u) = fill (⟨d, c, a, u⟩ :: fs) s :=
  rfl

/-- The subtree on the other side. -/
theorem fill_far (fs : List (Frame Item)) (d : Side) (c : Color) (s : CTree Item) (a : Item)
    (u : CTree Item) : fill fs (.join d c s a u) = fill (⟨d.other, c, a, s⟩ :: fs) u := by
  rw [fill_cons, Frame.plug, CTree.join_other]

end RbTree
end CModel
