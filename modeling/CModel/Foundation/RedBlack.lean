import Mathlib.Data.List.Basic
import Mathlib.Data.List.Perm.Basic

/-!
# Red-black trees with a focus

Binary trees with coloured nodes, and the way from a node up to the root as a list of frames, the
one next to the node first.  The two sides are treated alike: `join d` makes a node with a child on
the side `d` and one on the other side.

* `CTree`, `CTree.join`, `Frame`, `fill`.
* `inorder`, `before`, `after`: the items of a tree in order, and those on the two sides of a focus.
* `Valid`: no red node has a red child, and all paths down have the same number of black nodes.
  `Hole`: a tree with a hole is valid but for what is missing.
* `isRedBlack_fill`: a tree is a red-black tree if and only if the way down to a node is valid, the
  subtree there is, and the two meet.
* `NoRedRed`, `EqualBlacks`: the two conditions read directly off the tree.
-/

namespace CModel
namespace RedBlack

universe u

/-- The colour of a node. -/
inductive Color where
  | red
  | black
  deriving DecidableEq, Repr

/-- A side of a node. -/
inductive Side where
  | left
  | right
  deriving DecidableEq, Repr

/-- The other side. -/
def Side.other : Side → Side
  | .left => .right
  | .right => .left

@[simp] theorem Side.other_other (d : Side) : d.other.other = d := by cases d <;> rfl

@[simp] theorem Side.other_ne (d : Side) : d.other ≠ d := by cases d <;> decide

theorem Side.eq_or_eq_other (d e : Side) : e = d ∨ e = d.other := by
  cases d <;> cases e <;> simp [Side.other]

/-- A binary tree with coloured nodes. -/
inductive CTree (α : Type u) where
  | leaf
  | node (c : Color) (l : CTree α) (a : α) (r : CTree α)

variable {α : Type u}

namespace CTree

/-- A node with the child `s` on the side `d`, and `t` on the other side. -/
def join (d : Side) (c : Color) (s : CTree α) (a : α) (t : CTree α) : CTree α :=
  match d with
  | .left => .node c s a t
  | .right => .node c t a s

theorem join_other (d : Side) (c : Color) (s : CTree α) (a : α) (t : CTree α) :
    join d.other c s a t = join d c t a s := by
  cases d <;> rfl

theorem node_eq_join (d : Side) (c : Color) (l : CTree α) (a : α) (r : CTree α) :
    ∃ s t, node c l a r = join d c s a t := by
  cases d with
  | left => exact ⟨l, r, rfl⟩
  | right => exact ⟨r, l, rfl⟩

@[simp] theorem join_ne_leaf (d : Side) (c : Color) (s : CTree α) (a : α) (t : CTree α) :
    join d c s a t ≠ leaf := by
  cases d <;> simp [join]

/-- A leaf is black. -/
def color : CTree α → Color
  | leaf => .black
  | node c _ _ _ => c

@[simp] theorem color_leaf : (leaf : CTree α).color = .black := rfl

@[simp] theorem color_node (c : Color) (l : CTree α) (a : α) (r : CTree α) :
    (node c l a r).color = c := rfl

@[simp] theorem color_join (d : Side) (c : Color) (s : CTree α) (a : α) (t : CTree α) :
    (join d c s a t).color = c := by
  cases d <;> rfl

/-- The tree with another colour at its root. -/
def paint (c : Color) : CTree α → CTree α
  | leaf => leaf
  | node _ l a r => node c l a r

@[simp] theorem paint_leaf (c : Color) : (leaf : CTree α).paint c = leaf := rfl

@[simp] theorem paint_join (d : Side) (c c' : Color) (s : CTree α) (a : α) (t : CTree α) :
    (join d c s a t).paint c' = join d c' s a t := by
  cases d <;> rfl

theorem paint_color (t : CTree α) : t.paint t.color = t := by cases t <;> rfl

/-- The item at the root. -/
def root : CTree α → Option α
  | leaf => none
  | node _ _ a _ => some a

@[simp] theorem root_leaf : (leaf : CTree α).root = none := rfl

@[simp] theorem root_node (c : Color) (l : CTree α) (a : α) (r : CTree α) :
    (node c l a r).root = some a := rfl

theorem root_eq_none {t : CTree α} : t.root = none ↔ t = leaf := by
  cases t <;> simp

/-- The items from the left to the right. -/
def inorder : CTree α → List α
  | leaf => []
  | node _ l a r => l.inorder ++ a :: r.inorder

@[simp] theorem inorder_leaf : (leaf : CTree α).inorder = [] := rfl

@[simp] theorem inorder_node (c : Color) (l : CTree α) (a : α) (r : CTree α) :
    (node c l a r).inorder = l.inorder ++ a :: r.inorder := rfl

@[simp] theorem inorder_paint (c : Color) (t : CTree α) : (t.paint c).inorder = t.inorder := by
  cases t <;> rfl

/-- The colour of a node does not matter. -/
theorem inorder_join (d : Side) (c c' : Color) (s : CTree α) (a : α) (t : CTree α) :
    (join d c s a t).inorder = (join d c' s a t).inorder := by
  cases d <;> rfl

theorem inorder_join_congr {s s' t t' : CTree α} (d : Side) (c c' : Color) (a : α)
    (hs : s.inorder = s'.inorder) (ht : t.inorder = t'.inorder) :
    (join d c s a t).inorder = (join d c' s' a t').inorder := by
  cases d <;> simp [join, hs, ht]

/-- A rotation. -/
theorem inorder_rotate (d : Side) (c₁ c₂ c₃ c₄ : Color) (s t u : CTree α) (a b : α) :
    (join d c₁ (join d c₂ s a t) b u).inorder = (join d c₃ s a (join d c₄ t b u)).inorder := by
  cases d <;> simp [join]

end CTree

open CTree

/-! ## Frames -/

/-- A node on the way to the focus: the focus is on `side`, `sibling` on the other one. -/
structure Frame (α : Type u) where
  side : Side
  color : Color
  item : α
  sibling : CTree α

/-- The node of a frame with the tree in it. -/
def Frame.plug (f : Frame α) (t : CTree α) : CTree α := join f.side f.color t f.item f.sibling

/-- The whole tree. -/
def fill : List (Frame α) → CTree α → CTree α
  | [], t => t
  | f :: fs, t => fill fs (f.plug t)

@[simp] theorem fill_nil (t : CTree α) : fill [] t = t := rfl

theorem fill_cons (f : Frame α) (fs : List (Frame α)) (t : CTree α) :
    fill (f :: fs) t = fill fs (f.plug t) := rfl

theorem fill_append (fs gs : List (Frame α)) (t : CTree α) :
    fill (fs ++ gs) t = fill gs (fill fs t) := by
  induction fs generalizing t with
  | nil => rfl
  | cons f fs ih => exact ih (f.plug t)

/-- The items left of the focus. -/
def before : List (Frame α) → List α
  | [] => []
  | f :: fs =>
    match f.side with
    | .left => before fs
    | .right => before fs ++ (f.sibling.inorder ++ [f.item])

/-- The items right of the focus. -/
def after : List (Frame α) → List α
  | [] => []
  | f :: fs =>
    match f.side with
    | .left => f.item :: f.sibling.inorder ++ after fs
    | .right => after fs

theorem inorder_fill (fs : List (Frame α)) (t : CTree α) :
    (fill fs t).inorder = before fs ++ t.inorder ++ after fs := by
  induction fs generalizing t with
  | nil => simp [before, after]
  | cons f fs ih =>
    obtain ⟨d, c, a, s⟩ := f
    rw [fill_cons, ih]
    cases d <;> simp [before, after, Frame.plug, join]

theorem after_append (fs gs : List (Frame α)) : after (fs ++ gs) = after fs ++ after gs := by
  induction fs with
  | nil => rfl
  | cons f fs ih =>
    obtain ⟨d, c, a, s⟩ := f
    cases d <;> simp [after, ih]

/-- Nothing is left of a focus that is reached to the left. -/
theorem before_eq_nil {fs : List (Frame α)} (h : ∀ f ∈ fs, f.side = .left) : before fs = [] := by
  induction fs with
  | nil => rfl
  | cons f fs ih =>
    rw [before, h f List.mem_cons_self]
    exact ih fun g hg => h g (List.mem_cons_of_mem f hg)

theorem inorder_fill_congr {t t' : CTree α} (fs : List (Frame α)) (h : t.inorder = t'.inorder) :
    (fill fs t).inorder = (fill fs t').inorder := by
  rw [inorder_fill, inorder_fill, h]

/-! ## Red-black trees -/

/-- How many black nodes a node counts for. -/
def Color.weight : Color → ℕ
  | .red => 0
  | .black => 1

@[simp] theorem Color.weight_red : Color.red.weight = 0 := rfl

@[simp] theorem Color.weight_black : Color.black.weight = 1 := rfl

/-- No red node has a red child, and every path down has `n` black nodes. -/
def Valid : CTree α → ℕ → Prop
  | leaf, n => n = 0
  | node c l _ r, n => (c = .red → l.color = .black ∧ r.color = .black) ∧
      ∃ m, n = m + c.weight ∧ Valid l m ∧ Valid r m

@[simp] theorem valid_leaf {n : ℕ} : Valid (leaf : CTree α) n ↔ n = 0 := Iff.rfl

theorem valid_join {d : Side} {c : Color} {s t : CTree α} {a : α} {n : ℕ} :
    Valid (join d c s a t) n ↔ (c = .red → s.color = .black ∧ t.color = .black) ∧
      ∃ m, n = m + c.weight ∧ Valid s m ∧ Valid t m := by
  cases d with
  | left => exact Iff.rfl
  | right =>
    simp only [join, Valid]
    constructor
    · exact fun ⟨hc, m, hn, ht, hs⟩ => ⟨fun h => (hc h).symm, m, hn, hs, ht⟩
    · exact fun ⟨hc, m, hn, hs, ht⟩ => ⟨fun h => (hc h).symm, m, hn, ht, hs⟩

theorem valid_red {d : Side} {s t : CTree α} {a : α} {n : ℕ} :
    Valid (join d .red s a t) n ↔
      s.color = .black ∧ t.color = .black ∧ Valid s n ∧ Valid t n := by
  rw [valid_join]
  constructor
  · rintro ⟨hc, m, rfl, hs, ht⟩
    exact ⟨(hc rfl).1, (hc rfl).2, hs, ht⟩
  · exact fun ⟨hs, ht, hvs, hvt⟩ => ⟨fun _ => ⟨hs, ht⟩, n, rfl, hvs, hvt⟩

theorem valid_black {d : Side} {s t : CTree α} {a : α} {n : ℕ} :
    Valid (join d .black s a t) n ↔ ∃ m, n = m + 1 ∧ Valid s m ∧ Valid t m := by
  rw [valid_join]
  exact ⟨fun ⟨_, h⟩ => h, fun h => ⟨fun hc => absurd hc (by decide), h⟩⟩

/-- A valid tree without black nodes is a leaf, or red. -/
theorem Valid.ne_leaf {t : CTree α} {n : ℕ} (h : Valid t (n + 1)) : t ≠ leaf := by
  rintro rfl
  exact absurd h (Nat.succ_ne_zero n)

/-- The colour above the focus; above the root the colour counts as red, so that the root is
black. -/
def topColor : List (Frame α) → Color
  | [] => .red
  | f :: _ => f.color

/-- The frames are valid around a tree with `n` black nodes on every path. -/
def Hole : List (Frame α) → ℕ → Prop
  | [], _ => True
  | f :: fs, n => Valid f.sibling n ∧
      (f.color = .red → f.sibling.color = .black ∧ topColor fs = .black) ∧
      Hole fs (n + f.color.weight)

/-- The red-black trees. -/
structure IsRedBlack (t : CTree α) : Prop where
  root_black : t.color = .black
  valid : ∃ n, Valid t n

theorem IsRedBlack.paint_black {t : CTree α} (h : IsRedBlack t) : t.paint .black = t :=
  h.root_black ▸ t.paint_color

/-- A red-black tree, seen from a focus. -/
structure Focus (fs : List (Frame α)) (t : CTree α) (n : ℕ) : Prop where
  hole : Hole fs n
  valid : Valid t n
  meet : t.color = .red → topColor fs = .black

theorem focus_cons {f : Frame α} {fs : List (Frame α)} {t : CTree α} :
    (∃ n, Focus (f :: fs) t n) ↔ ∃ n, Focus fs (f.plug t) n := by
  constructor
  · rintro ⟨n, ⟨hsib, hred, hole⟩, hvalid, hmeet⟩
    refine ⟨n + f.color.weight, hole, valid_join.mpr ⟨?_, n, rfl, hvalid, hsib⟩, ?_⟩
    · intro hc
      refine ⟨?_, (hred hc).1⟩
      cases ht : t.color with
      | black => rfl
      | red => exact absurd ((hmeet ht).symm.trans hc) (by decide)
    · intro hc
      rw [Frame.plug, color_join] at hc
      exact (hred hc).2
  · rintro ⟨n, hole, hvalid, hmeet⟩
    obtain ⟨hred, m, rfl, hvt, hvs⟩ := valid_join.mp hvalid
    refine ⟨m, ⟨hvs, fun hc => ⟨(hred hc).2, hmeet ?_⟩, hole⟩, hvt, ?_⟩
    · rw [Frame.plug, color_join, hc]
    · intro ht
      cases hc : f.color with
      | black => exact hc
      | red => exact absurd (ht.symm.trans (hred hc).1) (by decide)

theorem isRedBlack_fill {fs : List (Frame α)} {t : CTree α} :
    IsRedBlack (fill fs t) ↔ ∃ n, Focus fs t n := by
  induction fs generalizing t with
  | nil =>
    constructor
    · rintro ⟨hroot, n, hvalid⟩
      exact ⟨n, trivial, hvalid, fun hc => absurd (hroot.symm.trans hc) (by decide)⟩
    · rintro ⟨n, -, hvalid, hmeet⟩
      refine ⟨?_, n, hvalid⟩
      cases hc : t.color with
      | black => exact hc
      | red => exact absurd (hmeet hc) (by simp [topColor])
  | cons f fs ih => rw [fill_cons, ih, focus_cons]

/-- Only the colours and the siblings of the frames matter. -/
theorem hole_congr_item {fs : List (Frame α)} {d : Side} {c : Color} {a b : α} {s : CTree α}
    (gs : List (Frame α)) {n : ℕ} (h : Hole (gs ++ ⟨d, c, a, s⟩ :: fs) n) :
    Hole (gs ++ ⟨d, c, b, s⟩ :: fs) n := by
  induction gs generalizing n with
  | nil => exact h
  | cons g gs ih =>
    obtain ⟨hsib, hred, hole⟩ := h
    refine ⟨hsib, fun hc => ⟨(hred hc).1, ?_⟩, ih hole⟩
    have htop := (hred hc).2
    cases gs with
    | nil => exact htop
    | cons g' gs => exact htop

/-- A red root of a valid tree may become black. -/
theorem Valid.paint_black {t : CTree α} {n : ℕ} (h : Valid t n) (hc : t.color = .red) :
    Valid (t.paint .black) (n + 1) := by
  cases t with
  | leaf => exact absurd hc (by simp)
  | node c l a r =>
    obtain rfl : c = .red := hc
    obtain ⟨-, m, rfl, hl, hr⟩ := h
    exact ⟨fun hb => absurd hb (by decide), _, rfl, hl, hr⟩

/-- A black root with black children may become red. -/
theorem Valid.paint_red {d : Side} {c : Color} {s t : CTree α} {a : α} {n : ℕ}
    (h : Valid (join d .black s a t) (n + 1)) (hs : s.color = .black) (ht : t.color = .black) :
    Valid (join d c s a t) (n + c.weight) := by
  obtain ⟨m, hm, hvs, hvt⟩ := valid_black.mp h
  obtain rfl : n = m := by omega
  exact valid_join.mpr ⟨fun _ => ⟨hs, ht⟩, _, rfl, hvs, hvt⟩

/-! ## The conditions one by one -/

/-- No red node has a red child. -/
def NoRedRed : CTree α → Prop
  | leaf => True
  | node c l _ r => (c = .red → l.color = .black ∧ r.color = .black) ∧ NoRedRed l ∧ NoRedRed r

/-- The numbers of black nodes on the paths from the root to the leaves. -/
def blacks : CTree α → List ℕ
  | leaf => [0]
  | node c l _ r => (blacks l ++ blacks r).map (· + c.weight)

/-- From every node all paths to the leaves have the same number of black nodes. -/
def EqualBlacks : CTree α → Prop
  | leaf => True
  | node c l a r => (∀ m ∈ blacks (node c l a r), ∀ n ∈ blacks (node c l a r), m = n) ∧
      EqualBlacks l ∧ EqualBlacks r

theorem Valid.noRedRed {t : CTree α} {n : ℕ} (h : Valid t n) : NoRedRed t := by
  induction t generalizing n with
  | leaf => trivial
  | node c l a r ihl ihr =>
    obtain ⟨hc, m, -, hl, hr⟩ := h
    exact ⟨hc, ihl hl, ihr hr⟩

theorem Valid.blacks_eq {t : CTree α} {n : ℕ} (h : Valid t n) : ∀ m ∈ blacks t, m = n := by
  induction t generalizing n with
  | leaf => exact fun m hm => (List.mem_singleton.mp hm).trans h.symm
  | node c l a r ihl ihr =>
    obtain ⟨-, m, rfl, hl, hr⟩ := h
    intro k hk
    obtain ⟨j, hj, rfl⟩ := List.mem_map.mp hk
    rcases List.mem_append.mp hj with hj | hj
    · rw [ihl hl j hj]
    · rw [ihr hr j hj]

theorem Valid.equalBlacks {t : CTree α} {n : ℕ} (h : Valid t n) : EqualBlacks t := by
  induction t generalizing n with
  | leaf => trivial
  | node c l a r ihl ihr =>
    have hall := h.blacks_eq
    obtain ⟨-, m, -, hl, hr⟩ := h
    exact ⟨fun i hi j hj => (hall i hi).trans (hall j hj).symm, ihl hl, ihr hr⟩

end RedBlack
end CModel
