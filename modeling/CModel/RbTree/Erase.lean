import CModel.RbTree.EraseColor

/-!
# Taking out a node

A node with at most one child is replaced by that child; a node with two children by the next node
in order, which has no left child and is taken out first.

* `leftmost_spec`: the first node of a subtree, and the frames down to it.
* `eraseOne_spec`, `eraseTwo_spec`.
* `rbErase_spec`: **`rb_erase` makes a red-black tree with the other items in order**, and leaves
  the node alone.
-/

namespace CModel
namespace RbTree

open RedBlack RbRoot NodeType

variable {t : RbRoot} {R : List (Piece ℕ (Option Node))} {fs : List (Frame Item)}
  {s l r : CTree Item} {d : Side} {c : Color} {a : Item} {n : ℕ}

/-- The colours after a node of the colour `c` has been taken out above the focus. -/
theorem eraseColor_spec (h : Stores t R (fill fs s)) (hole : Hole fs (n + c.weight))
    (hs : Valid s n) (hred : c = .red → s.color = .black) :
    ∃ t' s',
      (if c = .black then rbEraseColor t (rootAddr s) (above none fs) else some t) = some t' ∧
      Stores t' R s' ∧ IsRedBlack s' ∧ s'.inorder = (fill fs s).inorder := by
  cases c with
  | black =>
    rw [if_pos rfl]
    exact rbEraseColor_spec ⟨h, ⟨n, hole, fun _ => hs, fun hc => hs.paint_black hc⟩, rfl⟩
  | red =>
    refine ⟨t, _, if_neg (by decide), h, isRedBlack_fill.mpr ⟨n, hole, hs, ?_⟩, rfl⟩
    intro hc
    exact absurd ((hred rfl).symm.trans hc) (by decide)

/-- A node without a second child. -/
theorem eraseOne_spec (h : Stores t R (fill fs (.join d c s a .leaf)))
    (hrb : IsRedBlack (fill fs (.join d c s a .leaf))) :
    ∃ t' s' v, v.data = a.data ∧ eraseOne t a.addr (rootAddr s) = some t' ∧
      Stores t' (cell a.addr v :: R) s' ∧ IsRedBlack s' ∧ s'.inorder = (fill fs s).inorder := by
  obtain ⟨n, hole, hvalid, -⟩ := isRedBlack_fill.mp hrb
  obtain ⟨hred, m, rfl, hs, -⟩ := valid_join.mp hvalid
  have hparent := h.parent
  have hcolor := h.color
  have hfocus := Stores.focus_iff.mp h
  rw [rootAddr_join] at hfocus
  have h₀ := hfocus.split (L := [_]) (sub_join_splits _ d c s a .leaf)
  obtain ⟨t₁, hset₁, h₁⟩ := h₀.setParentOf (L := [_, _]) (above none fs)
  have hnot : a.addr ∉ frameAddrs fs :=
    h₁.pieces.not_mem (L := [_]) List.mem_cons_self _ List.mem_cons_self
  obtain ⟨t₂, hset₂, h₂⟩ := h₁.replaceChild (L := []) .left hnot (rootAddr s)
  have hleaf := h₂.split (L := [_, _, _]) (sub_leaf_splits _)
  have hmoved := hleaf.perm ((List.Perm.swap _ _ _).cons _)
  have hstores := Stores.focus_iff.mpr hmoved
  obtain ⟨t₃, s', hset₃, hres⟩ := eraseColor_spec hstores hole hs fun hc => (hred hc).1
  refine ⟨t₃, s', _, Node.of_data .., ?_, hres⟩
  simp only [eraseOne, hparent, hcolor, hset₁, hset₂, hset₃, Option.bind_eq_bind, Option.bind_some]

/-- The first node of a subtree, with the way down to it. -/
theorem leftmost_spec {p : ℕ} (h : Stores t R (fill fs s)) (hp : rootAddr s = some p) :
    ∃ rs c b u, s = fill rs (.join .left c .leaf b u) ∧ (∀ f ∈ rs, f.side = .left) ∧
      ∀ fuel, rs.length < fuel → leftmost fuel t p = some b.addr := by
  induction s generalizing fs p with
  | leaf => exact absurd hp (by simp)
  | node c l a r ihl ihr =>
    obtain rfl : a.addr = p := Option.some.inj hp
    have hleft : t.get a.addr rbLeft = some (rootAddr l) := Stores.near (d := .left) h
    cases hl : rootAddr l with
    | none =>
      have hleaf : l = .leaf := CTree.root_eq_none.mp (Option.map_eq_none_iff.mp hl)
      refine ⟨[], c, a, r, by rw [hleaf]; rfl, fun _ hf => absurd hf List.not_mem_nil,
        fun fuel hfuel => ?_⟩
      cases fuel with
      | zero => exact absurd hfuel (Nat.not_lt_zero _)
      | succ fuel =>
        rw [hl] at hleft
        simp only [leftmost, hleft, Option.bind_eq_bind, Option.bind_some]
    | some q =>
      have hl' : Stores t R (fill (⟨.left, c, a, r⟩ :: fs) l) := h
      obtain ⟨rs, c', b, u, hs, hsides, hlm⟩ := ihl hl' hl
      refine ⟨rs ++ [⟨.left, c, a, r⟩], c', b, u, ?_, ?_, ?_⟩
      · rw [fill_append, ← hs]
        rfl
      · intro f hf
        rcases List.mem_append.mp hf with hf | hf
        · exact hsides f hf
        · rw [List.mem_singleton.mp hf]
      · intro fuel hfuel
        rw [List.length_append, List.length_singleton] at hfuel
        cases fuel with
        | zero => exact absurd hfuel (Nat.not_lt_zero _)
        | succ fuel =>
          rw [hl] at hleft
          simp only [leftmost, hleft, Option.bind_eq_bind, Option.bind_some]
          exact hlm fuel (by omega)

/-- The next node is taken out of the subtree on the right, and gets what is left of it. -/
theorem takeNext_spec {root : Option ℕ} {P Q : Piece ℕ (Option Node)} {rs : List (Frame Item)}
    {u : CTree Item} {b : Item} {parent left : Option ℕ} {c' : Color} {right : Option ℕ}
    (h : Owns t root (P :: cell a.addr (Node.of .left parent c left right a.data) :: Q ::
      ctx (some a.addr) rs (some b.addr) ::
      cell b.addr (Node.of .left (above (some a.addr) rs) c' none (rootAddr u) b.data) ::
      sub (some b.addr) u :: R))
    (hright : right = treeRoot rs (some b.addr)) (hsides : ∀ f ∈ rs, f.side = .left) :
    ∃ t' q, takeNext t a.addr b.addr (rootAddr u) (above (some a.addr) rs) = some (t', q) ∧
      above (some b.addr) rs = some q ∧
      Owns t' root (P :: cell a.addr (Node.of .left parent c left right a.data) :: Q ::
        cell b.addr
          (Node.of .left (above (some a.addr) rs) c' none (rootAddr (fill rs u)) b.data) ::
        sub (some b.addr) (fill rs u) :: R) := by
  cases rs with
  | nil =>
    refine ⟨t, b.addr, ?_, rfl, h.split (L := [_, _, _]) (ctx_nil_splits _ _)⟩
    rw [above, takeNext, if_pos rfl]
  | cons f rs =>
    obtain ⟨e, cf, p, v⟩ := f
    obtain rfl : e = .left := hsides _ List.mem_cons_self
    have hne : some p.addr ≠ some a.addr := fun heq => by
      have hnot := h.pieces.not_mem (L := [_]) List.mem_cons_self
        (ctx (some a.addr) (⟨.left, cf, p, v⟩ :: rs) (some b.addr)) (by simp)
      rw [← Option.some.inj heq] at hnot
      exact hnot List.mem_cons_self
    obtain ⟨t₁, hset₁, h₁⟩ := h.setParentOf (L := [_, _, _, _, _]) (some p.addr)
    have hframe := h₁.split (L := [_, _, _]) (ctx_cons_splits _ ⟨.left, cf, p, v⟩ rs (some b.addr))
    obtain ⟨t₂, hset₂, h₂⟩ := hframe.setNear (L := [_, _, _]) (rootAddr u)
    have hctx := h₂.join (L := [_, _, _])
      (ctx_cons_splits (some a.addr) ⟨.left, cf, p, v⟩ rs (rootAddr u))
    have hread : t₂.get a.addr rbRight = some right :=
      hctx.read (L := [_]) fun _ => child_other_of_view
    -- the root of the subtree on the right is one of the frames
    obtain ⟨q, -, hq⟩ := exists_treeRoot ⟨.left, cf, p, v⟩ rs (rootAddr u)
    have hroot : rootAddr (fill (⟨.left, cf, p, v⟩ :: rs) u) = some q :=
      (rootAddr_fill _ u).trans hq
    have hq' : right = some q := hright.trans hq
    rw [hq'] at hread
    obtain ⟨t₃, hset₃, h₃⟩ := hctx.setFar (L := [_, _, _, _]) (some q)
    have hmoved := h₃.perm ((((List.Perm.swap _ _ _).cons _).cons _).cons _)
    have hjoin := hmoved.join (L := [_, _, _, _])
      (sub_fill_splits (some a.addr) (⟨.left, cf, p, v⟩ :: rs) u)
    obtain ⟨t₄, hset₄, h₄⟩ := hjoin.setParentOf (L := [_, _, _, _]) (some b.addr)
    rw [hroot] at hset₄ ⊢
    refine ⟨t₄, p.addr, ?_, rfl, h₄⟩
    have hset₃' : t₂.set b.addr (setChild .right (some q)) = some t₃ := hset₃
    have hset₄' : t₃.set q (rbSetParent (some b.addr)) = some t₄ := hset₄
    have habove : above (some a.addr) (⟨.left, cf, p, v⟩ :: rs) = some p.addr := rfl
    rw [habove, takeNext, if_neg hne]
    simp only [hset₁, hset₂, hread, hset₃', hset₄', Option.bind_eq_bind, Option.bind_some]

/-- The next node `b` has come to where the node `a` was; the colours are still to do. -/
theorem eraseTwo_splice {rs : List (Frame Item)} {c' : Color} {b : Item} {u : CTree Item}
    {right : ℕ}
    (h : Stores t R (fill fs (.join .left c l a (fill rs (.join .left c' .leaf b u)))))
    (hright : rootAddr (fill rs (.join .left c' .leaf b u)) = some right) (hl : l ≠ .leaf)
    (hsides : ∀ f ∈ rs, f.side = .left)
    (hnode : leftmost t.fuel t right = some b.addr) :
    ∃ t' v, v.data = a.data ∧ eraseTwo t a.addr right =
        (if c' = .black then
          rbEraseColor t' (rootAddr u) (above none (rs ++ ⟨.right, c, b, l⟩ :: fs))
        else some t') ∧
      Stores t' (cell a.addr v :: R) (fill (rs ++ ⟨.right, c, b, l⟩ :: fs) u) := by
  have hfocus := Stores.focus_iff.mp h
  rw [rootAddr_join] at hfocus
  have hnode₀ := hfocus.split (L := [_]) (sub_join_splits _ .left c l a _)
  have hframes := hnode₀.split (L := [_, _, _]) (sub_fill_splits (some a.addr) rs _)
  rw [rootAddr_join, hright] at hframes
  have hnext := hframes.split (L := [_, _, _, _]) (sub_join_splits _ .left c' .leaf b u)
  have h₀ := hnext.split (L := [_, _, _, _, _]) (sub_leaf_splits _)
  have hparent := h₀.read (L := [_]) fun _ => rbParent_of_view
  have hnot : a.addr ∉ frameAddrs fs :=
    h₀.pieces.not_mem (L := [_]) List.mem_cons_self _ List.mem_cons_self
  obtain ⟨t₁, hset₁, h₁⟩ := h₀.replaceChild (L := []) .left hnot (some b.addr)
  have hchild : t₁.get b.addr rbRight = some (rootAddr u) :=
    h₁.read (L := [_, _, _, _]) fun _ => child_other_of_view
  have hbparent := h₁.read (L := [_, _, _, _]) fun _ => rbParent_of_view
  have hcolor := h₁.read (L := [_, _, _, _]) fun _ => rbColor_of_view
  have hroot : some right = treeRoot rs (some b.addr) := by
    rw [← hright, rootAddr_fill, rootAddr_join]
  obtain ⟨t₂, q, hset₂, habove, h₂⟩ := takeNext_spec h₁ hroot hsides
  obtain ⟨parentColor, t₃, hget₃, hset₃, h₃⟩ :=
    h₂.copyParentColor (L := [_, _, _]) (h₂.pieces.one_at (L := [_]))
  obtain ⟨l₁, a', l₂, hl'⟩ := exists_join hl rfl .left
  have hlroot : rootAddr l = some a'.addr := by rw [hl', rootAddr_join]
  have hget₄ : t₃.get a.addr rbLeft = some (rootAddr l) :=
    h₃.read (L := [_]) fun _ => child_of_view
  obtain ⟨t₄, hset₄, h₄⟩ := h₃.setNear (L := [_, _, _]) (rootAddr l)
  obtain ⟨t₅, hset₅, h₅⟩ := h₄.setParentOf (L := [_, _]) (some b.addr)
  have hset₄' : t₃.set b.addr (setChild .left (rootAddr l)) = some t₄ := hset₄
  rw [hlroot] at hget₄ hset₄' hset₅
  have hset₅' : t₄.set a'.addr (rbSetParent (some b.addr)) = some t₅ := hset₅
  -- the node `a` goes behind the node `b` and its subtrees
  have hmoved := h₅.perm (((@List.perm_middle _ _ [_, _] (_ :: R)).trans
    ((@List.perm_middle _ _ [_, _] R).symm.cons _)).cons _)
  have hjoin := hmoved.join (L := [_]) (sub_join_splits (above none fs) .left c l b (fill rs u))
  have hstores := Stores.focus_iff (s := .join .left c l b (fill rs u)).mpr
    (rootAddr_join .left c l b (fill rs u) ▸ hjoin)
  rw [fill_far, ← fill_append] at hstores
  refine ⟨t₅, _, Node.of_data .., ?_, hstores⟩
  rw [above_append, habove]
  simp only [eraseTwo, hnode, hparent, hset₁, hchild, hbparent, hcolor, hset₂, hget₃, hset₃, hget₄,
    hset₄', hset₅', Option.bind_eq_bind, Option.bind_some]

/-- A node with two children. -/
theorem eraseTwo_spec {right : ℕ} (h : Stores t R (fill fs (.join .left c l a r)))
    (hrb : IsRedBlack (fill fs (.join .left c l a r))) (hright : rootAddr r = some right)
    (hl : l ≠ .leaf) :
    ∃ t' s' v, v.data = a.data ∧ eraseTwo t a.addr right = some t' ∧
      Stores t' (cell a.addr v :: R) s' ∧ IsRedBlack s' ∧
      s'.inorder = before fs ++ (l.inorder ++ r.inorder) ++ after fs := by
  obtain ⟨rs, c', b, u, rfl, hsides, hlm⟩ := leftmost_spec (fill_far fs .left c l a r ▸ h) hright
  -- the way down to the next node
  have hway := fill_far fs .left c l a (fill rs (.join .left c' .leaf b u))
  rw [← fill_append] at hway
  have hlen := (hway ▸ h).length_le
  rw [List.length_append, List.length_cons] at hlen
  obtain ⟨t₁, v, hv, hsplice, hstores⟩ := eraseTwo_splice h hright hl hsides
    (hlm _ (by rw [RbRoot.fuel]; omega))
  obtain ⟨n, hole, hvalid, -⟩ := isRedBlack_fill.mp (hway ▸ hrb)
  obtain ⟨hred, m, rfl, -, hu⟩ := valid_join.mp hvalid
  obtain ⟨t', s', herase, hstores', hrb', hinorder⟩ :=
    eraseColor_spec hstores (hole_congr_item rs hole) hu fun hc => (hred hc).2
  refine ⟨t', s', v, hv, hsplice.trans herase, hstores', hrb', hinorder.trans ?_⟩
  rw [fill_append, inorder_fill, inorder_fill, inorder_fill, before_eq_nil hsides]
  simp [before, after, CTree.join]

/-- `rb_erase` takes the node at the focus out of the tree. -/
theorem rbErase_spec (h : Stores t R (fill fs (.join .left c l a r)))
    (hrb : IsRedBlack (fill fs (.join .left c l a r))) :
    ∃ t' s' v, v.data = a.data ∧ rbErase t a.addr = some t' ∧
      Stores t' (cell a.addr v :: R) s' ∧ IsRedBlack s' ∧
      s'.inorder = before fs ++ (l.inorder ++ r.inorder) ++ after fs := by
  have hleft : t.get a.addr rbLeft = some (rootAddr l) := h.near
  have hright : t.get a.addr rbRight = some (rootAddr r) := h.far
  cases hl : rootAddr l with
  | none =>
    obtain rfl : l = .leaf := CTree.root_eq_none.mp (Option.map_eq_none_iff.mp hl)
    obtain ⟨t', s', v, hv, herase, hstores, hrb', hinorder⟩ :=
      eraseOne_spec (d := .right) (s := r) h hrb
    refine ⟨t', s', v, hv, ?_, hstores, hrb', by rw [hinorder, inorder_fill]; rfl⟩
    simp only [rbErase, hleft, hl, hright, herase, Option.bind_eq_bind, Option.bind_some]
  | some left =>
    cases hr : rootAddr r with
    | none =>
      obtain rfl : r = .leaf := CTree.root_eq_none.mp (Option.map_eq_none_iff.mp hr)
      obtain ⟨t', s', v, hv, herase, hstores, hrb', hinorder⟩ := eraseOne_spec h hrb
      refine ⟨t', s', v, hv, ?_, hstores, hrb', by rw [hinorder, inorder_fill]; simp⟩
      rw [hl] at herase hleft
      simp only [rbErase, hleft, hright, hr, herase, Option.bind_eq_bind, Option.bind_some]
    | some right =>
      have hne : l ≠ .leaf := fun hleaf => by simp [hleaf] at hl
      obtain ⟨t', s', v, hv, herase, hres⟩ := eraseTwo_spec h hrb hr hne
      refine ⟨t', s', v, hv, ?_, hres⟩
      simp only [rbErase, hleft, hl, hright, hr, herase, Option.bind_eq_bind, Option.bind_some]

end RbTree
end CModel
