import CModel.RbTree.Shape

/-!
# Colours after a deletion

Where a black node has gone, the paths through one place are short of a black node.  A round of the
loop moves the place up by a node, or repairs the tree by one to three rotations.

* `Short`: the state of the loop, `l` being the items of the tree in order.
* `EraseSpec`: what a round can come to; `eraseFar_spec`, `eraseBlack_spec`, `eraseRound_spec`.
* `rbEraseColor_spec`: **`__rb_erase_color` makes a red-black tree with the same items in order.**
-/

namespace CModel
namespace RbTree

open RedBlack RbRoot NodeType

/-- The tree is a red-black tree but for the focus, which is short of a black node.  A red focus
would do if it were black. -/
structure Short (t : RbRoot) (R : List (Piece ℕ (Option Node))) (fs : List (Frame Item))
    (s : CTree Item) (l : List Item) : Prop where
  stores : Stores t R (fill fs s)
  valid : ∃ n, Hole fs (n + 1) ∧ (s.color = .black → Valid s n) ∧
    (s.color = .red → Valid (s.paint .black) (n + 1))
  inorder : (fill fs s).inorder = l

/-- What a round can come to below the frames `fs`, where the parent of the focus has the colour
`c`. -/
inductive EraseSpec (R : List (Piece ℕ (Option Node))) (fs : List (Frame Item)) (c : Color)
    (l : List Item) : EraseRound → Prop where
  | again {t : RbRoot} {s : CTree Item} (short : Short t R fs s l) (color : s.color = c) :
      EraseSpec R fs c l (.again t (rootAddr s) (above none fs))
  | done {t : RbRoot} {s : CTree Item} (stores : Stores t R s) (isRedBlack : IsRedBlack s)
      (inorder : s.inorder = l) : EraseSpec R fs c l (.done t t.rbNode)

variable {t : RbRoot} {R : List (Piece ℕ (Option Node))} {fs : List (Frame Item)}
  {s u v w : CTree Item} {d : Side} {c : Color} {p o : Item} {l : List Item} {n : ℕ}

/-- Whether both children are black does not depend on the side. -/
theorem reds_iff (h : Stores t R (fill fs (.join d c v o w))) :
    ∃ left right redLeft redRight, t.get o.addr rbLeft = some left ∧
      t.get o.addr rbRight = some right ∧ isRed t left = some redLeft ∧
      isRed t right = some redRight ∧
      ((!redLeft && !redRight) = true ↔ v.color = .black ∧ w.color = .black) := by
  have hv := (fill_near fs d c v o w ▸ h).isRed
  have hw := (fill_far fs d c v o w ▸ h).isRed
  have hblack : ∀ x : Color, (!(x == .red)) = true ↔ x = .black := by
    intro x
    cases x <;> decide
  cases d with
  | left => exact ⟨_, _, _, _, h.near, h.far, hv, hw, by rw [Bool.and_eq_true, hblack, hblack]⟩
  | right =>
    exact ⟨_, _, _, _, h.far, h.near, hw, hv, by rw [Bool.and_eq_true, hblack, hblack, and_comm]⟩

/-- The child of `other` on the far side is red: one rotation, and the tree is repaired. -/
theorem eraseFar_spec (h : Stores t R (fill fs (.join d c s p (.join d .black v o w))))
    (hw : w.color = .red) (hole : Hole fs (n + 1 + c.weight))
    (htop : c = .red → topColor fs = .black) (hvs : Valid s n) (hvv : Valid v n)
    (hvw : Valid w n) :
    ∃ r, eraseFar d t p.addr o.addr = some r ∧ EraseSpec R fs c
      (fill fs (.join d c s p (.join d .black v o w))).inorder r := by
  obtain ⟨w₁, a, w₂, rfl⟩ := exists_join_of_red hw .left
  have hcolor := h.color
  rw [fill_far] at h
  obtain ⟨t₁, hset₁, h₁⟩ := h.paint c
  rw [← fill_far] at h₁
  obtain ⟨t₂, hset₂, h₂⟩ := h₁.setBlack
  rw [fill_far] at h₂
  have hfar := h₂.far
  rw [fill_far] at h₂
  obtain ⟨t₃, hset₃, h₃⟩ := h₂.setBlack
  rw [← fill_far, ← fill_far] at h₃
  obtain ⟨t₄, hset₄, h₄⟩ := h₃.rotate
  refine ⟨.done t₄ t₄.rbNode, ?_, .done h₄ ?_ ?_⟩
  · rw [rootAddr_join] at hfar
    simp only [eraseFar, hcolor, hset₁, hset₂, hfar, hset₃, hset₄, Option.bind_eq_bind,
      Option.bind_some]
  · have hva : Valid (.join .left .black w₁ a w₂) (n + 1) := by
      rw [← CTree.paint_join .left .red .black]
      exact hvw.paint_black hw
    have hvp : Valid (.join d .black s p v) (n + 1) := valid_black.mpr ⟨n, rfl, hvs, hvv⟩
    refine isRedBlack_fill.mpr ⟨n + 1 + c.weight, hole, ?_, fun hc => htop ?_⟩
    · exact valid_join.mpr ⟨fun _ => ⟨CTree.color_join .., CTree.color_join ..⟩, _, rfl, hvp, hva⟩
    · rwa [CTree.color_join] at hc
  · refine inorder_fill_congr fs ?_
    rw [CTree.inorder_rotate d c .black c .black]
    exact CTree.inorder_join_congr d _ _ p rfl
      (CTree.inorder_join_congr d _ _ o rfl (CTree.inorder_join .left _ _ w₁ a w₂))

/-- Both children of `other` are black: the parent is the next focus. -/
theorem eraseBlack_again (h : Stores t R (fill fs (.join d c s p (.join d .black v o w))))
    (hole : Hole fs (n + 1 + c.weight)) (hvs : Valid s n)
    (hvu : Valid (.join d .black v o w) (n + 1)) (hv : v.color = .black) (hw : w.color = .black) :
    ∃ r, eraseBlack d t p.addr o.addr = some r ∧ EraseSpec R fs c
      (fill fs (.join d c s p (.join d .black v o w))).inorder r := by
  rw [fill_far] at h
  obtain ⟨left, right, redLeft, redRight, hleft, hright, hredLeft, hredRight, hblack⟩ := reds_iff h
  obtain ⟨t', hset, h'⟩ := h.setRed
  rw [← fill_far] at h'
  have hparent := h'.parent
  have hvo : Valid (.join d .red v o w) n := hvu.paint_red hv hw
  have hvp : Valid (.join d .black s p (.join d .red v o w)) (n + 1) :=
    valid_black.mpr ⟨n, rfl, hvs, hvo⟩
  have hshort : Short t' R fs (.join d c s p (.join d .red v o w))
      (fill fs (.join d c s p (.join d .black v o w))).inorder := by
    refine ⟨h', ?_, ?_⟩
    · cases c with
      | red =>
        refine ⟨n, hole, fun hc => absurd hc (by simp), ?_⟩
        intro _
        rwa [CTree.paint_join]
      | black => exact ⟨n + 1, hole, fun _ => hvp, fun hc => absurd hc (by simp)⟩
    · exact inorder_fill_congr fs
        (CTree.inorder_join_congr d _ _ p rfl (CTree.inorder_join d _ _ v o w))
  refine ⟨_, ?_, .again hshort (CTree.color_join ..)⟩
  simp only [eraseBlack, hleft, hright, hredLeft, hredRight, hblack.mpr ⟨hv, hw⟩, hset, hparent,
    rootAddr_join, Option.bind_eq_bind, Option.bind_some, if_true]

/-- A round where `other` is black. -/
theorem eraseBlack_spec (h : Stores t R (fill fs (.join d c s p (.join d .black v o w))))
    (hole : Hole fs (n + 1 + c.weight)) (htop : c = .red → topColor fs = .black) (hvs : Valid s n)
    (hvu : Valid (.join d .black v o w) (n + 1)) :
    ∃ r, eraseBlack d t p.addr o.addr = some r ∧ EraseSpec R fs c
      (fill fs (.join d c s p (.join d .black v o w))).inorder r := by
  by_cases hblacks : v.color = .black ∧ w.color = .black
  · exact eraseBlack_again h hole hvs hvu hblacks.1 hblacks.2
  obtain ⟨m, hm, hvv, hvw⟩ := valid_black.mp hvu
  obtain rfl : n = m := by omega
  have hother := h
  rw [fill_far] at hother
  obtain ⟨left, right, redLeft, redRight, hleft, hright, hredLeft, hredRight, hiff⟩ :=
    reds_iff hother
  have hreds : ¬(!redLeft && !redRight) = true := fun hb => hblacks (hiff.mp hb)
  have hfar := hother.far
  have hredw := (fill_far _ d .black v o w ▸ hother).isRed
  cases hw : w.color with
  | red =>
    obtain ⟨r, hr, hspec⟩ := eraseFar_spec h hw hole htop hvs hvv hvw
    refine ⟨r, ?_, hspec⟩
    rw [hw] at hredw
    simp only [eraseBlack, hleft, hright, hredLeft, hredRight, if_neg hreds, hfar, hredw, hr,
      beq_self_eq_true, if_true, Option.bind_eq_bind, Option.bind_some]
  | black =>
    -- the child on the near side is red, and takes the place of `other`
    have hv : v.color = .red := by
      cases hv : v.color with
      | red => rfl
      | black => exact absurd ⟨hv, hw⟩ hblacks
    obtain ⟨v₁, b, v₂, rfl⟩ := exists_join_of_red hv d
    obtain ⟨hcv₁, hcv₂, hvv₁, hvv₂⟩ := valid_red.mp hvv
    have hnear := hother.near
    rw [fill_near] at hother
    obtain ⟨t₁, hset₁, h₁⟩ := hother.setBlack
    rw [← fill_near] at h₁
    obtain ⟨t₂, hset₂, h₂⟩ := h₁.setRed
    rw [← CTree.join_other d .red, ← CTree.join_other d .black v₂] at h₂
    obtain ⟨t₃, hset₃, h₃⟩ := h₂.rotate
    rw [CTree.join_other, CTree.join_other, ← fill_far] at h₃
    have hnext := h₃.far
    obtain ⟨r, hr, hspec⟩ := eraseFar_spec h₃ (CTree.color_join ..) hole htop hvs hvv₁
      (valid_red.mpr ⟨hcv₂, hw, hvv₂, hvw⟩)
    refine ⟨r, ?_, ?_⟩
    · have hblackw : isRed t (rootAddr w) = some false := by
        rw [hredw, hw]
        rfl
      rw [rootAddr_join] at hnear hnext
      simp only [eraseBlack, hleft, hright, hredLeft, hredRight, if_neg hreds, hfar, hblackw, hnear,
        hset₁, hset₂, hset₃, hnext, hr, Bool.false_eq_true, if_false, Option.bind_eq_bind,
        Option.bind_some]
    · rwa [inorder_fill_congr fs (CTree.inorder_join_congr d c c p rfl ?_)]
      exact (CTree.inorder_rotate d _ _ _ _ v₁ v₂ w b o)

/-- A round of the loop.  If it goes on with another focus, then with a red one or further up. -/
theorem eraseRound_spec (h : Stores t R (fill fs (.join d c s p u)))
    (hole : Hole fs (n + 1 + c.weight))
    (hred : c = .red → u.color = .black ∧ topColor fs = .black) (hvs : Valid s n)
    (hvu : Valid u (n + 1)) :
    ∃ r fs' c', eraseRound d t p.addr = some r ∧
      EraseSpec R fs' c' (fill fs (.join d c s p u)).inorder r ∧ (c' = .red ∨ fs' = fs) := by
  have hother := h.far
  cases hu : u.color with
  | black =>
    obtain ⟨v, o, w, rfl⟩ := exists_join hvu.ne_leaf hu d
    have hcolor := (fill_far fs d c s p (.join d .black v o w) ▸ h).color
    obtain ⟨r, hr, hspec⟩ := eraseBlack_spec h hole (fun hc => (hred hc).2) hvs hvu
    refine ⟨r, fs, c, ?_, hspec, .inr rfl⟩
    rw [rootAddr_join] at hother
    simp only [eraseRound, hother, hcolor, hr, reduceCtorEq, if_false, Option.bind_eq_bind,
      Option.bind_some]
  | red =>
    obtain ⟨v, o, w, rfl⟩ := exists_join hvu.ne_leaf hu d
    have hc : c = .black := by
      cases c with
      | black => rfl
      | red => exact absurd ((hred rfl).1.symm.trans hu) (by decide)
    subst hc
    obtain ⟨hcv, hcw, hvv, hvw⟩ := valid_red.mp hvu
    obtain ⟨v₁, q, v₂, rfl⟩ := exists_join hvv.ne_leaf hcv d
    rw [fill_far] at h
    have hcolor := h.color
    obtain ⟨t₁, hset₁, h₁⟩ := h.setBlack
    rw [← fill_far] at h₁
    obtain ⟨t₂, hset₂, h₂⟩ := h₁.setRed
    obtain ⟨t₃, hset₃, h₃⟩ := h₂.rotate
    rw [fill_near] at h₃
    have hnext := h₃.far
    have hole' : Hole (⟨d, .black, o, w⟩ :: fs) (n + 1) :=
      ⟨hvw, fun hb => absurd hb (by simp), hole⟩
    obtain ⟨r, hr, hspec⟩ := eraseBlack_spec h₃ hole' (fun _ => rfl) hvs hvv
    rw [← fill_near,
      inorder_fill_congr fs (CTree.inorder_rotate d _ _ .black .red s _ w p o)] at hspec
    refine ⟨r, _, .red, ?_, hspec, .inl rfl⟩
    rw [rootAddr_join] at hother hnext
    simp only [eraseRound, hother, hcolor, hset₁, hset₂, hset₃, hnext, hr, if_true,
      Option.bind_eq_bind, Option.bind_some]

/-! ## The loop -/

/-- `if (node) rb_set_black(node);` -/
theorem setBlackOf_spec (h : Stores t R (fill fs s)) :
    ∃ t', eraseLoop.setBlackOf t (rootAddr s) = some t' ∧
      Stores t' R (fill fs (s.paint .black)) := by
  cases s with
  | leaf => exact ⟨t, rfl, h⟩
  | node c l a r => exact Stores.setBlack (d := .left) h

/-- The loop stops at a red focus, and at the root. -/
theorem eraseLoop_stop (h : Stores t R (fill fs s)) (hstop : s.color = .red ∨ fs = []) (fuel : ℕ) :
    eraseLoop (fuel + 1) t (rootAddr s) (above none fs) =
      eraseLoop.setBlackOf t (rootAddr s) := by
  have hisRed := h.isRed
  rcases hstop with hs | rfl
  · rw [hs] at hisRed
    simp only [eraseLoop, hisRed, Option.bind_eq_bind, Option.bind_some]
    rfl
  · have hroot : t.rbNode = rootAddr s := h.root
    simp only [eraseLoop, hisRed, hroot, Option.bind_eq_bind, Option.bind_some]
    simp

/-- **A round of the loop**: the parent of the focus has its side, and the round is one of those
above. -/
theorem eraseLoop_round (h : Short t R (⟨d, c, p, u⟩ :: fs) s l) (hs : s.color = .black) :
    ∃ r fs' c', EraseSpec R fs' c' l r ∧ (c' = .red ∨ fs' = fs) ∧
      ∀ fuel, eraseLoop (fuel + 1) t (rootAddr s) (above none (⟨d, c, p, u⟩ :: fs)) =
        match r with
        | .again t node parent => eraseLoop fuel t node parent
        | .done t node => eraseLoop.setBlackOf t node := by
  obtain ⟨hstores, ⟨n, ⟨hvu, hcond, hrest⟩, hblack, -⟩, rfl⟩ := h
  replace hvu : Valid u (n + 1) := hvu
  have hne := hstores.rootAddr_ne_rbNode
  have hup : Stores t R (fill fs (.join d c s p u)) := hstores
  have hsides : rootAddr u ≠ rootAddr s := fun heq => by
    obtain ⟨u₁, a, u₂, hu⟩ := exists_join hvu.ne_leaf rfl .left
    rw [hu, rootAddr_join] at heq
    exact hup.near_ne_far heq.symm (by rw [hu, rootAddr_join])
  obtain ⟨left, hleft, hside⟩ := hup.left_iff hsides
  obtain ⟨r, fs', c', hround, hspec, hmoves⟩ :=
    eraseRound_spec hup hrest hcond (hblack hs) hvu
  have hrounds : (if left = rootAddr s then eraseRound .left t p.addr
      else eraseRound .right t p.addr) = some r := by
    cases d with
    | left => rw [if_pos (hside.mpr rfl), hround]
    | right => rw [if_neg fun hl => absurd (hside.mp hl) (by simp), hround]
  have hnotRed : isRed t (rootAddr s) = some false := by
    rw [hstores.isRed, hs]
    rfl
  have habove : above none (⟨d, c, p, u⟩ :: fs) = some p.addr := rfl
  have htest : (!false && decide (rootAddr s ≠ t.rbNode)) = true := by simp [hne]
  refine ⟨r, fs', c', hspec, hmoves, fun fuel => ?_⟩
  cases r <;> simp only [eraseLoop, hnotRed, habove, hleft, hrounds, htest, if_true,
    Option.bind_eq_bind, Option.bind_some]

/-- The loop repairs the tree.  After a round it is at a red focus, or further up. -/
theorem eraseLoop_spec (h : Short t R fs s l) {fuel : ℕ}
    (hfuel : 0 < fuel ∧ (s.color = .black → fs.length < fuel)) :
    ∃ t' s', eraseLoop fuel t (rootAddr s) (above none fs) = some t' ∧ Stores t' R s' ∧
      IsRedBlack s' ∧ s'.inorder = l := by
  induction fuel generalizing t fs s with
  | zero => exact absurd hfuel.1 (Nat.lt_irrefl 0)
  | succ fuel ih =>
    cases hs : s.color with
    | red =>
      obtain ⟨hstores, ⟨n, hole, -, hred⟩, rfl⟩ := h
      obtain ⟨t', hset, hstores'⟩ := setBlackOf_spec hstores
      have hcolor : (s.paint .black).color = .black := by cases s <;> rfl
      refine ⟨t', _, ?_, hstores', isRedBlack_fill.mpr ⟨n + 1, hole, hred hs, ?_⟩,
        inorder_fill_congr fs (CTree.inorder_paint ..)⟩
      · rw [eraseLoop_stop hstores (.inl hs), hset]
      · intro hc
        exact absurd (hcolor.symm.trans hc) (by decide)
    | black =>
      cases fs with
      | nil =>
        obtain ⟨hstores, ⟨n, -, hblack, -⟩, rfl⟩ := h
        have hrb : IsRedBlack s := ⟨hs, n, hblack hs⟩
        obtain ⟨t', hset, hstores'⟩ := setBlackOf_spec hstores
        rw [hrb.paint_black] at hstores'
        refine ⟨t', s, ?_, hstores', hrb, rfl⟩
        rw [eraseLoop_stop hstores (.inr rfl), hset]
      | cons f fs =>
        obtain ⟨r, fs', c', hspec, hmoves, hloop⟩ := eraseLoop_round h hs
        have hlen : fs.length < fuel := Nat.lt_of_succ_lt_succ (hfuel.2 hs)
        cases hspec with
        | @again t₁ s₁ short color =>
          have hless : 0 < fuel ∧ (s₁.color = .black → fs'.length < fuel) := ⟨by omega, fun hb => by
            rcases hmoves with hc | rfl
            · exact absurd (hb.symm.trans (color.trans hc)) (by decide)
            · exact hlen⟩
          obtain ⟨t', s', hagain, hres⟩ := ih short hless
          exact ⟨t', s', (hloop fuel).trans hagain, hres⟩
        | @done t' s' stores isRedBlack inorder =>
          have hroot : Stores t' R (fill [] s') := stores
          obtain ⟨t'', hset, hstores'⟩ := setBlackOf_spec hroot
          rw [fill_nil, isRedBlack.paint_black] at hstores'
          refine ⟨t'', s', ?_, hstores', isRedBlack, inorder⟩
          rw [hloop, ← hset, stores.root]

/-- `__rb_erase_color` makes a red-black tree of the same items. -/
theorem rbEraseColor_spec (h : Short t R fs s l) :
    ∃ t' s', rbEraseColor t (rootAddr s) (above none fs) = some t' ∧ Stores t' R s' ∧
      IsRedBlack s' ∧ s'.inorder = l :=
  eraseLoop_spec h ⟨Nat.succ_pos _, fun _ => Nat.lt_succ_of_le h.stores.length_le⟩

end RbTree
end CModel
