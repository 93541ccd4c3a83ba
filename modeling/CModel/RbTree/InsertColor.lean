import CModel.RbTree.Shape

/-!
# Colours after an insertion

A new node is red, under a parent that may be red as well, and nothing else is wrong with the tree.
A round of the loop moves this up by two nodes, or repairs it by one or two rotations.

* `RedAt`: the state of the loop, `l` being the items of the tree in order.
* `insertRound_spec`, `insertLoop_spec`.
* `rbInsertColor_spec`: **`rb_insert_color` makes a red-black tree with the same items in order.**
-/

namespace CModel
namespace RbTree

open RedBlack RbRoot NodeType

/-- The tree is a red-black tree but for the red node `node`, whose parent may be red or missing. -/
structure RedAt (t : RbRoot) (R : List (Piece ℕ (Option Node))) (node : ℕ)
    (fs : List (Frame Item)) (s : CTree Item) (l : List Item) : Prop where
  stores : Stores t R (fill fs s)
  addr : rootAddr s = some node
  red : s.color = .red
  valid : ∃ n, Hole fs n ∧ Valid s n
  inorder : (fill fs s).inorder = l

variable {t : RbRoot} {R : List (Piece ℕ (Option Node))} {fs gs : List (Frame Item)}
  {s u w : CTree Item} {d e : Side} {p g : Item} {node : ℕ} {l : List Item}

/-- The uncle is red. -/
theorem insertRound_red (h : Stores t R (fill gs (.join d .black (.join e .red s p w) g u)))
    (hu : u.color = .red) :
    ∃ t', insertRound d t node p.addr g.addr = some (t', g.addr) ∧
      Stores t' R (fill gs (.join d .red (.join e .black s p w) g (u.paint .black))) := by
  obtain ⟨u₁, a, u₂, rfl⟩ := exists_join_of_red hu .left
  have huncle := h.far
  rw [fill_far] at h
  have hred := h.isRed
  obtain ⟨t₁, hset₁, h₁⟩ := h.setBlack
  rw [← fill_far, fill_near] at h₁
  obtain ⟨t₂, hset₂, h₂⟩ := h₁.setBlack
  rw [← fill_near] at h₂
  obtain ⟨t₃, hset₃, h₃⟩ := h₂.setRed
  refine ⟨t₃, ?_, by rwa [CTree.paint_join]⟩
  simp only [rootAddr_join, CTree.color_join] at huncle hred
  simp only [insertRound, huncle, hred, hset₁, hset₂, hset₃, Option.bind_eq_bind, Option.bind_some,
    beq_self_eq_true, if_true]

/-- The uncle is black: the last step, where the node is on the same side as its parent. -/
theorem insert_outer (h : Stores t R (fill gs (.join d .black (.join d .red s p w) g u))) :
    ∃ t₁ t₂ t₃, t.set p.addr rbSetBlack = some t₁ ∧ t₁.set g.addr rbSetRed = some t₂ ∧
      rbRotate d.other t₂ g.addr = some t₃ ∧
      Stores t₃ R (fill gs (.join d .black s p (.join d .red w g u))) := by
  rw [fill_near] at h
  obtain ⟨t₁, hset₁, h₁⟩ := h.setBlack
  rw [← fill_near] at h₁
  obtain ⟨t₂, hset₂, h₂⟩ := h₁.setRed
  -- the same tree, seen from the other side
  rw [← CTree.join_other d .red, ← CTree.join_other d .black w] at h₂
  obtain ⟨t₃, hset₃, h₃⟩ := h₂.rotate
  rw [CTree.join_other, CTree.join_other] at h₃
  exact ⟨t₁, t₂, t₃, hset₁, hset₂, hset₃, h₃⟩

/-- A round of the loop: the red node moves up, or gets a black parent. -/
theorem insertRound_spec {n : ℕ}
    (h : Stores t R (fill gs (.join d .black (.join e .red s p w) g u)))
    (haddr : rootAddr s = some node) (hs : s.color = .red) (hw : w.color = .black)
    (hole : Hole gs (n + 1)) (hvs : Valid s n) (hvw : Valid w n) (hvu : Valid u n) :
    ∃ t' node' fs' s', insertRound d t node p.addr g.addr = some (t', node') ∧
      fs'.length ≤ gs.length + 1 ∧
      RedAt t' R node' fs' s' (fill gs (.join d .black (.join e .red s p w) g u)).inorder := by
  cases hu : u.color with
  | red =>
    obtain ⟨t', hround, h'⟩ := insertRound_red h hu
    refine ⟨t', g.addr, gs, _, hround, Nat.le_succ _, h', rootAddr_join .., CTree.color_join ..,
      ⟨n + 1, hole, ?_⟩, ?_⟩
    · have hvp : Valid (.join e .black s p w) (n + 1) := valid_black.mpr ⟨n, rfl, hvs, hvw⟩
      have hcu : (u.paint .black).color = .black := by cases u <;> rfl
      exact valid_red.mpr ⟨CTree.color_join .., hcu, hvp, hvu.paint_black hu⟩
    · exact inorder_fill_congr gs (CTree.inorder_join_congr d _ _ g (CTree.inorder_join e _ _ s p w)
        (CTree.inorder_paint .black u))
  | black =>
    have huncle := h.far
    have hred := (fill_far gs d .black (.join e .red s p w) g u ▸ h).isRed
    rw [hu] at hred
    -- the tree after the last rotation, whatever the side of the node has been
    have hlast : ∀ {t' s' p' w'}, s'.color = .red → Valid s' n → w'.color = .black → Valid w' n →
        (.join d .black s' p' (.join d .red w' g u) : CTree Item).inorder =
          (.join d .black (.join e .red s p w) g u : CTree Item).inorder →
        ∀ node', rootAddr s' = some node' →
        Stores t' R (fill gs (.join d .black s' p' (.join d .red w' g u))) →
        RedAt t' R node' (⟨d, .black, p', .join d .red w' g u⟩ :: gs) s'
          (fill gs (.join d .black (.join e .red s p w) g u)).inorder := by
      intro t' s' p' w' hs' hvs' hw' hvw' hinorder node' haddr' h'
      refine ⟨h', haddr', hs', ⟨n, ⟨?_, fun hc => absurd hc (by simp), hole⟩, hvs'⟩, ?_⟩
      · exact valid_red.mpr ⟨hw', hu, hvw', hvu⟩
      · exact inorder_fill_congr gs hinorder
    rcases Side.eq_or_eq_other d e with rfl | rfl
    · have hfar := (fill_near gs e .black _ g u ▸ h).far
      have hne := (fill_near gs e .black _ g u ▸ h).near_ne_far haddr
      obtain ⟨t₁, t₂, t₃, hset₁, hset₂, hset₃, h₃⟩ := insert_outer h
      refine ⟨t₃, node, _, s, ?_, Nat.le_refl _, hlast hs hvs hw hvw ?_ node haddr h₃⟩
      · simp only [insertRound, huncle, hred, hfar, if_neg hne, hset₁, hset₂, hset₃,
          Option.bind_eq_bind, Option.bind_some]
        rfl
      · exact (CTree.inorder_rotate e _ _ _ _ s w u p g).symm
    · obtain ⟨s₁, a, s₂, rfl⟩ := exists_join_of_red hs d
      obtain rfl : a.addr = node := by simpa using haddr
      obtain ⟨hcs₁, hcs₂, hvs₁, hvs₂⟩ := valid_red.mp hvs
      have hnear := (fill_near gs d .black _ g u ▸ h).near
      rw [fill_near, CTree.join_other] at h
      obtain ⟨t₀, hset₀, h₀⟩ := h.rotate
      obtain ⟨t₁, t₂, t₃, hset₁, hset₂, hset₃, h₃⟩ := insert_outer h₀
      refine ⟨t₃, p.addr, _, _, ?_, Nat.le_refl _, hlast (CTree.color_join ..)
        (valid_red.mpr ⟨hw, hcs₁, hvw, hvs₁⟩) hcs₂ hvs₂ ?_ p.addr (rootAddr_join ..) h₃⟩
      · simp only [insertRound, huncle, hred, hnear, rootAddr_join, if_true, hset₀, hset₁, hset₂,
          hset₃, Option.bind_eq_bind, Option.bind_some]
        rfl
      · rw [CTree.join_other, ← CTree.inorder_rotate d .black .black]
        exact CTree.inorder_join_congr d _ _ g (CTree.inorder_rotate d _ _ _ _ w s₁ s₂ p a) rfl

/-- The loop repairs the tree but for a red root. -/
theorem insertLoop_spec (h : RedAt t R node fs s l) {fuel : ℕ} (hfuel : fs.length < fuel) :
    ∃ t' s', insertLoop fuel t node = some t' ∧ Stores t' R s' ∧ IsRedBlack (s'.paint .black) ∧
      s'.inorder = l := by
  induction fuel generalizing t node fs s with
  | zero => exact absurd hfuel (Nat.not_lt_zero _)
  | succ fuel ih =>
    obtain ⟨hstores, haddr, hred, ⟨n, hole, hvalid⟩, rfl⟩ := h
    obtain ⟨s₁, a, s₂, rfl⟩ := exists_join_of_red hred .left
    obtain rfl : a.addr = node := by simpa using haddr
    have hparent := hstores.parent
    cases fs with
    | nil =>
      refine ⟨t, _, ?_, hstores, ⟨?_, n + 1, hvalid.paint_black hred⟩, rfl⟩
      · simp only [insertLoop, hparent, above, Option.bind_eq_bind, Option.bind_some]
      · rw [fill_nil, CTree.paint_join, CTree.color_join]
    | cons f fs =>
      obtain ⟨e, c, p, w⟩ := f
      have hup : Stores t R (fill fs (.join e c (.join .left .red s₁ a s₂) p w)) := hstores
      have hcolor := hup.color
      cases c with
      | black =>
        have hrb : IsRedBlack (fill (⟨e, .black, p, w⟩ :: fs) (.join .left .red s₁ a s₂)) :=
          isRedBlack_fill.mpr ⟨n, hole, hvalid, fun _ => rfl⟩
        refine ⟨t, _, ?_, hstores, ?_, rfl⟩
        · simp only [insertLoop, hparent, above, hcolor, Option.bind_eq_bind, Option.bind_some,
            reduceCtorEq, if_false]
        · rwa [hrb.paint_black]
      | red =>
        -- the parent is red, so that it is not the root
        obtain ⟨hvw, hcond, hrest⟩ := hole
        obtain ⟨hcw, htop⟩ := hcond rfl
        cases fs with
        | nil => exact absurd htop (by simp [topColor])
        | cons f gs =>
          obtain ⟨d, c, g, u⟩ := f
          obtain rfl : c = .black := htop
          obtain ⟨hvu, -, hole⟩ := hrest
          have hgparent := hup.parent
          have htop : Stores t R
            (fill gs (.join d .black (.join e .red (.join .left .red s₁ a s₂) p w) g u)) := hup
          obtain ⟨left, hleft, hside⟩ := htop.left_iff
            (rootAddr_join e .red _ p w ▸ htop.near_ne_far (rootAddr_join ..))
          rw [rootAddr_join] at hside
          obtain ⟨t', node', fs', s', hround, hlen, hred'⟩ :=
            insertRound_spec htop (rootAddr_join ..) (CTree.color_join ..) hcw hole hvalid hvw hvu
          have hlen' : fs'.length < fuel := by
            simp only [List.length_cons] at hfuel
            omega
          obtain ⟨t'', s'', hloop, hres⟩ := ih hred' hlen'
          refine ⟨t'', s'', ?_, hres⟩
          have hrounds : (if left = some p.addr then insertRound .left t a.addr p.addr g.addr
              else insertRound .right t a.addr p.addr g.addr) = some (t', node') := by
            cases d with
            | left => rw [if_pos (hside.mpr rfl), hround]
            | right => rw [if_neg fun hl => absurd (hside.mp hl) (by simp), hround]
          simp only [insertLoop, hparent, above, hcolor, hgparent, hleft, hrounds,
            Option.bind_eq_bind, Option.bind_some, if_true, hloop]

/-- `rb_insert_color` makes a red-black tree of the same items. -/
theorem rbInsertColor_spec (h : RedAt t R node fs s l) :
    ∃ t' s', rbInsertColor t node = some t' ∧ Stores t' R s' ∧ IsRedBlack s' ∧ s'.inorder = l := by
  obtain ⟨t', s', hloop, hstores, hrb, hinorder⟩ :=
    insertLoop_spec h (Nat.lt_succ_of_le h.stores.length_le)
  have hne : s' ≠ .leaf := by
    rintro rfl
    obtain ⟨s₁, a, s₂, rfl⟩ := exists_join_of_red h.red .left
    have hnil := h.inorder.trans hinorder.symm
    rw [inorder_fill] at hnil
    simp [CTree.join] at hnil
  obtain ⟨s₁, a, s₂, hs⟩ := exists_join hne rfl .left
  have hroot : t'.rbNode = some a.addr := by rw [hstores.root, hs, rootAddr_join]
  have hfocus : Stores t' R (fill [] (.join .left s'.color s₁ a s₂)) := hs ▸ hstores
  obtain ⟨t'', hset, hstores'⟩ := hfocus.setBlack
  have hpaint : s'.paint .black = .join .left .black s₁ a s₂ := by rw [hs, CTree.paint_join]
  rw [hpaint] at hrb
  refine ⟨t'', _, ?_, hstores', hrb, ?_⟩
  · simp only [rbInsertColor, RbRoot.fuel, hloop, hroot, hset, Option.bind_eq_bind,
      Option.bind_some]
  · rw [fill_nil, ← hpaint, CTree.inorder_paint, hinorder]

end RbTree
end CModel
