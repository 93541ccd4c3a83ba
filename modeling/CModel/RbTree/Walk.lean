import CModel.RbTree.Erase

/-!
# The nodes in order

`rb_first` and `rb_next` go from each node to the next one through the links to the parents.

* `climb_spec`: the first node above the focus that is right of it.
* `rbFirst_spec`, `rbNext_spec`: **the first item, and the next one**, with a focus on it.
-/

namespace CModel
namespace RbTree

open RedBlack RbRoot NodeType

variable {t : RbRoot} {R : List (Piece ℕ (Option Node))} {fs : List (Frame Item)}
  {s l r : CTree Item} {c : Color} {a : Item}

/-- The node `p`, which may be missing, is where the list goes on in the tree `s`. -/
inductive Onward (s : CTree Item) : Option ℕ → List Item → Prop where
  | stop : Onward s none []
  | next {fs : List (Frame Item)} {c : Color} {l r : CTree Item} {b : Item}
      (focus : s = fill fs (.join .left c l b r)) :
      Onward s (some b.addr) (b :: (r.inorder ++ after fs))

/-- The way up to the first node that is right of the focus. -/
theorem climb_spec {p fuel : ℕ} (h : Stores t R (fill fs s)) (hp : rootAddr s = some p)
    (hfuel : fs.length < fuel) :
    ∃ q, climb fuel t p = some q ∧ Onward (fill fs s) q (after fs) := by
  induction fs generalizing s p fuel with
  | nil =>
    have hparent := h.parent_of_rootAddr hp
    cases fuel with
    | zero => exact absurd hfuel (Nat.not_lt_zero _)
    | succ fuel =>
      refine ⟨none, ?_, .stop⟩
      simp only [climb, hparent, above, Option.bind_eq_bind, Option.bind_some]
  | cons f fs ih =>
    obtain ⟨d, c, b, u⟩ := f
    have hup : Stores t R (fill fs (.join d c s b u)) := h
    have hne := hup.near_ne_far hp
    have hparent : t.get p rbParent = some (some b.addr) := h.parent_of_rootAddr hp
    cases fuel with
    | zero => exact absurd hfuel (Nat.not_lt_zero _)
    | succ fuel =>
      cases d with
      | left =>
        have hright : t.get b.addr rbRight = some (rootAddr u) := hup.far
        have honward : Onward (fill fs (.join .left c s b u)) _ _ := .next rfl
        refine ⟨some b.addr, ?_, honward⟩
        simp only [climb, hparent, hright, if_neg hne, Option.bind_eq_bind, Option.bind_some]
      | right =>
        have hright : t.get b.addr rbRight = some (rootAddr s) := hup.near
        obtain ⟨q, hclimb, honward⟩ := ih hup (rootAddr_join ..) (Nat.lt_of_succ_lt_succ hfuel)
        refine ⟨q, ?_, honward⟩
        rw [hp] at hright
        simp only [climb, hparent, hright, if_true, hclimb, Option.bind_eq_bind, Option.bind_some]

/-- The first node of a subtree is where the list of its items starts. -/
theorem leftmost_onward {p : ℕ} (h : Stores t R (fill fs s)) (hp : rootAddr s = some p) :
    ∃ q, leftmost t.fuel t p = some q ∧
      Onward (fill fs s) (some q) (s.inorder ++ after fs) := by
  obtain ⟨rs, c, b, u, rfl, hsides, hlm⟩ := leftmost_spec h hp
  rw [← fill_append] at h ⊢
  have hlen := h.length_le
  rw [List.length_append] at hlen
  refine ⟨b.addr, hlm _ (by rw [RbRoot.fuel]; omega), ?_⟩
  have hnext : Onward (fill (rs ++ fs) (.join .left c .leaf b u)) _ _ := .next rfl
  rw [inorder_fill, before_eq_nil hsides]
  rwa [after_append, ← List.append_assoc] at hnext

theorem rbFirst_spec (h : Stores t R s) :
    ∃ q, rbFirst t = some q ∧ Onward s q s.inorder := by
  cases hs : rootAddr s with
  | none =>
    obtain rfl : s = .leaf := CTree.root_eq_none.mp (Option.map_eq_none_iff.mp hs)
    exact ⟨none, by rw [rbFirst, h.root, hs], .stop⟩
  | some p =>
    have hroot : Stores t R (fill [] s) := h
    obtain ⟨q, hq, honward⟩ := leftmost_onward hroot hs
    refine ⟨some q, by rw [rbFirst, h.root, hs]; simp only [hq, Option.map_some], ?_⟩
    rwa [after, List.append_nil] at honward

theorem rbNext_spec (h : Stores t R (fill fs (.join .left c l a r))) :
    ∃ q, rbNext t a.addr = some q ∧
      Onward (fill fs (.join .left c l a r)) q (r.inorder ++ after fs) := by
  have hparent := h.parent
  have hright : t.get a.addr rbRight = some (rootAddr r) := h.far
  have hne : above none fs ≠ some a.addr := fun habove => by
    cases fs with
    | nil => exact absurd habove (by simp [above])
    | cons f fs =>
      have hnot := h.not_mem_frames (rootAddr_join ..)
      rw [← Option.some.inj habove] at hnot
      exact hnot List.mem_cons_self
  cases hr : rootAddr r with
  | none =>
    obtain rfl : r = .leaf := CTree.root_eq_none.mp (Option.map_eq_none_iff.mp hr)
    obtain ⟨q, hclimb, honward⟩ := climb_spec h (rootAddr_join ..) (Nat.lt_succ_of_le h.length_le)
    refine ⟨q, ?_, honward⟩
    rw [hr] at hright
    simp only [rbNext, hparent, if_neg hne, hright, RbRoot.fuel, hclimb, Option.bind_eq_bind,
      Option.bind_some]
  | some p =>
    have hsub := fill_far fs .left c l a r
    obtain ⟨q, hq, honward⟩ := leftmost_onward (hsub ▸ h) hr
    refine ⟨some q, ?_, ?_⟩
    · rw [hr] at hright
      simp only [rbNext, hparent, if_neg hne, hright, hq, Option.bind_eq_bind, Option.bind_some,
        Option.map_some]
    · rwa [← hsub] at honward

end RbTree
end CModel
