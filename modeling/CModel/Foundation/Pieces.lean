import Mathlib.Data.List.Nodup
import Mathlib.Data.List.Perm.Basic
import Mathlib.Logic.Function.Basic

/-!
# A heap in pieces

What is known of a heap, as a list of pieces with no cell in common.  A write to a cell changes the
piece with the cell and no other.

* `Piece`: a statement that depends on the cells of the piece only; `Piece.one` is about one cell.
* `Pieces`: all of the statements of a list hold, and no cell is in two of them.
* `Pieces.replace`, `Pieces.write`: a change in one place of the list.
* `Piece.Splits`: a piece that is the same as some smaller ones; `Pieces.split`, `Pieces.join`.
-/

namespace CModel

universe u v

/-- A statement about a part of a heap. -/
structure Piece (ι : Type u) (β : Type v) where
  cells : List ι
  holds : (ι → β) → Prop
  congr : ∀ {H H' : ι → β}, (∀ p ∈ cells, H' p = H p) → holds H → holds H'

variable {ι : Type u} {β : Type v}

/-- The content of one cell. -/
def Piece.one (p : ι) (b : β) : Piece ι β where
  cells := [p]
  holds H := H p = b
  congr h hb := (h p List.mem_cons_self).trans hb

/-- The pieces `ps` of the heap. -/
structure Pieces (H : ι → β) (ps : List (Piece ι β)) : Prop where
  holds : ∀ P ∈ ps, P.holds H
  nodup : (ps.flatMap Piece.cells).Nodup

variable {H H' : ι → β} {P Q : Piece ι β} {L R ps qs : List (Piece ι β)}

theorem Pieces.perm (h : Pieces H ps) (hperm : ps.Perm qs) : Pieces H qs where
  holds P hP := h.holds P (hperm.mem_iff.mpr hP)
  nodup := (hperm.flatMap_right Piece.cells).nodup_iff.mp h.nodup

theorem Pieces.of_append_right (h : Pieces H (L ++ R)) : Pieces H R where
  holds P hP := h.holds P (List.mem_append_right L hP)
  nodup := by
    have hnodup := h.nodup
    rw [List.flatMap_append, List.nodup_append] at hnodup
    exact hnodup.2.1

/-- Nothing more is known of a piece. -/
theorem Pieces.drop (h : Pieces H (L ++ P :: R)) : Pieces H (L ++ R) :=
  (h.perm List.perm_middle).of_append_right (L := [P])

theorem Pieces.at (h : Pieces H (L ++ P :: R)) : P.holds H :=
  h.holds P (List.mem_append_right L List.mem_cons_self)

theorem Pieces.one_at {p : ι} {b : β} (h : Pieces H (L ++ Piece.one p b :: R)) : H p = b :=
  h.at

/-- A cell of one piece is in no other. -/
theorem Pieces.not_mem (h : Pieces H (L ++ P :: R)) {p : ι} (hp : p ∈ P.cells) :
    ∀ Q ∈ L ++ R, p ∉ Q.cells := by
  have hnodup := (List.perm_middle.flatMap_right Piece.cells).nodup_iff.mp h.nodup
  rw [List.flatMap_cons, List.nodup_append] at hnodup
  exact fun Q hQ hpQ => hnodup.2.2 p hp p (List.mem_flatMap.mpr ⟨Q, hQ, hpQ⟩) rfl

/-- One piece changes, on the same cells, and the rest of the heap stays as it is. -/
theorem Pieces.replace (h : Pieces H (L ++ P :: R)) (hcells : Q.cells.Perm P.cells)
    (hQ : Q.holds H') (hrest : ∀ p, p ∉ P.cells → H' p = H p) : Pieces H' (L ++ Q :: R) where
  holds P' hP' := by
    have hother : ∀ P'' ∈ L ++ R, P''.holds H' := fun P'' hP'' =>
      P''.congr (fun p hp => hrest p fun hpP => h.not_mem hpP P'' hP'' hp)
        (h.holds P'' (List.perm_middle.mem_iff.mpr (List.mem_cons_of_mem P hP'')))
    rcases List.mem_cons.mp (List.perm_middle.mem_iff.mp hP') with rfl | hP'
    · exact hQ
    · exact hother P' hP'
  nodup := by
    have hnodup := (List.perm_middle.flatMap_right Piece.cells).nodup_iff.mp h.nodup
    refine (List.perm_middle.flatMap_right Piece.cells).nodup_iff.mpr ?_
    rw [List.flatMap_cons] at hnodup ⊢
    exact (hcells.append_right _).nodup_iff.mpr hnodup

/-- A write to a cell that is a piece of its own. -/
theorem Pieces.write [DecidableEq ι] {p : ι} {b : β} (h : Pieces H (L ++ Piece.one p b :: R))
    (b' : β) : Pieces (Function.update H p b') (L ++ Piece.one p b' :: R) := by
  refine h.replace (List.Perm.refl _) ?_ fun _ hq =>
    Function.update_of_ne (fun hqp => hq (List.mem_singleton.mpr hqp)) b' H
  show Function.update H p b' p = b'
  rw [Function.update_self]

/-- A new cell. -/
theorem Pieces.new [DecidableEq ι] {p : ι} (h : Pieces H R) (hp : ∀ Q ∈ R, p ∉ Q.cells) (b : β) :
    Pieces (Function.update H p b) (Piece.one p b :: R) where
  holds Q hQ := by
    rcases List.mem_cons.mp hQ with rfl | hQR
    · show Function.update H p b p = b
      rw [Function.update_self]
    · refine Q.congr (fun q hq => Function.update_of_ne ?_ b H) (h.holds Q hQR)
      rintro rfl
      exact hp Q hQR hq
  nodup := by
    refine List.nodup_cons.mpr ⟨?_, h.nodup⟩
    intro hmem
    obtain ⟨Q, hQ, hpQ⟩ := List.mem_flatMap.mp hmem
    exact hp Q hQ hpQ

/-- A piece is the same as the pieces `ps` together. -/
structure Piece.Splits (P : Piece ι β) (ps : List (Piece ι β)) : Prop where
  holds_iff : ∀ H, P.holds H ↔ ∀ Q ∈ ps, Q.holds H
  cells : P.cells.Perm (ps.flatMap Piece.cells)

theorem Piece.Splits.perm (h : P.Splits ps) (hperm : ps.Perm qs) : P.Splits qs where
  holds_iff H := (h.holds_iff H).trans
    ⟨fun hps Q hQ => hps Q (hperm.mem_iff.mpr hQ), fun hqs Q hQ => hqs Q (hperm.mem_iff.mp hQ)⟩
  cells := h.cells.trans (hperm.flatMap_right Piece.cells)

/-- A part that splits further. -/
theorem Piece.Splits.trans (h : P.Splits (L ++ Q :: R)) (hQ : Q.Splits qs) :
    P.Splits (L ++ (qs ++ R)) where
  holds_iff H := by
    rw [h.holds_iff H]
    simp only [List.forall_mem_append, List.forall_mem_cons, hQ.holds_iff H]
  cells := by
    refine h.cells.trans ?_
    simp only [List.flatMap_append, List.flatMap_cons]
    exact List.Perm.append_left _ (hQ.cells.append_right _)

/-- Parts that make up a larger piece. -/
theorem Piece.Splits.merge (h : P.Splits (L ++ (qs ++ R))) (hQ : Q.Splits qs) :
    P.Splits (L ++ Q :: R) where
  holds_iff H := by
    rw [h.holds_iff H]
    simp only [List.forall_mem_append, List.forall_mem_cons, hQ.holds_iff H]
  cells := by
    refine h.cells.trans ?_
    simp only [List.flatMap_append, List.flatMap_cons]
    exact List.Perm.append_left _ (hQ.cells.symm.append_right _)

theorem pieces_split_iff (h : P.Splits ps) :
    Pieces H (L ++ P :: R) ↔ Pieces H (L ++ (ps ++ R)) := by
  have hperm : ((L ++ P :: R).flatMap Piece.cells).Perm ((L ++ (ps ++ R)).flatMap Piece.cells) := by
    simp only [List.flatMap_append, List.flatMap_cons]
    exact List.Perm.append_left _ (h.cells.append_right _)
  have hholds : (∀ Q ∈ L ++ P :: R, Q.holds H) ↔ ∀ Q ∈ L ++ (ps ++ R), Q.holds H := by
    simp only [List.forall_mem_append, List.forall_mem_cons, h.holds_iff H]
  exact ⟨fun hp => ⟨hholds.mp hp.holds, hperm.nodup_iff.mp hp.nodup⟩,
    fun hp => ⟨hholds.mpr hp.holds, hperm.nodup_iff.mpr hp.nodup⟩⟩

theorem Pieces.split (h : Pieces H (L ++ P :: R)) (hs : P.Splits ps) :
    Pieces H (L ++ (ps ++ R)) :=
  (pieces_split_iff hs).mp h

theorem Pieces.join (h : Pieces H (L ++ (ps ++ R))) (hs : P.Splits ps) :
    Pieces H (L ++ P :: R) :=
  (pieces_split_iff hs).mpr h

end CModel
