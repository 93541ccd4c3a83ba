import Mathlib.Data.List.Count
import Mathlib.Data.List.Nodup
import Mathlib.Data.Nat.ModEq

/-!
# Taking turns

`n` places stand in a circle.  A cursor goes around, hands a turn to the first place from it on that
still takes part, and stands behind that place then.  Places may leave between two turns.

* `exists_add_mod`, `add_mod_inj`: each place is so many places behind another one.
* `count_window`: `n` turns in a row, without departures, reach each place once.
* `FirstFrom`: the place that gets the next turn.
* `Rotation`: turns and departures in any order, with the places that got a turn.
* `Rotation.count_between`: **between two turns of one place, each other place that stays gets
  exactly one**.
-/

namespace CModel

/-! ## Places in a circle -/

/-- Each place is less than `n` places behind any other. -/
theorem exists_add_mod {n c i : ℕ} (hc : c < n) (hi : i < n) : ∃ o < n, (c + o) % n = i := by
  refine ⟨(i + (n - c)) % n, Nat.mod_lt _ (by omega), ?_⟩
  rw [Nat.add_mod_mod, show c + (i + (n - c)) = i + n by omega, Nat.add_mod_right,
    Nat.mod_eq_of_lt hi]

/-- Places at different distances are different. -/
theorem add_mod_inj {n c a b : ℕ} (ha : a < n) (hb : b < n) (h : (c + a) % n = (c + b) % n) :
    a = b := by
  have hmod : a % n = b % n := Nat.ModEq.add_left_cancel' c h
  rwa [Nat.mod_eq_of_lt ha, Nat.mod_eq_of_lt hb] at hmod

/-- `n` counts in a row reach each place of the circle once. -/
theorem count_range'_mod {n s j : ℕ} (hj : j < n) :
    ((List.range' s n).map (· % n)).count j = 1 := by
  have hnodup : ((List.range' s n).map (· % n)).Nodup := by
    refine List.Nodup.map_on ?_ List.nodup_range'
    intro a ha b hb hab
    rw [List.mem_range'_1] at ha hb
    obtain ⟨i, rfl⟩ := Nat.exists_eq_add_of_le ha.1
    obtain ⟨k, rfl⟩ := Nat.exists_eq_add_of_le hb.1
    rw [add_mod_inj (c := s) (by omega) (by omega) hab]
  refine List.count_eq_one_of_mem hnodup ?_
  obtain ⟨o, ho, heq⟩ := exists_add_mod (Nat.mod_lt s (Nat.zero_lt_of_lt hj)) hj
  rw [Nat.mod_add_mod] at heq
  exact List.mem_map.mpr ⟨s + o, List.mem_range'_1.mpr ⟨by omega, by omega⟩, heq⟩

/-- Turns in a row, out of turns that have been counted from the first on. -/
theorem infix_map_range {α : Type*} {f : ℕ → α} {front window back : List α} {m : ℕ}
    (h : front ++ window ++ back = (List.range m).map f) :
    window = (List.range' front.length window.length).map f := by
  refine List.ext_getElem (by simp) ?_
  intro i hi hi'
  have hlen := congrArg List.length h
  simp only [List.length_append, List.length_map, List.length_range] at hlen
  have hget : (front ++ window ++ back)[front.length + i]? =
      ((List.range m).map f)[front.length + i]? := by rw [h]
  rw [List.append_assoc, List.getElem?_append_right (by omega), Nat.add_sub_cancel_left,
    List.getElem?_append_left hi, List.getElem?_map, List.getElem?_range (by omega)] at hget
  simpa [hi] using hget

/-- `n` turns in a row reach each place once. -/
theorem count_window {n m j : ℕ} {front window back : List ℕ}
    (h : front ++ window ++ back = (List.range m).map (· % n)) (hlen : window.length = n)
    (hj : j < n) : window.count j = 1 := by
  rw [infix_map_range h, hlen]
  exact count_range'_mod hj

/-! ## Turns -/

/-- The first place from `c` on that takes part is `o` places on. -/
structure FirstFrom (n : ℕ) (p : ℕ → Prop) (c o : ℕ) : Prop where
  lt : o < n
  mem : p ((c + o) % n)
  skipped : ∀ a < o, ¬ p ((c + a) % n)

/-- `Rotation n p c l q d`: with the places `p` and the cursor at `c`, the places in `l` get their
turns one after the other, and then the places `q` are left and the cursor is at `d`. -/
inductive Rotation (n : ℕ) : (ℕ → Prop) → ℕ → List ℕ → (ℕ → Prop) → ℕ → Prop where
  | nil (p : ℕ → Prop) (c : ℕ) : Rotation n p c [] p c
  | leave {p p' q : ℕ → Prop} {c d : ℕ} {l : List ℕ} (hle : ∀ i, p' i → p i)
      (h : Rotation n p' c l q d) : Rotation n p c l q d
  | turn {p q : ℕ → Prop} {c d o : ℕ} {l : List ℕ} (hfirst : FirstFrom n p c o)
      (h : Rotation n p ((c + o + 1) % n) l q d) : Rotation n p c ((c + o) % n :: l) q d

namespace Rotation

variable {n c d j k : ℕ} {p q : ℕ → Prop} {l mid : List ℕ}

/-- Who is left has been there all the time. -/
theorem of_left (h : Rotation n p c l q d) (hk : q k) : p k := by
  induction h with
  | nil => exact hk
  | leave hle _ ih => exact hle k (ih hk)
  | turn _ _ ih => exact ih hk

/-- Who gets a turn has been there before. -/
theorem of_mem (h : Rotation n p c l q d) (hj : j ∈ l) : p j := by
  induction h with
  | nil => exact absurd hj List.not_mem_nil
  | leave hle _ ih => exact hle j (ih hj)
  | turn hfirst _ ih =>
    rcases List.mem_cons.mp hj with rfl | hj
    · exact hfirst.mem
    · exact ih hj

/-- Behind its turn the cursor stands behind the place. -/
theorem tail (h : Rotation n p c (j :: l) q d) :
    j < n ∧ ∃ p', Rotation n p' ((j + 1) % n) l q d := by
  generalize hl : j :: l = l' at h
  induction h with
  | nil => exact absurd hl (by simp)
  | leave _ _ ih => exact ih hl
  | @turn p q c d o l' hfirst h _ =>
    rw [List.cons.injEq] at hl
    obtain ⟨rfl, rfl⟩ := hl
    refine ⟨Nat.mod_lt _ (by have hlt := hfirst.lt; omega), p, ?_⟩
    rwa [Nat.mod_add_mod]

/-- **The turns up to that of `j`**, which stands last from `c₀` on, seen from a cursor that has come
`t` places on: a place in front of `j` that stays gets one if the cursor is not past it. -/
theorem count_eq {c₀ t o : ℕ} (h : Rotation n p c l q d) (hc : c = (c₀ + t) % n) (ht : t < n)
    (hl : l = mid ++ [j]) (hj : j = (c₀ + (n - 1)) % n) (hmid : j ∉ mid)
    (hk : k = (c₀ + o) % n) (ho : o < n - 1) (hleft : q k) :
    mid.count k = if t ≤ o then 1 else 0 := by
  induction h generalizing t mid with
  | nil => exact absurd hl (by simp)
  | leave _ _ ih => exact ih hc ht hl hmid hleft
  | @turn p q c d o' l' hfirst h ih =>
    have hrot := Rotation.turn hfirst h
    have hpk : p k := hrot.of_left hleft
    have hpj : p j := hrot.of_mem (by rw [hl]; simp)
    have hplace : ∀ a, (c + a) % n = (c₀ + (t + a)) % n := fun a => by
      rw [hc, Nat.mod_add_mod, Nat.add_assoc]
    -- neither `j` nor `k` has been skipped
    have hskipj : n - 1 - t < o' → False := fun hlt => by
      refine hfirst.skipped _ hlt ?_
      rwa [hplace, show t + (n - 1 - t) = n - 1 by omega, ← hj]
    have hskipk : t ≤ o → o - t < o' → False := fun hle hlt => by
      refine hfirst.skipped _ hlt ?_
      rwa [hplace, show t + (o - t) = o by omega, ← hk]
    have hlt := hfirst.lt
    have hin : t + o' < n := by
      by_contra hge
      exact hskipj (by omega)
    cases mid with
    | nil =>
      rw [List.nil_append, List.cons.injEq, hplace, hj] at hl
      have hlast : t + o' = n - 1 := add_mod_inj hin (by omega) hl.1
      rw [List.count_nil, if_neg fun hle => hskipk hle (by omega)]
    | cons m mid =>
      rw [List.cons_append, List.cons.injEq, hplace] at hl
      rw [List.mem_cons, not_or] at hmid
      have hnotlast : t + o' ≠ n - 1 := fun h0 => hmid.1 (by rw [← hl.1, h0, hj])
      have hcursor : (c + o' + 1) % n = (c₀ + (t + o' + 1)) % n := by
        rw [Nat.add_assoc, hplace, Nat.add_assoc]
      have hrest := ih hcursor (by omega) hl.2 hmid.2 hleft
      rw [List.count_cons, hrest]
      by_cases hm : m = k
      · have heq : t + o' = o := add_mod_inj hin (by omega) (by rw [hl.1, hm, hk])
        rw [if_neg (by omega), hm, beq_self_eq_true, if_pos rfl, if_pos (by omega)]
      · have hne : t + o' ≠ o := fun h0 => hm (by rw [← hl.1, h0, hk])
        rw [beq_eq_false_iff_ne.mpr hm, if_neg Bool.false_ne_true, Nat.add_zero]
        refine if_congr ⟨fun h0 => by omega, ?_⟩ rfl rfl
        intro h0
        by_contra hgt
        exact hskipk h0 (by omega)

/-- **Between two turns of a place, each other place that stays gets exactly one.** -/
theorem count_between (h : Rotation n p c (j :: (mid ++ [j])) q d) (hmid : j ∉ mid) (hk : k < n)
    (hne : k ≠ j) (hleft : q k) : mid.count k = 1 := by
  obtain ⟨hj, p', hrest⟩ := h.tail
  have hcursor : (j + 1) % n < n := Nat.mod_lt _ (by omega)
  have hlast : j = ((j + 1) % n + (n - 1)) % n := by
    rw [Nat.mod_add_mod, show j + 1 + (n - 1) = j + n by omega, Nat.add_mod_right,
      Nat.mod_eq_of_lt hj]
  obtain ⟨o, ho, hok⟩ := exists_add_mod hcursor hk
  have hbefore : o ≠ n - 1 := by
    rintro rfl
    exact hne (by rw [← hok, ← hlast])
  have hcount := hrest.count_eq (t := 0) (by rw [Nat.add_zero ((j + 1) % n), Nat.mod_mod])
    (by omega) rfl hlast hmid hok.symm (by omega) hleft
  rwa [if_pos (Nat.zero_le o)] at hcount

end Rotation

end CModel
