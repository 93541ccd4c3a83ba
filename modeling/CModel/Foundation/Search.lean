import Mathlib.Data.List.Basic

/-!
# The leftmost occurrence of a pattern

`strstr` and its case-insensitive cousins look for the first position at which a pattern starts.
Equality of letters is replaced by an arbitrary test `r`, so that one set of lemmas serves both.

* `firstSuffix`: the first position whose suffix passes a test, with `firstSuffix_eq_some_iff`
  and `firstSuffix_eq_none_iff`.
* `prefixBy`: the pattern starts the list; it reads as many letters as the pattern has
  (`prefixBy_append`).
* `findBy`: the first position at which the pattern starts.  More text behind an occurrence does
  not move it (`findBy_append`), text in front that no occurrence starts in shifts it
  (`findBy_append_of_forall`, `findBy_append_of_notMem`).
* `exists_of_findBy`, `findBy_of_not_isInfix`: the cut at the first occurrence, both ways.
-/

namespace CModel

universe u

variable {α : Type u}

/-! ## The first suffix that passes a test -/

/-- The first position whose suffix passes the test. -/
def firstSuffix (p : List α → Bool) : List α → Option ℕ
  | [] => if p [] then some 0 else none
  | a :: l => if p (a :: l) then some 0 else (firstSuffix p l).map (· + 1)

theorem firstSuffix_of_pos {p : List α → Bool} {l : List α} (h : p l = true) :
    firstSuffix p l = some 0 := by
  cases l with
  | nil => rw [firstSuffix, if_pos h]
  | cons a l => rw [firstSuffix, if_pos h]

theorem firstSuffix_cons_of_neg {p : List α → Bool} {a : α} {l : List α}
    (h : p (a :: l) = false) : firstSuffix p (a :: l) = (firstSuffix p l).map (· + 1) := by
  rw [firstSuffix, if_neg (by rw [h]; exact Bool.false_ne_true)]

/-- A list in front whose suffixes all fail shifts the position by its length. -/
theorem firstSuffix_append {p : List α → Bool} {l t : List α}
    (h : ∀ j < l.length, p ((l ++ t).drop j) = false) :
    firstSuffix p (l ++ t) = (firstSuffix p t).map (· + l.length) := by
  induction l with
  | nil => simp
  | cons a l ih =>
    have h0 : p (a :: (l ++ t)) = false := h 0 (by simp)
    have hl : ∀ j < l.length, p ((l ++ t).drop j) = false := fun j hj =>
      h (j + 1) (by simpa using hj)
    rw [List.cons_append, firstSuffix_cons_of_neg h0, ih hl, Option.map_map]
    congr 1

theorem firstSuffix_eq_none_iff {p : List α → Bool} {l : List α} :
    firstSuffix p l = none ↔ ∀ j ≤ l.length, p (l.drop j) = false := by
  induction l with
  | nil => simp [firstSuffix]
  | cons a l ih =>
    constructor
    · intro h j hj
      have h0 : p (a :: l) = false := by
        by_contra hp
        rw [firstSuffix_of_pos (by simpa using hp)] at h
        exact absurd h (by simp)
      rw [firstSuffix_cons_of_neg h0, Option.map_eq_none_iff] at h
      cases j with
      | zero => exact h0
      | succ j => exact ih.mp h j (by simpa using hj)
    · intro h
      rw [firstSuffix_cons_of_neg (h 0 (by simp)), Option.map_eq_none_iff, ih]
      exact fun j hj => h (j + 1) (by simpa using hj)

/-- **The position found is the first one.** -/
theorem firstSuffix_eq_some_iff {p : List α → Bool} {l : List α} {i : ℕ} :
    firstSuffix p l = some i ↔
      i ≤ l.length ∧ p (l.drop i) = true ∧ ∀ j < i, p (l.drop j) = false := by
  induction l generalizing i with
  | nil => cases i <;> simp [firstSuffix]
  | cons a l ih =>
    by_cases hp : p (a :: l) = true
    · rw [firstSuffix_of_pos hp]
      constructor
      · rintro ⟨rfl⟩
        exact ⟨Nat.zero_le _, hp, fun j hj => absurd hj (Nat.not_lt_zero j)⟩
      · rintro ⟨-, -, h⟩
        cases i with
        | zero => rfl
        | succ i => exact absurd hp (by simpa using h 0 (Nat.succ_pos i))
    · have hp' : p (a :: l) = false := by simpa using hp
      rw [firstSuffix_cons_of_neg hp', Option.map_eq_some_iff]
      constructor
      · rintro ⟨k, hk, rfl⟩
        obtain ⟨h₁, h₂, h₃⟩ := ih.mp hk
        refine ⟨by simpa using h₁, h₂, fun j hj => ?_⟩
        cases j with
        | zero => exact hp'
        | succ j => exact h₃ j (by omega)
      · rintro ⟨h₁, h₂, h₃⟩
        cases i with
        | zero => exact absurd h₂ hp
        | succ i =>
          exact ⟨i, ih.mpr ⟨by simpa using h₁, h₂, fun j hj => h₃ (j + 1) (by omega)⟩, rfl⟩

/-! ## A pattern at the start of a list -/

/-- The pattern starts the list, letters compared by `r`. -/
def prefixBy (r : α → α → Bool) : List α → List α → Bool
  | [], _ => true
  | _ :: _, [] => false
  | p :: ps, c :: cs => r c p && prefixBy r ps cs

variable {r : α → α → Bool}

@[simp] theorem prefixBy_nil (s : List α) : prefixBy r [] s = true := by
  cases s <;> rfl

@[simp] theorem prefixBy_cons_nil (p : α) (ps : List α) : prefixBy r (p :: ps) [] = false := rfl

@[simp] theorem prefixBy_cons_cons (p : α) (ps : List α) (c : α) (cs : List α) :
    prefixBy r (p :: ps) (c :: cs) = (r c p && prefixBy r ps cs) := rfl

theorem length_le_of_prefixBy {pat s : List α} (h : prefixBy r pat s = true) :
    pat.length ≤ s.length := by
  induction pat generalizing s with
  | nil => exact Nat.zero_le _
  | cons p ps ih =>
    cases s with
    | nil => exact absurd h (by simp)
    | cons c cs =>
      rw [prefixBy_cons_cons, Bool.and_eq_true] at h
      simpa using ih h.2

/-- Only as many letters are read as the pattern has. -/
theorem prefixBy_append {pat s : List α} (t : List α) (h : pat.length ≤ s.length) :
    prefixBy r pat (s ++ t) = prefixBy r pat s := by
  induction pat generalizing s with
  | nil => rw [prefixBy_nil, prefixBy_nil]
  | cons p ps ih =>
    cases s with
    | nil => exact absurd h (by simp)
    | cons c cs =>
      rw [List.cons_append, prefixBy_cons_cons, prefixBy_cons_cons, ih (by simpa using h)]

/-- A pattern that starts a list starts every extension of it. -/
theorem prefixBy_append_of_prefixBy {pat s : List α} (t : List α)
    (h : prefixBy r pat s = true) : prefixBy r pat (s ++ t) = true := by
  rw [prefixBy_append t (length_le_of_prefixBy h), h]

theorem prefixBy_append_self {pat : List α} (t : List α) (hr : ∀ a ∈ pat, r a a = true) :
    prefixBy r pat (pat ++ t) = true := by
  induction pat with
  | nil => exact prefixBy_nil _
  | cons p ps ih =>
    rw [List.cons_append, prefixBy_cons_cons, hr p List.mem_cons_self,
      ih fun a ha => hr a (List.mem_cons_of_mem p ha)]
    rfl

/-- A pattern cannot start a list whose first letter is not its own. -/
theorem prefixBy_cons_of_ne {p : α} {ps : List α} {c : α} {cs : List α} (h : r c p = false) :
    prefixBy r (p :: ps) (c :: cs) = false := by
  rw [prefixBy_cons_cons, h, Bool.false_and]

theorem prefixBy_beq_iff [BEq α] [LawfulBEq α] {pat s : List α} :
    prefixBy (· == ·) pat s = true ↔ pat <+: s := by
  induction pat generalizing s with
  | nil => simp
  | cons p ps ih =>
    cases s with
    | nil => simp
    | cons c cs =>
      rw [prefixBy_cons_cons, Bool.and_eq_true, ih, beq_iff_eq, List.cons_prefix_cons]
      exact and_congr_left' eq_comm

/-! ## The first occurrence -/

/-- The first position at which the pattern starts. -/
def findBy (r : α → α → Bool) (pat s : List α) : Option ℕ := firstSuffix (prefixBy r pat) s

theorem findBy_of_prefixBy {pat s : List α} (h : prefixBy r pat s = true) :
    findBy r pat s = some 0 :=
  firstSuffix_of_pos h

/-- **The first occurrence, spelled out.** -/
theorem findBy_eq_some_iff {pat s : List α} {i : ℕ} :
    findBy r pat s = some i ↔
      i ≤ s.length ∧ prefixBy r pat (s.drop i) = true ∧
        ∀ j < i, prefixBy r pat (s.drop j) = false :=
  firstSuffix_eq_some_iff

theorem findBy_eq_none_iff {pat s : List α} :
    findBy r pat s = none ↔ ∀ j ≤ s.length, prefixBy r pat (s.drop j) = false :=
  firstSuffix_eq_none_iff

/-- Something is found where the pattern occurs. -/
theorem isSome_findBy_iff [BEq α] [LawfulBEq α] {pat s : List α} :
    (findBy (· == ·) pat s).isSome ↔ pat <:+: s := by
  constructor
  · intro h
    obtain ⟨i, hi⟩ := Option.isSome_iff_exists.mp h
    exact (prefixBy_beq_iff.mp (findBy_eq_some_iff.mp hi).2.1).isInfix.trans
      (List.drop_suffix i s).isInfix
  · rintro ⟨a, b, rfl⟩
    rw [← Option.ne_none_iff_isSome]
    intro hnone
    have hat := findBy_eq_none_iff.mp hnone a.length (by simp only [List.length_append]; omega)
    rw [List.append_assoc, List.drop_left, prefixBy_beq_iff.mpr (List.prefix_append ..)] at hat
    exact absurd hat (by simp)

/-- An occurrence lies inside the list. -/
theorem findBy_add_length_le {pat s : List α} {i : ℕ} (h : findBy r pat s = some i) :
    i + pat.length ≤ s.length := by
  obtain ⟨hi, hp, -⟩ := findBy_eq_some_iff.mp h
  have hle := length_le_of_prefixBy hp
  rw [List.length_drop] at hle
  omega

/-- Text in front in which no occurrence starts shifts the first occurrence. -/
theorem findBy_append_of_forall {pat s t : List α}
    (h : ∀ j < s.length, prefixBy r pat ((s ++ t).drop j) = false) :
    findBy r pat (s ++ t) = (findBy r pat t).map (· + s.length) :=
  firstSuffix_append h

/-- Text in front without the first letter of the pattern shifts the first occurrence. -/
theorem findBy_append_of_notMem {p : α} {ps s t : List α} (h : ∀ c ∈ s, r c p = false) :
    findBy r (p :: ps) (s ++ t) = (findBy r (p :: ps) t).map (· + s.length) := by
  refine findBy_append_of_forall ?_
  intro j hj
  rw [List.drop_append_of_le_length (by omega), List.drop_eq_getElem_cons hj, List.cons_append]
  exact prefixBy_cons_of_ne (h _ (List.getElem_mem hj))

/-- A pattern behind a text without its first letter is found there. -/
theorem findBy_first [BEq α] [LawfulBEq α] {p : α} {ps s : List α} (h : p ∉ s) (t : List α) :
    findBy (· == ·) (p :: ps) (s ++ (p :: ps ++ t)) = some s.length := by
  have hhit : findBy (· == ·) (p :: ps) (p :: ps ++ t) = some 0 :=
    findBy_of_prefixBy (prefixBy_append_self t fun a _ => beq_self_eq_true a)
  rw [findBy_append_of_notMem fun c hc => beq_eq_false_iff_ne.mpr fun h0 => h (by rwa [← h0]),
    hhit, Option.map_some, Nat.zero_add]

/-- **More text does not move the first occurrence.** -/
theorem findBy_append {pat s : List α} {i : ℕ} (t : List α) (h : findBy r pat s = some i) :
    findBy r pat (s ++ t) = some i := by
  have hlen := findBy_add_length_le h
  obtain ⟨hi, hp, hlt⟩ := findBy_eq_some_iff.mp h
  refine findBy_eq_some_iff.mpr ⟨by rw [List.length_append]; omega, ?_, ?_⟩
  · rw [List.drop_append_of_le_length hi]
    exact prefixBy_append_of_prefixBy t hp
  · intro j hj
    rw [List.drop_append_of_le_length (by omega),
      prefixBy_append t (by rw [List.length_drop]; omega)]
    exact hlt j hj

/-- An occurrence that starts behind the first part is found in the second. -/
theorem findBy_of_append_of_le {pat s t : List α} {i : ℕ} (h : findBy r pat (s ++ t) = some i)
    (hi : s.length ≤ i) : findBy r pat t = some (i - s.length) := by
  obtain ⟨hle, hp, hlt⟩ := findBy_eq_some_iff.mp h
  rw [List.length_append] at hle
  have hdrop : ∀ j, (s ++ t).drop (s.length + j) = t.drop j := fun j => by
    rw [← List.drop_drop, List.drop_left]
  refine findBy_eq_some_iff.mpr ⟨by omega, ?_, ?_⟩
  · rwa [← hdrop, Nat.add_sub_cancel' hi]
  · intro j hj
    rw [← hdrop]
    exact hlt _ (by omega)

/-- An occurrence that ends inside the first part is found there. -/
theorem findBy_of_append {pat s t : List α} {i : ℕ} (h : findBy r pat (s ++ t) = some i)
    (hi : i + pat.length ≤ s.length) : findBy r pat s = some i := by
  obtain ⟨-, hp, hlt⟩ := findBy_eq_some_iff.mp h
  refine findBy_eq_some_iff.mpr ⟨by omega, ?_, ?_⟩
  · rw [List.drop_append_of_le_length (by omega),
      prefixBy_append t (by rw [List.length_drop]; omega)] at hp
    exact hp
  · intro j hj
    have hj' := hlt j hj
    rwa [List.drop_append_of_le_length (by omega),
      prefixBy_append t (by rw [List.length_drop]; omega)] at hj'

/-- The first occurrence lies in the first `n` letters exactly if the pattern occurs there. -/
theorem findBy_add_length_le_iff [BEq α] [LawfulBEq α] {pat s : List α} {i : ℕ}
    (h : findBy (· == ·) pat s = some i) (n : ℕ) : i + pat.length ≤ n ↔ pat <:+: s.take n := by
  have hle := findBy_add_length_le h
  rw [← isSome_findBy_iff]
  constructor
  · intro hn
    rw [← List.take_append_drop n s] at h
    rw [findBy_of_append h (by rw [List.length_take]; omega)]
    rfl
  · intro hsome
    obtain ⟨j, hj⟩ := Option.isSome_iff_exists.mp hsome
    have hfull := findBy_append (s.drop n) hj
    rw [List.take_append_drop, h, Option.some.injEq] at hfull
    have hlen := findBy_add_length_le hj
    rw [List.length_take] at hlen
    omega

/-- The text is cut at the first occurrence. -/
theorem exists_of_findBy [BEq α] [LawfulBEq α] {pat s : List α} {i : ℕ} (hne : pat ≠ [])
    (h : findBy (· == ·) pat s = some i) :
    ∃ t, s = s.take i ++ (pat ++ t) ∧ ¬ pat <:+: s.take i := by
  obtain ⟨-, hp, -⟩ := findBy_eq_some_iff.mp h
  obtain ⟨t, ht⟩ := prefixBy_beq_iff.mp hp
  refine ⟨t, by rw [ht, List.take_append_drop], ?_⟩
  intro hin
  have hle := (findBy_add_length_le_iff h i).mpr hin
  have hpos := List.length_pos_of_ne_nil hne
  omega

/-- A pattern without its first letter inside is found behind a text without the pattern: no
occurrence starts in the text and ends behind it. -/
theorem findBy_of_not_isInfix [BEq α] [LawfulBEq α] {p : α} {ps s : List α} (hp : p ∉ ps)
    (hs : ¬ p :: ps <:+: s) (t : List α) :
    findBy (· == ·) (p :: ps) (s ++ (p :: ps ++ t)) = some s.length := by
  refine findBy_eq_some_iff.mpr ⟨by rw [List.length_append]; omega, ?_, ?_⟩
  · rw [List.drop_left]
    exact prefixBy_beq_iff.mpr (List.prefix_append _ _)
  · intro j hj
    rw [Bool.eq_false_iff]
    intro hpre
    rw [prefixBy_beq_iff, List.drop_append_of_le_length (Nat.le_of_lt hj)] at hpre
    rcases Nat.lt_or_ge (s.drop j).length (p :: ps).length with hlt | hge
    · -- the occurrence has the first letter behind the text
      have hover : s.drop j ++ [p] <+: p :: ps := by
        refine List.prefix_of_prefix_length_le ?_ hpre ?_
        · exact (List.prefix_append_right_inj _).mpr ⟨ps ++ t, rfl⟩
        · rw [List.length_append, List.length_singleton]
          exact hlt
      rw [List.drop_eq_getElem_cons hj, List.cons_append, List.cons_prefix_cons] at hover
      exact hp (hover.2.subset (List.mem_append_right _ (List.mem_singleton_self p)))
    · exact hs ((List.prefix_of_prefix_length_le hpre (List.prefix_append _ _) hge).isInfix.trans
        (List.drop_suffix j s).isInfix)

end CModel
