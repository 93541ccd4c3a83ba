import CModel.RadixTree.Delete

/-!
# An index beyond the largest tree

`radix_tree_extend` looks for a height in `height_to_maxindex` before it checks whether there is
one, and goes on behind the message that there is none.

* `Used`: the trees that insertions and deletions build, whatever allocations fail.
* `InsertsInTable`: an insertion that stays in the table and refuses what no tree can hold.
* `Levels`: the table behind insertions and deletions, of which only the entry of the empty height
  can get too large.
* `findHeight_eq_none`: the loop leaves the table where no entry is left that is large enough.
* `insertsInTable_iff`: **an insertion does so exactly for an index that the largest tree can hold,
  or one that a damaged table takes for small where the root is occupied.**
-/

namespace CModel
namespace RadixTree

variable {α : Type} {head head' : Head α} {index : ℕ} {x : α} {fails : ℕ → Bool}

/-- The trees that insertions and deletions build, whatever allocations fail. -/
inductive Used : Head α → Prop
  | initialised : Used initialised
  | insert {head head' : Head α} {fails : ℕ → Bool} {index : ℕ} {x : α} {code : ℤ} {n : ℕ}
      (h : Used head) (hins : radixTreeInsert fails head index x = some (code, head', n)) :
      Used head'
  | delete {head head' : Head α} {index : ℕ} {ret : VoidPtr α} (h : Used head)
      (hdel : radixTreeDelete head index = some (ret, head')) : Used head'

/-- An insertion that comes to an end and reads the table where it has entries; an index above the
largest one of the last entry is refused, and nothing is changed. -/
def InsertsInTable (fails : ℕ → Bool) (head : Head α) (index : ℕ) (x : α) : Prop :=
  ∃ code head' n, radixTreeInsert fails head index x = some (code, head', n) ∧
    ((∃ m ∈ head.heightToMaxindex[radixTreeMaxPath - 1]?, index > m) →
      code ≠ 0 ∧ head'.height = head.height ∧ head'.rnode = head.rnode ∧
        ∀ j, radixTreeLookup head' j = radixTreeLookup head j)

/-- The table behind insertions and deletions: these lower the first and the third entry only, and
the third one does not come to `0`. -/
structure Levels (head : Head α) : Prop where
  table : ∃ a c, head.heightToMaxindex = [a, 7, c, 511] ∧ 0 < c ∧ c ≤ 63
  height_le : head.height ≤ 3
  shape : Shape head.height head.rnode

theorem Levels.sane (h : Levels head) : Sane head := by
  obtain ⟨a, c, htable, -⟩ := h.table
  exact ⟨⟨a, 7, c, htable⟩, h.height_le, h.shape⟩

/-! ## What the two operations keep -/

theorem growTree_table (fails : ℕ → Bool) {k : ℕ} (head : Head α) (n : ℕ) :
    (growTree fails k head n).2.1.heightToMaxindex = head.heightToMaxindex := by
  induction k generalizing head n with
  | zero => rfl
  | succ k ih =>
    rw [growTree]
    split
    · rfl
    · exact ih _ _

/-- An insertion does not write the table. -/
theorem radixTreeInsert_table {code : ℤ} {n : ℕ}
    (hins : radixTreeInsert fails head index x = some (code, head', n)) :
    head'.heightToMaxindex = head.heightToMaxindex := by
  cases hm : radixTreeMaxindex head with
  | none =>
    rw [radixTreeInsert, hm] at hins
    exact absurd hins (by simp)
  | some m =>
    rw [radixTreeInsert_eq fails hm, Option.bind_eq_some_iff] at hins
    obtain ⟨⟨error, head₁, n₁⟩, hprep, hins⟩ := hins
    have htable : head₁.heightToMaxindex = head.heightToMaxindex := by
      rw [prepare] at hprep
      split at hprep
      · rw [radixTreeExtend, Option.bind_eq_bind, Option.bind_eq_some_iff] at hprep
        obtain ⟨h, -, hprep⟩ := hprep
        split at hprep
        · obtain ⟨-, rfl, -⟩ := Option.some.inj hprep
          rfl
        · have hgrow := growTree_table fails (k := h - head.height) head 0
          rw [Option.some.inj hprep] at hgrow
          exact hgrow
      · obtain ⟨-, rfl, -⟩ := Option.some.inj hprep
        rfl
    split at hins
    · obtain ⟨-, rfl, -⟩ := Option.some.inj hins
      exact htable
    · obtain ⟨s, -, hins⟩ := Option.bind_eq_some_iff.mp hins
      obtain ⟨-, rfl, -⟩ := Option.some.inj hins
      exact htable

theorem Levels.insert (h : Levels head) {code : ℤ} {n : ℕ}
    (hins : radixTreeInsert fails head index x = some (code, head', n)) : Levels head' := by
  have hs := radixTreeInsert_sane fails h.sane hins
  exact ⟨radixTreeInsert_table hins ▸ h.table, hs.height_le, hs.shape⟩

/-- A deletion lowers one of the two entries, or none. -/
theorem ascend_table (h : Levels head) {path : List PathEntry}
    (hal : ∀ e ∈ path.head?, ∀ node ∈ e.node, 8 ∣ node) (hasc : ascend head path = some head') :
    ∃ a c, head'.heightToMaxindex = [a, 7, c, 511] ∧ 0 < c ∧ c ≤ 63 := by
  obtain ⟨a, c, htable, hpos, hle⟩ := h.table
  cases path with
  | nil => exact absurd hasc (by simp [ascend])
  | cons entry path =>
    rw [ascend] at hasc
    split at hasc
    · obtain rfl := Option.some.inj hasc
      exact h.table
    · next node hnode =>
      rw [Option.bind_eq_bind, Option.bind_eq_some_iff] at hasc
      obtain ⟨⟨count, head₁⟩, hdec, hasc⟩ := hasc
      have hcount : (if count = 0 then none else some head₁) = some head' := hasc
      split at hcount
      · exact absurd hcount (by simp)
      next hne =>
      obtain rfl := Option.some.inj hcount
      rw [decrementCount] at hdec
      split at hdec
      · exact absurd hdec (by simp)
      next hge =>
      have h8 := hal entry rfl node hnode
      have h16 : tableOffset = 16 := rfl
      have heven : (node - tableOffset) / 4 % 2 = 0 := by omega
      generalize (node - tableOffset) / 4 = k at hdec heven
      simp only [htable] at hdec
      split at hdec
      · exact absurd hdec (by simp)
      next m hm =>
      rw [Option.some.injEq, Prod.mk.injEq] at hdec
      obtain ⟨rfl, rfl⟩ := hdec
      have hk4 : k < 4 := (List.getElem?_eq_some_iff.mp hm).1
      obtain rfl | rfl : k = 0 ∨ k = 2 := by omega
      · exact ⟨_, c, rfl, hpos, hle⟩
      · obtain rfl : c = m := Option.some.inj hm
        exact ⟨a, _, rfl, by omega, by omega⟩

theorem Levels.delete (h : Levels head) {ret : VoidPtr α}
    (hdel : radixTreeDelete head index = some (ret, head')) : Levels head' := by
  have hs := radixTreeDelete_sane h.sane hdel
  refine ⟨?_, hs.height_le, hs.shape⟩
  rw [radixTreeDelete, Option.bind_eq_bind, Option.bind_eq_some_iff] at hdel
  obtain ⟨m, -, hdel⟩ := hdel
  split at hdel
  · obtain ⟨-, rfl⟩ := Option.some.inj hdel
    exact h.table
  · simp only [Option.bind_eq_bind, Option.bind_eq_some_iff] at hdel
    obtain ⟨entry, -, head₁, hasc, hdel⟩ := hdel
    have htable := ascend_table h (descend_aligned index (by simp) (by decide)) hasc
    obtain ⟨-, rfl⟩ := Option.some.inj hdel
    split <;> exact htable

theorem Used.levels (h : Used head) : Levels head := by
  induction h with
  | initialised =>
    exact ⟨⟨0, 63, rfl, by omega, le_rfl⟩, wellFormed_initialised.height_le,
      wellFormed_initialised.shape⟩
  | insert h hins ih => exact ih.insert hins
  | delete h hdel ih => exact ih.delete hdel

/-! ## An index that fits -/

/-- **An index that the largest tree can hold**: the insertion comes to an end. -/
theorem Sane.insert_isSome (hs : Sane head) (hi : index ≤ 511) (fails : ℕ → Bool) (x : α) :
    ∃ r, radixTreeInsert fails head index x = some r := by
  obtain ⟨m, hm⟩ := hs.maxindex
  obtain ⟨⟨error, head₁, n₁⟩, hprep, hs₁⟩ : ∃ r, prepare fails head m index = some r ∧
      Sane r.2.1 := by
    rw [prepare]
    split
    · next hcond =>
      have hh : head.height ≤ 2 := by
        obtain ⟨a, b, c, htable⟩ := hs.table
        by_contra hlt
        have h3 : head.height = 3 := by
          have hle := hs.height_le
          omega
        rw [radixTreeMaxindex, htable, h3] at hm
        obtain rfl : 511 = m := Option.some.inj hm
        omega
      obtain ⟨h, -, -, -, -, -, hext⟩ := radixTreeExtend_eq fails hs hh hi
      obtain ⟨r, hr⟩ : ∃ r, radixTreeExtend fails head index = some r := by
        rw [hext]
        split <;> exact ⟨_, rfl⟩
      exact ⟨r, hr, radixTreeExtend_sane fails hs hr⟩
    · exact ⟨_, rfl, hs⟩
  rw [radixTreeInsert_eq fails hm, hprep, Option.bind_some]
  split
  · exact ⟨_, rfl⟩
  · obtain ⟨code, slot, n, hat, -⟩ := insertAt_spec fails index x hs₁.shape n₁
    rw [hat]
    exact ⟨_, rfl⟩

/-! ## An index that does not -/

/-- The loop leaves a table of which no entry is left that is large enough. -/
theorem findHeight_eq_none {table : List ℕ} {height : ℕ} (h : ∀ m ∈ table, m < index) :
    findHeight index table height = none := by
  induction table generalizing height with
  | nil => rfl
  | cons m table ih =>
    rw [findHeight, if_pos (h m List.mem_cons_self)]
    exact ih fun k hk => h k (List.mem_cons_of_mem m hk)

/-- Where the tree would have to grow, the table is left. -/
theorem Levels.insert_eq_none (h : Levels head) (hi : 511 < index) {m : ℕ}
    (hm : radixTreeMaxindex head = some m) (hlt : m < index) (fails : ℕ → Bool) (x : α) :
    radixTreeInsert fails head index x = none := by
  obtain ⟨a, c, htable, -, hc⟩ := h.table
  have hfind : findHeight index (head.heightToMaxindex.drop (head.height + 1))
      (head.height + 1) = none := by
    refine findHeight_eq_none ?_
    intro k hk
    rw [htable, List.drop_succ_cons] at hk
    have hmem := List.mem_of_mem_drop hk
    simp only [List.mem_cons, List.not_mem_nil, or_false] at hmem
    omega
  rw [radixTreeInsert_eq fails hm, prepare, if_pos (.inl hlt), radixTreeExtend, hfind]
  rfl

/-- Where the tree is taken to be large enough, it is empty or a single item. -/
theorem Levels.height_eq_zero (h : Levels head) (hi : 511 < index) {m : ℕ}
    (hm : radixTreeMaxindex head = some m) (hle : index ≤ m) : head.height = 0 := by
  obtain ⟨a, c, htable, -, hc⟩ := h.table
  have h3 := h.height_le
  rw [radixTreeMaxindex, htable] at hm
  generalize head.height = k at hm h3 ⊢
  obtain rfl | rfl | rfl | rfl : k = 0 ∨ k = 1 ∨ k = 2 ∨ k = 3 := by omega
  · rfl
  all_goals
    have heq := Option.some.inj hm
    omega

theorem Levels.insert_eq (h : Levels head) (hi : 511 < index) {m : ℕ}
    (hm : radixTreeMaxindex head = some m) (hle : index ≤ m) (fails : ℕ → Bool) (x : α) :
    radixTreeInsert fails head index x =
      if head.rnode.isNull then some (0, { head with rnode := .item x }, 0)
      else some (1, head, 0) := by
  have hzero := h.height_eq_zero hi hm hle
  rw [radixTreeInsert_eq fails hm, prepare, if_neg (by omega), Option.bind_some]
  obtain ⟨height, rnode, table⟩ := head
  obtain rfl : height = 0 := hzero
  simp only [ne_eq, not_true_eq_false, if_false, insertAt]
  split <;> rfl

/-! ## The result -/

/-- **An insertion stays in the table, comes to an end and refuses what no tree can hold** exactly
for an index up to `511`, or where the table, from which deletions have taken away, has an entry for
the empty tree that is not below the index, and the root is occupied. -/
theorem insertsInTable_iff (h : Used head) (fails : ℕ → Bool) (index : ℕ) (x : α) :
    InsertsInTable fails head index x ↔
      index ≤ 511 ∨ ∃ m, radixTreeMaxindex head = some m ∧ index ≤ m ∧ head.rnode ≠ .null := by
  have hl := h.levels
  obtain ⟨a, c, htable, -⟩ := hl.table
  have hlast : head.heightToMaxindex[radixTreeMaxPath - 1]? = some 511 := by
    rw [htable]
    rfl
  obtain ⟨m, hm⟩ := hl.sane.maxindex
  rcases Nat.lt_or_ge 511 index with hi | hi
  · have hbig : ∃ m ∈ head.heightToMaxindex[radixTreeMaxPath - 1]?, index > m :=
      ⟨511, hlast, hi⟩
    constructor
    · rintro ⟨code, head', n, hins, hrefuses⟩
      rcases Nat.lt_or_ge m index with hlt | hle
      · rw [hl.insert_eq_none hi hm hlt] at hins
        exact absurd hins (by simp)
      · refine .inr ⟨m, hm, hle, ?_⟩
        intro hnull
        rw [hl.insert_eq hi hm hle, if_pos (isNull_iff.mpr hnull)] at hins
        obtain ⟨rfl, -⟩ := Prod.mk.inj (Option.some.inj hins)
        exact (hrefuses hbig).1 rfl
    · rintro (hle | ⟨m', hm', hle, hrnode⟩)
      · omega
      · refine ⟨1, head, 0, ?_, fun _ => ⟨one_ne_zero, rfl, rfl, fun _ => rfl⟩⟩
        rw [hl.insert_eq hi hm' hle, if_neg (mt isNull_iff.mp hrnode)]
  · refine iff_of_true ?_ (.inl hi)
    obtain ⟨⟨code, head', n⟩, hins⟩ := hl.sane.insert_isSome hi fails x
    refine ⟨code, head', n, hins, ?_⟩
    rintro ⟨m', hm', hlt⟩
    rw [hlast, Option.mem_some_iff] at hm'
    omega

/-- The largest index that fits, and the first that does not. -/
theorem insertsInTable_iff_initialised :
    InsertsInTable (fun _ => false) (initialised : Head ℕ) 511 5 ↔
      511 ≤ 511 ∨ ∃ m, radixTreeMaxindex (initialised : Head ℕ) = some m ∧ 511 ≤ m ∧
        (initialised : Head ℕ).rnode ≠ .null :=
  insertsInTable_iff .initialised (fun _ => false) 511 5

/-- The insertion of the index `512` into the empty tree reads behind the table. -/
theorem not_insertsInTable_512 :
    radixTreeInsert (fun _ => false) (initialised : Head ℕ) 512 5 = none ∧
      ¬ InsertsInTable (fun _ => false) (initialised : Head ℕ) 512 5 := by
  have hnone : radixTreeInsert (fun _ => false) (initialised : Head ℕ) 512 5 = none := rfl
  refine ⟨hnone, ?_⟩
  rintro ⟨code, head', n, hins, -⟩
  rw [hnone] at hins
  exact absurd hins (by simp)

end RadixTree
end CModel
