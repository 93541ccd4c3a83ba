import Mathlib.Data.List.Nodup
import Mathlib.Data.List.Perm.Subperm
import Mathlib.Logic.Function.Basic

/-!
# The handle tables of `Timer`

`Timer` hands out small numbers for timers.  `timers[]` has the timer last added under each number,
and `stack[]` the numbers that `deleteTimer` has got back, to be handed out again.  The class over
the wheel and the one over the heap have the same tables.

* `Handles`: the two tables with their counters.  An entry that has never been written is `none`.
* `assign`, `recycle`: the parts of `addTimer` and `deleteTimer` that are about the tables.
* `Handles.Keeps`: the tables with the handles on the stack as a list.
* `Keeps.assign_cases`, `recycle_eq`: a handle is handed out, and given back.
-/

namespace CModel
namespace Timers

/-- `timers`, `timer_count`, `stack` and `stack_index`. -/
structure Handles where
  timers : ℕ → Option (Option ℕ)
  timerCount : ℕ
  stack : ℕ → Option ℕ
  stackIndex : ℕ

namespace Handles

/-- The tables of `Timer()`. -/
def new : Handles := ⟨fun _ => none, 0, fun _ => none, 0⟩

/-- `a[i] = b` in a table of 65536 entries. -/
def writeAt {β : Type} (a : ℕ → Option β) (i : ℕ) (b : β) : Option (ℕ → Option β) :=
  if i < 65536 then some (Function.update a i (some b)) else none

/-- The handle that `addTimer` gives a timer: a new one if none has been given back. -/
def assign (t : Handles) (timer : Option ℕ) : Option (ℕ × Handles) :=
  if t.stackIndex ≤ 0 then do
    let timers ← writeAt t.timers t.timerCount timer
    some (t.timerCount, { t with timers, timerCount := t.timerCount + 1 })
  else do
    let index ← t.stack (t.stackIndex - 1)
    let timers ← writeAt t.timers index timer
    some (index, { t with timers, stackIndex := t.stackIndex - 1 })

/-- `stack[stack_index++] = timer_n` -/
def recycle (t : Handles) (n : ℕ) : Option Handles := do
  let stack ← writeAt t.stack t.stackIndex n
  some { t with stack, stackIndex := t.stackIndex + 1 }

/-- The tables with `free` on the stack: no handle is there twice, and all handles up to
`timer_count` have been handed out. -/
structure Keeps (t : Handles) (free : List ℕ) : Prop where
  length : free.length = t.stackIndex
  stack : ∀ i < free.length, t.stack i = free[i]?
  nodup : free.Nodup
  lt : ∀ n ∈ free, n < t.timerCount
  le : t.timerCount ≤ 65536
  timers : ∀ n < t.timerCount, ∃ p, t.timers n = some p

variable {t : Handles} {free : List ℕ}

theorem keeps_new : new.Keeps [] :=
  ⟨rfl, fun i hi => absurd hi (Nat.not_lt_zero i), List.nodup_nil,
    fun _ hn => absurd hn List.not_mem_nil, Nat.zero_le _,
    fun n hn => absurd hn (Nat.not_lt_zero n)⟩

/-- A new handle, where there is room for one. -/
theorem assign_new (h : t.Keeps []) (hroom : t.timerCount < 65536) (timer : Option ℕ) :
    ∃ t', t.assign timer = some (t.timerCount, t') ∧ t'.Keeps [] ∧
      t'.timerCount = t.timerCount + 1 ∧
      t'.timers = Function.update t.timers t.timerCount (some timer) := by
  have hindex : t.stackIndex = 0 := h.length.symm
  refine ⟨{ t with
    timers := Function.update t.timers t.timerCount (some timer)
    timerCount := t.timerCount + 1 }, ?_,
    ⟨hindex.symm, fun i hi => absurd hi (Nat.not_lt_zero i), List.nodup_nil,
      fun _ hn => absurd hn List.not_mem_nil, Nat.succ_le_of_lt hroom, fun n hn => ?_⟩, rfl, rfl⟩
  · rw [assign, if_pos (by omega), writeAt, if_pos hroom]
    rfl
  · show ∃ p, Function.update t.timers t.timerCount (some timer) n = some p
    by_cases hn' : n = t.timerCount
    · exact ⟨timer, by rw [hn', Function.update_self]⟩
    · rw [Function.update_of_ne hn']
      have hlt : n < t.timerCount + 1 := hn
      exact h.timers n (by omega)

/-- Without room, the new handle is past the table. -/
theorem assign_full (h : t.Keeps []) (hfull : 65536 ≤ t.timerCount) (timer : Option ℕ) :
    t.assign timer = none := by
  have hindex : t.stackIndex = 0 := h.length.symm
  rw [assign, if_pos (by omega), writeAt, if_neg (by omega)]
  rfl

/-- A handle that has been given back. -/
theorem assign_recycled {n : ℕ} (h : t.Keeps (free ++ [n])) (timer : Option ℕ) :
    ∃ t', t.assign timer = some (n, t') ∧ t'.Keeps free ∧ t'.timerCount = t.timerCount ∧
      t'.timers = Function.update t.timers n (some timer) := by
  have hlen := h.length
  rw [List.length_append, List.length_singleton] at hlen
  have htop : t.stack (t.stackIndex - 1) = some n := by
    rw [show t.stackIndex - 1 = free.length by omega, h.stack _ (by simp)]
    simp
  have hn : n < t.timerCount := h.lt n (by simp)
  have hle := h.le
  refine ⟨{ t with
    timers := Function.update t.timers n (some timer)
    stackIndex := t.stackIndex - 1 }, ?_, ⟨?_, fun i hi => ?_,
    h.nodup.sublist (List.sublist_append_left _ _), fun m hm => h.lt m (List.mem_append_left _ hm),
    hle, fun m hm => ?_⟩, rfl, rfl⟩
  · rw [assign, if_neg (by omega), htop, Option.bind_eq_bind, Option.bind_some, writeAt,
      if_pos (by omega)]
    rfl
  · show free.length = t.stackIndex - 1
    omega
  · rw [h.stack i (by rw [List.length_append]; omega), List.getElem?_append_left hi]
  · show ∃ p, Function.update t.timers n (some timer) m = some p
    by_cases hmn : m = n
    · exact ⟨timer, by rw [hmn, Function.update_self]⟩
    · rw [Function.update_of_ne hmn]
      exact h.timers m hm

/-- What comes of handing out a handle, from the stack or a new one. -/
structure Assigned (t : Handles) (free : List ℕ) (timer : Option ℕ) (n : ℕ) (t' : Handles)
    (free' : List ℕ) : Prop where
  assign : t.assign timer = some (n, t')
  keeps : t'.Keeps free'
  timers : t'.timers = Function.update t.timers n (some timer)
  lt_iff : ∀ m, m < t'.timerCount ↔ m = n ∨ m < t.timerCount
  mem_iff : ∀ m, m ∈ free' ↔ m ∈ free ∧ m ≠ n
  origin : n ∈ free ∨ n = t.timerCount

/-- A handle is the new one, or as it was. -/
theorem Assigned.cases {timer : Option ℕ} {n : ℕ} {t' : Handles} {free' : List ℕ}
    (h : Assigned t free timer n t' free') {m : ℕ} (hm : m < t'.timerCount) :
    (m = n ∧ t'.timers m = some timer) ∨
      (m ≠ n ∧ m < t.timerCount ∧ t'.timers m = t.timers m) := by
  rw [h.timers]
  by_cases hmn : m = n
  · exact .inl ⟨hmn, by rw [hmn, Function.update_self]⟩
  · exact .inr ⟨hmn, ((h.lt_iff m).mp hm).resolve_left hmn, Function.update_of_ne hmn _ _⟩

/-- A handle that is still given back is as it was. -/
theorem Assigned.of_mem {timer : Option ℕ} {n : ℕ} {t' : Handles} {free' : List ℕ}
    (h : Assigned t free timer n t' free') {m : ℕ} (hm : m ∈ free') :
    m ∈ free ∧ t'.timers m = t.timers m := by
  obtain ⟨hmem, hmn⟩ := (h.mem_iff m).mp hm
  exact ⟨hmem, by rw [h.timers, Function.update_of_ne hmn]⟩

/-- There is a handle for a timer exactly when one has been given back, or there is room for a new
one. -/
theorem Keeps.assign_cases (h : t.Keeps free) (timer : Option ℕ) :
    (0 < t.stackIndex ∨ t.timerCount < 65536 → ∃ n t' free', Assigned t free timer n t' free') ∧
    (¬ (0 < t.stackIndex ∨ t.timerCount < 65536) → t.assign timer = none) := by
  have hlen := h.length
  rcases List.eq_nil_or_concat free with rfl | ⟨free', n, hconcat⟩
  · rw [List.length_nil] at hlen
    refine ⟨?_, fun hfull => assign_full h (by omega) timer⟩
    intro hroom
    obtain ⟨t', hassign, hkeeps, hcount, htimers⟩ := assign_new h (by omega) timer
    refine ⟨_, t', [], hassign, hkeeps, htimers, ?_, fun m => by simp, .inr rfl⟩
    intro m
    rw [hcount]
    omega
  · rw [List.concat_eq_append] at hconcat
    subst hconcat
    rw [List.length_append, List.length_singleton] at hlen
    obtain ⟨t', hassign, hkeeps, hcount, htimers⟩ := assign_recycled h timer
    have hdisj := (List.nodup_append.mp h.nodup).2.2
    refine ⟨fun _ => ⟨n, t', free', hassign, hkeeps, htimers, ?_, ?_,
      .inl (by simp)⟩, fun hfull => absurd (Or.inl (by omega)) hfull⟩
    · intro m
      rw [hcount]
      refine ⟨Or.inr, fun hor => hor.elim ?_ id⟩
      intro heq
      rw [heq]
      exact h.lt n (by simp)
    · intro m
      rw [List.mem_append, List.mem_singleton]
      refine ⟨fun hm => ⟨Or.inl hm, hdisj m hm n (by simp)⟩, ?_⟩
      rintro ⟨hm | hm, hne⟩
      · exact hm
      · exact absurd hm hne

/-- One more handle is out. -/
theorem Assigned.out_eq {timer : Option ℕ} {n : ℕ} {t' : Handles} {free' : List ℕ}
    (h : Assigned t free timer n t' free') (hkeeps : t.Keeps free) :
    t'.timerCount + free.length = t.timerCount + free'.length + 1 := by
  have hperm : free'.Perm (free.erase n) := by
    refine (List.perm_ext_iff_of_nodup h.keeps.nodup (hkeeps.nodup.erase n)).mpr ?_
    intro m
    rw [h.mem_iff, hkeeps.nodup.mem_erase_iff, and_comm]
  have hself := (h.lt_iff n).mpr (.inl rfl)
  obtain hmem | hnew := h.origin
  · have hpos := List.length_pos_of_mem hmem
    have hsame := h.lt_iff t.timerCount
    have hlast := h.lt_iff (t.timerCount - 1)
    have hlt := hkeeps.lt n hmem
    rw [hperm.length_eq, List.length_erase_of_mem hmem]
    omega
  · have hnot : n ∉ free := fun hmem => Nat.ne_of_lt (hkeeps.lt n hmem) hnew
    have hnext := h.lt_iff (t.timerCount + 1)
    rw [hperm.length_eq, List.erase_of_not_mem hnot]
    omega

/-- The stack has room for a handle that is not on it. -/
theorem Keeps.stackIndex_lt {n : ℕ} (h : t.Keeps free) (hn : n < t.timerCount) (hnot : n ∉ free) :
    t.stackIndex < t.timerCount := by
  have hnodup : (n :: free).Nodup := List.nodup_cons.mpr ⟨hnot, h.nodup⟩
  have hsub : n :: free ⊆ List.range t.timerCount := by
    intro m hm
    rw [List.mem_range]
    rcases List.mem_cons.mp hm with rfl | hm
    · exact hn
    · exact h.lt m hm
  have hle := (hnodup.subperm hsub).length_le
  rw [List.length_cons, List.length_range, h.length] at hle
  exact hle

/-- A handle is given back. -/
theorem recycle_eq {n : ℕ} (h : t.Keeps free) (hn : n < t.timerCount) (hnot : n ∉ free) :
    ∃ t', t.recycle n = some t' ∧ t'.Keeps (free ++ [n]) ∧ t'.timerCount = t.timerCount ∧
      t'.timers = t.timers := by
  have hlt := h.stackIndex_lt hn hnot
  have hle := h.le
  have hlen := h.length
  refine ⟨{ t with
    stack := Function.update t.stack t.stackIndex (some n)
    stackIndex := t.stackIndex + 1 }, ?_, ⟨?_, fun i hi => ?_, ?_, fun m hm => ?_, hle,
    h.timers⟩, rfl, rfl⟩
  · rw [recycle, writeAt, if_pos (by omega)]
    rfl
  · rw [List.length_append, List.length_singleton, hlen]
  · show Function.update t.stack t.stackIndex (some n) i = _
    rw [List.length_append, List.length_singleton] at hi
    by_cases hi' : i = t.stackIndex
    · rw [hi', Function.update_self, ← hlen]
      simp
    · rw [Function.update_of_ne hi', h.stack i (by omega), List.getElem?_append_left (by omega)]
  · rw [List.nodup_append]
    refine ⟨h.nodup, List.nodup_singleton n, fun a ha b hb => ?_⟩
    rw [List.mem_singleton.mp hb]
    rintro rfl
    exact hnot ha
  · rcases List.mem_append.mp hm with hm | hm
    · exact h.lt m hm
    · rw [List.mem_singleton.mp hm]
      exact hn

end Handles
end Timers
end CModel
