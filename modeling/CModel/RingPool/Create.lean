import CModel.RingPool.Fifo

/-!
# A ring whose threads cannot all be started

`threadpool_create` stores the number of its threads before it starts the first one, and leaves it to
`threadpool_destroy` to take back what it has done when one of them cannot be started.

* `startThreads`: the loop of `threadpool_create`, with what each `pthread_create` comes to.
* `stopAllTask`: `threadpool_stop_all_task`, with its calls of `pthread_cancel` and `pthread_join`.
* `CleansUp`: what a creation that fails should come to.
* `startThreads_failed`: the entries of `thread_` where the loop breaks off.
* `never_cleansUp`: **a creation that fails never comes to that; it goes on to an entry that has not
  been written.**
-/

namespace CModel
namespace RingPool

variable {φ κ : Type}

/-- The calls with which a thread is ended. -/
inductive ThreadCall where
  /-- `pthread_cancel` -/
  | cancel (th : ℕ)
  /-- `pthread_join` -/
  | join (th : ℕ)
  deriving DecidableEq

def ThreadCall.cancels : ThreadCall → Option ℕ
  | .cancel th => some th
  | .join _ => none

def ThreadCall.joins : ThreadCall → Option ℕ
  | .cancel _ => none
  | .join th => some th

/-- Where a function comes to that ends threads. -/
inductive Ended (α : Type) where
  | returned (a : α)
  /-- a `pthread_join` that does not return -/
  | blocked
  /-- an entry of `thread_` is read that has not been written -/
  | undefined
  deriving DecidableEq

/-- `tmp = NULL`, and the return behind it. -/
def Ended.null {α : Type} : Ended Unit → Ended (Option α)
  | .returned () => .returned none
  | .blocked => .blocked
  | .undefined => .undefined

/-- The loop of `threadpool_create`, with `threadNum` threads still to be started and `i` started;
`create` is what each call of `pthread_create` stores, or `none` where it fails.  With `thread_` it
returns whether all threads have been started. -/
def startThreads (create : ℕ → Option ℕ) : ℕ → ℕ → Slots ℕ → Option (Slots ℕ × Bool)
  | 0, _, thread => some (thread, true)
  | threadNum + 1, i, thread =>
    match create i with
    | some th => (thread.write ((i : ℤ) + 1) th).bind (startThreads create threadNum (i + 1))
    | none => some (thread, false)

/-- The loop of `threadpool_stop_all_task` from `i` on, for `n` entries of `thread_`; `joins` tells
for which threads `pthread_join` returns. -/
def stopAllTask (joins : ℕ → Bool) (thread : Slots ℕ) : ℕ → ℕ → List ThreadCall × Ended Unit
  | 0, _ => ([], .returned ())
  | n + 1, i =>
    match thread.read i with
    | none => ([], .undefined)
    | some th =>
      if joins th then
        let r := stopAllTask joins thread n (i + 1)
        (.cancel th :: .join th :: r.1, r.2)
      else ([.cancel th, .join th], .blocked)

/-- `threadpool_destroy` of a pool that nobody else uses, where `thread_[0]` has been written. -/
def threadpoolDestroy (joins : ℕ → Bool) (thread : Slots ℕ) : List ThreadCall × Ended Unit :=
  match thread.read 0 with
  | none => ([], .undefined)
  | some n => stopAllTask joins thread n 1

/-- `thread_` as `malloc` leaves it. -/
def threadMemory : Slots ℕ := Slots.malloc (maxThreadNum.toNat + 1) true

/-- `threadpool_create` from where it has the structure `thiz`: which calls it does, and what it
returns. -/
def threadpoolStart (create : ℕ → Option ℕ) (joins : ℕ → Bool) (thiz : Pool φ κ) :
    List ThreadCall × Ended (Option (Pool φ κ × Slots ℕ)) :=
  match (threadMemory.write 0 thiz.threadNum.toNat).bind
      (startThreads create thiz.threadNum.toNat 0) with
  | none => ([], .undefined)
  | some (thread, true) => ([], .returned (some (thiz, thread)))
  | some (thread, false) =>
    let r := threadpoolDestroy joins thread
    (r.1, r.2.null)

/-- The threads `ths` have been cancelled and joined, each of them once, nothing else has been, and
the null pointer is returned. -/
structure CleansUp {α : Type} (ths : List ℕ) (r : List ThreadCall × Ended (Option α)) : Prop where
  returned : r.2 = .returned none
  cancelled : (r.1.filterMap ThreadCall.cancels).Perm ths
  joined : (r.1.filterMap ThreadCall.joins).Perm ths

/-! ## Where the loop breaks off -/

variable {create : ℕ → Option ℕ} {joins : ℕ → Bool} {thread : Slots ℕ} {ths : List ℕ} {k n i : ℕ}

/-- The entries of `thread_` where the thread `k` cannot be started: those of the threads before it
have been written. -/
theorem startThreads_failed (hcreate : ∀ j < k, (create (i + j)).isSome)
    (hfail : create (i + k) = none) (hk : k < n) (hlen : i + n < thread.length) :
    ∃ thread', startThreads create n i thread = some (thread', false) ∧
      ∀ j : ℕ, thread'.read j = if i < j ∧ j ≤ i + k then create (j - 1) else thread.read j := by
  induction k generalizing n i thread with
  | zero =>
    obtain ⟨n, rfl⟩ := Nat.exists_eq_succ_of_ne_zero (Nat.ne_of_gt hk)
    refine ⟨thread, ?_, ?_⟩
    · rw [startThreads, show create i = none from hfail]
    · intro j
      rw [if_neg (by omega)]
  | succ k ih =>
    obtain ⟨n, rfl⟩ := Nat.exists_eq_succ_of_ne_zero (Nat.ne_of_gt (Nat.zero_lt_of_lt hk))
    obtain ⟨th, hth⟩ := Option.isSome_iff_exists.mp (hcreate 0 (Nat.succ_pos k))
    obtain ⟨thread₁, hwrite⟩ :=
      Slots.exists_write (a := thread) (i := (i : ℤ) + 1) (by omega) (by omega) th
    have hlen₁ : i + 1 + n < thread₁.length := by
      rw [Slots.length_write hwrite]
      omega
    obtain ⟨thread', hstart, hread⟩ := ih
      (fun j hj => by rw [Nat.add_right_comm, Nat.add_assoc]; exact hcreate (j + 1) (by omega))
      (by rw [Nat.add_right_comm, Nat.add_assoc]; exact hfail) (by omega) hlen₁
    refine ⟨thread', ?_, ?_⟩
    · rw [startThreads, show create i = some th from hth]
      simp only [hwrite, Option.bind_some, hstart]
    · intro j
      rw [hread, Slots.read_write hwrite]
      by_cases hj : j = i + 1
      · rw [hj, if_neg (by omega), if_pos (by push_cast; rfl), if_pos (by omega)]
        exact hth.symm
      · by_cases hin : i < j ∧ j ≤ i + (k + 1)
        · rw [if_pos (by omega), if_pos hin]
        · rw [if_neg (by omega), if_neg hin, if_neg (by omega)]

/-! ## What is cleaned up -/

theorem Ended.returned_of_null {α : Type} {r : Ended Unit} {a : Option α}
    (h : r.null = .returned a) : r = .returned () := by
  cases r with
  | returned => rfl
  | blocked => exact absurd h (by simp [Ended.null])
  | undefined => exact absurd h (by simp [Ended.null])

/-- An entry that has not been written is read, if not a `pthread_join` before it does not return. -/
theorem stopAllTask_ne_returned (hread : thread.read (i + k : ℕ) = none) (hk : k < n) :
    (stopAllTask joins thread n i).2 ≠ .returned () := by
  induction n generalizing i k with
  | zero => exact absurd hk (Nat.not_lt_zero k)
  | succ n ih =>
    unfold stopAllTask
    cases k with
    | zero =>
      rw [show thread.read i = none from hread]
      simp
    | succ k =>
      split
      · simp
      · split
        · exact ih (i := i + 1) (k := k) (by rwa [Nat.add_right_comm, Nat.add_assoc]) (by omega)
        · simp

/-- The threads that have been started are cancelled and joined before that. -/
theorem stopAllTask_started (hstarted : ∀ j < ths.length, thread.read (i + j : ℕ) = ths[j]?)
    (hread : thread.read (i + ths.length : ℕ) = none) (hn : ths.length < n)
    (hjoins : ∀ th ∈ ths, joins th = true) :
    stopAllTask joins thread n i =
      (ths.flatMap fun th => [.cancel th, .join th], .undefined) := by
  induction ths generalizing n i with
  | nil =>
    obtain ⟨n, rfl⟩ := Nat.exists_eq_succ_of_ne_zero (Nat.ne_of_gt hn)
    rw [stopAllTask, show thread.read i = none from hread]
    rfl
  | cons th ths ih =>
    obtain ⟨n, rfl⟩ := Nat.exists_eq_succ_of_ne_zero (Nat.ne_of_gt (Nat.zero_lt_of_lt hn))
    have hfirst : thread.read i = some th := hstarted 0 (Nat.succ_pos _)
    have hrest := ih (n := n) (i := i + 1)
      (fun j hj => by
        rw [Nat.add_right_comm, Nat.add_assoc, hstarted (j + 1) (Nat.succ_lt_succ hj)]
        rfl)
      (by rw [Nat.add_right_comm, Nat.add_assoc]; exact hread) (Nat.lt_of_succ_lt_succ hn)
      (fun t ht => hjoins t (List.mem_cons_of_mem _ ht))
    rw [stopAllTask, hfirst]
    simp only [hjoins th List.mem_cons_self, if_true, hrest, List.flatMap_cons]
    rfl

theorem length_threadMemory : threadMemory.length = 257 := by
  rw [threadMemory, Slots.length_malloc]
  decide

theorem read_threadMemory (j : ℤ) : threadMemory.read j = none := by
  unfold Slots.read threadMemory Slots.malloc
  split
  · rw [if_pos rfl, List.getElem?_replicate]
    split <;> rfl
  · rfl

/-- Where `pthread_create` fails behind the threads `ths`. -/
theorem exists_failed {memory : Slots ℕ} (hlen : memory.length = 257)
    (hmemory : ∀ j, memory.read j = none) (hn : n ≤ 256)
    (hcreate : ∀ j ≤ ths.length, create j = ths[j]?) (hk : ths.length < n) :
    ∃ thread : Slots ℕ,
      (memory.write 0 n).bind (startThreads create n 0) = some (thread, false) ∧
      thread.read 0 = some n ∧ (∀ j < ths.length, thread.read (1 + j : ℕ) = ths[j]?) ∧
      thread.read (1 + ths.length : ℕ) = none := by
  obtain ⟨thread₀, hwrite⟩ :=
    Slots.exists_write (a := memory) (i := 0) (Int.le_refl 0) (by omega) n
  have hread₀ : ∀ j : ℤ, thread₀.read j = if j = 0 then some n else none := fun j => by
    rw [Slots.read_write hwrite, hmemory]
  have hlen₀ : 0 + n < thread₀.length := by
    rw [Slots.length_write hwrite]
    omega
  have hstarts : ∀ j < ths.length, (create (0 + j)).isSome := fun j hj => by
    rw [Nat.zero_add, hcreate j (Nat.le_of_lt hj), List.getElem?_eq_getElem hj]
    rfl
  have hfails : create (0 + ths.length) = none := by
    rw [Nat.zero_add, hcreate _ (Nat.le_refl _), List.getElem?_eq_none (Nat.le_refl _)]
  obtain ⟨thread, hstart, hread⟩ := startThreads_failed hstarts hfails hk hlen₀
  refine ⟨thread, by rw [hwrite]; exact hstart, ?_, ?_, ?_⟩
  · exact (hread 0).trans ((if_neg (by omega)).trans (hread₀ 0))
  · intro j hj
    rw [hread, if_pos (by omega), Nat.add_sub_cancel_left, hcreate j (Nat.le_of_lt hj)]
  · rw [hread, if_neg (by omega), hread₀, if_neg (by omega)]

/-- Then `threadpool_create` comes to what `threadpool_stop_all_task` comes to. -/
theorem exists_stopped {threadNum maxTaskNum : ℤ} {queueMemory funMemory : Bool} {thiz : Pool φ κ}
    (joins : ℕ → Bool) (hone : 1 ≤ threadNum)
    (hpool : threadpoolCreate threadNum maxTaskNum queueMemory funMemory = .ok (some thiz))
    (hcreate : ∀ j ≤ ths.length, create j = ths[j]?) (hk : (ths.length : ℤ) < threadNum) :
    ∃ (n : ℕ) (thread : Slots ℕ), ths.length < n ∧
      (∀ j < ths.length, thread.read (1 + j : ℕ) = ths[j]?) ∧
      thread.read (1 + ths.length : ℕ) = none ∧
      threadpoolStart create joins thiz =
        ((stopAllTask joins thread n 1).1, (stopAllTask joins thread n 1).2.null) := by
  have hmax : threadNum ≤ 256 := by
    by_contra hmore
    rw [threadpoolCreate, if_pos (.inl (Int.not_le.mp hmore))] at hpool
    exact absurd hpool (by simp)
  have hnum : thiz.threadNum = threadNum := by
    rw [create_eq hpool]
    exact if_neg (Int.not_lt.mpr hone)
  obtain ⟨thread, hstart, hcount, hstarted, hread⟩ := exists_failed
    (n := thiz.threadNum.toNat) length_threadMemory read_threadMemory
    (by omega) hcreate (by omega)
  refine ⟨thiz.threadNum.toNat, thread, by omega, hstarted, hread, ?_⟩
  unfold threadpoolStart
  rw [hstart]
  simp only [threadpoolDestroy, hcount]

/-- A creation in which the first threads `ths` are started and the next one is not, whatever their
number: never are these threads cancelled and joined, and the null pointer returned.  Where every
`pthread_join` returns, the threads are ended, and then an entry of `thread_` is read that has not
been written. -/
theorem never_cleansUp {threadNum maxTaskNum : ℤ} {queueMemory funMemory : Bool}
    {thiz : Pool φ κ} (hone : 1 ≤ threadNum)
    (hpool : threadpoolCreate threadNum maxTaskNum queueMemory funMemory = .ok (some thiz))
    (hcreate : ∀ j ≤ ths.length, create j = ths[j]?) (hk : (ths.length : ℤ) < threadNum) :
    ¬ CleansUp ths (threadpoolStart create joins thiz) ∧
    ((∀ th ∈ ths, joins th = true) → threadpoolStart create joins thiz =
      (ths.flatMap fun th => [.cancel th, .join th], .undefined)) := by
  obtain ⟨n, thread, hn, hstarted, hread, hcalls⟩ := exists_stopped joins hone hpool hcreate hk
  constructor
  · intro hclean
    have hreturned := hclean.returned
    rw [hcalls] at hreturned
    exact stopAllTask_ne_returned hread hn (Ended.returned_of_null hreturned)
  · intro hjoins
    rw [hcalls, stopAllTask_started hstarted hread hn hjoins]
    rfl

/-- A pool for three threads, of which one is started. -/
theorem never_cleansUp_three : ∃ thiz : Pool ℕ ℕ,
    threadpoolCreate 3 2 true true = .ok (some thiz) ∧
    threadpoolStart (fun j => [7][j]?) (fun _ => true) thiz =
      ([.cancel 7, .join 7], .undefined) := by
  have hpool : threadpoolCreate (φ := ℕ) (κ := ℕ) 3 2 true true = .ok (some _) := rfl
  have hcreate : ∀ j ≤ [7].length, (fun j => [7][j]?) j = [7][j]? := fun _ _ => rfl
  have hjoins : ∀ th ∈ [7], (fun _ : ℕ => true) th = true := fun _ _ => rfl
  exact ⟨_, hpool, (never_cleansUp (by decide) hpool hcreate (by decide)).2 hjoins⟩

/-- The only thread of a pool cannot be started. -/
theorem one_not_started : ∃ thiz : Pool ℕ ℕ, threadpoolCreate 1 2 true true = .ok (some thiz) ∧
    threadpoolStart (fun _ => none) (fun _ => true) thiz = ([], .undefined) ∧
    ¬ CleansUp [] (threadpoolStart (fun _ => none) (fun _ => true) thiz) := by
  have hpool : threadpoolCreate (φ := ℕ) (κ := ℕ) 1 2 true true = .ok (some _) := rfl
  have hcreate : ∀ j ≤ ([] : List ℕ).length, (fun _ => none) j = ([] : List ℕ)[j]? :=
    fun _ _ => rfl
  obtain ⟨n, thread, hn, hstarted, hread, hcalls⟩ :=
    exists_stopped (fun _ => true) (by decide) hpool hcreate (by decide)
  have hstop : stopAllTask (fun _ => true) thread n 1 = ([], .undefined) :=
    stopAllTask_started hstarted hread hn (by simp)
  rw [hstop] at hcalls
  have hundefined := hcalls.trans (show _ = ([], Ended.undefined) from rfl)
  refine ⟨_, hpool, hundefined, ?_⟩
  intro hclean
  have hreturned := hclean.returned
  rw [hundefined] at hreturned
  exact absurd hreturned (by simp)

end RingPool
end CModel
