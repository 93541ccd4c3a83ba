import Mathlib.Data.Int.Order.Basic
import Mathlib.Data.List.Basic

/-!
# The supervisor of one process

`process_task/Process.h`: `init` forks a child and waits for it in `parent_process`, which is meant
to call `init` again when the child has ended abnormally.

* `Status`: what `wait` reports, with the three macros that ask for it.
* `init`, `parentProcess`: the two functions that call each other, for any results of `fork` and
  `wait`; `History` has what the parent does, and where that ends.
* `count_taskInit`: a history has one initialisation more than it has stopped children in front of
  the first end of a child.
* `Supervised`: a restart after each death by signal, and a return only behind a normal exit.
* `supervised_iff`: **what `wait` reports without `WUNTRACED` leads to no restart, so this holds only
  if the first child to end does so normally.**
-/

namespace CModel
namespace ProcessTask

/-! ## The system calls -/

/-- The status of a child: ended with an exit code, ended by a signal, or stopped by one. -/
inductive Status where
  | exited (code : ℕ)
  | signaled (sig : ℕ)
  | stopped (sig : ℕ)
  deriving DecidableEq, Repr

/-- `WIFEXITED` -/
def Status.wifexited : Status → Bool
  | .exited _ => true
  | _ => false

/-- `WIFSIGNALED` -/
def Status.wifsignaled : Status → Bool
  | .signaled _ => true
  | _ => false

/-- `WIFSTOPPED` -/
def Status.wifstopped : Status → Bool
  | .stopped _ => true
  | _ => false

/-- What a call of `wait` comes to. -/
inductive Report where
  | error
  | status (s : Status)
  deriving DecidableEq, Repr

/-- What the parent does and is told. -/
inductive Action where
  /-- `task->init` -/
  | taskInit
  | fork (pid : ℤ)
  | wait
  | report (s : Status)
  deriving DecidableEq, Repr

/-- Where the parent is in the end. -/
inductive End where
  /-- behind the outermost `init`, with this `process_id` -/
  | returned (processId : ℤ)
  /-- `exit(EXIT_FAILURE)` -/
  | exit
  /-- in `wait`, which has nothing to report yet -/
  | waiting
  deriving DecidableEq, Repr

/-- What the parent has done, and where it is. -/
structure History where
  actions : List Action
  ends : End
  deriving DecidableEq, Repr

/-- The actions of a caller in front of those of its callee. -/
def History.after (as : List Action) (h : History) : History :=
  { h with actions := as ++ h.actions }

@[simp] theorem History.after_actions (as : List Action) (h : History) :
    (h.after as).actions = as ++ h.actions := rfl

@[simp] theorem History.after_ends (as : List Action) (h : History) :
    (h.after as).ends = h.ends := rfl

/-! ## `Process` -/

mutual

/-- `Process::init`.  The `n`-th `fork` returns `fork n`, and `reports` are what is left of the
results of `wait`. -/
def init (fork : ℕ → ℤ) (n : ℕ) (reports : List Report) : History :=
  if fork n < 0 then ⟨[.taskInit, .fork (fork n)], .returned (fork n)⟩
  else if 0 < fork n then (parentProcess fork n reports).after [.taskInit, .fork (fork n)]
  else ⟨[.taskInit, .fork (fork n)], .returned (fork n)⟩
termination_by (reports.length, 1)

/-- `Process::parent_process`, behind the `n`-th `fork`. -/
def parentProcess (fork : ℕ → ℤ) (n : ℕ) (reports : List Report) : History :=
  match reports with
  | [] => ⟨[.wait], .waiting⟩
  | .error :: _ => ⟨[.wait], .exit⟩
  | .status s :: reports =>
    if s.wifexited then ⟨[.wait, .report s], .returned (fork n)⟩
    else if s.wifsignaled then ⟨[.wait, .report s], .returned (fork n)⟩
    else if s.wifstopped then (init fork (n + 1) reports).after [.wait, .report s]
    else ⟨[.wait, .report s], .returned (fork n)⟩
termination_by (reports.length, 0)

end

variable {fork : ℕ → ℤ} {n : ℕ} {s : Status} {reports : List Report} {statuses : List Status}

/-- A `fork` that succeeds leads the parent to `parent_process`. -/
theorem init_of_pos (h : 0 < fork n) (reports : List Report) :
    init fork n reports = (parentProcess fork n reports).after [.taskInit, .fork (fork n)] := by
  rw [init, if_neg (not_lt.mpr (le_of_lt h)), if_pos h]

/-- A child that has ended is not followed by another. -/
theorem parentProcess_of_ended (hs : s.wifstopped = false) (fork : ℕ → ℤ) (n : ℕ)
    (reports : List Report) :
    parentProcess fork n (.status s :: reports) = ⟨[.wait, .report s], .returned (fork n)⟩ := by
  rw [parentProcess]
  cases s with
  | exited code => rfl
  | signaled sig => rfl
  | stopped sig => exact absurd hs (by simp [Status.wifstopped])

/-- A stopped child is followed by another. -/
theorem parentProcess_of_stopped (hs : s.wifstopped = true) (fork : ℕ → ℤ) (n : ℕ)
    (reports : List Report) : parentProcess fork n (.status s :: reports) =
      (init fork (n + 1) reports).after [.wait, .report s] := by
  rw [parentProcess]
  cases s with
  | exited code => exact absurd hs (by simp [Status.wifstopped])
  | signaled sig => exact absurd hs (by simp [Status.wifstopped])
  | stopped sig => rfl

/-- **The restarts of a history**: there is one for each child that is stopped before one ends. -/
theorem count_taskInit (hfork : ∀ n, 0 < fork n) (n : ℕ) (statuses : List Status) :
    (init fork n (statuses.map .status)).actions.count .taskInit =
      1 + (statuses.takeWhile Status.wifstopped).length := by
  induction statuses generalizing n with
  | nil =>
    rw [List.map_nil, init_of_pos (hfork n), parentProcess]
    rfl
  | cons s statuses ih =>
    rw [List.map_cons, init_of_pos (hfork n)]
    cases hs : s.wifstopped with
    | false =>
      rw [parentProcess_of_ended hs,
        List.takeWhile_cons_of_neg (by rw [hs]; exact Bool.false_ne_true)]
      rfl
    | true =>
      have hrest := ih (n + 1)
      rw [parentProcess_of_stopped hs, List.takeWhile_cons_of_pos hs, List.length_cons,
        History.after_actions, History.after_actions, List.count_append, List.count_append, hrest]
      have hone : [Action.taskInit, .fork (fork n)].count .taskInit = 1 := by
        rw [List.count_cons_self, List.count_cons_of_ne (by simp), List.count_nil]
      have htwo : [Action.wait, .report s].count .taskInit = 0 := by
        rw [List.count_cons_of_ne (by simp), List.count_cons_of_ne (by simp), List.count_nil]
      omega

/-! ## Supervision -/

/-- What a supervisor does: after each death by signal it initialises again, forks, and waits for
the new child, and it returns only behind a normal exit. -/
structure Supervised (h : History) : Prop where
  restarts : ∀ i sig, h.actions[i]? = some (.report (.signaled sig)) →
    h.actions[i + 1]? = some .taskInit ∧
      (∃ pid, 0 < pid ∧ h.actions[i + 2]? = some (.fork pid)) ∧ h.actions[i + 3]? = some .wait
  returns : ∀ processId, h.ends = .returned processId →
    ∃ code, .report (.exited code) ∈ h.actions

theorem init_nil (h : 0 < fork n) :
    init fork n [] = ⟨[.taskInit, .fork (fork n), .wait], .waiting⟩ := by
  rw [init_of_pos h, parentProcess]
  rfl

/-- The first child to end ends the supervision. -/
theorem init_of_ended (h : 0 < fork n) (hs : s.wifstopped = false) (reports : List Report) :
    init fork n (.status s :: reports) =
      ⟨[.taskInit, .fork (fork n), .wait, .report s], .returned (fork n)⟩ := by
  rw [init_of_pos h, parentProcess_of_ended hs]
  rfl

/-- **Where the supervisor does what it is for.**  `wait` without `WUNTRACED` reports terminations
only; with these, each death by signal is followed by a restart and the outermost `init` returns
behind a normal exit only, if and only if the first child to end does not die by a signal. -/
theorem supervised_iff (hfork : ∀ n, 0 < fork n) (hended : ∀ s ∈ statuses, s.wifstopped = false) :
    Supervised (init fork 0 (statuses.map .status)) ↔
      ∀ sig, statuses.head? ≠ some (.signaled sig) := by
  cases statuses with
  | nil =>
    rw [List.map_nil, init_nil (hfork 0)]
    refine iff_of_true ⟨?_, ?_⟩ ?_
    · intro i sig h
      have hmem := List.mem_of_getElem? h
      simp at hmem
    · intro processId h
      simp at h
    · intro sig h
      simp at h
  | cons s statuses =>
    have hs := hended s List.mem_cons_self
    rw [List.map_cons, init_of_ended (hfork 0) hs]
    cases s with
    | exited code =>
      refine iff_of_true ⟨?_, fun processId h => ⟨code, by simp⟩⟩ ?_
      · intro i sig h
        have hmem := List.mem_of_getElem? h
        simp at hmem
      · intro sig h
        simp at h
    | signaled sig =>
      refine iff_of_false ?_ fun h => h sig rfl
      intro h
      -- nothing stands behind the report
      obtain ⟨hnext, -⟩ := h.restarts 3 sig rfl
      simp at hnext
    | stopped sig => exact absurd hs (by simp [Status.wifstopped])

/-- A first child that exits with `0`. -/
theorem supervised_iff_exited :
    Supervised (init (fun _ => 7) 0 ([Status.exited 0].map .status)) ↔
      ∀ sig, [Status.exited 0].head? ≠ some (.signaled sig) :=
  supervised_iff (fun _ => by decide) (by decide)

/-- A child that dies of a segmentation fault is not started again. -/
theorem not_supervised_segfault :
    ¬ Supervised (init (fun _ => 7) 0 ([Status.signaled 11, .exited 0].map .status)) := by
  intro h
  rw [List.map_cons, init_of_ended (by decide) rfl] at h
  obtain ⟨hnext, -⟩ := h.restarts 3 11 rfl
  simp at hnext

end ProcessTask
end CModel
