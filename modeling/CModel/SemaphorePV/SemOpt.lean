import CModel.Foundation.System
import Mathlib.Data.Int.Order.Basic

/-!
# The semaphore of `SemOpt.c`

`Sem_P` and `Sem_V` over one semaphore of System V, and processes that have their critical sections
between the two, as those of `test.c` have.

* `semop`, `createSem`, `semP`, `semV`: the operation of the system, and the functions over it.
* `World`, `Event`, `processes`: the processes, each before `Sem_P` or in its critical section.
* `Exclusive`: no two processes are in their critical sections.
* `not_exclusive`: **whatever has happened, two processes can come to be there.**
-/

namespace CModel
namespace SemaphorePV

/-- The greatest value of a semaphore, `SEMVMX`. -/
def semvmx : ℤ := 32767

/-- `struct sembuf`, with the flag `IPC_NOWAIT` of `sem_flg`. -/
structure Sembuf where
  semNum : ℕ
  semOp : ℤ
  ipcNowait : Bool

/-- `semop` with one operation on a semaphore: what it returns, and the value.  It blocks where
there is nothing. -/
def semop (value : ℤ) (sops : Sembuf) : Option (ℤ × ℤ) :=
  if 0 < sops.semOp then
    -- `ERANGE`
    if semvmx < value + sops.semOp then some (-1, value) else some (0, value + sops.semOp)
  else if (sops.semOp = 0 ∧ value = 0) ∨ (sops.semOp < 0 ∧ 0 ≤ value + sops.semOp) then
    some (0, value + sops.semOp)
  -- `EAGAIN`
  else if sops.ipcNowait then some (-1, value)
  else none

/-- `CreateSem`, with the value that `semget` finds there; the value is not set where it is out of
range. -/
def createSem (semget : Option ℤ) (value : ℤ) : Option ℤ :=
  semget.map fun found => if 0 ≤ value ∧ value ≤ semvmx then value else found

/-- `Sem_P` -/
def semP (value : ℤ) : Option (ℤ × ℤ) := semop value ⟨0, 1, true⟩

/-- `Sem_V` -/
def semV (value : ℤ) : Option (ℤ × ℤ) := semop value ⟨0, -1, true⟩

/-- With `IPC_NOWAIT`, no operation blocks. -/
theorem exists_semop {s : Sembuf} (h : s.ipcNowait = true) (value : ℤ) :
    ∃ r, semop value s = some r := by
  simp only [semop, h, if_true]
  split_ifs <;> exact ⟨_, rfl⟩

/-! ## Processes -/

/-- Where a process is. -/
inductive Place where
  /-- before `Sem_P` -/
  | outside
  /-- in the critical section -/
  | inside
  deriving DecidableEq

/-- The semaphore, and the processes that share it. -/
structure World where
  value : ℤ
  places : List Place

/-- `n` processes before their first `Sem_P`. -/
def World.init (value : ℤ) (n : ℕ) : World := ⟨value, List.replicate n .outside⟩

/-- What can happen next. -/
inductive Event where
  /-- the process `i` calls `Sem_P` -/
  | enter (i : ℕ)
  /-- the process `i` calls `Sem_V` -/
  | leave (i : ℕ)

/-- What can happen in a world. -/
def Enabled (w : World) : Event → Prop
  | .enter i => w.places[i]? = some .outside
  | .leave i => w.places[i]? = some .inside

/-- One event; what `Sem_P` and `Sem_V` return is ignored. -/
def step (w : World) : Event → Option World
  | .enter i => (semP w.value).map fun r => ⟨r.2, w.places.set i .inside⟩
  | .leave i => (semV w.value).map fun r => ⟨r.2, w.places.set i .outside⟩

/-- The processes. -/
def processes : System World Event := ⟨Enabled, step⟩

/-- No two processes are in their critical sections. -/
def Exclusive (w : World) : Prop :=
  ∀ i j : ℕ, w.places[i]? = some .inside → w.places[j]? = some .inside → i = j

variable {w w' : World} {value : ℤ} {n i j : ℕ} {e : Event}

theorem length_step (h : step w e = some w') : w'.places.length = w.places.length := by
  cases e with
  | enter i =>
    obtain ⟨r, -, rfl⟩ := Option.map_eq_some_iff.mp h
    exact List.length_set ..
  | leave i =>
    obtain ⟨r, -, rfl⟩ := Option.map_eq_some_iff.mp h
    exact List.length_set ..

/-- Nothing keeps a process from its critical section, wherever the others are. -/
theorem exists_inside (w : World) (hi : i < w.places.length) :
    ∃ w', processes.Runs w w' ∧ w'.places[i]? = some .inside ∧
      w'.places.length = w.places.length ∧
      ∀ j : ℕ, w.places[j]? = some .inside → w'.places[j]? = some .inside := by
  cases hplace : w.places[i] with
  | inside =>
    exact ⟨w, .refl, by rw [List.getElem?_eq_getElem hi, hplace], rfl, fun _ hj => hj⟩
  | outside =>
    have he : processes.Enabled w (.enter i) := by
      simp only [processes, Enabled]
      rw [List.getElem?_eq_getElem hi, hplace]
    obtain ⟨r, hr⟩ := exists_semop (s := ⟨0, 1, true⟩) rfl w.value
    have hstep : step w (.enter i) = some ⟨r.2, w.places.set i .inside⟩ := by
      rw [step, semP, hr, Option.map_some]
    have hruns : processes.Runs w ⟨r.2, w.places.set i .inside⟩ := .step .refl he hstep
    refine ⟨_, hruns, List.getElem?_set_self hi, List.length_set .., ?_⟩
    intro j hj
    by_cases hij : i = j
    · rw [← hij]
      exact List.getElem?_set_self hi
    · rwa [List.getElem?_set_ne hij]

/-- Whatever `n ≥ 2` processes have done, on a semaphore of any value, two of them can come to be in
their critical sections together. -/
theorem not_exclusive (hn : 2 ≤ n)
    (hruns : processes.Runs (World.init value n) w) :
    ∃ w', processes.Runs w w' ∧ ¬Exclusive w' := by
  have hlen : w.places.length = n := by
    refine hruns.keep (P := fun v => v.places.length = n) List.length_replicate ?_
    intro v v' e hv _ hstep
    rw [length_step hstep, hv]
  obtain ⟨w₁, hruns₁, h₀, hlen₁, -⟩ := exists_inside (i := 0) w (by omega)
  obtain ⟨w₂, hruns₂, h₁, -, hkeep⟩ := exists_inside (i := 1) w₁ (by omega)
  refine ⟨w₂, hruns₁.trans hruns₂, ?_⟩
  intro h
  exact absurd (h 0 1 (hkeep 0 h₀) h₁) Nat.zero_ne_one

/-- Three processes, one of them in its critical section. -/
theorem not_exclusive_three :
    ∃ w w', processes.Runs (World.init 1 3) w ∧ w.places = [.outside, .inside, .outside] ∧
      processes.Runs w w' ∧ ¬Exclusive w' := by
  have hruns : processes.Runs (World.init 1 3) _ :=
    System.Runs.refl.step (e := .enter 1) rfl rfl
  obtain ⟨w', hruns', hw'⟩ := not_exclusive (by decide) hruns
  exact ⟨_, w', hruns, rfl, hruns', hw'⟩

/-- Both processes call `Sem_P`, and both are in. -/
theorem both_inside : ∃ w, createSem (some 0) 1 = some 1 ∧
    processes.Runs (World.init 1 2) w ∧ ¬Exclusive w := by
  have hruns : processes.Runs (World.init 1 2) _ :=
    .head (e := .enter 0) rfl rfl <| .head (e := .enter 1) rfl rfl .refl
  exact ⟨_, rfl, hruns, fun h => absurd (h 0 1 rfl rfl) Nat.zero_ne_one⟩

end SemaphorePV
end CModel
