import Mathlib.Data.UInt
import CModel.MultProcess.Settings
import CModel.MultProcess.Sound

/-!
# The statistics of the workers

`init_processes`, `process_clients` and `do_stats` of `server.c`: the processes share an array with
an entry for each worker, in which the worker counts and from which the parent reports at each
`SIGALRM`.  The parent goes by the number of the worker, the worker and its handlers by its core,
which is `start_cpu` further on.

* `WorkerData`, `Update`: an entry, and what a worker does to the array.
* `Config`, `Server`: what `main` has set up, and the processes with what has been reported.
* `Config.childUpdates`: what a worker writes when it starts, when `epoll_wait` returns, and in its
  handlers.
* `doStats`: one report.
* `StatisticsBelong`: every worker writes its own entry, and the reports together with what has not
  been reported add up to the transactions.
* `statisticsBelong_iff`: **so it is if and only if `start_cpu` is 0.**
-/

namespace CModel
namespace MultProcess

/-! ## The array -/

/-- `struct worker_data` -/
structure WorkerData where
  process : ℤ
  trancnt : UInt64
  trancntPrev : UInt64
  cpuId : ℤ
  pollsMax : UInt64
  pollsMin : UInt64
  pollsAvg : UInt64
  pollsCnt : UInt64
  pollsSum : UInt64
  pollsMpt : UInt64
  pollsLst : UInt64
  acceptCnt : UInt64
  readCnt : UInt64
  writeCnt : UInt64

/-- An entry behind `memset`. -/
def WorkerData.zero : WorkerData := ⟨0, 0, 0, 0, 0, 0, 0, 0, 0, 0, 0, 0, 0, 0⟩

/-- A counter is increased by a handler. -/
def WorkerData.increase (d : WorkerData) : Counter → WorkerData
  | .trancnt => { d with trancnt := d.trancnt + 1 }
  | .acceptCnt => { d with acceptCnt := d.acceptCnt + 1 }
  | .readCnt => { d with readCnt := d.readCnt + 1 }
  | .writeCnt => { d with writeCnt := d.writeCnt + 1 }

/-- What `process_clients` notes when `epoll_wait` has returned `num_events`, which is compared as
an unsigned number. -/
def WorkerData.polled (d : WorkerData) (numEvents : UInt64) : WorkerData :=
  let d :=
    if numEvents = 0 then { d with pollsMpt := d.pollsMpt + 1 }
    else if numEvents < d.pollsMin then { d with pollsMin := numEvents }
    else d
  let d := if d.pollsMax < numEvents then { d with pollsMax := numEvents } else d
  let d := { d with pollsSum := d.pollsSum + numEvents, pollsCnt := d.pollsCnt + 1 }
  { d with pollsAvg := d.pollsSum / d.pollsCnt, pollsLst := numEvents }

/-- A change of the entry `wdata[index]`. -/
structure Update where
  index : ℤ
  change : WorkerData → WorkerData

/-- The array behind a change; what is not in the array is in memory that nobody reads. -/
def Update.apply (wdata : List WorkerData) (u : Update) : List WorkerData :=
  if 0 ≤ u.index then wdata.modify u.index.toNat u.change else wdata

/-- The loop of `do_stats` over the workers: the array, and the number that is printed. -/
def doStats : List WorkerData → UInt64 → List WorkerData × UInt64
  | [], trancnt => ([], trancnt)
  | d :: wdata, trancnt =>
    let (wdata, trancnt) := doStats wdata (trancnt + (d.trancnt - d.trancntPrev))
    ({ d with trancntPrev := d.trancnt } :: wdata, trancnt)

/-! ## The processes -/

/-- What `main` has set up; the core of a worker comes from the array. -/
structure Config where
  numWorkers : ℤ
  startCpu : ℤ
  /-- `get_cpu_num` -/
  cpuNum : ℤ
  globals : Globals

/-- A worker in its loop, with its variable `cpu_id`. -/
structure Process where
  cpuId : ℤ
  worker : Worker

/-- The parent and its workers.  There is no `Process` for a worker that has not come to its loop. -/
structure Server where
  wdata : List WorkerData
  /-- how many workers have been forked -/
  forked : ℕ
  processes : List (Option Process)
  /-- what `do_stats` has printed -/
  reported : List UInt64

/-- The parent before it forks. -/
def Server.init (cfg : Config) : Server where
  wdata := List.replicate cfg.numWorkers.toNat .zero
  forked := 0
  processes := List.replicate cfg.numWorkers.toNat none
  reported := []

/-- `bind_process_cpu` does not fail. -/
def bindProcessCpu (cpuNum cpu : ℤ) : Bool := !(decide (cpu < 0) || decide (cpuNum ≤ cpu))

/-- What a worker does. -/
inductive ChildEvent where
  /-- it comes to its loop; `memory` is what `malloc` finds in the pool -/
  | start (pid : ℤ) (memory : List ConnContext)
  | work (e : WorkerEvent)
  /-- `epoll_wait` fails -/
  | pollFails

/-- What happens. -/
inductive ServerEvent where
  | fork
  | child (i : ℕ) (e : ChildEvent)
  /-- `SIGALRM` -/
  | alarm

/-- What is written in a step of the loop that leads to `w`. -/
def Process.updates (p : Process) (w : Worker) : WorkerEvent → List Update
  | .wait evts => [⟨p.cpuId, fun d => d.polled (UInt64.ofNat evts.length)⟩]
  | .call _ =>
    (w.counted.drop p.worker.counted.length).map fun k => ⟨k.1, fun d => d.increase k.2⟩

/-- A step of the worker `i`, whose entry is `mydata`: the worker behind it, and what it writes. -/
def Config.childStep (cfg : Config) (i : ℕ) (mydata : WorkerData) (o : Option Process) :
    ChildEvent → Option (Process × List Update)
  | .start pid memory =>
    if bindProcessCpu cfg.cpuNum mydata.cpuId then do
      let w ← processClientsInit { cfg.globals with cpuId := mydata.cpuId } memory
      some (⟨mydata.cpuId, w⟩,
        [⟨i, fun d => { d with process := pid }⟩,
          ⟨mydata.cpuId, fun d => { d with pollsMin := UInt64.ofNat eventsPerBatch }⟩])
    else none
  | .work e => do
    let p ← o
    let w ← p.worker.step e
    some ({ p with worker := w }, p.updates w e)
  | .pollFails => do
    let p ← o
    some (p, [⟨p.cpuId, fun d => d.polled (-1)⟩])

/-- A step of a worker in the state of the server. -/
def Config.childUpdates (cfg : Config) (s : Server) (i : ℕ) (e : ChildEvent) :
    Option (Process × List Update) := do
  let mydata ← s.wdata[i]?
  let o ← s.processes[i]?
  cfg.childStep i mydata o e

/-- The parent reports when it has forked all the workers. -/
def Config.Enabled (cfg : Config) (s : Server) : ServerEvent → Prop
  | .fork => s.forked < cfg.numWorkers.toNat
  | .child i (.start _ _) => i < s.forked ∧ s.processes[i]? = some none
  | .child i (.work e) => ∃ p, s.processes[i]? = some (some p) ∧ p.worker.Enabled e
  | .child i .pollFails => ∃ p, s.processes[i]? = some (some p) ∧ p.worker.batch = []
  | .alarm => s.forked = cfg.numWorkers.toNat

/-- One step. -/
def Config.step (cfg : Config) (s : Server) : ServerEvent → Option Server
  | .fork => some { s with
      wdata := s.wdata.modify s.forked fun d =>
        { d with trancnt := 0, cpuId := s.forked + cfg.startCpu }
      forked := s.forked + 1 }
  | .child i e => do
    let (p, us) ← cfg.childUpdates s i e
    some { s with
      wdata := us.foldl Update.apply s.wdata
      processes := s.processes.set i (some p) }
  | .alarm =>
    let (wdata, trancnt) := doStats s.wdata 0
    some { s with wdata, reported := s.reported ++ [trancnt] }

/-- The parent and its workers, which take their steps in any order. -/
def Config.server (cfg : Config) : System Server ServerEvent := ⟨cfg.Enabled, cfg.step⟩

/-! ## What is asked of them -/

/-- Which worker has written which entry. -/
structure Written where
  worker : ℕ
  index : ℤ

/-- What is written in a step. -/
def Config.written (cfg : Config) (s : Server) : ServerEvent → List Written
  | .child i e => ((cfg.childUpdates s i e).map Prod.snd).getD [] |>.map fun u => ⟨i, u.index⟩
  | _ => []

/-- The transactions that a worker has completed. -/
def completedBy (o : Option Process) : ℕ :=
  o.elim 0 fun p => p.worker.counted.countP fun k => k.2 = .trancnt

/-- The transactions that all the workers have completed. -/
def Server.completed (s : Server) : ℕ := (s.processes.map completedBy).sum

/-- What the next report would print. -/
def Server.unreported (s : Server) : UInt64 := (doStats s.wdata 0).2

/-- In every run each worker writes its own entry only; and the reports and what has not been
reported add up to the transactions, in numbers of 64 bits, and as long as there are not more of them
also without these bounds. -/
def StatisticsBelong (numWorkers startCpu cpuNum : ℤ) : Prop :=
  ∀ globals l s,
    let cfg : Config := ⟨numWorkers, startCpu, cpuNum, globals⟩
    cfg.server.RunsWith cfg.written (.init cfg) l s →
      (∀ u ∈ l, u.index = u.worker ∧ (u.worker : ℤ) < numWorkers) ∧
      s.reported.sum + s.unreported = UInt64.ofNat s.completed ∧
      (s.completed < 2 ^ 64 →
        (s.reported.map UInt64.toNat).sum + s.unreported.toNat = s.completed)

variable {cfg : Config} {s s' : Server} {g : Globals} {w w' : Worker} {d : WorkerData}
  {p p' : Process} {o : Option Process} {us : List Update} {listenCtx : ConnContext} {r : Results}
  {h : Handled} {e : ChildEvent} {i j m n : ℕ} {ms rs : List ℕ}

/-! ## One report -/

/-- What a worker has completed, and what of it has been reported. -/
structure Counts (d : WorkerData) (m n : ℕ) : Prop where
  trancnt : d.trancnt = UInt64.ofNat n
  trancntPrev : d.trancntPrev = UInt64.ofNat m
  le : m ≤ n

theorem length_doStats (wdata : List WorkerData) (t : UInt64) :
    (doStats wdata t).1.length = wdata.length := by
  induction wdata generalizing t with
  | nil => rfl
  | cons d wdata ih => exact congrArg (· + 1) (ih _)

theorem getElem?_doStats (wdata : List WorkerData) (t : UInt64) (i : ℕ) :
    (doStats wdata t).1[i]? = wdata[i]?.map fun d => { d with trancntPrev := d.trancnt } := by
  induction wdata generalizing t i with
  | nil => rfl
  | cons d wdata ih =>
    cases i with
    | zero => rfl
    | succ i => exact ih _ i

/-- A report counts what the workers have completed and not yet reported. -/
theorem snd_doStats {wdata : List WorkerData} {ms ns : List ℕ} (hms : ms.length = wdata.length)
    (hns : ns.length = wdata.length)
    (h : ∀ (i : ℕ) d m n, wdata[i]? = some d → ms[i]? = some m → ns[i]? = some n → Counts d m n)
    (t : UInt64) :
    ∃ k, (doStats wdata t).2 = t + UInt64.ofNat k ∧ ms.sum + k = ns.sum := by
  induction wdata generalizing ms ns t with
  | nil =>
    obtain rfl := List.length_eq_zero_iff.mp hms
    obtain rfl := List.length_eq_zero_iff.mp hns
    exact ⟨0, (UInt64.add_zero t).symm, rfl⟩
  | cons d wdata ih =>
    obtain ⟨m, ms, rfl⟩ := List.exists_cons_of_length_eq_add_one hms
    obtain ⟨n, ns, rfl⟩ := List.exists_cons_of_length_eq_add_one hns
    have hd := h 0 d m n rfl rfl rfl
    obtain ⟨k, hk, hsum⟩ := ih (Nat.succ.inj hms) (Nat.succ.inj hns)
      (fun i => h (i + 1)) (t + (d.trancnt - d.trancntPrev))
    refine ⟨n - m + k, ?_, ?_⟩
    · have hdiff : d.trancnt - d.trancntPrev = UInt64.ofNat (n - m) := by
        rw [hd.trancnt, hd.trancntPrev, UInt64.ofNat_sub hd.le]
      rw [UInt64.ofNat_add, ← UInt64.add_assoc, ← hdiff]
      exact hk
    · have := hd.le
      simp only [List.sum_cons]
      omega

/-! ## What a worker counts -/

theorem counted_processAccept (haccept : processAccept w listenCtx r = some w') :
    w.counted <+: w'.counted := by
  cases acceptSpec haccept with
  | hangsUp => exact List.prefix_rfl
  | fails => exact List.prefix_append ..
  | @closes i c w₁ w' pos take free =>
    have hw' : w'.counted = w₁.counted := congrArg Prod.snd (Worker.tally_release free)
    have hw₁ : w₁.counted = w.counted := congrArg Prod.snd (Worker.tally_take take)
    exact (hw'.trans hw₁) ▸ List.prefix_rfl
  | @accepts i c w₁ pos take =>
    have hw₁ : w₁.counted = w.counted := congrArg Prod.snd (Worker.tally_take take)
    exact hw₁ ▸ List.prefix_rfl

theorem counted_into (hinto : w.into i h = some w') : w.counted <+: w'.counted := by
  have hafter : w.counted <+: (w.after i h.call).counted := by
    have hops : (h.call.ops.foldl (Worker.op i) w).counted = w.counted :=
      congrArg Prod.snd (Worker.tally_foldl_op ..)
    exact hops ▸ List.prefix_append ..
  cases h with
  | back d => exact Option.some.inj hinto ▸ hafter
  | freeBack d =>
    have hw' : w'.counted = (w.after i d).counted := congrArg Prod.snd (Worker.tally_release hinto)
    exact hw' ▸ hafter

/-- A step of the loop takes nothing back that has been counted. -/
theorem counted_step {e : WorkerEvent} (hstep : w.step e = some w') :
    w.counted <+: w'.counted := by
  cases e with
  | wait evts => exact Option.some.inj hstep ▸ List.prefix_rfl
  | call r =>
    cases callSpec hstep with
    | @accepts ev rest c batch ctx handler accept =>
      have hprefix : (w.noted ev rest c).counted <+: w'.counted := counted_processAccept accept
      exact hprefix
    | @handles ev rest c h batch ctx handler handle into =>
      have hprefix : (w.noted ev rest c).counted <+: w'.counted := counted_into into
      exact hprefix

/-! ## What a worker writes -/

/-- `k` more transactions are counted in an entry. -/
structure Adds (k : ℕ) (d d' : WorkerData) : Prop where
  trancnt : d'.trancnt = d.trancnt + UInt64.ofNat k
  trancntPrev : d'.trancntPrev = d.trancntPrev
  cpuId : d'.cpuId = d.cpuId

theorem adds_zero {d d' : WorkerData} (htran : d'.trancnt = d.trancnt)
    (hprev : d'.trancntPrev = d.trancntPrev) (hcpu : d'.cpuId = d.cpuId) : Adds 0 d d' :=
  ⟨htran.trans (UInt64.add_zero _).symm, hprev, hcpu⟩

theorem Adds.trans {k k' : ℕ} {d d' d'' : WorkerData} (h : Adds k d d') (h' : Adds k' d' d'') :
    Adds (k + k') d d'' where
  trancnt := by rw [h'.trancnt, h.trancnt, UInt64.ofNat_add, UInt64.add_assoc]
  trancntPrev := h'.trancntPrev.trans h.trancntPrev
  cpuId := h'.cpuId.trans h.cpuId

theorem adds_polled (d : WorkerData) (numEvents : UInt64) : Adds 0 d (d.polled numEvents) := by
  unfold WorkerData.polled
  dsimp only
  repeat' split
  all_goals exact adds_zero rfl rfl rfl

theorem adds_increase (d : WorkerData) (k : Counter) :
    Adds (if k = .trancnt then 1 else 0) d (d.increase k) := by
  cases k with
  | trancnt => exact ⟨rfl, rfl, rfl⟩
  | _ => exact adds_zero rfl rfl rfl

/-- Transactions are counted one by one. -/
theorem adds_foldl_increase (new : List (ℤ × Counter)) (d : WorkerData) :
    Adds (new.countP fun k => k.2 = .trancnt) d (new.foldl (fun d k => d.increase k.2) d) := by
  induction new generalizing d with
  | nil => exact adds_zero rfl rfl rfl
  | cons k new ih =>
    have hcount : (k :: new).countP (fun k => k.2 = .trancnt) =
        (if k.2 = .trancnt then 1 else 0) + new.countP fun k => k.2 = .trancnt := by
      rw [List.countP_cons, Nat.add_comm]
      simp only [decide_eq_true_eq]
    rw [hcount]
    exact (adds_increase d k.2).trans (ih _)

/-- The worker `i` of a server whose first core is 0. -/
structure Own (g : Globals) (i : ℕ) (p : Process) : Prop where
  cpuId : p.cpuId = i
  agreed : Agreed { g with cpuId := i } p.worker

/-- What a step of the worker `i` does: it writes its own entry, in which it counts the transactions
that it completes. -/
structure Writes (g : Globals) (i : ℕ) (o : Option Process) (p' : Process) (us : List Update) :
    Prop where
  own : Own g i p'
  index : ∀ u ∈ us, u.index = i
  adds : ∃ k, completedBy (some p') = completedBy o + k ∧
    ∀ d, Adds k d (us.foldl (fun d u => u.change d) d)

theorem writes_start {memory : List ConnContext} {pid : ℤ} (hd : d.cpuId = i)
    (hstep : cfg.childStep i d none (.start pid memory) = some (p', us)) :
    Writes cfg.globals i none p' us := by
  simp only [Config.childStep, hd] at hstep
  split at hstep
  · simp only [Option.bind_eq_bind, Option.bind_eq_some_iff, Option.some.injEq,
      Prod.mk.injEq] at hstep
    obtain ⟨w, hinit, rfl, rfl⟩ := hstep
    have hcounted : w.counted = [] := congrArg Prod.snd (tally_processClientsInit hinit)
    refine ⟨⟨rfl, agreed_init hinit⟩, ?_, 0, ?_, fun d => adds_zero rfl rfl rfl⟩
    · intro u hu
      rcases List.mem_cons.mp hu with rfl | hu
      · rfl
      · obtain rfl := List.mem_singleton.mp hu
        rfl
    · simp [completedBy, hcounted]
  · exact absurd hstep (by simp)

theorem writes_work {e : WorkerEvent} (hp : Own cfg.globals i p) (he : p.worker.Enabled e)
    (hstep : cfg.childStep i d (some p) (.work e) = some (p', us)) :
    Writes cfg.globals i (some p) p' us := by
  simp only [Config.childStep, Option.bind_eq_bind, Option.bind_some, Option.bind_eq_some_iff,
    Option.some.injEq, Prod.mk.injEq] at hstep
  obtain ⟨w, hw, rfl, rfl⟩ := hstep
  have hagreed := hp.agreed.step he hw
  obtain ⟨new, hnew⟩ := counted_step hw
  refine ⟨⟨hp.cpuId, hagreed⟩, ?_, new.countP fun k => k.2 = .trancnt, ?_, ?_⟩
  · cases e with
    | wait evts =>
      intro u hu
      rw [List.mem_singleton.mp hu]
      exact hp.cpuId
    | call r =>
      intro u hu
      obtain ⟨k, hk, rfl⟩ := List.mem_map.mp hu
      exact hagreed.counted k (List.mem_of_mem_drop hk)
  · simp only [completedBy, Option.elim_some, ← hnew, List.countP_append]
  · intro d
    cases e with
    | wait evts =>
      obtain rfl := Option.some.inj hw
      obtain rfl : new = [] := by simpa using hnew
      exact adds_polled d _
    | call r =>
      have hdrop : w.counted.drop p.worker.counted.length = new := by
        rw [← hnew, List.drop_left]
      rw [Process.updates, hdrop, List.foldl_map]
      exact adds_foldl_increase new d

theorem writes_pollFails (hp : Own cfg.globals i p)
    (hstep : cfg.childStep i d (some p) .pollFails = some (p', us)) :
    Writes cfg.globals i (some p) p' us := by
  simp only [Config.childStep, Option.bind_eq_bind, Option.bind_some, Option.some.injEq,
    Prod.mk.injEq] at hstep
  obtain ⟨rfl, rfl⟩ := hstep
  refine ⟨hp, ?_, 0, rfl, fun d => adds_polled d _⟩
  intro u hu
  rw [List.mem_singleton.mp hu]
  exact hp.cpuId

/-- Changes of one entry are one change of it. -/
theorem foldl_apply (us : List Update) (h : ∀ u ∈ us, u.index = i) (wdata : List WorkerData) :
    us.foldl Update.apply wdata = wdata.modify i fun d => us.foldl (fun d u => u.change d) d := by
  induction us generalizing wdata with
  | nil => exact (List.modify_id i wdata).symm
  | cons u us ih =>
    have hu : Update.apply wdata u = wdata.modify i u.change := by
      rw [Update.apply, h u List.mem_cons_self, if_pos (Int.natCast_nonneg i), Int.toNat_natCast]
    rw [List.foldl_cons, hu, ih fun u' hu' => h u' (List.mem_cons_of_mem u hu'),
      List.modify_modify_eq]
    rfl

/-! ## The server keeps count -/

/-- The entry of the worker `i`, of which `m` transactions have been reported. -/
structure Entry (g : Globals) (i forked : ℕ) (d : WorkerData) (o : Option Process) (m : ℕ) :
    Prop where
  counts : Counts d m (completedBy o)
  cpuId : i < forked → d.cpuId = i
  own : ∀ p, o = some p → i < forked ∧ Own g i p

/-- The array tells what each worker has completed and what of it has been reported, and the reports
`rs` what all of them have. -/
structure Tracked (cfg : Config) (s : Server) (ms rs : List ℕ) : Prop where
  wdata : s.wdata.length = cfg.numWorkers.toNat
  processes : s.processes.length = cfg.numWorkers.toNat
  length : ms.length = cfg.numWorkers.toNat
  entry : ∀ (i : ℕ) d o m, s.wdata[i]? = some d → s.processes[i]? = some o → ms[i]? = some m →
    Entry cfg.globals i s.forked d o m
  reported : s.reported = rs.map UInt64.ofNat
  sum : rs.sum = ms.sum

theorem tracked_init (cfg : Config) :
    Tracked cfg (.init cfg) (List.replicate cfg.numWorkers.toNat 0) [] := by
  refine ⟨List.length_replicate, List.length_replicate, List.length_replicate, ?_, rfl, by simp⟩
  intro i d o m hd ho hm
  obtain rfl : d = .zero := List.eq_of_mem_replicate (List.mem_of_getElem? hd)
  obtain rfl : o = none := List.eq_of_mem_replicate (List.mem_of_getElem? ho)
  obtain rfl : m = 0 := List.eq_of_mem_replicate (List.mem_of_getElem? hm)
  exact ⟨⟨rfl, rfl, le_rfl⟩, fun hi => absurd hi (Nat.not_lt_zero i), by simp⟩

/-- A worker has not come to its loop before it is forked. -/
theorem Tracked.fork (h : Tracked cfg s ms rs) (hcpu : cfg.startCpu = 0)
    (hstep : cfg.step s .fork = some s') : Tracked cfg s' ms rs := by
  obtain rfl := Option.some.inj hstep
  refine ⟨(List.length_modify ..).trans h.wdata, h.processes, h.length, ?_, h.reported, h.sum⟩
  intro i d o m hd ho hm
  by_cases hi : s.forked = i
  · subst hi
    rw [List.getElem?_modify_eq] at hd
    obtain ⟨d₀, hd₀, rfl⟩ := Option.map_eq_some_iff.mp hd
    have hentry := h.entry _ d₀ o m hd₀ ho hm
    obtain rfl : o = none := by
      cases o with
      | none => rfl
      | some p => exact absurd (hentry.own p rfl).1 (Nat.lt_irrefl _)
    refine ⟨⟨rfl, hentry.counts.trancntPrev, hentry.counts.le⟩, ?_, by simp⟩
    intro _
    change (s.forked : ℤ) + cfg.startCpu = s.forked
    rw [hcpu, Int.add_zero]
  · rw [List.getElem?_modify_ne _ _ hi] at hd
    have hentry := h.entry i d o m hd ho hm
    refine ⟨hentry.counts, fun hlt => hentry.cpuId ?_, ?_⟩
    · change i < s.forked + 1 at hlt
      omega
    · intro p hp
      exact ⟨Nat.lt_succ_of_lt (hentry.own p hp).1, (hentry.own p hp).2⟩

theorem Entry.writes (h : Entry cfg.globals i s.forked d o m) (he : cfg.Enabled s (.child i e))
    (ho : s.processes[i]? = some o) (hstep : cfg.childStep i d o e = some (p', us)) :
    i < s.forked ∧ Writes cfg.globals i o p' us := by
  cases e with
  | start pid memory =>
    obtain ⟨hi, hnone⟩ := he
    obtain rfl : o = none := Option.some.inj (ho.symm.trans hnone)
    exact ⟨hi, writes_start (h.cpuId hi) hstep⟩
  | work e =>
    obtain ⟨p, hp, he⟩ := he
    obtain rfl : o = some p := Option.some.inj (ho.symm.trans hp)
    exact ⟨(h.own p rfl).1, writes_work (h.own p rfl).2 he hstep⟩
  | pollFails =>
    obtain ⟨p, hp, -⟩ := he
    obtain rfl : o = some p := Option.some.inj (ho.symm.trans hp)
    exact ⟨(h.own p rfl).1, writes_pollFails (h.own p rfl).2 hstep⟩

/-- A worker counts in its own entry what it completes. -/
theorem Tracked.child (h : Tracked cfg s ms rs) (he : cfg.Enabled s (.child i e))
    (hstep : cfg.step s (.child i e) = some s') : Tracked cfg s' ms rs ∧
      ∀ u ∈ cfg.written s (.child i e), u.index = u.worker ∧ u.worker < cfg.numWorkers.toNat := by
  simp only [Config.step, Option.bind_eq_bind, Option.bind_eq_some_iff, Option.some.injEq] at hstep
  obtain ⟨⟨p', us⟩, hchild, rfl⟩ := hstep
  have hwritten : cfg.written s (.child i e) = us.map fun u => ⟨i, u.index⟩ := by
    rw [Config.written, hchild]
    rfl
  simp only [Config.childUpdates, Option.bind_eq_bind, Option.bind_eq_some_iff] at hchild
  obtain ⟨d, hd, o, ho, hchild⟩ := hchild
  have hlt : i < cfg.numWorkers.toNat := h.wdata ▸ (List.getElem?_eq_some_iff.mp hd).1
  obtain ⟨m, hm⟩ : ∃ m, ms[i]? = some m := ⟨_, List.getElem?_eq_getElem (h.length.symm ▸ hlt)⟩
  have hentry := h.entry i d o m hd ho hm
  obtain ⟨hforked, hwrites⟩ := hentry.writes he ho hchild
  obtain ⟨k, hcompleted, hadds⟩ := hwrites.adds
  constructor
  · have hfold := foldl_apply us hwrites.index s.wdata
    refine ⟨?_, (List.length_set ..).trans h.processes, h.length, ?_, h.reported, h.sum⟩
    · simp only [hfold, List.length_modify, h.wdata]
    · intro j d' o' m' hd' ho' hm'
      simp only [hfold] at hd'
      by_cases hij : i = j
      · subst hij
        rw [List.getElem?_modify_eq, hd] at hd'
        obtain rfl := Option.some.inj hd'
        rw [List.getElem?_set_self (h.processes.symm ▸ hlt)] at ho'
        obtain rfl := Option.some.inj ho'
        obtain rfl := Option.some.inj (hm.symm.trans hm')
        have hd' := hadds d
        refine ⟨⟨?_, hd'.trancntPrev.trans hentry.counts.trancntPrev, ?_⟩, ?_, ?_⟩
        · rw [hd'.trancnt, hentry.counts.trancnt, hcompleted, UInt64.ofNat_add]
        · exact hcompleted ▸ Nat.le_add_right_of_le hentry.counts.le
        · intro _
          exact hd'.cpuId.trans (hentry.cpuId hforked)
        · intro p hp
          obtain rfl := Option.some.inj hp
          exact ⟨hforked, hwrites.own⟩
      · rw [List.getElem?_modify_ne _ _ hij] at hd'
        rw [List.getElem?_set_ne hij] at ho'
        exact h.entry j d' o' m' hd' ho' hm'
  · intro u hu
    rw [hwritten] at hu
    obtain ⟨u', hu', rfl⟩ := List.mem_map.mp hu
    exact ⟨hwrites.index u' hu', hlt⟩

/-- What the next report counts. -/
theorem Tracked.unreported (h : Tracked cfg s ms rs) :
    ∃ k, s.unreported = UInt64.ofNat k ∧ ms.sum + k = s.completed := by
  obtain ⟨k, hk, hsum⟩ := snd_doStats (h.length.trans h.wdata.symm)
    ((List.length_map completedBy).trans (h.processes.trans h.wdata.symm))
    (fun i d m n hd hm hn => by
      rw [List.getElem?_map] at hn
      obtain ⟨o, ho, rfl⟩ := Option.map_eq_some_iff.mp hn
      exact (h.entry i d o m hd ho hm).counts) 0
  exact ⟨k, hk.trans (UInt64.zero_add _), hsum⟩

/-- A report prints what has been completed since the one before. -/
theorem Tracked.alarm (h : Tracked cfg s ms rs) (hstep : cfg.step s .alarm = some s') :
    ∃ k, Tracked cfg s' (s.processes.map completedBy) (rs ++ [k]) := by
  obtain rfl := Option.some.inj hstep
  obtain ⟨k, hk, hsum⟩ := h.unreported
  refine ⟨k, (length_doStats ..).trans h.wdata, h.processes,
    (List.length_map _).trans h.processes, ?_, ?_, ?_⟩
  · intro i d o m hd ho hm
    rw [getElem?_doStats] at hd
    obtain ⟨d₀, hd₀, rfl⟩ := Option.map_eq_some_iff.mp hd
    rw [List.getElem?_map, ho] at hm
    obtain rfl := Option.some.inj hm
    have hi : i < ms.length := by
      rw [h.length, ← h.wdata]
      exact (List.getElem?_eq_some_iff.mp hd₀).1
    have hentry := h.entry i d₀ o _ hd₀ ho (List.getElem?_eq_getElem hi)
    exact ⟨⟨hentry.counts.trancnt, hentry.counts.trancnt, le_rfl⟩, hentry.cpuId, hentry.own⟩
  · change s.reported ++ [s.unreported] = _
    rw [h.reported, hk, List.map_append]
    rfl
  · rw [List.sum_append, List.sum_singleton, h.sum]
    exact hsum

/-- One step of the server. -/
theorem Tracked.step {e : ServerEvent} (h : Tracked cfg s ms rs) (hcpu : cfg.startCpu = 0)
    (he : cfg.Enabled s e) (hstep : cfg.step s e = some s') :
    (∃ ms rs, Tracked cfg s' ms rs) ∧
      ∀ u ∈ cfg.written s e, u.index = u.worker ∧ u.worker < cfg.numWorkers.toNat := by
  cases e with
  | fork => exact ⟨⟨ms, rs, h.fork hcpu hstep⟩, by simp [Config.written]⟩
  | child i e =>
    obtain ⟨htracked, hwritten⟩ := h.child he hstep
    exact ⟨⟨ms, rs, htracked⟩, hwritten⟩
  | alarm =>
    obtain ⟨k, htracked⟩ := h.alarm hstep
    exact ⟨⟨_, _, htracked⟩, by simp [Config.written]⟩

/-- Whatever the order of the steps is, the server keeps count. -/
theorem tracked_runs {l : List Written} (hcpu : cfg.startCpu = 0)
    (hruns : cfg.server.RunsWith cfg.written (.init cfg) l s) :
    (∃ ms rs, Tracked cfg s ms rs) ∧
      ∀ u ∈ l, u.index = u.worker ∧ u.worker < cfg.numWorkers.toNat := by
  induction hruns with
  | refl => exact ⟨⟨_, _, tracked_init cfg⟩, by simp⟩
  | step _ he hstep ih =>
    obtain ⟨⟨ms, rs, htracked⟩, hl⟩ := ih
    obtain ⟨hnext, hwritten⟩ := htracked.step hcpu he hstep
    refine ⟨hnext, ?_⟩
    intro u hu
    exact (List.mem_append.mp hu).elim (hl u) (hwritten u)

/-! ## The reports add up -/

theorem sum_map_ofNat (rs : List ℕ) : (rs.map UInt64.ofNat).sum = UInt64.ofNat rs.sum := by
  induction rs with
  | nil => rfl
  | cons r rs ih => rw [List.map_cons, List.sum_cons, List.sum_cons, ih, UInt64.ofNat_add]

theorem sum_map_toNat (rs : List ℕ) (h : rs.sum < 2 ^ 64) :
    ((rs.map UInt64.ofNat).map UInt64.toNat).sum = rs.sum := by
  induction rs with
  | nil => rfl
  | cons r rs ih =>
    have hsize : UInt64.size = 2 ^ 64 := rfl
    rw [List.sum_cons] at h
    rw [List.map_cons, List.map_cons, List.sum_cons, List.sum_cons, ih (by omega),
      UInt64.toNat_ofNat_of_lt' (by omega)]

theorem Tracked.totals (h : Tracked cfg s ms rs) :
    s.reported.sum + s.unreported = UInt64.ofNat s.completed ∧
      (s.completed < 2 ^ 64 →
        (s.reported.map UInt64.toNat).sum + s.unreported.toNat = s.completed) := by
  obtain ⟨k, hk, hsum⟩ := h.unreported
  have htotal : rs.sum + k = s.completed := h.sum ▸ hsum
  rw [h.reported, hk]
  constructor
  · rw [sum_map_ofNat, ← UInt64.ofNat_add, htotal]
  · intro hlt
    have hsize : UInt64.size = 2 ^ 64 := rfl
    rw [sum_map_toNat rs (by omega), UInt64.toNat_ofNat_of_lt' (by omega), htotal]

/-! ## Where the first core is not 0 -/

theorem exists_processClientsInit (cpuId : ℤ) : ∃ w,
    processClientsInit ⟨[3], [], false, cpuId, 4⟩ (List.replicate maxConnsPerWorker default) =
      some w := by
  rw [processClientsInit, initPool_max]
  exact ⟨_, rfl⟩

/-- The first worker notes at the entry `start_cpu` that it comes to its loop. -/
theorem startCpu_of_belong {numWorkers startCpu cpuNum : ℤ} (hpos : 1 ≤ numWorkers)
    (hbind : bindProcessCpu cpuNum startCpu = true)
    (h : StatisticsBelong numWorkers startCpu cpuNum) : startCpu = 0 := by
  let cfg : Config := ⟨numWorkers, startCpu, cpuNum, ⟨[3], [], false, 0, 4⟩⟩
  let memory : List ConnContext := List.replicate maxConnsPerWorker default
  let cpu : ℤ := (0 : ℕ) + startCpu
  have hcpu : cpu = startCpu := Int.zero_add startCpu
  obtain ⟨n, hn⟩ : ∃ n, numWorkers.toNat = n + 1 := ⟨numWorkers.toNat - 1, by omega⟩
  obtain ⟨w, hw⟩ := exists_processClientsInit cpu
  let s : Server := ⟨{ WorkerData.zero with cpuId := cpu } :: List.replicate n .zero, 1,
    none :: List.replicate n none, []⟩
  have hinit : Server.init cfg =
      ⟨.zero :: List.replicate n .zero, 0, none :: List.replicate n none, []⟩ := by
    change (⟨List.replicate numWorkers.toNat .zero, 0, List.replicate numWorkers.toNat none, []⟩ :
      Server) = _
    rw [hn]
    rfl
  have hfork : cfg.server.step (.init cfg) .fork = some s := by
    rw [hinit]
    rfl
  have hchild : cfg.childUpdates s 0 (.start 1 memory) = some (⟨cpu, w⟩,
      [⟨0, fun d => { d with process := 1 }⟩,
        ⟨cpu, fun d => { d with pollsMin := UInt64.ofNat eventsPerBatch }⟩]) := by
    change (if bindProcessCpu cpuNum cpu = true then
      (processClientsInit ⟨[3], [], false, cpu, 4⟩ memory).bind _ else none) = _
    rw [if_pos (hcpu ▸ hbind), hw]
    rfl
  have hroom : cfg.server.Enabled (.init cfg) .fork := by
    change 0 < numWorkers.toNat
    omega
  have hforked : cfg.server.RunsWith cfg.written (.init cfg) _ s := .step .refl hroom hfork
  have hstep : ∃ s', cfg.server.step s (.child 0 (.start 1 memory)) = some s' := by
    change ∃ s', (cfg.childUpdates s 0 (.start 1 memory)).bind _ = some s'
    rw [hchild]
    exact ⟨_, rfl⟩
  obtain ⟨s', hstep⟩ := hstep
  have hwaits : cfg.server.Enabled s (.child 0 (.start 1 memory)) := ⟨Nat.one_pos, rfl⟩
  have hruns := hforked.step hwaits hstep
  have hwritten : (⟨0, cpu⟩ : Written) ∈ cfg.written s (.child 0 (.start 1 memory)) := by
    rw [Config.written, hchild]
    exact .tail _ (.head _)
  exact hcpu.symm.trans ((h _ _ _ hruns).1 _ (List.mem_append_right _ hwritten)).1

/-- **The statistics belong to the worker that made them** exactly if the first core is 0.  From any
other core on each worker counts in an entry that is not its own, and the last ones behind the
array. -/
theorem statisticsBelong_iff (numWorkers startCpu cpuNum : ℤ)
    (hassert : 1 ≤ numWorkers ∧ numWorkers ≤ cpuNum)
    (hbind : ∀ i : ℕ, (i : ℤ) < numWorkers → bindProcessCpu cpuNum (i + startCpu) = true) :
    StatisticsBelong numWorkers startCpu cpuNum ↔ startCpu = 0 := by
  constructor
  · intro h
    have hfirst := hbind 0 (by omega)
    rw [Int.natCast_zero, Int.zero_add] at hfirst
    exact startCpu_of_belong hassert.1 hfirst h
  · intro hcpu globals l s cfg hruns
    have hcfg : cfg.startCpu = 0 := hcpu
    obtain ⟨⟨ms, rs, htracked⟩, hl⟩ := tracked_runs hcfg hruns
    refine ⟨fun u hu => ⟨(hl u hu).1, ?_⟩, htracked.totals⟩
    have hlt : u.worker < numWorkers.toNat := (hl u hu).2
    omega

theorem statisticsBelong_iff_two : StatisticsBelong 2 0 4 :=
  (statisticsBelong_iff 2 0 4 (by decide) fun i hi => by
    simp [bindProcessCpu]
    omega).mpr rfl

/-- Two workers from the second core on. -/
theorem not_belong_second_core : ¬ StatisticsBelong 2 1 4 := fun h =>
  absurd (startCpu_of_belong (by decide) (by decide) h) (by decide)

end MultProcess
end CModel
