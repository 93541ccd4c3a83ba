import CModel.Foundation.CString
import CModel.Foundation.Numerals
import CModel.Foundation.Refill
import CModel.HttpCodec.Util

/-!
# The options of the server

The loop with which `main` of `server.c` reads its arguments.  Behind `-a` and behind `-x` any number
of addresses can follow, each of which takes an argument.

* `Options`, `AddrEntry`: the globals that the loop sets; `la` goes with `la_num`, and `pa` with
  `pa_num`.
* `takeAddresses`: the loop in `-a` and in `-x`, which counts with `i` and with the number of the
  table.
* `optionLoop`: the jumps to `again`.
* `Opt`, `readOptions`: the options that the arguments stand for.
* `optionLoop_eq`: the loop ends, every write is in range, and what it leaves is what the options do,
  one by one.
* `optionLoop_lists_iff`: the tables list the addresses if and only if neither `-a` nor `-x` takes
  addresses twice.
-/

namespace CModel
namespace MultProcess

open HttpCodec (strncpy)

/-- `MAX_LISTEN_ADDRESS` -/
def maxListenAddress : ℕ := 32

/-- `MAX_PROXY_ADDRESS` -/
def maxProxyAddress : ℕ := 32

/-! ## The globals -/

/-- What the options set in `struct listen_addr` and in `struct proxy_addr`. -/
structure AddrEntry where
  paramPort : ℤ
  ip : ℕ
  paramIp : Bytes
  deriving DecidableEq, Repr

/-- A static entry. -/
def AddrEntry.zero : AddrEntry := ⟨0, 0, List.replicate 32 0⟩

/-- The globals that the options set. -/
structure Options where
  enableDebug : Bool
  enableVerbose : Bool
  enableProxy : Bool
  processMode : Bool
  specifiedLogFile : Bool
  logPath : Bytes
  startCpu : ℤ
  numWorkers : ℤ
  /-- `la` and `la_num` -/
  la : RefillTable AddrEntry
  /-- `pa` and `pa_num` -/
  pa : RefillTable AddrEntry

/-- The globals when `main` starts. -/
def Options.init : Options where
  enableDebug := false
  enableVerbose := false
  enableProxy := false
  processMode := false
  specifiedLogFile := false
  logPath := List.replicate 64 0
  startCpu := 0
  numWorkers := 0
  la := .empty maxListenAddress
  pa := .empty maxProxyAddress

/-! ## The loop -/

/-- How the loop can fail to end. -/
inductive OptionFault where
  /-- an entry outside of `la` or `pa` is written -/
  | outOfRange
  /-- the jumps that are allowed for are used up -/
  | noFuel
  deriving DecidableEq, Repr

/-- `sscanf(s, "%d", &n)`; without digits `n` keeps what it held. -/
def sscanfInt (dm : DataModel) (s : Bytes) : Option ℤ :=
  if ((scanSign (s.dropWhile isspace)).2.takeWhile isdigit).isEmpty then none else some (atoi dm s)

section Loop

variable (inetAton : Bytes → Option ℕ) (dm : DataModel)

/-- An argument with its colon at `sep` is put into an entry.  A text that fills `param_ip` ends
there, as the field behind it is zero. -/
def storeAddress (arg : Bytes) (sep : ℕ) (entry : AddrEntry) : AddrEntry :=
  let paramIp := strncpy (arg.take sep) 32
  { paramIp
    ip := (inetAton (cstr paramIp)).getD entry.ip
    paramPort := (sscanfInt dm (arg.drop (sep + 1))).getD entry.paramPort }

/-- What an argument makes of an entry. -/
def storeArg (arg : Bytes) (entry : Option AddrEntry) : AddrEntry :=
  storeAddress inetAton dm arg ((strchr arg 58).getD arg.length) (entry.getD .zero)

/-- The loop behind `-a` and behind `-x`: the table, and the arguments that are left. -/
def takeAddresses (max : ℕ) :
    ℕ → RefillTable AddrEntry → List Bytes → Except OptionFault (RefillTable AddrEntry × List Bytes)
  | _, t, [] => .ok (t, [])
  | i, t, arg :: args =>
    if i < max then
      match strchr arg 58 with
      | none => .ok (t, arg :: args)
      | some sep =>
        if i < t.entries.length then
          let entry := storeAddress inetAton dm arg sep (t.entries[i]?.join.getD .zero)
          takeAddresses max (i + 1) ⟨t.entries.set i (some entry), t.num + 1⟩ args
        else .error .outOfRange
    else .ok (t, arg :: args)

/-- What `main` does from `again` on, with `argv[1]` to `argv[argc - 1]`. -/
def optionLoop : ℕ → List Bytes → Options → Except OptionFault Options
  | 0, _, _ => .error .noFuel
  | _ + 1, [], o => .ok o
  | fuel + 1, opt :: rest, o =>
    if cstr opt = ascii "-d" then optionLoop fuel rest { o with enableDebug := true }
    else if cstr opt = ascii "-v" then optionLoop fuel rest { o with enableVerbose := true }
    else
      match rest with
      | [] => .ok o
      | arg :: rest =>
        if cstr opt = ascii "-o" then
          optionLoop fuel rest { o with logPath := strncpy arg 64, specifiedLogFile := true }
        else if cstr opt = ascii "-c" then
          optionLoop fuel rest { o with startCpu := atoi dm arg }
        else if cstr opt = ascii "-w" then
          optionLoop fuel rest { o with processMode := true, numWorkers := atoi dm arg }
        else if cstr opt = ascii "-a" then do
          let (la, rest) ← takeAddresses inetAton dm maxListenAddress 0 o.la (arg :: rest)
          optionLoop fuel rest { o with la }
        else if cstr opt = ascii "-x" then do
          let (pa, rest) ← takeAddresses inetAton dm maxProxyAddress 0 o.pa (arg :: rest)
          optionLoop fuel rest { o with enableProxy := true, pa }
        else .ok o

end Loop

/-! ## The options -/

/-- An option with what it takes. -/
inductive Opt where
  | debug
  | verbose
  | logFile (path : Bytes)
  | startCpu (arg : Bytes)
  | workers (arg : Bytes)
  | listen (addrs : List Bytes)
  | proxy (addrs : List Bytes)

/-- Whether an argument is `ip:port`. -/
def isAddress (arg : Bytes) : Bool := (strchr arg 58).isSome

/-- The addresses in front of the arguments, at most `max` of them. -/
def addressesIn (max : ℕ) (args : List Bytes) : List Bytes := (args.take max).takeWhile isAddress

/-- The options in the first `n` arguments. -/
def readOptionsFrom : ℕ → List Bytes → List Opt
  | 0, _ => []
  | _ + 1, [] => []
  | n + 1, opt :: rest =>
    if cstr opt = ascii "-d" then .debug :: readOptionsFrom n rest
    else if cstr opt = ascii "-v" then .verbose :: readOptionsFrom n rest
    else
      match rest with
      | [] => []
      | arg :: rest =>
        if cstr opt = ascii "-o" then .logFile arg :: readOptionsFrom n rest
        else if cstr opt = ascii "-c" then .startCpu arg :: readOptionsFrom n rest
        else if cstr opt = ascii "-w" then .workers arg :: readOptionsFrom n rest
        else if cstr opt = ascii "-a" then
          let addrs := addressesIn maxListenAddress (arg :: rest)
          .listen addrs :: readOptionsFrom n ((arg :: rest).drop addrs.length)
        else if cstr opt = ascii "-x" then
          let addrs := addressesIn maxProxyAddress (arg :: rest)
          .proxy addrs :: readOptionsFrom n ((arg :: rest).drop addrs.length)
        else []

/-- The options that the arguments stand for, up to the first argument that is none. -/
def readOptions (args : List Bytes) : List Opt := readOptionsFrom args.length args

/-- The addresses of `-a`. -/
def Opt.listenAddrs : Opt → Option (List Bytes)
  | .listen addrs => some addrs
  | _ => none

/-- The addresses of `-x`. -/
def Opt.proxyAddrs : Opt → Option (List Bytes)
  | .proxy addrs => some addrs
  | _ => none

/-- What each `-a` takes, in the order of the command line. -/
def listenAddrs (args : List Bytes) : List (List Bytes) :=
  (readOptions args).filterMap Opt.listenAddrs

/-- What each `-x` takes, in the order of the command line. -/
def proxyAddrs (args : List Bytes) : List (List Bytes) :=
  (readOptions args).filterMap Opt.proxyAddrs

/-- At most one of the options takes an address. -/
def AtMostOneTakes (groups : List (List Bytes)) : Prop :=
  (groups.filter fun g => !g.isEmpty).length ≤ 1

instance (groups : List (List Bytes)) : Decidable (AtMostOneTakes groups) :=
  inferInstanceAs (Decidable (_ ≤ _))

/-- Exactly one of the options takes an address. -/
def ExactlyOneTakes (groups : List (List Bytes)) : Prop :=
  (groups.filter fun g => !g.isEmpty).length = 1

instance (groups : List (List Bytes)) : Decidable (ExactlyOneTakes groups) :=
  inferInstanceAs (Decidable (_ = _))

variable {inetAton : Bytes → Option ℕ} {dm : DataModel} {max i n fuel : ℕ} {args : List Bytes}
  {t : RefillTable AddrEntry} {o : Options}

/-- What an option does. -/
def Options.apply (inetAton : Bytes → Option ℕ) (dm : DataModel) (o : Options) : Opt → Options
  | .debug => { o with enableDebug := true }
  | .verbose => { o with enableVerbose := true }
  | .logFile path => { o with logPath := strncpy path 64, specifiedLogFile := true }
  | .startCpu arg => { o with startCpu := atoi dm arg }
  | .workers arg => { o with processMode := true, numWorkers := atoi dm arg }
  | .listen addrs => { o with la := o.la.fill (storeArg inetAton dm) addrs }
  | .proxy addrs => { o with enableProxy := true, pa := o.pa.fill (storeArg inetAton dm) addrs }

/-! ## The loop does what the options say -/

theorem length_addressesIn_le : (addressesIn max args).length ≤ max :=
  (List.takeWhile_sublist _).length_le.trans (List.length_take_le _ _)

/-- The addresses are put into the table from the entry `i` on. -/
theorem takeAddresses_eq (h : max ≤ t.entries.length) :
    takeAddresses inetAton dm max i t args =
      .ok (.fillFrom (storeArg inetAton dm) i t (addressesIn (max - i) args),
        args.drop (addressesIn (max - i) args).length) := by
  induction args generalizing i t with
  | nil => simp [takeAddresses, addressesIn, RefillTable.fillFrom]
  | cons arg args ih =>
    by_cases hi : i < max
    · have hmax : max - i = max - (i + 1) + 1 := by omega
      cases hsep : strchr arg 58 with
      | none =>
        have haddr : isAddress arg = false := by rw [isAddress, hsep]; rfl
        rw [takeAddresses, if_pos hi, hsep, addressesIn, hmax, List.take_succ_cons,
          List.takeWhile_cons_of_neg (by simp [haddr])]
        rfl
      | some sep =>
        have haddr : isAddress arg = true := by rw [isAddress, hsep]; rfl
        have hput : storeAddress inetAton dm arg sep (t.entries[i]?.join.getD .zero) =
            storeArg inetAton dm arg t.entries[i]?.join := by rw [storeArg, hsep]; rfl
        have hcons : addressesIn (max - i) (arg :: args) =
            arg :: addressesIn (max - (i + 1)) args := by
          rw [addressesIn, hmax, List.take_succ_cons, List.takeWhile_cons_of_pos haddr]
          rfl
        rw [takeAddresses, if_pos hi, hsep]
        simp only [hput, if_pos (Nat.lt_of_lt_of_le hi h)]
        rw [hcons, ih (by simpa using h)]
        rfl
    · rw [takeAddresses, if_neg hi, addressesIn, Nat.sub_eq_zero_of_le (by omega)]
      rfl

/-- The tables have their length. -/
structure Options.Tables (o : Options) : Prop where
  la : o.la.entries.length = maxListenAddress
  pa : o.pa.entries.length = maxProxyAddress

theorem tables_init : Options.init.Tables := ⟨rfl, rfl⟩

theorem Options.Tables.apply (h : o.Tables) (opt : Opt) : (o.apply inetAton dm opt).Tables := by
  cases opt with
  | listen addrs => exact ⟨RefillTable.length_fill.trans h.la, h.pa⟩
  | proxy addrs => exact ⟨h.la, RefillTable.length_fill.trans h.pa⟩
  | _ => exact ⟨h.la, h.pa⟩

theorem Options.Tables.foldl_apply (h : o.Tables) (opts : List Opt) :
    (opts.foldl (Options.apply inetAton dm) o).Tables := by
  induction opts generalizing o with
  | nil => exact h
  | cons opt opts ih => exact ih (h.apply opt)

/-- **The loop ends**, no write is out of range, and the options have been done one by one. -/
theorem optionLoop_eq (ho : o.Tables) (hn : args.length ≤ n) (hfuel : args.length < fuel) :
    optionLoop inetAton dm fuel args o =
      .ok ((readOptionsFrom n args).foldl (Options.apply inetAton dm) o) := by
  induction fuel generalizing n args o with
  | zero => omega
  | succ fuel ih =>
    cases args with
    | nil => cases n <;> rfl
    | cons opt rest =>
      obtain ⟨n, rfl⟩ : ∃ m, n = m + 1 := ⟨n - 1, by simp only [List.length_cons] at hn; omega⟩
      simp only [List.length_cons, Nat.add_lt_add_iff_right, Nat.add_le_add_iff_right] at hn hfuel
      have happly : ∀ opt, (o.apply inetAton dm opt).Tables := fun opt => ho.apply opt
      rw [optionLoop.eq_def, readOptionsFrom.eq_def]
      dsimp only
      by_cases hd : cstr opt = ascii "-d"
      · rw [if_pos hd, if_pos hd]
        exact ih (happly .debug) hn hfuel
      rw [if_neg hd, if_neg hd]
      by_cases hv : cstr opt = ascii "-v"
      · rw [if_pos hv, if_pos hv]
        exact ih (happly .verbose) hn hfuel
      rw [if_neg hv, if_neg hv]
      cases rest with
      | nil => rfl
      | cons arg rest =>
        have hn' : rest.length ≤ n := Nat.le_of_succ_le hn
        have hfuel' : rest.length < fuel := Nat.lt_of_succ_lt hfuel
        have hdrop : ∀ k, ((arg :: rest).drop k).length ≤ (arg :: rest).length := fun k =>
          (List.drop_sublist k _).length_le
        dsimp only
        by_cases hlog : cstr opt = ascii "-o"
        · rw [if_pos hlog, if_pos hlog]
          exact ih (happly (.logFile arg)) hn' hfuel'
        rw [if_neg hlog, if_neg hlog]
        by_cases hcpu : cstr opt = ascii "-c"
        · rw [if_pos hcpu, if_pos hcpu]
          exact ih (happly (.startCpu arg)) hn' hfuel'
        rw [if_neg hcpu, if_neg hcpu]
        by_cases hworkers : cstr opt = ascii "-w"
        · rw [if_pos hworkers, if_pos hworkers]
          exact ih (happly (.workers arg)) hn' hfuel'
        rw [if_neg hworkers, if_neg hworkers]
        by_cases hlisten : cstr opt = ascii "-a"
        · rw [if_pos hlisten, if_pos hlisten, takeAddresses_eq (by rw [ho.la])]
          exact ih (happly (.listen _)) ((hdrop _).trans hn) ((hdrop _).trans_lt hfuel)
        rw [if_neg hlisten, if_neg hlisten]
        by_cases hproxy : cstr opt = ascii "-x"
        · rw [if_pos hproxy, if_pos hproxy, takeAddresses_eq (by rw [ho.pa])]
          exact ih (happly (.proxy _)) ((hdrop _).trans hn) ((hdrop _).trans_lt hfuel)
        rw [if_neg hproxy, if_neg hproxy]
        rfl

/-! ## What the tables list -/

/-- The tables are filled by the options that take addresses. -/
theorem la_foldl_apply (opts : List Opt) : (opts.foldl (Options.apply inetAton dm) o).la =
    (opts.filterMap Opt.listenAddrs).foldl (RefillTable.fill (storeArg inetAton dm)) o.la := by
  induction opts generalizing o with
  | nil => rfl
  | cons opt opts ih => cases opt <;> exact ih

theorem pa_foldl_apply (opts : List Opt) : (opts.foldl (Options.apply inetAton dm) o).pa =
    (opts.filterMap Opt.proxyAddrs).foldl (RefillTable.fill (storeArg inetAton dm)) o.pa := by
  induction opts generalizing o with
  | nil => rfl
  | cons opt opts ih => cases opt <;> exact ih

/-- The option takes no more addresses than the table has entries. -/
def Opt.Fits : Opt → Prop
  | .listen addrs => addrs.length ≤ maxListenAddress
  | .proxy addrs => addrs.length ≤ maxProxyAddress
  | _ => True

theorem fits_of_mem_readOptionsFrom : ∀ opt ∈ readOptionsFrom n args, opt.Fits := by
  fun_induction readOptionsFrom n args with
  | case1 | case2 | case5 | case11 => simp
  | case3 n opt rest _ ih | case4 n opt rest _ _ ih => exact List.forall_mem_cons.mpr ⟨trivial, ih⟩
  | case6 n opt _ _ arg rest _ ih | case7 n opt _ _ arg rest _ _ ih
  | case8 n opt _ _ arg rest _ _ _ ih => exact List.forall_mem_cons.mpr ⟨trivial, ih⟩
  | case9 n opt _ _ arg rest _ _ _ _ addrs ih | case10 n opt _ _ arg rest _ _ _ _ _ addrs ih =>
    exact List.forall_mem_cons.mpr ⟨length_addressesIn_le, ih⟩

theorem length_le_of_mem_listenAddrs : ∀ g ∈ listenAddrs args, g.length ≤ maxListenAddress := by
  intro g hg
  obtain ⟨opt, hopt, htakes⟩ := List.mem_filterMap.mp hg
  have hfits := fits_of_mem_readOptionsFrom opt hopt
  cases opt with
  | listen addrs =>
    obtain rfl : addrs = g := Option.some.inj htakes
    exact hfits
  | _ => simp [Opt.listenAddrs] at htakes

theorem length_le_of_mem_proxyAddrs : ∀ g ∈ proxyAddrs args, g.length ≤ maxProxyAddress := by
  intro g hg
  obtain ⟨opt, hopt, htakes⟩ := List.mem_filterMap.mp hg
  have hfits := fits_of_mem_readOptionsFrom opt hopt
  cases opt with
  | proxy addrs =>
    obtain rfl : addrs = g := Option.some.inj htakes
    exact hfits
  | _ => simp [Opt.proxyAddrs] at htakes

/-- What the loop leaves. -/
def optionsOf (inetAton : Bytes → Option ℕ) (dm : DataModel) (args : List Bytes) : Options :=
  (readOptions args).foldl (Options.apply inetAton dm) Options.init

theorem optionLoop_init (h : args.length < fuel) :
    optionLoop inetAton dm fuel args .init = .ok (optionsOf inetAton dm args) :=
  optionLoop_eq tables_init le_rfl h

theorem tables_optionsOf : (optionsOf inetAton dm args).Tables := tables_init.foldl_apply _

theorem la_optionsOf : (optionsOf inetAton dm args).la =
    (listenAddrs args).foldl (RefillTable.fill (storeArg inetAton dm)) (.empty maxListenAddress) :=
  la_foldl_apply _

theorem pa_optionsOf : (optionsOf inetAton dm args).pa =
    (proxyAddrs args).foldl (RefillTable.fill (storeArg inetAton dm)) (.empty maxProxyAddress) :=
  pa_foldl_apply _

/-- **The options collect their addresses** exactly if neither `-a` nor `-x` takes addresses twice.
However many jumps are allowed for, from the number of arguments on, the loop ends and no write is
out of range. -/
theorem optionLoop_lists_iff (inetAton : Bytes → Option ℕ) (dm : DataModel) (args : List Bytes)
    (fuel : ℕ) (h : args.length < fuel) :
    ∃ o, optionLoop inetAton dm fuel args .init = .ok o ∧
      ((o.la.Lists (storeArg inetAton dm) (listenAddrs args).flatten ∧
          o.pa.Lists (storeArg inetAton dm) (proxyAddrs args).flatten ∧
          o.la.num ≤ maxListenAddress ∧ o.pa.num ≤ maxProxyAddress) ↔
        AtMostOneTakes (listenAddrs args) ∧ AtMostOneTakes (proxyAddrs args)) := by
  refine ⟨optionsOf inetAton dm args, optionLoop_init h, ?_⟩
  have hla : (optionsOf inetAton dm args).la.Lists (storeArg inetAton dm) _ ↔ _ :=
    la_optionsOf ▸ RefillTable.lists_fills_iff length_le_of_mem_listenAddrs
  have hpa : (optionsOf inetAton dm args).pa.Lists (storeArg inetAton dm) _ ↔ _ :=
    pa_optionsOf ▸ RefillTable.lists_fills_iff length_le_of_mem_proxyAddrs
  have htables : (optionsOf inetAton dm args).Tables := tables_optionsOf
  constructor
  · rintro ⟨hlistLa, hlistPa, -, -⟩
    exact ⟨hla.mp hlistLa, hpa.mp hlistPa⟩
  · rintro ⟨honeLa, honePa⟩
    have hlistLa := hla.mpr honeLa
    have hlistPa := hpa.mpr honePa
    exact ⟨hlistLa, hlistPa, hlistLa.1.trans_eq htables.la, hlistPa.1.trans_eq htables.pa⟩

/-- `inet_aton` on two addresses. -/
def atonOfTwo (s : Bytes) : Option ℕ :=
  if s = ascii "10.0.0.1" then some 0x0100000a
  else if s = ascii "10.0.0.2" then some 0x0200000a
  else none

/-- One `-a` with two addresses and one `-x`, behind which another argument ends the options. -/
theorem optionLoop_lists_iff_once : ∃ o,
    optionLoop atonOfTwo .lp64 7 [ascii "-a", ascii "10.0.0.1:80", ascii "10.0.0.2:", ascii "-x",
      ascii "10.0.0.2:81", ascii "last"] .init = .ok o ∧
    o.la.Lists (storeArg atonOfTwo .lp64) [ascii "10.0.0.1:80", ascii "10.0.0.2:"] ∧
    o.pa.Lists (storeArg atonOfTwo .lp64) [ascii "10.0.0.2:81"] := by
  obtain ⟨o, hrun, hiff⟩ := optionLoop_lists_iff atonOfTwo .lp64 [ascii "-a", ascii "10.0.0.1:80",
    ascii "10.0.0.2:", ascii "-x", ascii "10.0.0.2:81", ascii "last"] 7 (by decide)
  have hlists := hiff.mpr (by decide)
  exact ⟨o, hrun, hlists.1, hlists.2.1⟩

/-- With `-a` repeated the first address is lost, and the second entry that is counted has never been
filled. -/
theorem not_lists_repeated : ¬ ∃ o,
    optionLoop atonOfTwo .lp64 5 [ascii "-a", ascii "10.0.0.1:80", ascii "-a",
      ascii "10.0.0.2:80"] .init = .ok o ∧
    o.la.Lists (storeArg atonOfTwo .lp64) (listenAddrs [ascii "-a", ascii "10.0.0.1:80", ascii "-a",
      ascii "10.0.0.2:80"]).flatten := by
  rintro ⟨o, hrun, hlists⟩
  rw [optionLoop_init (by decide)] at hrun
  obtain rfl := Except.ok.inj hrun
  exact absurd hlists (by decide)

end MultProcess
end CModel
