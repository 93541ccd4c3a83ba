import CModel.HttpCodec.ReqSteps
import CModel.HttpCodec.RequestLine

/-!
# What follows an accepted request line

`CHttpRequestLine::infuse` searches all received bytes for `" HTTP/"` and not only the first line.
A line that it accepts has it inside, and is read in one way whatever follows.

* `parseUri_append`, `parseVersion_append`: URI and version are read from their own bytes.
* `parseTarget_append`: the same for the two together.
* `parseLine_append`: **an accepted line is accepted with the same result before any other bytes.**
-/

namespace CModel
namespace HttpCodec

variable {dm : DataModel}

/-! ## Reads inside of the first part -/

theorem readByte_append {α : Type} {a : List α} {i : ℕ} (h : i < a.length) (r : List α) :
    readByte (a ++ r) i = readByte a i := by
  rw [readByte, readByte, List.getElem?_append_left h]

theorem readRange_append {α : Type} {a : List α} {off len : ℕ} (h : off + len ≤ a.length)
    (r : List α) : readRange (a ++ r) off len = readRange a off len := by
  have hle : off + len ≤ (a ++ r).length := by
    rw [List.length_append]
    omega
  rw [readRange_of_le h, readRange_of_le hle, List.drop_append_of_le_length (by omega),
    List.take_append_of_le_length (by rw [List.length_drop]; omega)]

theorem fileStart_append {a : Bytes} {e : ℕ} (h : e ≤ a.length) (r : Bytes) :
    fileStart dm (a ++ r) e = fileStart dm a e := by
  induction e with
  | zero => rfl
  | succ e ih => rw [fileStart, fileStart, readByte_append (by omega), ih (by omega)]

/-- The backward loop ends in front of where it began, or without a `/`. -/
theorem fileStart_lt {data : Bytes} {e f : ℕ} (h : fileStart dm data e = .ok f) :
    f < e ∨ f = 2 ^ 32 - 1 := by
  induction e with
  | zero =>
    rw [fileStart, Outcome.ok.injEq] at h
    right
    rw [← h]
    cases dm <;> rfl
  | succ e ih =>
    rw [fileStart] at h
    obtain ⟨c, -, h⟩ := Outcome.bind_eq_ok.mp h
    split at h
    · rw [Outcome.ok.injEq] at h
      exact Or.inl (by omega)
    · exact (ih h).imp (by omega) id

theorem uriEnd_append {a : Bytes} {k : ℕ} (h : k ≤ a.length) (r : Bytes) :
    uriEnd dm (a ++ r) k = uriEnd dm a k := by
  rw [uriEnd, uriEnd, List.take_append_of_le_length h]

/-- The end of the front part lies in the URI, or is the value that stands for "no `?`". -/
theorem uriEnd_le (data : Bytes) (k : ℕ) :
    uriEnd dm data k ≤ k ∨ uriEnd dm data k = 2 ^ 32 - 1 := by
  rw [uriEnd]
  cases hf : findChar 63 (data.take k) with
  | some i =>
    obtain ⟨a, b, hab, -, hi⟩ := findChar_eq_some_iff.mp hf
    have hlen := congrArg List.length hab
    rw [List.length_take, List.length_append, List.length_cons] at hlen
    simp only [Option.getD_some]
    split
    · exact Or.inl le_rfl
    · exact Or.inl (by omega)
  | none => cases dm <;> simp [DataModel.ulongMax, u32]

theorem splitUri_append {a r : Bytes} {k : ℕ} (hk : k ≤ a.length)
    (hlt : (a ++ r).length < 2 ^ 32 - 1) : splitUri dm (a ++ r) k = splitUri dm a k := by
  have hend : uriEnd dm (a ++ r) k = uriEnd dm a k := uriEnd_append hk r
  have halt : a.length < 2 ^ 32 - 1 := by
    rw [List.length_append] at hlt
    omega
  have hle : uriEnd dm a k ≤ k ∨ uriEnd dm a k = 2 ^ 32 - 1 := uriEnd_le a k
  rcases hle with he | he
  · have hstart : fileStart dm (a ++ r) (uriEnd dm a k) = fileStart dm a (uriEnd dm a k) :=
      fileStart_append (he.trans hk) r
    simp only [splitUri, hend, hstart]
    cases hf : fileStart dm a (uriEnd dm a k) with
    | undefined => rfl
    | ret c => rfl
    | ok f =>
      simp only [Outcome.ok_bind]
      split
      · rfl
      · rcases fileStart_lt hf with hlt' | hbig
        · have hquery : ((a ++ r).drop (uriEnd dm a k + 1)).take (k - uriEnd dm a k - 1) =
              (a.drop (uriEnd dm a k + 1)).take (k - uriEnd dm a k - 1) := by
            by_cases hlast : uriEnd dm a k + 1 ≤ a.length
            · rw [List.drop_append_of_le_length hlast,
                List.take_append_of_le_length (by rw [List.length_drop]; omega)]
            · rw [show k - uriEnd dm a k - 1 = 0 by omega, List.take_zero, List.take_zero]
          rw [readRange_append (by omega), readRange_append (by omega), hquery]
        · have h₁ : readRange (a ++ r) 0 f = .undefined := readRange_of_lt (by omega)
          have h₂ : readRange a 0 f = .undefined := readRange_of_lt (by omega)
          rw [h₁, h₂]
          rfl
  · have h₁ : fileStart dm (a ++ r) (2 ^ 32 - 1) = .undefined :=
      fileStart_of_lt (n := 2 ^ 32 - 2) (by omega)
    have h₂ : fileStart dm a (2 ^ 32 - 1) = .undefined :=
      fileStart_of_lt (n := 2 ^ 32 - 2) (by omega)
    simp only [splitUri, hend, he, h₁, h₂, Outcome.undefined_bind]

/-- **A URI is read from its own bytes** and the one behind. -/
theorem parseUri_append {a r : Bytes} {k : ℕ} (hk : k ≤ a.length) (h2 : 2 ≤ a.length)
    (hlt : (a ++ r).length < 2 ^ 32 - 1) : parseUri dm (a ++ r) k = parseUri dm a k := by
  rw [parseUri, parseUri, readByte_append (by omega), readByte_append (by omega),
    splitUri_append hk hlt]

theorem getFirstWord_append {a : Bytes} (h : ∃ c ∈ a, isspace c = true) (r : Bytes) :
    getFirstWord (a ++ r) = getFirstWord a := by
  have hsome : (a.findIdx? isspace).isSome = true := by
    rw [List.findIdx?_isSome, List.any_eq_true]
    exact h
  obtain ⟨i, hi⟩ := Option.isSome_iff_exists.mp hsome
  rw [getFirstWord, getFirstWord, List.findIdx?_append, hi]
  rfl

theorem getFirstWord_lt (a : Bytes) : getFirstWord a < a.length ∨ getFirstWord a = 0 := by
  rw [getFirstWord]
  cases hi : a.findIdx? isspace with
  | none => exact Or.inr rfl
  | some i =>
    obtain ⟨hlt, -⟩ := List.findIdx?_eq_some_iff_getElem.mp hi
    exact Or.inl hlt

/-- **A version is read from its own bytes**, which white space ends. -/
theorem parseVersion_append {a : Bytes} (h : ∃ c ∈ a, isspace c = true) (r : Bytes) {n : ℕ}
    (hn : a.length ≤ n) :
    CHttpRequestLine.parseVersion (a ++ r) n = CHttpRequestLine.parseVersion a n := by
  have hword : getFirstWord ((a ++ r).take n) = getFirstWord a := by
    rw [List.take_append, List.take_of_length_le hn, getFirstWord_append h]
  have hword' : getFirstWord (a.take n) = getFirstWord a := by rw [List.take_of_length_le hn]
  simp only [CHttpRequestLine.parseVersion, hword, hword']
  split
  · rfl
  · split
    · rfl
    · next h8 =>
      have hlt : getFirstWord a < a.length := (getFirstWord_lt a).resolve_right (by omega)
      rw [List.take_append_of_le_length (by omega), readByte_append (by omega),
        List.drop_append_of_le_length (by omega), List.drop_append_of_le_length (by omega),
        List.take_append_of_le_length (by rw [List.length_drop]; omega),
        List.take_append_of_le_length (by rw [List.length_drop]; omega)]

/-- An accepted version has at least eight bytes and white space behind them. -/
theorem le_of_parseVersion {p : Bytes} {n : ℕ} {version : ℤ}
    (h : CHttpRequestLine.parseVersion p n = .ok version) : 9 ≤ n := by
  rw [CHttpRequestLine.parseVersion] at h
  split at h
  · exact absurd h (by simp)
  · split at h
    · exact absurd h (by simp)
    · next h8 =>
      have hlt := (getFirstWord_lt (p.take n)).resolve_right (by omega)
      rw [List.length_take] at hlt
      omega

/-! ## The search for the version -/

theorem strstr_append {a r : Bytes} {pat : Bytes} {k : ℕ} (h : strstr (a ++ r) pat = some k)
    (hk : k + pat.length ≤ a.length) (r' : Bytes) : strstr (a ++ r') pat = some k := by
  unfold strstr at h ⊢
  by_cases hzero : (0 : Byte) ∈ a
  · obtain ⟨b, c, rfl, hb⟩ := List.eq_append_cons_of_mem hzero
    rw [List.append_assoc, List.cons_append, cstr_append_zero hb] at h ⊢
    exact h
  · rw [cstr_append hzero] at h ⊢
    exact findBy_append _ (findBy_of_append h hk)

/-- URI and version that are accepted lie in the rest `q` of the line. -/
theorem parseTarget_append {q R R' : Bytes} (hq : q ≠ [] → LF ∈ q.drop (q.length - 1))
    (hlt : (q ++ R).length < 2 ^ 32 - 1) (hlt' : (q ++ R').length < 2 ^ 32 - 1)
    {x : (Bytes × Bytes × Bytes) × ℤ}
    (h : CHttpRequestLine.parseTarget dm (q ++ R) (q.length + 1) = .ok x) :
    CHttpRequestLine.parseTarget dm (q ++ R') (q.length + 1) = .ok x := by
  have hret : ∀ b : Bool, (if b = true then (.ret cHttpErrInvalidRequestLine :
      Outcome ((Bytes × Bytes × Bytes) × ℤ)) else .ret 0) ≠ .ok x := by
    intro b
    cases b <;> simp
  unfold CHttpRequestLine.parseTarget at h ⊢
  cases hk : strstr (q ++ R) (ascii " HTTP/") with
  | none =>
    simp only [hk] at h
    exact absurd h (hret _)
  | some k =>
    simp only [hk] at h
    split at h
    · exact absurd h (hret _)
    · obtain ⟨uri, huri, h⟩ := Outcome.bind_eq_ok.mp h
      obtain ⟨version, hversion, h⟩ := Outcome.bind_eq_ok.mp h
      have h9 := le_of_parseVersion hversion
      have hne : q ≠ [] := by
        rintro rfl
        rw [List.length_nil] at h9
        omega
      have hspace : ∃ c ∈ q.drop (k + 1), isspace c = true := by
        refine ⟨LF, ?_, rfl⟩
        have hsub : q.drop (q.length - 1) = (q.drop (k + 1)).drop (q.length - 1 - (k + 1)) := by
          rw [List.drop_drop]
          congr 1
          omega
        exact List.mem_of_mem_drop (hsub ▸ hq hne)
      have hpat : (ascii " HTTP/").length = 6 := rfl
      have hk' := strstr_append hk (by omega) R'
      have hdrop : ∀ t : Bytes, (q ++ t).drop (k + 1) = q.drop (k + 1) ++ t := fun t =>
        List.drop_append_of_le_length (by omega)
      have hlen : (q.drop (k + 1)).length ≤ q.length + 1 - k := by
        rw [List.length_drop]
        omega
      rw [parseUri_append (by omega) (by omega) hlt] at huri
      rw [hdrop, parseVersion_append hspace R hlen] at hversion
      simp only [hk']
      rw [if_neg (by omega), parseUri_append (by omega) (by omega) hlt', huri, Outcome.ok_bind,
        hdrop, parseVersion_append hspace R' hlen, hversion, Outcome.ok_bind, h]

/-- Without a line feed there is no request line yet. -/
theorem parseLine_of_notMem {data : Bytes} (h : LF ∉ data) :
    CHttpRequestLine.parseLine dm {} data = .ret 0 := by
  rw [CHttpRequestLine.parseLine, getLine_of_notMem h]
  rfl

/-- The request line of a text that starts with the line `l`, by the rest of that line. -/
theorem parseLine_line {l : Bytes} (hl : LF ∉ l) (rl : CHttpRequestLine) (R : Bytes) :
    rl.parseLine dm (l ++ LF :: R) =
      if getFirstWord (l ++ [LF]) = 0 then .ret cHttpErrInvalidRequestLine
      else match reqTypeOf ((l ++ [LF]).take (getFirstWord (l ++ [LF]))) with
        | none => .ret cHttpErrInvalidRequestLine
        | some reqType =>
          CHttpRequestLine.parseTarget dm ((l ++ [LF]).drop (getFirstWord (l ++ [LF]) + 1) ++ R)
              ((l ++ [LF]).drop (getFirstWord (l ++ [LF]) + 1)).length.succ >>= fun x => .ok
            ({ full := true, line := (l ++ [LF]).take (l.length + 1 - tailLen l), reqType,
               path := x.1.1, file := x.1.2.1, arg := x.1.2.2, ver := x.2,
               urlArgs := splitArgs x.1.2.2 rl.urlArgs }, l.length + 1) := by
  have hdata : l ++ LF :: R = l ++ [LF] ++ R := by rw [List.append_assoc, List.singleton_append]
  have halen : (l ++ [LF]).length = l.length + 1 := by
    rw [List.length_append, List.length_singleton]
  have hget : getLine (l ++ [LF] ++ R) = (l.length + 1, tailLen l) := by
    rw [← hdata]
    exact getLine_line hl R
  have hw : getFirstWord (l ++ [LF]) < l.length + 1 := by
    rcases getFirstWord_lt (l ++ [LF]) with h | h <;> omega
  have htake : ∀ n ≤ l.length + 1, (l ++ [LF] ++ R).take n = (l ++ [LF]).take n := fun n hn =>
    List.take_append_of_le_length (by omega)
  have hwhole : (l ++ [LF]).take (l.length + 1) = l ++ [LF] := List.take_of_length_le (by omega)
  have hdrop : (l ++ [LF] ++ R).drop (getFirstWord (l ++ [LF]) + 1) =
      (l ++ [LF]).drop (getFirstWord (l ++ [LF]) + 1) ++ R :=
    List.drop_append_of_le_length (by omega)
  have hleft : l.length + 1 - getFirstWord (l ++ [LF]) =
      ((l ++ [LF]).drop (getFirstWord (l ++ [LF]) + 1)).length.succ := by
    rw [List.length_drop]
    omega
  rw [hdata]
  simp only [CHttpRequestLine.parseLine, hget, htake _ le_rfl, hwhole, htake _ hw.le, hdrop, hleft,
    htake _ (Nat.sub_le _ _)]
  exact (if_neg (by omega)).trans rfl

/-- **An accepted request line is accepted with the same result before any other bytes.** -/
theorem parseLine_append {l R R' : Bytes} (hl : LF ∉ l) {rl : CHttpRequestLine}
    {x : CHttpRequestLine × ℕ} (hlt : (l ++ LF :: R).length < 2 ^ 32)
    (hlt' : (l ++ LF :: R').length < 2 ^ 32) (h : rl.parseLine dm (l ++ LF :: R) = .ok x) :
    rl.parseLine dm (l ++ LF :: R') = .ok x := by
  rw [parseLine_line hl] at h ⊢
  generalize hw : getFirstWord (l ++ [LF]) = w at *
  split at h
  · exact absurd h (by simp)
  · next hw0 =>
    rw [if_neg hw0]
    cases ht : reqTypeOf ((l ++ [LF]).take w) with
    | none =>
      rw [ht] at h
      exact absurd h (by simp)
    | some reqType =>
      rw [ht] at h
      obtain ⟨y, hy, h⟩ := Outcome.bind_eq_ok.mp h
      have hmethod := (method_plain ht).1
      rw [List.length_take, List.length_append, List.length_singleton] at hmethod
      have hshort : ∀ t : Bytes, (l ++ LF :: t).length < 2 ^ 32 →
          ((l ++ [LF]).drop (w + 1) ++ t).length < 2 ^ 32 - 1 := by
        intro t ht'
        rw [List.length_append, List.length_cons] at ht'
        rw [List.length_append, List.length_drop, List.length_append, List.length_singleton]
        omega
      have hlast : (l ++ [LF]).drop (w + 1) ≠ [] →
          LF ∈ ((l ++ [LF]).drop (w + 1)).drop (((l ++ [LF]).drop (w + 1)).length - 1) := by
        intro hne
        have hpos := List.length_pos_of_ne_nil hne
        rw [List.length_drop, List.length_append, List.length_singleton] at hpos
        rw [List.drop_drop, List.length_drop, List.length_append, List.length_singleton,
          show w + 1 + (l.length + 1 - (w + 1) - 1) = l.length by omega, List.drop_left]
        exact List.mem_singleton_self LF
      simp only
      rw [show ((l ++ [LF]).drop (w + 1)).length.succ =
        ((l ++ [LF]).drop (w + 1)).length + 1 from rfl] at hy ⊢
      rw [parseTarget_append hlast (hshort R hlt) (hshort R' hlt') hy, Outcome.ok_bind, h]

/-- What is accepted in front of a cut is accepted without it. -/
theorem parseLine_of_isPrefix {P data : Bytes} (hP : P <+: data) (hlt : data.length < 2 ^ 32)
    {rl : CHttpRequestLine} {x : CHttpRequestLine × ℕ} (h : rl.parseLine dm P = .ok x) :
    rl.parseLine dm data = .ok x := by
  have hLF : LF ∈ P := by
    by_contra hno
    rw [CHttpRequestLine.parseLine, getLine_of_notMem hno] at h
    exact absurd h (by simp)
  obtain ⟨l, R, hl, rfl⟩ := LF_mem_iff.mp hLF
  have hPlt := hP.length_le.trans_lt hlt
  obtain ⟨Q, rfl⟩ := hP
  rw [List.append_assoc, List.cons_append] at hlt ⊢
  exact parseLine_append hl hPlt hlt h

end HttpCodec
end CModel
