import CModel.HttpCodec.BodyPointer

/-!
# The offsets of a request

The buffer, the request line, the header and the body of a `CHttpReq` share offsets that each of
them moves, and each may stop early.

`from_str` returns a local that a blank `Content-Length` leaves unset; here it holds whatever number
it happens to hold, so that a call goes on with it.  What stays undefined are the reads outside of a
URI.

* `CHttpReq.inputWith`: `input` where an unset local holds `unset`; `inputWith_of_input`: it is
  `input` where that is defined.
* `Counts`: how the offsets stand to each other, with a lemma for each stage: `inputReqLine_counts`,
  `inputHeaderWith_counts`, `inputBody_counts`.
* `Accounted`, `run_accounted`: **the accounting of the buffer holds behind every call**, whatever
  it returns.
-/

namespace CModel
namespace HttpCodec

open CHttpReq

/-! ## A local that is unset -/

namespace CHttpReq

/-- The header stage of `input`; the content length is `unset` where `from_str` leaves it so. -/
def inputHeaderWith (unset : ℕ) (o : CHttpReq) (bytes : Bytes) : Option (Stage CHttpReq) :=
  match o.inputHeader bytes with
  | some stage => some stage
  | none =>
    match o.header.infuse (o.pending bytes) with
    | .ok (header, skipLen) =>
      let o := { o with header := header, parsedLen := u32 (o.parsedLen + skipLen) }
      some (.goAhead { o with
        contentOffset := o.parsedLen
        body := { o.body with contentLength := unset
                              buf := o.buf.map fun b => ⟨b, o.parsedLen⟩ } })
    | _ => none

/-- `parse` with that stage. -/
def parseWith (dm : DataModel) (unset : ℕ) (o : CHttpReq) (bytes : Bytes) :
    Option (ℤ × CHttpReq) := do
  match ← o.inputReqLine dm bytes with
  | .done code o => some (code, o)
  | .goAhead o =>
    match ← o.inputHeaderWith unset bytes with
    | .done code o => some (code, o)
    | .goAhead o =>
      match o.inputBody bytes with
      | .done code o => some (code, o)
      | .goAhead o => some (0, { o with inited := true })

/-- `input` with that stage. -/
def inputWith (dm : DataModel) (unset : ℕ) (s : Heap Byte × CHttpReq) (data : Bytes) :
    Option (ℤ × Heap Byte × CHttpReq) := do
  let (h, o) ← s.2.appendData s.1 data
  let b ← o.buf
  let bytes ← h.read ⟨b, 0⟩ o.dataLen
  let (code, o) ← o.parseWith dm unset bytes
  some (code, h, o)

end CHttpReq

variable {dm : DataModel} {unset : ℕ} {o o' : CHttpReq} {D c : Bytes} {code : ℤ}

/-- Where `input` is defined, no local is unset. -/
theorem parseWith_of_parse {r : ℤ × CHttpReq} (hr : o.parse dm D = some r) :
    o.parseWith dm unset D = some r := by
  rw [CHttpReq.parse, Option.bind_eq_bind, Option.bind_eq_some_iff] at hr
  obtain ⟨stage, hline, hr⟩ := hr
  rw [parseWith, hline, Option.bind_eq_bind, Option.bind_some]
  cases stage with
  | done code o₁ => exact hr
  | goAhead o₁ =>
    simp only [Option.bind_eq_some_iff] at hr ⊢
    obtain ⟨stage, hheader, hr⟩ := hr
    exact ⟨stage, by rw [inputHeaderWith, hheader], hr⟩

/-- Where `input` is defined, no local is unset. -/
theorem inputWith_of_input {s : Heap Byte × CHttpReq} {r : ℤ × Heap Byte × CHttpReq}
    (hr : CHttpReq.input dm s c = some r) : CHttpReq.inputWith dm unset s c = some r := by
  simp only [CHttpReq.input, CHttpReq.inputWith, Option.bind_eq_bind,
    Option.bind_eq_some_iff] at hr ⊢
  obtain ⟨a, happ, b, hb, bytes, hread, p, hparse, hr⟩ := hr
  exact ⟨a, happ, b, hb, bytes, hread, p, parseWith_of_parse hparse, hr⟩

/-! ## The offsets -/

/-- How the offsets of an object stand to each other when its buffer holds `L` bytes. -/
structure Counts (L : ℕ) (o : CHttpReq) : Prop where
  parsed_le : o.parsedLen ≤ L
  header_open : o.reqLine.full = false → o.header.full = false
  infused_zero : o.header.full = false → o.body.infusedLength = 0
  infused_le : o.body.infusedLength ≤ o.body.contentLength
  parsed_eq : o.header.full = true → o.parsedLen = o.contentOffset + o.body.infusedLength

/-- The object that a stage leaves. -/
def Stage.object {σ : Type} : Stage σ → σ
  | .done _ s => s
  | .goAhead s => s

theorem length_pending (o : CHttpReq) (D : Bytes) :
    (o.pending D).length = D.length - o.parsedLen := by
  rw [pending, List.length_drop]

/-- What is skipped of the bytes that are left stays in the buffer. -/
theorem Counts.skip (ho : Counts D.length o) (hlt : D.length < 2 ^ 32) {n : ℕ}
    (hn : n ≤ (o.pending D).length) :
    u32 (o.parsedLen + n) = o.parsedLen + n ∧ o.parsedLen + n ≤ D.length := by
  have hle := ho.parsed_le
  rw [length_pending] at hn
  exact ⟨u32_of_lt (by omega), by omega⟩

/-- **The request line** skips no more than there is. -/
theorem inputReqLine_counts {stage : Stage CHttpReq} (ho : Counts D.length o)
    (hlt : D.length < 2 ^ 32) (hr : o.inputReqLine dm D = some stage) :
    Counts D.length stage.object ∧
      ((∃ o₁, stage = .goAhead o₁) → stage.object.reqLine.full = true) := by
  rw [inputReqLine] at hr
  by_cases hfull : o.reqLine.full = true
  · rw [if_pos hfull, Option.some.injEq] at hr
    subst hr
    exact ⟨ho, fun _ => hfull⟩
  · rw [if_neg hfull, CHttpRequestLine.infuse, if_neg hfull] at hr
    have hopen := ho.header_open (by simpa using hfull)
    rcases hline : o.reqLine.parseLine dm (o.pending D) with _ | code | ⟨rl, n⟩ <;>
      rw [hline] at hr <;> simp only at hr
    · exact absurd hr (by simp)
    · obtain ⟨hskip, -⟩ := ho.skip hlt (Nat.zero_le _)
      rw [hskip, Nat.add_zero, if_neg hfull] at hr
      split at hr <;> obtain rfl := Option.some.inj hr <;>
        exact ⟨ho, fun h₀ => absurd h₀ (by simp)⟩
    · obtain ⟨hn, -⟩ := parseLine_skipLen hline
      obtain ⟨hskip, hle⟩ := ho.skip hlt (hn.trans_le (getLine_le _))
      have hrl := parseLine_full hline
      rw [if_neg (by simp), if_pos hrl, hskip, Option.some.injEq] at hr
      subst hr
      exact ⟨⟨hle, fun h0 => absurd (hrl.symm.trans h0) (by simp), ho.infused_zero, ho.infused_le,
        fun h0 => absurd (hopen.symm.trans h0) (by simp)⟩, fun _ => hrl⟩

/-- The lines that one call of `CHttpHeader::infuse` takes, a rejected one among them, are no more
than there is. -/
theorem infuseFrom_le {n skipLen skipLen' : ℕ} {h h' : CHttpHeader} {p : Bytes}
    (hr : CHttpHeader.infuseFrom n h p skipLen = .ok (h', skipLen')) :
    skipLen' ≤ skipLen + p.length := by
  induction n generalizing h p skipLen with
  | zero =>
    rw [CHttpHeader.infuseFrom, Outcome.ok.injEq, Prod.mk.injEq] at hr
    omega
  | succ n ih =>
    have hle := getLine_le p
    rw [CHttpHeader.infuseFrom] at hr
    simp only at hr
    split at hr
    · rw [Outcome.ok.injEq, Prod.mk.injEq] at hr
      omega
    · split at hr
      · rw [Outcome.ok.injEq, Prod.mk.injEq] at hr
        omega
      · split at hr
        · exact absurd hr (by simp)
        · rw [Outcome.ok.injEq, Prod.mk.injEq] at hr
          omega
        · have hrest := ih hr
          rw [List.length_drop] at hrest
          omega

/-- The object behind the header lines of a call. -/
theorem Counts.header (ho : Counts D.length o) (hlt : D.length < 2 ^ 32)
    (hline : o.reqLine.full = true) (hopen : o.header.full = false) {header : CHttpHeader} {n : ℕ}
    (hr : o.header.infuse (o.pending D) = .ok (header, n)) :
    u32 (o.parsedLen + n) = o.parsedLen + n ∧
      (header.full = false →
        Counts D.length { o with header := header, parsedLen := o.parsedLen + n }) ∧
      ∀ b N, Counts D.length { o with
        header := header, parsedLen := o.parsedLen + n, contentOffset := o.parsedLen + n
        body := { o.body with contentLength := N, buf := b } } := by
  have hn := infuseFrom_le hr
  rw [Nat.zero_add] at hn
  obtain ⟨hskip, hle⟩ := ho.skip hlt hn
  have hzero := ho.infused_zero hopen
  refine ⟨hskip, fun hfull => ⟨hle, fun _ => hfull, fun _ => hzero, ho.infused_le, ?_⟩,
    fun b N => ⟨hle, ?_, fun _ => hzero, ?_, ?_⟩⟩
  · intro h0
    exact absurd (hfull.symm.trans h0) (by simp)
  · intro h0
    exact absurd (hline.symm.trans h0) (by simp)
  · show o.body.infusedLength ≤ N
    omega
  · intro _
    show o.parsedLen + n = o.parsedLen + n + o.body.infusedLength
    omega

/-- **The header** skips no more than there is, and the body starts behind what it has taken. -/
theorem inputHeaderWith_counts {stage : Stage CHttpReq} (ho : Counts D.length o)
    (hlt : D.length < 2 ^ 32) (hline : o.reqLine.full = true)
    (hr : o.inputHeaderWith unset D = some stage) :
    Counts D.length stage.object ∧
      ((∃ o₁, stage = .goAhead o₁) → stage.object.header.full = true) := by
  rw [inputHeaderWith, inputHeader] at hr
  by_cases hfull : o.header.full = true
  · rw [if_pos hfull, Option.some.injEq] at hr
    subst hr
    exact ⟨ho, fun _ => hfull⟩
  · rw [if_neg hfull] at hr
    rcases hinfuse : o.header.infuse (o.pending D) with _ | code | ⟨header, n⟩ <;>
      rw [hinfuse] at hr <;> simp only at hr
    · exact absurd hr (by simp)
    · obtain rfl := Option.some.inj hr
      exact ⟨ho, fun h₀ => absurd h₀ (by simp)⟩
    · obtain ⟨hskip, hpart, hbody⟩ := ho.header hlt hline (by simpa using hfull) hinfuse
      rw [hskip] at hr
      by_cases hpartial : header.full = false
      · rw [if_pos hpartial] at hr
        obtain rfl := Option.some.inj hr
        exact ⟨hpart hpartial, fun h₀ => absurd h₀ (by simp)⟩
      · rw [if_neg hpartial] at hr
        have hheader : header.full = true := by simpa using hpartial
        rcases hlen : contLen header with _ | code | N <;> rw [hlen] at hr <;> simp only at hr
        · obtain rfl := Option.some.inj hr
          exact ⟨hbody _ _, fun _ => hheader⟩
        · exact absurd hlen (contLen_ne_ret header code)
        · obtain rfl := Option.some.inj hr
          exact ⟨hbody _ _, fun _ => hheader⟩

/-- **The body** takes what there is, up to its length. -/
theorem inputBody_counts (ho : Counts D.length o) (hlt : D.length < 2 ^ 32)
    (hfull : o.header.full = true) : Counts D.length (o.inputBody D).object := by
  have hle := ho.parsed_le
  have heq := ho.parsed_eq hfull
  have hinfused := ho.infused_le
  have hpending := length_pending o D
  rw [inputBody]
  by_cases hbody : o.body.full = true
  · rw [if_pos hbody]
    exact ho
  · have hsum : u32 ((o.pending D).length + o.body.infusedLength) =
        (o.pending D).length + o.body.infusedLength := u32_of_lt (by omega)
    have hkeep : ∀ n k, o.parsedLen + n ≤ D.length → o.body.infusedLength + n = k →
        k ≤ o.body.contentLength → Counts D.length { o with
          body := { o.body with infusedLength := k }, parsedLen := u32 (o.parsedLen + n) } := by
      intro n k hn hk hlen
      rw [u32_of_lt (by omega)]
      refine ⟨hn, ho.header_open, fun h0 => absurd (hfull.symm.trans h0) (by simp), hlen, ?_⟩
      intro _
      show o.parsedLen + n = o.contentOffset + k
      omega
    rw [if_neg hbody, CReqBody.infuse, hsum]
    by_cases hfits : (o.pending D).length + o.body.infusedLength ≤ o.body.contentLength
    · rw [if_pos hfits]
      have hcount := hkeep (o.pending D).length
        (u32 (o.body.infusedLength + (o.pending D).length)) (by omega)
        (by rw [u32_of_lt (by omega)]) (by rw [u32_of_lt (by omega)]; omega)
      simp only
      split <;> exact hcount
    · rw [if_neg hfits]
      have hcount := hkeep (o.body.contentLength - o.body.infusedLength) o.body.contentLength
        (by omega) (by omega) le_rfl
      simp only
      split <;> exact hcount

/-! ## One call -/

/-- How far a call comes. -/
theorem parseWith_cases (hr : o.parseWith dm unset D = some (code, o')) :
    (∃ stage, o.inputReqLine dm D = some stage ∧ stage.object = o') ∨
      ∃ o₁, o.inputReqLine dm D = some (.goAhead o₁) ∧
        ((∃ stage, o₁.inputHeaderWith unset D = some stage ∧ stage.object = o') ∨
          ∃ o₂, o₁.inputHeaderWith unset D = some (.goAhead o₂) ∧
            ((o₂.inputBody D).object = o' ∨
              { (o₂.inputBody D).object with inited := true } = o')) := by
  rw [parseWith, Option.bind_eq_bind, Option.bind_eq_some_iff] at hr
  obtain ⟨stage, hline, hr⟩ := hr
  cases stage with
  | done code₁ o₁ =>
    simp only [Option.some.injEq, Prod.mk.injEq] at hr
    exact Or.inl ⟨_, hline, hr.2⟩
  | goAhead o₁ =>
    simp only [Option.bind_eq_some_iff] at hr
    obtain ⟨stage, hheader, hr⟩ := hr
    refine Or.inr ⟨o₁, hline, ?_⟩
    cases stage with
    | done code₂ o₂ =>
      simp only [Option.some.injEq, Prod.mk.injEq] at hr
      exact Or.inl ⟨_, hheader, hr.2⟩
    | goAhead o₂ =>
      refine Or.inr ⟨o₂, hheader, ?_⟩
      simp only at hr
      rcases hbody : o₂.inputBody D with ⟨code₃, o₃⟩ | o₃ <;> rw [hbody] at hr <;>
        simp only [Option.some.injEq, Prod.mk.injEq] at hr
      · exact Or.inl hr.2
      · exact Or.inr hr.2

/-- **The stages of a call keep the offsets**, whatever it returns. -/
theorem parseWith_counts (ho : Counts D.length o) (hlt : D.length < 2 ^ 32)
    (hr : o.parseWith dm unset D = some (code, o')) : Counts D.length o' := by
  rcases parseWith_cases hr with ⟨stage, hline, rfl⟩ | ⟨o₁, hline, hr⟩
  · exact (inputReqLine_counts ho hlt hline).1
  · obtain ⟨ho₁, hfull₁⟩ := inputReqLine_counts ho hlt hline
    have hline₁ : o₁.reqLine.full = true := hfull₁ ⟨o₁, rfl⟩
    rcases hr with ⟨stage, hheader, rfl⟩ | ⟨o₂, hheader, hr⟩
    · exact (inputHeaderWith_counts ho₁ hlt hline₁ hheader).1
    · obtain ⟨ho₂, hfull₂⟩ := inputHeaderWith_counts ho₁ hlt hline₁ hheader
      have hcount := inputBody_counts ho₂ hlt (hfull₂ ⟨o₂, rfl⟩)
      rcases hr with rfl | rfl
      · exact hcount
      · exact ⟨hcount.1, hcount.2, hcount.3, hcount.4, hcount.5⟩

/-- The buffer is the same, and so is its length. -/
structure SameBuffer (o o' : CHttpReq) : Prop where
  buf : o'.buf = o.buf
  bufSize : o'.bufSize = o.bufSize
  dataLen : o'.dataLen = o.dataLen

theorem SameBuffer.trans {o₁ o₂ : CHttpReq} (h₁ : SameBuffer o o₁) (h₂ : SameBuffer o₁ o₂) :
    SameBuffer o o₂ :=
  ⟨h₂.1.trans h₁.1, h₂.2.trans h₁.2, h₂.3.trans h₁.3⟩

theorem inputReqLine_sameBuffer {stage : Stage CHttpReq} (hr : o.inputReqLine dm D = some stage) :
    SameBuffer o stage.object := by
  cases stage with
  | done code o₁ =>
    obtain ⟨h₁, h₂, h₃⟩ := inputReqLine_memory (Or.inr hr)
    exact ⟨h₁, h₂, h₃⟩
  | goAhead o₁ =>
    obtain ⟨h₁, h₂, h₃⟩ := inputReqLine_memory (z := 0) (Or.inl hr)
    exact ⟨h₁, h₂, h₃⟩

theorem inputHeaderWith_sameBuffer {stage : Stage CHttpReq}
    (hr : o.inputHeaderWith unset D = some stage) : SameBuffer o stage.object := by
  rw [inputHeaderWith] at hr
  rcases hheader : o.inputHeader D with _ | stage₁ <;> rw [hheader] at hr <;> simp only at hr
  · split at hr
    · obtain rfl := Option.some.inj hr
      exact ⟨rfl, rfl, rfl⟩
    · exact absurd hr (by simp)
  · obtain rfl := Option.some.inj hr
    cases stage₁ with
    | done code o₁ =>
      obtain ⟨h₁, h₂, h₃⟩ := inputHeader_memory (Or.inr hheader)
      exact ⟨h₁, h₂, h₃⟩
    | goAhead o₁ =>
      obtain ⟨h₁, h₂, h₃⟩ := inputHeader_memory (z := 0) (Or.inl hheader)
      exact ⟨h₁, h₂, h₃⟩

theorem inputBody_sameBuffer (o : CHttpReq) (D : Bytes) : SameBuffer o (o.inputBody D).object := by
  rcases hbody : o.inputBody D with ⟨code, o₁⟩ | o₁
  · obtain ⟨h₁, h₂, h₃⟩ := inputBody_memory (Or.inr hbody)
    exact ⟨h₁, h₂, h₃⟩
  · obtain ⟨h₁, h₂, h₃⟩ := inputBody_memory (z := 0) (Or.inl hbody)
    exact ⟨h₁, h₂, h₃⟩

/-- The stages of a call leave the buffer alone. -/
theorem parseWith_sameBuffer (hr : o.parseWith dm unset D = some (code, o')) : SameBuffer o o' := by
  rcases parseWith_cases hr with ⟨stage, hline, rfl⟩ | ⟨o₁, hline, hr⟩
  · exact inputReqLine_sameBuffer hline
  · have h₁ : SameBuffer o o₁ := inputReqLine_sameBuffer hline
    rcases hr with ⟨stage, hheader, rfl⟩ | ⟨o₂, hheader, hr⟩
    · exact h₁.trans (inputHeaderWith_sameBuffer hheader)
    · have h₂ : SameBuffer o₁ o₂ := inputHeaderWith_sameBuffer hheader
      have h₃ := inputBody_sameBuffer o₂ D
      rcases hr with rfl | rfl
      · exact (h₁.trans h₂).trans h₃
      · exact (h₁.trans h₂).trans ⟨h₃.1, h₃.2, h₃.3⟩

/-! ## Runs -/

/-- The object owns the bytes so far, and its offsets stand as they should. -/
structure CountsOwned (D : Bytes) (s : Heap Byte × CHttpReq) : Prop where
  owns : Owns s.1 s.2 D
  counts : Counts D.length s.2

theorem countsOwned_fresh : CountsOwned [] CHttpReq.fresh :=
  ⟨owns_fresh, Nat.zero_le _, fun _ => rfl, fun _ => rfl, Nat.zero_le _,
    fun h0 => absurd h0 (by simp [fresh])⟩

/-- **A call of `input`** keeps the bytes and the offsets. -/
theorem inputWith_countsOwned {s s' : Heap Byte × CHttpReq} (hs : CountsOwned D s)
    (hr : CHttpReq.inputWith dm unset s c = some (code, s')) : CountsOwned (D ++ c) s' := by
  have hlt : (D ++ c).length < 2 ^ 32 := by
    by_contra hle
    simp only [inputWith, appendData_of_le hs.owns (not_lt.mp hle), Option.bind_eq_bind,
      Option.bind_none] at hr
    exact absurd hr (by simp)
  obtain ⟨h', b, happ, hblock, -, -⟩ := appendData_of_lt hs.owns hlt
  have hread : h'.read ⟨b, 0⟩ (D ++ c).length = some (D ++ c) := by
    rw [Heap.read_of_some (l := D ++ c) hblock (by simp)]
    simp
  have hcounts := hs.counts
  have hstart : Counts (D ++ c).length (s.2.withBuffer b (D ++ c).length) := by
    refine ⟨?_, hcounts.2, hcounts.3, hcounts.4, hcounts.5⟩
    show s.2.parsedLen ≤ (D ++ c).length
    have hle := hcounts.parsed_le
    rw [List.length_append]
    omega
  simp only [inputWith, happ, Option.bind_eq_bind, Option.bind_some, withBuffer, hread,
    Option.bind_eq_some_iff] at hr
  obtain ⟨⟨code', o'⟩, hparse, hr⟩ := hr
  simp only [Option.some.injEq, Prod.mk.injEq] at hr
  obtain ⟨-, rfl⟩ := hr
  have hsame := parseWith_sameBuffer hparse
  exact ⟨⟨hsame.dataLen, hsame.bufSize, hlt, fun _ => ⟨b, hsame.buf, hblock⟩⟩,
    parseWith_counts hstart hlt hparse⟩

/-- The accounting of the buffer when the chunks so far are `D`. -/
structure Accounted (D : Bytes) (s : Heap Byte × CHttpReq) : Prop where
  parsed_le : s.2.parsedLen ≤ s.2.dataLen
  data_le : s.2.dataLen ≤ s.2.bufSize
  holds : D ≠ [] → ∃ b, s.2.buf = some b ∧ s.1.read ⟨b, 0⟩ s.2.dataLen = some D
  infused_le : s.2.body.infusedLength ≤ s.2.body.contentLength
  parsed_eq : s.2.header.full = true →
    s.2.parsedLen = s.2.contentOffset + s.2.body.infusedLength

theorem CountsOwned.accounted {s : Heap Byte × CHttpReq} (hs : CountsOwned D s) :
    Accounted D s where
  parsed_le := by
    rw [hs.owns.dataLen]
    exact hs.counts.parsed_le
  data_le := by rw [hs.owns.dataLen, hs.owns.bufSize]
  holds := fun hD => by
    obtain ⟨b, hb, hblock⟩ := hs.owns.block hD
    refine ⟨b, hb, ?_⟩
    rw [Heap.read_of_some (l := D) hblock (by rw [hs.owns.dataLen]; simp), hs.owns.dataLen]
    simp
  infused_le := hs.counts.infused_le
  parsed_eq := hs.counts.parsed_eq

/-- **The accounting of the buffer**: behind any calls of `input` on a fresh object, whatever they
return, no more is parsed than has come in and no more has come in than the buffer is large, it
holds all chunks one behind the other, the body has no more than its length, and with a full header
the parsed bytes are those in front of the body and those of it. -/
theorem run_accounted (dm : DataModel) (unset : ℕ) {cs : List Bytes} {s : Heap Byte × CHttpReq}
    (hr : run (CHttpReq.inputWith dm unset) CHttpReq.fresh cs = some s) :
    Accounted cs.flatten s :=
  (run_invariant (I := CountsOwned) (fun _ _ _ _ _ hs hc => inputWith_countsOwned hs hc) cs []
    CHttpReq.fresh s countsOwned_fresh hr).accounted

/-- A request in three chunks, with more than its body in the last. -/
theorem run_accounted_chunks :
    ∃ s, run (CHttpReq.inputWith .lp64 7) CHttpReq.fresh
        [ascii "GET /?a HTTP/1.1\r\nContent-Len", ascii "gth: 2\r\n\r\nx", ascii "yz"] = some s ∧
      Accounted (ascii "GET /?a HTTP/1.1\r\nContent-Length: 2\r\n\r\nxyz") s := by
  obtain ⟨s, hs⟩ := Option.isSome_iff_exists.mp (show (run (CHttpReq.inputWith .lp64 7)
    CHttpReq.fresh [ascii "GET /?a HTTP/1.1\r\nContent-Len", ascii "gth: 2\r\n\r\nx",
      ascii "yz"]).isSome = true by decide)
  exact ⟨s, hs, run_accounted .lp64 7 hs⟩

end HttpCodec
end CModel
