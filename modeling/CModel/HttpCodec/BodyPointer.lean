import CModel.Foundation.Feed
import CModel.HttpCodec.ReqSteps

/-!
# The pointer to the body

`input` points `_body._buf` into the buffer when the header has just become full.  The buffer moves
with every later chunk that brings bytes, and the pointer does not.

* `Stands`: the phase of an object after any bytes whatsoever; `parse_stands` passes it on.
* `BodyInPlace`: the pointer leads to the body, and where the object is complete, to all its bytes.
* `Reached`: the invariant of a run; `reached_of_run`.
* `bodyInPlace_iff`: **the pointer is in place in every state of a run** if and only if no call
  brings bytes to an object whose header is full.
-/

namespace CModel
namespace HttpCodec

open CHttpReq

/-! ## The phase after any bytes -/

/-- The phase of an object when the buffer holds `D`. -/
inductive Stands (D : Bytes) (o : CHttpReq) : Prop
  | idle (ho : Idle o)
  | header {rl : CHttpRequestLine} {h : CHttpHeader} {pos : ℕ} (ho : InHeader rl h pos o)
      (hpos : 0 < pos ∧ pos ≤ D.length)
  | body {rl : CHttpRequestLine} {h : CHttpHeader} {off N : ℕ}
      (ho : InBody rl h off N (D.length - off) o) (hoff : 0 < off ∧ off ≤ D.length)

/-- What a call does to the pointer: once the header is full it stays, and it is set when the
header becomes full. -/
def KeepsPointer (o o' : CHttpReq) : Prop :=
  (o.header.full = true →
    o'.header.full = true ∧ o'.body.buf = o.body.buf ∧ o'.contentOffset = o.contentOffset) ∧
  (o.header.full = false → o'.header.full = true →
    o'.body.buf = o.buf.map fun b => ⟨b, o'.contentOffset⟩)

variable {dm : DataModel} {o o' : CHttpReq} {P D : Bytes} {code : ℤ}

theorem getLine_le (data : Bytes) : (getLine data).1 ≤ data.length := by
  by_cases h : LF ∈ data
  · obtain ⟨l, t, hl, rfl⟩ := LF_mem_iff.mp h
    rw [getLine_line hl, List.length_append, List.length_cons]
    simp only
    omega
  · rw [getLine_of_notMem h]
    exact Nat.zero_le _

/-- A call in the header. -/
theorem parse_stands_header {rl : CHttpRequestLine} {h : CHttpHeader} {pos : ℕ}
    (ho : InHeader rl h pos o) (hpos : 0 < pos ∧ pos ≤ D.length) (hlt : D.length < 2 ^ 32)
    (hr : o.parse dm D = some (code, o')) : Stands D o' ∧ KeepsPointer o o' := by
  obtain ⟨hls, ht⟩ := LF_notMem_splitLines (D.drop pos)
  have hD := (unlines_splitLines (D.drop pos)).symm
  have hopen : o.header.full = false := by rw [ho.header, ho.headerOpen]
  have hle := pos_add_walked_le (h := h) hpos.2 hD
  have hend : 0 < pos + walked h (splitLines (D.drop pos)).1 ∧
      pos + walked h (splitLines (D.drop pos)).1 ≤ D.length :=
    ⟨Nat.add_pos_left hpos.1 _, hle⟩
  cases hw : (walk cMaxHeadLine h (splitLines (D.drop pos)).1).1.full with
  | false =>
    obtain ⟨o₁, ho₁, hin⟩ := parse_inHeader_open dm ho hlt hpos.2 hls ht hD hw
    obtain ⟨-, rfl⟩ : (0 : ℤ) = code ∧ o₁ = o' := by
      rw [ho₁, Option.some.injEq, Prod.mk.injEq] at hr
      exact hr
    refine ⟨.header hin hend, ?_, ?_⟩
    · intro hf
      rw [hopen] at hf
      exact absurd hf (by simp)
    · intro _ hf
      rw [hin.header, hw] at hf
      exact absurd hf (by simp)
  | true =>
    cases hN : contLen (walk cMaxHeadLine h (splitLines (D.drop pos)).1).1 with
    | undefined =>
      rw [parse_inHeader_undefined ho hls ht hD hw hN] at hr
      exact absurd hr (by simp)
    | ret c => exact absurd hN (contLen_ne_ret _ c)
    | ok N =>
      obtain ⟨o₁, ho₁, hin, hbuf⟩ := parse_inHeader_full dm ho hlt hpos.2 hls ht hD hw hN
      obtain ⟨-, rfl⟩ : (0 : ℤ) = code ∧ o₁ = o' := by
        rw [ho₁, Option.some.injEq, Prod.mk.injEq] at hr
        exact hr
      refine ⟨.body hin hend, ?_, ?_⟩
      · intro hf
        rw [hopen] at hf
        exact absurd hf (by simp)
      · intro _ _
        rw [hbuf, hin.contentOffset]

/-- **One call passes the phase on**, whatever the bytes are. -/
theorem parse_stands (hs : Stands P o) (hP : P <+: D) (hlt : D.length < 2 ^ 32)
    (hr : o.parse dm D = some (code, o')) : Stands D o' ∧ KeepsPointer o o' := by
  have hle := hP.length_le
  cases hs with
  | idle ho =>
    have hopen : o.header.full = false := by rw [ho.header]
    cases hline : CHttpRequestLine.parseLine dm {} D with
    | undefined =>
      rw [parse_idle_of_undefined ho hline] at hr
      exact absurd hr (by simp)
    | ret c =>
      rw [parse_idle_of_ret ho hline, Option.some.injEq, Prod.mk.injEq] at hr
      obtain ⟨-, rfl⟩ := hr
      refine ⟨.idle ho, fun hf => ?_, fun _ hf => ?_⟩ <;> rw [hopen] at hf <;>
        exact absurd hf (by simp)
    | ok r =>
      obtain ⟨rl, n⟩ := r
      have hskip := parseLine_skipLen hline
      have hn : 0 < n ∧ n ≤ D.length :=
        ⟨Nat.pos_of_ne_zero hskip.2, hskip.1 ▸ getLine_le D⟩
      obtain ⟨o₁, hparse, hin, hbuf⟩ := parse_idle_of_ok ho (by omega) hline
      rw [hparse] at hr
      obtain ⟨hstands, -, hset⟩ := parse_stands_header hin hn hlt hr
      refine ⟨hstands, ?_, ?_⟩
      · intro hf
        rw [hopen] at hf
        exact absurd hf (by simp)
      · intro _ hf
        rw [← hbuf]
        exact hset (by rw [hin.header]) hf
  | header ho hpos => exact parse_stands_header ho ⟨hpos.1, hpos.2.trans hle⟩ hlt hr
  | @body rl h off N ho hoff =>
    obtain ⟨o₁, ho₁, hin, hbuf⟩ := parse_inBody dm ho
      (show off + (P.length - off) ≤ D.length by omega) hlt
    obtain ⟨-, rfl⟩ : (0 : ℤ) = code ∧ o₁ = o' := by
      rw [ho₁, Option.some.injEq, Prod.mk.injEq] at hr
      exact hr
    have hfull : o.header.full = true := by rw [ho.header, ho.headerFull]
    refine ⟨.body hin ⟨hoff.1, hoff.2.trans hle⟩, fun _ => ⟨?_, hbuf, ?_⟩, ?_⟩
    · rw [hin.header, hin.headerFull]
    · rw [hin.contentOffset, ho.contentOffset]
    · intro hf
      rw [hfull] at hf
      exact absurd hf (by simp)

/-! ## Runs -/

/-- When the header is full, `_body._buf` is `_buf + _content_offset`, and when the object is
complete it leads to the bytes of the body among all bytes `D` so far. -/
def BodyInPlace (D : Bytes) (s : Heap Byte × CHttpReq) : Prop :=
  s.2.header.full = true →
    s.2.body.buf = s.2.buf.map (fun b => ⟨b, s.2.contentOffset⟩) ∧
    (s.2.inited = true → ∃ p, s.2.body.buf = some p ∧
      s.1.read p s.2.body.contentLength =
        some ((D.drop s.2.contentOffset).take s.2.body.contentLength) ∧
      s.2.contentOffset + s.2.body.contentLength ≤ D.length)

/-- What holds of every state of a run. -/
structure Reached (D : Bytes) (s : Heap Byte × CHttpReq) : Prop where
  owns : Owns s.1 s.2 D
  stands : Stands D s.2

theorem reached_fresh : Reached [] CHttpReq.fresh := ⟨owns_fresh, .idle idle_fresh⟩

theorem Stands.withBuffer (hs : Stands D o) (b n : ℕ) : Stands D (o.withBuffer b n) := by
  cases hs with
  | idle ho => exact .idle (ho.withBuffer b n)
  | header ho hpos => exact .header (ho.withBuffer b n) hpos
  | body ho hoff => exact .body (ho.withBuffer b n) hoff

/-- A full header ends behind the first byte. -/
theorem Stands.ne_nil_of_full (hs : Stands D o) (hfull : o.header.full = true) : D ≠ [] := by
  rintro rfl
  cases hs with
  | idle ho =>
    rw [ho.header] at hfull
    exact absurd hfull (by simp)
  | header ho hpos => exact absurd hpos.2 (by simp; omega)
  | body ho hoff => exact absurd hoff.2 (by simp; omega)

section Call

variable {s s' : Heap Byte × CHttpReq} {c : Bytes}

/-- **One call of `input`** keeps the invariant, and the pointer as `KeepsPointer` says; the block
of a buffer that is not empty is replaced exactly if the chunk brings bytes. -/
theorem input_reached (hs : Reached D s) (hr : CHttpReq.input dm s c = some (code, s')) :
    Reached (D ++ c) s' ∧
      (∃ b, s'.2.buf = some b ∧ KeepsPointer (s.2.withBuffer b (D ++ c).length) s'.2) ∧
      (c ≠ [] → D ≠ [] → s.2.buf ≠ s'.2.buf) ∧ (c = [] → D ≠ [] → s.2.buf = s'.2.buf) := by
  have hlt : (D ++ c).length < 2 ^ 32 := by
    by_contra hle
    rw [show s = (s.1, s.2) from rfl, input_of_le dm hs.owns (not_lt.mp hle)] at hr
    exact absurd hr (by simp)
  obtain ⟨h', b, hsome, hnone, hmoved, hsame⟩ := input_of_lt dm hs.owns hlt
  rcases hparse : (s.2.withBuffer b (D ++ c).length).parse dm (D ++ c) with _ | ⟨code₁, o₁⟩
  · rw [show s = (s.1, s.2) from rfl, hnone hparse] at hr
    exact absurd hr (by simp)
  · obtain ⟨hinput, hown⟩ := hsome code₁ o₁ hparse
    rw [show s = (s.1, s.2) from rfl, hinput, Option.some.injEq, Prod.mk.injEq] at hr
    obtain ⟨-, rfl⟩ := hr
    have hbuf : o₁.buf = some b := (parse_memory hparse).1
    obtain ⟨hstands, hkeeps⟩ := parse_stands (hs.stands.withBuffer b _)
      (List.prefix_append D c) hlt hparse
    refine ⟨⟨hown, hstands⟩, ⟨b, hbuf, hkeeps⟩, ?_, ?_⟩
    · intro hc hD
      rw [hbuf]
      exact hmoved hc hD
    · intro hc hD
      rw [hbuf]
      exact hsame hc hD

/-- A pointer into the buffer leads to the body. -/
theorem bodyInPlace_of_pointer (hs : Reached D s)
    (hptr : s.2.header.full = true →
      s.2.body.buf = s.2.buf.map fun b => ⟨b, s.2.contentOffset⟩) : BodyInPlace D s := by
  intro hfull
  refine ⟨hptr hfull, ?_⟩
  intro hinited
  have hD := hs.stands.ne_nil_of_full hfull
  obtain ⟨b, hb, hblock⟩ := hs.owns.block hD
  have hp : s.2.body.buf = some ⟨b, s.2.contentOffset⟩ := by
    rw [hptr hfull, hb]
    rfl
  have hle : s.2.contentOffset + s.2.body.contentLength ≤ D.length := by
    cases hs.stands with
    | idle ho =>
      rw [ho.inited] at hinited
      exact absurd hinited (by simp)
    | header ho hpos =>
      rw [ho.inited] at hinited
      exact absurd hinited (by simp)
    | body ho hoff =>
      rw [ho.inited, decide_eq_true_iff] at hinited
      rw [ho.contentOffset, ho.contentLength]
      omega
  exact ⟨_, hp, Heap.read_of_some (l := D) hblock hle, hle⟩

end Call

theorem reached_of_run {cs : List Bytes} {s : Heap Byte × CHttpReq}
    (h : run (CHttpReq.input dm) CHttpReq.fresh cs = some s) : Reached cs.flatten s :=
  run_invariant (I := Reached) (fun _ _ _ _ _ hs hr => (input_reached hs hr).1) cs []
    CHttpReq.fresh s reached_fresh h

/-- The last call of a run. -/
theorem exists_of_run_concat {pre : List Bytes} {c : Bytes} {s' : Heap Byte × CHttpReq}
    (h : run (CHttpReq.input dm) CHttpReq.fresh (pre ++ [c]) = some s') :
    ∃ s code, run (CHttpReq.input dm) CHttpReq.fresh pre = some s ∧
      CHttpReq.input dm s c = some (code, s') := by
  rw [run_append, Option.bind_eq_some_iff] at h
  obtain ⟨s, hs, h⟩ := h
  rw [run, Option.bind_eq_some_iff] at h
  obtain ⟨⟨code, s₁⟩, hr, h⟩ := h
  rw [run_nil, Option.some.injEq] at h
  exact ⟨s, code, hs, h ▸ hr⟩

/-- The pointer is in place in every state that the calls reach. -/
def InPlaceThroughout (dm : DataModel) (cs : List Bytes) : Prop :=
  ∀ pre, pre <+: cs → ∀ s, run (CHttpReq.input dm) CHttpReq.fresh pre = some s →
    BodyInPlace pre.flatten s

/-- No call that returns brings bytes to an object whose header is full. -/
def NothingBehindHeader (dm : DataModel) (cs : List Bytes) : Prop :=
  ∀ pre c, pre ++ [c] <+: cs → ∀ s, run (CHttpReq.input dm) CHttpReq.fresh pre = some s →
    (CHttpReq.input dm s c).isSome = true → s.2.header.full = true → c = []

/-- Without bytes behind the header the pointer leads into the buffer. -/
theorem pointer_of_nothingBehindHeader {cs : List Bytes} (h : NothingBehindHeader dm cs)
    {pre : List Bytes} (hpre : pre <+: cs) {s : Heap Byte × CHttpReq}
    (hs : run (CHttpReq.input dm) CHttpReq.fresh pre = some s) (hfull : s.2.header.full = true) :
    s.2.body.buf = s.2.buf.map fun b => ⟨b, s.2.contentOffset⟩ := by
  induction pre using List.reverseRecOn generalizing s with
  | nil =>
    rw [run_nil, Option.some.injEq] at hs
    rw [← hs] at hfull
    exact absurd hfull (by simp [CHttpReq.fresh])
  | append_singleton pre c ih =>
    obtain ⟨s₀, code, hs₀, hr⟩ := exists_of_run_concat hs
    have hreached := reached_of_run hs₀
    obtain ⟨-, ⟨b, hb, hkeep, hset⟩, -, hsame⟩ := input_reached hreached hr
    cases hbefore : s₀.2.header.full with
    | false =>
      rw [hset hbefore hfull, hb]
      rfl
    | true =>
      have hc : c = [] := h pre c hpre s₀ hs₀ (by rw [hr]; rfl) hbefore
      obtain ⟨-, hbody, hoff⟩ := hkeep hbefore
      rw [hbody, hoff, ← hsame hc (hreached.stands.ne_nil_of_full hbefore)]
      exact ih ((List.prefix_append pre [c]).trans hpre) hs₀ hbefore

/-- **The pointer to the body is in place in every state of a run** if and only if no call brings
bytes to an object whose header is full: `append_data` moves the buffer at every such call, and
`_body._buf` stays behind in the block that has been deleted. -/
theorem bodyInPlace_iff (dm : DataModel) (cs : List Bytes) :
    InPlaceThroughout dm cs ↔ NothingBehindHeader dm cs := by
  constructor
  · intro h pre c hpre s hs hsome hfull
    by_contra hc
    obtain ⟨⟨code, s'⟩, hr⟩ := Option.isSome_iff_exists.mp hsome
    have hreached := reached_of_run hs
    have hD := hreached.stands.ne_nil_of_full hfull
    obtain ⟨hreached', ⟨b, hb, hkeep, -⟩, hmoved, -⟩ := input_reached hreached hr
    obtain ⟨hfull', hbody, hoff⟩ := hkeep hfull
    have hs' : run (CHttpReq.input dm) CHttpReq.fresh (pre ++ [c]) = some s' := by
      rw [run_append, hs, Option.bind_some, run_cons_of_some _ hr, run_nil]
    have hbefore := (h pre ((List.prefix_append pre [c]).trans hpre) s hs hfull).1
    have hafter := (h (pre ++ [c]) hpre s' hs' hfull').1
    obtain ⟨b₀, hb₀, -⟩ := hreached.owns.block hD
    -- one pointer, two blocks
    rw [hbody] at hafter
    have hsame : s.2.body.buf = s'.2.buf.map fun b => ⟨b, s'.2.contentOffset⟩ := hafter
    rw [hbefore, hb₀, hb, Option.map_some, Option.map_some, Option.some.injEq,
      Ptr.mk.injEq] at hsame
    exact hmoved hc hD (by rw [hb₀, hb, hsame.1])
  · intro h pre hpre s hs
    exact bodyInPlace_of_pointer (reached_of_run hs)
      (pointer_of_nothingBehindHeader h hpre hs)

/-! ## A pointer left behind -/

/-- The two parts of a request whose body comes on its own. -/
def headThenBody : List Bytes :=
  [ascii "GET / HTTP/1.0\r\nContent-Length: 1\r\n\r\n", ascii "x"]

/-- The body that comes in a chunk of its own is looked for in a deleted block. -/
theorem headThenBody_not_inPlace : ¬ InPlaceThroughout .lp64 headThenBody := by
  intro h
  have hrun : (run (CHttpReq.input .lp64) CHttpReq.fresh headThenBody).map (fun s =>
      (s.2.header.full, s.2.inited, s.2.buf, s.2.body.buf, s.2.contentOffset)) =
      some (true, true, some 1, some ⟨0, 37⟩, 37) := by
    decide
  obtain ⟨s, hs, hfields⟩ := Option.map_eq_some_iff.mp hrun
  simp only [Prod.mk.injEq] at hfields
  have hplace := (h headThenBody (List.prefix_refl _) s hs hfields.1).1
  rw [hfields.2.2.1, hfields.2.2.2.1] at hplace
  exact absurd hplace (by simp)

end HttpCodec
end CModel
