import CModel.HttpCodec.HeadLines
import CModel.HttpCodec.ReqMemory

/-!
# What one call of `input` does

The object is in one of three phases: `Idle` in front of the request line, `InHeader` between two
header lines, `InBody` behind the header.  Each theorem takes the object, the bytes of its buffer
and the phase to the phase after the call.

* `parse_idle_of_ret`, `parse_idle_of_undefined`, `parse_idle_of_ok`: the request line.
* `parse_inHeader_open`, `parse_inHeader_full`, `parse_inHeader_undefined`: the header, in terms of
  the `walk` over the complete lines that follow.
* `parse_inBody`: the body, of which `min N n` bytes are in when `n` bytes follow the header.
-/

namespace CModel
namespace HttpCodec

open CHttpReq

/-! ## Phases -/

/-- Nothing has been taken yet. -/
structure Idle (o : CHttpReq) : Prop where
  reqLine : o.reqLine = {}
  header : o.header = {}
  parsedLen : o.parsedLen = 0
  inited : o.inited = false
  contentLength : o.body.contentLength = 0xffffffff
  infusedLength : o.body.infusedLength = 0

/-- The request line is `rl`, and header lines up to offset `pos` have been taken. -/
structure InHeader (rl : CHttpRequestLine) (h : CHttpHeader) (pos : ℕ) (o : CHttpReq) : Prop where
  lineFull : rl.full = true
  headerOpen : h.full = false
  reqLine : o.reqLine = rl
  header : o.header = h
  parsedLen : o.parsedLen = pos
  inited : o.inited = false
  contentLength : o.body.contentLength = 0xffffffff
  infusedLength : o.body.infusedLength = 0

/-- The header is full and ends at `off`, it announces `N` bytes, and `n` bytes follow it. -/
structure InBody (rl : CHttpRequestLine) (h : CHttpHeader) (off N n : ℕ) (o : CHttpReq) :
    Prop where
  lineFull : rl.full = true
  headerFull : h.full = true
  reqLine : o.reqLine = rl
  header : o.header = h
  contentOffset : o.contentOffset = off
  parsedLen : o.parsedLen = off + min N n
  contentLength : o.body.contentLength = N
  infusedLength : o.body.infusedLength = min N n
  inited : o.inited = decide (N ≤ n)

/-- `from_str` has no return code of its own. -/
theorem contLen_ne_ret (h : CHttpHeader) (code : ℤ) : contLen h ≠ .ret code := by
  unfold contLen fromStrUnsigned
  simp only
  split
  · simp
  · split <;> simp

theorem idle_fresh : Idle CHttpReq.fresh.2 := ⟨rfl, rfl, rfl, rfl, rfl, rfl⟩

theorem Idle.withBuffer {o : CHttpReq} (h : Idle o) (b n : ℕ) : Idle (o.withBuffer b n) :=
  ⟨h.1, h.2, h.3, h.4, h.5, h.6⟩

theorem InHeader.withBuffer {rl : CHttpRequestLine} {h : CHttpHeader} {pos : ℕ} {o : CHttpReq}
    (ho : InHeader rl h pos o) (b n : ℕ) : InHeader rl h pos (o.withBuffer b n) :=
  ⟨ho.1, ho.2, ho.3, ho.4, ho.5, ho.6, ho.7, ho.8⟩

theorem InBody.withBuffer {rl : CHttpRequestLine} {h : CHttpHeader} {off N k : ℕ} {o : CHttpReq}
    (ho : InBody rl h off N k o) (b n : ℕ) : InBody rl h off N k (o.withBuffer b n) :=
  ⟨ho.1, ho.2, ho.3, ho.4, ho.5, ho.6, ho.7, ho.8, ho.9⟩

variable {dm : DataModel} {o : CHttpReq} {D : Bytes}

/-! ## The request line -/

theorem parseLine_full {rl rl' : CHttpRequestLine} {n : ℕ}
    (h : rl.parseLine dm D = .ok (rl', n)) : rl'.full = true := by
  unfold CHttpRequestLine.parseLine at h
  simp only at h
  split at h
  · exact absurd h (by simp)
  · split at h
    · exact absurd h (by simp)
    · split at h
      · exact absurd h (by simp)
      · obtain ⟨⟨⟨path, file, arg⟩, version⟩, -, h⟩ := Outcome.bind_eq_ok.mp h
        simp only [Outcome.ok.injEq, Prod.mk.injEq] at h
        rw [← h.1]

/-- The number of bytes a request line takes is the length of the first line. -/
theorem parseLine_skipLen {rl rl' : CHttpRequestLine} {n : ℕ}
    (h : rl.parseLine dm D = .ok (rl', n)) : n = (getLine D).1 ∧ n ≠ 0 := by
  unfold CHttpRequestLine.parseLine at h
  simp only at h
  split at h
  · exact absurd h (by simp)
  · next hn =>
    split at h
    · exact absurd h (by simp)
    · split at h
      · exact absurd h (by simp)
      · obtain ⟨⟨⟨path, file, arg⟩, version⟩, -, h⟩ := Outcome.bind_eq_ok.mp h
        simp only [Outcome.ok.injEq, Prod.mk.injEq] at h
        rw [← h.2]
        exact ⟨rfl, hn⟩

/-- **A request line that is refused, or has not ended, leaves the object as it is.** -/
theorem parse_idle_of_ret (ho : Idle o) {code : ℤ}
    (h : CHttpRequestLine.parseLine dm {} D = .ret code) : o.parse dm D = some (code, o) := by
  have hpending : o.pending D = D := by rw [pending, ho.parsedLen, List.drop_zero]
  have hinfuse : o.reqLine.infuse dm (o.pending D) = some (code, o.reqLine, 0) := by
    rw [hpending, ho.reqLine, CHttpRequestLine.infuse, if_neg Bool.false_ne_true, h]
  have hfull : o.reqLine.full = false := by rw [ho.reqLine]
  have hu : u32 o.parsedLen = o.parsedLen := by rw [ho.parsedLen]; rfl
  have hline : o.inputReqLine dm D = some (.done code o) := by
    by_cases hcode : code = 0
    · subst hcode
      simp [inputReqLine, hfull, hinfuse, hu]
    · simp [inputReqLine, hfull, hinfuse, hcode]
  simp only [CHttpReq.parse, hline, Option.bind_eq_bind, Option.bind_some]

theorem parse_idle_of_undefined (ho : Idle o)
    (h : CHttpRequestLine.parseLine dm {} D = .undefined) : o.parse dm D = none := by
  have hpending : o.pending D = D := by rw [pending, ho.parsedLen, List.drop_zero]
  have hinfuse : o.reqLine.infuse dm (o.pending D) = none := by
    rw [hpending, ho.reqLine, CHttpRequestLine.infuse, if_neg Bool.false_ne_true, h]
  have hfull : o.reqLine.full = false := by rw [ho.reqLine]
  have hline : o.inputReqLine dm D = none := by
    simp [inputReqLine, hfull, hinfuse]
  simp only [CHttpReq.parse, hline, Option.bind_eq_bind, Option.bind_none]

/-- **An accepted request line is followed by the header in the same call.** -/
theorem parse_idle_of_ok (ho : Idle o) {rl : CHttpRequestLine} {n : ℕ} (hn : n < 2 ^ 32)
    (h : CHttpRequestLine.parseLine dm {} D = .ok (rl, n)) :
    ∃ o₁, o.parse dm D = o₁.parse dm D ∧ InHeader rl {} n o₁ ∧ o₁.buf = o.buf := by
  have hpending : o.pending D = D := by rw [pending, ho.parsedLen, List.drop_zero]
  have hinfuse : o.reqLine.infuse dm (o.pending D) = some (0, rl, n) := by
    rw [hpending, ho.reqLine, CHttpRequestLine.infuse, if_neg Bool.false_ne_true, h]
  have hfull : o.reqLine.full = false := by rw [ho.reqLine]
  have hrl : rl.full = true := parseLine_full h
  have hu : u32 (o.parsedLen + n) = n := by
    rw [ho.parsedLen, Nat.zero_add, u32_of_lt hn]
  have hline : o.inputReqLine dm D =
      some (.goAhead { o with reqLine := rl, parsedLen := n }) := by
    simp [inputReqLine, hfull, hinfuse, hrl, hu]
  refine ⟨{ o with reqLine := rl, parsedLen := n }, ?_,
    ⟨hrl, rfl, rfl, ho.header, rfl, ho.inited, ho.contentLength, ho.infusedLength⟩, rfl⟩
  have hahead : ({ o with reqLine := rl, parsedLen := n } : CHttpReq).inputReqLine dm D =
      some (.goAhead { o with reqLine := rl, parsedLen := n }) := by
    simp [inputReqLine, hrl]
  simp only [CHttpReq.parse, hline, hahead]

/-! ## The header -/

section Header

variable {rl : CHttpRequestLine} {h : CHttpHeader} {pos : ℕ} {ls : List Bytes} {t : Bytes}

/-- The bytes that `walk` takes. -/
def walked (h : CHttpHeader) (ls : List Bytes) : ℕ :=
  (unlines (ls.take (walk cMaxHeadLine h ls).2)).length

theorem walked_le (h : CHttpHeader) (ls : List Bytes) : walked h ls ≤ (unlines ls).length := by
  rw [walked]
  conv_rhs => rw [← List.take_append_drop (walk cMaxHeadLine h ls).2 ls, unlines_append,
    List.length_append]
  exact Nat.le_add_right _ _

/-- The header part of a call is the walk over the complete lines behind `pos`. -/
theorem infuse_inHeader (ho : InHeader rl h pos o) (hls : ∀ l ∈ ls, LF ∉ l) (ht : LF ∉ t)
    (hD : D.drop pos = unlines ls ++ t) :
    o.header.infuse (o.pending D) = .ok ((walk cMaxHeadLine h ls).1, walked h ls) := by
  rw [pending, ho.parsedLen, hD, ho.header, CHttpHeader.infuse, infuseFrom_eq_walk hls ht,
    Nat.zero_add]
  rfl

theorem pos_add_walked_le (hpos : pos ≤ D.length) (hD : D.drop pos = unlines ls ++ t) :
    pos + walked h ls ≤ D.length := by
  have hlen := congrArg List.length hD
  rw [List.length_drop, List.length_append] at hlen
  have hle := walked_le h ls
  omega

variable (dm) in
/-- **Complete lines without an empty one** move the object further in the header. -/
theorem parse_inHeader_open (ho : InHeader rl h pos o) (hlt : D.length < 2 ^ 32)
    (hpos : pos ≤ D.length) (hls : ∀ l ∈ ls, LF ∉ l) (ht : LF ∉ t)
    (hD : D.drop pos = unlines ls ++ t) (hw : (walk cMaxHeadLine h ls).1.full = false) :
    ∃ o', o.parse dm D = some (0, o') ∧
      InHeader rl (walk cMaxHeadLine h ls).1 (pos + walked h ls) o' := by
  have hinfuse := infuse_inHeader ho hls ht hD
  have hle := pos_add_walked_le (h := h) hpos hD
  have hu : u32 (o.parsedLen + walked h ls) = pos + walked h ls := by
    rw [ho.parsedLen, u32_of_lt (by omega)]
  have hline : o.inputReqLine dm D = some (.goAhead o) := by
    simp [inputReqLine, ho.reqLine, ho.lineFull]
  have hopen : o.header.full = false := by rw [ho.header, ho.headerOpen]
  refine ⟨{ o with header := (walk cMaxHeadLine h ls).1, parsedLen := pos + walked h ls }, ?_,
    ⟨ho.lineFull, hw, ho.reqLine, rfl, rfl, ho.inited, ho.contentLength, ho.infusedLength⟩⟩
  simp [CHttpReq.parse, hline, inputHeader, hopen, hinfuse, hu, hw]

/-- The object when the header has just ended at `off`. -/
def CHttpReq.withHeader (o : CHttpReq) (h : CHttpHeader) (off N : ℕ) : CHttpReq :=
  { o with header := h, parsedLen := off, contentOffset := off,
           body := { o.body with contentLength := N, buf := o.buf.map fun b => ⟨b, off⟩ } }

/-- The object with `n` bytes behind the header. -/
def CHttpReq.withBody (o : CHttpReq) (off N n : ℕ) : CHttpReq :=
  { o with body := { o.body with infusedLength := min N n }, parsedLen := off + min N n }

/-- The body part of a call takes what is there, up to the length announced. -/
theorem inputBody_of_le (off N n : ℕ) (hN : o.body.contentLength = N)
    (hi : o.body.infusedLength = min N n) (hp : o.parsedLen = off + min N n)
    (hle : off + n ≤ D.length) (hlt : D.length < 2 ^ 32) :
    o.inputBody D = if N ≤ D.length - off then .goAhead (o.withBody off N (D.length - off))
      else .done 0 (o.withBody off N (D.length - off)) := by
  by_cases hfull : N ≤ n
  · -- full already: nothing changes
    have hsame : o.withBody off N (D.length - off) = o := by
      have hmin : min N (D.length - off) = o.body.infusedLength := by rw [hi]; omega
      rw [withBody, hmin]
      have hp' : off + o.body.infusedLength = o.parsedLen := by rw [hi, hp]
      rw [hp']
    rw [if_pos (by omega), hsame, inputBody, if_pos (by simp [CReqBody.full, hN, hi, hfull])]
  · have hmin : min N n = n := by omega
    rw [hmin] at hi hp
    have hlen : (o.pending D).length = D.length - off - n := by
      rw [pending, hp, List.length_drop]
      omega
    have hnot : ¬ o.body.full = true := by
      simp only [CReqBody.full, hN, hi, decide_eq_true_eq]
      exact hfull
    have hsum : u32 (D.length - off - n + o.body.infusedLength) = D.length - off := by
      rw [hi, u32_of_lt (by omega)]
      omega
    have hsum' : u32 (o.body.infusedLength + (D.length - off - n)) = D.length - off := by
      rw [Nat.add_comm, hsum]
    rw [inputBody, if_neg hnot, hlen, CReqBody.infuse, hsum, hN]
    by_cases hshort : D.length - off ≤ N
    · have hu : u32 (o.parsedLen + (D.length - off - n)) = D.length := by
        rw [hp, u32_of_lt (by omega)]
        omega
      have hobj : o.withBody off N (D.length - off) =
          { o with body := { o.body with infusedLength := D.length - off },
                   parsedLen := D.length } := by
        rw [withBody, show min N (D.length - off) = D.length - off by omega,
          show off + (D.length - off) = D.length by omega]
      rw [if_pos hshort, hobj]
      simp only [hsum', hu, CReqBody.full, hN, decide_eq_true_eq]
    · have hu : u32 (o.parsedLen + (N - o.body.infusedLength)) = off + N := by
        rw [hp, hi, u32_of_lt (by omega)]
        omega
      have hobj : o.withBody off N (D.length - off) =
          { o with body := { o.body with infusedLength := N }, parsedLen := off + N } := by
        rw [withBody, show min N (D.length - off) = N by omega]
      rw [if_neg hshort, if_pos (by omega), hobj]
      simp only [hu, CReqBody.full, hN, le_refl, decide_true, if_true]

variable (dm) in
/-- **The empty line completes the header**, and the body begins behind it. -/
theorem parse_inHeader_full (ho : InHeader rl h pos o) (hlt : D.length < 2 ^ 32)
    (hpos : pos ≤ D.length) (hls : ∀ l ∈ ls, LF ∉ l) (ht : LF ∉ t)
    (hD : D.drop pos = unlines ls ++ t) (hw : (walk cMaxHeadLine h ls).1.full = true) {N : ℕ}
    (hN : contLen (walk cMaxHeadLine h ls).1 = .ok N) :
    ∃ o', o.parse dm D = some (0, o') ∧
      InBody rl (walk cMaxHeadLine h ls).1 (pos + walked h ls) N
        (D.length - (pos + walked h ls)) o' ∧
      o'.body.buf = o.buf.map fun b => ⟨b, pos + walked h ls⟩ := by
  have hinfuse := infuse_inHeader ho hls ht hD
  have hle := pos_add_walked_le (h := h) hpos hD
  generalize hoff : pos + walked h ls = off at hle
  have hu : u32 (o.parsedLen + walked h ls) = off := by
    rw [ho.parsedLen, hoff, u32_of_lt (by omega)]
  have hline : o.inputReqLine dm D = some (.goAhead o) := by
    simp [inputReqLine, ho.reqLine, ho.lineFull]
  have hopen : o.header.full = false := by rw [ho.header, ho.headerOpen]
  have hhead : o.inputHeader D =
      some (.goAhead (o.withHeader (walk cMaxHeadLine h ls).1 off N)) := by
    simp [inputHeader, hopen, hinfuse, hw, hN, hu, withHeader]
  have hbody := inputBody_of_le (o := o.withHeader (walk cMaxHeadLine h ls).1 off N) (D := D)
    off N 0 rfl (by simp [withHeader, ho.infusedLength])
    (by simp [withHeader]) (by omega) hlt
  by_cases hfull : N ≤ D.length - off
  · rw [if_pos hfull] at hbody
    refine ⟨{ (o.withHeader (walk cMaxHeadLine h ls).1 off N).withBody off N (D.length - off) with
      inited := true }, ?_, ⟨ho.lineFull, hw, ho.reqLine, rfl, rfl, rfl, rfl, rfl, ?_⟩, rfl⟩
    · simp only [CHttpReq.parse, hline, hhead, hbody, Option.bind_eq_bind, Option.bind_some]
    · rw [decide_eq_true hfull]
  · rw [if_neg hfull] at hbody
    refine ⟨(o.withHeader (walk cMaxHeadLine h ls).1 off N).withBody off N (D.length - off), ?_,
      ⟨ho.lineFull, hw, ho.reqLine, rfl, rfl, rfl, rfl, rfl, ?_⟩, rfl⟩
    · simp only [CHttpReq.parse, hline, hhead, hbody, Option.bind_eq_bind, Option.bind_some]
    · rw [decide_eq_false hfull]
      exact ho.inited

theorem parse_inHeader_undefined (ho : InHeader rl h pos o) (hls : ∀ l ∈ ls, LF ∉ l)
    (ht : LF ∉ t) (hD : D.drop pos = unlines ls ++ t)
    (hw : (walk cMaxHeadLine h ls).1.full = true)
    (hN : contLen (walk cMaxHeadLine h ls).1 = .undefined) : o.parse dm D = none := by
  have hinfuse := infuse_inHeader ho hls ht hD
  have hline : o.inputReqLine dm D = some (.goAhead o) := by
    simp [inputReqLine, ho.reqLine, ho.lineFull]
  have hopen : o.header.full = false := by rw [ho.header, ho.headerOpen]
  simp [CHttpReq.parse, hline, inputHeader, hopen, hinfuse, hw, hN]

end Header

/-! ## The body -/

variable (dm) in
/-- **Behind the header the bytes are counted**, up to the length announced. -/
theorem parse_inBody {rl : CHttpRequestLine} {h : CHttpHeader} {off N n : ℕ}
    (ho : InBody rl h off N n o) (hle : off + n ≤ D.length) (hlt : D.length < 2 ^ 32) :
    ∃ o', o.parse dm D = some (0, o') ∧ InBody rl h off N (D.length - off) o' ∧
      o'.body.buf = o.body.buf := by
  have hline : o.inputReqLine dm D = some (.goAhead o) := by
    simp [inputReqLine, ho.reqLine, ho.lineFull]
  have hhead : o.inputHeader D = some (.goAhead o) := by
    simp [inputHeader, ho.header, ho.headerFull]
  have hbody := inputBody_of_le off N n ho.contentLength ho.infusedLength ho.parsedLen hle hlt
  by_cases hfull : N ≤ D.length - off
  · rw [if_pos hfull] at hbody
    refine ⟨{ o.withBody off N (D.length - off) with inited := true }, ?_,
      ⟨ho.lineFull, ho.headerFull, ho.reqLine, ho.header, ho.contentOffset, rfl,
        ho.contentLength, rfl, ?_⟩, rfl⟩
    · simp only [CHttpReq.parse, hline, hhead, hbody, Option.bind_eq_bind, Option.bind_some]
    · rw [decide_eq_true hfull]
  · rw [if_neg hfull] at hbody
    refine ⟨o.withBody off N (D.length - off), ?_,
      ⟨ho.lineFull, ho.headerFull, ho.reqLine, ho.header, ho.contentOffset, rfl,
        ho.contentLength, rfl, ?_⟩, rfl⟩
    · simp only [CHttpReq.parse, hline, hhead, hbody, Option.bind_eq_bind, Option.bind_some]
    · rw [decide_eq_false hfull, ← decide_eq_false (show ¬ N ≤ n by omega)]
      exact ho.inited

end HttpCodec
end CModel
