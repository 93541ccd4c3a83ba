import CModel.Foundation.Overwrite
import CModel.HttpCodec.OutputBounds

/-!
# `http_rsp.h` and `http_rsp.cpp`

A response is a status line, a header and a body.  `output` puts the three into one buffer, one
behind the other.

* `CHttpStatusLine`, `CHttpRsp`, `CHttpRsp.output`: the code.
* `outputWrites_ret_iff`, `outputWrites_places`: the header refuses an attribute, or its lines come
  to stand one behind the other.
* `CHttpRsp.output_places`: what is in the buffer where `0` is returned, and what `data_len` is.
* `outputsWhole_iff`: **`output` keeps its promise only by returning something else than `0`**: the
  body and the status line are in no length it reports.
-/

namespace CModel
namespace HttpCodec

/-! ## The code -/

/-- `CHttpStatusLine` -/
structure CHttpStatusLine where
  httpVersionPrimary : UInt32 := 1
  httpVersionSeconday : UInt32 := 0
  statusCode : UInt32 := 200

/-- `CHttpStatusLine::make_line` -/
def CHttpStatusLine.makeLine (l : CHttpStatusLine) : Bytes :=
  ascii "HTTP/" ++ (decimal l.httpVersionPrimary.toNat ++ (ascii "." ++
    (decimal l.httpVersionSeconday.toNat ++ (ascii " " ++ (decimal l.statusCode.toNat ++
      ascii "\r\n")))))

/-- `CHttpRsp`.  The body is the `_data_len` bytes at `_buf`. -/
structure CHttpRsp where
  statusLine : CHttpStatusLine := {}
  header : CHttpHeader := {}
  body : Bytes := []

namespace CHttpRsp

/-- What `CHttpRsp::output` does: the return code, `data_len`, and what is written to `buffer`. -/
def outputTrace (r : CHttpRsp) (bufSize : ℕ) : ℤ × ℕ × List (ℕ × Bytes) :=
  let line := r.statusLine.makeLine
  let offset := line.length
  let (ret, dataLen, ws) := r.header.outputTrace (u32 (bufSize + 2 ^ 32 - offset))
  let dataLen := dataLen.getD 0
  let ws := (0, line) :: ws.map fun w => (offset + w.1, w.2)
  if ret ≠ 0 then (ret, dataLen, ws)
  else (0, dataLen, ws ++ [(u32 (offset + dataLen), r.body)])

/-- `CHttpRsp::output` on the memory at `buffer`: the return code, `data_len` and the memory. -/
def output (r : CHttpRsp) (buffer : Bytes) (bufSize : ℕ) : Outcome (ℤ × ℕ × Bytes) := do
  let (ret, dataLen, ws) := r.outputTrace bufSize
  let buffer ← overwrites buffer ws
  .ok (ret, dataLen, buffer)

end CHttpRsp

/-! ## The header -/

namespace CHttpHeader

variable {buffSize offset : ℕ} {l pre post : List (Bytes × Bytes)} {a : Bytes × Bytes}

/-- The header lines of attributes. -/
def attributeLines (l : List (Bytes × Bytes)) : Bytes :=
  l.flatMap fun a => attributeLine a.1 a.2

theorem attributeLines_cons (a : Bytes × Bytes) (l : List (Bytes × Bytes)) :
    attributeLines (a :: l) = attributeLine a.1 a.2 ++ attributeLines l := List.flatMap_cons

/-- The room that `output` asks for, with what is written in front of an attribute. -/
def roomFor (offset : ℕ) (pre : List (Bytes × Bytes)) (a : Bytes × Bytes) : ℕ :=
  offset + (attributeLines pre).length + a.1.length + a.2.length + 4

theorem roomFor_cons (offset : ℕ) (b : Bytes × Bytes) (pre : List (Bytes × Bytes))
    (a : Bytes × Bytes) :
    roomFor offset (b :: pre) a = roomFor (offset + (attributeLine b.1 b.2).length) pre a := by
  rw [roomFor, roomFor, attributeLines_cons, List.length_append, ← Nat.add_assoc offset]

/-- Every attribute finds the room that `output` asks for. -/
def Fits (buffSize offset : ℕ) (l : List (Bytes × Bytes)) : Prop :=
  ∀ pre a post, l = pre ++ a :: post → roomFor offset pre a ≤ buffSize

/-- The attribute `a`, behind `pre`, is the first that does not. -/
structure FirstRefused (buffSize offset : ℕ) (l pre : List (Bytes × Bytes)) (a : Bytes × Bytes)
    (post : List (Bytes × Bytes)) : Prop where
  split : l = pre ++ a :: post
  fits : Fits buffSize offset pre
  refused : buffSize < roomFor offset pre a

theorem fits_nil (buffSize offset : ℕ) : Fits buffSize offset [] := by
  intro pre a post h
  exact absurd (congrArg List.length h) (by simp)

theorem fits_cons_iff : Fits buffSize offset (a :: l) ↔
    offset + a.1.length + a.2.length + 4 ≤ buffSize ∧
      Fits buffSize (offset + (attributeLine a.1 a.2).length) l := by
  constructor
  · refine fun h => ⟨h [] a l rfl, ?_⟩
    intro pre b post hl
    rw [← roomFor_cons]
    exact h (a :: pre) b post (by rw [hl, List.cons_append])
  · rintro ⟨hfirst, hrest⟩ pre b post hl
    cases pre with
    | nil =>
      obtain ⟨rfl, -⟩ := List.cons.inj hl
      exact hfirst
    | cons c pre =>
      obtain ⟨rfl, hl'⟩ := List.cons.inj hl
      rw [roomFor_cons]
      exact hrest pre b post hl'

/-- All attributes fit, or one is the first that does not. -/
theorem exists_firstRefused (h : ¬ Fits buffSize offset l) :
    ∃ pre a post, FirstRefused buffSize offset l pre a post := by
  induction l generalizing offset with
  | nil => exact absurd (fits_nil buffSize offset) h
  | cons a l ih =>
    by_cases hfirst : offset + a.1.length + a.2.length + 4 ≤ buffSize
    · obtain ⟨pre, b, post, hr⟩ := ih fun hrest => h (fits_cons_iff.mpr ⟨hfirst, hrest⟩)
      refine ⟨a :: pre, b, post, by rw [hr.split, List.cons_append],
        fits_cons_iff.mpr ⟨hfirst, hr.fits⟩, ?_⟩
      rw [roomFor_cons]
      exact hr.refused
    · exact ⟨[], a, l, rfl, fits_nil buffSize offset, Nat.not_le.mp hfirst⟩

/-- What the `sprintf`s of attributes write, from `offset` on. -/
def sprintfs : (offset : ℕ) → List (Bytes × Bytes) → List (ℕ × Bytes)
  | _, [] => []
  | offset, a :: l =>
    (offset, attributeLine a.1 a.2 ++ [0]) :: sprintfs (offset + (attributeLine a.1 a.2).length) l

/-- Where all attributes fit, all are written. -/
theorem outputWrites_of_fits (h : Fits buffSize offset l) : outputWrites buffSize l offset =
    (0, some (offset + (attributeLines l).length), sprintfs offset l) := by
  induction l generalizing offset with
  | nil => rfl
  | cons a l ih =>
    obtain ⟨hfirst, hrest⟩ := fits_cons_iff.mp h
    rw [outputWrites, if_neg (Nat.not_lt.mpr hfirst), attributeLines_cons, List.length_append,
      ← Nat.add_assoc]
    simp only [ih hrest, sprintfs]

/-- Where one is refused, those in front of it are written. -/
theorem outputWrites_of_refused (h : FirstRefused buffSize offset l pre a post) :
    outputWrites buffSize l offset =
      (-cHttpHeaderErrorBuffNotEnough, none, sprintfs offset pre) := by
  obtain ⟨rfl, hfits, hrefused⟩ := h
  induction pre generalizing offset with
  | nil =>
    have hlarge : offset + a.1.length + a.2.length + 4 > buffSize := hrefused
    rw [List.nil_append, outputWrites, if_pos hlarge, sprintfs]
  | cons b pre ih =>
    obtain ⟨hfirst, hrest⟩ := fits_cons_iff.mp hfits
    rw [roomFor_cons] at hrefused
    rw [List.cons_append, outputWrites, if_neg (Nat.not_lt.mpr hfirst)]
    simp only [ih hrest hrefused, sprintfs]

/-- **The lines come to stand one behind the other**, each over the zero of the one before. -/
theorem overwrites_sprintfs {text buf : Bytes} (hpre : text <+: buf) (base : ℕ)
    (htext : text.length = base + offset)
    (hroom : l ≠ [] → text.length + (attributeLines l).length + 1 ≤ buf.length) :
    ∃ buf', overwrites buf ((sprintfs offset l).map fun w => (base + w.1, w.2)) = .ok buf' ∧
      text ++ attributeLines l <+: buf' ∧ buf'.length = buf.length := by
  induction l generalizing text buf offset with
  | nil => exact ⟨buf, rfl, by rwa [show attributeLines [] = [] from rfl, List.append_nil], rfl⟩
  | cons a l ih =>
    have hall := hroom (List.cons_ne_nil a l)
    rw [attributeLines_cons, List.length_append] at hall
    have hfit : text.length + (attributeLine a.1 a.2 ++ [0]).length ≤ buf.length := by
      rw [List.length_append, List.length_singleton]
      omega
    obtain ⟨buf₁, hwrite, hpre₁, hlen₁⟩ := isPrefix_overwrite hpre hfit
    have hline : text ++ attributeLine a.1 a.2 <+: buf₁ := by
      rw [← List.append_assoc] at hpre₁
      exact (List.prefix_append _ _).trans hpre₁
    have htext' : (text ++ attributeLine a.1 a.2).length =
        base + (offset + (attributeLine a.1 a.2).length) := by
      rw [List.length_append, htext, Nat.add_assoc]
    obtain ⟨buf', hrest, hpre', hlen'⟩ := ih hline htext'
      (fun _ => by rw [List.length_append, hlen₁]; omega)
    refine ⟨buf', ?_, ?_, hlen'.trans hlen₁⟩
    · rw [sprintfs, List.map_cons, overwrites, ← htext, hwrite, Outcome.ok_bind, hrest]
    · rwa [attributeLines_cons, ← List.append_assoc]

/-- Where the `sprintf`s stay inside. -/
theorem sprintfs_inside_iff {base n : ℕ} :
    (∀ w ∈ (sprintfs offset l).map fun w => (base + w.1, w.2), w.1 + w.2.length ≤ n) ↔
      (l ≠ [] → base + offset + (attributeLines l).length + 1 ≤ n) := by
  induction l generalizing offset with
  | nil => exact iff_of_true (fun w hw => absurd hw List.not_mem_nil) fun h => absurd rfl h
  | cons a l ih =>
    rw [sprintfs, List.map_cons, List.forall_mem_cons, ih, attributeLines_cons]
    simp only [List.length_append, List.length_singleton, ne_eq, List.cons_ne_nil,
      not_false_eq_true, forall_const]
    by_cases hl : l = []
    · rw [hl, show attributeLines [] = [] from rfl, List.length_nil]
      simp only [not_true_eq_false, false_implies, and_true]
      omega
    · simp only [hl, not_false_eq_true, forall_const]
      omega

end CHttpHeader

/-! ## The response -/

namespace CHttpRsp

open CHttpHeader

variable {r : CHttpRsp} {buffer : Bytes} {bufSize : ℕ}

/-- The status line, the header lines and the body. -/
def text (r : CHttpRsp) : Bytes :=
  r.statusLine.makeLine ++ (attributeLines r.header.headAttribute.toList ++ r.body)

/-- The size that the header is given: what the status line leaves, as an `unsigned`. -/
def headerRoom (r : CHttpRsp) (bufSize : ℕ) : ℕ :=
  u32 (bufSize + 2 ^ 32 - r.statusLine.makeLine.length)

/-- `output` returns `0` only if the three parts fit into `buf_size` bytes, and then they are what
the first `data_len` bytes of the buffer are. -/
def OutputsWhole (r : CHttpRsp) (buffer : Bytes) (bufSize : ℕ) : Prop :=
  ∃ ret dataLen buffer', r.output buffer bufSize = .ok (ret, dataLen, buffer') ∧
    (ret = 0 → r.text.length ≤ bufSize ∧ dataLen = r.text.length ∧
      buffer'.take dataLen = r.text)

theorem output_eq {ret : ℤ} {dataLen : ℕ} {ws : List (ℕ × Bytes)}
    (h : r.outputTrace bufSize = (ret, dataLen, ws)) (buffer : Bytes) :
    r.output buffer bufSize =
      overwrites buffer ws >>= fun buffer => .ok (ret, dataLen, buffer) := by
  rw [output, h]

/-- Where the header fits, the length reported is its own. -/
theorem outputTrace_of_fits (hfull : r.header.full = true)
    (h : Fits (r.headerRoom bufSize) 0 r.header.headAttribute.toList) :
    r.outputTrace bufSize =
      (0, (attributeLines r.header.headAttribute.toList).length,
        ((0, r.statusLine.makeLine) ::
          (sprintfs 0 r.header.headAttribute.toList).map fun w =>
            (r.statusLine.makeLine.length + w.1, w.2)) ++
          [(u32 (r.statusLine.makeLine.length +
            (attributeLines r.header.headAttribute.toList).length), r.body)]) := by
  have hheader := outputWrites_of_fits h
  rw [Nat.zero_add] at hheader
  rw [outputTrace]
  simp only [CHttpHeader.outputTrace, hfull, Bool.true_eq_false, if_false]
  rw [← headerRoom, hheader]
  rfl

/-- Where the header does not fit, its return code is that of `output`. -/
theorem outputTrace_of_refused (hfull : r.header.full = true)
    {pre post : List (Bytes × Bytes)} {a : Bytes × Bytes}
    (h : FirstRefused (r.headerRoom bufSize) 0 r.header.headAttribute.toList pre a post) :
    r.outputTrace bufSize = (-cHttpHeaderErrorBuffNotEnough, 0,
      (0, r.statusLine.makeLine) ::
        (sprintfs 0 pre).map fun w => (r.statusLine.makeLine.length + w.1, w.2)) := by
  rw [outputTrace]
  simp only [CHttpHeader.outputTrace, hfull, Bool.true_eq_false, if_false]
  rw [← headerRoom, outputWrites_of_refused h]
  rfl

theorem makeLine_pos (l : CHttpStatusLine) : 0 < l.makeLine.length := by
  rw [CHttpStatusLine.makeLine, List.length_append, show (ascii "HTTP/").length = 5 from rfl]
  omega

/-- **What is in the buffer where `0` is returned**, if there is room: the three parts, while
`data_len` is the length of the header lines alone. -/
theorem output_places (hfull : r.header.full = true) (hsize : bufSize < 2 ^ 32)
    (hline : r.statusLine.makeLine.length ≤ bufSize)
    (hfits : Fits (r.headerRoom bufSize) 0 r.header.headAttribute.toList)
    (hbuffer : r.text.length + 1 ≤ buffer.length) :
    ∃ buffer', r.output buffer bufSize =
        .ok (0, (attributeLines r.header.headAttribute.toList).length, buffer') ∧
      r.text <+: buffer' := by
  have htrace := outputTrace_of_fits hfull hfits
  have hroom : (attributeLines r.header.headAttribute.toList).length ≤ r.headerRoom bufSize := by
    cases hl : r.header.headAttribute.toList using List.reverseRecOn with
    | nil => exact Nat.zero_le _
    | append_singleton l a =>
      have hlast := hfits l a [] (by rw [hl])
      have hlen : (attributeLine a.1 a.2).length ≤ a.1.length + a.2.length + 4 :=
        length_attributeLine_le a
      rw [roomFor, Nat.zero_add] at hlast
      rw [attributeLines, List.flatMap_append, List.length_append, List.flatMap_singleton]
      rw [attributeLines] at hlast
      omega
  have hremaining : r.headerRoom bufSize = bufSize - r.statusLine.makeLine.length := by
    rw [headerRoom, u32]
    omega
  rw [hremaining] at hroom
  rw [text, List.length_append, List.length_append] at hbuffer
  generalize hlines : attributeLines r.header.headAttribute.toList = lines at *
  have hwrap : u32 (r.statusLine.makeLine.length + lines.length) =
      r.statusLine.makeLine.length + lines.length := u32_of_lt (by omega)
  have hline : ([] : Bytes).length + r.statusLine.makeLine.length ≤ buffer.length := by
    rw [List.length_nil]
    omega
  obtain ⟨buf₁, hfirst, hpre₁, hlen₁⟩ := isPrefix_overwrite List.nil_prefix hline
  rw [List.nil_append] at hpre₁
  have hheader : r.header.headAttribute.toList ≠ [] → r.statusLine.makeLine.length +
      (attributeLines r.header.headAttribute.toList).length + 1 ≤ buf₁.length := by
    intro _
    rw [hlines, hlen₁]
    omega
  obtain ⟨buf₂, hsecond, hpre₂, hlen₂⟩ := overwrites_sprintfs hpre₁ r.statusLine.makeLine.length
    (Nat.add_zero _).symm hheader
  rw [hlines] at hpre₂
  obtain ⟨buf₃, hthird, hpre₃, -⟩ := isPrefix_overwrite (s := r.body) hpre₂
    (by rw [List.length_append]; omega)
  rw [List.length_append] at hthird
  refine ⟨buf₃, ?_, by rwa [text, hlines, ← List.append_assoc]⟩
  rw [output_eq htrace]
  simp only [List.cons_append, overwrites, hwrap, overwrites_append]
  rw [List.length_nil] at hfirst
  rw [hfirst, Outcome.ok_bind, hsecond, Outcome.ok_bind, hthird]
  rfl

/-- **`output` keeps its promise** if and only if it returns something else than `0`: the header
refuses an attribute, and the status line and the header lines in front of this attribute, with the
zero behind them, are inside the memory. -/
theorem outputsWhole_iff (r : CHttpRsp) (buffer : Bytes) (bufSize : ℕ)
    (hfull : r.header.full = true) :
    OutputsWhole r buffer bufSize ↔ ∃ pre a post,
      FirstRefused (r.headerRoom bufSize) 0 r.header.headAttribute.toList pre a post ∧
        r.statusLine.makeLine.length ≤ buffer.length ∧
        (pre ≠ [] → r.statusLine.makeLine.length + (attributeLines pre).length + 1 ≤
          buffer.length) := by
  have hpos := makeLine_pos r.statusLine
  constructor
  · rintro ⟨ret, dataLen, buffer', hout, hwhole⟩
    have hnot : ¬ Fits (r.headerRoom bufSize) 0 r.header.headAttribute.toList := by
      intro hfits
      rw [output_eq (outputTrace_of_fits hfull hfits)] at hout
      obtain ⟨buffer'', -, hret⟩ := Outcome.bind_eq_ok.mp hout
      rw [Outcome.ok.injEq, Prod.mk.injEq, Prod.mk.injEq] at hret
      obtain ⟨-, hlen, -⟩ := hwhole hret.1.symm
      rw [← hret.2.1, text, List.length_append, List.length_append] at hlen
      omega
    obtain ⟨pre, a, post, hrefused⟩ := exists_firstRefused hnot
    refine ⟨pre, a, post, hrefused, ?_⟩
    rw [output_eq (outputTrace_of_refused hfull hrefused)] at hout
    obtain ⟨buffer'', hws, -⟩ := Outcome.bind_eq_ok.mp hout
    have hinside := overwrites_ne_undefined_iff.mp
      (show overwrites buffer _ ≠ .undefined from fun h0 => by
        rw [hws] at h0
        exact absurd h0 (by simp))
    rw [List.forall_mem_cons, sprintfs_inside_iff, Nat.zero_add, Nat.add_zero] at hinside
    exact hinside
  · rintro ⟨pre, a, post, hrefused, hline, hlines⟩
    have hinside : overwrites buffer ((0, r.statusLine.makeLine) ::
        (sprintfs 0 pre).map fun w => (r.statusLine.makeLine.length + w.1, w.2)) ≠ .undefined := by
      rw [overwrites_ne_undefined_iff, List.forall_mem_cons, sprintfs_inside_iff, Nat.zero_add,
        Nat.add_zero]
      exact ⟨hline, hlines⟩
    rw [OutputsWhole, output_eq (outputTrace_of_refused hfull hrefused)]
    cases hws : overwrites buffer ((0, r.statusLine.makeLine) ::
        (sprintfs 0 pre).map fun w => (r.statusLine.makeLine.length + w.1, w.2)) with
    | undefined => exact absurd hws hinside
    | ret code => exact absurd hws (overwrites_ne_ret _ _ _)
    | ok buffer' =>
      exact ⟨-cHttpHeaderErrorBuffNotEnough, 0, buffer', rfl, fun h0 => absurd h0 (by decide)⟩

/-- A response without attributes. -/
def plainOk : CHttpRsp := { header := { full := true }, body := ascii "x" }

/-- Without attributes nothing can be refused. -/
theorem outputsWhole_plainOk_iff : OutputsWhole plainOk (List.replicate 64 1) 64 ↔
    ∃ pre a post,
      FirstRefused (plainOk.headerRoom 64) 0 plainOk.header.headAttribute.toList pre a post ∧
        plainOk.statusLine.makeLine.length ≤ (List.replicate 64 (1 : Byte)).length ∧
        (pre ≠ [] → plainOk.statusLine.makeLine.length + (attributeLines pre).length + 1 ≤
          (List.replicate 64 (1 : Byte)).length) :=
  outputsWhole_iff plainOk (List.replicate 64 1) 64 rfl

/-- With room for all of it, `0` is returned with `data_len` zero; and so it is for `buf_size`
zero. -/
theorem not_outputsWhole_plainOk : plainOk.header.full = true ∧
    ¬ OutputsWhole plainOk (List.replicate 64 1) 64 ∧
      ¬ OutputsWhole plainOk (List.replicate 64 1) 0 := by
  have hlen : plainOk.text.length = 15 := by decide
  have hnot : ∀ bufSize, (plainOk.outputTrace bufSize).1 = 0 →
      (plainOk.outputTrace bufSize).2.1 = 0 →
      ¬ OutputsWhole plainOk (List.replicate 64 1) bufSize := by
    rintro bufSize hret hdata ⟨ret, dataLen, buffer', hout, hwhole⟩
    have htrace : plainOk.outputTrace bufSize =
        (0, 0, (plainOk.outputTrace bufSize).2.2) := Prod.ext hret (Prod.ext hdata rfl)
    rw [output_eq htrace] at hout
    obtain ⟨buffer'', -, heq⟩ := Outcome.bind_eq_ok.mp hout
    rw [Outcome.ok.injEq, Prod.mk.injEq, Prod.mk.injEq] at heq
    obtain ⟨-, htotal, -⟩ := hwhole heq.1.symm
    rw [← heq.2.1, hlen] at htotal
    exact absurd htotal (by decide)
  exact ⟨rfl, hnot 64 (by decide) (by decide),
    hnot 0 (by decide) (by decide)⟩

end CHttpRsp

end HttpCodec
end CModel
