import CModel.HttpCodec.HeadOutput

/-!
# What `CHttpHeader::output` writes, and where

`output` asks for room for the text of an attribute, and `sprintf` writes a zero behind the text.

* `outputWrites`, `outputTrace`: the return code, `data_len`, and each `sprintf` with the place of
  its text.
* `output_eq_none_iff`: the model of `output` on texts fails exactly if a write is out of bounds.
* `staysInside_iff`: **`output` respects its buffer** exactly if no attribute that is written fills
  the buffer to its last byte.
-/

namespace CModel
namespace HttpCodec

namespace CHttpHeader

/-- The loop of `output` from `offset` on: the return code, `data_len` where it is set, and what
each `sprintf` writes.  The bound checked keeps `offset` within `buff_size`, so that the `unsigned`
sum does not come round. -/
def outputWrites (buffSize : ℕ) :
    List (Bytes × Bytes) → (offset : ℕ) → ℤ × Option ℕ × List (ℕ × Bytes)
  | [], offset => (0, some offset, [])
  | (name, value) :: rest, offset =>
    if offset + name.length + value.length + 4 > buffSize then
      (-cHttpHeaderErrorBuffNotEnough, none, [])
    else
      let size := (attributeLine name value).length
      let (ret, dataLen, ws) := outputWrites buffSize rest (offset + size)
      (ret, dataLen, (offset, attributeLine name value ++ [0]) :: ws)

/-- `CHttpHeader::output`: the return code, `data_len` where it is set, and what is written to
`buf`. -/
def outputTrace (h : CHttpHeader) (buffSize : ℕ) : ℤ × Option ℕ × List (ℕ × Bytes) :=
  if h.full = false then (-cHttpHeaderErrorAssenblyIncomplete, none, [])
  else outputWrites buffSize h.headAttribute.toList 0

/-- Every byte that `output` writes has an index below `buff_size`. -/
def StaysInside (h : CHttpHeader) (buffSize : ℕ) : Prop :=
  ∀ w ∈ (h.outputTrace buffSize).2.2, w.1 + w.2.length ≤ buffSize

/-- The two models of the loop. -/
theorem outputFrom_eq_none_iff {buffSize : ℕ} {l : List (Bytes × Bytes)} {out : Bytes} :
    outputFrom buffSize l out = none ↔
      ¬ ∀ w ∈ (outputWrites buffSize l out.length).2.2, w.1 + w.2.length ≤ buffSize := by
  induction l generalizing out with
  | nil => simp [outputFrom, outputWrites]
  | cons a l ih =>
    rw [outputFrom, outputWrites]
    split
    · simp
    · rw [List.forall_mem_cons, List.length_append, List.length_singleton]
      by_cases hfits : out.length + (attributeLine a.1 a.2).length < buffSize
      · rw [if_pos hfits, ih, List.length_append]
        exact not_congr (and_iff_right (by omega)).symm
      · rw [if_neg hfits]
        refine iff_of_true rfl fun h => hfits ?_
        have hfirst := h.1
        omega

/-- **The model of `output` on texts fails exactly if a write is out of bounds.** -/
theorem output_eq_none_iff {h : CHttpHeader} {buffSize : ℕ} :
    h.output buffSize = none ↔ ¬ StaysInside h buffSize := by
  rw [output, StaysInside, outputTrace]
  split
  · simp
  · exact outputFrom_eq_none_iff

/-- Without zeros, the text of an attribute is as long as the check says. -/
theorem length_attributeLine {a : Bytes × Bytes} (h : (0 : Byte) ∉ a.1 ∧ (0 : Byte) ∉ a.2) :
    (attributeLine a.1 a.2).length = a.1.length + a.2.length + 4 := by
  rw [attributeLine, cstr_eq_self h.1, cstr_eq_self h.2]
  simp only [List.length_append, show (ascii ": ").length = 2 from rfl,
    show (ascii "\r\n").length = 2 from rfl]
  omega

/-- **One attribute after the other**, by induction on those left: a write ends past the buffer
exactly if the attributes up to it fill the buffer. -/
theorem outputWrites_inside_iff {buffSize : ℕ} {l : List (Bytes × Bytes)} {offset : ℕ}
    (hzero : ∀ a ∈ l, (0 : Byte) ∉ a.1 ∧ (0 : Byte) ∉ a.2) :
    (∀ w ∈ (outputWrites buffSize l offset).2.2, w.1 + w.2.length ≤ buffSize) ↔
      ∀ pre, pre <+: l → pre ≠ [] → offset + outputSize pre ≠ buffSize := by
  induction l generalizing offset with
  | nil =>
    refine iff_of_true (fun w hw => absurd hw List.not_mem_nil) ?_
    intro pre hpre hne
    exact absurd (List.prefix_nil.mp hpre) hne
  | cons a l ih =>
    obtain ⟨ha, hl⟩ := List.forall_mem_cons.mp hzero
    have hsize := length_attributeLine ha
    have hcons : ∀ pre,
        outputSize (a :: pre) = (attributeLine a.1 a.2).length + outputSize pre := by
      intro pre
      rw [outputSize, List.map_cons, List.sum_cons, hsize, outputSize]
    rw [outputWrites]
    by_cases hroom : offset + a.1.length + a.2.length + 4 > buffSize
    · -- nothing is written, and the attribute alone is too large
      rw [if_pos hroom]
      refine iff_of_true (fun w hw => absurd hw List.not_mem_nil) ?_
      intro pre hpre hne
      obtain ⟨b, pre, rfl⟩ := List.exists_cons_of_ne_nil hne
      obtain ⟨rfl, -⟩ := List.cons_prefix_cons.mp hpre
      rw [hcons]
      omega
    · rw [if_neg hroom, List.forall_mem_cons, ih hl, List.length_append, List.length_singleton]
      constructor
      · rintro ⟨hfirst, hrest⟩ pre hpre hne
        obtain ⟨b, pre, rfl⟩ := List.exists_cons_of_ne_nil hne
        obtain ⟨rfl, hpre'⟩ := List.cons_prefix_cons.mp hpre
        rw [hcons]
        by_cases hnil : pre = []
        · rw [hnil, outputSize, List.map_nil, List.sum_nil]
          omega
        · have hne' := hrest pre hpre' hnil
          omega
      · intro hall
        have hone := hall [a] ((List.prefix_append_right_inj [a]).mpr List.nil_prefix)
          (List.cons_ne_nil _ _)
        rw [hcons, outputSize, List.map_nil, List.sum_nil] at hone
        refine ⟨by omega, ?_⟩
        intro pre hpre _
        have hmore := hall (a :: pre) (List.cons_prefix_cons.mpr ⟨rfl, hpre⟩)
          (List.cons_ne_nil _ _)
        rw [hcons] at hmore
        omega

/-- **`output` respects its buffer** if and only if the header is not full yet, or no attributes
from the first one on make up exactly `buff_size` bytes of text. -/
theorem staysInside_iff {h : CHttpHeader} (buffSize : ℕ)
    (hzero : ∀ a ∈ h.headAttribute.toList, (0 : Byte) ∉ a.1 ∧ (0 : Byte) ∉ a.2) :
    StaysInside h buffSize ↔ (h.full = true →
      ∀ pre, pre <+: h.headAttribute.toList → pre ≠ [] → outputSize pre ≠ buffSize) := by
  rw [StaysInside, outputTrace]
  cases hfull : h.full with
  | false => exact iff_of_true (fun w hw => absurd hw List.not_mem_nil) (by simp)
  | true =>
    rw [if_neg (by simp), outputWrites_inside_iff hzero]
    simp only [Nat.zero_add, forall_const]

theorem toList_headerA : headerA.headAttribute.toList = [(ascii "A", ascii " b")] := by
  decide

/-- A buffer with one byte to spare. -/
theorem staysInside_headerA : StaysInside headerA 8 ↔ (headerA.full = true →
    ∀ pre, pre <+: headerA.headAttribute.toList → pre ≠ [] → outputSize pre ≠ 8) :=
  staysInside_iff 8 (by rw [toList_headerA]; decide)

/-- An attribute that fits exactly: its zero is written behind the buffer. -/
theorem not_staysInside_headerA :
    (∀ a ∈ headerA.headAttribute.toList, (0 : Byte) ∉ a.1 ∧ (0 : Byte) ∉ a.2) ∧
      ¬ StaysInside headerA 7 := by
  have htrace : (headerA.outputTrace 7).2.2 = [(0, ascii "A:  b\r\n" ++ [0])] := by
    rw [outputTrace, toList_headerA]
    decide
  refine ⟨by rw [toList_headerA]; decide, ?_⟩
  intro h
  have hlen := h (0, ascii "A:  b\r\n" ++ [0]) (by rw [htrace]; exact List.mem_singleton_self _)
  exact absurd hlen (by decide)

end CHttpHeader

end HttpCodec
end CModel
