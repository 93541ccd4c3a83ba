import CModel.HttpCodec.Req

/-!
# The buffer of a request

`append_data` keeps one block on the heap that holds all bytes so far.  `Owns h o D` says so, and
`input` is `append_data` followed by `parse` on the bytes of that block.

* `appendData_of_lt`: a chunk that fits below `2 ^ 32` is appended; a non-empty one moves the bytes
  to a new block and frees the old one.
* `appendData_of_le`: a chunk that does not fit runs out of the block.
* `input_of_lt`, `input_of_le`: the same for `input`.
-/

namespace CModel
namespace HttpCodec

open CHttpReq

/-- The object owns a block that holds exactly the bytes `D`. -/
structure Owns (h : Heap Byte) (o : CHttpReq) (D : Bytes) : Prop where
  dataLen : o.dataLen = D.length
  bufSize : o.bufSize = D.length
  lt : D.length < 2 ^ 32
  block : D ≠ [] → ∃ b, o.buf = some b ∧ h.block b = some D

theorem owns_fresh : Owns CHttpReq.fresh.1 CHttpReq.fresh.2 [] :=
  ⟨rfl, rfl, by decide, fun h => absurd rfl h⟩

/-- The object after `append_data`: all bytes in block `b`. -/
def CHttpReq.withBuffer (o : CHttpReq) (b n : ℕ) : CHttpReq :=
  { o with buf := some b, bufSize := n, dataLen := n }

variable {h : Heap Byte} {o : CHttpReq} {D c : Bytes}

/-- **A chunk that fits is appended.**  The block stays the same only if the chunk is empty. -/
theorem appendData_of_lt (hown : Owns h o D) (hlt : (D ++ c).length < 2 ^ 32) :
    ∃ h' b, appendData h o c = some (h', o.withBuffer b (D ++ c).length) ∧
      h'.block b = some (D ++ c) ∧
      (c ≠ [] → ∀ b', o.buf = some b' → b < h'.next ∧ (D ≠ [] → b' ≠ b)) ∧
      (c = [] → D ≠ [] → o.buf = some b) := by
  have hc : c.length < 2 ^ 32 := by
    rw [List.length_append] at hlt
    omega
  by_cases hD : D = []
  · subst hD
    refine ⟨(h.alloc c).2, h.next, ?_, Heap.alloc_block_next h c, ?_, ?_⟩
    · rw [appendData, if_neg (by omega), if_pos (show o.bufSize = 0 from hown.bufSize)]
      rfl
    · intro _ b' _
      exact ⟨Nat.lt_succ_self _, fun h0 => absurd rfl h0⟩
    · intro _ h0
      exact absurd rfl h0
  · obtain ⟨b, hb, hblock⟩ := hown.block hD
    have hpos : 0 < D.length := List.length_pos_of_ne_nil hD
    have hsize : ¬ o.bufSize = 0 := by rw [hown.bufSize]; omega
    have hu : u32 (o.dataLen + c.length) = (D ++ c).length := by
      rw [hown.dataLen, ← List.length_append, u32_of_lt hlt]
    rw [appendData, if_neg (by omega), if_neg hsize, hb]
    simp only [Option.bind_eq_bind, Option.bind_some, hu]
    by_cases hce : c = []
    · subst hce
      rw [if_neg (by rw [hown.bufSize, List.append_nil]; exact Nat.lt_irrefl _)]
      have hwrite : ∃ h', h.write b o.dataLen [] = some h' ∧ h'.block b = some D := by
        rw [hown.dataLen]
        unfold Heap.write
        split
        · next hn => rw [hblock] at hn; exact absurd hn (by simp)
        · next contents hs =>
          obtain rfl : D = contents := Option.some.inj (hblock.symm.trans hs)
          rw [if_pos (by simp)]
          exact ⟨_, rfl, by simp⟩
      obtain ⟨h', hw, hb'⟩ := hwrite
      refine ⟨h', b, ?_, by rw [hb', List.append_nil], fun h0 => absurd rfl h0, fun _ _ => rfl⟩
      rw [hw]
      simp only [Option.bind_some, CHttpReq.withBuffer, hown.bufSize, List.append_nil]
    · have hcpos : 0 < c.length := List.length_pos_of_ne_nil hce
      have hread : h.read ⟨b, 0⟩ o.dataLen = some D := by
        rw [Heap.read_of_some (l := D) hblock (by rw [hown.dataLen]; simp), hown.dataLen]
        simp
      have hne : b ≠ h.next := (Heap.lt_next hblock).ne
      have hlive : (h.alloc (D ++ c)).2.block b = some D := by
        rw [Heap.alloc_block_of_ne hne, hblock]
      obtain ⟨h', hfree, hnext, -, hother⟩ := Heap.free_of_some hlive
      rw [if_pos (by rw [hown.bufSize, List.length_append]; omega), hread]
      simp only [Option.bind_some, hfree]
      refine ⟨h', h.next, rfl, ?_, fun _ b' hb' => ⟨?_, ?_⟩, fun h0 => absurd h0 hce⟩
      · rw [hother h.next hne.symm, Heap.alloc_block_next]
      · rw [hnext]
        exact Nat.lt_succ_self _
      · intro _
        obtain rfl : b = b' := Option.some.inj hb'
        exact hne

/-- **A chunk that does not fit runs out of the block.** -/
theorem appendData_of_le (hown : Owns h o D) (hle : 2 ^ 32 ≤ (D ++ c).length) :
    appendData h o c = none := by
  have hDlt := hown.lt
  rw [List.length_append] at hle
  by_cases hc : 2 ^ 32 ≤ c.length
  · rw [appendData, if_pos hc]
  · have hD : D ≠ [] := by
      rintro rfl
      rw [List.length_nil] at hle
      omega
    have hpos : 0 < D.length := List.length_pos_of_ne_nil hD
    obtain ⟨b, hb, hblock⟩ := hown.block hD
    -- the wrapped sum is below the size of the block, so the bytes are copied behind its end
    have hwrap : ¬ o.bufSize < u32 (o.dataLen + c.length) := by
      rw [hown.dataLen, hown.bufSize, u32]
      omega
    have hwrite : h.write b o.dataLen c = none := by
      rw [hown.dataLen]
      unfold Heap.write
      split
      · rfl
      · next contents hs =>
        obtain rfl : D = contents := Option.some.inj (hblock.symm.trans hs)
        exact if_neg (by omega)
    rw [appendData, if_neg hc, if_neg (by rw [hown.bufSize]; omega), hb]
    simp only [Option.bind_eq_bind, Option.bind_some]
    rw [if_neg hwrap, hwrite, Option.bind_none]

/-! ## `parse` leaves the buffer alone -/

theorem inputReqLine_memory {dm : DataModel} {o o' : CHttpReq} {z : ℤ}
    (hr : o.inputReqLine dm D = some (.goAhead o') ∨ o.inputReqLine dm D = some (.done z o')) :
    o'.buf = o.buf ∧ o'.bufSize = o.bufSize ∧ o'.dataLen = o.dataLen := by
  unfold inputReqLine at hr
  grind

theorem inputHeader_memory {o o' : CHttpReq} {z : ℤ}
    (hr : o.inputHeader D = some (.goAhead o') ∨ o.inputHeader D = some (.done z o')) :
    o'.buf = o.buf ∧ o'.bufSize = o.bufSize ∧ o'.dataLen = o.dataLen := by
  unfold inputHeader at hr
  grind

theorem inputBody_memory {o o' : CHttpReq} {z : ℤ}
    (hr : o.inputBody D = .goAhead o' ∨ o.inputBody D = .done z o') :
    o'.buf = o.buf ∧ o'.bufSize = o.bufSize ∧ o'.dataLen = o.dataLen := by
  unfold inputBody at hr
  grind

/-- **`parse` leaves the buffer alone.** -/
theorem parse_memory {dm : DataModel} {o' : CHttpReq} {code : ℤ}
    (hr : o.parse dm D = some (code, o')) :
    o'.buf = o.buf ∧ o'.bufSize = o.bufSize ∧ o'.dataLen = o.dataLen := by
  unfold CHttpReq.parse at hr
  rcases h₁ : o.inputReqLine dm D with _ | ⟨code₁, o₁⟩ | o₁
  · rw [h₁] at hr
    exact absurd hr (by simp)
  · have hm₁ := inputReqLine_memory (Or.inr h₁)
    rw [h₁] at hr
    simp only [Option.bind_eq_bind, Option.bind_some, Option.some.injEq, Prod.mk.injEq] at hr
    rw [← hr.2]
    exact hm₁
  · have hm₁ := inputReqLine_memory (z := 0) (Or.inl h₁)
    rw [h₁] at hr
    simp only [Option.bind_eq_bind, Option.bind_some] at hr
    rcases h₂ : o₁.inputHeader D with _ | ⟨code₂, o₂⟩ | o₂
    · rw [h₂] at hr
      exact absurd hr (by simp)
    · have hm₂ := inputHeader_memory (Or.inr h₂)
      rw [h₂] at hr
      simp only [Option.bind_some, Option.some.injEq, Prod.mk.injEq] at hr
      rw [← hr.2, hm₂.1, hm₂.2.1, hm₂.2.2]
      exact hm₁
    · have hm₂ := inputHeader_memory (z := 0) (Or.inl h₂)
      rw [h₂] at hr
      simp only [Option.bind_some] at hr
      rcases h₃ : o₂.inputBody D with ⟨code₃, o₃⟩ | o₃
      · have hm₃ := inputBody_memory (Or.inr h₃)
        rw [h₃] at hr
        simp only [Option.some.injEq, Prod.mk.injEq] at hr
        rw [← hr.2, hm₃.1, hm₃.2.1, hm₃.2.2, hm₂.1, hm₂.2.1, hm₂.2.2]
        exact hm₁
      · have hm₃ := inputBody_memory (z := 0) (Or.inl h₃)
        rw [h₃] at hr
        simp only [Option.some.injEq, Prod.mk.injEq] at hr
        obtain ⟨hbuf, hsize, hlen⟩ := hm₂
        rw [← hr.2, ← hm₁.1, ← hm₁.2.1, ← hm₁.2.2, ← hbuf, ← hsize, ← hlen]
        exact hm₃

/-! ## `input` -/

/-- **`input` is `parse` on all bytes so far.** -/
theorem input_of_lt (dm : DataModel) (hown : Owns h o D) (hlt : (D ++ c).length < 2 ^ 32) :
    ∃ h' b, (∀ code o', (o.withBuffer b (D ++ c).length).parse dm (D ++ c) = some (code, o') →
        CHttpReq.input dm (h, o) c = some (code, h', o') ∧ Owns h' o' (D ++ c)) ∧
      ((o.withBuffer b (D ++ c).length).parse dm (D ++ c) = none →
        CHttpReq.input dm (h, o) c = none) ∧
      (c ≠ [] → D ≠ [] → o.buf ≠ some b) ∧ (c = [] → D ≠ [] → o.buf = some b) := by
  obtain ⟨h', b, happ, hblock, hnew, hsame⟩ := appendData_of_lt hown hlt
  have hread : h'.read ⟨b, 0⟩ (D ++ c).length = some (D ++ c) := by
    rw [Heap.read_of_some (l := D ++ c) hblock (by simp)]
    simp
  have hinput : CHttpReq.input dm (h, o) c =
      ((o.withBuffer b (D ++ c).length).parse dm (D ++ c)).bind
        fun r => some (r.1, h', r.2) := by
    simp only [CHttpReq.input, happ, Option.bind_eq_bind, Option.bind_some,
      CHttpReq.withBuffer, hread]
  refine ⟨h', b, fun code o' hr => ⟨by rw [hinput, hr]; rfl, ?_⟩, fun hr => by rw [hinput, hr]; rfl,
    fun hc hD hb => (hnew hc b hb).2 hD rfl, hsame⟩
  obtain ⟨hbuf, hsize, hlen⟩ := parse_memory hr
  exact ⟨hlen, hsize, hlt, fun _ => ⟨b, hbuf, hblock⟩⟩

/-- `input` past `2 ^ 32` bytes is undefined. -/
theorem input_of_le (dm : DataModel) (hown : Owns h o D) (hle : 2 ^ 32 ≤ (D ++ c).length) :
    CHttpReq.input dm (h, o) c = none := by
  simp only [CHttpReq.input, appendData_of_le hown hle, Option.bind_eq_bind, Option.bind_none]

end HttpCodec
end CModel
