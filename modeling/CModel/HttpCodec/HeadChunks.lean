import CModel.Foundation.Feed
import CModel.HttpCodec.HeadStops
import CModel.HttpCodec.LineRest

/-!
# An accepted request line and whatever follows it

`Accepted` is a request line that `CHttpReq` accepts, in front of any bytes at all: attribute
lines, lines without a name, and an empty line or none.

* `Accepted.Phase`: where the object may stand when some of the bytes have been fed.  In the header
  it stands behind all complete lines, or at a short stop.
* `Accepted.parse_phase`, `Accepted.feed_phase`: **every cutting ends in one of these phases**, as
  long as an announced length can be read.
* `Accepted.exists_fed_header`: **line by line every line is reached.**
* `Accepted.exists_feed_open`, `Accepted.exists_feed_full`, `Accepted.exists_feed_none`: the
  remaining bytes in one chunk.
-/

namespace CModel
namespace HttpCodec

open CHttpReq

/-- A request line that is accepted in front of the bytes `rest`. -/
structure Accepted (dm : DataModel) where
  line : Bytes
  rest : Bytes
  reqLine : CHttpRequestLine
  line_noLF : LF ∉ line
  length_lt : (line ++ LF :: rest).length < 2 ^ 32
  parseLine_eq :
    CHttpRequestLine.parseLine dm {} (line ++ LF :: rest) = .ok (reqLine, line.length + 1)

/-- The header when it is full, with the lines `as` in front of the empty line. -/
def fullHeader (as : List Bytes) : CHttpHeader :=
  { ({} : CHttpHeader).setLines as with full := true }

/-- Where an empty line ends the header, the length that it announces can be read. -/
def LengthReads (R : Bytes) : Prop :=
  ∀ b rest, headLine b = .blank → (splitLines R).1 = frontLines (splitLines R).1 ++ b :: rest →
    ∃ N, contLen (({} : CHttpHeader).setLines (frontLines (splitLines R).1)) = .ok N

namespace Accepted

variable {dm : DataModel} (A : Accepted dm)

/-- All bytes. -/
def bytes : Bytes := A.line ++ LF :: A.rest

/-- The offset behind the request line and the lines `as`. -/
def offset (as : List Bytes) : ℕ := A.line.length + 1 + (unlines as).length

/-- Where the object may stand when the bytes `P` have been fed. -/
inductive Phase : Bytes → CHttpReq → Prop
  /-- the request line has not ended -/
  | idle {P : Bytes} {o : CHttpReq} (hP : LF ∉ P) (ho : Idle o) : Phase P o
  /-- the lines `as` have been taken: all complete ones, or those up to a short stop -/
  | header {R : Bytes} {o : CHttpReq} {as : List Bytes} (hpre : as <+: (splitLines R).1)
      (hopen : ∀ l ∈ as, headLine l ≠ .blank) (hstop : as = (splitLines R).1 ∨ ShortStop as)
      (ho : InHeader A.reqLine (({} : CHttpHeader).setLines as) (A.offset as) o) :
      Phase (A.line ++ LF :: R) o
  /-- the empty line `b` has been taken, and `behind` follows it -/
  | body {as : List Bytes} {b behind : Bytes} {o : CHttpReq} {N : ℕ}
      (hls : ∀ l ∈ as ++ [b], LF ∉ l) (hopen : ∀ l ∈ as, headLine l ≠ .blank)
      (hb : headLine b = .blank) (hN : contLen (({} : CHttpHeader).setLines as) = .ok N)
      (ho : InBody A.reqLine (fullHeader as) (A.offset (as ++ [b])) N behind.length o) :
      Phase (A.line ++ LF :: (unlines (as ++ [b]) ++ behind)) o

theorem offset_append (as bs : List Bytes) :
    A.offset (as ++ bs) = A.offset as + (unlines bs).length := by
  rw [offset, offset, unlines_append, List.length_append]
  omega

variable {A} {o : CHttpReq}

/-- The request line is read alike in front of every cut behind it. -/
theorem parseLine_of_rest {R : Bytes} (hR : R <+: A.rest) :
    CHttpRequestLine.parseLine dm {} (A.line ++ LF :: R) =
      .ok (A.reqLine, A.line.length + 1) := by
  refine parseLine_append A.line_noLF A.length_lt ?_ A.parseLine_eq
  have hle := hR.length_le
  have hlt := A.length_lt
  rw [List.length_append, List.length_cons] at hlt ⊢
  omega

/-! ## A call in the header -/

section Header

variable {R : Bytes} {as new : List Bytes} {t : Bytes}

/-- The bytes behind lines that have been taken. -/
theorem drop_offset (hR : R = unlines as ++ (unlines new ++ t)) :
    (A.line ++ LF :: R).drop (A.offset as) = unlines new ++ t := by
  rw [offset, ← List.drop_drop, ← List.drop_drop, List.drop_left]
  show R.drop _ = _
  rw [hR, List.drop_left]

theorem offset_le (hR : R = unlines as ++ (unlines new ++ t)) :
    A.offset as ≤ (A.line ++ LF :: R).length := by
  rw [offset, hR, List.length_append, List.length_cons, List.length_append]
  omega

/-- **A walk that does not meet the empty line** leaves the object in the header. -/
theorem parse_open (ho : InHeader A.reqLine (({} : CHttpHeader).setLines as) (A.offset as) o)
    (hlt : (A.line ++ LF :: R).length < 2 ^ 32) (hR : R = unlines as ++ (unlines new ++ t))
    (hnew : ∀ l ∈ new, LF ∉ l) (ht : LF ∉ t) {bs rest : List Bytes} (hbs : new = bs ++ rest)
    (hw : walk cMaxHeadLine (({} : CHttpHeader).setLines as) new =
      (({} : CHttpHeader).setLines (as ++ bs), bs.length)) :
    ∃ o', o.parse dm (A.line ++ LF :: R) = some (0, o') ∧
      InHeader A.reqLine (({} : CHttpHeader).setLines (as ++ bs)) (A.offset (as ++ bs)) o' := by
  obtain ⟨o', ho', hin⟩ := parse_inHeader_open dm ho hlt (offset_le hR) hnew ht (drop_offset hR)
    (by rw [hw, full_setLines])
  refine ⟨o', ho', ?_⟩
  rwa [walked, hw, hbs, List.take_left, ← A.offset_append] at hin

/-- **A walk that meets the empty line** takes the object behind the header. -/
theorem parse_full (ho : InHeader A.reqLine (({} : CHttpHeader).setLines as) (A.offset as) o)
    (hlt : (A.line ++ LF :: R).length < 2 ^ 32) (hR : R = unlines as ++ (unlines new ++ t))
    (hnew : ∀ l ∈ new, LF ∉ l) (ht : LF ∉ t) {bs rest : List Bytes} {b : Bytes}
    (hbs : new = bs ++ b :: rest)
    (hw : walk cMaxHeadLine (({} : CHttpHeader).setLines as) new =
      (fullHeader (as ++ bs), bs.length + 1)) {N : ℕ}
    (hN : contLen (({} : CHttpHeader).setLines (as ++ bs)) = .ok N) :
    ∃ o', o.parse dm (A.line ++ LF :: R) = some (0, o') ∧
      InBody A.reqLine (fullHeader (as ++ bs)) (A.offset (as ++ bs ++ [b])) N
        (unlines rest ++ t).length o' := by
  have htake : new.take (bs.length + 1) = bs ++ [b] := by
    rw [hbs, List.take_append, List.take_of_length_le (by omega), Nat.add_sub_cancel_left,
      List.take_succ_cons, List.take_zero]
  have hwalked : A.offset as + walked (({} : CHttpHeader).setLines as) new =
      A.offset (as ++ bs ++ [b]) := by
    rw [walked, hw, htake, ← A.offset_append, List.append_assoc]
  obtain ⟨o', ho', hin, -⟩ := parse_inHeader_full dm ho hlt (offset_le hR) hnew ht
    (drop_offset hR) (by rw [hw]; rfl) (N := N) (by rw [hw]; exact hN)
  refine ⟨o', ho', ?_⟩
  have hlen : (A.line ++ LF :: R).length - A.offset (as ++ bs ++ [b]) =
      (unlines rest ++ t).length := by
    have hsum : unlines new = unlines (bs ++ [b]) ++ unlines rest := by
      rw [hbs, ← unlines_append, List.append_assoc]
      rfl
    rw [List.append_assoc, A.offset_append, offset, hR, hsum]
    simp only [List.length_append, List.length_cons]
    omega
  rw [hwalked, hw, hlen] at hin
  exact hin

end Header

/-! ## Any call -/

theorem lengthReads_of_isPrefix {R R' : Bytes} (h : LengthReads R) (hR : R' <+: R) :
    LengthReads R' := by
  intro b rest hb hls
  obtain ⟨more, hmore⟩ := splitLines_of_isPrefix hR
  have hall : (splitLines R).1 = frontLines (splitLines R').1 ++ b :: (rest ++ more) := by
    rw [← hmore]
    conv_lhs => rw [hls]
    rw [List.append_assoc, List.cons_append]
  have hfront : frontLines (splitLines R).1 = frontLines (splitLines R').1 := by
    rw [hall, frontLines_of_blank ne_blank_of_mem_frontLines hb]
  rw [← hfront] at hall ⊢
  exact h b _ hb hall

/-- A call in the header ends in a phase. -/
theorem parse_header_phase {R : Bytes} {as : List Bytes}
    (ho : InHeader A.reqLine (({} : CHttpHeader).setLines as) (A.offset as) o)
    (hpre : as <+: (splitLines R).1) (hopen : ∀ l ∈ as, headLine l ≠ .blank)
    (hlt : (A.line ++ LF :: R).length < 2 ^ 32) (hN : LengthReads R) :
    ∃ o', o.parse dm (A.line ++ LF :: R) = some (0, o') ∧ A.Phase (A.line ++ LF :: R) o' := by
  obtain ⟨hlines, htail⟩ := LF_notMem_splitLines R
  obtain ⟨new, hnew⟩ := hpre
  have hR : R = unlines as ++ (unlines new ++ (splitLines R).2) := by
    rw [← List.append_assoc, ← unlines_append, hnew, unlines_splitLines]
  have hnewLF : ∀ l ∈ new, LF ∉ l := fun l hl =>
    hlines l (hnew ▸ List.mem_append_right as hl)
  have hopen' : ∀ {bs : List Bytes}, (∀ l ∈ bs, headLine l ≠ .blank) →
      ∀ l ∈ as ++ bs, headLine l ≠ .blank := fun hbs l hl =>
    (List.mem_append.mp hl).elim (hopen l) (hbs l)
  rcases walk_append_cases as new with ⟨bs, b, rest, hcut, hbs, hb, hw⟩ |
    ⟨bs, rest, hcut, hbs, hw, hend⟩
  · -- the empty line is there
    have hls : (splitLines R).1 = as ++ bs ++ b :: rest := by
      rw [← hnew, hcut, List.append_assoc]
    have hfront : frontLines (splitLines R).1 = as ++ bs := by
      rw [hls, frontLines_of_blank (hopen' hbs) hb]
    obtain ⟨N, hN⟩ := hN b rest hb (by rw [hfront, hls])
    rw [hfront] at hN
    obtain ⟨o', ho', hin⟩ := parse_full ho hlt hR hnewLF htail hcut hw hN
    refine ⟨o', ho', ?_⟩
    have hbytes : R = unlines (as ++ bs ++ [b]) ++ (unlines rest ++ (splitLines R).2) := by
      conv_lhs => rw [← unlines_splitLines R, hls]
      rw [← List.append_assoc, ← unlines_append, List.append_assoc _ [b], List.singleton_append]
    rw [hbytes]
    rw [hls] at hlines
    refine .body (fun l hl => hlines l ?_) (hopen' hbs) hb hN hin
    rw [List.mem_append, List.mem_cons]
    rw [List.mem_append, List.mem_singleton] at hl
    exact hl.imp_right Or.inl
  · -- no empty line yet, or the walk ends in front of it
    obtain ⟨o', ho', hin⟩ := parse_open ho hlt hR hnewLF htail hcut hw
    refine ⟨o', ho', .header ?_ (hopen' hbs) ?_ hin⟩
    · rw [← hnew, hcut, ← List.append_assoc]
      exact List.prefix_append _ _
    · rcases hend with rfl | hend
      · left
        rw [← hnew, hcut, List.append_nil]
      · exact Or.inr hend

/-- **One call passes the phase on.** -/
theorem parse_phase {P c : Bytes} (hphase : A.Phase P o) (hpre : P ++ c <+: A.bytes)
    (hN : LengthReads A.rest) :
    ∃ o', o.parse dm (P ++ c) = some (0, o') ∧ A.Phase (P ++ c) o' := by
  have hlt : (P ++ c).length < 2 ^ 32 := hpre.length_le.trans_lt A.length_lt
  cases hphase with
  | idle hP ho =>
    rcases isPrefix_line_cases A.line_noLF hpre with hno | ⟨R, hR, hPc⟩
    · exact ⟨o, parse_idle_of_ret ho (parseLine_of_notMem hno), .idle hno ho⟩
    · rw [hPc] at hlt ⊢
      obtain ⟨o₁, hparse, hin, -⟩ := parse_idle_of_ok ho (n := A.line.length + 1)
        (by rw [List.length_append, List.length_cons] at hlt; omega) (parseLine_of_rest hR)
      rw [hparse]
      have hin' : InHeader A.reqLine (({} : CHttpHeader).setLines []) (A.offset []) o₁ := hin
      exact parse_header_phase hin' List.nil_prefix (by simp) hlt (lengthReads_of_isPrefix hN hR)
  | @header R _ as hls hopen hstop ho =>
    rw [List.append_assoc, List.cons_append] at hpre hlt ⊢
    have hR : R ++ c <+: A.rest :=
      (List.cons_prefix_cons.mp ((List.prefix_append_right_inj A.line).mp hpre)).2
    exact parse_header_phase ho (hls.trans (splitLines_of_isPrefix (List.prefix_append R c)))
      hopen hlt (lengthReads_of_isPrefix hN hR)
  | @body as b behind _ N hls hopen hb hN ho =>
    have hoff : ∀ s : Bytes, (A.line ++ LF :: (unlines (as ++ [b]) ++ s)).length =
        A.offset (as ++ [b]) + s.length := by
      intro s
      rw [List.length_append, List.length_cons, List.length_append, offset]
      omega
    have hbytes : A.line ++ LF :: (unlines (as ++ [b]) ++ behind) ++ c =
        A.line ++ LF :: (unlines (as ++ [b]) ++ (behind ++ c)) := by
      rw [List.append_assoc, List.cons_append, List.append_assoc]
    rw [hbytes] at hlt ⊢
    obtain ⟨o', ho', hin, -⟩ := parse_inBody dm ho
      (by rw [hoff, List.length_append]; omega) hlt
    rw [hoff, Nat.add_sub_cancel_left] at hin
    exact ⟨o', ho', .body hls hopen hb hN hin⟩

theorem Phase.withBuffer {P : Bytes} (h : A.Phase P o) (b n : ℕ) :
    A.Phase P (o.withBuffer b n) := by
  cases h with
  | idle hP ho => exact .idle hP (ho.withBuffer b n)
  | header hpre hopen hstop ho => exact .header hpre hopen hstop (ho.withBuffer b n)
  | body hls hopen hb hN ho => exact .body hls hopen hb hN (ho.withBuffer b n)

/-- **Every cutting ends in a phase of the bytes fed**, all calls returning `0`. -/
theorem feed_phase (hN : LengthReads A.rest) {cs : List Bytes} (hcs : [] ∉ cs)
    (hflat : cs.flatten = A.bytes) :
    ∃ s, feed (CHttpReq.input dm) CHttpReq.fresh cs = some (0, s) ∧ A.Phase A.bytes s.2 := by
  have hstep : ∀ (P c : Bytes) (s : Heap Byte × CHttpReq), Owns s.1 s.2 P ∧ A.Phase P s.2 →
      c ≠ [] → P ++ c <+: A.bytes →
      ∃ s', CHttpReq.input dm s c = some (0, s') ∧ Owns s'.1 s'.2 (P ++ c) ∧
        A.Phase (P ++ c) s'.2 := by
    rintro P c s ⟨hown, hphase⟩ - hpre
    obtain ⟨h', b, hinput, -⟩ := input_of_lt dm hown (hpre.length_le.trans_lt A.length_lt)
    obtain ⟨o', ho', hphase'⟩ := parse_phase (hphase.withBuffer b (P ++ c).length) hpre hN
    obtain ⟨hin, hown'⟩ := hinput 0 o' ho'
    exact ⟨(h', o'), hin, hown', hphase'⟩
  obtain ⟨s, hfeed, -, hphase⟩ := feed_of_invariant (M := A.bytes) hstep cs [] CHttpReq.fresh
    ⟨owns_fresh, .idle List.not_mem_nil idle_fresh⟩ hcs (by rw [hflat]; exact List.prefix_refl _)
  rw [List.nil_append, hflat] at hphase
  exact ⟨s, hfeed, hphase⟩

/-! ## Line by line -/

/-- The state when the bytes `P` have been fed in some way and the lines `as` have been taken. -/
def FedHeader (A : Accepted dm) (P : Bytes) (as : List Bytes) (s : Heap Byte × CHttpReq) : Prop :=
  Fed (CHttpReq.input dm) CHttpReq.fresh P s ∧ Owns s.1 s.2 P ∧
    InHeader A.reqLine (({} : CHttpHeader).setLines as) (A.offset as) s.2

/-- **Line by line every line is reached**, up to the first empty one. -/
theorem exists_fed_header {as : List Bytes} (hpre : as <+: (splitLines A.rest).1)
    (hopen : ∀ l ∈ as, headLine l ≠ .blank) :
    ∃ s, A.FedHeader (A.line ++ LF :: unlines as) as s := by
  have hlines := (LF_notMem_splitLines A.rest).1
  have hlt : ∀ {bs : List Bytes}, bs <+: (splitLines A.rest).1 →
      (A.line ++ LF :: unlines bs).length < 2 ^ 32 := by
    rintro bs ⟨cs, hcs⟩
    have hrest := congrArg List.length (unlines_splitLines A.rest)
    rw [← hcs, unlines_append, List.length_append, List.length_append] at hrest
    have hall := A.length_lt
    rw [List.length_append, List.length_cons] at hall ⊢
    omega
  induction as using List.reverseRecOn with
  | nil =>
    have hlt' := hlt hpre
    obtain ⟨h', b, hinput, -⟩ := input_of_lt dm owns_fresh (c := A.line ++ [LF]) hlt'
    obtain ⟨o₁, hparse, hin, -⟩ := parse_idle_of_ok
      (idle_fresh.withBuffer b ([] ++ (A.line ++ [LF])).length) (n := A.line.length + 1)
      (by rw [List.length_append, List.length_cons] at hlt'; omega)
      (parseLine_of_rest (A := A) (R := []) List.nil_prefix)
    have hin₁ : InHeader A.reqLine (({} : CHttpHeader).setLines []) (A.offset []) o₁ := hin
    have hR : ([] : Bytes) = unlines [] ++ (unlines [] ++ []) := rfl
    obtain ⟨o', ho', hin'⟩ := parse_open hin₁ hlt' hR (by simp) List.not_mem_nil
      (show ([] : List Bytes) = [] ++ [] from rfl) (walk_nil _ _)
    obtain ⟨hcall, hown⟩ := hinput 0 o' (hparse.trans ho')
    exact ⟨(h', o'), (fed_nil _).snoc (by simp) hcall, hown, hin'⟩
  | append_singleton as l ih =>
    have hl : l ∈ as ++ [l] := List.mem_append_right as (List.mem_singleton_self l)
    obtain ⟨s, hfed, hown, hin⟩ := ih ((List.prefix_append as [l]).trans hpre)
      fun m hm => hopen m (List.mem_append_left _ hm)
    have hbytes : A.line ++ LF :: unlines as ++ (l ++ [LF]) =
        A.line ++ LF :: unlines (as ++ [l]) := by
      rw [unlines_append, List.append_assoc, List.cons_append, unlines_cons, unlines_nil]
    have hlt' := hlt hpre
    rw [← hbytes] at hlt'
    obtain ⟨h', b, hinput, -⟩ := input_of_lt dm hown hlt'
    rw [hbytes] at hlt' hinput
    have hR : unlines (as ++ [l]) = unlines as ++ (unlines [l] ++ []) := by
      rw [unlines_append, List.append_nil]
    obtain ⟨o', ho', hin'⟩ := parse_open (hin.withBuffer b _) hlt' hR
      (fun m hm => hlines m (hpre.subset (by rwa [List.mem_singleton.mp hm]))) List.not_mem_nil
      (List.append_nil [l]).symm (by rw [walk_singleton (hopen l hl), setLines_append]; rfl)
    obtain ⟨hcall, hown'⟩ := hinput 0 o' ho'
    exact ⟨(h', o'), hbytes ▸ hfed.snoc (by simp) hcall, hown', hin'⟩

section Rest

variable {as new : List Bytes} {t : Bytes}

/-- The lines in front, the lines that follow and the tail make up the bytes. -/
theorem rest_eq (hsplit : splitLines A.rest = (as ++ new, t)) :
    A.rest = unlines as ++ (unlines new ++ t) := by
  conv_lhs => rw [← unlines_splitLines A.rest, hsplit]
  rw [unlines_append, List.append_assoc]

/-- What the remaining bytes in one chunk lead to is what `parse` makes of all bytes. -/
theorem exists_feed_rest (hopen : ∀ l ∈ as, headLine l ≠ .blank)
    (hsplit : splitLines A.rest = (as ++ new, t)) (hne : unlines new ++ t ≠ []) :
    ∃ cs o₁, [] ∉ cs ∧ cs.flatten = A.bytes ∧
      InHeader A.reqLine (({} : CHttpHeader).setLines as) (A.offset as) o₁ ∧
      (o₁.parse dm A.bytes = none → feed (CHttpReq.input dm) CHttpReq.fresh cs = none) ∧
      ∀ o', o₁.parse dm A.bytes = some (0, o') →
        ∃ h', feed (CHttpReq.input dm) CHttpReq.fresh cs = some (0, h', o') := by
  obtain ⟨s, hfed, hown, hin⟩ := exists_fed_header (A := A)
    (by rw [hsplit]; exact List.prefix_append as new) hopen
  have hbytes : A.line ++ LF :: unlines as ++ (unlines new ++ t) = A.bytes := by
    rw [bytes, rest_eq hsplit, List.append_assoc, List.cons_append]
  obtain ⟨cs, hcs, hflat, hfeed⟩ := hfed.exists_feed hne
  obtain ⟨h', b, hok, hnone, -⟩ := input_of_lt dm hown (c := unlines new ++ t)
    (by rw [hbytes]; exact A.length_lt)
  rw [hbytes] at hok hnone hflat
  refine ⟨cs, _, hcs, hflat, hin.withBuffer b A.bytes.length, ?_, ?_⟩
  · intro h
    rw [hfeed]
    exact hnone h
  · intro o' ho'
    rw [hfeed]
    exact ⟨h', (hok 0 o' ho').1⟩

theorem new_noLF (hsplit : splitLines A.rest = (as ++ new, t)) :
    (∀ l ∈ new, LF ∉ l) ∧ LF ∉ t := by
  have h := LF_notMem_splitLines A.rest
  rw [hsplit] at h
  exact ⟨fun l hl => h.1 l (List.mem_append_right as hl), h.2⟩

/-- **The remaining bytes in one chunk**, where the walk ends in front of the empty line. -/
theorem exists_feed_open (hopen : ∀ l ∈ as, headLine l ≠ .blank)
    (hsplit : splitLines A.rest = (as ++ new, t)) {bs rest : List Bytes}
    (hbs : new = bs ++ rest)
    (hw : walk cMaxHeadLine (({} : CHttpHeader).setLines as) new =
      (({} : CHttpHeader).setLines (as ++ bs), bs.length)) :
    ∃ cs s, [] ∉ cs ∧ cs.flatten = A.bytes ∧
      feed (CHttpReq.input dm) CHttpReq.fresh cs = some (0, s) ∧
      InHeader A.reqLine (({} : CHttpHeader).setLines (as ++ bs)) (A.offset (as ++ bs)) s.2 := by
  have hrest := rest_eq hsplit
  obtain ⟨hnew, ht⟩ := new_noLF hsplit
  by_cases hne : unlines new ++ t = []
  · -- all bytes have been fed
    obtain ⟨s, ⟨cs, hcs, hflat, hfeed⟩, -, hin⟩ := exists_fed_header (A := A)
      (by rw [hsplit]; exact List.prefix_append as new) hopen
    obtain ⟨hnil, -⟩ := List.append_eq_nil_iff.mp hne
    obtain rfl : bs = [] := by
      cases bs with
      | nil => rfl
      | cons b bs =>
        rw [hbs, List.cons_append, unlines_cons] at hnil
        exact absurd hnil (by simp)
    rw [List.append_nil]
    exact ⟨cs, s, hcs, by rw [hflat, bytes, hrest, hne, List.append_nil], hfeed, hin⟩
  · obtain ⟨cs, o₁, hcs, hflat, hin, -, hsome⟩ := exists_feed_rest hopen hsplit hne
    obtain ⟨o', ho', hin'⟩ := parse_open hin A.length_lt hrest hnew ht hbs hw
    obtain ⟨h', hfeed⟩ := hsome o' ho'
    exact ⟨cs, (h', o'), hcs, hflat, hfeed, hin'⟩

/-- **A short stop is the end of some cutting.** -/
theorem exists_feed_shortStop {as : List Bytes} (hpre : as <+: frontLines (splitLines A.rest).1)
    (hstop : ShortStop as) :
    ∃ cs s, [] ∉ cs ∧ cs.flatten = A.bytes ∧
      feed (CHttpReq.input dm) CHttpReq.fresh cs = some (0, s) ∧
      InHeader A.reqLine (({} : CHttpHeader).setLines as) (A.offset as) s.2 := by
  have hopen : ∀ l ∈ as, headLine l ≠ .blank := fun l hl =>
    ne_blank_of_mem_frontLines l (hpre.subset hl)
  obtain ⟨more, hmore⟩ := hpre.trans (List.takeWhile_prefix _)
  have hsplit : splitLines A.rest = (as ++ more, (splitLines A.rest).2) := by rw [hmore]
  rcases hstop with ⟨as', l, rfl, hl⟩ | ⟨as', ms, rfl, hlen, hms⟩
  · rw [List.append_assoc, List.singleton_append] at hsplit
    refine exists_feed_open (fun m hm => hopen m (List.mem_append_left _ hm)) hsplit
      (show l :: more = [l] ++ more from rfl) ?_
    rw [walk_noName hl, setLines_append]
    exact congrArg (·, 1) (setLine_of_noName hl _).symm
  · rw [List.append_assoc] at hsplit
    refine exists_feed_open (fun m hm => hopen m (List.mem_append_left _ hm)) hsplit
      (show ms ++ more = ms ++ more from rfl) ?_
    rw [walk_limit hlen hms, setLines_append, hlen]

/-- **The remaining bytes in one chunk**, where they start with the empty line. -/
theorem exists_feed_full (hopen : ∀ l ∈ as, headLine l ≠ .blank) {b : Bytes}
    {after : List Bytes} (hsplit : splitLines A.rest = (as ++ b :: after, t))
    (hb : headLine b = .blank) {N : ℕ}
    (hN : contLen (({} : CHttpHeader).setLines as) = .ok N) :
    ∃ cs s, [] ∉ cs ∧ cs.flatten = A.bytes ∧
      feed (CHttpReq.input dm) CHttpReq.fresh cs = some (0, s) ∧
      InBody A.reqLine (fullHeader as) (A.offset (as ++ [b])) N (unlines after ++ t).length
        s.2 := by
  obtain ⟨hnew, ht⟩ := new_noLF hsplit
  obtain ⟨cs, o₁, hcs, hflat, hin, -, hsome⟩ :=
    exists_feed_rest hopen hsplit (unlines_cons_append_ne_nil b after t)
  have hfull := parse_full hin A.length_lt (rest_eq hsplit) hnew ht
    (show b :: after = [] ++ b :: after from rfl) (by rw [walk_blank hb, List.append_nil]; rfl)
    (N := N) (by rw [List.append_nil, hN])
  rw [List.append_nil] at hfull
  obtain ⟨o', ho', hin'⟩ := hfull
  obtain ⟨h', hfeed⟩ := hsome o' ho'
  exact ⟨cs, (h', o'), hcs, hflat, hfeed, hin'⟩

/-- Where the length announced cannot be read, the empty line leads to no defined state. -/
theorem exists_feed_none (hopen : ∀ l ∈ as, headLine l ≠ .blank) {b : Bytes}
    {after : List Bytes} (hsplit : splitLines A.rest = (as ++ b :: after, t))
    (hb : headLine b = .blank)
    (hN : contLen (({} : CHttpHeader).setLines as) = .undefined) :
    ∃ cs, [] ∉ cs ∧ cs.flatten = A.bytes ∧
      feed (CHttpReq.input dm) CHttpReq.fresh cs = none := by
  obtain ⟨hnew, ht⟩ := new_noLF hsplit
  obtain ⟨cs, o₁, hcs, hflat, hin, hnone, -⟩ :=
    exists_feed_rest hopen hsplit (unlines_cons_append_ne_nil b after t)
  have hw := walk_blank hb (({} : CHttpHeader).setLines as) after
  exact ⟨cs, hcs, hflat, hnone (parse_inHeader_undefined hin hnew ht
    (drop_offset (rest_eq hsplit)) (by rw [hw]) (by rw [hw]; exact hN))⟩

end Rest

end Accepted

end HttpCodec
end CModel
