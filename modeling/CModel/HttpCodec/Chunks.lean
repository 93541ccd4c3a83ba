import CModel.HttpCodec.HeadChunks
import CModel.HttpCodec.LineSettled

/-!
# When the chunks of a request do not matter

`CHttpReq` is fed with bytes of any kind, cut in any way.

* `Seen`, `ChunkIndependent`: what a user sees at the end is the same for every cutting.
* `HeaderSettled`: no walk over the header lines ends early, or it does not matter where it does.
* `chunkIndependent_of_ret_iff`, `chunkIndependent_of_ok_iff`: a refused and an accepted request
  line.
* `chunkIndependent_iff`: **the chunks do not matter exactly if request line and header are
  settled.**
-/

namespace CModel
namespace HttpCodec

open CHttpReq

/-! ## What is seen -/

/-- What a user sees of the object when the chunks have been fed. -/
structure Seen where
  code : ℤ
  inited : Bool
  path : Bytes
  file : Bytes
  arg : Bytes
  ver : ℤ
  urlArgs : StdMap
  headAttribute : StdMap
  contentLength : ℕ
  infusedLength : ℕ

/-- The last return code and the fields of the object. -/
def seen (r : ℤ × Heap Byte × CHttpReq) : Seen where
  code := r.1
  inited := r.2.2.inited
  path := r.2.2.reqLine.path
  file := r.2.2.reqLine.file
  arg := r.2.2.reqLine.arg
  ver := r.2.2.reqLine.ver
  urlArgs := r.2.2.reqLine.urlArgs
  headAttribute := r.2.2.header.headAttribute
  contentLength := r.2.2.body.contentLength
  infusedLength := r.2.2.body.infusedLength

/-- Every cutting of the bytes into non-empty chunks ends with the same code and fields. -/
def ChunkIndependent (dm : DataModel) (bytes : Bytes) : Prop :=
  ∃ v, ∀ cs, [] ∉ cs → cs.flatten = bytes →
    (feed (CHttpReq.input dm) CHttpReq.fresh cs).map seen = some v

/-- What is seen by the request line, the attributes and the numbers of the body. -/
def Seen.of (code : ℤ) (rl : CHttpRequestLine) (attributes : StdMap) (inited : Bool)
    (contentLength infusedLength : ℕ) : Seen where
  code := code
  inited := inited
  path := rl.path
  file := rl.file
  arg := rl.arg
  ver := rl.ver
  urlArgs := rl.urlArgs
  headAttribute := attributes
  contentLength := contentLength
  infusedLength := infusedLength

variable {dm : DataModel} {s : Heap Byte × CHttpReq}

theorem seen_of_idle (h : Idle s.2) (code : ℤ) :
    seen (code, s) = .of code {} ∅ false 0xffffffff 0 := by
  simp only [seen, Seen.of, h.inited, h.reqLine, h.header, h.contentLength, h.infusedLength]

theorem seen_of_inHeader {rl : CHttpRequestLine} {h : CHttpHeader} {pos : ℕ}
    (hs : InHeader rl h pos s.2) (code : ℤ) :
    seen (code, s) = .of code rl h.headAttribute false 0xffffffff 0 := by
  simp only [seen, Seen.of, hs.inited, hs.reqLine, hs.header, hs.contentLength, hs.infusedLength]

theorem seen_of_inBody {rl : CHttpRequestLine} {h : CHttpHeader} {off N n : ℕ}
    (hs : InBody rl h off N n s.2) (code : ℤ) :
    seen (code, s) = .of code rl h.headAttribute (decide (N ≤ n)) N (min N n) := by
  simp only [seen, Seen.of, hs.inited, hs.reqLine, hs.header, hs.contentLength, hs.infusedLength]

/-! ## A refused request line -/

/-- The bytes fed so far leave a refused request line alone. -/
theorem feed_of_ret {bytes : Bytes} {code : ℤ} (hlt : bytes.length < 2 ^ 32)
    (hcode : CHttpRequestLine.parseLine dm {} bytes = .ret code)
    (hsteady : ∀ P, P <+: bytes →
      CHttpRequestLine.parseLine dm {} P = .ret 0 ∨
        CHttpRequestLine.parseLine dm {} P = .ret code) :
    ∀ (cs : List Bytes) (P : Bytes) (s : Heap Byte × CHttpReq), Owns s.1 s.2 P → Idle s.2 →
      CHttpRequestLine.parseLine dm {} P = .ret 0 → P ++ cs.flatten = bytes →
      (feed (CHttpReq.input dm) s cs).map seen =
        some (.of code {} ∅ false 0xffffffff 0)
  | [], P, s, _, hidle, hP, hbytes => by
    rw [List.flatten_nil, List.append_nil] at hbytes
    subst hbytes
    rw [hcode, Outcome.ret.injEq] at hP
    rw [feed_nil, Option.map_some, seen_of_idle hidle, hP]
  | c :: cs, P, s, hown, hidle, _, hbytes => by
    rw [List.flatten_cons, ← List.append_assoc] at hbytes
    have hpre : P ++ c <+: bytes := hbytes ▸ List.prefix_append _ _
    obtain ⟨h', b, hinput, -⟩ := input_of_lt dm hown (hpre.length_le.trans_lt hlt)
    have hidle' := hidle.withBuffer b (P ++ c).length
    have hcall : ∀ {z : ℤ}, CHttpRequestLine.parseLine dm {} (P ++ c) = .ret z →
        CHttpReq.input dm s c = some (z, h', s.2.withBuffer b (P ++ c).length) ∧
          Owns h' (s.2.withBuffer b (P ++ c).length) (P ++ c) := fun hz =>
      hinput _ _ (parse_idle_of_ret hidle' hz)
    by_cases hzero : CHttpRequestLine.parseLine dm {} (P ++ c) = .ret 0
    · -- the request line has not ended, or not with a code
      obtain ⟨hin, hown'⟩ := hcall hzero
      rw [feed_cons_of_zero cs hin]
      exact feed_of_ret hlt hcode hsteady cs (P ++ c) _ hown' hidle' hzero hbytes
    · have hret := (hsteady _ hpre).resolve_left hzero
      have hne : code ≠ 0 := fun h0 => hzero (h0 ▸ hret)
      rw [feed_cons_of_ne cs (hcall hret).1 hne, Option.map_some]
      exact congrArg some (seen_of_idle (s := (h', s.2.withBuffer b (P ++ c).length)) hidle' code)

theorem parseLine_nil : CHttpRequestLine.parseLine dm {} [] = .ret 0 :=
  parseLine_of_notMem List.not_mem_nil

/-- The first chunk meets a fresh object. -/
theorem input_fresh {c : Bytes} (hlt : c.length < 2 ^ 32) :
    (∀ code, CHttpRequestLine.parseLine dm {} c = .ret code →
      ∃ s, CHttpReq.input dm CHttpReq.fresh c = some (code, s) ∧ Idle s.2) ∧
    (CHttpRequestLine.parseLine dm {} c = .undefined →
      CHttpReq.input dm CHttpReq.fresh c = none) := by
  obtain ⟨h', b, hok, hnone, -⟩ := input_of_lt dm owns_fresh (c := c) (by simpa using hlt)
  have hidle := idle_fresh.withBuffer b ([] ++ c).length
  constructor
  · intro code hcode
    exact ⟨_, (hok code _ (parse_idle_of_ret hidle hcode)).1, hidle⟩
  · intro hundef
    exact hnone (parse_idle_of_undefined hidle hundef)

/-- Bytes in one chunk, as a cutting. -/
theorem feed_whole (dm : DataModel) {bytes : Bytes} (hne : bytes ≠ []) :
    [] ∉ [bytes] ∧ [bytes].flatten = bytes ∧
      feed (CHttpReq.input dm) CHttpReq.fresh [bytes] =
        CHttpReq.input dm CHttpReq.fresh bytes :=
  ⟨by simpa using hne.symm, by simp, feed_singleton _ _⟩

/-- **A refused request line.** -/
theorem chunkIndependent_of_ret_iff {bytes : Bytes} {code : ℤ} (hlt : bytes.length < 2 ^ 32)
    (hcode : CHttpRequestLine.parseLine dm {} bytes = .ret code) :
    ChunkIndependent dm bytes ↔
      ∀ P, P <+: bytes →
        CHttpRequestLine.parseLine dm {} P = .ret 0 ∨
          CHttpRequestLine.parseLine dm {} P = .ret code := by
  constructor
  · rintro ⟨v, hv⟩ P hP
    by_cases hnil : P = []
    · rw [hnil]
      exact Or.inl parseLine_nil
    by_cases hall : P = bytes
    · rw [hall]
      exact Or.inr hcode
    -- in one chunk the code is that of all bytes, in two it may be that of the first
    have hne : bytes ≠ [] := by
      rintro rfl
      exact hnil (List.prefix_nil.mp hP)
    obtain ⟨hcs, hflat, hfeed⟩ := feed_whole dm hne
    obtain ⟨s, hin, -⟩ := (input_fresh hlt).1 code hcode
    have hwhole := hv [bytes] hcs hflat
    rw [hfeed, hin, Option.map_some, Option.some.injEq] at hwhole
    have hvcode : v.code = code := by rw [← hwhole]; rfl
    have hPlt := hP.length_le.trans_lt hlt
    obtain ⟨Q, hQ⟩ := id hP
    have hQne : Q ≠ [] := by
      rintro rfl
      exact hall (by rw [← hQ, List.append_nil])
    have hcut := hv [P, Q] (by simp [Ne.symm hnil, Ne.symm hQne]) (by simpa using hQ)
    cases hline : CHttpRequestLine.parseLine dm {} P with
    | undefined =>
      rw [feed_cons_of_none _ ((input_fresh hPlt).2 hline)] at hcut
      exact absurd hcut (by simp)
    | ret z =>
      by_cases hz : z = 0
      · exact Or.inl (by rw [hz])
      · obtain ⟨s', hin', -⟩ := (input_fresh hPlt).1 z hline
        rw [feed_cons_of_ne _ hin' hz, Option.map_some, Option.some.injEq] at hcut
        have hvz : v.code = z := by rw [← hcut]; rfl
        exact Or.inr (by rw [← hvz, hvcode])
    | ok x =>
      rw [parseLine_of_isPrefix hP hlt hline] at hcode
      exact absurd hcode (by simp)
  · intro hsteady
    exact ⟨_, fun cs _ hflat => feed_of_ret hlt hcode hsteady cs [] CHttpReq.fresh owns_fresh
      idle_fresh parseLine_nil (by rw [List.nil_append, hflat])⟩

/-! ## An accepted request line -/

/-- The walk over the lines behind the request line may end early only where it does not matter:
the lines left out change no attribute; and if an empty line is left out, it announces as many
bytes as a fresh object expects, and nothing follows it. -/
structure HeaderSettled (R : Bytes) : Prop where
  lengthReads : LengthReads R
  sameAttributes : ∀ as, as <+: frontLines (splitLines R).1 → ShortStop as →
    (({} : CHttpHeader).setLines as).headAttribute =
      (({} : CHttpHeader).setLines (frontLines (splitLines R).1)).headAttribute
  nothingBehind : ∀ as b after, as <+: frontLines (splitLines R).1 → ShortStop as →
    headLine b = .blank → (splitLines R).1 = frontLines (splitLines R).1 ++ b :: after →
    contLen (({} : CHttpHeader).setLines (frontLines (splitLines R).1)) = .ok 0xffffffff ∧
      after = [] ∧ (splitLines R).2 = []

section Accepted

variable {A : Accepted dm}

theorem LF_mem_bytes : LF ∈ A.bytes := List.mem_append_right _ List.mem_cons_self

/-- Two texts behind the same request line. -/
theorem rest_inj {R : Bytes} (h : A.bytes = A.line ++ LF :: R) : A.rest = R :=
  List.cons_injective (List.append_cancel_left h)

theorem isPrefix_front_self (ls : List Bytes) {b : Bytes} {after : List Bytes}
    (h : ls = frontLines ls ++ b :: after) : frontLines ls ≠ ls := by
  intro h0
  have hlen := congrArg List.length h
  rw [h0, List.length_append, List.length_cons] at hlen
  omega

/-- What every cutting ends with where there is no empty line. -/
theorem seen_of_phase_open (hset : HeaderSettled A.rest)
    (hfront : frontLines (splitLines A.rest).1 = (splitLines A.rest).1)
    (hphase : A.Phase A.bytes s.2) :
    seen (0, s) = .of 0 A.reqLine
      (({} : CHttpHeader).setLines (frontLines (splitLines A.rest).1)).headAttribute false
      0xffffffff 0 := by
  generalize hP : A.bytes = P at hphase
  generalize ho : s.2 = o at hphase
  cases hphase with
  | idle hno hidle => exact absurd (hP ▸ LF_mem_bytes) hno
  | header hpre hopen hstop hin =>
    obtain rfl := rest_inj hP
    rw [← ho] at hin
    rw [seen_of_inHeader hin]
    rcases hstop with rfl | hstop
    · rw [hfront]
    · rw [hset.sameAttributes _ (isPrefix_frontLines hpre hopen) hstop]
  | body hls hopen hb hN hin =>
    exfalso
    have hrest := rest_inj hP
    have hlines := congrArg Prod.fst (congrArg splitLines hrest)
    rw [splitLines_unlines_append hls, List.append_assoc, List.singleton_append] at hlines
    rw [hlines, frontLines_of_blank hopen hb] at hfront
    exact isPrefix_front_self _ (by rw [frontLines_of_blank hopen hb])
      ((frontLines_of_blank hopen hb _).trans hfront)

/-- What every cutting ends with where there is an empty line. -/
theorem seen_of_phase_blank (hset : HeaderSettled A.rest) {b : Bytes} {after : List Bytes}
    (hb : headLine b = .blank)
    (hls : (splitLines A.rest).1 = frontLines (splitLines A.rest).1 ++ b :: after) {N : ℕ}
    (hN : contLen (({} : CHttpHeader).setLines (frontLines (splitLines A.rest).1)) = .ok N)
    (hphase : A.Phase A.bytes s.2) :
    seen (0, s) = .of 0 A.reqLine
      (({} : CHttpHeader).setLines (frontLines (splitLines A.rest).1)).headAttribute
      (decide (N ≤ (unlines after ++ (splitLines A.rest).2).length)) N
      (min N (unlines after ++ (splitLines A.rest).2).length) := by
  generalize hP : A.bytes = P at hphase
  generalize ho : s.2 = o at hphase
  cases hphase with
  | idle hno hidle => exact absurd (hP ▸ LF_mem_bytes) hno
  | @header R _ as hpre hopen hstop hin =>
    obtain rfl := rest_inj hP
    rw [← ho] at hin
    have hshort : ShortStop as := by
      refine hstop.resolve_left ?_
      rintro rfl
      exact hopen b (hls ▸ List.mem_append_right _ List.mem_cons_self) hb
    have hfront := isPrefix_frontLines hpre hopen
    -- the empty line has been left out, so that nothing may follow it
    obtain ⟨hmax, hafter, htail⟩ := hset.nothingBehind as b after hfront hshort hb hls
    obtain rfl : N = 0xffffffff := Outcome.ok.inj (hN.symm.trans hmax)
    rw [seen_of_inHeader hin, hset.sameAttributes as hfront hshort, hafter, htail]
    rfl
  | @body as b' behind _ N' hlsLF hopen hb' hN' hin =>
    have hrest := rest_inj hP
    have hsplit : splitLines A.rest =
        (as ++ b' :: (splitLines behind).1, (splitLines behind).2) := by
      rw [hrest, splitLines_unlines_append hlsLF, List.append_assoc, List.singleton_append]
    have hfront : frontLines (splitLines A.rest).1 = as := by
      rw [hsplit, frontLines_of_blank hopen hb']
    rw [hfront] at hN hls ⊢
    rw [hsplit] at hls ⊢
    obtain ⟨rfl, rfl⟩ : b' = b ∧ (splitLines behind).1 = after :=
      List.cons.inj (List.append_cancel_left hls)
    obtain rfl : N' = N := Outcome.ok.inj (hN'.symm.trans hN)
    rw [← ho] at hin
    rw [seen_of_inBody hin, unlines_splitLines behind]
    rfl

/-- The chunks do not matter where all phases of the bytes look the same. -/
theorem chunkIndependent_of_phase (hreads : LengthReads A.rest) {v : Seen}
    (hv : ∀ s : Heap Byte × CHttpReq, A.Phase A.bytes s.2 → seen (0, s) = v) :
    ChunkIndependent dm A.bytes := by
  refine ⟨v, ?_⟩
  intro cs hcs hflat
  obtain ⟨s, hfeed, hphase⟩ := Accepted.feed_phase hreads hcs hflat
  rw [hfeed, Option.map_some, hv s hphase]

/-- Where the chunks do not matter, the length announced can be read. -/
theorem lengthReads_of_chunkIndependent (h : ChunkIndependent dm A.bytes) :
    LengthReads A.rest := by
  obtain ⟨v, hv⟩ := h
  intro b after hb hls
  cases hN : contLen (({} : CHttpHeader).setLines (frontLines (splitLines A.rest).1)) with
  | undefined =>
    obtain ⟨cs, hcs, hflat, hfeed⟩ := Accepted.exists_feed_none ne_blank_of_mem_frontLines
      (Prod.ext hls rfl) hb hN
    have hseen := hv cs hcs hflat
    rw [hfeed] at hseen
    exact absurd hseen (by simp)
  | ret code => exact absurd hN (contLen_ne_ret _ _)
  | ok N => exact ⟨N, rfl⟩

/-- Some cutting ends at each short stop, so that all of them look like it. -/
theorem eq_of_shortStop {v : Seen} (hv : ∀ cs, [] ∉ cs → cs.flatten = A.bytes →
      (feed (CHttpReq.input dm) CHttpReq.fresh cs).map seen = some v) {as : List Bytes}
    (hpre : as <+: frontLines (splitLines A.rest).1) (hstop : ShortStop as) :
    v = .of 0 A.reqLine (({} : CHttpHeader).setLines as).headAttribute false 0xffffffff 0 := by
  obtain ⟨cs, s, hcs, hflat, hfeed, hin⟩ := Accepted.exists_feed_shortStop hpre hstop
  have hseen := hv cs hcs hflat
  rw [hfeed, Option.map_some, Option.some.injEq, seen_of_inHeader hin] at hseen
  exact hseen.symm

/-- Some cutting reads all lines where none of them is empty. -/
theorem eq_of_open {v : Seen} (hv : ∀ cs, [] ∉ cs → cs.flatten = A.bytes →
      (feed (CHttpReq.input dm) CHttpReq.fresh cs).map seen = some v)
    (hfront : frontLines (splitLines A.rest).1 = (splitLines A.rest).1) :
    v = .of 0 A.reqLine
      (({} : CHttpHeader).setLines (frontLines (splitLines A.rest).1)).headAttribute false
      0xffffffff 0 := by
  have hnil : splitLines A.rest =
      (frontLines (splitLines A.rest).1 ++ [], (splitLines A.rest).2) := by
    rw [List.append_nil, hfront]
  obtain ⟨cs, s, hcs, hflat, hfeed, hin⟩ := Accepted.exists_feed_open
    ne_blank_of_mem_frontLines hnil (show ([] : List Bytes) = [] ++ [] from rfl)
    (by rw [walk_nil, List.append_nil]; rfl)
  have hseen := hv cs hcs hflat
  rw [hfeed, Option.map_some, Option.some.injEq, seen_of_inHeader hin, List.append_nil] at hseen
  exact hseen.symm

/-- Some cutting reads the lines in front of the empty one, and the body. -/
theorem eq_of_blank {v : Seen} (hv : ∀ cs, [] ∉ cs → cs.flatten = A.bytes →
      (feed (CHttpReq.input dm) CHttpReq.fresh cs).map seen = some v) {b : Bytes}
    {after : List Bytes} (hb : headLine b = .blank)
    (hls : (splitLines A.rest).1 = frontLines (splitLines A.rest).1 ++ b :: after) {N : ℕ}
    (hN : contLen (({} : CHttpHeader).setLines (frontLines (splitLines A.rest).1)) = .ok N) :
    v = .of 0 A.reqLine
      (({} : CHttpHeader).setLines (frontLines (splitLines A.rest).1)).headAttribute
      (decide (N ≤ (unlines after ++ (splitLines A.rest).2).length)) N
      (min N (unlines after ++ (splitLines A.rest).2).length) := by
  obtain ⟨cs, s, hcs, hflat, hfeed, hin⟩ := Accepted.exists_feed_full
    ne_blank_of_mem_frontLines (Prod.ext hls rfl) hb hN
  have hseen := hv cs hcs hflat
  rw [hfeed, Option.map_some, Option.some.injEq, seen_of_inBody hin] at hseen
  exact hseen.symm

theorem headerSettled_of_chunkIndependent (h : ChunkIndependent dm A.bytes) :
    HeaderSettled A.rest := by
  have hreads := lengthReads_of_chunkIndependent h
  obtain ⟨v, hv⟩ := h
  refine ⟨hreads, ?_, ?_⟩
  · intro as hpre hstop
    have hshort := eq_of_shortStop hv hpre hstop
    rcases frontLines_cases (splitLines A.rest).1 with hfront | ⟨b, after, hb, hls⟩
    · exact congrArg Seen.headAttribute (hshort.symm.trans (eq_of_open hv hfront))
    · obtain ⟨N, hN⟩ := hreads b after hb hls
      exact congrArg Seen.headAttribute (hshort.symm.trans (eq_of_blank hv hb hls hN))
  · intro as b after hpre hstop hb hls
    obtain ⟨N, hN⟩ := hreads b after hb hls
    have hsame := (eq_of_shortStop hv hpre hstop).symm.trans (eq_of_blank hv hb hls hN)
    obtain rfl : 0xffffffff = N := congrArg Seen.contentLength hsame
    have hinfused : 0 = min 0xffffffff (unlines after ++ (splitLines A.rest).2).length :=
      congrArg Seen.infusedLength hsame
    have hnil : unlines after ++ (splitLines A.rest).2 = [] :=
      List.length_eq_zero_iff.mp (by omega)
    refine ⟨hN, ?_, (List.append_eq_nil_iff.mp hnil).2⟩
    cases after with
    | nil => rfl
    | cons l after => exact absurd hnil (unlines_cons_append_ne_nil _ _ _)

theorem chunkIndependent_of_headerSettled (h : HeaderSettled A.rest) :
    ChunkIndependent dm A.bytes := by
  rcases frontLines_cases (splitLines A.rest).1 with hfront | ⟨b, after, hb, hls⟩
  · exact chunkIndependent_of_phase h.lengthReads fun _ => seen_of_phase_open h hfront
  · obtain ⟨N, hN⟩ := h.lengthReads b after hb hls
    exact chunkIndependent_of_phase h.lengthReads fun _ => seen_of_phase_blank h hb hls hN

/-- **An accepted request line.** -/
theorem chunkIndependent_of_ok_iff : ChunkIndependent dm A.bytes ↔ HeaderSettled A.rest :=
  ⟨headerSettled_of_chunkIndependent, chunkIndependent_of_headerSettled⟩

end Accepted

/-! ## Any bytes -/

/-- The bytes fit below `2 ^ 32`, the request line is read or refused in one way, and behind an
accepted one the header is settled. -/
structure Settled (dm : DataModel) (bytes : Bytes) : Prop where
  length_lt : bytes.length < 2 ^ 32
  line : LineSettled dm bytes
  header : ∀ rl n, CHttpRequestLine.parseLine dm {} bytes = .ok (rl, n) →
    HeaderSettled (bytes.drop n)

/-- Where the first chunk has no defined outcome, the chunks matter. -/
theorem not_chunkIndependent_of_none {bytes : Bytes} (hne : bytes ≠ [])
    (h : CHttpReq.input dm CHttpReq.fresh bytes = none) : ¬ ChunkIndependent dm bytes := by
  rintro ⟨v, hv⟩
  obtain ⟨hcs, hflat, hfeed⟩ := feed_whole dm hne
  have hseen := hv [bytes] hcs hflat
  rw [hfeed, h] at hseen
  exact absurd hseen (by simp)

/-- An accepted request line and the bytes behind it. -/
theorem exists_accepted {bytes : Bytes} (hlt : bytes.length < 2 ^ 32) {rl : CHttpRequestLine}
    {n : ℕ} (h : CHttpRequestLine.parseLine dm {} bytes = .ok (rl, n)) :
    ∃ A : Accepted dm, A.bytes = bytes ∧ A.rest = bytes.drop n := by
  have hLF : LF ∈ bytes := by
    by_contra hno
    rw [parseLine_of_notMem hno] at h
    exact absurd h (by simp)
  obtain ⟨l, R, hl, rfl⟩ := LF_mem_iff.mp hLF
  have hn : n = l.length + 1 := by
    rw [(parseLine_skipLen h).1, getLine_line hl]
  refine ⟨⟨l, R, rl, hl, hlt, by rw [h, hn]⟩, rfl, ?_⟩
  show R = _
  rw [hn, ← List.drop_drop, List.drop_left]
  rfl

/-- **The chunks do not matter** if and only if the bytes are settled. -/
theorem chunkIndependent_iff {bytes : Bytes} (h0 : (0 : Byte) ∉ bytes) :
    ChunkIndependent dm bytes ↔ Settled dm bytes := by
  by_cases hlt : bytes.length < 2 ^ 32
  · cases hline : CHttpRequestLine.parseLine dm {} bytes with
    | undefined =>
      have hne : bytes ≠ [] := by
        rintro rfl
        rw [parseLine_nil] at hline
        exact absurd hline (by simp)
      exact iff_of_false (not_chunkIndependent_of_none hne ((input_fresh hlt).2 hline))
        fun h => h.line.1 hline
    | ret code =>
      rw [chunkIndependent_of_ret_iff hlt hline, parseLine_prefixes_iff h0 hlt hline]
      refine ⟨fun h => ⟨hlt, h, ?_⟩, fun h => h.line⟩
      intro rl n h'
      rw [hline] at h'
      exact absurd h' (by simp)
    | ok x =>
      obtain ⟨rl, n⟩ := x
      obtain ⟨A, hbytes, hrest⟩ := exists_accepted hlt hline
      rw [← hbytes, chunkIndependent_of_ok_iff, hrest, hbytes]
      refine ⟨fun h => ⟨hlt, lineSettled_of_ok hline, ?_⟩, fun h => h.header rl n hline⟩
      intro rl' n' h'
      obtain ⟨-, rfl⟩ := Prod.mk.inj (Outcome.ok.inj (hline.symm.trans h'))
      exact h
  · have hne : bytes ≠ [] := by
      rintro rfl
      exact hlt (by decide)
    have hnone : CHttpReq.input dm CHttpReq.fresh bytes = none :=
      input_of_le dm owns_fresh (by rw [List.nil_append]; omega)
    exact iff_of_false (not_chunkIndependent_of_none hne hnone) fun h => hlt h.length_lt

/-- A header with a line that has no colon. -/
def noColon : Bytes := ascii "GET / HTTP/1.0\r\nbad\r\n\r\n"

/-- The chunks of such a request. -/
theorem chunkIndependent_noColon_iff :
    ChunkIndependent .lp64 noColon ↔ Settled .lp64 noColon :=
  chunkIndependent_iff (by decide)

/-- In one piece the empty line is left out; cut in front of it, it is not. -/
theorem noColon_not_chunkIndependent : ¬ ChunkIndependent .lp64 noColon := by
  rintro ⟨v, hv⟩
  have hwhole := congrArg (Option.map Seen.inited)
    (hv [noColon] (by decide) (by rw [List.flatten_cons, List.flatten_nil, List.append_nil]))
  have hcut := congrArg (Option.map Seen.inited)
    (hv [noColon.take 21, noColon.drop 21] (by decide) (by decide))
  have h₁ : Option.map Seen.inited
      ((feed (CHttpReq.input .lp64) CHttpReq.fresh [noColon]).map seen) = some false := by
    decide
  have h₂ : Option.map Seen.inited
      ((feed (CHttpReq.input .lp64) CHttpReq.fresh [noColon.take 21, noColon.drop 21]).map
        seen) = some true := by
    decide
  rw [h₁, Option.map_some, Option.some.injEq] at hwhole
  rw [h₂, Option.map_some, Option.some.injEq, ← hwhole] at hcut
  exact absurd hcut (by decide)

end HttpCodec
end CModel
