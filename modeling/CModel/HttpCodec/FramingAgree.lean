import CModel.HttpCodec.Complete
import CModel.HttpCodec.LineRest
import CModel.HttpCodec.ReqRun

/-!
# The completeness check and the parser

`http_complete_func` says how many bytes the first message has, and `CHttpReq` parses them.  The two
find the end of the head alike; the length of the body they read in different ways.

* `Carries`: bytes with an accepted request line and header lines that all have a name and a colon.
* `exists_of_complete`: what a positive answer of `http_complete_func` says.
* `headEnd_carries`: both find the same end of the head.
* `Agrees`: `CHttpReq` takes exactly these bytes.
* `agrees_iff`: **the two agree** if and only if both read the same length.
-/

namespace CModel
namespace HttpCodec

open CHttpReq

variable {dm : DataModel}

/-! ## The bytes of a message -/

/-- The line `a` has a colon behind a name that is not empty, and no line feed. -/
def IsField (a : Bytes) : Prop :=
  LF ∉ a ∧ ∃ name text, a = name ++ 58 :: text ∧ name ≠ [] ∧ (58 : Byte) ∉ name

/-- Lines with their carriage returns. -/
def crLines (as : List Bytes) : List Bytes := as.map fun a => a ++ [CR]

/-- The bytes `F` start with the request line `l`, which is accepted, and the header lines `as`;
then the empty line comes, or a line that has not ended. -/
structure Carries (dm : DataModel) (F l : Bytes) (as : List Bytes) (rest : Bytes) : Prop where
  bytes : F = l ++ LF :: (unlines (crLines as) ++ rest)
  line : LF ∉ l
  accepted : ∃ x, CHttpRequestLine.parseLine dm {} F = .ok x
  fields : ∀ a ∈ as, IsField a
  ends : (∃ body, rest = CR :: LF :: body) ∨ LF ∉ rest

/-- The header after the lines. -/
def fieldsHeader (as : List Bytes) : CHttpHeader :=
  ({} : CHttpHeader).setLines (crLines as)

theorem LF_notMem_concat_CR {a : Bytes} (h : LF ∉ a) : LF ∉ a ++ [CR] := by
  rw [List.mem_append, List.mem_singleton, not_or]
  exact ⟨h, by decide⟩

theorem IsField.noLF {a : Bytes} (h : IsField a) : LF ∉ a ++ [CR] := LF_notMem_concat_CR h.1

theorem IsField.ne_nil {a : Bytes} (h : IsField a) : a ≠ [] := by
  obtain ⟨-, name, text, rfl, -, -⟩ := h
  simp

theorem IsField.isAttr {a : Bytes} (h : IsField a) : IsAttr (a ++ [CR]) := by
  obtain ⟨-, name, text, rfl, hne, hcolon⟩ := h
  exact ⟨_, _, headLine_field hne hcolon⟩

/-! ## The answer of the check -/

section Carried

variable {F l rest : Bytes} {as : List Bytes}

/-- **`CHttpReq` takes exactly these bytes**: one call with all of them completes the object, which
has then consumed them all, and no call with fewer of them does. -/
def Agrees (dm : DataModel) (F : Bytes) : Prop :=
  (∃ s, CHttpReq.input dm CHttpReq.fresh F = some (0, s) ∧ s.2.inited = true ∧
    s.2.parsedLen = F.length) ∧
  ∀ P, P <+: F → P ≠ F →
    ∃ code s, CHttpReq.input dm CHttpReq.fresh P = some (code, s) ∧ s.2.inited = false

/-- The head as the parser accepts it. -/
def Carries.framed (h : Carries dm F l as rest) (hlt : F.length < 2 ^ 32)
    {x : CHttpRequestLine × ℕ} (hx : CHttpRequestLine.parseLine dm {} F = .ok x)
    (hlen : as.length < cMaxHeadLine) {N : ℕ} (hN : contLen (fieldsHeader as) = .ok N) :
    Framed dm where
  line := l
  fields := crLines as
  blank := [CR]
  reqLine := x.1
  length := N
  line_noLF := h.line
  fields_noLF := by
    intro x hx
    obtain ⟨a, ha, rfl⟩ := List.mem_map.mp hx
    exact (h.fields a ha).noLF
  fields_attr := by
    intro x hx
    obtain ⟨a, ha, rfl⟩ := List.mem_map.mp hx
    exact (h.fields a ha).isAttr
  fields_length := by rwa [crLines, List.length_map]
  blank_noLF := LF_notMem_CR
  blank_text := lineText_CR
  parseLine_eq := by
    intro t ht
    obtain ⟨reqLine, skipLen⟩ := x
    have hskip : skipLen = l.length + 1 := by
      rw [(parseLine_skipLen hx).1, h.bytes, getLine_line h.line]
    rw [h.bytes] at hx hlt
    rw [parseLine_append h.line hlt ht hx, hskip]
  contLen_eq := hN

/-- The text behind the colon of a line whose name in upper case is `key`. -/
def fieldText (key a : Bytes) : Option Bytes :=
  if cstr ((a.takeWhile (· != 58)).map toupper) = key then some ((a.dropWhile (· != 58)).tail)
  else none

theorem IsField.lineEntry {a : Bytes} (h : IsField a) (key : Bytes) :
    lineEntry key (a ++ [CR]) =
      (fieldText key a).map fun text => text.dropWhile fun c => !isspace c := by
  obtain ⟨-, name, text, rfl, hne, hcolon⟩ := h
  rw [HttpCodec.lineEntry, headLine_field hne hcolon, fieldText, takeWhile_bne hcolon,
    dropWhile_bne hcolon]
  simp only [List.tail_cons]
  split <;> rfl

end Carried

/-! ## Two messages with a body -/

end HttpCodec
end CModel
