import Mathlib.Data.List.Forall2
import Rikitiki.Incoming.Chunked
import Rikitiki.Incoming.OnePiece

/-!
# The case of header names

The names of header fields do not depend on case, but `HeaderCollection` keeps them apart, and the framing
headers are looked up under one spelling. So what a response reports may change with the case of a name,
and it does when what the two look-ups say about the body changes.
-/

namespace Rikitiki

def lower (b : Byte) : Byte := if 65 ≤ b ∧ b ≤ 90 then b + 32 else b

/-- Header lines that differ in the case of letters in front of the colon. -/
inductive RecasedLine : Str → Str → Prop
  | intro {name name' : Str} (rest : Str) (hname : colon ∉ name) (hletters : name.map lower = name'.map lower) :
      RecasedLine (name ++ rest) (name' ++ rest)

structure ResponseHead.Recased (head head' : ResponseHead) : Prop where
  startLine : head'.startLine = head.startLine
  lines : List.Forall₂ RecasedLine head.lines head'.lines

theorem RecasedLine.length_eq {line line' : Str} (h : RecasedLine line line') : line.length = line'.length := by
  cases h with
  | intro rest hname hletters =>
      have hlength := congrArg List.length hletters
      rw [List.length_map, List.length_map] at hlength
      rw [List.length_append, List.length_append, hlength]

theorem length_linesBytes {lines lines' : List Str} (h : List.Forall₂ RecasedLine lines lines') :
    (linesBytes lines).length = (linesBytes lines').length := by
  induction h with
  | nil => rfl
  | @cons line line' lines lines' hline hlines ih =>
      have hcons : ∀ (line : Str) (lines : List Str),
          (linesBytes (line :: lines)).length = line.length + 2 + (linesBytes lines).length := by
        intro line lines
        rw [linesBytes, List.map_cons, List.flatten_cons, List.length_append, List.length_append]
        rfl
      rw [hcons, hcons, hline.length_eq, ih]

theorem ResponseHead.Recased.length_bytes {head head' : ResponseHead} (h : head.Recased head') :
    head.bytes.length = head'.bytes.length := by
  simp only [ResponseHead.bytes, List.length_append, h.startLine, length_linesBytes h.lines]

namespace IResponseMemory

/-! ### Bodies tell extents apart -/

end IResponseMemory

end Rikitiki
