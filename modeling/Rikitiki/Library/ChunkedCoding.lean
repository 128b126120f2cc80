import Rikitiki.Library.Numeral

/-!
# The chunked transfer coding

A chunk is its size as a hexadecimal numeral, a line end, the data and another line end, and a body is a
sequence of chunks up to the first one without data. Chunk extensions and trailers are left out.
`decode` reads a body off the front of a byte string and returns the payload and what is left.
-/

namespace ChunkedCoding

def lineEnd : List UInt8 := [13, 10]

def chunk (data : List UInt8) : List UInt8 :=
  Numeral.numeral 16 data.length ++ (lineEnd ++ (data ++ lineEnd))

def afterLineEnd? (s : List UInt8) : Option (List UInt8) :=
  if s.take 2 = lineEnd then some (s.drop 2) else none

/-- The data of the chunk in front, and what is left behind it. -/
def chunk? (s : List UInt8) : Option (List UInt8 × List UInt8) :=
  let digits := s.takeWhile (Numeral.isDigit 16)
  let size := Numeral.value 16 digits
  if digits = [] then none
  else
    (afterLineEnd? (s.drop digits.length)).bind fun s =>
      if s.length < size then none
      else (afterLineEnd? (s.drop size)).map fun rest => (s.take size, rest)

/-- The chunks up to the first empty one, at most `fuel` of them. -/
def decodeWith : Nat → List UInt8 → Option (List UInt8 × List UInt8)
  | 0, _ => none
  | fuel + 1, s =>
    (chunk? s).bind fun (data, rest) =>
      if data = [] then some ([], rest)
      else (decodeWith fuel rest).map fun (payload, rest) => (data ++ payload, rest)

/-- The payload of the chunked body in front, and what is left behind its last chunk. -/
def decode (s : List UInt8) : Option (List UInt8 × List UInt8) := decodeWith s.length s

/-- Chunks, one after the other. -/
def chunks (pieces : List (List UInt8)) : List UInt8 := (pieces.map chunk).flatten

@[simp] theorem chunks_nil : chunks [] = [] := rfl

theorem chunks_cons (piece : List UInt8) (pieces : List (List UInt8)) :
    chunks (piece :: pieces) = chunk piece ++ chunks pieces := by simp [chunks]

theorem chunks_append (pieces more : List (List UInt8)) :
    chunks (pieces ++ more) = chunks pieces ++ chunks more := by simp [chunks]

@[simp] theorem afterLineEnd?_lineEnd_append (rest : List UInt8) :
    afterLineEnd? (lineEnd ++ rest) = some rest := by
  simp [afterLineEnd?, lineEnd]

theorem not_isDigit_lineEnd {b : UInt8} (hb : b ∈ lineEnd) : Numeral.isDigit 16 b = false := by
  rcases (by simpa [lineEnd] using hb : b = 13 ∨ b = 10) with rfl | rfl
  · rfl
  · rfl

/-- **A chunk is read as the data it was written for.** -/
theorem chunk?_chunk_append (data rest : List UInt8) :
    chunk? (chunk data ++ rest) = some (data, rest) := by
  have hshape : chunk data ++ rest
      = Numeral.numeral 16 data.length ++ (lineEnd ++ (data ++ (lineEnd ++ rest))) := by
    simp only [chunk, List.append_assoc]
  have hdigits : (chunk data ++ rest).takeWhile (Numeral.isDigit 16)
      = Numeral.numeral 16 data.length := by
    rw [hshape]
    apply Numeral.takeWhile_numeral_append (by decide) (by decide)
    intro b hb
    apply not_isDigit_lineEnd
    exact List.mem_of_mem_head? (by simpa [lineEnd] using hb)
  have hsize : Numeral.value 16 (Numeral.numeral 16 data.length) = data.length :=
    Numeral.value_numeral (by decide) (by decide) _
  rw [chunk?, hdigits, hsize, if_neg (Numeral.numeral_ne_nil 16 _), hshape, List.drop_left,
    afterLineEnd?_lineEnd_append, Option.bind_some, if_neg (by simp), List.drop_left,
    afterLineEnd?_lineEnd_append, List.take_left]
  rfl

theorem chunk_ne_nil (data : List UInt8) : chunk data ≠ [] := by simp [chunk, lineEnd]

theorem length_lt_chunk (data : List UInt8) : data.length < (chunk data).length := by
  simp only [chunk, lineEnd, List.length_append, List.length_cons, List.length_nil]
  omega

theorem length_flatten_le_chunks (pieces : List (List UInt8)) :
    pieces.flatten.length ≤ (chunks pieces).length := by
  induction pieces with
  | nil => simp
  | cons piece pieces ih =>
      have hpiece := length_lt_chunk piece
      simp only [chunks_cons, List.flatten_cons, List.length_append]
      omega

theorem length_le_chunks (pieces : List (List UInt8)) : pieces.length ≤ (chunks pieces).length := by
  induction pieces with
  | nil => simp
  | cons piece pieces ih =>
      have hpiece := length_lt_chunk piece
      simp only [chunks_cons, List.length_append, List.length_cons]
      omega

theorem decodeWith_chunks (pieces : List (List UInt8)) (hpieces : ∀ piece ∈ pieces, piece ≠ [])
    (rest : List UInt8) {fuel : Nat} (hfuel : pieces.length < fuel) :
    decodeWith fuel (chunks pieces ++ (chunk [] ++ rest)) = some (pieces.flatten, rest) := by
  induction pieces generalizing fuel with
  | nil =>
      obtain ⟨fuel, rfl⟩ := Nat.exists_eq_succ_of_ne_zero (show fuel ≠ 0 by simp at hfuel; omega)
      rw [chunks_nil, List.nil_append, decodeWith, chunk?_chunk_append]
      rfl
  | cons piece pieces ih =>
      obtain ⟨fuel, rfl⟩ := Nat.exists_eq_succ_of_ne_zero (show fuel ≠ 0 by simp at hfuel; omega)
      have hnext : decodeWith fuel (chunks pieces ++ (chunk [] ++ rest)) = some (pieces.flatten, rest) :=
        ih (fun p hp => hpieces p (by simp [hp])) (by simpa using hfuel)
      rw [chunks_cons, List.append_assoc, decodeWith, chunk?_chunk_append, Option.bind_some]
      simp only [if_neg (hpieces piece (by simp)), hnext, Option.map_some, List.flatten_cons]

/-- **A body is read up to its first empty chunk.** -/
theorem decode_chunks (pieces : List (List UInt8)) (hpieces : ∀ piece ∈ pieces, piece ≠ [])
    (rest : List UInt8) :
    decode (chunks pieces ++ (chunk [] ++ rest)) = some (pieces.flatten, rest) := by
  apply decodeWith_chunks pieces hpieces rest
  have hlength := length_le_chunks pieces
  have hlast := length_lt_chunk []
  simp only [List.length_append, List.length_nil] at hlast ⊢
  omega

/-- **Pieces sent as chunks are a body up to the end exactly when none is empty.** -/
theorem decode_whole_iff (pieces : List (List UInt8)) :
    decode (chunks pieces ++ chunk []) = some (pieces.flatten, []) ↔ ∀ piece ∈ pieces, piece ≠ [] := by
  constructor
  · intro h piece hpiece hnil
    obtain ⟨before, behind, rfl, hbefore⟩ := List.eq_append_cons_of_mem (hnil ▸ hpiece)
    have hdecode := decode_chunks before (fun p hp hempty => hbefore (hempty ▸ hp))
      (chunks behind ++ chunk [])
    rw [chunks_append, chunks_cons, List.append_assoc, List.append_assoc, hdecode] at h
    have hrest : chunks behind ++ chunk [] = [] := (Prod.mk.inj (Option.some.inj h)).2
    exact chunk_ne_nil [] (List.append_eq_nil_iff.mp hrest).2
  · intro h
    simpa using decode_chunks pieces h []

end ChunkedCoding
