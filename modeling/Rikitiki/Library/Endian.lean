import Mathlib.Algebra.Order.Ring.Nat
import Mathlib.Data.Nat.Notation

/-!
# Numbers in memory

The bytes of a number in the two byte orders, as many as its width says, and the number that bytes spell.
`ByteOrder` is the order a machine stores its words in; `network` is the word whose memory spells a given
number in the byte order of the wire.
-/

namespace Endian

/-- The low `width` bytes of a number, least significant first. -/
def littleBytes : ℕ → ℕ → List UInt8
  | 0, _ => []
  | width + 1, n => n.toUInt8 :: littleBytes width (n / 256)

/-- The low `width` bytes of a number, most significant first. -/
def bigBytes (width n : ℕ) : List UInt8 := (littleBytes width n).reverse

def littleValue : List UInt8 → ℕ
  | [] => 0
  | b :: bytes => b.toNat + 256 * littleValue bytes

/-- The number that bytes spell, most significant first. -/
def bigValue (bytes : List UInt8) : ℕ := littleValue bytes.reverse

@[simp] theorem length_littleBytes (width n : ℕ) : (littleBytes width n).length = width := by
  induction width generalizing n with
  | zero => rfl
  | succ width ih => rw [littleBytes, List.length_cons, ih]

@[simp] theorem length_bigBytes (width n : ℕ) : (bigBytes width n).length = width := by
  rw [bigBytes, List.length_reverse, length_littleBytes]

theorem littleValue_littleBytes (width n : ℕ) :
    littleValue (littleBytes width n) = n % 256 ^ width := by
  induction width generalizing n with
  | zero => simp [littleBytes, littleValue, Nat.mod_one]
  | succ width ih =>
      have hbyte : n.toUInt8.toNat = n % 256 := by simp
      rw [littleBytes, littleValue, ih, hbyte, Nat.pow_succ', Nat.mod_mul]

theorem bigValue_bigBytes {width n : ℕ} (hn : n < 256 ^ width) : bigValue (bigBytes width n) = n := by
  rw [bigValue, bigBytes, List.reverse_reverse, littleValue_littleBytes, Nat.mod_eq_of_lt hn]

theorem littleBytes_littleValue (bytes : List UInt8) :
    littleBytes bytes.length (littleValue bytes) = bytes := by
  induction bytes with
  | nil => rfl
  | cons b bytes ih =>
      have hbyte : b.toNat < 256 := b.toNat_lt
      have hhead : (b.toNat + 256 * littleValue bytes).toUInt8 = b := by
        apply UInt8.toNat_inj.mp
        simp
      have htail : (b.toNat + 256 * littleValue bytes) / 256 = littleValue bytes := by omega
      rw [List.length_cons, littleValue, littleBytes, hhead, htail, ih]

theorem littleValue_lt (bytes : List UInt8) : littleValue bytes < 256 ^ bytes.length := by
  induction bytes with
  | nil => decide
  | cons b bytes ih =>
      have hbyte : b.toNat < 256 := b.toNat_lt
      rw [littleValue, List.length_cons, Nat.pow_succ']
      omega

theorem littleBytes_add (width more low high : ℕ) (hlow : low < 256 ^ width) :
    littleBytes (width + more) (low + 256 ^ width * high)
      = littleBytes width low ++ littleBytes more high := by
  induction width generalizing low with
  | zero =>
      obtain rfl : low = 0 := by simpa using hlow
      simp [littleBytes]
  | succ width ih =>
      have hdiv : low / 256 < 256 ^ width := by
        rw [Nat.pow_succ'] at hlow
        omega
      have hsplit : low + 256 ^ (width + 1) * high = low + 256 * (256 ^ width * high) := by
        rw [Nat.pow_succ', Nat.mul_assoc]
      have hhead : (low + 256 * (256 ^ width * high)).toUInt8 = low.toUInt8 := by
        apply UInt8.toNat_inj.mp
        simp
      have htail : (low + 256 * (256 ^ width * high)) / 256 = low / 256 + 256 ^ width * high := by omega
      rw [Nat.succ_add, littleBytes, littleBytes, hsplit, hhead, htail, ih _ hdiv, List.cons_append]

theorem bigBytes_add (width more low high : ℕ) (hlow : low < 256 ^ width) :
    bigBytes (width + more) (low + 256 ^ width * high) = bigBytes more high ++ bigBytes width low := by
  rw [bigBytes, littleBytes_add width more low high hlow, List.reverse_append]
  rfl

/-! ### Words of a machine -/

/-- The order in which a machine stores the bytes of a word. -/
inductive ByteOrder where
  | little | big
  deriving DecidableEq, Repr

namespace ByteOrder

def bytes : ByteOrder → ℕ → ℕ → List UInt8
  | little => littleBytes
  | big => bigBytes

def value : ByteOrder → List UInt8 → ℕ
  | little => littleValue
  | big => bigValue

/-- The word of `width` bytes whose memory spells `n` in network order. -/
def network (order : ByteOrder) (width n : ℕ) : ℕ := order.value (bigBytes width n)

theorem bytes_value (order : ByteOrder) (memory : List UInt8) :
    order.bytes memory.length (order.value memory) = memory := by
  cases order with
  | little => exact littleBytes_littleValue memory
  | big =>
      have hreverse := littleBytes_littleValue memory.reverse
      rw [List.length_reverse] at hreverse
      rw [bytes, value, bigBytes, bigValue, hreverse, List.reverse_reverse]

theorem value_lt (order : ByteOrder) (memory : List UInt8) :
    order.value memory < 256 ^ memory.length := by
  cases order with
  | little => exact littleValue_lt memory
  | big =>
      have hlt := littleValue_lt memory.reverse
      rwa [List.length_reverse] at hlt

/-- **The memory of a network word is its number in network order.** -/
theorem bytes_network (order : ByteOrder) (width n : ℕ) :
    order.bytes width (order.network width n) = bigBytes width n := by
  have hbytes := bytes_value order (bigBytes width n)
  rwa [length_bigBytes] at hbytes

theorem network_lt (order : ByteOrder) (width n : ℕ) : order.network width n < 256 ^ width := by
  have hlt := value_lt order (bigBytes width n)
  rwa [length_bigBytes] at hlt

end ByteOrder

end Endian
