import Mathlib.Data.List.Basic
import Mathlib.Data.Nat.Bitwise

/-! # Machine words of `memtrace_ext.cpp`

The trace reader and the analyzer are templates over an endianness `E` and a word type `W`
(`std::uint32_t` or `std::uint64_t`). Here:

* `Endianness` and `WordSize` are the two template parameters, `WordSize.bytes` is `sizeof(W)`;
* a value of type `W` is a natural number below `WordSize.modulus`, and every `W` sum of the
  source is taken `% modulus` where it is written (`WordSize.add`);
* `u32` is `static_cast<std::uint32_t>` of a `size_t`;
* `readInt` is `RawInt<E, T>::GetValue`: the value of `k` bytes at an offset, read in the trace's
  byte order. An access outside the mapped buffer is `none`.
-/

namespace Memtrace

set_option autoImplicit false

/-- `enum class Endianness`. -/
inductive Endianness
  | little
  | big
  deriving DecidableEq, Repr

/-- The word type `W` of the templates, by its size. -/
inductive WordSize
  | four
  | eight
  deriving DecidableEq, Repr

namespace WordSize

/-- `sizeof(W)`. -/
def bytes : WordSize → Nat
  | four => 4
  | eight => 8

/-- The number of values of `W`. -/
def modulus (ws : WordSize) : Nat := 2 ^ (8 * ws.bytes)

/-- `std::numeric_limits<W>::max()`. -/
def max (ws : WordSize) : Nat := ws.modulus - 1

/-- `a + b` computed in `W`. -/
def add (ws : WordSize) (a b : Nat) : Nat := (a + b) % ws.modulus

/-- `a - b` computed in `W` (for `a, b < modulus`). -/
def sub (ws : WordSize) (a b : Nat) : Nat := (a + ws.modulus - b) % ws.modulus

theorem bytes_pos (ws : WordSize) : 4 ≤ ws.bytes := by cases ws <;> decide

theorem modulus_ge (ws : WordSize) : 2 ^ 32 ≤ ws.modulus := by
  cases ws <;> decide

theorem max_add_one (ws : WordSize) : ws.max + 1 = ws.modulus := by
  have := ws.modulus_ge
  simp only [max]
  omega

theorem max_pos (ws : WordSize) : 0 < ws.max := by
  have := ws.max_add_one; have := ws.modulus_ge; omega

theorem add_of_lt {ws : WordSize} {a b : Nat} (h : a + b < ws.modulus) : ws.add a b = a + b :=
  Nat.mod_eq_of_lt h

theorem sub_of_le {ws : WordSize} {a b : Nat} (ha : a < ws.modulus) (h : b ≤ a) :
    ws.sub a b = a - b := by
  unfold sub
  rw [show a + ws.modulus - b = (a - b) + ws.modulus by omega, Nat.add_mod_right]
  exact Nat.mod_eq_of_lt (by omega)

end WordSize

/-- `static_cast<std::uint32_t>(n)`. -/
def u32 (n : Nat) : Nat := n % 2 ^ 32

/-- `static_cast<std::uint32_t>(-1)`, the empty-slot marker of the partial-use table. -/
def uint32Max : Nat := 2 ^ 32 - 1

@[simp] theorem u32_of_lt {n : Nat} (h : n < 2 ^ 32) : u32 n = n := Nat.mod_eq_of_lt h

/-- The value of a list of bytes, least significant byte first. -/
def leValue : List UInt8 → Nat
  | [] => 0
  | b :: bs => b.toNat + 256 * leValue bs

/-- The bytes `[off, off + k)` of a buffer, or `none` if they are not all inside it. -/
def bytesAt (buf : List UInt8) (off k : Nat) : Option (List UInt8) :=
  if off + k ≤ buf.length then some ((buf.drop off).take k) else none

/-- `RawInt<E, T>(data + off).GetValue()` with `sizeof(T) = k`: the `k` bytes at `off` in byte
order `E`, converted to the host (the conversion makes the host's own order irrelevant). -/
def readInt (e : Endianness) (buf : List UInt8) (off k : Nat) : Option Nat :=
  (bytesAt buf off k).map fun bs =>
    match e with
    | .little => leValue bs
    | .big => leValue bs.reverse

theorem bytesAt_isSome {buf : List UInt8} {off k : Nat} :
    (bytesAt buf off k).isSome ↔ off + k ≤ buf.length := by
  unfold bytesAt
  split <;> simp_all

theorem length_of_bytesAt {buf v : List UInt8} {off k : Nat} (h : bytesAt buf off k = some v) :
    v.length = k := by
  unfold bytesAt at h
  split_ifs at h with hk
  cases h
  simp only [List.length_take, List.length_drop]
  omega

theorem readInt_isSome {e : Endianness} {buf : List UInt8} {off k : Nat} :
    (readInt e buf off k).isSome ↔ off + k ≤ buf.length := by
  simp [readInt, ← bytesAt_isSome]

theorem bytesAt_append_left {buf rest : List UInt8} {off k : Nat}
    (h : off + k ≤ buf.length) : bytesAt (buf ++ rest) off k = bytesAt buf off k := by
  have h' : off + k ≤ (buf ++ rest).length := by simp; omega
  simp only [bytesAt, h, h', if_true, List.drop_append_of_le_length (by omega : off ≤ buf.length)]
  rw [List.take_append_of_le_length (by simp; omega)]

theorem readInt_append_left {e : Endianness} {buf rest : List UInt8} {off k : Nat}
    (h : off + k ≤ buf.length) : readInt e (buf ++ rest) off k = readInt e buf off k := by
  simp only [readInt, bytesAt_append_left h]

theorem bytesAt_append_right {buf rest : List UInt8} {off k : Nat} :
    bytesAt (buf ++ rest) (buf.length + off) k = bytesAt rest off k := by
  simp only [bytesAt, List.length_append, List.drop_append_eq_append_drop, List.drop_length,
    List.drop_eq_nil_of_le (by omega : buf.length ≤ buf.length + off), List.nil_append]
  have : buf.length + off - buf.length = off := by omega
  simp only [this]
  split <;> split <;> first | rfl | omega

theorem readInt_append_right {e : Endianness} {buf rest : List UInt8} {off k : Nat} :
    readInt e (buf ++ rest) (buf.length + off) k = readInt e rest off k := by
  simp only [readInt, bytesAt_append_right]

end Memtrace
