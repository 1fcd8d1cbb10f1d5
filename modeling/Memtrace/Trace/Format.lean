import Memtrace.Word

/-! # The trace wire format

The records of a trace are TLVs (`Tlv<E, W>`): a 16-bit tag, a 16-bit length, then the payload,
padded to a multiple of `sizeof(W)`. This file has the decoder classes of the source as field
offsets and field reads over the mapped buffer:

* `Tag` is `enum class Tag`, `Tag.ofCode` the `switch` of `TraceMm::VisitOne`, and `EntryKind` the
  entry class each tag is decoded with (`LdStEntry`, `InsnEntry`, `InsnExecEntry`, `LdStNxEntry`,
  `MmapEntry`);
* `alignedLength` is `Tlv::GetAlignedLength`, with its mask, and `alignedLength_eq` says it rounds
  up to a multiple of `sizeof(W)`;
* `fixedLength` is the length of the fixed fields of an entry class and `footprint` the byte ranges
  its getters read, as the `TraceEntry2Py` visitor calls them all;
* `magic` is the two-byte switch of `TraceMmBase::Visit`.
-/

namespace Memtrace

set_option autoImplicit false

/-- `enum class Tag`. -/
inductive Tag
  | mtLoad
  | mtStore
  | mtReg
  | mtInsn
  | mtGetReg
  | mtPutReg
  | mtInsnExec
  | mtGetRegNx
  | mtPutRegNx
  | mtMmap
  deriving DecidableEq, Repr

namespace Tag

/-- The wire value of each tag. -/
def code : Tag → Nat
  | mtLoad => 0x4c4c
  | mtStore => 0x5353
  | mtReg => 0x5252
  | mtInsn => 0x4949
  | mtGetReg => 0x4747
  | mtPutReg => 0x5050
  | mtInsnExec => 0x5858
  | mtGetRegNx => 0x6767
  | mtPutRegNx => 0x7070
  | mtMmap => 0x4d4d

/-- The cases of the `switch (tag)` in `TraceMm::VisitOne`; any other value falls through. -/
def ofCode (n : Nat) : Option Tag :=
  if n = 0x4c4c then some mtLoad
  else if n = 0x5353 then some mtStore
  else if n = 0x5252 then some mtReg
  else if n = 0x4949 then some mtInsn
  else if n = 0x4747 then some mtGetReg
  else if n = 0x5050 then some mtPutReg
  else if n = 0x5858 then some mtInsnExec
  else if n = 0x6767 then some mtGetRegNx
  else if n = 0x7070 then some mtPutRegNx
  else if n = 0x4d4d then some mtMmap
  else none

@[simp] theorem ofCode_code (t : Tag) : ofCode t.code = some t := by
  cases t <;> rfl

theorem code_lt (t : Tag) : t.code < 2 ^ 16 := by
  cases t <;> decide

end Tag

/-- The decoder class `VisitOne` hands a record to the visitor with. -/
inductive EntryKind
  | ldSt
  | insn
  | insnExec
  | ldStNx
  | mmap
  deriving DecidableEq, Repr

/-- Which entry class `VisitOne` decodes each tag with. -/
def Tag.entryKind : Tag → EntryKind
  | .mtLoad | .mtStore | .mtReg | .mtGetReg | .mtPutReg => .ldSt
  | .mtInsn => .insn
  | .mtInsnExec => .insnExec
  | .mtGetRegNx | .mtPutRegNx => .ldStNx
  | .mtMmap => .mmap

/-- The entry classes whose records carry an `insnSeq`. -/
def EntryKind.hasInsnSeq : EntryKind → Bool
  | .ldSt | .insnExec | .ldStNx => true
  | .insn | .mmap => false

/-! ## TLV framing -/

/-- `Tlv<E, W>::kFixedLength`. -/
def tlvFixedLength : Nat := 4

/-- `HeaderEntry<E, W>::kFixedLength`. -/
def headerFixedLength : Nat := tlvFixedLength + 2

/-- `Tlv::GetTag`, as the raw 16-bit value. -/
def getTag (e : Endianness) (buf : List UInt8) (cur : Nat) : Option Nat :=
  readInt e buf cur 2

/-- `Tlv::GetLength`. -/
def getLength (e : Endianness) (buf : List UInt8) (cur : Nat) : Option Nat :=
  readInt e buf (cur + 2) 2

/-- `Tlv::GetAlignedLength`: `(length + (W - 1)) & ~(W - 1)` in `W`. -/
def alignedLength (ws : WordSize) (len : Nat) : Nat :=
  (len + (ws.bytes - 1)) &&& (ws.max - (ws.bytes - 1))

theorem land_two_pow_sub_two_pow {x w k : Nat} (hk : k ≤ w) (hx : x < 2 ^ w) :
    x &&& (2 ^ w - 2 ^ k) = x / 2 ^ k * 2 ^ k := by
  have hm : 2 ^ w - 2 ^ k = 2 ^ k * (2 ^ (w - k) - 1) := by
    rw [Nat.mul_sub, mul_one, ← Nat.pow_add, Nat.add_sub_cancel' hk]
  apply Nat.eq_of_testBit_eq
  intro i
  rw [Nat.testBit_and, hm, Nat.mul_comm (x / 2 ^ k), Nat.testBit_mul_pow_two,
    Nat.testBit_mul_pow_two, ← Nat.shiftRight_eq_div_pow, Nat.testBit_shiftRight,
    Nat.testBit_two_pow_sub_one]
  by_cases hki : k ≤ i
  · have hs : k + (i - k) = i := by omega
    by_cases hiw : i < w
    · simp [hki, hs]; omega
    · have : x.testBit i = false := Nat.testBit_eq_false_of_lt
        (lt_of_lt_of_le hx (Nat.pow_le_pow_right (by omega) (by omega)))
      simp [hki, hs, this]
  · simp [hki]

/-- For a 16-bit length the mask rounds up to a multiple of `sizeof(W)`. -/
theorem alignedLength_eq (ws : WordSize) {len : Nat} (h : len < 2 ^ 16) :
    alignedLength ws len = (len + (ws.bytes - 1)) / ws.bytes * ws.bytes := by
  cases ws
  · have := land_two_pow_sub_two_pow (x := len + 3) (w := 32) (k := 2) (by omega) (by omega)
    exact this
  · have := land_two_pow_sub_two_pow (x := len + 7) (w := 64) (k := 3) (by omega) (by omega)
    exact this

theorem le_alignedLength (ws : WordSize) {len : Nat} (h : len < 2 ^ 16) :
    len ≤ alignedLength ws len := by
  rw [alignedLength_eq ws h, Nat.mul_comm]
  have := ws.bytes_pos
  have := Nat.div_add_mod (len + (ws.bytes - 1)) ws.bytes
  have := Nat.mod_lt (len + (ws.bytes - 1)) (by omega : 0 < ws.bytes)
  omega

theorem alignedLength_zero (ws : WordSize) : alignedLength ws 0 = 0 := by
  rw [alignedLength_eq ws (by decide)]
  have := ws.bytes_pos
  rw [Nat.zero_add, Nat.div_eq_of_lt (by omega), Nat.zero_mul]

/-! ## Entry classes -/

/-- The offset of the value bytes of `LdStEntry` and `InsnEntry` (`kValueOffset`); the other
fields are `insnSeq` at 4 and the address or pc at 8. -/
def valueOffset (ws : WordSize) : Nat := tlvFixedLength + 4 + ws.bytes

/-- The offset of `MmapEntry::GetValue`, the NUL-terminated name. -/
def mmapNameOffset (ws : WordSize) : Nat := 4 * ws.bytes

/-- The length of the fixed fields of an entry class: what its getters read at fixed offsets. -/
def EntryKind.fixedLength (ws : WordSize) : EntryKind → Nat
  | .ldSt | .insn => valueOffset ws
  | .insnExec => tlvFixedLength + 4
  | .ldStNx => valueOffset ws + ws.bytes
  | .mmap => mmapNameOffset ws

/-- `GetInsnSeq` of the classes that have it. -/
def getInsnSeq (e : Endianness) (buf : List UInt8) (cur : Nat) : Option Nat :=
  readInt e buf (cur + tlvFixedLength) 4

/-- `LdStEntry::GetAddr`, `InsnEntry::GetPc` and `LdStNxEntry::GetAddr`. -/
def getAddr (e : Endianness) (ws : WordSize) (buf : List UInt8) (cur : Nat) : Option Nat :=
  readInt e buf (cur + tlvFixedLength + 4) ws.bytes

/-- `LdStEntry::GetSize` and `InsnEntry::GetSize`: `GetLength() - kValueOffset` in `W`. -/
def getValueSize (ws : WordSize) (len : Nat) : Nat := ws.sub len (valueOffset ws)

/-- `LdStNxEntry::GetSize`. -/
def getNxSize (e : Endianness) (ws : WordSize) (buf : List UInt8) (cur : Nat) : Option Nat :=
  readInt e buf (cur + valueOffset ws) ws.bytes

/-- `MmapEntry::GetStart`, `GetEnd` and `GetFlags` (`i` = 1, 2, 3). -/
def getMmapField (e : Endianness) (ws : WordSize) (buf : List UInt8) (cur i : Nat) :
    Option Nat :=
  readInt e buf (cur + i * ws.bytes) ws.bytes

/-- Where the C string at `pos` stops: one past its NUL, or past the end of the buffer when the
buffer holds no NUL from `pos` on (`strlen` then runs off the mapping). -/
def cStringEnd (buf : List UInt8) (pos : Nat) : Nat :=
  match ((buf.drop pos).indexOf? 0) with
  | some i => pos + i + 1
  | none => buf.length + 1

/-- The byte ranges `[lo, hi)` that the getters of the entry class read from the record at `cur`
of length `len`: the `insnSeq`, address, pc, size, start, end and flags fields, the value or
opcode bytes `[GetValue(), GetValue() + GetSize())`, and the MMAP name up to its NUL. -/
def footprint (ws : WordSize) (buf : List UInt8) (cur len : Nat) : EntryKind → List (Nat × Nat)
  | .ldSt | .insn =>
    [(cur + 4, cur + 8), (cur + 8, cur + valueOffset ws),
      (cur + valueOffset ws, cur + valueOffset ws + getValueSize ws len)]
  | .insnExec => [(cur + 4, cur + 8)]
  | .ldStNx => [(cur + 4, cur + 8), (cur + 8, cur + valueOffset ws),
      (cur + valueOffset ws, cur + valueOffset ws + ws.bytes)]
  | .mmap => [(cur + ws.bytes, cur + 2 * ws.bytes), (cur + 2 * ws.bytes, cur + 3 * ws.bytes),
      (cur + 3 * ws.bytes, cur + mmapNameOffset ws),
      (cur + mmapNameOffset ws, cStringEnd buf (cur + mmapNameOffset ws))]

/-! ## The magic -/

/-- The switch on `data[0] << 8 | data[1]` in `TraceMmBase::Visit`: `'M','4'`, `'M','8'`,
`'4','M'` and `'8','M'` select the template instance, anything else is `-EINVAL`. -/
def magic : List UInt8 → Option (Endianness × WordSize)
  | b0 :: b1 :: _ =>
    let m := b0.toNat * 256 + b1.toNat
    if m = 0x4d34 then some (.big, .four)
    else if m = 0x4d38 then some (.big, .eight)
    else if m = 0x344d then some (.little, .four)
    else if m = 0x384d then some (.little, .eight)
    else none
  | _ => none

end Memtrace
