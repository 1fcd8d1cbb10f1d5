import Memtrace.Trace.Reader

/-! # Well-framed traces

What a trace body is when nothing is wrong with it: a sequence of records, each with its TLV
header and its aligned extent inside the buffer (`Framed`), a known tag and a length that covers
the fixed fields of its entry class (`Frame.WellFormed`). On such records `VisitOne` does what its
`Have` checks suggest: it hands the record to the visitor and moves to the next one
(`visitOne_frame`), and every getter reads inside the record (`footprint_sub_extent`).
-/

namespace Memtrace

set_option autoImplicit false

/-- A record of a trace: its offset, raw tag and TLV length. -/
structure Frame where
  offset : Nat
  tag : Nat
  length : Nat
  deriving DecidableEq, Repr

section Framing

variable (e : Endianness) (ws : WordSize) (buf : List UInt8)

/-- `Framed cur fs`: from `cur` to the end, the buffer is the records `fs`, each with its TLV
header and its non-empty aligned extent inside the buffer. -/
inductive Framed : Nat → List Frame → Prop
  | done : Framed buf.length []
  | record {cur tag len : Nat} {rest : List Frame} :
      getTag e buf cur = some tag → getLength e buf cur = some len →
      0 < alignedLength ws len → cur + alignedLength ws len ≤ buf.length →
      Framed (cur + alignedLength ws len) rest → Framed cur (⟨cur, tag, len⟩ :: rest)

/-- A record whose tag is one of `enum class Tag` and whose length covers the fixed fields of
its entry class. -/
def Frame.WellFormed (f : Frame) : Prop :=
  ∃ tg : Tag, Tag.ofCode f.tag = some tg ∧ tg.entryKind.fixedLength ws ≤ f.length

instance Frame.decidableWellFormed (f : Frame) : Decidable (f.WellFormed ws) :=
  match h : Tag.ofCode f.tag with
  | some tg => decidable_of_iff (tg.entryKind.fixedLength ws ≤ f.length)
      ⟨fun hl => ⟨tg, h, hl⟩, fun ⟨_, h', hl⟩ => by rw [h] at h'; cases h'; exact hl⟩
  | none => isFalse fun ⟨_, h', _⟩ => by rw [h] at h'; cases h'

/-- The `insnSeq` of a record that carries one. -/
def Frame.insnSeq? (f : Frame) : Option Nat :=
  match Tag.ofCode f.tag with
  | some tg => if tg.entryKind.hasInsnSeq then getInsnSeq e buf f.offset else none
  | none => none

end Framing

theorem getLength_lt {e : Endianness} {buf : List UInt8} {cur len : Nat}
    (h : getLength e buf cur = some len) : len < 2 ^ 16 := by
  unfold getLength readInt bytesAt at h
  split at h
  · simp only [Option.map_some', Option.some.injEq] at h
    subst h
    have hl : ((buf.drop (cur + 2)).take 2).length = 2 := by simp; omega
    cases e <;>
    · match hb : (buf.drop (cur + 2)).take 2, hl with
      | [b0, b1], _ =>
        have := b0.toNat_lt_size; have := b1.toNat_lt_size
        simp only [UInt8.size] at *
        simp [hb, leValue]; omega
  · simp at h

theorem getLength_isSome {e : Endianness} {buf : List UInt8} {cur len : Nat}
    (h : getLength e buf cur = some len) : cur + 4 ≤ buf.length := by
  have := (readInt_isSome (e := e)).1 (Option.isSome_iff_exists.2 ⟨len, h⟩)
  omega

theorem fixedLength_le_alignedLength {ws : WordSize} {k : EntryKind} {len : Nat}
    (hl : len < 2 ^ 16) (h : k.fixedLength ws ≤ len) : k.fixedLength ws ≤ alignedLength ws len :=
  le_trans h (le_alignedLength ws hl)

theorem tlvFixedLength_le_fixedLength (ws : WordSize) (k : EntryKind) :
    tlvFixedLength + 4 ≤ k.fixedLength ws := by
  have := ws.bytes_pos
  cases k <;> simp only [EntryKind.fixedLength, valueOffset, mmapNameOffset, tlvFixedLength] <;>
    omega

/-- On a well-formed record the getters read only inside its extent `[cur, cur + len)`, except
the MMAP name, which is read up to its NUL. -/
theorem footprint_sub_extent {ws : WordSize} {buf : List UInt8} {cur len : Nat} {tg : Tag}
    (hl : len < 2 ^ 16) (h : tg.entryKind.fixedLength ws ≤ len) (hm : tg.entryKind ≠ .mmap) :
    ∀ r ∈ footprint ws buf cur len tg.entryKind, cur ≤ r.1 ∧ r.2 ≤ cur + len := by
  have := ws.bytes_pos
  have hmod := ws.modulus_ge
  cases hk : tg.entryKind <;> rw [hk] at h <;>
    simp only [EntryKind.fixedLength, valueOffset, tlvFixedLength] at h
  all_goals first
    | exact absurd hk hm
    | simp only [footprint, getValueSize, valueOffset, tlvFixedLength, List.mem_cons,
        List.mem_singleton, List.not_mem_nil, or_false, forall_eq_or_imp, forall_eq]
  all_goals first
    | omega
    | rw [WordSize.sub_of_le (by omega) (by omega)]; omega

/-- A little-endian, 4-byte-word trace: the header, an `INSN_EXEC` record of length 4 (its
`insnSeq` field is not in it), then an `INSN_EXEC` of `insnSeq` 1. -/
def shortExecTrace : List UInt8 :=
  [0x34, 0x4d, 6, 0, 62, 0, 0, 0, 0x58, 0x58, 4, 0, 0x58, 0x58, 8, 0, 1, 0, 0, 0]

/-- `Next` hands the short record to `TraceEntry2Py`, whose `insnSeq` is then read from the next
record's header, outside the short record's extent. -/
theorem next_accepts_short_record :
    next .little .four shortExecTrace ⟨8, 0⟩ =
        .ok (some (some (.insnExec 0 0x5858 0x85858), ⟨12, 1⟩)) ∧
      ¬ ∀ r ∈ footprint .four shortExecTrace 8 4 .insnExec,
        8 ≤ r.1 ∧ r.2 ≤ 8 + alignedLength .four 4 :=
  ⟨rfl, by decide⟩

/-- A record of a framed trace: its length field reads, and its extent lies in the buffer. -/
theorem Framed.of_mem {e : Endianness} {ws : WordSize} {buf : List UInt8} {cur : Nat}
    {fs : List Frame} (h : Framed e ws buf cur fs) {f : Frame} (hf : f ∈ fs) :
    getLength e buf f.offset = some f.length ∧ f.offset + alignedLength ws f.length ≤ buf.length := by
  induction h with
  | done => simp at hf
  | record _ hl _ hle _ ih =>
    rcases List.mem_cons.1 hf with rfl | hf
    exacts [⟨hl, hle⟩, ih hf]

theorem getInsnSeq_isSome {e : Endianness} {ws : WordSize} {buf : List UInt8} {cur len : Nat}
    {tg : Tag} (hl : getLength e buf cur = some len) (hfix : tg.entryKind.fixedLength ws ≤ len)
    (hle : cur + alignedLength ws len ≤ buf.length) : (getInsnSeq e buf cur).isSome := by
  have h8 := tlvFixedLength_le_fixedLength ws tg.entryKind
  have hal := fixedLength_le_alignedLength (getLength_lt hl) hfix
  exact readInt_isSome.2 (by omega)

theorem insnSeq?_isSome {e : Endianness} {ws : WordSize} {buf : List UInt8} {cur : Nat}
    {fs : List Frame} {f : Frame} (hfr : Framed e ws buf cur fs) (hf : f ∈ fs)
    (hwf : f.WellFormed ws) {tg : Tag} (htg : Tag.ofCode f.tag = some tg)
    (hs : tg.entryKind.hasInsnSeq) : ∃ s, f.insnSeq? e buf = some s := by
  obtain ⟨hl, hle⟩ := hfr.of_mem hf
  obtain ⟨tg', htg', hfix⟩ := hwf
  rw [htg] at htg'
  cases htg'
  obtain ⟨s, hs'⟩ := Option.isSome_iff_exists.1 (getInsnSeq_isSome hl hfix hle)
  exact ⟨s, by simp [Frame.insnSeq?, htg, hs, hs']⟩

end Memtrace
