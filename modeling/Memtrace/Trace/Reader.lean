import Memtrace.Trace.Format

/-! # `TraceMm`: the cursor over a mapped trace

`TraceMm<E, W>` walks the mapped buffer with a cursor `cur_` and a record counter
`entryIndex_`. This file has its operations with the buffer, `E` and `W` as section variables:

* `TraceMm.init` checks and skips the header record;
* `visitOne` is `VisitOne`: two `Have` checks, the dispatch of a record in the window
  `[start, end)` to a `Visitor`, and the `Advance` by the aligned length;
* `visitLoop` is the `while (cur_ != end_)` loop of `Visit`, and `next` is `Next`;
  `visitLoop_preserves` carries over the loop a property that every dispatch keeps;
* `seekVisitor` is the `Seek` visitor and `seekInsn` is `SeekInsn`.

Loops that the source runs without a bound take a `fuel` argument here; running out of fuel is
`Failure.outOfFuel`, and "the loop returns" is "some fuel makes it return".
-/

namespace Memtrace

set_option autoImplicit false

/-- How a modelled operation can fail. -/
inductive Failure
  /-- a function returned `-EINVAL` -/
  | einval
  /-- undefined behaviour in the source: a read outside the mapped buffer or a vector, a
  division by zero -/
  | fault
  /-- an `assert` of the source does not hold -/
  | assertFailed
  /-- `SeekInsn` threw `std::invalid_argument("No such insn")` -/
  | noSuchInsn
  /-- `Next` or `SeekInsn` threw `std::runtime_error("Failed to parse the next entry")` -/
  | parseError
  /-- the loop did not finish within the fuel it was given -/
  | outOfFuel
  /-- `Disasm::Init` returned -1: capstone has no mode for the machine type -/
  | unsupported
  deriving DecidableEq, Repr

/-- `std::numeric_limits<size_t>::max()`. -/
def sizeMax : Nat := 2 ^ 64 - 1

/-- The cursor of `TraceMm<E, W>`: `cur_` as an offset into the buffer, and `entryIndex_`. -/
structure TraceMm where
  cur : Nat
  entryIndex : Nat
  deriving DecidableEq, Repr

/-- A visitor of `VisitOne`: its `operator()` for each entry class, given the record index, the
tag and the record's offset (the entry object is a view of the buffer at that offset). -/
structure Visitor (σ : Type) where
  visit : Nat → Tag → Nat → σ → Except Failure σ

section Cursor

variable (e : Endianness) (ws : WordSize) (buf : List UInt8)

/-- `TraceMm::Init`: `Have(HeaderEntry::kFixedLength)`, then `Advance` past the header. -/
def TraceMm.init : Except Failure TraceMm :=
  if buf.length < headerFixedLength then .error .einval
  else
    match getLength e buf 0 with
    | some len =>
      if buf.length < alignedLength ws len then .error .einval
      else .ok ⟨alignedLength ws len, 0⟩
    | none => .error .fault

/-- What `TraceMm::Init` returns: the cursor past the header record, at record 0. -/
theorem TraceMm.init_eq_ok {t : TraceMm} (h : TraceMm.init e ws buf = .ok t) :
    ∃ len, getLength e buf 0 = some len ∧ t = ⟨alignedLength ws len, 0⟩ := by
  unfold TraceMm.init at h
  split at h
  · cases h
  · split at h
    · split at h
      · cases h
      · cases h; exact ⟨_, by assumption, rfl⟩
    · cases h

/-- The `switch (tag)` of `VisitOne` for a record inside the window: a known tag goes to the
visitor, any other value leaves `err` at `-EINVAL`. -/
def Visitor.dispatch {σ : Type} (v : Visitor σ) (index tag cur : Nat) (s : σ) : Except Failure σ :=
  match Tag.ofCode tag with
  | some tg => v.visit index tg cur s
  | none => .error .einval

/-- `TraceMm::VisitOne(start, end, visitor)`. -/
def visitOne {σ : Type} (v : Visitor σ) (start stop : Nat) (t : TraceMm) (s : σ) :
    Except Failure (TraceMm × σ) :=
  if buf.length < t.cur + tlvFixedLength then .error .einval
  else
    match getTag e buf t.cur, getLength e buf t.cur with
    | some tag, some len =>
      if buf.length < t.cur + alignedLength ws len then .error .einval
      else
        let r : Except Failure σ :=
          if start ≤ t.entryIndex ∧ t.entryIndex < stop then v.dispatch t.entryIndex tag t.cur s
          else .ok s
        r.map fun s' => (⟨t.cur + alignedLength ws len, (t.entryIndex + 1) % 2 ^ 64⟩, s')
    | _, _ => .error .fault

/-- The loop `while (cur_ != end_) VisitOne(start, end, &visitor)` of `TraceMm::Visit`. -/
def visitLoop {σ : Type} (v : Visitor σ) (start stop : Nat) :
    Nat → TraceMm → σ → Except Failure (TraceMm × σ)
  | 0, _, _ => .error .outOfFuel
  | fuel + 1, t, s =>
    if t.cur = buf.length then .ok (t, s)
    else
      match visitOne e ws buf v start stop t s with
      | .ok (t', s') => visitLoop v start stop fuel t' s'
      | .error err => .error err

/-- A property of the visitor's state that every dispatched record keeps holds after `VisitOne`. -/
theorem visitOne_preserves {σ : Type} {v : Visitor σ} {start stop : Nat} (P : σ → Prop)
    (hP : ∀ i tag cur s s', v.dispatch i tag cur s = .ok s' → P s → P s') {t t' : TraceMm}
    {s s' : σ} (h : visitOne e ws buf v start stop t s = .ok (t', s')) (hs : P s) : P s' := by
  unfold visitOne at h
  split_ifs at h
  · -- in the window: the visitor handles the record
    split at h
    · split_ifs at h
      dsimp only at h
      cases hd : v.dispatch t.entryIndex _ t.cur s with
      | error err => rw [hd] at h; cases h
      | ok s₁ => rw [hd] at h; cases h; exact hP _ _ _ _ _ hd hs
    · cases h
  · split at h
    · split_ifs at h
      cases h; exact hs
    · cases h

/-- ... and after the loop of `Visit`. -/
theorem visitLoop_preserves {σ : Type} {v : Visitor σ} {start stop : Nat} (P : σ → Prop)
    (hP : ∀ i tag cur s s', v.dispatch i tag cur s = .ok s' → P s → P s') :
    ∀ {fuel : Nat} {t t' : TraceMm} {s s' : σ},
      visitLoop e ws buf v start stop fuel t s = .ok (t', s') → P s → P s'
  | 0, _, _, _, _, h, _ => by cases h
  | fuel + 1, t, t', s, s', h, hs => by
    rw [visitLoop] at h
    split_ifs at h
    · cases h; exact hs
    · split at h
      · exact visitLoop_preserves P hP h (visitOne_preserves e ws buf P hP ‹_› hs)
      · cases h

/-! ## `Next` -/

/-- The Python entry objects `TraceEntry2Py` builds (`LdStEntryPy`, ..., `MmapEntryPy`). -/
inductive EntryPy
  | ldSt (index tag insnSeq addr : Nat) (value : List UInt8)
  | insn (index tag insnSeq pc : Nat) (value : List UInt8)
  | insnExec (index tag insnSeq : Nat)
  | ldStNx (index tag insnSeq addr size : Nat)
  | mmap (index tag start stop flags : Nat) (name : List UInt8)
  deriving DecidableEq, Repr

/-- The bytes of the C string at `pos`, without its NUL (`std::string(const char*)`). When the
buffer holds no NUL from `pos` on, the `strlen` of the constructor reads past its end: a fault. -/
def cString (pos : Nat) : Option (List UInt8) :=
  match (buf.drop pos).indexOf? 0 with
  | some i => some ((buf.drop pos).take i)
  | none => none

/-- `TraceEntry2Py`: every getter of the entry class is called. -/
def traceEntry2Py : Visitor (Option EntryPy) where
  visit index tag cur _ :=
    let r : Option EntryPy :=
      match tag.entryKind with
      | .ldSt | .insn => do
        let insnSeq ← getInsnSeq e buf cur
        let addr ← getAddr e ws buf cur
        let len ← getLength e buf cur
        let value ← bytesAt buf (cur + valueOffset ws) (getValueSize ws len)
        pure (if tag.entryKind = .ldSt then .ldSt index tag.code insnSeq addr value
          else .insn index tag.code insnSeq addr value)
      | .insnExec => do
        let insnSeq ← getInsnSeq e buf cur
        pure (.insnExec index tag.code insnSeq)
      | .ldStNx => do
        let insnSeq ← getInsnSeq e buf cur
        let addr ← getAddr e ws buf cur
        let size ← getNxSize e ws buf cur
        pure (.ldStNx index tag.code insnSeq addr size)
      | .mmap => do
        let start ← getMmapField e ws buf cur 1
        let stop ← getMmapField e ws buf cur 2
        let flags ← getMmapField e ws buf cur 3
        let name ← cString buf (cur + mmapNameOffset ws)
        pure (.mmap index tag.code start stop flags name)
    match r with
    | some py => .ok (some py)
    | none => .error .fault

/-- `TraceMm::Next`: `none` is `StopIteration`; otherwise the Python object (`none` when the
record was outside the window and the visitor left `py` at `None`) and the new cursor. -/
def next (t : TraceMm) : Except Failure (Option (Option EntryPy × TraceMm)) :=
  if t.cur = buf.length then .ok none
  else
    match visitOne e ws buf (traceEntry2Py e ws buf) 0 sizeMax t none with
    | .ok (t', py) => .ok (some (py, t'))
    | .error .fault => .error .fault
    | .error _ => .error .parseError

/-- `n` calls of `Next` from `t`: `some` of the cursor after them, or `none` once one of them
raised `StopIteration`. -/
def nextCalls : Nat → TraceMm → Except Failure (Option TraceMm)
  | 0, t => .ok (some t)
  | n + 1, t =>
    match next e ws buf t with
    | .ok (some (_, t')) => nextCalls n t'
    | .ok none => .ok none
    | .error err => .error err

/-! ## `SeekInsn` -/

/-- The state of the `Seek` visitor. -/
structure Seek where
  insnIndex : Nat
  prevInsnSeq : Nat
  deriving DecidableEq, Repr

/-- `Seek()`: `insnIndex = SIZE_MAX`, `prevInsnSeq = UINT32_MAX`. -/
def Seek.init : Seek := ⟨sizeMax, uint32Max⟩

/-- `Seek::HandleInsnSeq`. -/
def Seek.handleInsnSeq (sk : Seek) (insnSeq : Nat) : Seek :=
  if insnSeq ≠ sk.prevInsnSeq then ⟨(sk.insnIndex + 1) % 2 ^ 64, insnSeq⟩ else sk

/-- The `Seek` visitor: records with an `insnSeq` go to `HandleInsnSeq`, `INSN` and `MMAP` are
skipped. -/
def seekVisitor : Visitor Seek where
  visit _ tag cur sk :=
    if tag.entryKind.hasInsnSeq then
      match getInsnSeq e buf cur with
      | some insnSeq => .ok (sk.handleInsnSeq insnSeq)
      | none => .error .fault
    else .ok sk

/-- The `while (true)` loop of `TraceMm::SeekInsn`. -/
def seekLoop (index : Nat) : Nat → TraceMm → Seek → Except Failure TraceMm
  | 0, _, _ => .error .outOfFuel
  | fuel + 1, t, sk =>
    if t.cur = buf.length then .error .noSuchInsn
    else
      match visitOne e ws buf (seekVisitor e buf) 0 sizeMax t sk with
      | .ok (t', sk') =>
        if sk'.insnIndex = index then .ok ⟨t.cur, (t'.entryIndex + 2 ^ 64 - 1) % 2 ^ 64⟩
        else seekLoop index fuel t' sk'
      | .error .fault => .error .fault
      | .error _ => .error .parseError

/-- `TraceMm::SeekInsn(index)`: rewind past the header and run the `Seek` visitor until its
`insnIndex` is `index`. -/
def seekInsn (index fuel : Nat) : Except Failure TraceMm :=
  match getLength e buf 0 with
  | some len => seekLoop e ws buf index fuel ⟨alignedLength ws len, 0⟩ Seek.init
  | none => .error .fault

/-! ## A record of length 0

`VisitOne` checks that the aligned extent of a record fits in the buffer, but not that its TLV
length covers even the TLV header. A record of length 0 has aligned length 0: it is handed to the
visitor and the cursor does not move, so `Next` returns it forever. -/

/-- A little-endian, 4-byte-word trace: the header, then an `INSN_EXEC` record of length 0
followed by four bytes that its `insnSeq` getter reads. -/
def emptyExecTrace : List UInt8 := [0x34, 0x4d, 6, 0, 62, 0, 0, 0, 0x58, 0x58, 0, 0, 1, 0, 0, 0]

theorem next_emptyExecTrace (j : Nat) :
    next .little .four emptyExecTrace ⟨8, j⟩ =
      .ok (some (if j < sizeMax then some (.insnExec j 0x5858 1) else none,
        ⟨8, (j + 1) % 2 ^ 64⟩)) := by
  have h0 : emptyExecTrace.length = 16 := rfl
  have h1 : getTag .little emptyExecTrace 8 = some 0x5858 := rfl
  have h2 : getLength .little emptyExecTrace 8 = some 0 := rfl
  have h3 : getInsnSeq .little emptyExecTrace 8 = some 1 := rfl
  by_cases hj : j < sizeMax
  · simp [next, visitOne, h0, h1, h2, h3, hj, alignedLength_zero, Visitor.dispatch, traceEntry2Py,
      Tag.ofCode, Tag.entryKind, Tag.code, Except.map, tlvFixedLength]
  · simp [next, visitOne, h0, h1, h2, hj, alignedLength_zero, Except.map, tlvFixedLength]

theorem nextCalls_emptyExecTrace : ∀ n j, j < 2 ^ 64 →
    nextCalls .little .four emptyExecTrace n ⟨8, j⟩ = .ok (some ⟨8, (j + n) % 2 ^ 64⟩)
  | 0, j, hj => by rw [Nat.add_zero, Nat.mod_eq_of_lt hj]; rfl
  | n + 1, j, hj => by
    rw [nextCalls, next_emptyExecTrace]
    simp only
    rw [nextCalls_emptyExecTrace n _ (Nat.mod_lt _ (Nat.two_pow_pos 64)), Nat.mod_add_mod,
      Nat.add_right_comm, Nat.add_assoc]

theorem visitOne_stalls_on_empty_record :
    visitOne .little .four emptyExecTrace (seekVisitor .little emptyExecTrace) 0 sizeMax ⟨8, 0⟩
        Seek.init = .ok (⟨8, 1⟩, ⟨0, 1⟩) ∧
      ∀ n, nextCalls .little .four emptyExecTrace n ⟨8, 0⟩ = .ok (some ⟨8, n % 2 ^ 64⟩) :=
  ⟨rfl, fun n => by simpa using nextCalls_emptyExecTrace n 0 (Nat.two_pow_pos 64)⟩

end Cursor

end Memtrace
