import Memtrace.Trace.Seek

/-! # Iterating a trace from Python

The Python class of `TraceMmBase` has `__iter__` as the identity and `__next__` as `Next`, so
`list(trace)` calls `Next` until it raises `StopIteration` (`traceEntries`).

On a framed trace whose records are well-formed, and whose MMAP names have a NUL before the end
of the buffer (`Frame.NameTerminated`), `TraceEntry2Py` reads every getter of every record inside
the buffer (`traceEntry2Py_ok`). Each call of `Next` then returns the object of one record and
moves to the next record (`next_frame`). So `list(trace)` returns one object per record, in
order: the one `TraceEntry2Py` builds of that record, whose `index` is the record's number and
whose `tag` is the record's tag. No call raises (`traceEntries_of_framed`).

`seek_insn(k)` returns iff the trace has more than `k` runs, and leaves the cursor at the head of
run `k` with the head's position as `entryIndex_` (`seekInsn_ok_runHead`), so the next `Next`
returns that record with that index (`seekInsn_stops_at_run_head`; a run head carries an `insnSeq`
and is no MMAP record) and iterating returns the records from that head to the end, numbered as in
the whole trace (`traceEntries_after_seekInsn`).
-/

namespace Memtrace

set_option autoImplicit false

/-- `EntryPy::index`, read by Python as `entry.index`. -/
def EntryPy.index : EntryPy → Nat
  | .ldSt index .. | .insn index .. | .insnExec index .. | .ldStNx index .. | .mmap index .. => index

/-- `EntryPy::tag`, read by Python as `entry.tag`. -/
def EntryPy.tag : EntryPy → Nat
  | .ldSt _ tag .. | .insn _ tag .. | .insnExec _ tag .. | .ldStNx _ tag .. | .mmap _ tag .. => tag

theorem Tag.code_of_ofCode {n : Nat} {t : Tag} (h : Tag.ofCode n = some t) : t.code = n := by
  unfold Tag.ofCode at h
  simp only [ite_eq_iff, Option.some.injEq, reduceCtorEq, and_false, or_false] at h
  iterate 9 rcases h with ⟨rfl, rfl⟩ | ⟨-, h⟩; · rfl
  obtain ⟨rfl, rfl⟩ := h
  rfl

/-- The C string at `pos` is read iff the buffer holds a NUL from `pos` on. -/
theorem cString_isSome {buf : List UInt8} {pos : Nat} :
    (cString buf pos).isSome ↔ (0 : UInt8) ∈ buf.drop pos := by
  have hidx : ((buf.drop pos).indexOf? 0).isSome ↔ (0 : UInt8) ∈ buf.drop pos := by
    simp [List.indexOf?, List.findIdx?_isSome, List.any_eq_true]
  unfold cString
  split <;> simp_all

/-- A record whose MMAP name, if it is an MMAP record, has its NUL before the end of the
buffer. -/
def Frame.NameTerminated (ws : WordSize) (buf : List UInt8) (f : Frame) : Prop :=
  (Tag.ofCode f.tag).map Tag.entryKind = some .mmap →
    (0 : UInt8) ∈ buf.drop (f.offset + mmapNameOffset ws)

instance (ws : WordSize) (buf : List UInt8) (f : Frame) : Decidable (f.NameTerminated ws buf) :=
  inferInstanceAs (Decidable (_ → _))

theorem Framed.drop {e : Endianness} {ws : WordSize} {buf : List UInt8} {cur : Nat}
    {fs : List Frame} (h : Framed e ws buf cur fs) :
    ∀ {j : Nat} {f : Frame}, fs[j]? = some f → Framed e ws buf f.offset (fs.drop j) := by
  induction h with
  | done => intro j f hf; simp at hf
  | @record c tag len rest hg hl hpos hle hrest ih =>
    intro j f hf
    cases j with
    | zero =>
      obtain rfl : (⟨c, tag, len⟩ : Frame) = f := by simpa using hf
      exact .record hg hl hpos hle hrest
    | succ j => exact ih (by simpa using hf)

section Iterate

variable (e : Endianness) (ws : WordSize) (buf : List UInt8)

/-- `list(trace)` in Python: `__next__`, that is `Next`, called until it raises `StopIteration`,
at most `fuel` times. -/
def traceEntries : Nat → TraceMm → Except Failure (List (Option EntryPy))
  | 0, _ => .error .outOfFuel
  | fuel + 1, t =>
    match next e ws buf t with
    | .ok none => .ok []
    | .ok (some (py, t')) => (traceEntries fuel t').map (py :: ·)
    | .error err => .error err

/-- On a record whose length covers the fixed fields of its entry class, whose extent lies in the
buffer and whose MMAP name, if it has one, ends inside the buffer, `TraceEntry2Py` reads every
getter and builds the object of the record, with its index and its tag. -/
theorem traceEntry2Py_ok {cur len : Nat} {tg : Tag} (hlen : getLength e buf cur = some len)
    (hfix : tg.entryKind.fixedLength ws ≤ len) (hle : cur + alignedLength ws len ≤ buf.length)
    (hname : tg.entryKind = .mmap → (0 : UInt8) ∈ buf.drop (cur + mmapNameOffset ws))
    (index : Nat) (s : Option EntryPy) :
    ∃ py, (traceEntry2Py e ws buf).visit index tg cur s = .ok (some py) ∧ py.index = index ∧
      py.tag = tg.code := by
  have hl := getLength_lt hlen
  have hal := le_alignedLength ws hl
  have := ws.bytes_pos
  -- every read of the record's fixed fields and value lies inside the buffer
  have hread : ∀ off k, off + k ≤ cur + len → ∃ v, readInt e buf off k = some v := fun _ _ h =>
    Option.isSome_iff_exists.1 (readInt_isSome.2 (by omega))
  have hval : ∃ v, bytesAt buf (cur + valueOffset ws) (getValueSize ws len) = some v ∨
      tg.entryKind.fixedLength ws < valueOffset ws := by
    by_cases hv : valueOffset ws ≤ len
    · have hsub := WordSize.sub_of_le (lt_of_lt_of_le (by omega) ws.modulus_ge) hv
      obtain ⟨v, hv'⟩ := Option.isSome_iff_exists.1 (bytesAt_isSome.2
        (show cur + valueOffset ws + getValueSize ws len ≤ buf.length by
          rw [getValueSize, hsub]; omega))
      exact ⟨v, .inl hv'⟩
    · exact ⟨[], .inr (by omega)⟩
  obtain ⟨s₁, hs⟩ := hread (cur + 4) 4 (by
    have := tlvFixedLength_le_fixedLength ws tg.entryKind; simp only [tlvFixedLength] at *; omega)
  cases hk : tg.entryKind <;> rw [hk] at hfix hval <;>
    simp only [EntryKind.fixedLength, valueOffset, mmapNameOffset, tlvFixedLength] at hfix hval
  case ldSt | insn =>
    obtain ⟨a, ha⟩ := hread (cur + 4 + 4) ws.bytes (by omega)
    obtain ⟨v, hv | hv⟩ := hval
    · refine ⟨if tg.entryKind = .ldSt then .ldSt index tg.code s₁ a v
        else .insn index tg.code s₁ a v, ?_, ?_, ?_⟩
      · simp only [traceEntry2Py, getInsnSeq, tlvFixedLength, getAddr, valueOffset, Nat.reduceAdd,
          Option.pure_def, Option.bind_eq_bind, hk, hs, ha, hlen, reduceCtorEq, ↓reduceIte,
          Option.some_bind, hv]
      all_goals split <;> rfl
    · omega
  case insnExec =>
    refine ⟨.insnExec index tg.code s₁, ?_, rfl, rfl⟩
    simp only [traceEntry2Py, getInsnSeq, tlvFixedLength, Option.pure_def, Option.bind_eq_bind, hk,
      hs, Option.some_bind]
  case ldStNx =>
    obtain ⟨a, ha⟩ := hread (cur + 4 + 4) ws.bytes (by omega)
    obtain ⟨z, hz⟩ := hread (cur + (4 + 4 + ws.bytes)) ws.bytes (by omega)
    refine ⟨.ldStNx index tg.code s₁ a z, ?_, rfl, rfl⟩
    simp only [traceEntry2Py, getInsnSeq, tlvFixedLength, getAddr, valueOffset, Nat.reduceAdd,
      Option.pure_def, Option.bind_eq_bind, getNxSize, hk, hs, ha, hz, Option.some_bind]
  case mmap =>
    obtain ⟨a, ha⟩ := hread (cur + 1 * ws.bytes) ws.bytes (by omega)
    obtain ⟨b, hb⟩ := hread (cur + 2 * ws.bytes) ws.bytes (by omega)
    obtain ⟨c, hc⟩ := hread (cur + 3 * ws.bytes) ws.bytes (by omega)
    obtain ⟨name, hn⟩ := Option.isSome_iff_exists.1 (cString_isSome.2 (hname hk))
    refine ⟨.mmap index tg.code a b c name, ?_, rfl, rfl⟩
    simp only [traceEntry2Py, Option.pure_def, Option.bind_eq_bind, getMmapField, hk, ha, hb, hc,
      hn, Option.some_bind]

/-- `py` is the object `TraceEntry2Py` builds of the record `f` numbered `index`, as the switch of
`VisitOne` hands the record over: its `index` is `index` and its `tag` the record's tag. -/
def EntryOf (index : Nat) (f : Frame) (py : EntryPy) : Prop :=
  (traceEntry2Py e ws buf).dispatch index f.tag f.offset none = .ok (some py) ∧
    py.index = index ∧ py.tag = f.tag

/-- One call of `Next` on a well-formed framed record: the object of the record, and the cursor
at the next record. -/
theorem next_frame {cur tag len i : Nat} {rest : List Frame}
    (hfr : Framed e ws buf cur (⟨cur, tag, len⟩ :: rest))
    (hwf : Frame.WellFormed ws ⟨cur, tag, len⟩) (hname : Frame.NameTerminated ws buf ⟨cur, tag, len⟩)
    (hi : i < sizeMax) :
    ∃ py, next e ws buf ⟨cur, i⟩ = .ok (some (some py, ⟨cur + alignedLength ws len, i + 1⟩)) ∧
      EntryOf e ws buf i ⟨cur, tag, len⟩ py := by
  obtain ⟨tg, htg, hfix⟩ := hwf
  have hlt := hfr.cur_lt
  have hfr' := hfr
  cases hfr' with
  | record _ hl _ hle _ =>
    obtain ⟨py, hpy, hidx, htag⟩ := traceEntry2Py_ok e ws buf hl hfix hle
      (fun hk => hname (by rw [htg, Option.map_some', hk])) i none
    have hd : (traceEntry2Py e ws buf).dispatch i tag cur none = .ok (some py) := by
      simp only [Visitor.dispatch, htg, hpy]
    refine ⟨py, ?_, hd, hidx, htag.trans (Tag.code_of_ofCode htg)⟩
    rw [next, if_neg (Nat.ne_of_lt hlt), visitOne_frame _ _ _ hfr, if_pos ⟨Nat.zero_le _, hi⟩, hd,
      Nat.mod_eq_of_lt (show i + 1 < 2 ^ 64 by unfold sizeMax at hi; omega)]
    rfl

/-- `list(trace)` from a cursor at framed, well-formed records: the objects of the records, in
order and numbered from the cursor's record index, and then `StopIteration`. -/
theorem traceEntries_framed {cur : Nat} {fs : List Frame} (hfr : Framed e ws buf cur fs)
    (hwf : ∀ f ∈ fs, f.WellFormed ws) (hname : ∀ f ∈ fs, f.NameTerminated ws buf) :
    ∀ {i n : Nat}, i + fs.length ≤ sizeMax → fs.length < n →
      ∃ pys : List EntryPy, traceEntries e ws buf n ⟨cur, i⟩ = .ok (pys.map some) ∧
        List.Forall₂ (fun r py => EntryOf e ws buf r.1 r.2 py) (fs.enumFrom i) pys := by
  induction hfr with
  | done =>
    intro i n _ hn
    obtain ⟨m, rfl⟩ : ∃ m, n = m + 1 := ⟨n - 1, by simp at hn; omega⟩
    exact ⟨[], by simp [traceEntries, next], .nil⟩
  | @record c tag len rest hg hl hpos hle hrest ih =>
    intro i n hi hn
    simp only [List.length_cons] at hi hn
    obtain ⟨m, rfl⟩ : ∃ m, n = m + 1 := ⟨n - 1, by omega⟩
    obtain ⟨py, hnext, hpy⟩ := next_frame e ws buf (i := i) (.record hg hl hpos hle hrest)
      (hwf _ (List.mem_cons_self _ _)) (hname _ (List.mem_cons_self _ _)) (by omega)
    obtain ⟨pys, hpys, hall⟩ := ih (fun f hf => hwf f (List.mem_cons_of_mem _ hf))
      (fun f hf => hname f (List.mem_cons_of_mem _ hf)) (i := i + 1) (n := m) (by omega) (by omega)
    refine ⟨py :: pys, ?_, .cons hpy hall⟩
    rw [traceEntries, hnext]
    simp only [hpys]
    rfl

/-- `list(trace)` on a trace whose records are framed and well-formed, and whose MMAP names end
inside the buffer: one object per record, in order, the one `TraceEntry2Py` builds of the record,
with the record's number as `index` and its tag as `tag`; no call of `Next` raises. -/
theorem traceEntries_of_framed {t₀ : TraceMm} (hinit : TraceMm.init e ws buf = .ok t₀)
    {fs : List Frame} (hfr : Framed e ws buf t₀.cur fs) (hwf : ∀ f ∈ fs, f.WellFormed ws)
    (hname : ∀ f ∈ fs, f.NameTerminated ws buf) (hlen : buf.length < 2 ^ 64) {n : Nat}
    (hn : fs.length < n) :
    ∃ pys : List EntryPy, traceEntries e ws buf n t₀ = .ok (pys.map some) ∧
      List.Forall₂ (fun r py => EntryOf e ws buf r.1 r.2 py) fs.enum pys := by
  obtain ⟨len, -, rfl⟩ := TraceMm.init_eq_ok e ws buf hinit
  have := hfr.four_mul_length_le
  exact traceEntries_framed e ws buf hfr hwf hname (by unfold sizeMax; omega) hn

/-- Where `SeekInsn(k)` leaves the cursor when it returns, on a framed, well-formed trace whose first
`insnSeq` is not `UINT32_MAX`: at the head of run `k`, with the head's position as `entryIndex_`. -/
theorem seekInsn_ok_runHead (k : Nat) (hk : k < 2 ^ 32) {t₀ : TraceMm}
    (hinit : TraceMm.init e ws buf = .ok t₀) {fs : List Frame} (hfr : Framed e ws buf t₀.cur fs)
    (hwf : ∀ f ∈ fs, f.WellFormed ws) (hfirst : firstInsnSeq e buf fs.enum ≠ some uint32Max)
    (hlen : buf.length < 2 ^ 64) {fuel : Nat} {t : TraceMm}
    (h : seekInsn e ws buf k fuel = .ok t) :
    ∃ f, (runHeads e buf none fs.enum).get? k = some (t.entryIndex, f) ∧ t.cur = f.offset := by
  rcases seekInsn_frames k hk hinit hfr hwf hfirst hlen fuel with h' | ⟨-, h'⟩ <;> rw [h'] at h
  · cases hg : (runHeads e buf none fs.enum).get? k with
    | none => rw [hg] at h; cases h
    | some x =>
      obtain ⟨j, f⟩ := x
      rw [hg] at h
      cases h
      exact ⟨f, rfl, rfl⟩
  · cases h

/-- A run head is no MMAP record: it carries an `insnSeq`. -/
theorem Frame.nameTerminated_of_insnSeq {f : Frame} {s : Nat} (h : f.insnSeq? e buf = some s) :
    f.NameTerminated ws buf := by
  intro hm
  obtain ⟨tg, htg, hk⟩ := Option.map_eq_some'.1 hm
  simp only [Frame.insnSeq?, htg, hk, EntryKind.hasInsnSeq] at h
  cases h

/-- `SeekInsn(k)` on a trace whose body is framed, well-formed records, the first `insnSeq` not
being `UINT32_MAX`: it returns iff the trace has more than `k` instruction runs, and then the
cursor is at the first record of run `k`, with that record's position as `entryIndex_`, so the
next `Next` returns the object of that record with that index. -/
theorem seekInsn_stops_at_run_head (k : Nat) (hk : k < 2 ^ 32) {t0 : TraceMm}
    (hinit : TraceMm.init e ws buf = .ok t0) {fs : List Frame} (hfr : Framed e ws buf t0.cur fs)
    (hwf : ∀ f ∈ fs, f.WellFormed ws) (hfirst : firstInsnSeq e buf fs.enum ≠ some uint32Max)
    (hlen : buf.length < 2 ^ 64) :
    ((∃ fuel t, seekInsn e ws buf k fuel = .ok t) ↔ k < (runHeads e buf none fs.enum).length) ∧
      ∀ fuel t, seekInsn e ws buf k fuel = .ok t →
        ∃ f, (runHeads e buf none fs.enum).get? k = some (t.entryIndex, f) ∧ t.cur = f.offset ∧
          ∃ py t', next e ws buf t = .ok (some (some py, t')) ∧
            EntryOf e ws buf t.entryIndex f py := by
  refine ⟨⟨fun ⟨fuel, t, h⟩ => ?_, fun hk' => ?_⟩, fun fuel t h => ?_⟩
  · obtain ⟨f, hf, -⟩ := seekInsn_ok_runHead e ws buf k hk hinit hfr hwf hfirst hlen h
    exact (List.get?_eq_some.1 hf).1
  · refine ⟨fs.length + 1, ?_⟩
    rcases seekInsn_frames k hk hinit hfr hwf hfirst hlen (fs.length + 1) with h' | ⟨h', _⟩
    · rw [h', List.get?_eq_get hk']
      exact ⟨_, rfl⟩
    · omega
  obtain ⟨f, hf, hcur⟩ := seekInsn_ok_runHead e ws buf k hk hinit hfr hwf hfirst hlen h
  refine ⟨f, hf, hcur, ?_⟩
  -- the run head is record `t.entryIndex`, framed with the records after it
  obtain ⟨hmem, s, hs⟩ := mem_runHeads e buf (List.get?_mem hf)
  have hj : fs[t.entryIndex]? = some f := List.mem_enum_iff_getElem?.1 hmem
  obtain ⟨len, -, rfl⟩ := TraceMm.init_eq_ok e ws buf hinit
  have h4 := hfr.four_mul_length_le
  have hjlt : t.entryIndex < fs.length := (List.getElem?_eq_some_iff.1 hj).1
  have hfr' := hfr.drop hj
  rw [List.drop_eq_getElem_cons hjlt, (List.getElem?_eq_some_iff.1 hj).2] at hfr'
  obtain ⟨py, hpy, hof⟩ := next_frame e ws buf hfr' (hwf f (List.mem_iff_getElem?.2 ⟨_, hj⟩))
    (Frame.nameTerminated_of_insnSeq e ws buf hs) (i := t.entryIndex) (by unfold sizeMax; omega)
  exact ⟨py, _, by rw [show t = ⟨f.offset, t.entryIndex⟩ from hcur ▸ rfl]; exact hpy, hof⟩

/-- A little-endian, 4-byte-word trace: the header, then one `INSN_EXEC` record whose
`insnSeq` bytes are `s`. -/
def oneExecTrace (s : List UInt8) : List UInt8 :=
  [0x34, 0x4d, 6, 0, 62, 0, 0, 0, 0x58, 0x58, 8, 0] ++ s

theorem seekInsn_finds_first_run :
    ∃ fuel t, seekInsn .little .four (oneExecTrace [1, 0, 0, 0]) 0 fuel = .ok t ∧
      ∃ f, (runHeads .little (oneExecTrace [1, 0, 0, 0]) none [⟨8, 0x5858, 8⟩].enum).get? 0 =
          some (t.entryIndex, f) ∧ t.cur = f.offset ∧
        ∃ py t', next .little .four (oneExecTrace [1, 0, 0, 0]) t = .ok (some (some py, t')) ∧
          EntryOf .little .four (oneExecTrace [1, 0, 0, 0]) t.entryIndex f py :=
  have h := @seekInsn_stops_at_run_head .little .four (oneExecTrace [1, 0, 0, 0]) 0 (by decide)
    ⟨8, 0⟩ rfl [⟨8, 0x5858, 8⟩] (.record rfl rfl (by decide) (by decide) .done)
    (by decide) (by decide) (by decide)
  let ⟨fuel, t, ht⟩ := h.1.2 (by decide)
  ⟨fuel, t, ht, h.2 fuel t ht⟩

/-- One run, whose `insnSeq` is `UINT32_MAX`: `Seek` takes it for its own sentinel and
`SeekInsn(0)` never returns normally. -/
theorem seekInsn_misses_run_of_uint32Max :
    0 < (runHeads .little (oneExecTrace [0xff, 0xff, 0xff, 0xff]) none [⟨8, 0x5858, 8⟩].enum).length ∧
      ¬ ∃ fuel t, seekInsn .little .four (oneExecTrace [0xff, 0xff, 0xff, 0xff]) 0 fuel = .ok t := by
  refine ⟨by decide, fun ⟨fuel, t, h⟩ => ?_⟩
  match fuel, h with
  | 0, h => cases h
  | 1, h => cases h
  | _ + 2, h => cases h

/-- `seek_insn(k)` and then `list(trace)`, on a framed, well-formed trace whose first `insnSeq`
is not `UINT32_MAX` and whose MMAP names end inside the buffer: when `SeekInsn` returns, the
iteration starts at the head of run `k` and returns the objects of the records from there to the
end, numbered by their position in the whole trace, and no call of `Next` raises. -/
theorem traceEntries_after_seekInsn (k : Nat) (hk : k < 2 ^ 32) {t₀ : TraceMm}
    (hinit : TraceMm.init e ws buf = .ok t₀) {fs : List Frame} (hfr : Framed e ws buf t₀.cur fs)
    (hwf : ∀ f ∈ fs, f.WellFormed ws) (hname : ∀ f ∈ fs, f.NameTerminated ws buf)
    (hfirst : firstInsnSeq e buf fs.enum ≠ some uint32Max) (hlen : buf.length < 2 ^ 64)
    {fuel : Nat} {t : TraceMm} (h : seekInsn e ws buf k fuel = .ok t) {n : Nat}
    (hn : fs.length < n) :
    ∃ f pys, (runHeads e buf none fs.enum).get? k = some (t.entryIndex, f) ∧
      traceEntries e ws buf n t = .ok (pys.map some) ∧
      List.Forall₂ (fun r py => EntryOf e ws buf r.1 r.2 py)
        ((fs.drop t.entryIndex).enumFrom t.entryIndex) pys := by
  obtain ⟨f, hf, hcur⟩ := seekInsn_ok_runHead e ws buf k hk hinit hfr hwf hfirst hlen h
  -- the run head is record `t.entryIndex` of the trace
  have hj : fs[t.entryIndex]? = some f :=
    List.mem_enum_iff_getElem?.1 (mem_runHeads e buf (List.get?_mem hf)).1
  have hjlt : t.entryIndex < fs.length := (List.getElem?_eq_some_iff.1 hj).1
  obtain ⟨len, -, rfl⟩ := TraceMm.init_eq_ok e ws buf hinit
  have h4 := hfr.four_mul_length_le
  obtain ⟨pys, hpys, hall⟩ := traceEntries_framed e ws buf (hfr.drop hj)
    (fun g hg => hwf g (List.mem_of_mem_drop hg)) (fun g hg => hname g (List.mem_of_mem_drop hg))
    (i := t.entryIndex) (n := n) (by simp only [List.length_drop]; unfold sizeMax; omega)
    (by simp only [List.length_drop]; omega)
  refine ⟨f, pys, hf, ?_, hall⟩
  rw [show t = ⟨f.offset, t.entryIndex⟩ from hcur ▸ rfl]
  exact hpys

end Iterate

/-- A little-endian, 4-byte-word trace: the header, an `INSN_EXEC` record of `insnSeq` 1, and an
`MMAP` record of `[0x1000, 0x2000)` with flags 5 and the name `a`. -/
def execMmapTrace : List UInt8 :=
  [0x34, 0x4d, 6, 0, 3, 0, 0, 0,
    0x58, 0x58, 8, 0, 1, 0, 0, 0,
    0x4d, 0x4d, 18, 0, 0, 0x10, 0, 0, 0, 0x20, 0, 0, 5, 0, 0, 0, 0x61, 0, 0, 0]

def execMmapFrames : List Frame := [⟨8, 0x5858, 8⟩, ⟨16, 0x4d4d, 18⟩]

theorem framed_execMmapFrames : Framed .little .four execMmapTrace 8 execMmapFrames :=
  .record rfl rfl (by decide) (by decide) (.record rfl rfl (by decide) (by decide) .done)

theorem traceEntries_of_framed_execMmap :
    ∃ pys : List EntryPy, traceEntries .little .four execMmapTrace 3 ⟨8, 0⟩ = .ok (pys.map some) ∧
      List.Forall₂ (fun r py => EntryOf .little .four execMmapTrace r.1 r.2 py) execMmapFrames.enum
        pys :=
  traceEntries_of_framed .little .four execMmapTrace rfl framed_execMmapFrames (by decide)
    (by decide) (by decide) (by decide)

/-- `execMmapTrace` and then an `INSN_EXEC` record of `insnSeq` 2: two runs, the second starting
at record 2. -/
def execMmapExecTrace : List UInt8 := execMmapTrace ++ [0x58, 0x58, 8, 0, 2, 0, 0, 0]

def execMmapExecFrames : List Frame := execMmapFrames ++ [⟨36, 0x5858, 8⟩]

theorem framed_execMmapExecFrames : Framed .little .four execMmapExecTrace 8 execMmapExecFrames :=
  .record rfl rfl (by decide) (by decide) (.record rfl rfl (by decide) (by decide)
    (.record rfl rfl (by decide) (by decide) .done))

theorem traceEntries_after_seekInsn_execMmapExec :
    ∃ f pys, (runHeads .little execMmapExecTrace none execMmapExecFrames.enum).get? 1 =
        some (2, f) ∧
      traceEntries .little .four execMmapExecTrace 4 ⟨36, 2⟩ = .ok (pys.map some) ∧
      List.Forall₂ (fun r py => EntryOf .little .four execMmapExecTrace r.1 r.2 py)
        ((execMmapExecFrames.drop 2).enumFrom 2) pys :=
  traceEntries_after_seekInsn .little .four execMmapExecTrace 1 (by decide) rfl
    framed_execMmapExecFrames (by decide) (by decide) (by decide) (by decide)
    (rfl : seekInsn .little .four execMmapExecTrace 1 4 = .ok ⟨36, 2⟩) (by decide)

end Memtrace
