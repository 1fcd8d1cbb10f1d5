import Memtrace.Ud.Resolve

/-! # `Ud`: the use-def builder

`Ud<W>` is the visitor that `VisitFile<Ud>` runs over a trace. It numbers the static instructions
(`code_`, `text_`, `disasm_`), keeps one `InsnInTrace` per dynamic instruction (`trace_`), and
feeds the reads and writes of registers and memory to two `UdState`s.

* `Ud.init` is `Ud::Init` in a create mode: the two `UdState::Init`s, the catch-all code entry,
  the seed trace entry and the catch-all defs, then `Disasm::Init` (`disasmInit`).
* `Ud.addTrace`, `Ud.flush` and `Ud.handleInsnSeq` are `AddTrace`, `Flush` and `HandleInsnSeq`: a
  record whose `insnSeq` differs from the `codeIndex` of `trace_.back()` closes that entry with the
  current use and def counts and opens a new one with `codeIndex = insnSeq`.
* `Ud.ldSt`, `Ud.insn`, `Ud.insnExec` and `Ud.ldStNx` are the `operator()`s, `Ud.visitor` is the
  visitor, and `udVisit` is `VisitFile<Ud>` on a buffer with no dot, html, csv or binary path:
  `TraceMm::Init`, `Ud::Init`, the loop of `Visit`, and `Complete`, which is then its `Flush`;
  `udVisit_eq_ok` is what a visit that returns went through. The dumps of `Complete` for the paths
  that are given come after it (`udFile`, in `Memtrace.Ud.Complete`).

Left out: paths and files (`csvPath_`, `binaryPath_`, the files of the `MmVector`s), which are
taken to succeed; the printing of a verbose `Flush`, of which only the reads it makes are kept;
capstone, whose `DoDisasm` is a parameter and whose `cs_open` succeeds.
The cache of `GetFirstPrimeGreaterThanOrEqualTo` is the field `primes`.

`udVisit_accepts_unknown_insnSeq` closes the module: an `INSN_EXEC` record whose `insnSeq` names
no code entry is accepted, and the trace entry it opens points past `code_`.
-/

namespace Memtrace

set_option autoImplicit false

/-- `InsnInCode<W>`. -/
structure InsnInCode where
  pc : Nat
  textIndex : Nat
  textSize : Nat
  deriving DecidableEq, Repr

/-- The use and def counts of both address spaces, as `AddTrace` and `Flush` read them. -/
structure Counts where
  regUses : Nat
  memUses : Nat
  regDefs : Nat
  memDefs : Nat
  deriving DecidableEq, Repr

/-- The entry `AddTrace(codeIndex)` appends at the counts `c`. -/
def InsnInTrace.opening (codeIndex : Nat) (c : Counts) : InsnInTrace :=
  { (default : InsnInTrace) with
    codeIndex := codeIndex
    regUseStartIndex := u32 c.regUses
    memUseStartIndex := u32 c.memUses
    regDefStartIndex := u32 c.regDefs
    memDefStartIndex := u32 c.memDefs }

/-- The entry `t` with the end indices `Flush` sets at the counts `c`. -/
def InsnInTrace.close (t : InsnInTrace) (c : Counts) : InsnInTrace :=
  { t with
    regUseEndIndex := u32 c.regUses
    memUseEndIndex := u32 c.memUses
    regDefEndIndex := u32 c.regDefs
    memDefEndIndex := u32 c.memDefs }

/-- The state of `Ud<W>` that a visit builds. -/
structure Ud where
  code : List InsnInCode
  text : List UInt8
  disasm : List String
  trace : List InsnInTrace
  regState : UdState
  memState : UdState
  primes : List Nat

/-- `Disasm::Init(type, endianness, wordSize)` up to `cs_open`: the machine types capstone is
opened for, with the byte orders and word sizes each accepts. -/
def disasmInit (machineType : Nat) (e : Endianness) (ws : WordSize) : Except Failure Unit :=
  match machineType with
  | 3 => if e = .little ∧ ws = .four then .ok () else .error .einval
  | 62 => if e = .little ∧ ws = .eight then .ok () else .error .einval
  | 21 => if ws = .eight then .ok () else .error .einval
  | 40 => if ws = .four then .ok () else .error .einval
  | 183 => if ws = .eight then .ok () else .error .einval
  | 22 => if e = .big then .ok () else .error .einval
  | 8 => .ok ()
  | _ => .error .unsupported

/-- `HeaderEntry::GetMachineType`. -/
def getMachineType (e : Endianness) (buf : List UInt8) : Option Nat :=
  readInt e buf tlvFixedLength 2

namespace Ud

/-- `regState_` or `memState_`. -/
def state (u : Ud) : Space → UdState
  | .reg => u.regState
  | .mem => u.memState

/-- `u` with `regState_` or `memState_` replaced. -/
def setState (u : Ud) : Space → UdState → Ud
  | .reg, s => { u with regState := s }
  | .mem, s => { u with memState := s }

@[simp] theorem state_setState (u : Ud) (sp : Space) (s : UdState) :
    (u.setState sp s).state sp = s := by
  cases sp <;> rfl

@[simp] theorem state_setState_ne (u : Ud) {sp sp' : Space} (h : sp' ≠ sp) (s : UdState) :
    (u.setState sp s).state sp' = u.state sp' := by
  cases sp <;> cases sp' <;> first | rfl | exact absurd rfl h

@[simp] theorem setState_trace (u : Ud) (sp : Space) (s : UdState) :
    (u.setState sp s).trace = u.trace := by
  cases sp <;> rfl

@[simp] theorem setState_code (u : Ud) (sp : Space) (s : UdState) :
    (u.setState sp s).code = u.code := by
  cases sp <;> rfl

/-- `GetUseCount()` and `GetDefCount()` of both address spaces. -/
def counts (u : Ud) : Counts :=
  ⟨u.regState.uses.length, u.memState.uses.length, u.regState.defs.length,
    u.memState.defs.length⟩

/-- `AddTrace(codeIndex)`: a new entry whose start indices are the current use and def counts. -/
def addTrace (u : Ud) (codeIndex : Nat) : Ud :=
  { u with trace := u.trace ++ [.opening codeIndex u.counts] }

/-- What a verbose `Flush` reads to print the entry `t`: its `code_`, `text_` and `disasm_`
entries, and in each address space the uses it resolves and the defs it lists. -/
def verboseReads (u : Ud) (t : InsnInTrace) : Bool :=
  match u.code[t.codeIndex]? with
  | none => false
  | some c =>
    decide (c.textIndex + c.textSize ≤ u.text.length) && decide (t.codeIndex < u.disasm.length) &&
      [Space.reg, Space.mem].all fun sp =>
        (List.range' (t.useStartIndex sp) (t.useEndIndex sp - t.useStartIndex sp)).all
            (fun i => ((u.state sp).resolveUse u.trace sp i).toBool) &&
          decide (t.defEndIndex sp ≤ t.defStartIndex sp ∨
            t.defEndIndex sp ≤ (u.state sp).defs.length)

/-- `Flush()`: `trace_.back()` gets the current use and def counts as its end indices. -/
def flush (verbose : Bool) (u : Ud) : Except Failure Ud :=
  match u.trace.getLast? with
  | none => .error .fault
  | some t =>
    let t := t.close u.counts
    let u := { u with trace := u.trace.dropLast ++ [t] }
    if verbose && !u.verboseReads t then .error .fault else .ok u

/-- `HandleInsnSeq(insnSeq)`. -/
def handleInsnSeq (verbose : Bool) (u : Ud) (insnSeq : Nat) : Except Failure Ud :=
  match u.trace.getLast? with
  | none => .error .fault
  | some back =>
    if back.codeIndex = insnSeq then .ok u
    else
      match u.flush verbose with
      | .error err => .error err
      | .ok u => .ok (u.addTrace insnSeq)

variable (ws : WordSize)

/-- A call of `regState_` or `memState_` by a handler: `AddUses`, or `AddDefs`, whose value the
handler returns, a non-zero one as `-EINVAL`. -/
def call (fuel : Nat) (u : Ud) (sp : Space) (c : UdCall) : Except Failure Ud :=
  match UdState.call ws fuel (u.state sp) u.primes c with
  | .error err => .error err
  | .ok (s, primes) => .ok { u.setState sp s with primes := primes }

/-- The call on the address range a record's getters return; a fault when a field is outside the
buffer. -/
def callOn (fuel : Nat) (u : Ud) (sp : Space) (range : Option (Nat × Nat))
    (mk : Nat → Nat → UdCall) : Except Failure Ud :=
  match range with
  | some (addr, size) => u.call ws fuel sp (mk addr size)
  | none => .error .fault

/-! ## The handlers -/

section Handlers

variable (e : Endianness) (buf : List UInt8) (verbose : Bool) (fuel : Nat)

/-- `GetAddr()` and `GetSize()` of an `LdStEntry`, also `GetPc()` and `GetSize()` of an
`InsnEntry`: the size is the number of value bytes. -/
def ldStRange (cur : Nat) : Option (Nat × Nat) :=
  match getAddr e ws buf cur, getLength e buf cur with
  | some addr, some len => some (addr, getValueSize ws len)
  | _, _ => none

/-- `GetAddr()` and `GetSize()` of an `LdStNxEntry`: the size is a field. -/
def ldStNxRange (cur : Nat) : Option (Nat × Nat) :=
  match getAddr e ws buf cur, getNxSize e ws buf cur with
  | some addr, some size => some (addr, size)
  | _, _ => none

/-- `operator()(LdStEntry)`. -/
def ldSt (tag : Tag) (cur : Nat) (u : Ud) : Except Failure Ud :=
  match getInsnSeq e buf cur with
  | none => .error .fault
  | some insnSeq =>
    match u.handleInsnSeq verbose insnSeq with
    | .error err => .error err
    | .ok u =>
      match tag with
      | .mtLoad => u.callOn ws fuel .mem (ldStRange ws e buf cur) .addUses
      | .mtStore => u.callOn ws fuel .mem (ldStRange ws e buf cur) .addDefs
      | .mtReg => .ok u
      | .mtGetReg => u.callOn ws fuel .reg (ldStRange ws e buf cur) .addUses
      | .mtPutReg => u.callOn ws fuel .reg (ldStRange ws e buf cur) .addDefs
      | _ => .error .einval

/-- `operator()(InsnEntry)`: the `insnSeq` must be the next code index. `doDisasm value pc` is
capstone's text for the opcode bytes, `none` when it cannot decode them. -/
def insn (doDisasm : List UInt8 → Nat → Option String) (cur : Nat) (u : Ud) :
    Except Failure Ud :=
  match getInsnSeq e buf cur with
  | none => .error .fault
  | some insnSeq =>
    if insnSeq ≠ u32 u.code.length then .error .einval
    else
      match ldStRange ws e buf cur with
      | none => .error .fault
      | some (pc, size) =>
        match bytesAt buf (cur + valueOffset ws) size with
        | none => .error .fault
        | some value =>
          .ok { u with
            code := u.code ++ [⟨pc, u32 u.text.length, u32 size⟩]
            text := u.text ++ value
            disasm := u.disasm ++ [(doDisasm value pc).getD "<unknown>"] }

/-- `operator()(InsnExecEntry)`. -/
def insnExec (cur : Nat) (u : Ud) : Except Failure Ud :=
  match getInsnSeq e buf cur with
  | none => .error .fault
  | some insnSeq => u.handleInsnSeq verbose insnSeq

/-- `operator()(LdStNxEntry)`. -/
def ldStNx (tag : Tag) (cur : Nat) (u : Ud) : Except Failure Ud :=
  match getInsnSeq e buf cur with
  | none => .error .fault
  | some insnSeq =>
    match u.handleInsnSeq verbose insnSeq with
    | .error err => .error err
    | .ok u =>
      match tag with
      | .mtGetRegNx => u.callOn ws fuel .reg (ldStNxRange ws e buf cur) .addUses
      | .mtPutRegNx => u.callOn ws fuel .reg (ldStNxRange ws e buf cur) .addDefs
      | _ => .error .einval

/-- The visitor `Ud<W>` as `VisitOne` calls it; `operator()(MmapEntry)` returns 0. -/
def visitor (doDisasm : List UInt8 → Nat → Option String) : Visitor Ud where
  visit _ tag cur u :=
    match tag.entryKind with
    | .ldSt => u.ldSt ws e buf verbose fuel tag cur
    | .insn => u.insn ws e buf doDisasm cur
    | .insnExec => u.insnExec e buf verbose cur
    | .ldStNx => u.ldStNx ws e buf verbose fuel tag cur
    | .mmap => .ok u

end Handlers

/-- `Ud::Init` in a create mode: `reserve`s of `expectedInsnCount / 10` register and
`expectedInsnCount / 20` memory partial uses, the catch-all code entry `<unknown>` and the seed
trace entry for it, the catch-all defs `[0, max)`, then `Disasm::Init`. -/
def init (e : Endianness) (fuel : Nat) (primes : List Nat) (machineType expectedInsnCount : Nat) :
    Except Failure Ud :=
  match UdState.init fuel primes (expectedInsnCount / 10) with
  | .error err => .error err
  | .ok (regState, primes) =>
    match UdState.init fuel primes (expectedInsnCount / 20) with
    | .error err => .error err
    | .ok (memState, primes) =>
      let u := addTrace ⟨[⟨0, 0, 0⟩], [], ["<unknown>"], [], regState, memState, primes⟩ 0
      let u := { u with
        regState := u.regState.addDef 0 ws.max
        memState := u.memState.addDef 0 ws.max }
      match disasmInit machineType e ws with
      | .error err => .error err
      | .ok () => .ok u

end Ud

/-- `VisitFile<Ud>(path, start, end, nullptr, nullptr, nullptr, nullptr, verbose)` once the magic
has selected `E` and `W`: `TraceMm::Init`, then `TraceMm::Visit<Ud>`, which runs
`Ud::Init(header_, length_ / 128)`, `VisitOne` until the end of the buffer, and `Complete`, whose
dumps return 0 at once with no path, so that it is its `Flush`. -/
def udVisit (e : Endianness) (ws : WordSize) (buf : List UInt8)
    (doDisasm : List UInt8 → Nat → Option String) (verbose : Bool) (fuel : Nat)
    (primes : List Nat) (start stop : Nat) : Except Failure Ud :=
  match TraceMm.init e ws buf with
  | .error err => .error err
  | .ok t =>
    match getMachineType e buf with
    | none => .error .fault
    | some machineType =>
      match Ud.init ws e fuel primes machineType (buf.length / 128) with
      | .error err => .error err
      | .ok u =>
        match visitLoop e ws buf (Ud.visitor ws e buf verbose fuel doDisasm) start stop fuel t u with
        | .error err => .error err
        | .ok (_, u) => u.flush verbose

/-- `VisitFile<Ud>` once its parts return: the `Flush` of `Complete` on the builder the loop
leaves. -/
theorem udVisit_eq_flush {e : Endianness} {ws : WordSize} {buf : List UInt8}
    {doDisasm : List UInt8 → Nat → Option String} {verbose : Bool} {fuel : Nat}
    {primes : List Nat} {start stop machineType : Nat} {t t' : TraceMm} {u u' : Ud}
    (hinit : TraceMm.init e ws buf = .ok t) (hmt : getMachineType e buf = some machineType)
    (hu : Ud.init ws e fuel primes machineType (buf.length / 128) = .ok u)
    (hl : visitLoop e ws buf (Ud.visitor ws e buf verbose fuel doDisasm) start stop fuel t u =
      .ok (t', u')) :
    udVisit e ws buf doDisasm verbose fuel primes start stop = u'.flush verbose := by
  simp only [udVisit, hinit, hmt, hu, hl]

/-- What a `VisitFile<Ud>` that returns went through: `TraceMm::Init`, the machine type,
`Ud::Init`, the loop of `Visit` and the `Flush` of `Complete`, each returning. -/
theorem udVisit_eq_ok {e : Endianness} {ws : WordSize} {buf : List UInt8}
    {doDisasm : List UInt8 → Nat → Option String} {verbose : Bool} {fuel : Nat}
    {primes : List Nat} {start stop : Nat} {u : Ud}
    (h : udVisit e ws buf doDisasm verbose fuel primes start stop = .ok u) :
    ∃ t machineType u₀ t' u₁, TraceMm.init e ws buf = .ok t ∧
      getMachineType e buf = some machineType ∧
      Ud.init ws e fuel primes machineType (buf.length / 128) = .ok u₀ ∧
      visitLoop e ws buf (Ud.visitor ws e buf verbose fuel doDisasm) start stop fuel t u₀ =
        .ok (t', u₁) ∧ u₁.flush verbose = .ok u := by
  unfold udVisit at h
  split at h
  · cases h
  split at h
  · cases h
  split at h
  · cases h
  split at h
  · cases h
  exact ⟨_, _, _, _, _, ‹_›, ‹_›, ‹_›, ‹_›, h⟩

/-! ## An `insnSeq` that names no instruction -/

/-- A little-endian, 4-byte-word trace of an `EM_386` program: the header, then one `INSN_EXEC`
record whose `insnSeq` bytes are `s`. -/
def insnExecTrace386 (s : List UInt8) : List UInt8 :=
  [0x34, 0x4d, 6, 0, 3, 0, 0, 0, 0x58, 0x58, 8, 0] ++ s

/-- An `INSN_EXEC` record with `insnSeq` 1 and no `INSN` record: the builder accepts it, and the
trace entry it opens has `codeIndex` 1 while `code_` holds only the catch-all entry 0. In verbose
mode the `Flush` of `Complete` reads `code_[1]`. -/
theorem udVisit_accepts_unknown_insnSeq (doDisasm : List UInt8 → Nat → Option String) :
    ∃ u, udVisit .little .four (insnExecTrace386 [1, 0, 0, 0]) doDisasm false 2 initialPrimes 0
        sizeMax = .ok u ∧
      u.code.length = 1 ∧ u.trace.map (·.codeIndex) = [0, 1] ∧
      udVisit .little .four (insnExecTrace386 [1, 0, 0, 0]) doDisasm true 2 initialPrimes 0
        sizeMax = .error .fault :=
  ⟨_, rfl, rfl, rfl, rfl⟩

end Memtrace
