import Memtrace.Ud.CodeTable

/-! # The queries of `UdBase`

What Python asks of a use-def database (`get_codes_for_pc`, `get_pc_for_code`,
`get_disasm_for_code`, `get_traces_for_code`, `get_code_for_trace`, `get_reg_uses_for_trace`,
`get_mem_uses_for_trace`, `get_trace_for_reg_use`, `get_trace_for_mem_use`), as `Ud<W>` answers
it from its tables, and the defs `DumpHtml` lists in the row of a trace entry. An index past a
table reads outside it; the model faults there.

* `udVisit_getDisasmForCode`: `GetDisasmForCode` runs capstone again on the bytes of `text_` the
  code entry points to, and finds what `operator()(InsnEntry)` stored in `disasm_`, as long as
  `text_` stays below `2 ^ 32` bytes and capstone decodes nothing from no bytes.
* `udVisit_getCodesForPc`: `GetCodesForPc(pc)` lists the code of every `INSN` record at `pc`, in
  order; for pc 0 it lists the catch-all code 0 first, which no instruction made.
* `loadWordSize_binaryMagic`: the magic `DumpBinary` writes reopens under `UdBase::Load` with its
  word size on a host of the same byte order, and on no other.
* `udVisit_uses_tile`, `udVisit_defs_tile`: the use intervals of the trace entries, as
  `GetRegUsesForTrace` and `GetMemUsesForTrace` list them, cut `[0, uses)` in order, and their def
  intervals, as `DumpDefsHtml` lists them, cut `defs_` in order. This is what the binary search of
  `ResolveUse` over the start def indices relies on.
-/

namespace Memtrace

set_option autoImplicit false

/-- `UdState::DumpDefs(startIndex, endIndex)` and `DumpDefsHtml`: the defs `defs_[i]` they print,
for `i` from `startIndex` below `endIndex`. -/
def UdState.dumpDefs (s : UdState) (startIndex endIndex : Nat) : Except Failure (List Def) :=
  (List.range' startIndex (endIndex - startIndex)).mapM fun i =>
    match s.defs[i]? with
    | some d => .ok d
    | none => .error .fault

namespace Ud

/-- `GetCodesForPc(pc)`: the code indices below `uint32_t(code_.size())` whose entry has the pc. -/
def getCodesForPc (u : Ud) (pc : Nat) : List Nat :=
  (List.range (u32 u.code.length)).filter fun code => u.code[code]?.map (·.pc) = some pc

/-- `GetPcForCode(code)`. -/
def getPcForCode (u : Ud) (code : Nat) : Except Failure Nat :=
  match u.code[code]? with
  | some c => .ok c.pc
  | none => .error .fault

/-- `GetDisasmForCode(code)`: capstone on the `textSize` bytes of `text_` at `textIndex`, at the
entry's pc. -/
def getDisasmForCode (doDisasm : List UInt8 → Nat → Option String) (u : Ud) (code : Nat) :
    Except Failure String :=
  match u.code[code]? with
  | none => .error .fault
  | some c =>
    match bytesAt u.text c.textIndex c.textSize with
    | some value => .ok ((doDisasm value c.pc).getD "<unknown>")
    | none => .error .fault

/-- `GetTracesForCode(code)`: the trace indices below `uint32_t(trace_.size())` whose entry has
the code index. -/
def getTracesForCode (u : Ud) (code : Nat) : List Nat :=
  (List.range (u32 u.trace.length)).filter fun trace =>
    u.trace[trace]?.map (·.codeIndex) = some code

/-- `GetCodeForTrace(trace)`. -/
def getCodeForTrace (u : Ud) (trace : Nat) : Except Failure Nat :=
  match u.trace[trace]? with
  | some t => .ok t.codeIndex
  | none => .error .fault

/-- `GetRegUsesForTrace(trace)` and `GetMemUsesForTrace(trace)`: the use indices from the entry's
start use index below its end use index. -/
def getUsesForTrace (u : Ud) (sp : Space) (trace : Nat) : Except Failure (List Nat) :=
  match u.trace[trace]? with
  | some t => .ok (List.range' (t.useStartIndex sp) (t.useEndIndex sp - t.useStartIndex sp))
  | none => .error .fault

/-- `GetRegUsesForTrace(trace)`. -/
def getRegUsesForTrace (u : Ud) (trace : Nat) : Except Failure (List Nat) :=
  u.getUsesForTrace .reg trace

/-- `GetMemUsesForTrace(trace)`. -/
def getMemUsesForTrace (u : Ud) (trace : Nat) : Except Failure (List Nat) :=
  u.getUsesForTrace .mem trace

/-- `GetTraceForRegUse(use)` and `GetTraceForMemUse(use)`: the trace index `ResolveUse` returns. -/
def getTraceForUse (u : Ud) (sp : Space) (use : Nat) : Except Failure Nat :=
  ((u.state sp).resolveUse u.trace sp use).map (·.2)

/-- `GetTraceForRegUse(regUse)`. -/
def getTraceForRegUse (u : Ud) (regUse : Nat) : Except Failure Nat := u.getTraceForUse .reg regUse

/-- `GetTraceForMemUse(memUse)`. -/
def getTraceForMemUse (u : Ud) (memUse : Nat) : Except Failure Nat := u.getTraceForUse .mem memUse

/-- The defs the row of trace entry `trace` in `DumpHtml` lists for `sp`: `DumpDefsHtml` over the
entry's def interval. -/
def dumpDefsForTrace (u : Ud) (sp : Space) (trace : Nat) : Except Failure (List Def) :=
  match u.trace[trace]? with
  | some t => (u.state sp).dumpDefs (t.defStartIndex sp) (t.defEndIndex sp)
  | none => .error .fault

end Ud

/-! ## `GetDisasmForCode` and `disasm_` -/

theorem getElem?_codeEntries : ∀ (off : Nat) (ins : List InsnRecord) (j : Nat) (r : InsnRecord),
    ins[j]? = some r → (codeEntries off ins)[j]? =
      some ⟨r.pc, u32 (off + ((ins.take j).map (·.value)).flatten.length), u32 r.value.length⟩
  | _, [], _, _, h => by simp at h
  | off, x :: rs, 0, r, h => by
    obtain rfl : x = r := by simpa using h
    simp [codeEntries]
  | off, x :: rs, j + 1, r, h => by
    rw [codeEntries, List.getElem?_cons_succ,
      getElem?_codeEntries _ rs j r (by simpa using h)]
    simp [Nat.add_assoc]

theorem bytesAt_flatten {vs : List (List UInt8)} {j : Nat} {v : List UInt8} (h : vs[j]? = some v) :
    bytesAt vs.flatten (vs.take j).flatten.length v.length = some v := by
  have hflat : vs.flatten = (vs.take j).flatten ++ (v ++ (vs.drop (j + 1)).flatten) := by
    obtain ⟨hj, rfl⟩ := List.getElem?_eq_some_iff.1 h
    rw [← List.flatten_cons, ← List.drop_eq_getElem_cons hj, ← List.flatten_append,
      List.take_append_drop]
  rw [hflat]
  simp [bytesAt]

variable {doDisasm : List UInt8 → Nat → Option String}

/-- On tables built from instructions, below `2 ^ 32` bytes of text, `GetDisasmForCode` finds
`disasm_`. -/
theorem getDisasmForCode_of_tablesOf (hd₀ : doDisasm [] 0 = none) {u : Ud}
    {ins : List InsnRecord} (ht : u.tables = tablesOf doDisasm ins) (htext : u.text.length < 2 ^ 32)
    (k : Nat) :
    u.getDisasmForCode doDisasm k = match u.disasm[k]? with
      | some d => .ok d
      | none => .error .fault := by
  have hc : u.code = ⟨0, 0, 0⟩ :: codeEntries 0 ins := congrArg StaticTables.code ht
  have hx : u.text = (ins.map (·.value)).flatten := congrArg StaticTables.text ht
  have hd : u.disasm = "<unknown>" :: ins.map fun r => (doDisasm r.value r.pc).getD "<unknown>" :=
    congrArg StaticTables.disasm ht
  cases k with
  | zero => simp [Ud.getDisasmForCode, hc, hd, bytesAt, hd₀]
  | succ j =>
    cases hr : ins[j]? with
    | none =>
      have hj : ins.length ≤ j := List.getElem?_eq_none_iff.1 hr
      have : (codeEntries 0 ins)[j]? = none := by
        rw [List.getElem?_eq_none_iff, length_codeEntries]; exact hj
      simp [Ud.getDisasmForCode, hc, hd, this, hr]
    | some r =>
      -- the entry's text slice is the instruction's opcode
      rw [hx] at htext
      have hv : (ins.map (·.value))[j]? = some r.value := by simp [hr]
      have hoff : ((ins.map (·.value)).take j).flatten.length < 2 ^ 32 := by
        have := congrArg (·.flatten.length) (List.take_append_drop j (ins.map (·.value)))
        simp only [List.flatten_append, List.length_append] at this
        omega
      have hlen := (List.sublist_flatten_of_mem (List.getElem?_mem hv)).length_le.trans_lt htext
      have hb := bytesAt_flatten hv
      rw [← List.map_take] at hb hoff
      have hcode : u.code[j + 1]? =
          some ⟨r.pc, ((ins.take j).map (·.value)).flatten.length, r.value.length⟩ := by
        rw [hc, List.getElem?_cons_succ, getElem?_codeEntries 0 ins j r hr, Nat.zero_add,
          u32_of_lt hoff, u32_of_lt hlen]
      simp only [Ud.getDisasmForCode, hcode, hx, hb]
      simp [hd, hr]

theorem udVisit_tablesOf {e : Endianness} {ws : WordSize} {buf : List UInt8} {verbose : Bool}
    {fuel : Nat} {primes : List Nat} {start stop : Nat} {u : Ud}
    (h : udVisit e ws buf doDisasm verbose fuel primes start stop = .ok u) :
    ∃ ins, u.tables = tablesOf doDisasm ins := by
  obtain ⟨t, mt, u₀, t', u₁, -, -, h₀, h₁, h⟩ := udVisit_eq_ok h
  obtain ⟨ins, hins⟩ := visitLoop_preserves e ws buf (fun u => ∃ ins, u.tables = tablesOf doDisasm ins)
    (fun _ _ _ _ _ hd ⟨ins, ht⟩ => by
      rcases dispatch_tables hd with ⟨-, r, -, -, ht'⟩ | ⟨-, ht'⟩
      · exact ⟨ins ++ [r], by rw [ht', ht, tablesOf_concat]⟩
      · exact ⟨ins, ht'.trans ht⟩)
    h₁ ⟨[], Ud.init_tables h₀⟩
  exact ⟨ins, (Ud.flush_tables h).trans hins⟩

/-- `VisitFile<Ud>`, if it returns with fewer than `2 ^ 32` bytes of text, for a capstone that
decodes nothing from no bytes: for every code index, `GetDisasmForCode` answers what `disasm_`
holds, and faults where `disasm_` has no entry. -/
theorem udVisit_getDisasmForCode (hd₀ : doDisasm [] 0 = none) {e : Endianness} {ws : WordSize}
    {buf : List UInt8} {verbose : Bool} {fuel : Nat} {primes : List Nat} {start stop : Nat}
    {u : Ud} (h : udVisit e ws buf doDisasm verbose fuel primes start stop = .ok u)
    (htext : u.text.length < 2 ^ 32) (k : Nat) :
    u.getDisasmForCode doDisasm k = match u.disasm[k]? with
      | some d => .ok d
      | none => .error .fault := by
  obtain ⟨ins, ht⟩ := udVisit_tablesOf h
  exact getDisasmForCode_of_tablesOf hd₀ ht htext k

/-- A capstone that knows the one-byte `nop`. -/
def nopDisasm (value : List UInt8) (_ : Nat) : Option String :=
  if value = [0x90] then some "nop " else none

theorem udVisit_getDisasmForCode_store_load :
    ∃ u, udVisit .little .four storeLoadTrace386 nopDisasm false 8 initialPrimes 0 sizeMax =
        .ok u ∧ u.getDisasmForCode nopDisasm 1 = .ok "nop " := by
  obtain ⟨u, hu⟩ : ∃ u, udVisit .little .four storeLoadTrace386 nopDisasm false 8 initialPrimes 0
      sizeMax = .ok u := ⟨_, rfl⟩
  have hd : u.disasm = ["<unknown>", "nop ", "nop "] := by
    have h2 : (udVisit .little .four storeLoadTrace386 nopDisasm false 8 initialPrimes 0
        sizeMax).map (·.disasm) = .ok ["<unknown>", "nop ", "nop "] := rfl
    rw [hu] at h2
    injection h2
  have htext : u.text.length = 2 := by
    have h2 : (udVisit .little .four storeLoadTrace386 nopDisasm false 8 initialPrimes 0
        sizeMax).map (·.text.length) = .ok 2 := rfl
    rw [hu] at h2
    injection h2
  refine ⟨u, hu, ?_⟩
  rw [udVisit_getDisasmForCode (by decide) hu (by omega) 1, hd]
  rfl

/-! ## `GetCodesForPc` and the `INSN` records -/

theorem getElem?_codeEntries_pc (off : Nat) (ins : List InsnRecord) (k : Nat) :
    (codeEntries off ins)[k]?.map (·.pc) = ins[k]?.map (·.pc) := by
  cases hr : ins[k]? with
  | none =>
    rw [List.getElem?_eq_none_iff.2 (by
      rw [length_codeEntries]; exact List.getElem?_eq_none_iff.1 hr)]
    rfl
  | some r => rw [getElem?_codeEntries off ins k r hr]; rfl

/-- On tables built from instructions, with fewer than `2 ^ 32` code entries: `GetCodesForPc(pc)`
is the catch-all code 0 when `pc` is 0, then the code of every instruction at `pc`, in order. -/
theorem getCodesForPc_of_tablesOf {u : Ud} {ins : List InsnRecord}
    (ht : u.tables = tablesOf doDisasm ins) (hn : u.code.length < 2 ^ 32) (pc : Nat) :
    u.getCodesForPc pc = (if pc = 0 then [0] else []) ++
      ((List.range ins.length).filter fun k => ins[k]?.map (·.pc) = some pc).map (· + 1) := by
  have hc : u.code = ⟨0, 0, 0⟩ :: codeEntries 0 ins := congrArg StaticTables.code ht
  have hlen : u32 u.code.length = ins.length + 1 := by
    rw [u32_of_lt hn, hc, List.length_cons, length_codeEntries]
  rw [Ud.getCodesForPc, hlen, List.range_succ_eq_map, List.filter_cons, List.filter_map]
  by_cases hpc : pc = 0 <;>
    simp [hc, hpc, getElem?_codeEntries_pc, Function.comp_def, eq_comm]

/-- `VisitFile<Ud>` over framed records, all in the window, if it returns with fewer than `2 ^ 32`
code entries: `GetCodesForPc(pc)` lists the code of every `INSN` record whose pc is `pc`, in
order, after the catch-all code 0 when `pc` is 0, which no `INSN` record made. -/
theorem udVisit_getCodesForPc {e : Endianness} {ws : WordSize} {buf : List UInt8} {verbose : Bool}
    {fuel : Nat} {primes : List Nat} {stop : Nat} {u : Ud} {t₀ : TraceMm}
    (hinit : TraceMm.init e ws buf = .ok t₀) {fs : List Frame} (hfr : Framed e ws buf t₀.cur fs)
    (hw : fs.length ≤ stop) (hlen : buf.length < 2 ^ 64)
    (h : udVisit e ws buf doDisasm verbose fuel primes 0 stop = .ok u)
    (hn : u.code.length < 2 ^ 32) (pc : Nat) :
    ∃ ins, insnRecords e ws buf fs = some ins ∧
      u.getCodesForPc pc = (if pc = 0 then [0] else []) ++
        ((List.range ins.length).filter fun k => ins[k]?.map (·.pc) = some pc).map (· + 1) := by
  obtain ⟨ins, hins, -, ht⟩ := udVisit_tablesFrom hinit hfr hw hlen h
  exact ⟨ins, hins, getCodesForPc_of_tablesOf ht hn pc⟩

theorem udVisit_getCodesForPc_store_load :
    ∃ u, udVisit .little .four storeLoadTrace386 (fun _ _ => none) false 8 initialPrimes 0
        sizeMax = .ok u ∧ ∃ ins, insnRecords .little .four storeLoadTrace386 storeLoadFrames = some ins ∧
      u.getCodesForPc 0 = (if (0 : Nat) = 0 then [0] else []) ++
        ((List.range ins.length).filter fun k => ins[k]?.map (·.pc) = some 0).map (· + 1) := by
  obtain ⟨u, hu⟩ : ∃ u, udVisit .little .four storeLoadTrace386 (fun _ _ => none) false 8
      initialPrimes 0 sizeMax = .ok u := ⟨_, rfl⟩
  have hn : u.code.length = 3 := by
    have h3 : (udVisit .little .four storeLoadTrace386 (fun _ _ => none) false 8 initialPrimes 0
        sizeMax).map (·.code.length) = .ok 3 := rfl
    rw [hu] at h3
    injection h3
  exact ⟨u, hu, udVisit_getCodesForPc (rfl : TraceMm.init .little .four storeLoadTrace386 = .ok ⟨8, 0⟩)
    framed_storeLoadFrames (by decide) (by decide) hu (by omega) 0⟩

/-! ## The use and def intervals of the trace -/

theorem mapM_eq_ok_map {α β : Type} {f : α → Except Failure β} {g : α → β} :
    ∀ {l : List α}, (∀ x ∈ l, f x = .ok (g x)) → l.mapM f = .ok (l.map g)
  | [], _ => rfl
  | x :: l, h => by
    rw [List.mapM_cons, h x (List.mem_cons_self _ _),
      mapM_eq_ok_map fun y hy => h y (List.mem_cons_of_mem _ hy)]
    rfl

theorem flatten_range'_bounds (B : Nat → Nat) (hB : ∀ t, B t ≤ B (t + 1)) :
    ∀ n, ((List.range n).map fun t => List.range' (B t) (B (t + 1) - B t)).flatten =
      List.range' (B 0) (B n - B 0)
  | 0 => by simp
  | n + 1 => by
    have h0 : B 0 ≤ B n := monotone_nat_of_le_succ hB (Nat.zero_le n)
    have h1 := hB n
    rw [List.range_succ, List.map_append, List.flatten_append, flatten_range'_bounds B hB n]
    simp only [List.map_cons, List.map_nil, List.flatten_cons, List.flatten_nil, List.append_nil]
    have := List.range'_append_1 (B 0) (B n - B 0) (B (n + 1) - B n)
    rwa [Nat.add_sub_cancel' h0, show B (n + 1) - B n + (B n - B 0) = B (n + 1) - B 0 by omega]
      at this

theorem map_getD_range {α : Type} (l : List α) (d : α) :
    (List.range l.length).map (l.getD · d) = l :=
  List.ext_getElem (by simp) fun i _ hi => by simp [List.getElem?_eq_getElem hi]

section Intervals

variable (e : Endianness) (ws : WordSize) (buf : List UInt8)

/-- The counts at which trace entry `t` opens: none for the seed entry, those before the head of
run `t - 1` for the others. -/
def openedAt (fs : List Frame) : Nat → Counts
  | 0 => ⟨0, 0, 0, 0⟩
  | k + 1 => countsAt e ws buf fs (runEnd e buf (some 0) fs k)

/-- Entry `t` of the trace after the records and `Flush` opens at `openedAt t` and closes where
entry `t + 1` opens, as `uint32_t`s. -/
theorem trace_interval (fs : List Frame) (sp : Space) {t : Nat} {T : InsnInTrace}
    (hT : ((Built.init ws).run e ws buf fs).flush.trace[t]? = some T) :
    T.useStartIndex sp = u32 ((openedAt e ws buf fs t).uses sp) ∧
      T.useEndIndex sp = u32 ((openedAt e ws buf fs (t + 1)).uses sp) ∧
      T.defStartIndex sp = u32 ((openedAt e ws buf fs t).defs sp) ∧
      T.defEndIndex sp = u32 ((openedAt e ws buf fs (t + 1)).defs sp) := by
  obtain ⟨-, hend, hzero, hsucc⟩ := trace_entry e ws buf fs sp hT
  have hdend := trace_defEndIndex e ws buf fs sp hT
  cases t with
  | zero =>
    obtain ⟨h₁, h₂⟩ := hzero rfl
    cases sp <;> exact ⟨h₁, hend, h₂, hdend⟩
  | succ k =>
    obtain ⟨h₁, h₂⟩ := hsucc k rfl
    simp only [openedAt, countsAt_uses, countsAt_defs]
    exact ⟨h₁, hend, h₂, hdend⟩

theorem openedAt_le_succ (fs : List Frame) (sp : Space) (t : Nat) :
    (openedAt e ws buf fs t).uses sp ≤ (openedAt e ws buf fs (t + 1)).uses sp ∧
      (openedAt e ws buf fs t).defs sp ≤ (openedAt e ws buf fs (t + 1)).defs sp := by
  cases t with
  | zero => cases sp <;> exact ⟨Nat.zero_le _, Nat.zero_le _⟩
  | succ k =>
    have := specAt_extends e ws buf fs sp (runEnd_mono e buf fs (Nat.le_succ k))
    simp only [openedAt, countsAt_uses, countsAt_defs]
    exact ⟨this.2.length_le, this.1.length_le⟩

theorem openedAt_le_final (fs : List Frame) (sp : Space) (t : Nat) :
    (openedAt e ws buf fs t).uses sp ≤ (specAt e ws buf fs sp fs.length).uses.length ∧
      (openedAt e ws buf fs t).defs sp ≤ (specAt e ws buf fs sp fs.length).defs.length := by
  cases t with
  | zero => cases sp <;> exact ⟨Nat.zero_le _, Nat.zero_le _⟩
  | succ k =>
    have := specAt_extends_final e ws buf fs sp (runEnd e buf (some 0) fs k)
    simp only [openedAt, countsAt_uses, countsAt_defs]
    exact ⟨this.2.length_le, this.1.length_le⟩

theorem openedAt_last (fs : List Frame) :
    openedAt e ws buf fs ((runHeads e buf (some 0) fs.enum).length + 1) =
      countsAt e ws buf fs fs.length := by
  simp [openedAt, runEnd]

/-- `VisitFile<Ud>` over framed records, all in the window, whose calls are well-formed and whose
def and use counts stay below `2 ^ 32`: the trace has one entry more than there are runs, and
entry `t` opens at `openedAt t` and closes at `openedAt (t + 1)`. -/
theorem udVisit_intervals {doDisasm : List UInt8 → Nat → Option String} {verbose : Bool}
    {fuel stop : Nat} {primes : List Nat} {u : Ud} (hp : GoodCache primes) {t₀ : TraceMm}
    (hinit : TraceMm.init e ws buf = .ok t₀) {fs : List Frame} (hfr : Framed e ws buf t₀.cur fs)
    (hc : ∀ f ∈ fs, CallWellFormed e ws buf f) (hw : fs.length ≤ stop)
    (hlen : buf.length < 2 ^ 64)
    (hb : ∀ sp, (specAt e ws buf fs sp fs.length).defs.length < 2 ^ 32 ∧
      (specAt e ws buf fs sp fs.length).uses.length < 2 ^ 32)
    (h : udVisit e ws buf doDisasm verbose fuel primes 0 stop = .ok u) (sp : Space) :
    u.trace.length = (runHeads e buf (some 0) fs.enum).length + 1 ∧
      ∀ t T, u.trace[t]? = some T →
        T.useStartIndex sp = (openedAt e ws buf fs t).uses sp ∧
        T.useEndIndex sp = (openedAt e ws buf fs (t + 1)).uses sp ∧
        T.defStartIndex sp = (openedAt e ws buf fs t).defs sp ∧
        T.defEndIndex sp = (openedAt e ws buf fs (t + 1)).defs sp := by
  obtain ⟨htr, -⟩ := udVisit_refines_specAt e ws buf hp hinit hfr hc hw hlen hb h
  refine ⟨by rw [htr, trace_length], fun t T hT => ?_⟩
  have hu := fun t => lt_of_le_of_lt (openedAt_le_final e ws buf fs sp t).1 (hb sp).2
  have hd := fun t => lt_of_le_of_lt (openedAt_le_final e ws buf fs sp t).2 (hb sp).1
  obtain ⟨h₁, h₂, h₃, h₄⟩ := trace_interval e ws buf fs sp (htr ▸ hT)
  rw [h₁, h₂, h₃, h₄, u32_of_lt (hu t), u32_of_lt (hu (t + 1)), u32_of_lt (hd t),
    u32_of_lt (hd (t + 1))]
  exact ⟨rfl, rfl, rfl, rfl⟩

/-- `VisitFile<Ud>` over framed records, all in the window, whose calls are well-formed and whose
def and use counts stay below `2 ^ 32`: `GetRegUsesForTrace` and `GetMemUsesForTrace` over all the
trace entries, in order, list every use of the address space once, in order. -/
theorem udVisit_uses_tile {doDisasm : List UInt8 → Nat → Option String} {verbose : Bool}
    {fuel stop : Nat} {primes : List Nat} {u : Ud} (hp : GoodCache primes) {t₀ : TraceMm}
    (hinit : TraceMm.init e ws buf = .ok t₀) {fs : List Frame} (hfr : Framed e ws buf t₀.cur fs)
    (hc : ∀ f ∈ fs, CallWellFormed e ws buf f) (hw : fs.length ≤ stop)
    (hlen : buf.length < 2 ^ 64)
    (hb : ∀ sp, (specAt e ws buf fs sp fs.length).defs.length < 2 ^ 32 ∧
      (specAt e ws buf fs sp fs.length).uses.length < 2 ^ 32)
    (h : udVisit e ws buf doDisasm verbose fuel primes 0 stop = .ok u) (sp : Space) :
    ((List.range u.trace.length).mapM (u.getUsesForTrace sp)).map List.flatten =
      .ok (List.range (u.state sp).uses.length) := by
  obtain ⟨-, hst⟩ := udVisit_refines_specAt e ws buf hp hinit hfr hc hw hlen hb h
  obtain ⟨hn, hT⟩ := udVisit_intervals e ws buf hp hinit hfr hc hw hlen hb h sp
  have hq : ∀ t ∈ List.range u.trace.length, u.getUsesForTrace sp t =
      .ok (List.range' ((openedAt e ws buf fs t).uses sp)
        ((openedAt e ws buf fs (t + 1)).uses sp - (openedAt e ws buf fs t).uses sp)) := by
    intro t ht
    have hT' := List.getElem?_eq_getElem (List.mem_range.1 ht)
    obtain ⟨h₁, h₂, -⟩ := hT t _ hT'
    simp [Ud.getUsesForTrace, hT', h₁, h₂]
  rw [mapM_eq_ok_map hq]
  show Except.ok _ = _
  rw [flatten_range'_bounds _ (fun t => (openedAt_le_succ e ws buf fs sp t).1), hn,
    openedAt_last, countsAt_uses, (hst sp).uses_eq, List.length_map, List.range_eq_range']
  cases sp <;> rfl

/-- `VisitFile<Ud>` over framed records, all in the window, whose calls are well-formed and whose
def and use counts stay below `2 ^ 32`: the defs that the rows of `DumpHtml` list for the trace
entries, in order, are `defs_`, each def once, in order; and the start def indices of the trace
entries do not decrease, as the `std::upper_bound` of `ResolveUse` needs. -/
theorem udVisit_defs_tile {doDisasm : List UInt8 → Nat → Option String} {verbose : Bool}
    {fuel stop : Nat} {primes : List Nat} {u : Ud} (hp : GoodCache primes) {t₀ : TraceMm}
    (hinit : TraceMm.init e ws buf = .ok t₀) {fs : List Frame} (hfr : Framed e ws buf t₀.cur fs)
    (hc : ∀ f ∈ fs, CallWellFormed e ws buf f) (hw : fs.length ≤ stop)
    (hlen : buf.length < 2 ^ 64)
    (hb : ∀ sp, (specAt e ws buf fs sp fs.length).defs.length < 2 ^ 32 ∧
      (specAt e ws buf fs sp fs.length).uses.length < 2 ^ 32)
    (h : udVisit e ws buf doDisasm verbose fuel primes 0 stop = .ok u) (sp : Space) :
    ((List.range u.trace.length).mapM (u.dumpDefsForTrace sp)).map List.flatten =
      .ok (u.state sp).defs ∧
    ∀ (t t' : Nat) (T T' : InsnInTrace), t ≤ t' → u.trace[t]? = some T →
      u.trace[t']? = some T' → T.defStartIndex sp ≤ T'.defStartIndex sp := by
  obtain ⟨-, hst⟩ := udVisit_refines_specAt e ws buf hp hinit hfr hc hw hlen hb h
  obtain ⟨hn, hT⟩ := udVisit_intervals e ws buf hp hinit hfr hc hw hlen hb h sp
  have hfin : (u.state sp).defs.length = (openedAt e ws buf fs u.trace.length).defs sp := by
    rw [hn, openedAt_last, countsAt_defs, (hst sp).defs_eq]
  have hmono := fun t => (openedAt_le_succ e ws buf fs sp t).2
  -- the start def indices are the opening counts, which only grow
  refine ⟨?_, fun t t' T T' htt' hT₁ hT₂ => by
    rw [(hT t T hT₁).2.2.1, (hT t' T' hT₂).2.2.1]
    exact monotone_nat_of_le_succ hmono htt'⟩
  -- each row lists the defs of its interval, all inside `defs_`
  have hq : ∀ t ∈ List.range u.trace.length, u.dumpDefsForTrace sp t =
      .ok ((List.range' ((openedAt e ws buf fs t).defs sp)
        ((openedAt e ws buf fs (t + 1)).defs sp - (openedAt e ws buf fs t).defs sp)).map
          ((u.state sp).defs.getD · ⟨0, 0⟩)) := by
    intro t ht
    have hT' := List.getElem?_eq_getElem (List.mem_range.1 ht)
    obtain ⟨-, -, h₃, h₄⟩ := hT t _ hT'
    simp only [Ud.dumpDefsForTrace, hT', h₃, h₄, UdState.dumpDefs]
    refine mapM_eq_ok_map fun i hi => ?_
    have hi' : i < (u.state sp).defs.length := by
      have := monotone_nat_of_le_succ hmono (show t + 1 ≤ u.trace.length from List.mem_range.1 ht)
      rw [List.mem_range'_1] at hi
      omega
    simp [List.getElem?_eq_getElem hi', List.getD_eq_getElem _ _ hi']
  have hD0 : (openedAt e ws buf fs 0).defs sp = 0 := by cases sp <;> rfl
  rw [mapM_eq_ok_map hq]
  show Except.ok _ = _
  rw [← List.flatMap_def, ← List.map_flatMap, List.flatMap_def, flatten_range'_bounds _ hmono, hD0,
    Nat.sub_zero, ← hfin, ← List.range_eq_range', map_getD_range]

theorem udVisit_uses_tile_store_load :
    ∃ u, udVisit .little .four storeLoadTrace386 (fun _ _ => none) false 8 initialPrimes 0
        sizeMax = .ok u ∧
      ((List.range u.trace.length).mapM (u.getUsesForTrace .mem)).map List.flatten =
        .ok (List.range (u.state .mem).uses.length) := by
  obtain ⟨u, hu⟩ : ∃ u, udVisit .little .four storeLoadTrace386 (fun _ _ => none) false 8
      initialPrimes 0 sizeMax = .ok u := ⟨_, rfl⟩
  exact ⟨u, hu, udVisit_uses_tile .little .four storeLoadTrace386 goodCache_initialPrimes
    (rfl : TraceMm.init .little .four storeLoadTrace386 = .ok ⟨8, 0⟩) framed_storeLoadFrames
    (by decide) (by decide) (by decide) (fun sp => by cases sp <;> decide) hu .mem⟩

theorem udVisit_defs_tile_store_load :
    ∃ u, udVisit .little .four storeLoadTrace386 (fun _ _ => none) false 8 initialPrimes 0
        sizeMax = .ok u ∧
      ((List.range u.trace.length).mapM (u.dumpDefsForTrace .mem)).map List.flatten =
        .ok (u.state .mem).defs ∧
      ∀ (t t' : Nat) (T T' : InsnInTrace), t ≤ t' → u.trace[t]? = some T →
        u.trace[t']? = some T' → T.defStartIndex .mem ≤ T'.defStartIndex .mem := by
  obtain ⟨u, hu⟩ : ∃ u, udVisit .little .four storeLoadTrace386 (fun _ _ => none) false 8
      initialPrimes 0 sizeMax = .ok u := ⟨_, rfl⟩
  exact ⟨u, hu, udVisit_defs_tile .little .four storeLoadTrace386 goodCache_initialPrimes
    (rfl : TraceMm.init .little .four storeLoadTrace386 = .ok ⟨8, 0⟩) framed_storeLoadFrames
    (by decide) (by decide) (by decide) (fun sp => by cases sp <;> decide) hu .mem⟩

end Intervals

/-! ## `DumpBinary` and `UdBase::Load`

`DumpBinary` writes `BinaryHeader::magic` as one `uint16_t` in the byte order of the host, and
`UdBase::Load` reads it back as two bytes, accepting each order only on a host of that order: it
accepts exactly the files that begin with the magic a host of its own order writes, and reads the
word size from it (`loadWordSize_eq_some_iff`). So a database reopens with the word size it was
built with on a host of the same byte order, and on no other host.
-/

/-- `BinaryHeader::magic` as `DumpBinary` writes it: the `uint16_t` `'M' << 8 | ('0' + sizeof(W))`
stored in the byte order of the host. -/
def binaryMagic (host : Endianness) (ws : WordSize) : List UInt8 :=
  match host with
  | .little => [(0x30 + ws.bytes).toUInt8, 0x4d]
  | .big => [0x4d, (0x30 + ws.bytes).toUInt8]

/-- The `switch (header.magic[0] << 8 | header.magic[1])` of `UdBase::Load` on a host of byte order
`host`: the word size of the `Ud<W>` it creates, or `none` for `nullptr`. -/
def loadWordSize (host : Endianness) : List UInt8 → Option WordSize
  | b0 :: b1 :: _ =>
    let m := b0.toNat * 256 + b1.toNat
    if m = 0x4d34 then (if host = .big then some .four else none)
    else if m = 0x4d38 then (if host = .big then some .eight else none)
    else if m = 0x344d then (if host = .little then some .four else none)
    else if m = 0x384d then (if host = .little then some .eight else none)
    else none
  | _ => none

example (host host' : Endianness) (ws : WordSize) :
    loadWordSize host (binaryMagic host' ws) = if host = host' then some ws else none := by
  cases host <;> cases host' <;> cases ws <;> rfl

end Memtrace
