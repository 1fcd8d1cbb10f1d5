import Memtrace.Ud.Indices

/-! # `code_`, `text_` and `disasm_` are the `INSN` records

`operator()(InsnEntry)` is the only handler that touches the static tables of `Ud<W>`: it checks
that the record's `insnSeq` is `uint32_t(code_.size())`, appends `{pc, uint32_t(text_.size()),
uint32_t(size)}` to `code_`, the opcode bytes to `text_` and capstone's text to `disasm_`.

* `readInsn` is what the handler reads of an `INSN` record, `insnRecords` those reads for the
  `INSN` records of a trace, in order.
* `tablesOf ins` is the tables the handler builds from the instructions `ins` after the catch-all
  entry of `Ud::Init`: the opcodes end to end in `text_`, each code entry holding the prefix sum
  of the opcode lengths before it, as a `uint32_t`.
* `udVisit_code_of_insns`: a visit of framed records that returns has read every `INSN` record
  whole, the `k`-th of them carries `insnSeq` `k + 1`, and the tables are `tablesOf` of them.
-/

namespace Memtrace

set_option autoImplicit false

/-- What `operator()(InsnEntry)` reads of an `INSN` record: `GetInsnSeq()`, `GetPc()` and the
`GetSize()` bytes at `GetValue()`. -/
structure InsnRecord where
  insnSeq : Nat
  pc : Nat
  value : List UInt8
  deriving DecidableEq, Repr

/-- `code_`, `text_` and `disasm_`, the tables of the static instructions. -/
structure StaticTables where
  code : List InsnInCode
  text : List UInt8
  disasm : List String
  deriving DecidableEq, Repr

namespace StaticTables

/-- The catch-all code entry `{0, 0, 0}` of `Ud::Init`, with no text, disassembled as
`<unknown>`. -/
def init : StaticTables := ⟨[⟨0, 0, 0⟩], [], ["<unknown>"]⟩

/-- What `operator()(InsnEntry)` appends for the instruction `r`. -/
def push (doDisasm : List UInt8 → Nat → Option String) (t : StaticTables) (r : InsnRecord) :
    StaticTables :=
  ⟨t.code ++ [⟨r.pc, u32 t.text.length, u32 r.value.length⟩], t.text ++ r.value,
    t.disasm ++ [(doDisasm r.value r.pc).getD "<unknown>"]⟩

end StaticTables

/-- The static tables of the builder. -/
def Ud.tables (u : Ud) : StaticTables := ⟨u.code, u.text, u.disasm⟩

/-! ## The tables of a list of instructions -/

/-- The code entries of the instructions `ins` when `text_` holds `off` bytes before them. -/
def codeEntries : Nat → List InsnRecord → List InsnInCode
  | _, [] => []
  | off, r :: rs => ⟨r.pc, u32 off, u32 r.value.length⟩ :: codeEntries (off + r.value.length) rs

section Tables

variable (doDisasm : List UInt8 → Nat → Option String)

/-- The tables after the catch-all entry and the instructions `ins`, in closed form. -/
def tablesOf (ins : List InsnRecord) : StaticTables :=
  ⟨⟨0, 0, 0⟩ :: codeEntries 0 ins, (ins.map (·.value)).flatten,
    "<unknown>" :: ins.map fun r => (doDisasm r.value r.pc).getD "<unknown>"⟩

theorem length_codeEntries : ∀ (off : Nat) (ins : List InsnRecord),
    (codeEntries off ins).length = ins.length
  | _, [] => rfl
  | off, _ :: rs => by simp [codeEntries, length_codeEntries _ rs]

theorem codeEntries_concat : ∀ (off : Nat) (ins : List InsnRecord) (r : InsnRecord),
    codeEntries off (ins ++ [r]) = codeEntries off ins ++
      [⟨r.pc, u32 (off + (ins.map (·.value)).flatten.length), u32 r.value.length⟩]
  | off, [], r => by simp [codeEntries]
  | off, x :: rs, r => by
    simp [codeEntries, codeEntries_concat _ rs r, Nat.add_assoc]

theorem tablesOf_nil : tablesOf doDisasm [] = .init := rfl

theorem tablesOf_concat (ins : List InsnRecord) (r : InsnRecord) :
    tablesOf doDisasm (ins ++ [r]) = (tablesOf doDisasm ins).push doDisasm r := by
  simp [tablesOf, StaticTables.push, codeEntries_concat]

theorem length_code_tablesOf (ins : List InsnRecord) :
    (tablesOf doDisasm ins).code.length = ins.length + 1 := by
  simp [tablesOf, length_codeEntries]

end Tables

/-! ## The `INSN` records of a trace -/

section Records

variable (e : Endianness) (ws : WordSize) (buf : List UInt8)

/-- The fields of the `INSN` record at `cur`, when they lie inside the buffer. -/
def readInsn (cur : Nat) : Option InsnRecord :=
  match getInsnSeq e buf cur, Ud.ldStRange ws e buf cur with
  | some s, some (pc, size) => (bytesAt buf (cur + valueOffset ws) size).map fun v => ⟨s, pc, v⟩
  | _, _ => none

/-- Whether a record is an `INSN` record. -/
def Frame.isInsn (f : Frame) : Bool := Tag.ofCode f.tag = some .mtInsn

/-- The fields of the `INSN` records among `fs`, in order; `none` when one of them is cut off. -/
def insnRecords (fs : List Frame) : Option (List InsnRecord) :=
  (fs.filter Frame.isInsn).mapM fun f => readInsn e ws buf f.offset

variable {e ws buf}

theorem insnRecords_concat_insn {p : List Frame} {f : Frame} {ins : List InsnRecord}
    {r : InsnRecord} (hf : f.isInsn) (hp : insnRecords e ws buf p = some ins)
    (hr : readInsn e ws buf f.offset = some r) :
    insnRecords e ws buf (p ++ [f]) = some (ins ++ [r]) := by
  unfold insnRecords at hp ⊢
  rw [List.filter_append, List.filter_cons_of_pos hf, List.mapM_append, hp]
  simp only [List.filter_nil, List.mapM_cons, List.mapM_nil, hr]
  rfl

theorem insnRecords_concat_not_insn {p : List Frame} {f : Frame} (hf : f.isInsn = false) :
    insnRecords e ws buf (p ++ [f]) = insnRecords e ws buf p := by
  simp [insnRecords, List.filter_append, hf]

theorem isInsn_of_insnSeq? {f : Frame} {s : Nat} (h : f.insnSeq? e buf = some s) :
    f.isInsn = false := by
  unfold Frame.insnSeq? at h
  unfold Frame.isInsn
  split at h
  · rename_i tg htg
    rw [htg]
    split_ifs at h with hs
    cases tg <;> simp_all [Tag.entryKind, EntryKind.hasInsnSeq]
  · simp_all

end Records

/-! ## What the handlers do to the tables -/

namespace Ud

variable {u u' : Ud}

theorem flush_tables {verbose : Bool} (h : u.flush verbose = .ok u') : u'.tables = u.tables := by
  unfold flush at h
  split at h
  · cases h
  · dsimp only at h
    split_ifs at h
    cases h
    rfl

theorem handleInsnSeq_tables {verbose : Bool} {s : Nat} (h : u.handleInsnSeq verbose s = .ok u') :
    u'.tables = u.tables := by
  unfold handleInsnSeq at h
  split at h
  · cases h
  · split_ifs at h
    · cases h
      rfl
    · split at h
      · cases h
      · rename_i hf
        cases h
        have := flush_tables hf
        exact this

theorem callOn_tables {ws : WordSize} {fuel : Nat} {sp : Space} {r : Option (Nat × Nat)}
    {mk : Nat → Nat → UdCall} (h : u.callOn ws fuel sp r mk = .ok u') : u'.tables = u.tables := by
  unfold callOn call at h
  split at h
  · split at h
    · cases h
    · cases h
      cases sp <;> rfl
  · cases h

/-- `operator()(InsnEntry)` returns exactly when the record reads whole and its `insnSeq` is the
next code index, and then it appends the instruction to the tables. -/
theorem insn_eq_ok {ws : WordSize} {e : Endianness} {buf : List UInt8}
    {doDisasm : List UInt8 → Nat → Option String} {cur : Nat}
    (h : u.insn ws e buf doDisasm cur = .ok u') :
    ∃ r, readInsn e ws buf cur = some r ∧ r.insnSeq = u32 u.code.length ∧
      u'.tables = u.tables.push doDisasm r := by
  unfold insn at h
  split at h
  · cases h
  · rename_i s hs
    split_ifs at h with hseq
    split at h
    · cases h
    · rename_i pc size hr
      split at h
      · cases h
      · rename_i v hv
        cases h
        refine ⟨⟨s, pc, v⟩, by simp [readInsn, hs, hr, hv], not_not.1 hseq, ?_⟩
        simp [tables, StaticTables.push, length_of_bytesAt hv]

theorem init_tables {ws : WordSize} {e : Endianness} {fuel machineType n : Nat}
    {primes : List Nat} (h : Ud.init ws e fuel primes machineType n = .ok u) :
    u.tables = .init := by
  unfold Ud.init at h
  split at h
  · cases h
  · split at h
    · cases h
    · split at h
      · cases h
      · cases h
        rfl

end Ud

section Visit

variable {e : Endianness} {ws : WordSize} {buf : List UInt8} {verbose : Bool} {fuel : Nat}
  {doDisasm : List UInt8 → Nat → Option String}

/-- What one record does to the tables: an `INSN` record appends its instruction, under the
`insnSeq` check, every other record leaves them alone. -/
theorem dispatch_tables {i cur tag : Nat} {u u' : Ud}
    (hd : (Ud.visitor ws e buf verbose fuel doDisasm).dispatch i tag cur u = .ok u') :
    (Tag.ofCode tag = some .mtInsn ∧ ∃ r, readInsn e ws buf cur = some r ∧
      r.insnSeq = u32 u.code.length ∧ u'.tables = u.tables.push doDisasm r) ∨
    (Frame.isInsn ⟨cur, tag, 0⟩ = false ∧ u'.tables = u.tables) := by
  rcases Ud.dispatch_cases e ws buf 0 hd with
    ⟨htg, hd⟩ | ⟨htg, rfl⟩ | ⟨s, u₁, hs, hh, ⟨-, rfl⟩ | ⟨sp, r, mk, -, hcall⟩⟩
  · exact .inl ⟨htg, Ud.insn_eq_ok hd⟩
  · exact .inr ⟨by simp [Frame.isInsn, htg], rfl⟩
  · exact .inr ⟨isInsn_of_insnSeq? hs, Ud.handleInsnSeq_tables hh⟩
  · exact .inr ⟨isInsn_of_insnSeq? hs, (Ud.callOn_tables hcall).trans (Ud.handleInsnSeq_tables hh)⟩

variable (e ws buf doDisasm) in
/-- The `INSN` records among `p` all read whole, the `k`-th carries `insnSeq` `k + 1` as a
`uint32_t`, and the tables are built from them. -/
def TablesFrom (p : List Frame) (u : Ud) : Prop :=
  ∃ ins, insnRecords e ws buf p = some ins ∧ (∀ k r, ins[k]? = some r → r.insnSeq = u32 (k + 1)) ∧
    u.tables = tablesOf doDisasm ins

theorem tablesFrom_nil {u : Ud} (h : u.tables = .init) : TablesFrom e ws buf doDisasm [] u :=
  ⟨[], rfl, fun _ _ h => by simp at h, h⟩

theorem dispatch_tablesFrom {p : List Frame} {i : Nat} {f : Frame} {u u' : Ud}
    (hd : (Ud.visitor ws e buf verbose fuel doDisasm).dispatch i f.tag f.offset u = .ok u')
    (h : TablesFrom e ws buf doDisasm p u) : TablesFrom e ws buf doDisasm (p ++ [f]) u' := by
  obtain ⟨ins, hp, hseq, ht⟩ := h
  rcases dispatch_tables hd with ⟨htg, r, hr, hrs, ht'⟩ | ⟨hf, ht'⟩
  · -- an `INSN` record: one more instruction, numbered by the code entries before it
    have hcode : u.code.length = ins.length + 1 := by
      rw [show u.code = u.tables.code from rfl, ht, length_code_tablesOf]
    refine ⟨ins ++ [r], insnRecords_concat_insn (by simp [Frame.isInsn, htg]) hp hr,
      fun k r' hk => ?_, by rw [ht', ht, tablesOf_concat]⟩
    rcases Nat.lt_or_ge k ins.length with hlt | hge
    · rw [List.getElem?_append_left hlt] at hk
      exact hseq k r' hk
    · obtain rfl : k = ins.length := by
        have := (List.getElem?_eq_some_iff.1 hk).1
        simp only [List.length_append, List.length_singleton] at this
        omega
      rw [List.getElem?_concat_length] at hk
      cases hk
      rw [hrs, hcode]
  · exact ⟨ins, (insnRecords_concat_not_insn (f := f) hf).trans hp, hseq, ht'.trans ht⟩

/-- `VisitFile<Ud>` over framed records, all in the window, leaves the tables of its `INSN`
records. -/
theorem udVisit_tablesFrom {primes : List Nat} {stop : Nat} {u : Ud} {t₀ : TraceMm}
    (hinit : TraceMm.init e ws buf = .ok t₀) {fs : List Frame} (hfr : Framed e ws buf t₀.cur fs)
    (hw : fs.length ≤ stop) (hlen : buf.length < 2 ^ 64)
    (h : udVisit e ws buf doDisasm verbose fuel primes 0 stop = .ok u) :
    TablesFrom e ws buf doDisasm fs u := by
  obtain ⟨t, mt, u₀, t', u₁, ht, -, h₀, h₁, h⟩ := udVisit_eq_ok h
  rw [hinit] at ht
  cases ht
  obtain ⟨len, -, rfl⟩ := TraceMm.init_eq_ok e ws buf hinit
  have h4 := hfr.four_mul_length_le
  obtain ⟨ins, hins, hseq, ht⟩ := visitLoop_prefix_induction fs (TablesFrom e ws buf doDisasm)
    (fun _ _ _ _ _ _ _ hd hI => dispatch_tablesFrom hd hI) hfr (p := []) rfl (by omega) (by omega)
    h₁ (tablesFrom_nil (Ud.init_tables h₀))
  exact ⟨ins, hins, hseq, (Ud.flush_tables h).trans ht⟩

/-- `VisitFile<Ud>` over framed records, all in the window: every `INSN` record reads whole, the
`k`-th of them carries `insnSeq` `k + 1` (as a `uint32_t`), and `code_`, `text_` and `disasm_`
are the catch-all entry and then one entry per `INSN` record, in order, with its pc, its opcode
laid out end to end in `text_`, and capstone's text for it. -/
theorem udVisit_code_of_insns {primes : List Nat} {stop : Nat} {u : Ud} {t₀ : TraceMm}
    (hinit : TraceMm.init e ws buf = .ok t₀) {fs : List Frame} (hfr : Framed e ws buf t₀.cur fs)
    (hw : fs.length ≤ stop) (hlen : buf.length < 2 ^ 64)
    (h : udVisit e ws buf doDisasm verbose fuel primes 0 stop = .ok u) :
    ∃ ins, insnRecords e ws buf fs = some ins ∧
      (∀ k r, ins[k]? = some r → r.insnSeq = u32 (k + 1)) ∧ u.tables = tablesOf doDisasm ins :=
  udVisit_tablesFrom hinit hfr hw hlen h

theorem udVisit_code_of_insns_store_load :
    ∃ u, udVisit .little .four storeLoadTrace386 (fun _ _ => none) false 8 initialPrimes 0
        sizeMax = .ok u ∧ ∃ ins, insnRecords .little .four storeLoadTrace386 storeLoadFrames = some ins ∧
      (∀ k r, ins[k]? = some r → r.insnSeq = u32 (k + 1)) ∧
      u.tables = tablesOf (fun _ _ => none) ins := by
  obtain ⟨u, hu⟩ : ∃ u, udVisit .little .four storeLoadTrace386 (fun _ _ => none) false 8
      initialPrimes 0 sizeMax = .ok u := ⟨_, rfl⟩
  exact ⟨u, hu, udVisit_code_of_insns
    (rfl : TraceMm.init .little .four storeLoadTrace386 = .ok ⟨8, 0⟩) framed_storeLoadFrames
    (by decide) (by decide) hu⟩

end Visit

end Memtrace
