import Memtrace.Ud.Accept

/-! # `Complete` and `UdFile`

`Complete` runs `Flush`, then `DumpDot`, `DumpHtml`, `DumpCsv` and `DumpBinary`, each of which
returns 0 at once when its path is `nullptr`. `udVisit` is `VisitFile<Ud>` with every path
`nullptr`; `udFile` is `UdFile` with the dot, html and csv paths given or not. The dumps print;
the model keeps what they read and faults where a read leaves its table:

* `DumpDot`: for each trace entry, `code_[codeIndex]`, `disasm_[codeIndex]` and `ResolveUse` of
  each of its uses (`Ud.dotReads`);
* `DumpHtml`: for each trace entry, what a verbose `Flush` reads (`Ud.verboseReads`);
* `DumpCsv`: for each code entry its bytes of `text_` and `disasm_[codeIndex]`
  (`Ud.codeCsvReads`), the code index of each trace entry, and `ResolveUse` of each use of each
  trace entry.

`DumpBinary` writes the header and reads no table, and opening a file is taken to succeed. The
loops count in `uint32_t` up to a `size_t` size: from `2 ^ 32` entries on the counter wraps and
the loop never ends (`forU32`).

The code index of a trace entry is the `insnSeq` of its run's head, and no dump checks it against
`code_`. On a trace whose instructions come first it names a code entry (`codeIndex_le_insns`),
and every read of the dumps stays inside its table (`udVisit_entry_reads`). So `UdFile` returns on
the traces `VisitFile<Ud>` accepts, when the loops of its dumps end and, for the dot and html
dumps, the instructions come first (`udFile_ok`).
-/

namespace Memtrace

set_option autoImplicit false

/-- `for (std::uint32_t i = 0; i < n; i++) body(i)` with `n` a `size_t`: the body on `0`, ...,
`n - 1`. From `n = 2 ^ 32` on the counter wraps before it reaches `n` and the loop runs the same
bodies again forever, so no fuel is enough. -/
def forU32 (n : Nat) (body : Nat → Except Failure Unit) : Except Failure Unit :=
  match (List.range (min n (2 ^ 32))).forM body with
  | .error err => .error err
  | .ok () => if n < 2 ^ 32 then .ok () else .error .outOfFuel

/-- Reads that stay inside their tables, or a fault. -/
def faultUnless (b : Bool) : Except Failure Unit := if b then .ok () else .error .fault

namespace Ud

/-- `ResolveUse` of each use of the trace entry `t`, in both address spaces: what `DumpUsesDot`,
`DumpUsesHtml` and `DumpUsesCsv` read. -/
def usesResolve (u : Ud) (t : InsnInTrace) : Bool :=
  [Space.reg, Space.mem].all fun sp =>
    (List.range' (t.useStartIndex sp) (t.useEndIndex sp - t.useStartIndex sp)).all
      fun i => ((u.state sp).resolveUse u.trace sp i).toBool

/-- The reads of the row of `DumpDot` for the trace entry `t`. -/
def dotReads (u : Ud) (t : InsnInTrace) : Bool :=
  decide (t.codeIndex < u.code.length) && decide (t.codeIndex < u.disasm.length) &&
    u.usesResolve t

/-- The reads of the row of `DumpCodeCsv` for the code index `i`. -/
def codeCsvReads (u : Ud) (i : Nat) : Bool :=
  match u.code[i]? with
  | some c => decide (c.textIndex + c.textSize ≤ u.text.length) && decide (i < u.disasm.length)
  | none => false

/-- `DumpDot` once its file is open. -/
def dumpDot (u : Ud) : Except Failure Unit :=
  forU32 u.trace.length fun i => faultUnless (u.dotReads (u.trace.getD i default))

/-- `DumpHtml` once its file is open. -/
def dumpHtml (u : Ud) : Except Failure Unit :=
  forU32 u.trace.length fun i => faultUnless (u.verboseReads (u.trace.getD i default))

/-- `DumpCsv`: `DumpCodeCsv`, `DumpTraceCsv` and `DumpUsesCsv`, once their files are open. -/
def dumpCsv (u : Ud) : Except Failure Unit := do
  forU32 u.code.length fun i => faultUnless (u.codeCsvReads i)
  forU32 u.trace.length fun _ => .ok ()
  forU32 u.trace.length fun i => faultUnless (u.usesResolve (u.trace.getD i default))

/-- The dumps of `Complete` after its `Flush`, each when its path is given. -/
def dumps (dot html csv : Bool) (u : Ud) : Except Failure Unit := do
  if dot then u.dumpDot
  if html then u.dumpHtml
  if csv then u.dumpCsv

end Ud

/-- `UdFile(path, start, end, dot, html, csv, binary, verbose)`: `VisitFile<Ud>`, whose `Complete`
runs, after its `Flush`, the dumps whose path is given. -/
def udFile (e : Endianness) (ws : WordSize) (buf : List UInt8)
    (doDisasm : List UInt8 → Nat → Option String) (dot html csv verbose : Bool) (fuel : Nat)
    (primes : List Nat) (start stop : Nat) : Except Failure Ud :=
  match udVisit e ws buf doDisasm verbose fuel primes start stop with
  | .error err => .error err
  | .ok u =>
    match u.dumps dot html csv with
    | .error err => .error err
    | .ok () => .ok u

/-! ## The loops of the dumps -/

theorem forM_ok {body : Nat → Except Failure Unit} :
    ∀ {l : List Nat}, (∀ i ∈ l, body i = .ok ()) → l.forM body = .ok ()
  | [], _ => rfl
  | i :: l, h => by
    rw [List.forM, h i (List.mem_cons_self _ _)]
    exact forM_ok fun j hj => h j (List.mem_cons_of_mem _ hj)

/-- A loop over fewer than `2 ^ 32` entries whose every turn returns, returns. -/
theorem forU32_ok {n : Nat} {body : Nat → Except Failure Unit} (hn : n < 2 ^ 32)
    (h : ∀ i < n, body i = .ok ()) : forU32 n body = .ok () := by
  rw [forU32, forM_ok fun i hi => h i (by rw [List.mem_range] at hi; omega)]
  exact if_pos hn

namespace Ud

theorem forU32_reads_ok {n : Nat} {p : Nat → Bool} (hn : n < 2 ^ 32) (h : ∀ i < n, p i = true) :
    forU32 n (fun i => faultUnless (p i)) = .ok () :=
  forU32_ok hn fun i hi => by rw [faultUnless, if_pos (h i hi)]

theorem getD_of_lt {l : List InsnInTrace} {i : Nat} (hi : i < l.length) : l.getD i default ∈ l := by
  rw [List.getD_eq_getElem _ _ hi]; exact List.getElem_mem hi

theorem dumpDot_ok {u : Ud} (hn : u.trace.length < 2 ^ 32)
    (h : ∀ T ∈ u.trace, u.dotReads T = true) : u.dumpDot = .ok () :=
  forU32_reads_ok hn fun _ hi => h _ (getD_of_lt hi)

theorem dumpHtml_ok {u : Ud} (hn : u.trace.length < 2 ^ 32)
    (h : ∀ T ∈ u.trace, u.verboseReads T = true) : u.dumpHtml = .ok () :=
  forU32_reads_ok hn fun _ hi => h _ (getD_of_lt hi)

theorem dumpCsv_ok {u : Ud} (hn : u.trace.length < 2 ^ 32) (hc : u.code.length < 2 ^ 32)
    (hcode : ∀ i < u.code.length, u.codeCsvReads i = true)
    (h : ∀ T ∈ u.trace, u.usesResolve T = true) : u.dumpCsv = .ok () := by
  simp only [dumpCsv, forU32_reads_ok hc hcode, forU32_ok hn fun _ _ => rfl,
    forU32_reads_ok hn fun _ hi => h _ (getD_of_lt hi)]
  rfl

theorem dumps_ok {u : Ud} {dot html csv : Bool} (hd : dot = true → u.dumpDot = .ok ())
    (hh : html = true → u.dumpHtml = .ok ()) (hc : csv = true → u.dumpCsv = .ok ()) :
    u.dumps dot html csv = .ok () := by
  cases dot <;> cases html <;> cases csv <;> simp [dumps, hd, hh, hc] <;> rfl

end Ud

/-! ## The tables the dumps read -/

section Reads

variable (e : Endianness) (ws : WordSize) (buf : List UInt8)

theorem length_runHeads_le : ∀ (prev : Option Nat) (l : List (Nat × Frame)),
    (runHeads e buf prev l).length ≤ l.length
  | _, [] => le_rfl
  | prev, (i, f) :: rest => by
    unfold runHeads
    split
    · exact Nat.le_succ_of_le (length_runHeads_le _ rest)
    · split_ifs
      · exact Nat.le_succ_of_le (length_runHeads_le _ rest)
      · exact Nat.succ_le_succ (length_runHeads_le _ rest)

/-- On a trace whose instructions come first, the code index of every entry of the trace after
the records and `Flush` is at most the number of `INSN` records: it is the seed's 0 or the
`insnSeq` of a run head, which names an instruction that came before it. -/
theorem codeIndex_le_insns {fs : List Frame} (hfirst : InsnsFirst e buf fs) {T : InsnInTrace}
    (hT : T ∈ ((Built.init ws).run e ws buf fs).flush.trace) :
    T.codeIndex ≤ (fs.filter Frame.isInsn).length := by
  rw [(Built.run_trace e ws buf fs (countsAt e ws buf fs) fun i _ => countsAt_eq e ws buf fs i).2]
    at hT
  obtain ⟨t, hT⟩ := List.mem_iff_getElem?.1 hT
  obtain ⟨o, c, ho, -, rfl⟩ := List.getElem?_zipWith_eq_some.1 hT
  rw [InsnInTrace.close_codeIndex]
  cases t with
  | zero =>
    obtain rfl : InsnInTrace.opening 0 ⟨0, 0, 0, 0⟩ = o := by simpa using ho
    exact Nat.zero_le _
  | succ k =>
    rw [List.getElem?_cons_succ, List.getElem?_map, Option.map_eq_some'] at ho
    obtain ⟨⟨i, f⟩, hp, rfl⟩ := ho
    obtain ⟨hmem, s, hs⟩ := mem_runHeads e buf (List.getElem?_mem hp)
    obtain ⟨hlt, hfi⟩ := List.getElem?_eq_some_iff.1 (List.mem_enum_iff_getElem?.1 hmem)
    have hle := hfirst i hlt s (by rw [hfi]; exact hs)
    simp only [InsnInTrace.opening, hs, Option.getD_some]
    exact hle.trans ((List.take_sublist i fs).filter _).length_le

variable {e ws buf}

/-- After `VisitFile<Ud>` the bytes of every code entry lie in `text_`, and `disasm_` has one text
per code entry. -/
theorem udVisit_code_entry {doDisasm : List UInt8 → Nat → Option String} {verbose : Bool}
    {fuel : Nat} {primes : List Nat} {start stop : Nat} {u : Ud}
    (h : udVisit e ws buf doDisasm verbose fuel primes start stop = .ok u) {i : Nat}
    {c : InsnInCode} (hc : u.code[i]? = some c) :
    c.textIndex + c.textSize ≤ u.text.length ∧ u.disasm.length = u.code.length := by
  obtain ⟨ins, htab⟩ := udVisit_tablesOf h
  have hcode : u.code = (tablesOf doDisasm ins).code := congrArg StaticTables.code htab
  have htext : u.text = (tablesOf doDisasm ins).text := congrArg StaticTables.text htab
  have hdis : u.disasm = (tablesOf doDisasm ins).disasm := congrArg StaticTables.disasm htab
  rw [htext, hdis, hcode, length_disasm_tablesOf]
  exact ⟨text_bound_tablesOf ins (hcode ▸ hc), rfl⟩

/-- After `VisitFile<Ud>` over framed records, all in the window, whose calls are well-formed and
whose counts fit: `ResolveUse` returns on every use of every trace entry; and on a trace whose
instructions come first, with one code entry per `INSN` record and the catch-all, the reads of
the entry's rows of `DumpDot` and `DumpHtml` stay inside their tables. -/
theorem udVisit_entry_reads {doDisasm : List UInt8 → Nat → Option String} {verbose : Bool}
    {fuel stop : Nat} {primes : List Nat} {u : Ud} (hp : GoodCache primes) {t₀ : TraceMm}
    (hinit : TraceMm.init e ws buf = .ok t₀) {fs : List Frame} (hfr : Framed e ws buf t₀.cur fs)
    (hc : ∀ f ∈ fs, CallWellFormed e ws buf f) (hw : fs.length ≤ stop)
    (hlen : buf.length < 2 ^ 64)
    (hb : ∀ sp, (specAt e ws buf fs sp fs.length).defs.length < 2 ^ 32 ∧
      (specAt e ws buf fs sp fs.length).uses.length < 2 ^ 32)
    (h : udVisit e ws buf doDisasm verbose fuel primes 0 stop = .ok u) {T : InsnInTrace}
    (hT : T ∈ u.trace) :
    u.usesResolve T = true ∧ (InsnsFirst e buf fs →
      u.code.length = (fs.filter Frame.isInsn).length + 1 →
        u.dotReads T = true ∧ u.verboseReads T = true) := by
  obtain ⟨htr, hst⟩ := udVisit_refines_specAt e ws buf hp hinit hfr hc hw hlen hb h
  have hI := fun sp => udVisit_intervals e ws buf hp hinit hfr hc hw hlen hb h sp
  obtain ⟨t, ht⟩ := List.mem_iff_getElem?.1 hT
  -- the seed entry starts at def index 0
  obtain ⟨T₀, hT₀⟩ : ∃ T₀, u.trace[0]? = some T₀ :=
    ⟨_, List.getElem?_eq_getElem (by rw [(hI .reg).1]; omega)⟩
  have hinv : ∀ sp, (specAt e ws buf fs sp fs.length).Inv ws := fun sp => by
    rw [specAt_eq, List.take_length]; exact Built.inv_run e ws buf hc (Built.inv_init ws) sp
  -- in each address space the uses resolve and the defs are in `defs_`
  have hsp : ∀ sp, (List.range' (T.useStartIndex sp) (T.useEndIndex sp - T.useStartIndex sp)).all
      (fun i => ((u.state sp).resolveUse u.trace sp i).toBool) = true ∧
        T.defEndIndex sp ≤ (u.state sp).defs.length := by
    intro sp
    obtain ⟨-, h₂, -, h₄⟩ := (hI sp).2 t T ht
    obtain ⟨-, -, h₀, -⟩ := (hI sp).2 0 T₀ hT₀
    have hfin := openedAt_le_final e ws buf fs sp (t + 1)
    have hu : (u.state sp).uses.length = (specAt e ws buf fs sp fs.length).uses.length := by
      rw [(hst sp).uses_eq, List.length_map]
    refine ⟨List.all_eq_true.2 fun i hi => ?_, by rw [h₄, (hst sp).defs_eq]; exact hfin.2⟩
    rw [List.mem_range'_1, h₂] at hi
    exact UdState.resolveUse_ok (hst sp) (hinv sp) hT₀ (h₀.trans (by cases sp <;> rfl))
      (by omega)
  have huses : u.usesResolve T = true := by
    simp only [Ud.usesResolve, List.all_cons, List.all_nil, (hsp .reg).1, (hsp .mem).1,
      Bool.and_self]
  refine ⟨huses, fun hfirst hcode => ?_⟩
  -- the code index names a code entry, whose bytes and text are there
  have hci : T.codeIndex < u.code.length := by
    have := codeIndex_le_insns e ws buf hfirst (htr ▸ hT); omega
  obtain ⟨c, hc'⟩ : ∃ c, u.code[T.codeIndex]? = some c := ⟨_, List.getElem?_eq_getElem hci⟩
  obtain ⟨hbound, hdis⟩ := udVisit_code_entry h hc'
  refine ⟨by simp [Ud.dotReads, hci, hdis, huses], ?_⟩
  have hreg := hsp .reg
  have hmem := hsp .mem
  simp only [Ud.state] at hreg hmem
  simp only [Ud.verboseReads, hc', List.all_cons, List.all_nil, Ud.state, hreg.1, hmem.1,
    Bool.true_and, Bool.and_true]
  simp [hbound, hdis, hci, hreg.2, hmem.2]

/-- After `VisitFile<Ud>` every row of `DumpCodeCsv` reads inside `text_` and `disasm_`. -/
theorem udVisit_codeCsvReads {doDisasm : List UInt8 → Nat → Option String} {verbose : Bool}
    {fuel : Nat} {primes : List Nat} {start stop : Nat} {u : Ud}
    (h : udVisit e ws buf doDisasm verbose fuel primes start stop = .ok u) {i : Nat}
    (hi : i < u.code.length) : u.codeCsvReads i = true := by
  obtain ⟨c, hc⟩ : ∃ c, u.code[i]? = some c := ⟨_, List.getElem?_eq_getElem hi⟩
  obtain ⟨hbound, hdis⟩ := udVisit_code_entry h hc
  simp [Ud.codeCsvReads, hc, hbound, hdis, hi]

end Reads

end Memtrace
