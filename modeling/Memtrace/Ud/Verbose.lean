import Memtrace.Ud.Window

/-! # A verbose build is the quiet one

In verbose mode `Flush` prints the entry it closes: `code_[codeIndex]`, its bytes of `text_`,
`disasm_[codeIndex]`, `ResolveUse` of each of the entry's uses and the defs it lists. The model
keeps these reads (`Ud.verboseReads`) and faults where one leaves its table;
`udVisit_accepts_unknown_insnSeq` is a trace on which one does.

On a trace where every `insnSeq` names an instruction whose `INSN` record came before it
(`InsnsFirst`), every read stays inside its table: the entry closed is the last one opened, whose
code index is such an `insnSeq` or the catch-all 0, each code entry's bytes lie in `text_`,
`disasm_` has one text per code entry, and `ResolveUse` returns on every use (`resolveUse_ok`).
So the verbose build returns exactly what the quiet one returns (`udVisit_verbose_eq_quiet`).
-/

namespace Memtrace

set_option autoImplicit false

/-! ## `ResolveUse` returns on every use -/

theorem upperBoundLoop_ge {p : Nat → Bool} :
    ∀ {fuel first len : Nat}, first ≤ upperBoundLoop p fuel first len
  | 0, _, _ => le_rfl
  | fuel + 1, first, len => by
    unfold upperBoundLoop
    split_ifs
    · exact le_rfl
    · exact upperBoundLoop_ge
    · exact le_trans (by omega) upperBoundLoop_ge

theorem upperBoundLoop_pos {p : Nat → Bool} (h0 : p 0 = false) :
    ∀ {fuel len : Nat}, 0 < len → len ≤ fuel → 0 < upperBoundLoop p fuel 0 len
  | 0, _, hl, hf => by omega
  | fuel + 1, len, hl, hf => by
    unfold upperBoundLoop
    rw [if_neg (by omega)]
    split_ifs with hp
    · have hl' : 0 < len / 2 := by
        by_contra hc
        rw [show len / 2 = 0 by omega, h0] at hp
        cases hp
      exact upperBoundLoop_pos h0 hl' (by omega)
    · exact lt_of_lt_of_le (by omega) upperBoundLoop_ge

theorem upperBound_pos {p : Nat → Bool} {n : Nat} (h0 : p 0 = false) (hn : 0 < n) :
    0 < upperBound p n :=
  upperBoundLoop_pos h0 hn le_rfl

/-- On a state that refines a valid abstract one, `ResolveUse` returns on every use, over a trace
whose first entry starts at def index 0. -/
theorem UdState.resolveUse_ok {ws : WordSize} {s : UdState} {sp₀ : UdSpec} (h : s.Refines sp₀)
    (hi : sp₀.Inv ws) {tr : List InsnInTrace} {sp : Space} {T : InsnInTrace}
    (hT : tr[0]? = some T) (h0 : T.defStartIndex sp = 0) {j : Nat} (hj : j < s.uses.length) :
    (s.resolveUse tr sp j).toBool = true := by
  obtain ⟨d, hd⟩ : ∃ d, s.uses[j]? = some d := ⟨_, List.getElem?_eq_getElem hj⟩
  -- the def the use names is in `defs_`
  have hdlt : d < s.defs.length := by
    rw [h.uses_eq, List.getElem?_map] at hd
    obtain ⟨q, hq, rfl⟩ := Option.map_eq_some'.1 hd
    rw [h.defs_eq]
    exact hi.uses_lt q (List.getElem?_mem hq)
  obtain ⟨i, hfind⟩ := PartialUses.findPartialUse_ok_of_empty (k := j)
    (h.valid.load_eq ▸ h.valid.load_lt)
  -- the seed entry starts at or before every def, so the search does not stop at it
  obtain ⟨m, hm⟩ : ∃ m, upperBound (fun k => decide (d < (tr.getD k default).defStartIndex sp))
      tr.length = m + 1 := by
    refine ⟨_, (Nat.succ_pred_eq_of_pos (upperBound_pos ?_ ?_)).symm⟩
    · simp [List.getD_eq_getElem?_getD, hT, h0]
    · exact List.length_pos_of_mem (List.getElem?_mem hT)
  simp only [UdState.resolveUse, hd, hfind, hm]
  split_ifs <;> simp only [List.getElem?_eq_getElem hdlt] <;> rfl

/-! ## A verbose `Flush` -/

@[simp] theorem InsnInTrace.close_codeIndex (t : InsnInTrace) (c : Counts) :
    (t.close c).codeIndex = t.codeIndex := rfl

namespace Ud

/-- Every read of a verbose `Flush` of `u` stays inside its table. -/
def FlushSafe (u : Ud) : Prop :=
  ∀ t, u.trace.getLast? = some t →
    ({ u with trace := u.trace.dropLast ++ [t.close u.counts] }).verboseReads (t.close u.counts)

theorem flush_verbose {u : Ud} (h : u.FlushSafe) : u.flush true = u.flush false := by
  unfold flush
  split
  · rfl
  · rename_i t ht
    simp [h t ht]

theorem handleInsnSeq_verbose {u : Ud} (h : u.FlushSafe) (s : Nat) :
    u.handleInsnSeq true s = u.handleInsnSeq false s := by
  unfold handleInsnSeq
  rw [flush_verbose h]

/-- The handlers pass `verbose` on to `HandleInsnSeq` only. -/
theorem dispatch_verbose {ws : WordSize} {e : Endianness} {buf : List UInt8} {fuel : Nat}
    {doDisasm : List UInt8 → Nat → Option String} {u : Ud} (h : u.FlushSafe) (i tag cur : Nat) :
    (visitor ws e buf true fuel doDisasm).dispatch i tag cur u =
      (visitor ws e buf false fuel doDisasm).dispatch i tag cur u := by
  unfold Visitor.dispatch
  split
  · rename_i tg _
    cases tg <;> simp [visitor, Tag.entryKind, ldSt, insnExec, ldStNx, handleInsnSeq_verbose h]
  · rfl

theorem handleInsnSeq_back {u u' : Ud} {verbose : Bool} {s : Nat}
    (h : u.handleInsnSeq verbose s = .ok u') : u'.trace.getLast?.map (·.codeIndex) = some s := by
  unfold handleInsnSeq at h
  split at h
  · cases h
  · rename_i back hback
    split_ifs at h with hs
    · cases h
      rw [hback, Option.map_some', hs]
    · split at h
      · cases h
      · cases h
        simp [addTrace, InsnInTrace.opening]

theorem callOn_trace {ws : WordSize} {fuel : Nat} {sp : Space} {r : Option (Nat × Nat)}
    {mk : Nat → Nat → UdCall} {u u' : Ud} (h : u.callOn ws fuel sp r mk = .ok u') :
    u'.trace = u.trace := by
  unfold callOn call at h
  split at h
  · split at h
    · cases h
    · cases h
      cases sp <;> rfl
  · cases h

theorem counts_uses (u : Ud) (sp : Space) : u.counts.uses sp = (u.state sp).uses.length := by
  cases sp <;> rfl

end Ud

/-! ## The tables a verbose `Flush` reads -/

section Tables

variable {doDisasm : List UInt8 → Nat → Option String}

/-- The bytes of every code entry lie inside `text_`, `uint32_t` casts or not. -/
theorem text_bound_tablesOf (ins : List InsnRecord) {k : Nat} {c : InsnInCode}
    (h : (tablesOf doDisasm ins).code[k]? = some c) :
    c.textIndex + c.textSize ≤ (tablesOf doDisasm ins).text.length := by
  cases k with
  | zero =>
    simp only [tablesOf, List.getElem?_cons_zero, Option.some.injEq] at h
    subst h
    exact Nat.zero_le _
  | succ j =>
    simp only [tablesOf, List.getElem?_cons_succ] at h ⊢
    cases hr : ins[j]? with
    | none =>
      rw [List.getElem?_eq_none_iff.2 (by rw [length_codeEntries]; exact List.getElem?_eq_none_iff.1 hr)] at h
      cases h
    | some r =>
      rw [getElem?_codeEntries 0 ins j r hr] at h
      cases h
      have hb := bytesAt_isSome.1 (Option.isSome_iff_exists.2
        ⟨_, bytesAt_flatten (show (ins.map (·.value))[j]? = some r.value by simp [hr])⟩)
      rw [← List.map_take] at hb
      simp only [Nat.zero_add]
      exact le_trans (Nat.add_le_add (Nat.mod_le _ _) (Nat.mod_le _ _)) hb

theorem length_disasm_tablesOf (ins : List InsnRecord) :
    (tablesOf doDisasm ins).disasm.length = (tablesOf doDisasm ins).code.length := by
  simp [tablesOf, length_codeEntries]

end Tables

/-! ## Traces whose instructions come first -/

section Safe

variable (e : Endianness) (ws : WordSize) (buf : List UInt8)

/-- Every `insnSeq` a record carries names an instruction whose `INSN` record came before it: the
code index `insnSeq` exists when the record is read. -/
def InsnsFirst (fs : List Frame) : Prop :=
  ∀ i (h : i < fs.length), ∀ s ∈ fs[i].insnSeq? e buf, s ≤ ((fs.take i).filter Frame.isInsn).length

instance (fs : List Frame) : Decidable (InsnsFirst e buf fs) :=
  Nat.decidableBallLT _ _

variable (doDisasm : List UInt8 → Nat → Option String)

/-- The state of a quiet build after the records `p`: it refines the abstract builder, its tables
are built from one instruction per `INSN` record, and `trace_.back()` names a code entry. -/
structure VerboseSafe (p : List Frame) (u : Ud) : Prop where
  refines : u.Refines ((Built.init ws).run e ws buf p)
  inv : ((Built.init ws).run e ws buf p).Inv ws
  tables : ∃ ins, u.tables = tablesOf doDisasm ins
  code_length : u.code.length = (p.filter Frame.isInsn).length + 1
  back : ∀ t ∈ u.trace.getLast?, t.codeIndex < u.code.length

variable {e ws buf doDisasm}

/-- On such a state every read of a verbose `Flush` stays inside its table. -/
theorem VerboseSafe.flushSafe {p : List Frame} {u : Ud} (h : VerboseSafe e ws buf doDisasm p u) :
    u.FlushSafe := by
  intro t ht
  obtain ⟨ins, htab⟩ := h.tables
  have hcode : u.code = (tablesOf doDisasm ins).code := congrArg StaticTables.code htab
  -- the trace `Flush` leaves is the abstract one, whose seed entry starts at def index 0
  have hflush : u.trace.dropLast ++ [t.close u.counts] =
      ((Built.init ws).run e ws buf p).flush.trace := by
    simp [Built.flush, ← h.refines.trace_eq, ht, h.refines.counts_eq]
  obtain ⟨T₀, hT₀⟩ : ∃ T, ((Built.init ws).run e ws buf p).flush.trace[0]? = some T :=
    ⟨_, List.getElem?_eq_getElem (by rw [trace_length]; omega)⟩
  -- in each address space every use of the entry resolves, and its defs are in `defs_`
  have hspace : ∀ sp, ((List.range' ((t.close u.counts).useStartIndex sp)
      ((t.close u.counts).useEndIndex sp - (t.close u.counts).useStartIndex sp)).all fun i =>
        ((u.state sp).resolveUse ((Built.init ws).run e ws buf p).flush.trace sp i).toBool) &&
      decide ((t.close u.counts).defEndIndex sp ≤ (t.close u.counts).defStartIndex sp ∨
        (t.close u.counts).defEndIndex sp ≤ (u.state sp).defs.length) := by
    intro sp
    have hdef : (t.close u.counts).defEndIndex sp ≤ (u.state sp).defs.length := by
      cases sp <;> exact Nat.mod_le _ _
    simp only [Bool.and_eq_true, List.all_eq_true, decide_eq_true_eq]
    refine ⟨fun i hi => ?_, .inr hdef⟩
    rw [List.mem_range'_1, InsnInTrace.close_useEndIndex, Ud.counts_uses] at hi
    have := Nat.mod_le (u.state sp).uses.length (2 ^ 32)
    exact UdState.resolveUse_ok (h.refines.state sp) (h.inv sp) hT₀
      ((trace_entry e ws buf p sp hT₀).2.2.1 rfl).2 (by unfold u32 at hi; omega)
  -- the entry's code index names a code entry, whose bytes and text are there
  have hback := h.back t (Option.mem_def.2 ht)
  obtain ⟨c, hc⟩ : ∃ c, u.code[t.codeIndex]? = some c := ⟨_, List.getElem?_eq_getElem hback⟩
  have htext : u.text = (tablesOf doDisasm ins).text := congrArg StaticTables.text htab
  have hdis : u.disasm = (tablesOf doDisasm ins).disasm := congrArg StaticTables.disasm htab
  have hbound := text_bound_tablesOf ins (hcode ▸ hc)
  have hlt : t.codeIndex < u.disasm.length := by
    rw [hdis, length_disasm_tablesOf, ← hcode]; exact hback
  rw [← htext] at hbound
  have hreg := hspace .reg
  have hmem := hspace .mem
  rw [← hflush] at hreg hmem
  simp only [Ud.verboseReads, InsnInTrace.close_codeIndex, hc, List.all_cons, List.all_nil,
    Bool.and_true]
  simp only [Ud.state] at hreg hmem ⊢
  simp only [hreg, hmem, Bool.and_true]
  simp [hbound, hlt]

theorem verboseSafe_init {primes : List Nat} {fuel machineType n : Nat} {u : Ud}
    (hp : GoodCache primes) (h : Ud.init ws e fuel primes machineType n = .ok u) :
    VerboseSafe e ws buf doDisasm [] u where
  refines := Ud.init_refines ws hp h
  inv := Built.inv_init ws
  tables := ⟨[], Ud.init_tables h⟩
  code_length := by rw [show u.code = u.tables.code from rfl, Ud.init_tables h]; rfl
  back := fun t ht => by
    rw [(Ud.init_refines ws hp h).trace_eq] at ht
    rw [show u.code = u.tables.code from rfl, Ud.init_tables h]
    simp only [Built.init, List.getLast?_singleton, Option.mem_def, Option.some.injEq] at ht
    subst ht
    decide

/-- One record of a quiet build keeps the state safe for a verbose `Flush`. -/
theorem dispatch_verboseSafe {fs p q : List Frame} {f : Frame} (hpq : p ++ f :: q = fs)
    (hc : ∀ f ∈ fs, CallWellFormed e ws buf f)
    (hb : ∀ sp, (specAt e ws buf fs sp fs.length).defs.length < 2 ^ 32 ∧
      (specAt e ws buf fs sp fs.length).uses.length < 2 ^ 32)
    (hfirst : InsnsFirst e buf fs) {fuel i : Nat} {u u' : Ud}
    (hd : (Ud.visitor ws e buf false fuel doDisasm).dispatch i f.tag f.offset u = .ok u')
    (h : VerboseSafe e ws buf doDisasm p u) : VerboseSafe e ws buf doDisasm (p ++ [f]) u' := by
  obtain ⟨href, hinv⟩ := dispatch_refines_prefix e ws buf hpq hc hb hd h.refines h.inv
  subst hpq
  obtain ⟨cur, tag, len⟩ := f
  obtain ⟨ins, htab⟩ := h.tables
  rcases Ud.dispatch_cases e ws buf len hd with ⟨htg, hd⟩ | ⟨htg, rfl⟩ | ⟨s, u₁, hs, hh, hu'⟩
  · -- an `INSN` record: one more code entry, the trace as it was
    obtain ⟨r, -, -, ht'⟩ := Ud.insn_eq_ok hd
    have hlen' : u'.code.length = u.code.length + 1 := by
      rw [show u'.code = u'.tables.code from rfl, ht']; simp [StaticTables.push]; rfl
    refine ⟨href, hinv, ⟨ins ++ [r], by rw [ht', htab, tablesOf_concat]⟩, ?_, fun t ht => ?_⟩
    · rw [hlen', h.code_length, List.filter_append]; simp [Frame.isInsn, htg]
    · rw [(Ud.insn_frame hd).1] at ht; have := h.back t ht; omega
  · -- an `MMAP` record changes nothing
    refine ⟨href, hinv, ⟨ins, htab⟩, ?_, h.back⟩
    rw [h.code_length, List.filter_append]; simp [Frame.isInsn, htg]
  · -- `HandleInsnSeq(insnSeq)` opens or keeps an entry of code index `insnSeq`, and a call keeps
    -- the trace and the tables
    obtain ⟨htr, htab'⟩ : u'.trace = u₁.trace ∧ u'.tables = u₁.tables := by
      rcases hu' with ⟨-, rfl⟩ | ⟨sp, r, mk, -, hcall⟩
      · exact ⟨rfl, rfl⟩
      · exact ⟨Ud.callOn_trace hcall, Ud.callOn_tables hcall⟩
    have ht' : u'.tables = u.tables := htab'.trans (Ud.handleInsnSeq_tables hh)
    have hcode : u'.code = u.code := congrArg StaticTables.code ht'
    refine ⟨href, hinv, ⟨ins, ht'.trans htab⟩, ?_, fun t ht => ?_⟩
    · rw [hcode, h.code_length, List.filter_append]; simp [isInsn_of_insnSeq? hs]
    · have hback := Ud.handleInsnSeq_back hh
      rw [← htr, Option.mem_def.1 ht, Option.map_some', Option.some.injEq] at hback
      -- the instruction `insnSeq` names came before the record
      have hs' := hfirst p.length (by simp) s (by rw [List.getElem_of_append rfl rfl]; exact hs)
      rw [List.take_left' rfl] at hs'
      have := h.code_length
      rw [hcode, hback]
      omega

/-- `VisitFile<Ud>` over framed records, all in the window, whose calls are well-formed, whose def
and use counts stay below `2 ^ 32` and whose instructions come first: the verbose build returns
exactly what the quiet one returns. -/
theorem udVisit_verbose_eq_quiet {fuel stop : Nat} {primes : List Nat} (hp : GoodCache primes)
    {t₀ : TraceMm} (hinit : TraceMm.init e ws buf = .ok t₀) {fs : List Frame}
    (hfr : Framed e ws buf t₀.cur fs) (hc : ∀ f ∈ fs, CallWellFormed e ws buf f)
    (hw : fs.length ≤ stop) (hlen : buf.length < 2 ^ 64)
    (hb : ∀ sp, (specAt e ws buf fs sp fs.length).defs.length < 2 ^ 32 ∧
      (specAt e ws buf fs sp fs.length).uses.length < 2 ^ 32)
    (hfirst : InsnsFirst e buf fs) :
    udVisit e ws buf doDisasm true fuel primes 0 stop =
      udVisit e ws buf doDisasm false fuel primes 0 stop := by
  obtain ⟨len, -, rfl⟩ := TraceMm.init_eq_ok e ws buf hinit
  have h4 := hfr.four_mul_length_le
  simp only [udVisit, hinit]
  split
  · rfl
  split
  · rfl
  rename_i u₀ hu
  -- the two loops agree record by record, on states safe for a verbose `Flush`
  obtain ⟨heq, hsafe⟩ := visitLoop_congr fs (VerboseSafe e ws buf doDisasm)
    (fun _ _ _ _ _ _ hpq hd hs => dispatch_verboseSafe hpq hc hb hfirst hd hs)
    (fun _ _ _ _ _ _ hs => Ud.dispatch_verbose hs.flushSafe _ _ _) hfr (p := []) (i := 0)
    (n := fuel) (show [] ++ windowFrames 0 stop 0 fs = fs by rw [windowFrames_of_le (by omega)]; rfl)
    (by omega) (verboseSafe_init hp hu)
  dsimp only at heq hsafe
  rw [heq]
  cases hl : visitLoop e ws buf (Ud.visitor ws e buf false fuel doDisasm) 0 stop fuel
    ⟨alignedLength ws len, 0⟩ u₀ with
  | error => rfl
  | ok r =>
    obtain ⟨t', u⟩ := r
    exact Ud.flush_verbose (hsafe t' u hl).flushSafe

theorem udVisit_verbose_eq_quiet_store_load :
    udVisit .little .four storeLoadTrace386 nopDisasm true 8 initialPrimes 0 sizeMax =
      udVisit .little .four storeLoadTrace386 nopDisasm false 8 initialPrimes 0 sizeMax :=
  udVisit_verbose_eq_quiet goodCache_initialPrimes
    (rfl : TraceMm.init .little .four storeLoadTrace386 = .ok ⟨8, 0⟩) framed_storeLoadFrames
    (by decide) (by decide) (by decide) (fun sp => by cases sp <;> decide) (by decide)

end Safe

end Memtrace
