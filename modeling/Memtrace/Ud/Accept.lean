import Memtrace.Ud.Verbose

/-! # What `VisitFile<Ud>` accepts

What is proved of a visit holds of the builder the visit returns. This module says when it
returns. Every record of the trace is framed and covers the fixed fields of its entry class; the
header names a machine capstone is opened for; the `INSN` records read whole and are numbered
1, 2, ... in order (`InsnsNumbered`), which is what a visit that returns leaves in `code_`; the
calls are well-formed; every `AddDefs` meets at most `kMaxAffectedCount` live intervals
(`FewMeet`), past which it returns `-EINVAL`; the def and use counts fit in `uint32_t`; and in
verbose mode the instructions come first. Then `VisitFile<Ud>` returns, with enough fuel, from
any good cache (`udVisit_ok`): no getter reads past the buffer, no `assert` of the partial-use
table fails, and no read of a verbose `Flush` leaves its table. The dumps of `Complete` come after
it, in `Memtrace.Ud.Complete`.

* `UdState.call_ok`: with fuel for the prime search (`PrimeFuel`), a well-formed call on a state
  that refines a valid abstract one returns.
* `Ud.handleInsnSeq_ok`, `Ud.insn_ok` and `Ud.init_ok`: a quiet `HandleInsnSeq` returns while the
  trace has an entry, `operator()(InsnEntry)` on a record that reads whole and carries the next
  code index, and `Ud::Init` for a supported machine.
* `Live` is the state of a build after some records; `dispatch_live` carries it over one record
  and `dispatch_ok` says the record returns. `visitLoop_ok` runs them over the trace.
-/

namespace Memtrace

set_option autoImplicit false

/-! ## The calls of a use-def state -/

/-- The number of live intervals of `m` that an `AddDefs` meets, and copies into `affected`;
`AddUses` copies none. -/
def UdCall.defsMet (m : AddressSpace) : UdCall → Nat
  | .addDefs startAddr size => (m.filter (AddressSpace.meets startAddr (startAddr + size))).length
  | .addUses _ _ => 0

namespace UdState

variable (ws : WordSize)

theorem addUse_ok {fuel startAddr endAddr : Nat} (hF : PrimeFuel fuel) {entry : Nat × EntryValue}
    {s : UdState} {sp : UdSpec} {primes : List Nat} (h : s.Refines sp) (hp : GoodCache primes)
    (hlen : sp.uses.length < 2 ^ 32 - 1) (hd : ∃ d, sp.defs[entry.2.defIndex]? = some d) :
    ∃ r, addUse fuel startAddr endAddr entry s primes = .ok r := by
  obtain ⟨d, hd⟩ := hd
  have hidx : u32 s.uses.length = sp.uses.length := by
    rw [h.uses_eq, List.length_map, u32_of_lt (by omega)]
  have hd' : s.defs.get? entry.2.defIndex = some d := by rw [List.get?_eq_getElem?, h.defs_eq, hd]
  unfold addUse
  simp only [hidx, hd']
  split_ifs
  · -- a partial use: the write into the table returns
    obtain ⟨⟨t, p⟩, ht⟩ := PartialUses.set_ok hF (k := sp.uses.length)
      ⟨max startAddr entry.2.startAddr, min endAddr entry.1⟩ h.valid hp
      (by simp only [emptyKey, uint32Max]; omega) (by omega)
    rw [ht]
    exact ⟨_, rfl⟩
  · exact ⟨_, rfl⟩

theorem addUsesLoop_ok {fuel startAddr endAddr : Nat} (hF : PrimeFuel fuel) :
    ∀ {l : List (Nat × EntryValue)} {s : UdState} {sp : UdSpec} {primes : List Nat},
      s.Refines sp → GoodCache primes → sp.uses.length + l.length ≤ 2 ^ 32 - 1 →
      (∀ p ∈ l, ∃ d, sp.defs[p.2.defIndex]? = some d) →
      ∃ r, addUsesLoop fuel startAddr endAddr l s primes = .ok r
  | [], _, _, _, _, _, _, _ => ⟨_, rfl⟩
  | entry :: l, s, sp, primes, h, hp, hlen, hd => by
    simp only [List.length_cons] at hlen
    have hd₀ := hd entry (List.mem_cons_self _ _)
    obtain ⟨⟨s₁, p₁⟩, h₁⟩ := addUse_ok hF h hp (by omega) hd₀
    obtain ⟨hr₁, hp₁⟩ := addUse_refines h hp (by omega) hd₀ h₁
    rw [addUsesLoop, h₁]
    exact addUsesLoop_ok hF hr₁ hp₁
      (by simp only [List.length_append, List.length_singleton]; omega)
      fun p hp => hd p (List.mem_cons_of_mem _ hp)

/-- A well-formed call on a state that refines a valid abstract state returns, while the use
count fits in `uint32_t` and an `AddDefs` meets at most `kMaxAffectedCount` live intervals. -/
theorem call_ok {fuel : Nat} (hF : PrimeFuel fuel) {s : UdState} {sp : UdSpec}
    {primes : List Nat} {c : UdCall} (h : s.Refines sp) (hi : sp.Inv ws) (hp : GoodCache primes)
    (hc : c.WellFormed ws) (hu : (UdSpec.step sp c).uses.length ≤ 2 ^ 32 - 1)
    (hm : c.defsMet sp.liveMap ≤ kMaxAffectedCount) : ∃ r, call ws fuel s primes c = .ok r := by
  have ht : AddressSpace.Tiles 0 ws.max s.addressSpace := h.addressSpace_eq ▸ hi.tiles
  cases c with
  | addDefs startAddr size =>
    rw [call, addDefs_eq ws hc.1 hc.2 ht (h.addressSpace_eq ▸ hm)]
    exact ⟨_, rfl⟩
  | addUses startAddr size =>
    simp only [call, addUses]
    rw [affected_eq ws hc.1 hc.2 ht, add_eq_of_le ws hc.2, h.addressSpace_eq]
    simp only [UdSpec.step, UdSpec.readUses, List.length_append, List.length_map] at hu
    exact addUsesLoop_ok hF h hp hu fun p hp => by
      obtain ⟨d, hd, -⟩ := hi.within p (List.mem_filter.1 hp).1
      exact ⟨d, hd⟩

end UdState

/-! ## The handlers of the builder -/

namespace Ud

variable (ws : WordSize) (e : Endianness) (buf : List UInt8)

theorem flush_ok {u : Ud} (h : u.trace.getLast?.isSome) : ∃ u', u.flush false = .ok u' := by
  obtain ⟨t, ht⟩ := Option.isSome_iff_exists.1 h
  rw [flush, ht]
  exact ⟨_, rfl⟩

theorem handleInsnSeq_ok {u : Ud} (h : u.trace.getLast?.isSome) (s : Nat) :
    ∃ u', u.handleInsnSeq false s = .ok u' := by
  obtain ⟨t, ht⟩ := Option.isSome_iff_exists.1 h
  obtain ⟨u₁, hf⟩ := flush_ok h
  rw [handleInsnSeq, ht]
  dsimp only
  split_ifs
  · exact ⟨u, rfl⟩
  · rw [hf]
    exact ⟨_, rfl⟩

/-- A call of a builder that refines the abstract one returns, under the conditions of
`UdState.call_ok` on the abstract state of its address space. -/
theorem Refines.call_ok {fuel : Nat} (hF : PrimeFuel fuel) {u : Ud} {b : Built} {sp : Space}
    {c : UdCall} (h : u.Refines b) (hi : (b.spec sp).Inv ws) (hc : c.WellFormed ws)
    (hu : ((b.spec sp).step c).uses.length ≤ 2 ^ 32 - 1)
    (hm : c.defsMet (b.spec sp).liveMap ≤ UdState.kMaxAffectedCount) :
    ∃ u', u.call ws fuel sp c = .ok u' := by
  obtain ⟨⟨s, p⟩, hs⟩ := UdState.call_ok ws hF (h.state sp) hi h.primes hc hu hm
  rw [Ud.call, hs]
  exact ⟨_, rfl⟩

theorem insn_ok (doDisasm : List UInt8 → Nat → Option String) {cur : Nat} {r : InsnRecord}
    {u : Ud} (hr : readInsn e ws buf cur = some r) (hs : r.insnSeq = u32 u.code.length) :
    ∃ u', u.insn ws e buf doDisasm cur = .ok u' := by
  unfold readInsn at hr
  split at hr
  · rename_i s pc size hs' hrange
    obtain ⟨v, hv, rfl⟩ := Option.map_eq_some'.1 hr
    simp only [insn, hs', hrange, hv]
    rw [if_neg (not_not.2 hs)]
    exact ⟨_, rfl⟩
  · cases hr

theorem init_ok {fuel : Nat} (hF : PrimeFuel fuel) {primes : List Nat} (hp : GoodCache primes)
    {machineType n : Nat} (hn : n < 2 ^ 59) (hd : disasmInit machineType e ws = .ok ()) :
    ∃ u, Ud.init ws e fuel primes machineType n = .ok u := by
  obtain ⟨t₁, p₁, h₁, hp₁⟩ := PartialUses.create_ok hF (n := n / 10) (by omega) hp
  obtain ⟨t₂, p₂, h₂, -⟩ := PartialUses.create_ok hF (n := n / 20) (by omega) hp₁
  simp only [Ud.init, UdState.init, h₁, h₂, hd]
  exact ⟨_, rfl⟩

theorem ranges_isSome {cur len : Nat} {tg : Tag} (hl : getLength e buf cur = some len)
    (hfix : tg.entryKind.fixedLength ws ≤ len) (hle : cur + alignedLength ws len ≤ buf.length) :
    (tg.entryKind = .ldSt → (ldStRange ws e buf cur).isSome) ∧
      (tg.entryKind = .ldStNx → (ldStNxRange ws e buf cur).isSome) := by
  have hal := le_alignedLength ws (getLength_lt hl)
  have hread : ∀ off k, off + k ≤ cur + len → ∃ v, readInt e buf off k = some v :=
    fun _ _ h => Option.isSome_iff_exists.1 (readInt_isSome.2 (by omega))
  refine ⟨fun hk => ?_, fun hk => ?_⟩ <;> rw [hk] at hfix <;>
    simp only [EntryKind.fixedLength, valueOffset] at hfix
  · obtain ⟨a, ha⟩ := hread (cur + tlvFixedLength + 4) ws.bytes (by omega)
    simp [ldStRange, getAddr, ha, hl]
  · obtain ⟨a, ha⟩ := hread (cur + tlvFixedLength + 4) ws.bytes (by omega)
    obtain ⟨z, hz⟩ := hread (cur + valueOffset ws) ws.bytes (by simp only [valueOffset]; omega)
    simp [ldStNxRange, getAddr, getNxSize, ha, hz]

end Ud

/-! ## The trace always has an entry -/

variable (e : Endianness) (buf : List UInt8) in
theorem seqAfter_isSome : ∀ {prev : Option Nat} (l : List (Nat × Frame)), prev.isSome →
    (seqAfter e buf prev l).isSome
  | _, [], h => h
  | _, (_, f) :: rest, h =>
    seqAfter_isSome rest (by cases f.insnSeq? e buf <;> simp [h])

variable (e : Endianness) (ws : WordSize) (buf : List UInt8) in
theorem Built.run_getLast?_isSome (fs : List Frame) :
    ((Built.init ws).run e ws buf fs).trace.getLast?.isSome := by
  have h := congrArg Option.isSome
    (Built.run_trace e ws buf fs (countsAt e ws buf fs) fun i _ => countsAt_eq e ws buf fs i).1
  rw [Option.isSome_map'] at h
  rw [h]
  exact seqAfter_isSome e buf fs.enum rfl

/-! ## The traces a visit accepts -/

section Accept

variable (e : Endianness) (ws : WordSize) (buf : List UInt8)

/-- Every `INSN` record reads whole and carries as `insnSeq` the number of `INSN` records up to
it, as a `uint32_t`: the code index `operator()(InsnEntry)` expects. -/
def InsnsNumbered (fs : List Frame) : Prop :=
  ∀ i (h : i < fs.length), fs[i].isInsn →
    (readInsn e ws buf fs[i].offset).map (·.insnSeq) =
      some (u32 (((fs.take i).filter Frame.isInsn).length + 1))

instance (fs : List Frame) : Decidable (InsnsNumbered e ws buf fs) :=
  Nat.decidableBallLT _ _

/-- Every `AddDefs` a record makes meets at most `kMaxAffectedCount` intervals of the live map
the records before it leave. -/
def FewMeet (fs : List Frame) : Prop :=
  ∀ i (h : i < fs.length), ∀ p ∈ recordCall e ws buf fs[i],
    p.2.defsMet (specAt e ws buf fs p.1 i).liveMap ≤ UdState.kMaxAffectedCount

instance (fs : List Frame) : Decidable (FewMeet e ws buf fs) :=
  Nat.decidableBallLT _ _

/-- The state of a build after the records `p`: it refines the abstract builder, which is valid,
and `code_` holds the catch-all entry and one entry per `INSN` record of `p`. -/
structure Live (p : List Frame) (u : Ud) : Prop where
  refines : u.Refines ((Built.init ws).run e ws buf p)
  inv : ((Built.init ws).run e ws buf p).Inv ws
  code_length : u.code.length = (p.filter Frame.isInsn).length + 1

variable {e ws buf}

theorem live_init {fuel machineType n : Nat} {primes : List Nat} {u : Ud} (hp : GoodCache primes)
    (h : Ud.init ws e fuel primes machineType n = .ok u) : Live e ws buf [] u where
  refines := Ud.init_refines ws hp h
  inv := Built.inv_init ws
  code_length := by rw [show u.code = u.tables.code from rfl, Ud.init_tables h]; rfl

theorem dispatch_live {L p q : List Frame} {f : Frame} (hpq : p ++ f :: q = L)
    (hc : ∀ f ∈ L, CallWellFormed e ws buf f)
    (hb : ∀ sp, (specAt e ws buf L sp L.length).defs.length < 2 ^ 32 ∧
      (specAt e ws buf L sp L.length).uses.length < 2 ^ 32)
    {verbose : Bool} {fuel i : Nat} {doDisasm : List UInt8 → Nat → Option String} {u u' : Ud}
    (hd : (Ud.visitor ws e buf verbose fuel doDisasm).dispatch i f.tag f.offset u = .ok u')
    (h : Live e ws buf p u) : Live e ws buf (p ++ [f]) u' := by
  obtain ⟨href, hinv⟩ := dispatch_refines_prefix e ws buf hpq hc hb hd h.refines h.inv
  refine ⟨href, hinv, ?_⟩
  rw [show u'.code = u'.tables.code from rfl, List.filter_append]
  rcases dispatch_tables hd with ⟨htg, r, -, -, ht⟩ | ⟨hf, ht⟩
  · rw [ht]
    simp [StaticTables.push, Frame.isInsn, htg, ← h.code_length]
    rfl
  · rw [ht]
    simpa [show f.isInsn = false from hf] using h.code_length

/-- The call a record makes after its `HandleInsnSeq`, on a live state of a trace whose calls
are well-formed, whose counts fit and whose stores meet few intervals, returns. -/
theorem Live.call_ok {fuel : Nat} (hF : PrimeFuel fuel) {L p q : List Frame} {f : Frame}
    (hpq : p ++ f :: q = L) (hc : ∀ f ∈ L, CallWellFormed e ws buf f)
    (hb : ∀ sp, (specAt e ws buf L sp L.length).defs.length < 2 ^ 32 ∧
      (specAt e ws buf L sp L.length).uses.length < 2 ^ 32)
    (hm : FewMeet e ws buf L) {u : Ud} (h : Live e ws buf p u) {s : Nat} {u₁ : Ud}
    (h₁ : u₁.Refines (((Built.init ws).run e ws buf p).handleInsnSeq s)) {sp : Space}
    {c : UdCall} (hrec : recordCall e ws buf f = some (sp, c)) :
    ∃ u', u₁.call ws fuel sp c = .ok u' := by
  subst hpq
  have hstep : ((((Built.init ws).run e ws buf p).step e ws buf f).spec sp) =
      (((Built.init ws).run e ws buf p).spec sp).step c := by
    rw [Built.step_spec]
    simp [callsOf, hrec]
  have hpre : specAt e ws buf (p ++ f :: q) sp p.length =
      ((Built.init ws).run e ws buf p).spec sp := by
    rw [specAt_eq, List.take_left' rfl]
  have hmet := hm p.length (by simp) (sp, c) (by rw [List.getElem_of_append rfl rfl]; exact hrec)
  rw [hpre] at hmet
  refine Ud.Refines.call_ok ws hF h₁ ?_ (hc f (by simp) _ hrec) ?_ ?_ <;>
    rw [Built.handleInsnSeq_spec]
  · exact h.inv sp
  · exact hstep ▸ (step_counts_le e ws buf rfl hb sp).2
  · exact hmet

/-- One record of a trace the visit accepts, on a live state: the quiet builder returns. -/
theorem dispatch_ok {fuel : Nat} (hF : PrimeFuel fuel)
    (doDisasm : List UInt8 → Nat → Option String) {L p q : List Frame} {f : Frame}
    (hpq : p ++ f :: q = L) {cur : Nat} (hfr : Framed e ws buf cur L)
    (hwf : ∀ f ∈ L, f.WellFormed ws)
    (hnum : InsnsNumbered e ws buf L) (hc : ∀ f ∈ L, CallWellFormed e ws buf f)
    (hb : ∀ sp, (specAt e ws buf L sp L.length).defs.length < 2 ^ 32 ∧
      (specAt e ws buf L sp L.length).uses.length < 2 ^ 32)
    (hm : FewMeet e ws buf L) (i : Nat) {u : Ud} (h : Live e ws buf p u) :
    ∃ u', (Ud.visitor ws e buf false fuel doDisasm).dispatch i f.tag f.offset u = .ok u' := by
  have hf : f ∈ L := hpq ▸ by simp
  obtain ⟨hl, hle⟩ := hfr.of_mem hf
  obtain ⟨tg, htg, hfix⟩ := hwf f hf
  obtain ⟨s, hs⟩ := Option.isSome_iff_exists.1 (getInsnSeq_isSome hl hfix hle)
  have hranges := Ud.ranges_isSome ws e buf hl hfix hle
  have htr : u.trace.getLast?.isSome := h.refines.trace_eq ▸ Built.run_getLast?_isSome e ws buf p
  unfold Visitor.dispatch
  rw [htg]
  cases tg
  case mtInsn =>
    -- the record carries the next code index
    subst hpq
    have hnum' := hnum p.length (by simp)
      (by simp [List.getElem_of_append rfl rfl, Frame.isInsn, htg])
    rw [List.getElem_of_append rfl rfl, List.take_left' rfl, ← h.code_length] at hnum'
    obtain ⟨r, hr, hrs⟩ := Option.map_eq_some'.1 hnum'
    exact Ud.insn_ok ws e buf doDisasm hr hrs
  case mtMmap => exact ⟨u, rfl⟩
  -- the records with an `insnSeq`: `HandleInsnSeq`, then the call if there is one
  all_goals
    obtain ⟨u₁, hh⟩ := Ud.handleInsnSeq_ok htr s
    have h₁ := h.refines.handleInsnSeq hh
    simp only [Ud.visitor, Tag.entryKind, Ud.ldSt, Ud.ldStNx, Ud.insnExec, hs, hh]
    first
      | exact ⟨u₁, rfl⟩
      | obtain ⟨⟨a, z⟩, hr⟩ := Option.isSome_iff_exists.1 (hranges.1 rfl)
        simp only [Ud.callOn, hr]
        exact h.call_ok hF hpq hc hb hm h₁ (by simp [recordCall, htg, hr])
      | obtain ⟨⟨a, z⟩, hr⟩ := Option.isSome_iff_exists.1 (hranges.2 rfl)
        simp only [Ud.callOn, hr]
        exact h.call_ok hF hpq hc hb hm h₁ (by simp [recordCall, htg, hr])

/-- `VisitFile<Ud>` over framed, well-formed records, all in the window, of a machine capstone is
opened for, whose `INSN` records are numbered in order, whose calls are well-formed, whose stores
each meet at most `kMaxAffectedCount` live intervals, whose def and use counts stay below
`2 ^ 32`, and, in verbose mode, whose instructions come first: with enough fuel it returns, from
any good cache, with one code entry per `INSN` record and the catch-all. -/
theorem udVisit_ok {doDisasm : List UInt8 → Nat → Option String} {verbose : Bool} {stop : Nat}
    {t₀ : TraceMm} (hinit : TraceMm.init e ws buf = .ok t₀) {fs : List Frame}
    (hfr : Framed e ws buf t₀.cur fs) (hw : fs.length ≤ stop) (hlen : buf.length < 2 ^ 64)
    {machineType : Nat} (hmt : getMachineType e buf = some machineType)
    (hdis : disasmInit machineType e ws = .ok ()) (hwf : ∀ f ∈ fs, f.WellFormed ws)
    (hnum : InsnsNumbered e ws buf fs) (hc : ∀ f ∈ fs, CallWellFormed e ws buf f)
    (hb : ∀ sp, (specAt e ws buf fs sp fs.length).defs.length < 2 ^ 32 ∧
      (specAt e ws buf fs sp fs.length).uses.length < 2 ^ 32)
    (hm : FewMeet e ws buf fs) (hv : verbose = true → InsnsFirst e buf fs) :
    ∃ F, ∀ fuel, F ≤ fuel → ∀ {primes : List Nat}, GoodCache primes →
      ∃ u, udVisit e ws buf doDisasm verbose fuel primes 0 stop = .ok u ∧
        u.code.length = (fs.filter Frame.isInsn).length + 1 := by
  obtain ⟨len, -, rfl⟩ := TraceMm.init_eq_ok e ws buf hinit
  have h4 := hfr.four_mul_length_le
  obtain ⟨F, hF⟩ := exists_primeFuel
  refine ⟨F + fs.length + 1, fun fuel hfuel primes hp => ?_⟩
  have hF' : PrimeFuel fuel := hF fuel (by omega)
  obtain ⟨u₀, hu₀⟩ := Ud.init_ok ws e hF' hp (n := buf.length / 128) (by omega) hdis
  -- the loop returns on live states, which are safe for a verbose `Flush` in verbose mode
  obtain ⟨t', u₁, hl, hlive, hsafe⟩ :=
    visitLoop_ok (v := Ud.visitor ws e buf verbose fuel doDisasm) fs
    (fun p u => Live e ws buf p u ∧ (verbose = true → VerboseSafe e ws buf doDisasm p u))
    (fun p f q i u hpq hI => by
      obtain ⟨u', hd⟩ := dispatch_ok hF' doDisasm hpq hfr hwf hnum hc hb hm i hI.1
      have hI' : Live e ws buf (p ++ [f]) u' ∧
          (verbose = true → VerboseSafe e ws buf doDisasm (p ++ [f]) u') :=
        ⟨dispatch_live hpq hc hb hd hI.1,
          fun hvt => dispatch_verboseSafe hpq hc hb (hv hvt) hd (hI.2 hvt)⟩
      cases verbose
      · exact ⟨u', hd, hI'⟩
      · exact ⟨u', (Ud.dispatch_verbose (hI.2 rfl).flushSafe _ _ _).trans hd, hI'⟩)
    hfr (p := []) (i := 0) (n := fuel)
    (show [] ++ windowFrames 0 stop 0 fs = fs by rw [windowFrames_of_le (by omega)]; rfl)
    (by omega) (by omega) ⟨live_init hp hu₀, fun _ => verboseSafe_init hp hu₀⟩
  simp only [udVisit, hinit, hmt, hu₀, hl]
  -- the `Flush` of `Complete`, which keeps `code_`
  have htr := hlive.refines.trace_eq ▸ Built.run_getLast?_isSome e ws buf fs
  obtain ⟨u, hu⟩ := Ud.flush_ok htr
  refine ⟨u, ?_, by
    rw [show u.code = u.tables.code from rfl, Ud.flush_tables hu]; exact hlive.code_length⟩
  cases verbose
  · exact hu
  · rw [Ud.flush_verbose (hsafe rfl).flushSafe]
    exact hu

end Accept

end Memtrace
