import Memtrace.Ud.Built

/-! # The trace entries are the instruction runs

`Ud::HandleInsnSeq` opens a trace entry at every record whose `insnSeq` differs from the code index
of `trace_.back()`; `SeekInsn` counts a run at every record whose `insnSeq` differs from the one
before, starting from `UINT32_MAX`. The builder starts from the seed entry's code index 0 instead,
so the two count the same runs unless the first `insnSeq` is 0.

* `Built.run_trace`: after the records and `Flush`, the trace is the seed entry and one entry per
  run head of `runHeads (some 0)`, each opened at the counts before its head and closed at the
  counts before the next head.
* `udVisit_trace_follows_runs`: the same of `VisitFile<Ud>`, through `udVisit_refines`, with the
  runs of `SeekInsn` when the first `insnSeq` is not 0 (`TraceFollowsRuns`). A trace whose first
  run has `insnSeq` 0 folds that run into the seed entry (`udVisit_merges_first_run`).
-/

namespace Memtrace

set_option autoImplicit false

/-! ## Run heads -/

section Runs

variable (e : Endianness) (buf : List UInt8)

/-- The `insnSeq` of the last record of `l` that carries one, or `prev` when none does: the state
`runHeads` ends in. -/
def seqAfter : Option Nat → List (Nat × Frame) → Option Nat
  | prev, [] => prev
  | prev, (_, f) :: rest => seqAfter (f.insnSeq? e buf <|> prev) rest

theorem seqAfter_append : ∀ (prev : Option Nat) (l₁ l₂ : List (Nat × Frame)),
    seqAfter e buf prev (l₁ ++ l₂) = seqAfter e buf (seqAfter e buf prev l₁) l₂
  | _, [], _ => rfl
  | _, (_, _) :: rest, l₂ => seqAfter_append _ rest l₂

theorem runHeads_append : ∀ (prev : Option Nat) (l₁ l₂ : List (Nat × Frame)),
    runHeads e buf prev (l₁ ++ l₂) =
      runHeads e buf prev l₁ ++ runHeads e buf (seqAfter e buf prev l₁) l₂
  | _, [], _ => rfl
  | prev, (i, f) :: rest, l₂ => by
    simp only [List.cons_append, runHeads, seqAfter]
    cases hs : f.insnSeq? e buf with
    | none => exact runHeads_append prev rest l₂
    | some s =>
      by_cases hp : prev = some s
      · subst hp
        simpa using runHeads_append _ rest l₂
      · simpa [hp] using runHeads_append _ rest l₂

end Runs

/-! ## The trace of the abstract builder -/

@[simp] theorem InsnInTrace.close_close (t : InsnInTrace) (c c' : Counts) :
    (t.close c).close c' = t.close c' := rfl

namespace Built

/-- `Flush` of a trace at the counts `c`: the last entry gets them as its end indices. -/
def closeLast (trace : List InsnInTrace) (c : Counts) : List InsnInTrace :=
  trace.dropLast ++ (trace.getLast?.map (·.close c)).toList

theorem flush_trace (b : Built) : b.flush.trace = closeLast b.trace b.counts := rfl

@[simp] theorem closeLast_concat (trace : List InsnInTrace) (t : InsnInTrace) (c : Counts) :
    closeLast (trace ++ [t]) c = trace ++ [t.close c] := by
  simp [closeLast]

theorem closeLast_closeLast (trace : List InsnInTrace) (c c' : Counts) :
    closeLast (closeLast trace c) c' = closeLast trace c' := by
  rcases List.eq_nil_or_concat trace with rfl | ⟨l, t, rfl⟩
  · rfl
  · simp

theorem closeLast_zipWith {opened : List InsnInTrace} {L : List Counts} (a x : Counts)
    (h : opened.length = L.length + 1) :
    closeLast (List.zipWith InsnInTrace.close opened (L ++ [a])) x =
      List.zipWith InsnInTrace.close opened (L ++ [x]) := by
  rcases List.eq_nil_or_concat opened with rfl | ⟨l, t, rfl⟩
  · simp at h
  · have hl : l.length = L.length := by simpa using h
    simp [List.zipWith_append _ _ _ _ _ hl]

variable (e : Endianness) (ws : WordSize) (buf : List UInt8)

theorem step_trace (b : Built) (f : Frame) :
    (b.step e ws buf f).trace = (match f.insnSeq? e buf with
      | some s => b.handleInsnSeq s
      | none => b).trace := by
  unfold step
  dsimp only
  cases recordCall e ws buf f with
  | none => rfl
  | some p => exact setSpec_trace _ _ _

theorem flush_trace_of_trace_eq {b b' : Built} (h : b'.trace = b.trace) :
    b'.flush.trace = closeLast b.flush.trace b'.counts := by
  rw [flush_trace, flush_trace, closeLast_closeLast, h]

/-- One record: it opens no entry, and the trace stays, or it is a run head, and `HandleInsnSeq`
flushes the last entry and opens one at the counts before it. -/
theorem step_opens (b : Built) (f : Frame) (n : Nat) {prev : Option Nat}
    (hprev : b.trace.getLast?.map (·.codeIndex) = prev) :
    (runHeads e buf prev [(n, f)] = [] ∧ seqAfter e buf prev [(n, f)] = prev ∧
        (b.step e ws buf f).trace = b.trace) ∨
      ∃ s, f.insnSeq? e buf = some s ∧ runHeads e buf prev [(n, f)] = [(n, f)] ∧
        seqAfter e buf prev [(n, f)] = some s ∧
        (b.step e ws buf f).trace = b.flush.trace ++ [.opening s b.counts] := by
  rw [step_trace]
  cases hs : f.insnSeq? e buf with
  | none => exact Or.inl ⟨by simp [runHeads, hs], by simp [seqAfter, hs], rfl⟩
  | some s =>
    by_cases hp : prev = some s
    · exact Or.inl ⟨by simp [runHeads, hs, hp], by simp [seqAfter, hs, hp],
        by simp [handleInsnSeq, hprev, hp]⟩
    · exact Or.inr ⟨s, rfl, by simp [runHeads, hs, hp], by simp [seqAfter, hs],
        by simp [handleInsnSeq, hprev, hp]⟩

/-- After the records `fs` and `Flush`, the trace is the seed entry and one entry per run head
(counted from the seed's code index 0), entry `j` closed where entry `j + 1` opens, at the counts
`c` after that many records. The code index of `trace_.back()` is the last `insnSeq` seen. -/
theorem run_trace (fs : List Frame) : ∀ (c : Nat → Counts),
    (∀ i ≤ fs.length, c i = ((init ws).run e ws buf (fs.take i)).counts) →
    ((init ws).run e ws buf fs).trace.getLast?.map (·.codeIndex) =
        seqAfter e buf (some 0) fs.enum ∧
      ((init ws).run e ws buf fs).flush.trace = List.zipWith InsnInTrace.close
        (.opening 0 ⟨0, 0, 0, 0⟩ :: (runHeads e buf (some 0) fs.enum).map fun p =>
          .opening ((p.2.insnSeq? e buf).getD 0) (c p.1))
        (((runHeads e buf (some 0) fs.enum).map (·.1) ++ [fs.length]).map c) := by
  induction fs using List.reverseRecOn with
  | nil =>
    intro c hc
    refine ⟨rfl, ?_⟩
    simp [hc 0 le_rfl, flush_trace, init, closeLast, runHeads]
  | append_singleton fs f ih =>
    intro c hc
    have hc' : ∀ i ≤ fs.length, c i = ((init ws).run e ws buf (fs.take i)).counts :=
      fun i hi => by rw [hc i (by simp; omega), List.take_append_of_le_length hi]
    obtain ⟨ih₁, ih₂⟩ := ih c hc'
    have hrun := run_concat e ws buf (init ws) fs f
    have hcb : c fs.length = ((init ws).run e ws buf fs).counts := by
      rw [hc' _ le_rfl, List.take_length]
    have hcs : c (fs.length + 1) = (((init ws).run e ws buf fs).step e ws buf f).counts := by
      rw [hc _ (by simp), List.take_of_length_le (by simp), hrun]
    rw [hrun, List.enum_append, List.enumFrom_singleton, runHeads_append, seqAfter_append,
      List.length_append, List.length_singleton]
    rcases step_opens e ws buf _ f fs.length ih₁ with ⟨hr, hsa, ht⟩ | ⟨s, hs, hr, hsa, ht⟩
    · -- the record opens no entry: the last one is closed at the new counts
      refine ⟨by rw [hsa, ht, ih₁], ?_⟩
      rw [flush_trace_of_trace_eq ht, ih₂, ← hcs, hr, List.append_nil]
      simp only [List.map_append, List.map_cons, List.map_nil]
      rw [closeLast_zipWith _ _ (by simp)]
    · -- a run head: the last entry is closed and the head's entry opened
      refine ⟨by simp [hsa, ht, InsnInTrace.opening], ?_⟩
      rw [flush_trace, ht, closeLast_concat, ih₂, ← hcb, ← hcs, hr]
      simp only [List.map_append, List.map_cons, List.map_nil, List.singleton_append, hs,
        Option.getD_some]
      rw [← List.cons_append, List.zipWith_append _ _ _ _ _ (by simp)]
      rfl

theorem init_spec (sp : Space) : (init ws).spec sp = UdSpec.seed ws := by
  cases sp <;> rfl

end Built

/-! ## `VisitFile<Ud>` -/

section Visit

variable (e : Endianness) (ws : WordSize) (buf : List UInt8)

/-- The abstract use-def state of `sp` after the calls of the first `i` records. -/
def specAt (fs : List Frame) (sp : Space) (i : Nat) : UdSpec :=
  UdSpec.run (UdSpec.seed ws) (callsOf e ws buf sp (fs.take i))

/-- The numbers of uses and defs of each address space after the first `i` records. -/
def countsAt (fs : List Frame) (i : Nat) : Counts :=
  ⟨(specAt e ws buf fs .reg i).uses.length, (specAt e ws buf fs .mem i).uses.length,
    (specAt e ws buf fs .reg i).defs.length, (specAt e ws buf fs .mem i).defs.length⟩

theorem specAt_eq (fs : List Frame) (sp : Space) (i : Nat) :
    specAt e ws buf fs sp i = ((Built.init ws).run e ws buf (fs.take i)).spec sp := by
  rw [Built.spec_run, Built.init_spec]; rfl

theorem countsAt_eq (fs : List Frame) (i : Nat) :
    countsAt e ws buf fs i = ((Built.init ws).run e ws buf (fs.take i)).counts := by
  simp only [countsAt, Built.counts, specAt_eq]; rfl

/-- The record at which trace entry `k` ends, with the run heads counted from `prev`: the head of
run `k`, or the end of the records. -/
def runEnd (prev : Option Nat) (fs : List Frame) (k : Nat) : Nat :=
  (((runHeads e buf prev fs.enum)[k]?).map (·.1)).getD fs.length

/-- The trace is the seed entry, holding only the two catch-all defs, and one entry per run of
`SeekInsn`: entry `k + 1` has run `k`'s `insnSeq` as its code index, and its use and def
intervals are the uses and defs of the calls of run `k`'s records. -/
def TraceFollowsRuns (fs : List Frame) (entries : List InsnInTrace) : Prop :=
  entries.length = (runHeads e buf none fs.enum).length + 1 ∧
    entries[0]? = some ⟨0, 0, 0, 0, 0, 0, 1, 0, 1⟩ ∧
    ∀ k i f, (runHeads e buf none fs.enum)[k]? = some (i, f) → ∃ s, f.insnSeq? e buf = some s ∧
      entries[k + 1]? = some ((InsnInTrace.opening s (countsAt e ws buf fs i)).close
        (countsAt e ws buf fs (runEnd e buf none fs (k + 1))))

theorem getElem?_map_fst_append {H : List (Nat × Frame)} {n k : Nat} (hk : k ≤ H.length) :
    (H.map (·.1) ++ [n])[k]? = some (((H[k]?).map (·.1)).getD n) := by
  rcases Nat.lt_or_eq_of_le hk with hk | rfl
  · rw [List.getElem?_append_left (by simpa using hk), List.getElem?_map,
      List.getElem?_eq_getElem hk]
    rfl
  · simp

theorem insnSeq?_of_recordCall {cur : Nat} {fs : List Frame} (hfr : Framed e ws buf cur fs)
    (hwf : ∀ f ∈ fs, f.WellFormed ws) {f : Frame} (hf : f ∈ fs)
    (h : recordCall e ws buf f ≠ none) : f.insnSeq? e buf ≠ none := by
  obtain ⟨tg, htg, -⟩ := hwf f hf
  have hs : tg.entryKind.hasInsnSeq := by
    cases tg <;> simp_all [recordCall, Tag.entryKind, EntryKind.hasInsnSeq]
  obtain ⟨s, hs'⟩ := insnSeq?_isSome hfr hf (hwf f hf) htg hs
  simp [hs']

theorem callsOf_before_first_run (sp : Space) : ∀ (fs : List Frame) (n : Nat),
    (∀ f ∈ fs, recordCall e ws buf f ≠ none → f.insnSeq? e buf ≠ none) →
    callsOf e ws buf sp (fs.take
      (((runHeads e buf none (fs.enumFrom n)).head?.map (·.1)).getD (n + fs.length) - n)) = []
  | [], _, _ => by simp [callsOf]
  | f :: fs, n, h => by
    simp only [List.enumFrom_cons, runHeads]
    cases hs : f.insnSeq? e buf with
    | none =>
      have hr : recordCall e ws buf f = none := by
        by_contra hr
        exact h f (List.mem_cons_self _ _) hr hs
      have hge : n + 1 ≤ ((runHeads e buf none (fs.enumFrom (n + 1))).head?.map (·.1)).getD
          (n + 1 + fs.length) := by
        cases hh : (runHeads e buf none (fs.enumFrom (n + 1))).head? with
        | none => simp
        | some p =>
          have := (mem_runHeads e buf (List.mem_of_mem_head? hh)).1
          exact (List.mem_enumFrom this).1
      have ih := callsOf_before_first_run sp fs (n + 1) fun g hg => h g (List.mem_cons_of_mem _ hg)
      rw [List.length_cons, show n + (fs.length + 1) = n + 1 + fs.length by omega,
        show ∀ m, n + 1 ≤ m → m - n = m - (n + 1) + 1 from fun m hm => by omega,
        List.take_succ_cons]
      · simpa [callsOf, hr] using ih
      · exact hge
    | some s => simp [callsOf]

/-- `VisitFile<Ud>` over framed, well-formed records, all in the window, whose calls are
well-formed and keep the def and use indices inside `uint32_t`, and whose first `insnSeq` is not
the seed's code index 0: the trace is the seed entry and one entry per run of `SeekInsn`. -/
theorem udVisit_trace_follows_runs {doDisasm : List UInt8 → Nat → Option String}
    {verbose : Bool} {fuel stop : Nat} {primes : List Nat} {u : Ud} (hp : GoodCache primes)
    {t₀ : TraceMm} (hinit : TraceMm.init e ws buf = .ok t₀) {fs : List Frame}
    (hfr : Framed e ws buf t₀.cur fs) (hwf : ∀ f ∈ fs, f.WellFormed ws)
    (hc : ∀ f ∈ fs, CallWellFormed e ws buf f) (hw : fs.length ≤ stop)
    (hlen : buf.length < 2 ^ 64)
    (hb : ∀ sp, (UdSpec.run (UdSpec.seed ws) (callsOf e ws buf sp fs)).defs.length ≤ 2 ^ 32 ∧
      (UdSpec.run (UdSpec.seed ws) (callsOf e ws buf sp fs)).uses.length ≤ 2 ^ 32 - 1)
    (hfirst : firstInsnSeq e buf fs.enum ≠ some 0)
    (h : udVisit e ws buf doDisasm verbose fuel primes 0 stop = .ok u) :
    TraceFollowsRuns e ws buf fs u.trace := by
  have hb' : ∀ sp, (((Built.init ws).run e ws buf fs).spec sp).defs.length ≤ 2 ^ 32 ∧
      (((Built.init ws).run e ws buf fs).spec sp).uses.length ≤ 2 ^ 32 - 1 := fun sp => by
    rw [Built.spec_run, Built.init_spec]; exact hb sp
  have htr := (udVisit_refines hp hinit hfr hc hw hlen hb' h).trace_eq
  have hlist := (Built.run_trace e ws buf fs (countsAt e ws buf fs)
    fun i _ => countsAt_eq e ws buf fs i).2
  rw [runHeads_some_eq_none _ hfirst, ← htr] at hlist
  rw [TraceFollowsRuns, hlist]
  set H := runHeads e buf none fs.enum with hH
  refine ⟨by simp, ?_, fun k i f hk => ?_⟩
  · -- the seed entry: no record before the first run makes a call
    have hcalls : ∀ sp, callsOf e ws buf sp (fs.take (runEnd e buf none fs 0)) = [] := fun sp => by
      have := callsOf_before_first_run e ws buf sp fs 0
        fun f hf => insnSeq?_of_recordCall e ws buf hfr hwf hf
      simpa [runEnd, List.head?_eq_getElem?] using this
    rw [List.getElem?_zipWith, List.getElem?_map, getElem?_map_fst_append (Nat.zero_le _),
      show ((H[0]?).map (·.1)).getD fs.length = runEnd e buf none fs 0 from rfl]
    simp [countsAt, specAt, hcalls, UdSpec.seed, InsnInTrace.opening, InsnInTrace.close, u32]
  · obtain ⟨s, hs⟩ := (mem_runHeads e buf (List.getElem?_mem hk)).2
    have hk' : k + 1 ≤ H.length := by
      have := (List.getElem?_eq_some_iff.1 hk).1; omega
    refine ⟨s, hs, ?_⟩
    rw [List.getElem?_zipWith, List.getElem?_cons_succ, List.getElem?_map, hk, List.getElem?_map,
      getElem?_map_fst_append hk']
    simp [hs, runEnd, ← hH]

/-- A little-endian, 4-byte-word `EM_386` trace: `INSN` records for instructions 1 and 2, then a
one-byte `STORE` to address 4 by instruction 1 and a one-byte `LOAD` of it by instruction 2. -/
def storeLoadTrace386 : List UInt8 :=
  [0x34, 0x4d, 6, 0, 3, 0, 0, 0,
    0x49, 0x49, 13, 0, 1, 0, 0, 0, 0, 1, 0, 0, 0x90, 0, 0, 0,
    0x49, 0x49, 13, 0, 2, 0, 0, 0, 1, 1, 0, 0, 0x90, 0, 0, 0,
    0x53, 0x53, 13, 0, 1, 0, 0, 0, 4, 0, 0, 0, 0xaa, 0, 0, 0,
    0x4c, 0x4c, 13, 0, 2, 0, 0, 0, 4, 0, 0, 0, 0xaa, 0, 0, 0]

/-- The records of `storeLoadTrace386`. -/
def storeLoadFrames : List Frame :=
  [⟨8, 0x4949, 13⟩, ⟨24, 0x4949, 13⟩, ⟨40, 0x5353, 13⟩, ⟨56, 0x4c4c, 13⟩]

theorem framed_storeLoadFrames : Framed .little .four storeLoadTrace386 8 storeLoadFrames :=
  .record rfl rfl (by decide) (by decide) (.record rfl rfl (by decide) (by decide)
    (.record rfl rfl (by decide) (by decide) (.record rfl rfl (by decide) (by decide) .done)))

theorem udVisit_trace_follows_runs_store_load :
    ∃ u, udVisit .little .four storeLoadTrace386 (fun _ _ => none) false 8 initialPrimes 0
        sizeMax = .ok u ∧
      TraceFollowsRuns .little .four storeLoadTrace386 storeLoadFrames u.trace := by
  obtain ⟨u, hu⟩ : ∃ u, udVisit .little .four storeLoadTrace386 (fun _ _ => none) false 8
      initialPrimes 0 sizeMax = .ok u := ⟨_, rfl⟩
  exact ⟨u, hu, udVisit_trace_follows_runs .little .four storeLoadTrace386 goodCache_initialPrimes
    (rfl : TraceMm.init .little .four storeLoadTrace386 = .ok ⟨8, 0⟩) framed_storeLoadFrames
    (by decide) (by decide) (by decide) (by decide) (fun sp => by cases sp <;> decide)
    (by decide) hu⟩

/-- One run, whose `insnSeq` is 0: `HandleInsnSeq` takes it for the seed entry's and opens no
entry for it, so the trace holds one entry for one run. -/
theorem udVisit_merges_first_run :
    Framed .little .four (insnExecTrace386 [0, 0, 0, 0]) 8 [⟨8, 0x5858, 8⟩] ∧
      (∀ f ∈ [(⟨8, 0x5858, 8⟩ : Frame)], f.WellFormed .four) ∧
      (runHeads .little (insnExecTrace386 [0, 0, 0, 0]) none [⟨8, 0x5858, 8⟩].enum).length = 1 ∧
      ∃ u, udVisit .little .four (insnExecTrace386 [0, 0, 0, 0]) (fun _ _ => none) false 2
          initialPrimes 0 sizeMax = .ok u ∧ u.trace.length = 1 :=
  ⟨.record rfl rfl (by decide) (by decide) .done, by decide, by decide, _, rfl, rfl⟩

end Visit

end Memtrace
