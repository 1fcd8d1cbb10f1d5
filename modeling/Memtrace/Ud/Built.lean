import Memtrace.Ud.Builder
import Memtrace.Trace.Seek

/-! # What the builder computes

`Built` is the builder as what it is for: the trace entries, and for each address space the
abstract use-def state `UdSpec` of the calls the records make (`recordCall`, `callsOf`). It opens
and closes trace entries as `HandleInsnSeq`, `Flush` and `AddTrace` do, at the counts of the
abstract states.

* `Built.spec_run`: the abstract state of an address space is `UdSpec.run` over the calls of the
  records in that space.
* `Ud.dispatch_cases`: what the visitor can do with one record.
* `Ud.Refines u b`: the builder's trace is `b`'s and each `UdState` refines its abstract state.
  `Ud.Refines.handleInsnSeq`, `Ud.Refines.call` and `dispatch_refines` are one step each,
  `visitLoop_refines` is the loop of `Visit` over framed records, and `udVisit_refines` is
  `VisitFile<Ud>`, while the abstract states keep their indices inside `uint32_t`.
-/

namespace Memtrace

set_option autoImplicit false

section Records

variable (e : Endianness) (ws : WordSize) (buf : List UInt8)

/-- The call a record makes of an address space: `AddUses` for `LOAD`, `GET_REG` and
`GET_REG_NX`, `AddDefs` for `STORE`, `PUT_REG` and `PUT_REG_NX`, on the range its getters
return. -/
def recordCall (f : Frame) : Option (Space × UdCall) :=
  match Tag.ofCode f.tag with
  | some .mtLoad => (Ud.ldStRange ws e buf f.offset).map fun r => (.mem, .addUses r.1 r.2)
  | some .mtStore => (Ud.ldStRange ws e buf f.offset).map fun r => (.mem, .addDefs r.1 r.2)
  | some .mtGetReg => (Ud.ldStRange ws e buf f.offset).map fun r => (.reg, .addUses r.1 r.2)
  | some .mtPutReg => (Ud.ldStRange ws e buf f.offset).map fun r => (.reg, .addDefs r.1 r.2)
  | some .mtGetRegNx => (Ud.ldStNxRange ws e buf f.offset).map fun r => (.reg, .addUses r.1 r.2)
  | some .mtPutRegNx => (Ud.ldStNxRange ws e buf f.offset).map fun r => (.reg, .addDefs r.1 r.2)
  | _ => none

/-- The calls the records make of one address space, in order. -/
def callsOf (sp : Space) (fs : List Frame) : List UdCall :=
  fs.filterMap fun f =>
    match recordCall e ws buf f with
    | some (sp', c) => if sp' = sp then some c else none
    | none => none

/-- The call the record makes, if it makes one, is well-formed. -/
def CallWellFormed (f : Frame) : Prop := ∀ p ∈ recordCall e ws buf f, p.2.WellFormed ws

instance (f : Frame) : Decidable (CallWellFormed e ws buf f) := by
  unfold CallWellFormed; infer_instance

end Records

/-- The abstract builder: the trace, and the abstract use-def state of each address space. -/
structure Built where
  trace : List InsnInTrace
  reg : UdSpec
  mem : UdSpec

namespace Built

/-- The abstract state of `regState_` or `memState_`. -/
def spec (b : Built) : Space → UdSpec
  | .reg => b.reg
  | .mem => b.mem

/-- `b` with one abstract state replaced. -/
def setSpec (b : Built) : Space → UdSpec → Built
  | .reg, s => { b with reg := s }
  | .mem, s => { b with mem := s }

@[simp] theorem spec_setSpec (b : Built) (sp : Space) (s : UdSpec) :
    (b.setSpec sp s).spec sp = s := by
  cases sp <;> rfl

@[simp] theorem spec_setSpec_ne (b : Built) {sp sp' : Space} (h : sp' ≠ sp) (s : UdSpec) :
    (b.setSpec sp s).spec sp' = b.spec sp' := by
  cases sp <;> cases sp' <;> first | rfl | exact absurd rfl h

@[simp] theorem setSpec_trace (b : Built) (sp : Space) (s : UdSpec) :
    (b.setSpec sp s).trace = b.trace := by
  cases sp <;> rfl

/-- The use and def counts of the abstract states. -/
def counts (b : Built) : Counts :=
  ⟨b.reg.uses.length, b.mem.uses.length, b.reg.defs.length, b.mem.defs.length⟩

/-- The seed entry, opened before the catch-all defs, and the catch-all defs. -/
def init (ws : WordSize) : Built := ⟨[.opening 0 ⟨0, 0, 0, 0⟩], UdSpec.seed ws, UdSpec.seed ws⟩

/-- `Flush`. -/
def flush (b : Built) : Built :=
  { b with trace := b.trace.dropLast ++ (b.trace.getLast?.map (·.close b.counts)).toList }

/-- `HandleInsnSeq`. -/
def handleInsnSeq (b : Built) (insnSeq : Nat) : Built :=
  if b.trace.getLast?.map (·.codeIndex) = some insnSeq then b
  else { b with trace := b.flush.trace ++ [.opening insnSeq b.counts] }

@[simp] theorem handleInsnSeq_spec (b : Built) (s : Nat) (sp : Space) :
    (b.handleInsnSeq s).spec sp = b.spec sp := by
  unfold handleInsnSeq; split_ifs <;> cases sp <;> rfl

variable (e : Endianness) (ws : WordSize) (buf : List UInt8)

/-- One record: `HandleInsnSeq` if it carries an `insnSeq`, then its call. -/
def step (b : Built) (f : Frame) : Built :=
  let b := match f.insnSeq? e buf with
    | some s => b.handleInsnSeq s
    | none => b
  match recordCall e ws buf f with
  | some (sp, c) => b.setSpec sp ((b.spec sp).step c)
  | none => b

/-- The records in order. -/
def run (b : Built) (fs : List Frame) : Built := fs.foldl (step e ws buf) b

@[simp] theorem run_nil (b : Built) : b.run e ws buf [] = b := rfl

@[simp] theorem run_cons (b : Built) (f : Frame) (fs : List Frame) :
    b.run e ws buf (f :: fs) = (b.step e ws buf f).run e ws buf fs := rfl

theorem run_concat (b : Built) (fs : List Frame) (f : Frame) :
    b.run e ws buf (fs ++ [f]) = (b.run e ws buf fs).step e ws buf f := by
  simp only [run, List.foldl_append, List.foldl_cons, List.foldl_nil]

theorem step_spec (b : Built) (f : Frame) (sp : Space) :
    (b.step e ws buf f).spec sp =
      UdSpec.run (b.spec sp) (callsOf e ws buf sp [f]) := by
  simp only [step, callsOf, List.filterMap_cons, List.filterMap_nil]
  have hh : (match f.insnSeq? e buf with
      | some s => b.handleInsnSeq s
      | none => b).spec sp = b.spec sp := by split <;> simp
  cases hc : recordCall e ws buf f with
  | none => simpa using hh
  | some p =>
    obtain ⟨sp', c⟩ := p
    by_cases hsp : sp' = sp
    · subst hsp; simp [hh]
    · simp [hsp, hh, Ne.symm hsp]

/-- The abstract state of an address space is `UdSpec.run` over the calls of the records. -/
theorem spec_run (sp : Space) : ∀ (fs : List Frame) (b : Built),
    (b.run e ws buf fs).spec sp = UdSpec.run (b.spec sp) (callsOf e ws buf sp fs)
  | [], _ => rfl
  | f :: fs, b => by
    rw [run_cons, spec_run sp fs, step_spec]
    simp only [UdSpec.run, callsOf, ← List.foldl_append, ← List.filterMap_append,
      List.singleton_append]

/-- Each abstract state keeps the invariant of `UdSpec`. -/
def Inv (b : Built) : Prop := ∀ sp, (b.spec sp).Inv ws

theorem inv_run {fs : List Frame} (hc : ∀ f ∈ fs, CallWellFormed e ws buf f) {b : Built}
    (h : b.Inv ws) : (b.run e ws buf fs).Inv ws := fun sp => by
  rw [spec_run]
  refine UdSpec.inv_run ws (h sp) fun c hcf => ?_
  obtain ⟨f, hf, hfc⟩ := List.mem_filterMap.1 hcf
  split at hfc
  · rename_i sp' c' hrc
    split_ifs at hfc
    cases hfc
    exact hc f hf (sp', c) hrc
  · cases hfc

theorem inv_init : (init ws).Inv ws := fun sp => by cases sp <;> exact UdSpec.inv_seed ws

theorem length_le_run (b : Built) (fs : List Frame) (sp : Space) :
    (b.spec sp).defs.length ≤ ((b.run e ws buf fs).spec sp).defs.length ∧
      (b.spec sp).uses.length ≤ ((b.run e ws buf fs).spec sp).uses.length := by
  rw [spec_run]; exact UdSpec.length_le_run _ _

end Built

/-! ## The builder refines `Built` -/

/-- The builder's state is the abstract one: the same trace, each `UdState` refines its abstract
state, and the prime cache is good. -/
structure Ud.Refines (u : Ud) (b : Built) : Prop where
  trace_eq : u.trace = b.trace
  state : ∀ sp, (u.state sp).Refines (b.spec sp)
  primes : GoodCache u.primes

namespace Ud.Refines

variable {u u' : Ud} {b : Built}

theorem counts_eq (h : u.Refines b) : u.counts = b.counts := by
  have hr : u.regState.Refines b.reg := h.state .reg
  have hm : u.memState.Refines b.mem := h.state .mem
  simp only [Ud.counts, Built.counts, hr.uses_eq, hm.uses_eq, hr.defs_eq, hm.defs_eq,
    List.length_map]

theorem flush {verbose : Bool} (h : u.Refines b) (hf : u.flush verbose = .ok u') :
    u'.Refines b.flush := by
  unfold Ud.flush at hf
  split at hf
  · cases hf
  · rename_i t ht
    dsimp only at hf
    split_ifs at hf
    cases hf
    refine ⟨?_, fun sp => by cases sp; exacts [h.state .reg, h.state .mem], h.primes⟩
    simp [Built.flush, ← h.trace_eq, ht, h.counts_eq]

theorem handleInsnSeq {verbose : Bool} {s : Nat} (h : u.Refines b)
    (hh : u.handleInsnSeq verbose s = .ok u') : u'.Refines (b.handleInsnSeq s) := by
  unfold Ud.handleInsnSeq at hh
  split at hh
  · cases hh
  · rename_i back hb
    have hb' : b.trace.getLast? = some back := h.trace_eq ▸ hb
    split_ifs at hh with hc
    · cases hh
      simpa [Built.handleInsnSeq, hb', hc] using h
    · split at hh
      · cases hh
      · rename_i u₁ hf
        cases hh
        have h₁ := h.flush hf
        rw [Built.handleInsnSeq, if_neg (by simpa [hb'] using hc)]
        refine ⟨?_, fun sp => by cases sp; exacts [h₁.state .reg, h₁.state .mem], h₁.primes⟩
        simp [Ud.addTrace, h₁.trace_eq, h₁.counts_eq, Built.flush, Built.counts]

variable (ws : WordSize)

theorem call {fuel : Nat} {sp : Space} {c : UdCall} (h : u.Refines b)
    (hi : (b.spec sp).Inv ws) (hc : c.WellFormed ws)
    (hd : ((b.spec sp).step c).defs.length ≤ 2 ^ 32)
    (hu : ((b.spec sp).step c).uses.length ≤ 2 ^ 32 - 1) (hr : u.call ws fuel sp c = .ok u') :
    u'.Refines (b.setSpec sp ((b.spec sp).step c)) := by
  unfold Ud.call at hr
  split at hr
  · cases hr
  · rename_i s p hs
    cases hr
    obtain ⟨hs', hp'⟩ := UdState.call_refines ws (h.state sp) hi h.primes hc hd hu hs
    refine ⟨by simp [h.trace_eq], fun sp' => ?_, hp'⟩
    by_cases hsp : sp' = sp
    · subst hsp
      have : ({ u.setState sp' s with primes := p } : Ud).state sp' = s := by cases sp' <;> rfl
      rw [this]; simpa using hs'
    · have : ({ u.setState sp s with primes := p } : Ud).state sp' = u.state sp' := by
        cases sp <;> cases sp' <;> first | rfl | exact absurd rfl hsp
      rw [this, Built.spec_setSpec_ne _ hsp]
      exact h.state sp'

variable {e : Endianness} {buf : List UInt8}

theorem handle_callOn {fuel : Nat} {verbose : Bool} {f : Frame} {s : Nat} {sp : Space}
    {r : Option (Nat × Nat)} {mk : Nat → Nat → UdCall} {u₁ : Ud} (h : u.Refines b)
    (hi : b.Inv ws) (hs : f.insnSeq? e buf = some s)
    (hrec : recordCall e ws buf f = r.map fun p => (sp, mk p.1 p.2))
    (hc : CallWellFormed e ws buf f)
    (hb : ∀ sp, ((b.step e ws buf f).spec sp).defs.length ≤ 2 ^ 32 ∧
      ((b.step e ws buf f).spec sp).uses.length ≤ 2 ^ 32 - 1)
    (hh : u.handleInsnSeq verbose s = .ok u₁) (hcall : u₁.callOn ws fuel sp r mk = .ok u') :
    u'.Refines (b.step e ws buf f) := by
  unfold Ud.callOn at hcall
  split at hcall
  · rename_i a z
    simp only [Option.map_some'] at hrec
    have hstep : b.step e ws buf f = (b.handleInsnSeq s).setSpec sp
        (((b.handleInsnSeq s).spec sp).step (mk a z)) := by
      simp only [Built.step, hs, hrec]
    rw [hstep] at hb ⊢
    have hb' := hb sp
    rw [Built.spec_setSpec] at hb'
    exact (h.handleInsnSeq hh).call ws (by rw [Built.handleInsnSeq_spec]; exact hi sp)
      (hc (sp, _) hrec) hb'.1 hb'.2 hcall
  · cases hcall

theorem handle_only {verbose : Bool} {f : Frame} {s : Nat} (h : u.Refines b)
    (hs : f.insnSeq? e buf = some s) (hrec : recordCall e ws buf f = none)
    (hh : u.handleInsnSeq verbose s = .ok u') : u'.Refines (b.step e ws buf f) := by
  have hstep : b.step e ws buf f = b.handleInsnSeq s := by simp only [Built.step, hs, hrec]
  rw [hstep]
  exact h.handleInsnSeq hh

theorem skip {f : Frame} (h : u.Refines b) (hs : f.insnSeq? e buf = none)
    (hrec : recordCall e ws buf f = none) (htr : u'.trace = u.trace)
    (hst : u'.regState = u.regState ∧ u'.memState = u.memState) (hp : u'.primes = u.primes) :
    u'.Refines (b.step e ws buf f) := by
  have hstep : b.step e ws buf f = b := by simp only [Built.step, hs, hrec]
  rw [hstep]
  refine ⟨htr.trans h.trace_eq, fun sp => ?_, hp ▸ h.primes⟩
  cases sp
  · show u'.regState.Refines _; rw [hst.1]; exact h.state .reg
  · show u'.memState.Refines _; rw [hst.2]; exact h.state .mem

end Ud.Refines

theorem Ud.insn_frame {ws : WordSize} {e : Endianness} {buf : List UInt8}
    {doDisasm : List UInt8 → Nat → Option String} {cur : Nat} {u u' : Ud}
    (h : u.insn ws e buf doDisasm cur = .ok u') :
    u'.trace = u.trace ∧ (u'.regState = u.regState ∧ u'.memState = u.memState) ∧
      u'.primes = u.primes := by
  unfold Ud.insn at h
  split at h
  · cases h
  · split_ifs at h
    split at h
    · cases h
    · split at h
      · cases h
      · cases h; exact ⟨rfl, ⟨rfl, rfl⟩, rfl⟩

section Visit

variable (e : Endianness) (ws : WordSize) (buf : List UInt8)

/-- What the visitor can do with a record: an `INSN` record goes to `operator()(InsnEntry)`, an
`MMAP` record changes nothing, and any other record runs `HandleInsnSeq` on its `insnSeq`, then
the call its range makes, if it makes one. -/
theorem Ud.dispatch_cases {fuel : Nat} {verbose : Bool}
    {doDisasm : List UInt8 → Nat → Option String} {i cur tag : Nat} (len : Nat) {u u' : Ud}
    (hd : (Ud.visitor ws e buf verbose fuel doDisasm).dispatch i tag cur u = .ok u') :
    (Tag.ofCode tag = some .mtInsn ∧ u.insn ws e buf doDisasm cur = .ok u') ∨
      (Tag.ofCode tag = some .mtMmap ∧ u' = u) ∨
      ∃ s u₁, Frame.insnSeq? e buf ⟨cur, tag, len⟩ = some s ∧ u.handleInsnSeq verbose s = .ok u₁ ∧
        (recordCall e ws buf ⟨cur, tag, len⟩ = none ∧ u' = u₁ ∨
          ∃ sp r mk, recordCall e ws buf ⟨cur, tag, len⟩ = r.map (fun p => (sp, mk p.1 p.2)) ∧
            u₁.callOn ws fuel sp r mk = .ok u') := by
  unfold Visitor.dispatch at hd
  split at hd
  · rename_i tg htg
    cases tg
    case mtInsn => exact .inl ⟨htg, hd⟩
    case mtMmap => cases hd; exact .inr (.inl ⟨htg, rfl⟩)
    -- the records with an `insnSeq`: `HandleInsnSeq`, then the call if there is one
    all_goals
      refine .inr (.inr ?_)
      simp only [Ud.visitor, Tag.entryKind, Ud.ldSt, Ud.ldStNx, Ud.insnExec] at hd
      split at hd
      · cases hd
      rename_i s hs
      have hs' : Frame.insnSeq? e buf ⟨cur, tag, len⟩ = some s := by
        simp [Frame.insnSeq?, htg, Tag.entryKind, EntryKind.hasInsnSeq, hs]
      first
        | exact ⟨s, u', hs', hd, .inl ⟨by simp [recordCall, htg], rfl⟩⟩
        | split at hd
          · cases hd
          rename_i u₁ hh
          first
            | exact ⟨s, u₁, hs', hh, .inr ⟨_, _, _, by simp [recordCall, htg], hd⟩⟩
            | cases hd; exact ⟨s, _, hs', hh, .inl ⟨by simp [recordCall, htg], rfl⟩⟩
  · cases hd

/-- One record in the window: the builder's step is the abstract one. -/
theorem dispatch_refines {fuel : Nat} {verbose : Bool}
    {doDisasm : List UInt8 → Nat → Option String} {i cur tag len : Nat} {u u' : Ud} {b : Built}
    (h : u.Refines b) (hi : b.Inv ws)
    (hc : CallWellFormed e ws buf ⟨cur, tag, len⟩)
    (hb : ∀ sp, ((b.step e ws buf ⟨cur, tag, len⟩).spec sp).defs.length ≤ 2 ^ 32 ∧
      ((b.step e ws buf ⟨cur, tag, len⟩).spec sp).uses.length ≤ 2 ^ 32 - 1)
    (hd : (Ud.visitor ws e buf verbose fuel doDisasm).dispatch i tag cur u = .ok u') :
    u'.Refines (b.step e ws buf ⟨cur, tag, len⟩) := by
  rcases Ud.dispatch_cases e ws buf len hd with
    ⟨htg, hd⟩ | ⟨htg, rfl⟩ | ⟨s, u₁, hs, hh, ⟨hrec, rfl⟩ | ⟨sp, r, mk, hrec, hcall⟩⟩
  · -- `INSN` and `MMAP` records carry no `insnSeq` and make no call
    obtain ⟨htr, hst, hp⟩ := Ud.insn_frame hd
    exact h.skip ws (by simp [Frame.insnSeq?, htg, Tag.entryKind, EntryKind.hasInsnSeq])
      (by simp [recordCall, htg]) htr hst hp
  · exact h.skip ws (by simp [Frame.insnSeq?, htg, Tag.entryKind, EntryKind.hasInsnSeq])
      (by simp [recordCall, htg]) rfl ⟨rfl, rfl⟩ rfl
  · exact h.handle_only ws hs hrec hh
  · exact h.handle_callOn ws hi hs hrec hc hb hh hcall

/-- The loop of `Visit` over framed records inside the window refines the abstract run. -/
theorem visitLoop_refines {fuel stop : Nat} {verbose : Bool}
    {doDisasm : List UInt8 → Nat → Option String} {cur : Nat} {fs : List Frame}
    (hfr : Framed e ws buf cur fs) :
    ∀ {i n : Nat} {u u' : Ud} {b : Built} {t' : TraceMm},
      (∀ f ∈ fs, CallWellFormed e ws buf f) →
      i + fs.length ≤ stop → i + fs.length < 2 ^ 64 → u.Refines b → b.Inv ws →
      (∀ sp, ((b.run e ws buf fs).spec sp).defs.length ≤ 2 ^ 32 ∧
        ((b.run e ws buf fs).spec sp).uses.length ≤ 2 ^ 32 - 1) →
      visitLoop e ws buf (Ud.visitor ws e buf verbose fuel doDisasm) 0 stop n ⟨cur, i⟩ u =
        .ok (t', u') →
      u'.Refines (b.run e ws buf fs) := by
  induction hfr with
  | done =>
    intro i n u u' b t' _ _ _ h _ _ hl
    cases n with
    | zero => cases hl
    | succ n =>
      rw [visitLoop, if_pos rfl] at hl
      cases hl
      exact h
  | @record c tag len rest hg hl' hpos hle hrest ih =>
    intro i n u u' b t' hc hw h64 h hi hb hl
    have hfr := Framed.record hg hl' hpos hle hrest
    simp only [List.length_cons] at hw h64
    cases n with
    | zero => cases hl
    | succ n =>
      rw [visitLoop, if_neg (Nat.ne_of_lt hfr.cur_lt), visitOne_frame _ _ _ hfr,
        if_pos ⟨Nat.zero_le _, by omega⟩] at hl
      cases hd : (Ud.visitor ws e buf verbose fuel doDisasm).dispatch i tag c u with
      | error err => rw [hd] at hl; cases hl
      | ok u₁ =>
        rw [hd] at hl
        simp only [Except.map] at hl
        rw [Nat.mod_eq_of_lt (by omega)] at hl
        have hcf := hc _ (List.mem_cons_self _ _)
        have hb₁ : ∀ sp, ((b.step e ws buf ⟨c, tag, len⟩).spec sp).defs.length ≤ 2 ^ 32 ∧
            ((b.step e ws buf ⟨c, tag, len⟩).spec sp).uses.length ≤ 2 ^ 32 - 1 := fun sp => by
          have := Built.length_le_run e ws buf (b.step e ws buf ⟨c, tag, len⟩) rest sp
          have := hb sp
          simp only [Built.run_cons] at this
          omega
        exact ih (fun f hf => hc f (List.mem_cons_of_mem _ hf)) (by omega) (by omega)
          (dispatch_refines e ws buf h hi hcf hb₁ hd)
          (Built.inv_run e ws buf (by simpa using hcf) hi : (b.run e ws buf [_]).Inv ws) hb hl

end Visit

theorem UdState.seed_of_init (ws : WordSize) {fuel n : Nat} {primes primes' : List Nat}
    {s : UdState} (h : UdState.init fuel primes n = .ok (s, primes')) :
    UdState.seed ws fuel primes n = .ok (s.addDef 0 ws.max, primes') := by
  simp [UdState.seed, h]

theorem UdState.init_empty {fuel n : Nat} {primes primes' : List Nat} {s : UdState}
    (h : UdState.init fuel primes n = .ok (s, primes')) : s.uses = [] ∧ s.defs = [] := by
  unfold UdState.init at h
  split at h
  · cases h
  · cases h; exact ⟨rfl, rfl⟩

theorem Ud.init_refines (ws : WordSize) {e : Endianness} {fuel machineType n : Nat}
    {primes : List Nat} {u : Ud} (hp : GoodCache primes)
    (h : Ud.init ws e fuel primes machineType n = .ok u) : u.Refines (Built.init ws) := by
  unfold Ud.init at h
  split at h
  · cases h
  · rename_i s₁ p₁ h₁
    split at h
    · cases h
    · rename_i s₂ p₂ h₂
      dsimp only at h
      split at h
      · cases h
      · cases h
        obtain ⟨hr₁, hp₁⟩ := UdState.seed_refines ws hp (UdState.seed_of_init ws h₁)
        obtain ⟨hr₂, hp₂⟩ := UdState.seed_refines ws hp₁ (UdState.seed_of_init ws h₂)
        obtain ⟨hu₁, hd₁⟩ := UdState.init_empty h₁
        obtain ⟨hu₂, hd₂⟩ := UdState.init_empty h₂
        refine ⟨?_, fun sp => by cases sp; exacts [hr₁, hr₂], hp₂⟩
        simp [Ud.addTrace, Ud.counts, Built.init, hu₁, hd₁, hu₂, hd₂]

/-- `VisitFile<Ud>` over a trace whose body is framed records, every one in the window, whose
calls are well-formed, and whose abstract states keep their indices inside `uint32_t`: the builder
is the abstract builder after the records and the `Flush` of `Complete`. -/
theorem udVisit_refines {e : Endianness} {ws : WordSize} {buf : List UInt8}
    {doDisasm : List UInt8 → Nat → Option String} {verbose : Bool} {fuel stop : Nat}
    {primes : List Nat} {u : Ud} (hp : GoodCache primes) {t₀ : TraceMm}
    (hinit : TraceMm.init e ws buf = .ok t₀) {fs : List Frame} (hfr : Framed e ws buf t₀.cur fs)
    (hc : ∀ f ∈ fs, CallWellFormed e ws buf f)
    (hw : fs.length ≤ stop) (hlen : buf.length < 2 ^ 64)
    (hb : ∀ sp, (((Built.init ws).run e ws buf fs).spec sp).defs.length ≤ 2 ^ 32 ∧
      (((Built.init ws).run e ws buf fs).spec sp).uses.length ≤ 2 ^ 32 - 1)
    (h : udVisit e ws buf doDisasm verbose fuel primes 0 stop = .ok u) :
    u.Refines ((Built.init ws).run e ws buf fs).flush := by
  obtain ⟨t, mt, u₀, t', u₁, ht, -, h₀, h₁, h⟩ := udVisit_eq_ok h
  rw [hinit] at ht
  cases ht
  obtain ⟨len, -, rfl⟩ := TraceMm.init_eq_ok e ws buf hinit
  have h4 := hfr.four_mul_length_le
  exact (visitLoop_refines e ws buf hfr hc (by omega) (by omega)
    (Ud.init_refines ws hp h₀) (Built.inv_init ws) hb h₁).flush h

end Memtrace
