import Memtrace.Ud.Queries

/-! # The window of `VisitFile<Ud>`

`ud_file(path, start, end, ...)` visits the whole trace, but `VisitOne` hands to the builder only
the records numbered from `start` below `end` (`windowFrames`); the others are parsed and
skipped. The database it builds is the one the abstract builder makes of the records of the
window alone, as if the trace held nothing else (`udVisit_window_refines`).

`dispatch_refines_prefix` is the step: one record of a list of records keeps the refinement of
the abstract run over the records before it, while the final counts stay inside `uint32_t`;
`step_counts_le` bounds the counts after each record by the final ones.
-/

namespace Memtrace

set_option autoImplicit false

section Window

variable (e : Endianness) (ws : WordSize) (buf : List UInt8)

theorem step_counts_le {L p q : List Frame} {f : Frame} (hpq : p ++ f :: q = L)
    (hb : ∀ sp, (specAt e ws buf L sp L.length).defs.length < 2 ^ 32 ∧
      (specAt e ws buf L sp L.length).uses.length < 2 ^ 32) (sp : Space) :
    ((((Built.init ws).run e ws buf p).step e ws buf f).spec sp).defs.length ≤ 2 ^ 32 ∧
      ((((Built.init ws).run e ws buf p).step e ws buf f).spec sp).uses.length ≤ 2 ^ 32 - 1 := by
  subst hpq
  have hext := specAt_extends_final e ws buf (p ++ f :: q) sp (p.length + 1)
  rw [specAt_eq e ws buf _ sp (p.length + 1), show (p ++ f :: q).take (p.length + 1) = p ++ [f]
    from List.take_append 1, Built.run_concat] at hext
  have := hb sp; have := hext.1.length_le; have := hext.2.length_le
  omega

/-- One record of the records `L`, dispatched to the builder after the records `p` before it:
the builder refines the abstract run over `p` and the record, and that run is valid, as long as
the calls of `L` are well-formed and its counts stay below `2 ^ 32`. -/
theorem dispatch_refines_prefix {L p q : List Frame} {f : Frame} (hpq : p ++ f :: q = L)
    (hc : ∀ f ∈ L, CallWellFormed e ws buf f)
    (hb : ∀ sp, (specAt e ws buf L sp L.length).defs.length < 2 ^ 32 ∧
      (specAt e ws buf L sp L.length).uses.length < 2 ^ 32)
    {verbose : Bool} {fuel i : Nat} {doDisasm : List UInt8 → Nat → Option String} {u u' : Ud}
    (hd : (Ud.visitor ws e buf verbose fuel doDisasm).dispatch i f.tag f.offset u = .ok u')
    (h : u.Refines ((Built.init ws).run e ws buf p)) (hi : ((Built.init ws).run e ws buf p).Inv ws) :
    u'.Refines ((Built.init ws).run e ws buf (p ++ [f])) ∧
      ((Built.init ws).run e ws buf (p ++ [f])).Inv ws := by
  have hcf : CallWellFormed e ws buf f := hc f (hpq ▸ by simp)
  obtain ⟨cur, tag, len⟩ := f
  rw [Built.run_concat]
  exact ⟨dispatch_refines e ws buf h hi hcf (step_counts_le e ws buf hpq hb) hd,
    show (((Built.init ws).run e ws buf p).run e ws buf [⟨cur, tag, len⟩]).Inv ws from
      Built.inv_run e ws buf (by simpa using hcf) hi⟩

/-- `VisitFile<Ud>(start, end)` over framed records, whose records in the window make
well-formed calls and keep the def and use counts below `2 ^ 32`: the builder is the abstract
builder after the records of the window alone and the `Flush` of `Complete`. -/
theorem udVisit_window_refines {doDisasm : List UInt8 → Nat → Option String} {verbose : Bool}
    {fuel start stop : Nat} {primes : List Nat} {u : Ud} (hp : GoodCache primes) {t₀ : TraceMm}
    (hinit : TraceMm.init e ws buf = .ok t₀) {fs : List Frame} (hfr : Framed e ws buf t₀.cur fs)
    (hc : ∀ f ∈ windowFrames start stop 0 fs, CallWellFormed e ws buf f)
    (hlen : buf.length < 2 ^ 64)
    (hb : ∀ sp, (specAt e ws buf (windowFrames start stop 0 fs) sp
        (windowFrames start stop 0 fs).length).defs.length < 2 ^ 32 ∧
      (specAt e ws buf (windowFrames start stop 0 fs) sp
        (windowFrames start stop 0 fs).length).uses.length < 2 ^ 32)
    (h : udVisit e ws buf doDisasm verbose fuel primes start stop = .ok u) :
    u.Refines ((Built.init ws).run e ws buf (windowFrames start stop 0 fs)).flush := by
  obtain ⟨t, mt, u₀, t', u₁, ht, -, h₀, h₁, h⟩ := udVisit_eq_ok h
  rw [hinit] at ht
  cases ht
  obtain ⟨len, -, rfl⟩ := TraceMm.init_eq_ok e ws buf hinit
  have h4 := hfr.four_mul_length_le
  -- the loop is a fold of the builder over the records of the window
  have hloop := (visitLoop_congr (windowFrames start stop 0 fs)
    (fun p u => u.Refines ((Built.init ws).run e ws buf p) ∧ ((Built.init ws).run e ws buf p).Inv ws)
    (fun _ _ _ _ _ _ hpq hd hs => dispatch_refines_prefix e ws buf hpq hc hb hd hs.1 hs.2)
    (fun _ _ _ _ _ _ _ => rfl) hfr (p := []) rfl (by omega)
    ⟨Ud.init_refines ws hp h₀, Built.inv_init ws⟩).2 _ _ h₁
  exact hloop.1.flush h

/-- The window `[2, 4)` of the store-load trace: its `STORE` and `LOAD` records, without the
`INSN` records before them. -/
theorem udVisit_window_refines_store_load :
    ∃ u, udVisit .little .four storeLoadTrace386 (fun _ _ => none) false 8 initialPrimes 2 4 =
        .ok u ∧
      u.Refines ((Built.init .four).run .little .four storeLoadTrace386
        (windowFrames 2 4 0 storeLoadFrames)).flush := by
  obtain ⟨u, hu⟩ : ∃ u, udVisit .little .four storeLoadTrace386 (fun _ _ => none) false 8
      initialPrimes 2 4 = .ok u := ⟨_, rfl⟩
  exact ⟨u, hu, udVisit_window_refines .little .four storeLoadTrace386 goodCache_initialPrimes
    (rfl : TraceMm.init .little .four storeLoadTrace386 = .ok ⟨8, 0⟩) framed_storeLoadFrames
    (by decide) (by decide) (fun sp => by cases sp <;> decide) hu⟩

end Window

end Memtrace
