import Memtrace.Trace.Records

/-! # `SeekInsn` and instruction runs

The instruction runs of a trace: among the records that carry an `insnSeq`, the first one starts
run 0 and every later one whose `insnSeq` differs from the preceding one's starts a new run
(`runHeads none`). The `Seek` visitor computes the same thing from the sentinel state
`prevInsnSeq = UINT32_MAX`, i.e. it is `runHeads (some UINT32_MAX)`
(`seekStop_eq_runHeads`), so the two agree unless the first `insnSeq` is `UINT32_MAX`.

The loop of `Visit` over framed records is a fold over the records of its window
(`windowFrames`): `visitLoop_congr` carries a property of the records visited so far and compares
two visitors, and `visitLoop_ok` says the loop returns when the visitor returns on every record.
-/

namespace Memtrace

set_option autoImplicit false

section Seeking

variable {e : Endianness} {ws : WordSize} {buf : List UInt8}

variable (e buf) in
/-- The runs of a stream of records with their positions, given the `insnSeq` of the preceding
record that carries one: the first record of each run. -/
def runHeads : Option Nat → List (Nat × Frame) → List (Nat × Frame)
  | _, [] => []
  | prev, (i, f) :: rest =>
    match f.insnSeq? e buf with
    | none => runHeads prev rest
    | some s => if prev = some s then runHeads prev rest else (i, f) :: runHeads (some s) rest

variable (e buf) in
theorem mem_runHeads : ∀ {prev : Option Nat} {l : List (Nat × Frame)} {p : Nat × Frame},
    p ∈ runHeads e buf prev l → p ∈ l ∧ ∃ s, p.2.insnSeq? e buf = some s
  | _, [], _, h => by simp [runHeads] at h
  | prev, (i, f) :: rest, p, h => by
    simp only [runHeads] at h
    split at h
    · exact ⟨List.mem_cons_of_mem _ (mem_runHeads h).1, (mem_runHeads h).2⟩
    · rename_i s hs
      split_ifs at h
      · exact ⟨List.mem_cons_of_mem _ (mem_runHeads h).1, (mem_runHeads h).2⟩
      · rcases List.mem_cons.1 h with rfl | h
        · exact ⟨List.mem_cons_self _ _, s, hs⟩
        · exact ⟨List.mem_cons_of_mem _ (mem_runHeads h).1, (mem_runHeads h).2⟩

variable (e buf) in
/-- The `insnSeq` of the first record that carries one. -/
def firstInsnSeq (l : List (Nat × Frame)) : Option Nat :=
  (l.filterMap fun p => p.2.insnSeq? e buf).head?

/-- The `Seek` visitor on a record with the given `insnSeq?`. -/
def Seek.step (sk : Seek) : Option Nat → Seek
  | some s => sk.handleInsnSeq s
  | none => sk

variable (e buf) in
/-- Where the loop of `SeekInsn(k)` stops: the first record after whose visit the `Seek` state's
`insnIndex` is `k`. -/
def seekStop (k : Nat) : Seek → List (Nat × Frame) → Option (Nat × Frame)
  | _, [] => none
  | sk, (i, f) :: rest =>
    if (sk.step (f.insnSeq? e buf)).insnIndex = k then some (i, f)
    else seekStop k (sk.step (f.insnSeq? e buf)) rest

theorem Framed.length_le {cur : Nat} {fs : List Frame} (h : Framed e ws buf cur fs) :
    cur + fs.length ≤ buf.length := by
  induction h with
  | done => simp
  | record _ _ hpos hle _ ih => simp only [List.length_cons]; omega

theorem Framed.cur_lt {cur : Nat} {f : Frame} {fs : List Frame}
    (h : Framed e ws buf cur (f :: fs)) : cur < buf.length := by
  have := h.length_le
  simp only [List.length_cons] at this
  omega

/-- `VisitOne` on a framed record: the visitor is called if the record is in the window, and the
cursor moves to the next record. -/
theorem visitOne_frame {σ : Type} (v : Visitor σ) (start stop : Nat) {cur tag len i : Nat}
    {rest : List Frame} (h : Framed e ws buf cur (⟨cur, tag, len⟩ :: rest)) (s : σ) :
    visitOne e ws buf v start stop ⟨cur, i⟩ s =
      (if start ≤ i ∧ i < stop then v.dispatch i tag cur s else .ok s).map
        fun s' => (⟨cur + alignedLength ws len, (i + 1) % 2 ^ 64⟩, s') := by
  cases h with
  | record hg hl _ hle _ =>
    have h4 := getLength_isSome hl
    simp only [visitOne, hg, hl, tlvFixedLength]
    rw [if_neg (by omega), if_neg (by omega)]

/-- The records of `fs`, the first numbered `i`, that `VisitOne` hands to the visitor: those
numbered from `start` below `stop`. -/
def windowFrames (start stop i : Nat) (fs : List Frame) : List Frame :=
  ((fs.enumFrom i).filter fun r => start ≤ r.1 ∧ r.1 < stop).map (·.2)

theorem windowFrames_cons (start stop i : Nat) (f : Frame) (fs : List Frame) :
    windowFrames start stop i (f :: fs) = if start ≤ i ∧ i < stop then
      f :: windowFrames start stop (i + 1) fs else windowFrames start stop (i + 1) fs := by
  by_cases h : start ≤ i ∧ i < stop <;> simp [windowFrames, List.filter_cons, h]

theorem windowFrames_of_le {stop : Nat} :
    ∀ {i : Nat} {fs : List Frame}, i + fs.length ≤ stop → windowFrames 0 stop i fs = fs
  | _, [], _ => rfl
  | i, f :: fs, h => by
    simp only [List.length_cons] at h
    rw [windowFrames_cons, if_pos ⟨Nat.zero_le _, by omega⟩, windowFrames_of_le (by omega)]

/-- One turn of the loop of `Visit` on a framed record: the visitor's dispatch if the record is in
the window, then the loop from the next record. -/
theorem visitLoop_frame {σ : Type} (v : Visitor σ) {start stop n cur tag len i : Nat}
    {rest : List Frame} (hfr : Framed e ws buf cur (⟨cur, tag, len⟩ :: rest)) (s : σ) :
    visitLoop e ws buf v start stop (n + 1) ⟨cur, i⟩ s =
      match (if start ≤ i ∧ i < stop then v.dispatch i tag cur s else .ok s) with
      | .ok s' =>
        visitLoop e ws buf v start stop n ⟨cur + alignedLength ws len, (i + 1) % 2 ^ 64⟩ s'
      | .error err => .error err := by
  rw [visitLoop, if_neg (Nat.ne_of_lt hfr.cur_lt), visitOne_frame _ _ _ hfr]
  cases (if start ≤ i ∧ i < stop then v.dispatch i tag cur s else .ok s) <;> rfl

/-- The loop of `Visit` over framed records read as a fold over the records of its window `L`.
Let a property of the records visited so far and of the visitor's state be carried by every record
`v` dispatches from a prefix to the prefix with that record, and let `w` dispatch as `v` wherever
it holds: then the loops of `w` and `v` agree, and the property holds of `L` after the loop. -/
theorem visitLoop_congr {σ : Type} {v w : Visitor σ} {start stop : Nat} (L : List Frame)
    (I : List Frame → σ → Prop)
    (hI : ∀ p f q i s s', p ++ f :: q = L → v.dispatch i f.tag f.offset s = .ok s' → I p s →
      I (p ++ [f]) s')
    (hvw : ∀ p f q i s, p ++ f :: q = L → I p s →
      w.dispatch i f.tag f.offset s = v.dispatch i f.tag f.offset s)
    {cur : Nat} {fs : List Frame} (hfr : Framed e ws buf cur fs) :
    ∀ {p : List Frame} {i n : Nat} {s : σ}, p ++ windowFrames start stop i fs = L →
      i + fs.length < 2 ^ 64 → I p s →
      visitLoop e ws buf w start stop n ⟨cur, i⟩ s = visitLoop e ws buf v start stop n ⟨cur, i⟩ s ∧
      ∀ t' s', visitLoop e ws buf v start stop n ⟨cur, i⟩ s = .ok (t', s') → I L s' := by
  induction hfr with
  | done =>
    intro p i fuel s hL _ hs
    cases fuel with
    | zero => exact ⟨rfl, fun _ _ h => by cases h⟩
    | succ n =>
      rw [visitLoop, visitLoop, if_pos rfl, if_pos rfl]
      refine ⟨rfl, fun t' s' h => ?_⟩
      cases h
      simpa [windowFrames, ← hL] using hs
  | @record c tag len rest hg hl' hpos hle hrest ih =>
    intro p i fuel s hL h64 hs
    have hfr := Framed.record hg hl' hpos hle hrest
    simp only [List.length_cons] at h64
    rw [windowFrames_cons] at hL
    cases fuel with
    | zero => exact ⟨rfl, fun _ _ h => by cases h⟩
    | succ n =>
      rw [visitLoop_frame w hfr, visitLoop_frame v hfr, Nat.mod_eq_of_lt (by omega)]
      split_ifs at hL ⊢
      · -- in the window: both visitors dispatch the record
        rw [hvw p ⟨c, tag, len⟩ _ i s hL hs]
        cases hd : v.dispatch i tag c s with
        | error err => exact ⟨rfl, fun _ _ h => by cases h⟩
        | ok s₁ =>
          exact ih (p := p ++ [⟨c, tag, len⟩]) (by simp [← hL]) (by omega)
            (hI p ⟨c, tag, len⟩ _ i s s₁ hL hd hs)
      · -- outside the window: the state is kept
        exact ih hL (by omega) hs

/-- `visitLoop_congr` for one visitor whose window holds all the records: the property holds
after the loop. -/
theorem visitLoop_prefix_induction {σ : Type} {v : Visitor σ} {stop : Nat} (L : List Frame)
    (I : List Frame → σ → Prop)
    (hI : ∀ p f q i s s', p ++ f :: q = L → v.dispatch i f.tag f.offset s = .ok s' → I p s →
      I (p ++ [f]) s')
    {cur : Nat} {fs : List Frame} (hfr : Framed e ws buf cur fs) {p : List Frame} {i fuel : Nat}
    {s s' : σ} {t' : TraceMm} (hL : p ++ fs = L) (hw : i + fs.length ≤ stop)
    (h64 : i + fs.length < 2 ^ 64) (hl : visitLoop e ws buf v 0 stop fuel ⟨cur, i⟩ s = .ok (t', s'))
    (hs : I p s) : I L s' :=
  (visitLoop_congr L I hI (fun _ _ _ _ _ _ _ => rfl) hfr (by rw [windowFrames_of_le hw]; exact hL)
    h64 hs).2 t' s' hl

/-- The loop of `Visit` over framed records returns when the visitor returns on each record of
its window `L`, from a prefix where a property holds, and carries the property to the prefix with
that record: with one turn of fuel per record and one for the end, the loop returns and the
property holds of `L`. -/
theorem visitLoop_ok {σ : Type} {v : Visitor σ} {start stop : Nat} (L : List Frame)
    (I : List Frame → σ → Prop)
    (hI : ∀ p f q i s, p ++ f :: q = L → I p s →
      ∃ s', v.dispatch i f.tag f.offset s = .ok s' ∧ I (p ++ [f]) s')
    {cur : Nat} {fs : List Frame} (hfr : Framed e ws buf cur fs) :
    ∀ {p : List Frame} {i n : Nat} {s : σ}, p ++ windowFrames start stop i fs = L →
      i + fs.length < 2 ^ 64 → fs.length < n → I p s →
      ∃ t' s', visitLoop e ws buf v start stop n ⟨cur, i⟩ s = .ok (t', s') ∧ I L s' := by
  induction hfr with
  | done =>
    intro p i n s hL _ hn hs
    obtain ⟨n, rfl⟩ : ∃ m, n = m + 1 := ⟨n - 1, by omega⟩
    rw [visitLoop, if_pos rfl]
    exact ⟨_, _, rfl, by simpa [windowFrames, ← hL] using hs⟩
  | @record c tag len rest hg hl' hpos hle hrest ih =>
    intro p i n s hL h64 hn hs
    have hfr := Framed.record hg hl' hpos hle hrest
    simp only [List.length_cons] at h64 hn
    rw [windowFrames_cons] at hL
    obtain ⟨n, rfl⟩ : ∃ m, n = m + 1 := ⟨n - 1, by omega⟩
    rw [visitLoop_frame v hfr, Nat.mod_eq_of_lt (by omega)]
    split_ifs at hL ⊢
    · -- in the window: the visitor returns on the record
      obtain ⟨s₁, hd, hs₁⟩ := hI p ⟨c, tag, len⟩ _ i s hL hs
      rw [hd]
      exact ih (p := p ++ [⟨c, tag, len⟩]) (by simp [← hL]) (by omega) (by omega) hs₁
    · -- outside the window: the state is kept
      exact ih hL (by omega) (by omega) hs

theorem visitOne_seek {cur tag len i : Nat} {rest : List Frame}
    (h : Framed e ws buf cur (⟨cur, tag, len⟩ :: rest)) (hwf : Frame.WellFormed ws ⟨cur, tag, len⟩)
    (hi : i < sizeMax) (sk : Seek) :
    visitOne e ws buf (seekVisitor e buf) 0 sizeMax ⟨cur, i⟩ sk =
      .ok (⟨cur + alignedLength ws len, i + 1⟩,
        sk.step (Frame.insnSeq? e buf ⟨cur, tag, len⟩)) := by
  obtain ⟨tg, htg, -⟩ := id hwf
  rw [visitOne_frame _ _ _ h, if_pos ⟨Nat.zero_le _, hi⟩]
  simp only at htg
  simp only [Visitor.dispatch, htg, seekVisitor, Frame.insnSeq?]
  rw [Nat.mod_eq_of_lt (by unfold sizeMax at hi; omega)]
  by_cases hs : tg.entryKind.hasInsnSeq
  · obtain ⟨s, hs'⟩ := insnSeq?_isSome h (List.mem_cons_self _ _) hwf htg hs
    simp only [Frame.insnSeq?, htg, hs, if_true] at hs'
    simp [hs, hs', Seek.step, Except.map]
  · simp [hs, Seek.step, Except.map]

/-- What `SeekInsn` returns when its loop stops at a record, or reaches the end. -/
def seekResult : Option (Nat × Frame) → Except Failure TraceMm
  | some (j, f) => .ok ⟨f.offset, j⟩
  | none => .error .noSuchInsn

/-- The loop of `SeekInsn` over framed, well-formed records stops where `seekStop` says, or
throws at the end; it runs out of fuel only with no more fuel than records. -/
theorem seekLoop_frames (k : Nat) {cur i : Nat} {fs : List Frame} (hfr : Framed e ws buf cur fs)
    (hwf : ∀ f ∈ fs, f.WellFormed ws) (hi : i + fs.length < sizeMax) (sk : Seek) (fuel : Nat) :
    seekLoop e ws buf k fuel ⟨cur, i⟩ sk = seekResult (seekStop e buf k sk (fs.enumFrom i)) ∨
      (fuel ≤ fs.length ∧ seekLoop e ws buf k fuel ⟨cur, i⟩ sk = .error .outOfFuel) := by
  induction hfr generalizing i sk fuel with
  | done =>
    cases fuel with
    | zero => exact .inr ⟨le_refl _, rfl⟩
    | succ n => exact .inl (by simp [seekLoop, seekStop, seekResult])
  | @record c tag len rest hg hl hpos hle hrest ih =>
    cases fuel with
    | zero => exact .inr ⟨Nat.zero_le _, rfl⟩
    | succ n =>
      have hfr := Framed.record hg hl hpos hle hrest
      simp only [List.length_cons] at hi
      rw [seekLoop, if_neg (show c ≠ buf.length by omega),
        visitOne_seek hfr (hwf _ (List.mem_cons_self _ _)) (by omega)]
      simp only [List.enumFrom_cons, seekStop]
      split
      · refine .inl ?_
        have hi' : i < 2 ^ 64 := by unfold sizeMax at hi; omega
        simp only [seekResult]
        rw [show (i + 1 + 2 ^ 64 - 1) % 2 ^ 64 = i by omega]
      · rcases ih (i := i + 1) (fun f hf => hwf f (List.mem_cons_of_mem _ hf)) (by omega) _ n
          with h | ⟨hn, h⟩
        · exact .inl h
        · exact .inr ⟨by simp only [List.length_cons]; omega, h⟩

/-- Before run `k` starts the `Seek` state is `⟨c - 1, p⟩` (`SIZE_MAX` for `c = 0`), `c` runs
having started; `SeekInsn(k)` stops at run head `k - c` from there. -/
theorem seekStop_eq_runHeads {k : Nat} (hk : k < 2 ^ 32) :
    ∀ (l : List (Nat × Frame)) (c p : Nat), c ≤ k →
      seekStop e buf k ⟨(c + sizeMax) % 2 ^ 64, p⟩ l = (runHeads e buf (some p) l).get? (k - c)
  | [], _, _, _ => by simp [seekStop, runHeads]
  | (i, f) :: rest, c, p, hc => by
    have hne : (c + sizeMax) % 2 ^ 64 ≠ k := by unfold sizeMax; omega
    simp only [seekStop, runHeads]
    cases hs : f.insnSeq? e buf with
    | none =>
      simp only [Seek.step, if_neg hne]
      exact seekStop_eq_runHeads hk rest c p hc
    | some s =>
      by_cases hps : some p = some s
      · have hp : s = p := (Option.some.inj hps).symm
        subst hp
        simp only [Seek.step, Seek.handleInsnSeq, ne_eq, not_true_eq_false, if_false, if_neg hne,
          if_true]
        exact seekStop_eq_runHeads hk rest c s hc
      · have hsp : s ≠ p := fun h => hps (h ▸ rfl)
        simp only [Seek.step, Seek.handleInsnSeq, ne_eq, hsp, not_false_eq_true, if_true,
          if_neg hps]
        have hc' : ((c + sizeMax) % 2 ^ 64 + 1) % 2 ^ 64 = c := by unfold sizeMax; omega
        rw [hc']
        by_cases hck : c = k
        · subst hck
          simp
        · have h2 : (c + 1 + sizeMax) % 2 ^ 64 = c := by unfold sizeMax; omega
          rw [if_neg hck]
          conv_lhs => rw [← h2]
          rw [seekStop_eq_runHeads hk rest (c + 1) s (by omega),
            show k - c = (k - (c + 1)) + 1 by omega]
          rfl

theorem runHeads_some_eq_none {q : Nat} :
    ∀ l : List (Nat × Frame), firstInsnSeq e buf l ≠ some q →
      runHeads e buf (some q) l = runHeads e buf none l
  | [], _ => rfl
  | (i, f) :: rest, h => by
    simp only [firstInsnSeq, List.filterMap_cons] at h
    simp only [runHeads]
    cases hs : f.insnSeq? e buf with
    | none =>
      simp only [hs] at h
      exact runHeads_some_eq_none rest h
    | some s =>
      simp only [hs, List.head?_cons, ne_eq, Option.some.injEq] at h
      simp [Ne.symm h]

theorem four_le_alignedLength {len : Nat} (hl : len < 2 ^ 16) (h : 0 < alignedLength ws len) :
    4 ≤ alignedLength ws len := by
  rw [alignedLength_eq ws hl] at *
  have hq : 1 ≤ (len + (ws.bytes - 1)) / ws.bytes := by
    rcases Nat.eq_zero_or_pos ((len + (ws.bytes - 1)) / ws.bytes) with h0 | h0
    · rw [h0, Nat.zero_mul] at h; omega
    · exact h0
  calc 4 ≤ 1 * ws.bytes := by have := ws.bytes_pos; omega
    _ ≤ _ := Nat.mul_le_mul_right _ hq

theorem Framed.four_mul_length_le {cur : Nat} {fs : List Frame} (h : Framed e ws buf cur fs) :
    cur + 4 * fs.length ≤ buf.length := by
  induction h with
  | done => simp
  | record _ hl hpos _ _ ih =>
    have := four_le_alignedLength (getLength_lt hl) hpos
    simp only [List.length_cons]
    omega

/-- `SeekInsn(k)` on a trace whose body is framed, well-formed records, the first `insnSeq` not
being `UINT32_MAX`: it stops at run head `k`, or throws when there is none, unless it runs out of
fuel with no more fuel than records. -/
theorem seekInsn_frames (k : Nat) (hk : k < 2 ^ 32) {t0 : TraceMm}
    (hinit : TraceMm.init e ws buf = .ok t0) {fs : List Frame} (hfr : Framed e ws buf t0.cur fs)
    (hwf : ∀ f ∈ fs, f.WellFormed ws) (hfirst : firstInsnSeq e buf fs.enum ≠ some uint32Max)
    (hlen : buf.length < 2 ^ 64) (fuel : Nat) :
    seekInsn e ws buf k fuel = seekResult ((runHeads e buf none fs.enum).get? k) ∨
      (fuel ≤ fs.length ∧ seekInsn e ws buf k fuel = .error .outOfFuel) := by
  obtain ⟨hl, hgl, rfl⟩ := TraceMm.init_eq_ok e ws buf hinit
  have hstop : seekStop e buf k Seek.init fs.enum = (runHeads e buf none fs.enum).get? k := by
    have := @seekStop_eq_runHeads e buf k hk fs.enum 0 uint32Max (Nat.zero_le _)
    rw [show (0 + sizeMax) % 2 ^ 64 = sizeMax by unfold sizeMax; omega, Nat.sub_zero] at this
    rw [Seek.init, this, runHeads_some_eq_none _ hfirst]
  have hi : 0 + fs.length < sizeMax := by
    have := hfr.four_mul_length_le; unfold sizeMax; omega
  simp only [seekInsn, hgl]
  rw [← hstop]
  exact seekLoop_frames k hfr hwf hi Seek.init fuel

end Seeking

end Memtrace
