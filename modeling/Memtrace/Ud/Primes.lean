import Memtrace.Trace.Reader
import Mathlib.NumberTheory.Bertrand

/-! # The prime sizes of the partial-use table

`GetFirstPrimeGreaterThanOrEqualTo` gives `PartialUses::reserve` its table size. It keeps a static
cache `primes` of odd primes, extended by calling itself, and tests odd candidates by trial
division with the cached primes up to their square root (taken as the exact integer square root).

* `trialDivision` is the `for` loop over the cache, `growPrimes` the `while` loop that extends it,
  `primeLoop` the `while (true)` loop over the candidates, each with its fuel; the cache is threaded
  through every call, as the static vector is.
* `GoodCache`: the cache is non-empty and holds neither 0 nor 1, which is all trial division needs
  to accept every prime (`trialDivision_accepts`).
* `primeLoop_spec`: from a good cache, a search that does not run out of fuel stops at or before
  the first prime at or above its start, and leaves a good cache; no call reads past the end of
  the cache. `getFirstPrime_ge` is the bound the table relies on.
* `primeLoop_mono` and `exists_primeFuel`: more fuel keeps every answer, and one fuel gives an
  answer for every argument below `2 ^ 60` (`PrimeFuel`); the nested searches of a pass aim at
  primes below the one the pass aims at.
-/

namespace Memtrace

set_option autoImplicit false

/-- The `for` loop of `GetFirstPrimeGreaterThanOrEqualTo`: divide `value` by the cached primes
while they are at most `valueSqrt`. Running off the end of the cache is an out-of-bounds read. -/
def trialDivision (value valueSqrt : Nat) : List Nat → Except Failure Bool
  | [] => .error .fault
  | p :: primes =>
    if p ≤ valueSqrt then
      if value % p = 0 then .ok false else trialDivision value valueSqrt primes
    else .ok true

/-- The loop `while (primes.back() <= valueSqrt) primes.push_back(...)`. The pushed value is the
recursive call `nested` on `primes.back() + 1`, which sees the cache, and may extend it, before
the push. -/
def growPrimes (nested : List Nat → Nat → Except Failure (Nat × List Nat)) (valueSqrt : Nat) :
    Nat → List Nat → Except Failure (List Nat)
  | 0, _ => .error .outOfFuel
  | fuel + 1, primes =>
    match primes.getLast? with
    | none => .error .fault
    | some back =>
      if back ≤ valueSqrt then
        match nested primes ((back + 1) % 2 ^ 64) with
        | .ok (p, primes) => growPrimes nested valueSqrt fuel (primes ++ [p])
        | .error e => .error e
      else .ok primes

/-- The `while (true)` loop over the odd candidates `value`, `value + 2`, ... in `size_t`: the
prime found and the cache after the search. -/
def primeLoop : Nat → List Nat → Nat → Except Failure (Nat × List Nat)
  | 0, _, _ => .error .outOfFuel
  | fuel + 1, primes, value =>
    let valueSqrt := value.sqrt
    match growPrimes (fun primes v => primeLoop fuel primes (v ||| 1)) valueSqrt fuel primes with
    | .error e => .error e
    | .ok primes =>
      match trialDivision value valueSqrt primes with
      | .error e => .error e
      | .ok true => .ok (value, primes)
      | .ok false => primeLoop fuel primes ((value + 2) % 2 ^ 64)

/-- `GetFirstPrimeGreaterThanOrEqualTo(value)` on the cache `primes`. -/
def getFirstPrimeGreaterThanOrEqualTo (fuel : Nat) (primes : List Nat) (value : Nat) :
    Except Failure (Nat × List Nat) :=
  primeLoop fuel primes (value ||| 1)

/-- `static std::vector<size_t> primes = {3}`. -/
def initialPrimes : List Nat := [3]

/-- `0 | 1` is accepted at once: `reserve(0)` makes a table of one slot. -/
example : getFirstPrimeGreaterThanOrEqualTo 2 initialPrimes 0 = .ok (1, [3]) := rfl

/-- A cache the search can work with: non-empty, and without 0 or 1. -/
def GoodCache (primes : List Nat) : Prop :=
  primes ≠ [] ∧ ∀ p ∈ primes, 2 ≤ p

theorem goodCache_initialPrimes : GoodCache initialPrimes := by
  simp [GoodCache, initialPrimes]

theorem GoodCache.push {primes : List Nat} {p : Nat} (h : GoodCache primes) (hp : 2 ≤ p) :
    GoodCache (primes ++ [p]) :=
  ⟨by simp, fun q hq => by
    rcases List.mem_append.1 hq with hq | hq
    · exact h.2 q hq
    · rw [List.mem_singleton.1 hq]; exact hp⟩

theorem or_one_eq (n : Nat) : n ||| 1 = n + (n + 1) % 2 := by
  apply Nat.eq_of_testBit_eq
  intro i
  cases i with
  | zero => simp only [Nat.testBit_zero, Nat.or_mod_two_eq_one]; simp; omega
  | succ i =>
    rw [Nat.testBit_or, Nat.testBit_succ, Nat.testBit_succ, Nat.testBit_succ,
      show (n + (n + 1) % 2) / 2 = n / 2 by omega]
    simp

theorem exists_prime_above {n : Nat} (h : n < 2 ^ 62) : ∃ P, n ≤ P ∧ P < 2 ^ 64 ∧ P.Prime := by
  obtain ⟨P, hP, hlt, hle⟩ := Nat.exists_prime_lt_and_le_two_mul (n + 1) (by omega)
  exact ⟨P, by omega, by omega, hP⟩

/-! ## Trial division -/

theorem trialDivision_ok {value valueSqrt : Nat} :
    ∀ {primes : List Nat}, (∃ q ∈ primes, valueSqrt < q) →
      ∃ b, trialDivision value valueSqrt primes = .ok b
  | [], ⟨_, hq, _⟩ => by simp at hq
  | p :: primes, ⟨q, hq, hlt⟩ => by
    rw [trialDivision]
    split_ifs with hp
    · exact ⟨false, rfl⟩
    · rcases List.mem_cons.1 hq with rfl | hq
      · omega
      · exact trialDivision_ok ⟨q, hq, hlt⟩
    · exact ⟨true, rfl⟩

theorem trialDivision_accepts {value : Nat} (hv : value = 1 ∨ value.Prime) :
    ∀ {primes : List Nat} {b : Bool}, (∀ p ∈ primes, 2 ≤ p) →
      trialDivision value value.sqrt primes = .ok b → b = true
  | [], _, _, h => by simp [trialDivision] at h
  | p :: primes, b, hp, h => by
    have h2 := hp p (List.mem_cons_self _ _)
    rw [trialDivision] at h
    split_ifs at h with hle hdvd
    · exfalso
      have hsq := Nat.le_sqrt.1 hle
      rcases hv with rfl | hv
      · rw [show Nat.sqrt 1 = 1 from rfl] at hle; omega
      · rcases hv.eq_one_or_self_of_dvd p (Nat.dvd_of_mod_eq_zero hdvd) with h1 | h1
        · omega
        · have := Nat.sqrt_lt_self hv.one_lt; omega
    · exact trialDivision_accepts hv (fun q hq => hp q (List.mem_cons_of_mem _ hq)) h
    · cases h; rfl

theorem add_two_le_of_rejected {value P : Nat} {primes : List Nat} (hP : P = 1 ∨ P.Prime)
    (hp : ∀ p ∈ primes, 2 ≤ p) (h : trialDivision value value.sqrt primes = .ok false)
    (hodd : value % 2 = 1) (hle : value ≤ P) : value + 2 ≤ P := by
  have hne : value ≠ P := by
    rintro rfl
    cases trialDivision_accepts hP hp h
  have hP3 : P % 2 = 1 := by
    rcases hP with rfl | hP
    · omega
    · rcases hP.eq_two_or_odd with rfl | h2
      · obtain rfl : value = 1 := by omega
        cases trialDivision_accepts (.inl rfl) hp h
      · exact h2
  omega

/-! ## Growing the cache -/

/-- What a nested call may do: run out of fuel, or return at least its argument and a good
cache. -/
def NestedSpec (nested : List Nat → Nat → Except Failure (Nat × List Nat)) : Prop :=
  ∀ {primes : List Nat} {a : Nat}, GoodCache primes → 3 ≤ a → a ≤ 2 ^ 32 + 1 →
    nested primes a = .error .outOfFuel ∨
      ∃ r primes', nested primes a = .ok (r, primes') ∧ a ≤ r ∧ GoodCache primes'

theorem growPrimes_spec {nested : List Nat → Nat → Except Failure (Nat × List Nat)}
    (hn : NestedSpec nested) {valueSqrt : Nat} (hs : valueSqrt < 2 ^ 32) :
    ∀ (fuel : Nat) {primes : List Nat}, GoodCache primes →
      growPrimes nested valueSqrt fuel primes = .error .outOfFuel ∨
        ∃ primes', growPrimes nested valueSqrt fuel primes = .ok primes' ∧ GoodCache primes' ∧
          ∃ q ∈ primes', valueSqrt < q
  | 0, _, _ => .inl rfl
  | fuel + 1, primes, hc => by
    obtain ⟨back, hback⟩ : ∃ back, primes.getLast? = some back := by
      cases h : primes.getLast? with
      | none => exact absurd (List.getLast?_eq_none_iff.1 h) hc.1
      | some back => exact ⟨back, rfl⟩
    have hmem : back ∈ primes := List.mem_of_getLast?_eq_some hback
    have h2 := hc.2 back hmem
    rw [growPrimes, hback]
    simp only
    split_ifs with hle
    · rw [Nat.mod_eq_of_lt (by omega : back + 1 < 2 ^ 64)]
      rcases hn (a := back + 1) hc (by omega) (by omega) with h | ⟨r, primes', h, hr, hc'⟩
      · rw [h]; exact .inl rfl
      · rw [h]
        exact growPrimes_spec hn hs fuel (hc'.push (by omega))
    · exact .inr ⟨primes, rfl, hc, back, hmem, by omega⟩

/-! ## The search -/

/-- What a search from an odd `value` may do when a prime `P ≥ value` (or `P = 1`) lies below
`2 ^ 64`: run out of fuel, or return an odd value in `[value, P]` and a good cache. -/
def SearchSpec (search : List Nat → Nat → Except Failure (Nat × List Nat)) : Prop :=
  ∀ {primes : List Nat} {value P : Nat}, GoodCache primes → value % 2 = 1 → value ≤ P →
    P < 2 ^ 64 → (P = 1 ∨ P.Prime) →
    search primes value = .error .outOfFuel ∨
      ∃ r primes', search primes value = .ok (r, primes') ∧ value ≤ r ∧ r ≤ P ∧ r % 2 = 1 ∧
        GoodCache primes'

/-- The nested call of a search meets `NestedSpec`: below `2 ^ 32 + 2` there is always a prime
below `2 ^ 64`. -/
theorem SearchSpec.nested {search : List Nat → Nat → Except Failure (Nat × List Nat)}
    (h : SearchSpec search) : NestedSpec fun primes v => search primes (v ||| 1) := by
  intro ps a hps ha3 ha
  obtain ⟨Q, hQ, hQlt, hQp⟩ := exists_prime_above (n := a + 1) (by omega)
  rcases @h ps (a ||| 1) Q hps (by rw [or_one_eq]; omega) (by rw [or_one_eq]; omega) hQlt
    (.inr hQp) with h | ⟨r, ps', h, hr, -, -, hps'⟩
  · exact .inl h
  · exact .inr ⟨r, ps', h, by rw [or_one_eq] at hr; omega, hps'⟩

theorem primeLoop_succ_eq {fuel : Nat} {primes ps : List Nat} {value : Nat} {b : Bool}
    (hg : growPrimes (fun primes v => primeLoop fuel primes (v ||| 1)) value.sqrt fuel primes =
      .ok ps)
    (hb : trialDivision value value.sqrt ps = .ok b) :
    primeLoop (fuel + 1) primes value =
      if b then .ok (value, ps) else primeLoop fuel ps ((value + 2) % 2 ^ 64) := by
  rw [primeLoop]
  simp only [hg, hb]
  cases b <;> rfl

/-- One pass of the outer loop: the cache grows without reading past its end, and the trial
division answers. -/
theorem primeLoop_step {fuel : Nat} {primes : List Nat} {value : Nat}
    (hn : NestedSpec fun primes v => primeLoop fuel primes (v ||| 1)) (hc : GoodCache primes)
    (hv : value < 2 ^ 64) :
    primeLoop (fuel + 1) primes value = .error .outOfFuel ∨
      ∃ primes' b, GoodCache primes' ∧ trialDivision value value.sqrt primes' = .ok b ∧
        primeLoop (fuel + 1) primes value =
          if b then .ok (value, primes') else primeLoop fuel primes' ((value + 2) % 2 ^ 64) := by
  have hs : value.sqrt < 2 ^ 32 := Nat.sqrt_lt.2 (by omega)
  rcases growPrimes_spec hn hs fuel hc with h | ⟨primes', h, hc', hq⟩
  · left; rw [primeLoop]; simp only [h]
  · obtain ⟨b, hb⟩ := @trialDivision_ok value _ _ hq
    exact .inr ⟨primes', b, hc', hb, primeLoop_succ_eq h hb⟩

theorem primeLoop_spec (fuel : Nat) : SearchSpec (primeLoop fuel) := by
  induction fuel with
  | zero => exact fun _ _ _ _ _ => .inl rfl
  | succ fuel ih =>
    unfold SearchSpec
    intro primes value P hc hodd hle hP hacc
    rcases @primeLoop_step fuel primes value ih.nested hc (by omega) with
      h | ⟨primes', b, hc', hb, h⟩
    · exact .inl h
    · rw [h]
      cases b with
      | true => exact .inr ⟨value, primes', rfl, le_rfl, hle, hodd, hc'⟩
      | false =>
        -- a rejected candidate is neither 1 nor prime, so it is below `P`, and so is the next
        have := add_two_le_of_rejected hacc hc'.2 hb hodd hle
        rw [if_neg Bool.false_ne_true, Nat.mod_eq_of_lt (by omega : value + 2 < 2 ^ 64)]
        rcases @ih primes' (value + 2) P hc' (by omega) (by omega) hP hacc with
          h | ⟨r, ps, h, hr, hr'⟩
        · exact .inl h
        · exact .inr ⟨r, ps, h, by omega, hr'⟩

/-- For any odd start below `2 ^ 64` the search returns, if it returns, an odd value below
`2 ^ 64` and a good cache. -/
theorem primeLoop_odd :
    ∀ (fuel : Nat) {primes : List Nat} {value : Nat}, GoodCache primes → value % 2 = 1 →
      value < 2 ^ 64 →
      primeLoop fuel primes value = .error .outOfFuel ∨
        ∃ r primes', primeLoop fuel primes value = .ok (r, primes') ∧ r % 2 = 1 ∧
          r < 2 ^ 64 ∧ GoodCache primes'
  | 0, _, _, _, _, _ => .inl rfl
  | fuel + 1, primes, value, hc, hodd, hv => by
    rcases primeLoop_step (SearchSpec.nested (primeLoop_spec fuel)) hc hv with
      h | ⟨primes', b, hc', -, h⟩
    · exact .inl h
    · rw [h]
      cases b with
      | true => exact .inr ⟨value, primes', rfl, hodd, hv, hc'⟩
      | false => exact primeLoop_odd fuel hc' (by omega) (Nat.mod_lt _ (by decide))

/-- The bound `PartialUses::reserve` relies on: for an argument below `2 ^ 62` the new size is at
least the argument. -/
theorem getFirstPrime_ge (fuel : Nat) {primes : List Nat} {value : Nat} (hc : GoodCache primes)
    (hv : value < 2 ^ 62) :
    getFirstPrimeGreaterThanOrEqualTo fuel primes value = .error .outOfFuel ∨
      ∃ r primes', getFirstPrimeGreaterThanOrEqualTo fuel primes value = .ok (r, primes') ∧
        value ≤ r ∧ GoodCache primes' := by
  obtain ⟨P, hP, hPlt, hPp⟩ := exists_prime_above (n := value ||| 1) (by rw [or_one_eq]; omega)
  rcases @primeLoop_spec fuel primes (value ||| 1) P hc (by rw [or_one_eq]; omega) hP hPlt
    (.inr hPp) with h | ⟨r, ps, h, hr, -, -, hps⟩
  · exact .inl h
  · exact .inr ⟨r, ps, h, by rw [or_one_eq] at hr; omega, hps⟩

/-! ## Enough fuel -/

theorem growPrimes_succ_of {nested nested' : List Nat → Nat → Except Failure (Nat × List Nat)}
    (hn : ∀ ps a r, nested ps a = .ok r → nested' ps a = .ok r) (valueSqrt : Nat) :
    ∀ (fuel : Nat) {primes r : List Nat}, growPrimes nested valueSqrt fuel primes = .ok r →
      growPrimes nested' valueSqrt (fuel + 1) primes = .ok r
  | 0, _, _, h => by cases h
  | fuel + 1, primes, r, h => by
    rw [growPrimes] at h ⊢
    split at h
    · cases h
    · split_ifs at h ⊢
      · split at h
        · rename_i p ps hnp
          rw [hn _ _ _ hnp]
          exact growPrimes_succ_of hn valueSqrt fuel h
        · cases h
      · exact h

theorem primeLoop_succ_of :
    ∀ (fuel : Nat) {primes : List Nat} {value : Nat} {r : Nat × List Nat},
      primeLoop fuel primes value = .ok r → primeLoop (fuel + 1) primes value = .ok r
  | 0, _, _, _, h => by cases h
  | fuel + 1, primes, value, r, h => by
    rw [primeLoop] at h ⊢
    cases hg : growPrimes (fun primes v => primeLoop fuel primes (v ||| 1)) value.sqrt fuel
        primes with
    | error e => rw [hg] at h; cases h
    | ok ps =>
      rw [hg] at h
      rw [growPrimes_succ_of (fun _ _ _ h => primeLoop_succ_of fuel h) _ fuel hg]
      dsimp only at h ⊢
      split at h
      · cases h
      · exact h
      · exact primeLoop_succ_of fuel h

theorem primeLoop_mono {fuel fuel' : Nat} (hle : fuel ≤ fuel') {primes : List Nat} {value : Nat}
    {r : Nat × List Nat} (h : primeLoop fuel primes value = .ok r) :
    primeLoop fuel' primes value = .ok r := by
  induction hle with
  | refl => exact h
  | step _ ih => exact primeLoop_succ_of _ ih

/-- The loop ends within its budget when every nested search answers at least its argument:
each pass raises the last entry of the cache. -/
theorem growPrimes_ok {nested : List Nat → Nat → Except Failure (Nat × List Nat)}
    {valueSqrt : Nat} (hs : valueSqrt < 2 ^ 32)
    (hn : ∀ {ps : List Nat} {a : Nat}, GoodCache ps → 3 ≤ a → a ≤ valueSqrt + 1 →
      ∃ r ps', nested ps a = .ok (r, ps') ∧ a ≤ r ∧ GoodCache ps') :
    ∀ (fuel : Nat) {primes : List Nat} {back : Nat}, GoodCache primes →
      primes.getLast? = some back → valueSqrt + 1 ≤ back + fuel →
      ∃ primes', growPrimes nested valueSqrt (fuel + 1) primes = .ok primes' ∧
        GoodCache primes' ∧ ∃ q ∈ primes', valueSqrt < q
  | fuel, primes, back, hc, hb, hf => by
    have hmem : back ∈ primes := List.mem_of_getLast?_eq_some hb
    have h2 := hc.2 back hmem
    rw [growPrimes, hb]
    dsimp only
    split_ifs with hle
    · -- one pass: the nested search returns an entry above `back`
      obtain ⟨p, ps, hp, hbp, hps⟩ := hn (a := (back + 1) % 2 ^ 64) hc
        (by rw [Nat.mod_eq_of_lt (by omega)]; omega) (by rw [Nat.mod_eq_of_lt (by omega)]; omega)
      rw [Nat.mod_eq_of_lt (by omega)] at hbp
      rw [hp]
      match fuel, hf with
      | 0, hf => omega
      | fuel + 1, hf =>
        exact growPrimes_ok hs hn fuel (hps.push (by omega)) (List.getLast?_concat ..) (by omega)
    · exact ⟨primes, rfl, hc, back, hmem, by omega⟩

theorem primeLoop_pass {Q F₀ : Nat} (hQlt : Q < 2 ^ 64)
    (hn : ∀ fuel, F₀ ≤ fuel → ∀ {ps : List Nat} {a : Nat}, GoodCache ps → 3 ≤ a →
      a ≤ Q.sqrt + 1 → ∃ r ps', primeLoop fuel ps (a ||| 1) = .ok (r, ps') ∧ a ≤ r ∧
        GoodCache ps')
    {fuel : Nat} {primes : List Nat} {value : Nat} (hc : GoodCache primes) (hvQ : value ≤ Q)
    (hfuel : F₀ + Q.sqrt + 2 ≤ fuel) :
    ∃ ps b, GoodCache ps ∧ trialDivision value value.sqrt ps = .ok b ∧
      primeLoop (fuel + 1) primes value =
        if b then .ok (value, ps) else primeLoop fuel ps ((value + 2) % 2 ^ 64) := by
  have hsq : value.sqrt ≤ Q.sqrt := Nat.sqrt_le_sqrt hvQ
  obtain ⟨back, hb⟩ : ∃ back, primes.getLast? = some back := by
    cases h : primes.getLast? with
    | none => exact absurd (List.getLast?_eq_none_iff.1 h) hc.1
    | some back => exact ⟨back, rfl⟩
  obtain ⟨g, rfl⟩ : ∃ g, fuel = g + 1 := ⟨fuel - 1, by omega⟩
  obtain ⟨ps, hg, hps, hq⟩ := growPrimes_ok (Nat.sqrt_lt.2 (by omega) : value.sqrt < 2 ^ 32)
    (fun hc ha₁ ha₂ => hn (g + 1) (by omega) hc ha₁ (by omega)) g hc hb
    (by have := hc.2 back (List.mem_of_getLast?_eq_some hb); omega)
  obtain ⟨b, hdiv⟩ := @trialDivision_ok value _ _ hq
  exact ⟨ps, b, hps, hdiv, primeLoop_succ_eq hg hdiv⟩

/-- The candidate loop reaches the prime (or 1) `Q` when the nested searches of its passes
return: a candidate turned down is neither 1 nor prime, so it lies below `Q`, and so does the
next one. -/
theorem primeLoop_ok_of_nested {Q F₀ : Nat} (hQ : Q = 1 ∨ Q.Prime) (hQlt : Q < 2 ^ 64)
    (hn : ∀ fuel, F₀ ≤ fuel → ∀ {ps : List Nat} {a : Nat}, GoodCache ps → 3 ≤ a →
      a ≤ Q.sqrt + 1 → ∃ r ps', primeLoop fuel ps (a ||| 1) = .ok (r, ps') ∧ a ≤ r ∧
        GoodCache ps') (d : Nat) :
    ∀ {fuel : Nat} {primes : List Nat} {value : Nat}, GoodCache primes → value % 2 = 1 →
      value ≤ Q → Q - value ≤ d → F₀ + d + Q.sqrt + 3 ≤ fuel →
      ∃ r, primeLoop fuel primes value = .ok r := by
  induction d with
  | zero =>
    intro fuel primes value hc hodd hvQ hd hfuel
    obtain ⟨fuel, rfl⟩ : ∃ f, fuel = f + 1 := ⟨fuel - 1, by omega⟩
    obtain ⟨ps, b, hps, hdiv, h⟩ :=
      primeLoop_pass hQlt hn hc hvQ (by omega : F₀ + Q.sqrt + 2 ≤ fuel)
    cases b with
    | true => exact ⟨_, h⟩
    | false => have := add_two_le_of_rejected hQ hps.2 hdiv hodd hvQ; omega
  | succ d ih =>
    intro fuel primes value hc hodd hvQ hd hfuel
    obtain ⟨fuel, rfl⟩ : ∃ f, fuel = f + 1 := ⟨fuel - 1, by omega⟩
    obtain ⟨ps, b, hps, hdiv, h⟩ :=
      primeLoop_pass hQlt hn hc hvQ (by omega : F₀ + Q.sqrt + 2 ≤ fuel)
    rw [h]
    cases b with
    | true => exact ⟨_, rfl⟩
    | false =>
      have := add_two_le_of_rejected hQ hps.2 hdiv hodd hvQ
      rw [if_neg Bool.false_ne_true, Nat.mod_eq_of_lt (by omega)]
      exact ih hps (by omega) (by omega) (by omega) (by omega)

/-- Some fuel suffices for every search from an odd value up to a prime, or 1, at most `P`: the
nested searches of its passes aim at primes below it, by Bertrand's postulate. -/
theorem primeLoop_terminates : ∀ P : Nat, P < 2 ^ 64 → ∃ F, ∀ fuel, F ≤ fuel →
    ∀ {primes : List Nat} {value Q : Nat}, GoodCache primes → value % 2 = 1 → value ≤ Q →
      Q ≤ P → (Q = 1 ∨ Q.Prime) → ∃ r, primeLoop fuel primes value = .ok r
  | 0, _ => by
    refine ⟨0, fun fuel _ => ?_⟩
    intro primes value Q _ _ _ hQ hQp
    obtain rfl : Q = 0 := by omega
    rcases hQp with h | h
    · cases h
    · exact absurd h Nat.not_prime_zero
  | P + 1, hP => by
    obtain ⟨F₀, hF₀⟩ := primeLoop_terminates P (by omega)
    refine ⟨F₀ + 2 * P + 8, fun fuel hfuel => ?_⟩
    intro primes value Q hc hodd hvQ hQP hQ
    rcases Nat.lt_or_ge Q (P + 1) with hlt | hge
    · exact hF₀ fuel (by omega) hc hodd hvQ (by omega) hQ
    · have hn : ∀ fuel, F₀ ≤ fuel → ∀ {ps : List Nat} {a : Nat}, GoodCache ps → 3 ≤ a →
          a ≤ Q.sqrt + 1 → ∃ r ps', primeLoop fuel ps (a ||| 1) = .ok (r, ps') ∧ a ≤ r ∧
            GoodCache ps' := by
        intro fuel hf ps a hps ha₃ ha
        have hor : a ||| 1 = a + (a + 1) % 2 := or_one_eq a
        have hs := Nat.sqrt_le Q
        obtain ⟨Q', hQ', hlt', hle'⟩ := Nat.exists_prime_lt_and_le_two_mul ((a ||| 1) - 1)
          (by omega)
        -- the nested search aims at a prime `Q' ≤ 2 * a ≤ 2 * sqrt Q + 2`, below `Q`
        have hQ'P : Q' ≤ P := by
          rcases Nat.lt_or_ge Q.sqrt 3 with h | h
          · have hQ4 : Q ≠ 4 := by
              rintro rfl
              rcases hQ with h | h
              · cases h
              · exact absurd h (by decide)
            interval_cases h' : Q.sqrt <;> omega
          · have := Nat.mul_le_mul_right Q.sqrt h
            omega
        obtain ⟨r, hr⟩ := hF₀ fuel hf hps (by omega) (by omega : a ||| 1 ≤ Q') hQ'P (.inr hQ')
        rcases primeLoop_spec fuel hps (by omega) (by omega : a ||| 1 ≤ Q') (by omega)
            (.inr hQ') with h | ⟨r', ps', h, hr', -, -, hps'⟩
        · rw [hr] at h; cases h
        · exact ⟨r', ps', h, by omega, hps'⟩
      exact primeLoop_ok_of_nested hQ (by omega) hn (Q - value) hc hodd hvQ le_rfl
        (by have := Nat.sqrt_le_self Q; omega)

/-- Fuel with which `GetFirstPrimeGreaterThanOrEqualTo` returns on every argument below `2 ^ 60`,
from every good cache. -/
def PrimeFuel (fuel : Nat) : Prop :=
  ∀ {primes : List Nat}, GoodCache primes → ∀ value < 2 ^ 60,
    ∃ r, getFirstPrimeGreaterThanOrEqualTo fuel primes value = .ok r

/-- One fuel serves every argument below `2 ^ 60`: each search stops at or before one prime of
`(2 ^ 60, 2 ^ 61]`. -/
theorem exists_primeFuel : ∃ F, ∀ fuel, F ≤ fuel → PrimeFuel fuel := by
  obtain ⟨Q, hQ, hlt, hle⟩ := Nat.exists_prime_lt_and_le_two_mul (2 ^ 60) (by norm_num)
  obtain ⟨F, hF⟩ := primeLoop_terminates Q (by omega)
  refine ⟨F, fun fuel hf primes hc value hv => ?_⟩
  have hor : value ||| 1 = value + (value + 1) % 2 := or_one_eq value
  exact hF fuel hf hc (by omega) (by omega) le_rfl (.inr hQ)

end Memtrace
