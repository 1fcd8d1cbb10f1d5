import Memtrace.Ud.Primes
import Mathlib.NumberTheory.LucasPrimality
import Mathlib.Tactic.NormNum.Prime

/-! # The cache of odd primes

The static cache of `GetFirstPrimeGreaterThanOrEqualTo` starts as `{3}` and only the loop
`while (primes.back() <= valueSqrt)` extends it, each time with what a nested call on
`primes.back() + 1` returns. This module says what the cache is and what the search returns
from it.

* `oddPrimesUpTo n` lists the odd primes from 3 to `n`, and `PrimeCache primes` says the cache is
  that list up to its last entry. `Reachable` is every state of the cache that calls leave, from
  any `size_t` argument.
* `trialDivision_prime`: from a prime cache reaching past the square root of an odd `value ≥ 3`,
  trial division answers whether `value` is prime.
* `primeLoop_least`: a search from an odd `value ≥ 3` with a prime at or above it below `2 ^ 64`
  returns the least such prime and leaves a prime cache, the same cache when it already reached
  past the square root of the answer. So the nested call that extends the cache returns the next
  prime and never extends the cache itself (`LeastPrimeSpec.nested`).
* `primeLoop_keeps_primeCache` is any search that returns, and `Reachable.primeCache` every state
  calls leave.
* `prime_two_pow_sub_fifty_nine`: `2 ^ 64 - 59` is prime, by Lucas' test on the factors of
  `2 ^ 64 - 60`, the powers computed by squaring (`powMod`).
-/

namespace Memtrace

set_option autoImplicit false

/-- The odd primes from 3 to `n`, ascending. -/
def oddPrimesUpTo (n : Nat) : List Nat := (List.range' 3 (n - 2)).filter fun p => decide p.Prime

/-- The invariant of the static cache: it is the ascending list of the odd primes from 3 up to its
last entry. -/
def PrimeCache (primes : List Nat) : Prop :=
  ∃ last, primes.getLast? = some last ∧ primes = oddPrimesUpTo last

/-- `p` is the least prime at or above `v`. -/
def IsLeastPrimeGe (v p : Nat) : Prop :=
  p.Prime ∧ v ≤ p ∧ ∀ q, v ≤ q → q < p → ¬ q.Prime

theorem mem_oddPrimesUpTo {n p : Nat} : p ∈ oddPrimesUpTo n ↔ p.Prime ∧ 3 ≤ p ∧ p ≤ n := by
  simp only [oddPrimesUpTo, List.mem_filter, List.mem_range'_1, decide_eq_true_eq]
  constructor
  · rintro ⟨⟨h₁, h₂⟩, hp⟩
    exact ⟨hp, h₁, by omega⟩
  · rintro ⟨hp, h₁, h₂⟩
    exact ⟨⟨h₁, by omega⟩, hp⟩

theorem oddPrimesUpTo_sorted (n : Nat) : (oddPrimesUpTo n).Sorted (· < ·) :=
  (List.pairwise_lt_range' 3 (n - 2)).filter _

theorem oddPrimesUpTo_append {n p : Nat} (hn : 2 ≤ n) (hp : IsLeastPrimeGe (n + 1) p) :
    oddPrimesUpTo n ++ [p] = oddPrimesUpTo p := by
  obtain ⟨hpp, hnp, hgap⟩ := hp
  have hlen : p - 2 = p - n - 1 + (n - 2) + 1 := by omega
  have hlast : 3 + 1 * (p - n - 1 + (n - 2)) = p := by omega
  have hgap' : (List.range' (3 + (n - 2)) (p - n - 1)).filter (fun p => decide p.Prime) = [] :=
    List.filter_eq_nil_iff.2 fun q hq => by
      rw [List.mem_range'_1] at hq
      simpa using hgap q (by omega) (by omega)
  rw [oddPrimesUpTo, oddPrimesUpTo, hlen, List.range'_concat, hlast,
    ← List.range'_append_1 3 (n - 2) (p - n - 1),
    List.filter_append, List.filter_append, hgap', List.append_nil]
  simp [hpp]

theorem IsLeastPrimeGe.of_prime {v : Nat} (h : v.Prime) : IsLeastPrimeGe v v :=
  ⟨h, le_rfl, fun _ h₁ h₂ => absurd h₂ (by omega)⟩

theorem IsLeastPrimeGe.of_succ {v p : Nat} (hv : ¬ v.Prime) (h : IsLeastPrimeGe (v + 1) p) :
    IsLeastPrimeGe v p := by
  obtain ⟨hp, hle, hgap⟩ := h
  refine ⟨hp, by omega, fun q h₁ h₂ hq => ?_⟩
  rcases Nat.eq_or_lt_of_le h₁ with rfl | h₁
  · exact hv hq
  · exact hgap q h₁ h₂ hq

theorem IsLeastPrimeGe.le {v p q : Nat} (h : IsLeastPrimeGe v p) (hq : q.Prime) (hvq : v ≤ q) :
    p ≤ q :=
  Nat.le_of_not_lt fun hlt => h.2.2 q hvq hlt hq

theorem not_prime_of_even {v : Nat} (h₀ : v % 2 = 0) (h₄ : 4 ≤ v) : ¬ v.Prime := fun hv => by
  rcases hv.eq_two_or_odd with h | h <;> omega

/-! ## The cache -/

namespace PrimeCache

variable {primes : List Nat} {last : Nat}

theorem mem_iff (h : PrimeCache primes) (hl : primes.getLast? = some last) {p : Nat} :
    p ∈ primes ↔ p.Prime ∧ 3 ≤ p ∧ p ≤ last := by
  obtain ⟨last', hl', rfl⟩ := h
  rw [hl] at hl'
  cases hl'
  exact mem_oddPrimesUpTo

theorem sorted (h : PrimeCache primes) : primes.Sorted (· < ·) := by
  obtain ⟨last, -, rfl⟩ := h
  exact oddPrimesUpTo_sorted last

theorem last_prime (h : PrimeCache primes) (hl : primes.getLast? = some last) :
    last.Prime ∧ 3 ≤ last ∧ last % 2 = 1 := by
  obtain ⟨hp, h₃, -⟩ := (h.mem_iff hl).1 (List.mem_of_getLast?_eq_some hl)
  exact ⟨hp, h₃, hp.eq_two_or_odd.resolve_left (by omega)⟩

theorem goodCache (h : PrimeCache primes) : GoodCache primes := by
  obtain ⟨last, hl, -⟩ := id h
  refine ⟨fun hnil => by simp [hnil] at hl, fun p hp => ?_⟩
  have := ((h.mem_iff hl).1 hp).2.1
  omega

theorem push (h : PrimeCache primes) (hl : primes.getLast? = some last) {p : Nat}
    (hp : IsLeastPrimeGe (last + 1) p) : PrimeCache (primes ++ [p]) := by
  obtain ⟨last', hl', rfl⟩ := h
  rw [hl] at hl'
  cases hl'
  have h₃ := (mem_oddPrimesUpTo.1 (List.mem_of_getLast?_eq_some hl)).2.1
  exact ⟨p, List.getLast?_concat .., oddPrimesUpTo_append (by omega) hp⟩

end PrimeCache

theorem primeCache_initialPrimes : PrimeCache initialPrimes :=
  ⟨3, rfl, by simp [initialPrimes, oddPrimesUpTo, Nat.prime_three]⟩

/-! ## Trial division -/

/-- On a sorted cache reaching past `s`, the loop answers whether no cached entry up to `s`
divides `value`. -/
theorem trialDivision_eq {value s : Nat} : ∀ {primes : List Nat}, primes.Sorted (· < ·) →
    (∃ q ∈ primes, s < q) →
    trialDivision value s primes = .ok (decide (∀ p ∈ primes, p ≤ s → value % p ≠ 0))
  | [], _, ⟨_, hq, _⟩ => by simp at hq
  | p :: primes, hs, ⟨q, hq, hlt⟩ => by
    rw [trialDivision]
    split_ifs with hp hdvd
    · simp only [Except.ok.injEq, Bool.false_eq, decide_eq_false_iff_not, not_forall]
      exact ⟨p, List.mem_cons_self _ _, hp, fun h => h hdvd⟩
    · have hq' : q ∈ primes := (List.mem_cons.1 hq).resolve_left (by omega)
      rw [trialDivision_eq hs.of_cons ⟨q, hq', hlt⟩]
      simp [hp, hdvd]
    · -- the entries from `p` on are above `s`
      simp only [Except.ok.injEq, Bool.true_eq, decide_eq_true_eq]
      intro r hr hrs
      rcases List.mem_cons.1 hr with rfl | hr
      · omega
      · have := List.rel_of_sorted_cons hs r hr
        omega

/-- From a prime cache reaching past the square root of an odd `value ≥ 3`, trial division
answers whether `value` is prime: a composite odd value has its least factor, an odd prime, at
most its square root. -/
theorem trialDivision_prime {primes : List Nat} {last value : Nat} (hc : PrimeCache primes)
    (hl : primes.getLast? = some last) (hs : value.sqrt < last) (hodd : value % 2 = 1)
    (h₃ : 3 ≤ value) : trialDivision value value.sqrt primes = .ok (decide value.Prime) := by
  rw [trialDivision_eq hc.sorted ⟨last, List.mem_of_getLast?_eq_some hl, hs⟩]
  congr 1
  refine decide_eq_decide.2 ⟨fun h => ?_, fun hv p hp hps hmod => ?_⟩
  · by_contra hnp
    have hm := Nat.minFac_prime (show value ≠ 1 by omega)
    have hmd := Nat.mod_eq_zero_of_dvd (Nat.minFac_dvd value)
    have hsq : value.minFac ≤ value.sqrt := Nat.le_sqrt'.2 (Nat.minFac_sq_le_self (by omega) hnp)
    have hm₃ : 3 ≤ value.minFac := by
      rcases hm.eq_two_or_odd with h₂ | h₂
      · rw [h₂] at hmd; omega
      · have := hm.two_le; omega
    exact h _ ((hc.mem_iff hl).2 ⟨hm, hm₃, by omega⟩) hsq hmd
  · obtain ⟨-, hp₃, -⟩ := (hc.mem_iff hl).1 hp
    rcases hv.eq_one_or_self_of_dvd p (Nat.dvd_of_mod_eq_zero hmod) with h₁ | h₁
    · omega
    · have := Nat.sqrt_lt_self (show 1 < value by omega)
      omega

/-! ## The search -/

/-- What the nested call of the growing loop does on the caches it is made on, a prime cache
whose last entry `back` is at most `valueSqrt < 2 ^ 32`: it returns the least prime after `back`
and leaves the cache as it is, or runs out of fuel. -/
def NextPrimeSpec (nested : List Nat → Nat → Except Failure (Nat × List Nat)) : Prop :=
  ∀ {primes : List Nat} {back : Nat}, PrimeCache primes → primes.getLast? = some back →
    back < 2 ^ 32 → nested primes (back + 1) = .error .outOfFuel ∨
      ∃ p, nested primes (back + 1) = .ok (p, primes) ∧ IsLeastPrimeGe (back + 1) p

/-- The growing loop extends a prime cache, one next prime at a time, past `valueSqrt`, and leaves
a cache already past it as it is. -/
theorem growPrimes_primeCache {nested : List Nat → Nat → Except Failure (Nat × List Nat)}
    (hn : NextPrimeSpec nested) {valueSqrt : Nat} (hs : valueSqrt < 2 ^ 32) :
    ∀ (fuel : Nat) {primes : List Nat} {last : Nat}, PrimeCache primes →
      primes.getLast? = some last →
      growPrimes nested valueSqrt fuel primes = .error .outOfFuel ∨
        ∃ primes' last', growPrimes nested valueSqrt fuel primes = .ok primes' ∧
          PrimeCache primes' ∧ primes'.getLast? = some last' ∧ valueSqrt < last' ∧
          (valueSqrt < last → primes' = primes)
  | 0, _, _, _, _ => .inl rfl
  | fuel + 1, primes, last, hc, hl => by
    rw [growPrimes, hl]
    dsimp only
    split_ifs with hle
    · rw [Nat.mod_eq_of_lt (by omega : last + 1 < 2 ^ 64)]
      rcases hn hc hl (by omega) with h | ⟨p, h, hp⟩
      · rw [h]; exact .inl rfl
      · rw [h]
        rcases growPrimes_primeCache hn hs fuel (hc.push hl hp) (List.getLast?_concat ..) with
          h' | ⟨ps, l', h', hc', hl', hlt', -⟩
        · exact .inl h'
        · exact .inr ⟨ps, l', h', hc', hl', hlt', fun h => absurd h (by omega)⟩
    · exact .inr ⟨primes, last, rfl, hc, hl, by omega, fun _ => rfl⟩

/-- What a search from an odd `value ≥ 3` does from a prime cache, when a prime at or above
`value` lies below `2 ^ 64`: run out of fuel, or return the least prime at or above `value` and a
prime cache, the same cache when it already reached past the square root of the answer. -/
def LeastPrimeSpec (search : List Nat → Nat → Except Failure (Nat × List Nat)) : Prop :=
  ∀ {primes : List Nat} {value P last : Nat}, PrimeCache primes → primes.getLast? = some last →
    value % 2 = 1 → 3 ≤ value → value ≤ P → P.Prime → P < 2 ^ 64 →
    search primes value = .error .outOfFuel ∨
      ∃ r primes', search primes value = .ok (r, primes') ∧ IsLeastPrimeGe value r ∧
        PrimeCache primes' ∧ (r.sqrt < last → primes' = primes)

/-- The nested call of a search meets `NextPrimeSpec`: the next prime after `back` is below
`2 * back`, whose square root is below `back`, so the cache already reaches past it. -/
theorem LeastPrimeSpec.nested {search : List Nat → Nat → Except Failure (Nat × List Nat)}
    (h : LeastPrimeSpec search) : NextPrimeSpec fun primes v => search primes (v ||| 1) := by
  intro primes back hc hl hb
  obtain ⟨-, hb₃, hodd⟩ := hc.last_prime hl
  have hor : (back + 1) ||| 1 = back + 2 := by rw [or_one_eq]; omega
  obtain ⟨P, hP, hlt, hle⟩ := Nat.exists_prime_lt_and_le_two_mul back (by omega)
  have hP₂ : back + 2 ≤ P := by
    rcases Nat.lt_or_ge (back + 1) P with h | h
    · omega
    · obtain rfl : P = back + 1 := by omega
      exact absurd hP (not_prime_of_even (by omega) (by omega))
  dsimp only
  rw [hor]
  rcases h hc hl (by omega) (by omega) hP₂ hP (by omega) with h | ⟨r, ps, h, hr, -, hsame⟩
  · exact .inl h
  · have hrP := hr.le hP hP₂
    have hsq : r.sqrt < back := Nat.sqrt_lt.2 <| lt_of_le_of_lt (by omega : r ≤ 2 * back)
      (Nat.mul_lt_mul_of_pos_right (by omega : 2 < back) (by omega))
    rw [hsame hsq] at h
    exact .inr ⟨r, h, hr.of_succ (not_prime_of_even (by omega) (by omega))⟩

/-- One pass of the candidate loop from a prime cache: the cache grows to a prime cache past the
square root of `value`, unchanged if it already was, and trial division answers. -/
theorem primeLoop_step_prime {fuel : Nat} {primes : List Nat} {value last : Nat}
    (hn : NextPrimeSpec fun primes v => primeLoop fuel primes (v ||| 1)) (hc : PrimeCache primes)
    (hl : primes.getLast? = some last) (hv : value < 2 ^ 64) :
    primeLoop (fuel + 1) primes value = .error .outOfFuel ∨
      ∃ ps l, PrimeCache ps ∧ ps.getLast? = some l ∧ value.sqrt < l ∧
        (value.sqrt < last → ps = primes) ∧ ∃ b, trialDivision value value.sqrt ps = .ok b ∧
          primeLoop (fuel + 1) primes value =
            if b then .ok (value, ps) else primeLoop fuel ps ((value + 2) % 2 ^ 64) := by
  rcases @growPrimes_primeCache (fun primes v => primeLoop fuel primes (v ||| 1)) hn value.sqrt
      (Nat.sqrt_lt.2 (by omega)) fuel primes last hc hl with
    h | ⟨ps, l, h, hc', hl', hs, hsame⟩
  · left; rw [primeLoop]; simp only [h]
  · obtain ⟨b, hb⟩ := @trialDivision_ok value _ _ ⟨l, List.mem_of_getLast?_eq_some hl', hs⟩
    exact .inr ⟨ps, l, hc', hl', hs, hsame, b, hb, primeLoop_succ_eq h hb⟩

theorem primeLoop_least (fuel : Nat) : LeastPrimeSpec (primeLoop fuel) := by
  induction fuel with
  | zero => exact fun _ _ _ _ _ _ _ => .inl rfl
  | succ fuel ih =>
    intro primes value P last hc hl hodd h₃ hle hP hPlt
    rcases primeLoop_step_prime ih.nested hc hl (by omega : value < 2 ^ 64) with
      h | ⟨ps, l, hc', hl', hs, hsame, b, hb, h⟩
    · exact .inl h
    · rw [trialDivision_prime hc' hl' hs hodd h₃] at hb
      cases hb
      rw [h]
      by_cases hvp : value.Prime
      · simp only [hvp, decide_True, if_true]
        exact .inr ⟨value, ps, rfl, .of_prime hvp, hc', hsame⟩
      · -- a composite candidate lies below `P`, and so does the next odd one
        have hv₂ : value + 2 ≤ P := by
          have hne : value ≠ P := fun h => hvp (h ▸ hP)
          have := not_prime_of_even (v := value + 1) (by omega) (by omega)
          rcases Nat.lt_or_ge (value + 1) P with h | h
          · omega
          · exact absurd (show P = value + 1 by omega) fun h => this (h ▸ hP)
        simp only [hvp, decide_False, Bool.false_eq_true, if_false]
        rw [Nat.mod_eq_of_lt (by omega)]
        rcases ih hc' hl' (by omega) (by omega) hv₂ hP hPlt with h | ⟨r, ps', h, hr, hc'', hsame'⟩
        · exact .inl h
        · refine .inr ⟨r, ps', h, (hr.of_succ (not_prime_of_even (by omega) (by omega))).of_succ hvp,
            hc'', fun hlt => ?_⟩
          have hvr := Nat.sqrt_le_sqrt (show value ≤ r by have := hr.2.1; omega)
          obtain rfl := hsame (by omega)
          rw [hl] at hl'
          cases hl'
          exact hsame' hlt

/-- A search from any odd start below `2 ^ 64` that returns leaves a prime cache: a candidate
past the last prime below `2 ^ 64` wraps to 1, which trial division accepts. -/
theorem primeLoop_keeps_primeCache :
    ∀ (fuel : Nat) {primes : List Nat} {value r : Nat} {primes' : List Nat}, PrimeCache primes →
      value % 2 = 1 → value < 2 ^ 64 → primeLoop fuel primes value = .ok (r, primes') →
      PrimeCache primes'
  | 0, _, _, _, _, _, _, _, h => by cases h
  | fuel + 1, primes, value, r, primes', hc, hodd, hv, h => by
    obtain ⟨last, hl, -⟩ := id hc
    rcases primeLoop_step_prime (@primeLoop_least fuel).nested hc hl hv with
      h' | ⟨ps, l, hc', -, -, -, b, -, h'⟩
    · rw [h'] at h; cases h
    · rw [h'] at h
      cases b with
      | true => cases h; exact hc'
      | false =>
        exact primeLoop_keeps_primeCache fuel hc' (by omega) (Nat.mod_lt _ (by decide)) h

/-! ## The states calls leave -/

/-- The states of the static cache that calls leave: the initial `{3}`, and the cache after any
call that returns, on any `size_t` argument. -/
inductive Reachable : List Nat → Prop
  | init : Reachable initialPrimes
  | call {primes primes' : List Nat} {fuel value r : Nat} : Reachable primes → value < 2 ^ 64 →
      getFirstPrimeGreaterThanOrEqualTo fuel primes value = .ok (r, primes') → Reachable primes'

theorem Reachable.primeCache {primes : List Nat} (h : Reachable primes) : PrimeCache primes := by
  induction h with
  | init => exact primeCache_initialPrimes
  | call _ hv hcall ih =>
    exact primeLoop_keeps_primeCache _ ih (by rw [or_one_eq]; omega) (by rw [or_one_eq]; omega)
      hcall

/-! ## The largest prime below `2 ^ 64` -/

/-- `b ^ e % m`, squaring along the `k` low bits of `e`. -/
def powMod (m : Nat) : Nat → Nat → Nat → Nat
  | 0, _, _ => 1 % m
  | k + 1, b, e => (if e % 2 = 1 then b else 1) * powMod m k (b * b % m) (e / 2) % m

theorem powMod_eq (m : Nat) : ∀ (k b e : Nat), e < 2 ^ k → powMod m k b e = b ^ e % m
  | 0, b, e, h => by
    obtain rfl : e = 0 := by omega
    rfl
  | k + 1, b, e, h => by
    have hb : b ^ e = (if e % 2 = 1 then b else 1) * (b * b) ^ (e / 2) := by
      conv_lhs => rw [← Nat.div_add_mod e 2, Nat.pow_add, Nat.pow_mul, Nat.mul_comm]
      split_ifs with he
      · rw [he, pow_one, Nat.pow_two]
      · rw [show e % 2 = 0 by omega, pow_zero, Nat.pow_two]
    rw [Nat.pow_succ] at h
    rw [powMod, powMod_eq m k _ _ (by omega), ← Nat.pow_mod, Nat.mul_mod_mod, hb]

/-- Lucas' test on a factorisation `fs` of `n - 1` into primes, with the powers of the witness `a`
computed by `powMod`. -/
theorem prime_of_lucas {n : Nat} (a : Nat) (fs : List Nat) (hfs : ∀ q ∈ fs, q.Prime)
    (hprod : fs.prod = n - 1) (hn : n - 1 < 2 ^ 64) (ha : powMod n 64 a (n - 1) = 1 % n)
    (hq : ∀ q ∈ fs, powMod n 64 a ((n - 1) / q) ≠ 1 % n) : n.Prime := by
  have hcast : ∀ e, e < 2 ^ 64 → ((a : ZMod n) ^ e = 1 ↔ powMod n 64 a e = 1 % n) := fun e he => by
    rw [powMod_eq n 64 a e he, ← Nat.cast_pow, ← Nat.cast_one, ZMod.natCast_eq_natCast_iff']
  refine lucas_primality n a ((hcast _ hn).2 ha) fun q hqp hdvd => ?_
  obtain ⟨r, hr, hqr⟩ := (Prime.dvd_prod_iff hqp.prime).1 (hprod ▸ hdvd)
  obtain rfl := (Nat.prime_dvd_prime_iff_eq hqp (hfs r hr)).1 hqr
  exact mt (hcast _ (lt_of_le_of_lt (Nat.div_le_self _ _) hn)).1 (hq q hr)

/-- The largest prime factor of `2 ^ 64 - 60`. -/
theorem prime_5594472617641 : Nat.Prime 5594472617641 :=
  prime_of_lucas 13 [2, 2, 2, 3, 5, 1427, 2131, 15331] (by norm_num) (by norm_num) (by norm_num)
    (by decide) (by decide)

theorem prime_two_pow_sub_fifty_nine : (2 ^ 64 - 59).Prime := by
  refine prime_of_lucas 2 [2, 2, 11, 137, 547, 5594472617641] ?_ (by norm_num) (by norm_num)
    (by decide) (by decide)
  simp only [List.mem_cons, List.mem_singleton, List.not_mem_nil, or_false]
  rintro q (rfl | rfl | rfl | rfl | rfl | rfl) <;> first | exact prime_5594472617641 | norm_num

/-! ## Up to the largest prime below `2 ^ 64` -/

/-- Some fuel suffices for every argument up to `2 ^ 64 - 59`, from any good cache. -/
theorem getFirstPrime_terminates_of_le {v : Nat} (hv : v ≤ 2 ^ 64 - 59) :
    ∃ F, ∀ fuel, F ≤ fuel → ∀ {primes : List Nat}, GoodCache primes →
      ∃ r, getFirstPrimeGreaterThanOrEqualTo fuel primes v = .ok r := by
  have hor := or_one_eq v
  obtain ⟨F, hF⟩ := primeLoop_terminates (2 ^ 64 - 59) (by norm_num)
  exact ⟨F, fun fuel hf primes hc => hF fuel hf hc (by omega) (by omega) le_rfl
    (.inr prime_two_pow_sub_fifty_nine)⟩

/-- `GetFirstPrimeGreaterThanOrEqualTo(v)` for `3 ≤ v ≤ 2 ^ 64 - 59`, the largest prime below
`2 ^ 64`, on any state of the cache that calls leave: the cache is a prime cache; with enough fuel
the call returns; with any fuel it runs out of fuel or returns the least prime at or above `v`
with a prime cache, so trial division never reads past the end of the cache; and the nested calls
`GetFirstPrimeGreaterThanOrEqualTo(primes.back() + 1)` of the growing loop return the next prime
and leave the cache as it is. -/
theorem getFirstPrime_returns_least_prime {primes : List Nat} (hr : Reachable primes) {v : Nat}
    (hv₃ : 3 ≤ v) (hv : v ≤ 2 ^ 64 - 59) :
    PrimeCache primes ∧
      (∃ F, ∀ fuel, F ≤ fuel → ∃ r, getFirstPrimeGreaterThanOrEqualTo fuel primes v = .ok r) ∧
      (∀ fuel, getFirstPrimeGreaterThanOrEqualTo fuel primes v = .error .outOfFuel ∨
        ∃ p primes', getFirstPrimeGreaterThanOrEqualTo fuel primes v = .ok (p, primes') ∧
          IsLeastPrimeGe v p ∧ PrimeCache primes') ∧
      ∀ fuel, NextPrimeSpec (getFirstPrimeGreaterThanOrEqualTo fuel) := by
  have hc := hr.primeCache
  obtain ⟨last, hl, -⟩ := id hc
  have hor := or_one_eq v
  obtain ⟨F, hF⟩ := getFirstPrime_terminates_of_le hv
  refine ⟨hc, ⟨F, fun fuel hf => hF fuel hf hc.goodCache⟩, fun fuel => ?_,
    fun fuel => (@primeLoop_least fuel).nested⟩
  rcases primeLoop_least fuel hc hl (by omega : (v ||| 1) % 2 = 1) (by omega)
      (by omega : v ||| 1 ≤ 2 ^ 64 - 59) prime_two_pow_sub_fifty_nine (by norm_num) with
    h | ⟨p, ps, h, hp, hps, -⟩
  · exact .inl h
  · refine .inr ⟨p, ps, h, ?_, hps⟩
    -- `v ||| 1` is `v`, or `v + 1` after an even `v ≥ 4`, which is not prime
    rcases Nat.mod_two_eq_zero_or_one v with h₀ | h₁
    · rw [show v ||| 1 = v + 1 by omega] at hp
      exact hp.of_succ (not_prime_of_even h₀ (by omega))
    · rwa [show v ||| 1 = v by omega] at hp

/-- The first call, on `2 ^ 64 - 59` itself. -/
theorem getFirstPrime_returns_least_prime_largest :
    PrimeCache initialPrimes ∧
      (∃ F, ∀ fuel, F ≤ fuel →
        ∃ r, getFirstPrimeGreaterThanOrEqualTo fuel initialPrimes (2 ^ 64 - 59) = .ok r) ∧
      (∀ fuel, getFirstPrimeGreaterThanOrEqualTo fuel initialPrimes (2 ^ 64 - 59) =
          .error .outOfFuel ∨
        ∃ p primes', getFirstPrimeGreaterThanOrEqualTo fuel initialPrimes (2 ^ 64 - 59) =
            .ok (p, primes') ∧ IsLeastPrimeGe (2 ^ 64 - 59) p ∧ PrimeCache primes') ∧
      ∀ fuel, NextPrimeSpec (getFirstPrimeGreaterThanOrEqualTo fuel) :=
  getFirstPrime_returns_least_prime .init (by norm_num) le_rfl

end Memtrace
