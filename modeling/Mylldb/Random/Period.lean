import Mylldb.Random.Theorems
import Mathlib.NumberTheory.LucasPrimality
import Mathlib.Tactic.NormNum.Prime
import Mathlib.Tactic.ReduceModChar

namespace Mylldb.Random

open Lib.Lehmer

-- The number of seeds between the two absorbing ones.
def period : Nat := 2 ^ 31 - 2

theorem period_eq : period = 2 ^ 31 - 1 - 1 := rfl

theorem factor_pow_period : (16807 : ZMod (2 ^ 31 - 1)) ^ (2 ^ 31 - 1 - 1) = 1 := by
  norm_num
  reduce_mod_char

theorem prime_dvd_period (q : Nat) (hq : q.Prime) (hdvd : q ∣ 2 ^ 31 - 1 - 1) :
    q ∈ [2, 3, 7, 11, 31, 151, 331] := by
  have hfactors : 2 ^ 31 - 1 - 1 = [2, 3, 3, 7, 11, 31, 151, 331].prod := by norm_num
  rw [hfactors] at hdvd
  obtain ⟨x, hx, hqx⟩ := (Prime.dvd_prod_iff hq.prime).mp hdvd
  have hprime : x.Prime := by
    simp only [List.mem_cons, List.not_mem_nil, or_false] at hx
    rcases hx with rfl | rfl | rfl | rfl | rfl | rfl | rfl | rfl <;> norm_num
  obtain rfl := (Nat.prime_dvd_prime_iff_eq hq hprime).mp hqx
  simp only [List.mem_cons, List.not_mem_nil, or_false] at hx ⊢
  omega

theorem factor_pow_ne (q : Nat) (hq : q.Prime) (hdvd : q ∣ 2 ^ 31 - 1 - 1) :
    (16807 : ZMod (2 ^ 31 - 1)) ^ ((2 ^ 31 - 1 - 1) / q) ≠ 1 := by
  have hmem := prime_dvd_period q hq hdvd
  simp only [List.mem_cons, List.not_mem_nil, or_false] at hmem
  rcases hmem with rfl | rfl | rfl | rfl | rfl | rfl | rfl
  all_goals
    norm_num
    reduce_mod_char
    decide

-- The factor is a primitive root of the modulus, which is prime for this reason.
theorem modulus_prime : Nat.Prime (2 ^ 31 - 1) :=
  lucas_primality _ 16807 factor_pow_period factor_pow_ne

theorem factor_primitive : orderOf ((16807 : Nat) : ZMod (2 ^ 31 - 1)) = 2 ^ 31 - 1 - 1 :=
  orderOf_eq_of_pow_and_pow_div_prime (by norm_num) factor_pow_period factor_pow_ne

-- On how many of the calls of a period something holds of the generator.
def overPeriod (r : Random) (p : Random → Prop) [DecidablePred p] : Nat :=
  ((Finset.range period).filter fun k => p (r.after k)).card

theorem eq_of_seed {r r' : Random} (h : r.seed = r'.seed) : r = r' := by
  cases r
  exact congrArg Random.mk h

theorem drawn_eq (r : Random) (k : Nat) : (r.after k).next.1 = (r.next.2.after k).seed := by
  have hone : r.next.2 = r.after 1 := rfl
  rw [hone, after_add, Nat.add_comm, after_succ]
  rfl

section

variable {r : Random} (hr : r.InRange)
include hr

theorem next_inRange : r.next.2.InRange := (r.after_eq hr 1).1

theorem after_period : r.after period = r := by
  have : Fact (Nat.Prime (2 ^ 31 - 1)) := ⟨modulus_prime⟩
  obtain ⟨hpos, hle⟩ := hr
  have hseed := next_multiplies.iterate_period factor_primitive r hpos (by omega)
  have heq : (r.after period).seed = r.seed := by
    rw [period_eq]
    exact BitVec.eq_of_toNat_eq hseed
  exact eq_of_seed heq

theorem drawn_once (v : Nat) (hv : 1 ≤ v) (hle : v ≤ period) :
    ∃! k, k < period ∧ (r.after k).next.1.toNat = v := by
  have : Fact (Nat.Prime (2 ^ 31 - 1)) := ⟨modulus_prime⟩
  obtain ⟨hpos, hle'⟩ := next_inRange hr
  have hhits := next_multiplies.iterate_hits factor_primitive r.next.2 hpos (by omega) v hv
    (Nat.lt_of_le_of_lt hle (by decide))
  simp only [drawn_eq]
  exact hhits

-- A condition on the number drawn holds as often as on the numbers of a period.
theorem overPeriod_eq (p : Random → Prop) [DecidablePred p] (q : Nat → Prop) [DecidablePred q]
    (hpq : ∀ r : Random, p r ↔ q r.next.1.toNat) :
    r.overPeriod p = ((Finset.Ico 1 (2 ^ 31 - 1)).filter q).card := by
  have : Fact (Nat.Prime (2 ^ 31 - 1)) := ⟨modulus_prime⟩
  obtain ⟨hpos, hle⟩ := next_inRange hr
  rw [← next_multiplies.card_period factor_primitive r.next.2 hpos (by omega) q, overPeriod,
    period_eq]
  refine congrArg Finset.card (Finset.filter_congr fun k _ => ?_)
  rw [hpq, drawn_eq]
  exact Iff.rfl

end

theorem uniform_eq_some (r : Random) (n : BitVec 32) (hn : n ≠ 0) (v : Nat) :
    (r.uniform n).map (fun o => o.1.toNat) = some v ↔ r.next.1.toNat % n.toNat = v := by
  rw [uniform, if_neg hn, Option.map_some, Option.some_inj, BitVec.toNat_umod]

theorem oneIn_eq_some (r : Random) (n : BitVec 32) (hn : n ≠ 0) :
    (r.oneIn n).map Prod.fst = some true ↔ r.next.1.toNat % n.toNat = 0 := by
  rw [oneIn, if_neg hn, Option.map_some, Option.some_inj, decide_eq_true_iff, ← BitVec.toNat_inj,
    BitVec.toNat_umod]
  rfl

-- Whatever the constructor is given, the generator returns every number between the two
-- absorbing seeds once in a period, and then starts over. So `Uniform` is even, and
-- `OneIn` says yes as often as it should.
theorem full_period (s : BitVec 32) :
    (new s).after period = new s ∧
      (∀ v, 1 ≤ v → v ≤ period → ∃! k, k < period ∧ ((new s).after k).next.1.toNat = v) ∧
      ∀ n : BitVec 32, n ≠ 0 →
        (∀ v < n.toNat,
          period / n.toNat ≤ (new s).overPeriod
            (fun r => (r.uniform n).map (fun o => o.1.toNat) = some v) ∧
          (new s).overPeriod (fun r => (r.uniform n).map (fun o => o.1.toNat) = some v) ≤
            period / n.toNat + 1) ∧
        (new s).overPeriod (fun r => (r.oneIn n).map Prod.fst = some true) =
          period / n.toNat := by
  have hr := new_inRange s
  refine ⟨after_period hr, drawn_once hr, fun n hn => ⟨fun v hv => ?_, ?_⟩⟩
  · obtain ⟨hleast, hmost, -⟩ := card_remainder (2 ^ 31 - 1) n.toNat v (by decide) hv
    rw [overPeriod_eq hr _ (fun x => x % n.toNat = v) fun r => r.uniform_eq_some n hn v]
    exact ⟨hleast, hmost⟩
  · have hpos : 0 < n.toNat := Nat.pos_of_ne_zero fun hzero => hn (BitVec.eq_of_toNat_eq hzero)
    obtain ⟨-, -, hexact⟩ := card_remainder (2 ^ 31 - 1) n.toNat 0 (by decide) hpos
    rw [overPeriod_eq hr _ (fun x => x % n.toNat = 0) fun r => r.oneIn_eq_some n hn]
    exact hexact rfl

-- A skip list raises the height of a node with one in four of the numbers.
theorem full_period_sample : (new 0xdeadbeef).overPeriod
    (fun r => (r.oneIn 4).map Prod.fst = some true) = 536870911 :=
  ((full_period 0xdeadbeef).2.2 4 (by decide)).2

end Mylldb.Random
