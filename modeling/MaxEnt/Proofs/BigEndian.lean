import Mathlib.Data.Nat.ModEq
import Mathlib.Tactic.Ring
import MaxEnt.BigEndian

namespace MaxEnt.BigEndian

theorem ofNat_succ (count n : Nat) :
    ofNat (count + 1) n = .ofNat (n / 256 ^ count % 256) :: ofNat count n := by
  simp [ofNat, List.range_succ]

theorem length_ofNat (count n : Nat) : (ofNat count n).length = count := by
  simp [ofNat]

theorem foldl_ofNat (count n high : Nat) :
    (ofNat count n).foldl (fun n b => 256 * n + b.toNat) high =
      high * 256 ^ count + n % 256 ^ count := by
  induction count generalizing high with
  | zero => simp [ofNat, Nat.mod_one]
  | succ count ih =>
    have hb : (UInt8.ofNat (n / 256 ^ count % 256)).toNat = n / 256 ^ count % 256 := by simp
    rw [ofNat_succ, List.foldl_cons, ih, hb, pow_succ, Nat.mod_mul]
    ring

theorem toNat_ofNat (count n : Nat) : toNat (ofNat count n) = n % 256 ^ count := by
  rw [toNat, foldl_ofNat, Nat.zero_mul, Nat.zero_add]

end MaxEnt.BigEndian
