import AluVM.Integer
import Mathlib.Algebra.Ring.Int.Defs
import Mathlib.Data.Nat.Bitwise
import Mathlib.Tactic.SplitIfs

/-! # Integers and their bytes

An integer has a form of `size` bytes if it lies in the range of as many bits, and every byte string
is the form of one integer. Three things that are defined apart come to the same: the tests of a
width (`fits_unsigned`, `fits_signed`), its range, and packing, which takes digits off an integer and
looks at what is left (`digits_eq`, `isWhole_unsigned`, `isWhole_signed`). In two's complement an
integer and its form have the same residue: a negative one is moved up by the number of values
(`residue_of_neg`), and a form in the upper half is moved down again (`unpack`).

* `unpack_pack` and `pack_unpack`: packing and unpacking undo each other.
* `packed_iff_in_range`: packing succeeds exactly for the integers in the range. -/

namespace AluVM

/-! ### Natural numbers -/

namespace Bytes

theorem toNat_lt : ∀ bs : Bytes, toNat bs < 2 ^ (8 * bs.length)
  | [] => by decide
  | b :: bs => by
    have hb : b.toNat < 256 := b.toNat_lt
    have ih := toNat_lt bs
    rw [toNat, List.length_cons, Nat.mul_add, Nat.pow_add]
    omega

theorem ofNat_toNat : ∀ bs : Bytes, ofNat bs.length (toNat bs) = bs
  | [] => rfl
  | b :: bs => by
    have hb : b.toNat < 256 := b.toNat_lt
    have hlow : (b.toNat + 256 * toNat bs) % 256 = b.toNat := by omega
    have hhigh : (b.toNat + 256 * toNat bs) / 256 = toNat bs := by omega
    rw [toNat, List.length_cons, ofNat, hlow, hhigh, ofNat_toNat bs, UInt8.ofNat_toNat]

theorem ofNat_toNat_of_length {bs : Bytes} {size : Nat} (h : bs.length = size) :
    ofNat size (toNat bs) = bs := by
  rw [← h, ofNat_toNat]

theorem toNat_ofNat : ∀ {size n : Nat}, n < 2 ^ (8 * size) → toNat (ofNat size n) = n
  | 0, n, h => by
    have hn : n = 0 := by simpa using h
    rw [hn]
    rfl
  | size + 1, n, h => by
    rw [Nat.mul_add, Nat.pow_add] at h
    have hbyte : (UInt8.ofNat (n % 256)).toNat = n % 256 :=
      UInt8.toNat_ofNat_of_lt' (Nat.mod_lt n (by decide))
    rw [ofNat, toNat, hbyte, toNat_ofNat (by omega)]
    omega

end Bytes

namespace Integer

/-! ### Ranges -/

theorem modulus_pos (bits : Nat) : 0 < modulus bits := Nat.two_pow_pos bits

theorem natCast_modulus (bits : Nat) : (modulus bits : Int) = 2 ^ bits := Int.natCast_pow 2 bits

/-- Half of the values have the highest bit. -/
theorem modulus_eq_double {bits : Nat} (h : bits ≠ 0) : modulus bits = 2 * modulus (bits - 1) := by
  obtain ⟨n, rfl⟩ := Nat.exists_eq_succ_of_ne_zero h
  exact Nat.pow_succ'

/-- One more byte has 256 times as many values. -/
theorem modulus_byte (size : Nat) : modulus (8 * (size + 1)) = 256 * modulus (8 * size) := by
  rw [modulus, modulus, Nat.mul_add, Nat.pow_eq, Nat.pow_add, Nat.mul_comm]
  rfl

theorem fits_unsigned {v : Int} {bits : Nat} :
    fits v bits false = true ↔ 0 ≤ v ∧ v < modulus bits := by
  simp only [fits, isUnsigned, Bool.false_eq_true, if_false, Bool.and_eq_true, decide_eq_true_eq]

theorem fits_signed {v : Int} {bits : Nat} :
    fits v bits true = true ↔ -(modulus (bits - 1) : Int) ≤ v ∧ v < modulus (bits - 1) := by
  simp only [fits, isSigned, if_true, Bool.and_eq_true, decide_eq_true_eq]
  omega

/-- The tests of a width say that an integer lies in its range. -/
theorem fits_iff_bounds {v : Int} {bits : Nat} {signed : Bool} :
    fits v bits signed = true ↔ (bounds bits signed).1 ≤ v ∧ v ≤ (bounds bits signed).2 := by
  cases signed with
  | false =>
    rw [fits_unsigned]
    simp only [bounds, Bool.false_eq_true, if_false]
    omega
  | true =>
    rw [fits_signed]
    simp only [bounds, if_true]
    omega

theorem width_natCast {n : Nat} (h : n ≠ 0) : width n = .ok n := by
  simp [width, Nat.pos_of_ne_zero h]

/-! ### Residues -/

theorem residue_lt (v : Int) (bits : Nat) : residue v bits < modulus bits := by
  have hpos := modulus_pos bits
  have hlt := Int.emod_lt_of_pos v (by omega : (0 : Int) < modulus bits)
  unfold residue
  omega

theorem residue_of_nonneg {v : Int} {bits : Nat} (h : 0 ≤ v) (hlt : v < modulus bits) :
    residue v bits = v.toNat := by
  rw [residue, Int.emod_eq_of_lt h hlt]

/-- A negative integer is moved up by the number of values. -/
theorem residue_of_neg {v : Int} {bits : Nat} (h : v < 0) (hle : -(modulus bits : Int) ≤ v) :
    residue v bits = (v + modulus bits).toNat := by
  rw [residue, ← Int.add_emod_right, Int.emod_eq_of_lt (by omega) (by omega)]

/-- An integer is what its residue leaves out, and its residue. -/
theorem eq_ediv_add_residue (v : Int) (bits : Nat) :
    v = modulus bits * (v / modulus bits) + residue v bits := by
  have hpos := modulus_pos bits
  have hnonneg := Int.emod_nonneg v (by omega : (modulus bits : Int) ≠ 0)
  have hsplit := Int.mul_ediv_add_emod v (modulus bits)
  unfold residue
  omega

/-! ### Digits -/

theorem ediv_modulus_byte (v : Int) (size : Nat) :
    v / modulus (8 * (size + 1)) = v / 256 / modulus (8 * size) := by
  rw [modulus_byte, Int.natCast_mul]
  exact (Int.ediv_ediv_of_nonneg (by decide)).symm

/-- Taking a digit off an integer takes it off its residue. -/
theorem residue_succ (v : Int) (size : Nat) : residue v (8 * (size + 1)) =
    (v % 256).toNat + 256 * residue (v / 256) (8 * size) := by
  have hwhole := eq_ediv_add_residue v (8 * (size + 1))
  have hhigh := eq_ediv_add_residue (v / 256) (8 * size)
  have hmodulus : (modulus (8 * (size + 1)) : Int) = 256 * modulus (8 * size) :=
    congrArg Nat.cast (modulus_byte size)
  rw [ediv_modulus_byte, hmodulus, Int.mul_assoc] at hwhole
  omega

/-- **The digits of an integer are those of its residue**, and the rest is what the residue leaves
out. -/
theorem digits_eq (size : Nat) (v : Int) : digits size v =
    (Bytes.ofNat size (residue v (8 * size)), v / modulus (8 * size)) := by
  induction size generalizing v with
  | zero => simp [digits, Bytes.ofNat, modulus]
  | succ size ih =>
    have hlow : residue v (8 * (size + 1)) % 256 = (v % 256).toNat := by
      rw [residue_succ]
      omega
    have hhigh : residue v (8 * (size + 1)) / 256 = residue (v / 256) (8 * size) := by
      rw [residue_succ]
      omega
    rw [digits, ih, Bytes.ofNat, hlow, hhigh, ediv_modulus_byte]

/-- The last digit of a number is what the others leave of it. -/
theorem getLast?_ofNat (size n : Nat) : (Bytes.ofNat (size + 1) n).getLast? =
    some (UInt8.ofNat (n / modulus (8 * size) % 256)) := by
  induction size generalizing n with
  | zero => simp [Bytes.ofNat, modulus]
  | succ size ih =>
    have hne : Bytes.ofNat (size + 1) (n / 256) ≠ [] := List.cons_ne_nil _ _
    rw [Bytes.ofNat, List.getLast?_cons_of_ne_nil hne, ih, Nat.div_div_eq_div_mul, modulus_byte]

/-- Nothing is left of a natural number that its digits can hold. -/
theorem isWhole_unsigned {v : Int} {bits : Nat} {ds : Bytes} :
    isWhole false ds (v / modulus bits) = true ↔ 0 ≤ v ∧ v < modulus bits := by
  have hpos := modulus_pos bits
  have hlt := residue_lt v bits
  have hsplit := eq_ediv_add_residue v bits
  simp only [isWhole, Bool.false_eq_true, if_false, decide_eq_true_eq]
  constructor
  · intro hzero
    rw [hzero] at hsplit
    omega
  · rintro ⟨hlow, hhigh⟩
    exact Int.ediv_eq_zero_of_lt hlow hhigh

/-- **What is left of an integer is its sign** if and only if its digits can hold it with a sign: the
highest bit is set in the upper half of the residues. -/
theorem isWhole_signed {v : Int} {size : Nat} :
    isWhole true (Bytes.ofNat (size + 1) (residue v (8 * (size + 1))))
      (v / modulus (8 * (size + 1))) = true ↔
    -(modulus (8 * (size + 1) - 1) : Int) ≤ v ∧ v < modulus (8 * (size + 1) - 1) := by
  have hpos := modulus_pos (8 * size)
  have hlt := residue_lt v (8 * (size + 1))
  have hsplit := eq_ediv_add_residue v (8 * (size + 1))
  have hdouble := modulus_eq_double (by omega : 8 * (size + 1) ≠ 0)
  have hmodulus := modulus_byte size
  have hbyte : residue v (8 * (size + 1)) / modulus (8 * size) < 256 :=
    Nat.div_lt_of_lt_mul (by omega)
  have htop : 128 ≤ residue v (8 * (size + 1)) / modulus (8 * size) ↔
      modulus (8 * (size + 1) - 1) ≤ residue v (8 * (size + 1)) := by
    rw [Nat.le_div_iff_mul_le hpos]
    omega
  rw [isWhole, getLast?_ofNat, Nat.mod_eq_of_lt hbyte]
  simp only [if_true, decide_eq_true_eq, UInt8.toNat_ofNat_of_lt' hbyte, htop]
  split_ifs with hupper
  · constructor
    · intro hrest
      rw [hrest] at hsplit
      omega
    · rintro ⟨hlow, hhigh⟩
      have hneg : v < 0 := by
        by_contra hnonneg
        rw [residue_of_nonneg (by omega) (by omega)] at hupper
        omega
      exact Int.ediv_eq_neg_one_of_neg_of_le hneg (by omega)
  · constructor
    · intro hrest
      rw [hrest] at hsplit
      omega
    · rintro ⟨hlow, hhigh⟩
      have hnonneg : 0 ≤ v := by
        by_contra hneg
        rw [residue_of_neg (by omega) (by omega)] at hupper
        omega
      exact Int.ediv_eq_zero_of_lt hnonneg (by omega)

/-! ### Packing and unpacking -/

/-- What is packed has the size that was asked for. -/
theorem length_of_pack {v : Int} {size : Nat} {signed : Bool} {bytes : Bytes}
    (h : pack v size signed = .ok bytes) : bytes.length = size := by
  unfold pack at h
  rw [digits_eq] at h
  dsimp only at h
  split_ifs at h
  rw [← Except.ok.inj h]
  exact Bytes.length_ofNat _ _

section Pack
variable {v : Int} {size : Nat} {signed : Bool} (hsize : size ≠ 0)
include hsize

/-- The digits of an integer are all of it if and only if it passes the test of their width. -/
theorem isWhole_iff_fits : isWhole signed (Bytes.ofNat size (residue v (8 * size)))
    (v / modulus (8 * size)) = true ↔ fits v (8 * size) signed = true := by
  obtain ⟨size, rfl⟩ := Nat.exists_eq_succ_of_ne_zero hsize
  cases signed with
  | false => rw [isWhole_unsigned, fits_unsigned]
  | true => rw [isWhole_signed, fits_signed]

theorem pack_eq_ok_iff {bytes : Bytes} : pack v size signed = .ok bytes ↔
    fits v (8 * size) signed = true ∧ bytes = Bytes.ofNat size (residue v (8 * size)) := by
  unfold pack
  rw [digits_eq]
  dsimp only
  rw [← isWhole_iff_fits hsize]
  split_ifs with hwhole
  · exact ⟨fun h => ⟨hwhole, (Except.ok.inj h).symm⟩, fun h => congrArg Except.ok h.2.symm⟩
  · simp [hwhole]

/-- An integer in the range of some bytes is packed into as many bytes. -/
theorem pack_of_fits (h : fits v (8 * size) signed = true) :
    pack v size signed = .ok (Bytes.ofNat size (residue v (8 * size))) :=
  (pack_eq_ok_iff hsize).mpr ⟨h, rfl⟩

/-- **What was packed is unpacked again.** -/
theorem unpack_pack {bytes : Bytes} (h : pack v size signed = .ok bytes) :
    unpack bytes signed = v := by
  obtain ⟨hfits, rfl⟩ := (pack_eq_ok_iff hsize).mp h
  have hvalue : (Bytes.ofNat size (residue v (8 * size))).toNat = residue v (8 * size) :=
    Bytes.toNat_ofNat (residue_lt v _)
  have hdouble := modulus_eq_double (by omega : 8 * size ≠ 0)
  simp only [unpack, hvalue, Bytes.length_ofNat]
  cases signed with
  | false =>
    obtain ⟨hlow, hhigh⟩ := fits_unsigned.mp hfits
    rw [residue_of_nonneg hlow hhigh, Bool.false_and, if_neg Bool.false_ne_true,
      Int.toNat_of_nonneg hlow]
  | true =>
    obtain ⟨hlow, hhigh⟩ := fits_signed.mp hfits
    simp only [Bool.true_and, decide_eq_true_eq]
    by_cases hneg : v < 0
    · rw [residue_of_neg hneg (by omega), if_pos (by omega)]
      omega
    · rw [residue_of_nonneg (by omega) (by omega), if_neg (by omega)]
      omega

end Pack

/-- What is unpacked lies in the range of its bytes and has their number as its residue. -/
theorem unpack_spec {raw : Bytes} (hraw : raw ≠ []) (signed : Bool) :
    fits (unpack raw signed) (8 * raw.length) signed = true ∧
      residue (unpack raw signed) (8 * raw.length) = raw.toNat := by
  have hlt : raw.toNat < modulus (8 * raw.length) := raw.toNat_lt
  have hlength : raw.length ≠ 0 := mt List.length_eq_zero_iff.mp hraw
  have hdouble := modulus_eq_double (by omega : 8 * raw.length ≠ 0)
  have hplain : residue (raw.toNat : Int) (8 * raw.length) = raw.toNat := by
    rw [residue_of_nonneg (by omega) (by omega), Int.toNat_natCast]
  cases signed with
  | false =>
    simp only [unpack, Bool.false_and, Bool.false_eq_true, if_false]
    exact ⟨fits_unsigned.mpr ⟨by omega, by omega⟩, hplain⟩
  | true =>
    simp only [unpack, Bool.true_and, decide_eq_true_eq]
    split_ifs with hupper
    · refine ⟨fits_signed.mpr ⟨by omega, by omega⟩, ?_⟩
      rw [residue_of_neg (by omega) (by omega)]
      omega
    · exact ⟨fits_signed.mpr ⟨by omega, by omega⟩, hplain⟩

/-- **What was unpacked is packed again.** -/
theorem pack_unpack {raw : Bytes} (hraw : raw ≠ []) (signed : Bool) :
    pack (unpack raw signed) raw.length signed = .ok raw := by
  obtain ⟨hfits, hresidue⟩ := unpack_spec hraw signed
  rw [pack_of_fits (mt List.length_eq_zero_iff.mp hraw) hfits, hresidue, Bytes.ofNat_toNat]

/-- A size below `2 ^ 63` is one of 64 bits. -/
theorem checkSize_natCast {size : Nat} (h : size < 2 ^ 63) : checkSize size = .ok size := by
  have hmod : modulus (64 - 1) = 2 ^ 63 := rfl
  have hfits : fits size 64 true = true := fits_signed.mpr ⟨by omega, by omega⟩
  simp [checkSize, hfits]

/-- **Packing, the test of a width and its range agree.** For every number of bytes, with or without a
sign: the range of their bits is the one of two's complement, an integer passes the test if and only
if it lies there, and it is packed if and only if it passes the test. What is packed has the number
of bytes and is unpacked to the integer, and every byte string that is not empty is packed again
from what is unpacked of it. A size that is given as an integer is treated the same as long as it is
one of 64 bits. -/
theorem packed_iff_in_range (v : Int) {size : Nat} (hsize : 1 ≤ size) (signed : Bool) :
    (∃ low high : Int, range (8 * size) signed = .ok (low, high) ∧
      (low, high) = (if signed = true then (-2 ^ (8 * size - 1), 2 ^ (8 * size - 1) - 1)
        else (0, 2 ^ (8 * size) - 1)) ∧
      (fitsWidth v (8 * size) signed = .ok true ↔ low ≤ v ∧ v ≤ high)) ∧
      ((∃ bytes, pack v size signed = .ok bytes) ↔ fitsWidth v (8 * size) signed = .ok true) ∧
      (∀ bytes, pack v size signed = .ok bytes →
        bytes.length = size ∧ unpack bytes signed = v) ∧
      (∀ raw : Bytes, raw ≠ [] → pack (unpack raw signed) raw.length signed = .ok raw) ∧
      (size < 2 ^ 63 → packSize v size signed = pack v size signed) := by
  have hsize' : size ≠ 0 := by omega
  have hwidth : width (8 * size) = .ok (8 * size) := width_natCast (by omega : 8 * size ≠ 0)
  have hfits : fitsWidth v (8 * size) signed = .ok (fits v (8 * size) signed) := by
    rw [fitsWidth, hwidth]
    rfl
  rw [hfits, Except.ok.injEq]
  refine ⟨⟨(bounds (8 * size) signed).1, (bounds (8 * size) signed).2, ?_, ?_, fits_iff_bounds⟩,
    ?_, ?_, ?_, ?_⟩
  · rw [range, hwidth]
    rfl
  · cases signed <;> simp [bounds, natCast_modulus]
  · simp [pack_eq_ok_iff hsize']
  · exact fun bytes h => ⟨length_of_pack h, unpack_pack hsize' h⟩
  · exact fun raw hraw => pack_unpack hraw signed
  · intro hlt
    rw [packSize, checkSize_natCast hlt]
    rfl

/-- The two ends of two bytes with a sign: the least integer is packed, one above the greatest one
is not. -/
theorem packed_at_the_ends : (1 ≤ 2 ∧ fitsWidth (-32768) 16 true = .ok true) ∧
    (∃ bytes, pack (-32768) 2 true = .ok bytes ∧ bytes.length = 2 ∧ unpack bytes true = -32768) ∧
      ([0, 128] ≠ ([] : Bytes) ∧ pack (unpack [0, 128] true) 2 true = .ok [0, 128]) ∧
      (2 < 2 ^ 63 ∧ packSize (-32768) 2 true = pack (-32768) 2 true) ∧
      fitsWidth 32768 16 true = .ok false ∧ ¬ ∃ bytes, pack 32768 2 true = .ok bytes := by
  have hleast : fitsWidth (-32768) 16 true = .ok true := rfl
  have habove : fitsWidth 32768 16 true = .ok false := rfl
  obtain ⟨-, hpack, hread, hraw, hsize⟩ := packed_iff_in_range (-32768) (by decide : 1 ≤ 2) true
  obtain ⟨-, hpack', -⟩ := packed_iff_in_range 32768 (by decide : 1 ≤ 2) true
  obtain ⟨bytes, hbytes⟩ := hpack.mpr hleast
  refine ⟨⟨by decide, hleast⟩, ⟨bytes, hbytes, hread bytes hbytes⟩,
    ⟨by decide, hraw [0, 128] (by decide)⟩, ⟨by decide, hsize (by decide)⟩, habove, fun h => ?_⟩
  cases habove.symm.trans (hpack'.mp h)

end Integer

end AluVM
