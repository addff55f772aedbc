import AluVM.Proofs.Numerals
import Mathlib.Algebra.BigOperators.Fin
import Mathlib.Tactic.Ring

/-! # Numbers by the places of their digits

A number denotes the sum of its digits, each times a power of the base that its place gives
(`positional`), with the factor of its sign. The reader multiplies and adds from the left
(`ofDigits_eq_positional`). Which case the letters have and where underscores stand does not matter:
a number without underscores and in lower case (`plain`) has the same parts (`Parts.plain`).

`read_number_eq` says both about everything that the grammar takes for a number. -/

namespace AluVM.Numeral

open Syntax Syntax.Lexeme

/-! ### Digits and their places -/

/-- The sum of digits, the most significant first, each times the power of the base for its place. -/
def positional (base : Nat) (ds : List Nat) : Nat :=
  ∑ i : Fin ds.length, ds[i] * base ^ (ds.length - 1 - i)

theorem positional_cons (base d : Nat) (ds : List Nat) :
    positional base (d :: ds) = d * base ^ ds.length + positional base ds := by
  show ∑ i : Fin (ds.length + 1), (d :: ds)[i] * base ^ (ds.length - i) = _
  rw [Fin.sum_univ_succ, positional]
  congr 1
  refine Finset.sum_congr rfl fun i _ => ?_
  have hplace : ds.length - (i.succ : Nat) = ds.length - 1 - i := by
    rw [Fin.val_succ]
    omega
  rw [hplace]
  rfl

/-- **Multiplying and adding from the left gives every digit its power of the base.** -/
theorem ofDigits_eq_positional (base : Nat) (ds : List Nat) :
    ofDigits base ds = positional base ds := by
  have hfold : ∀ n, ds.foldl (fun n d => base * n + d) n = n * base ^ ds.length + positional base ds
      := by
    induction ds with
    | nil => simp [positional]
    | cons d ds ih =>
      intro n
      rw [List.foldl_cons, ih, positional_cons, List.length_cons, pow_succ]
      ring
  rw [ofDigits, hfold, Nat.zero_mul, Nat.zero_add]

/-! ### Underscores and letter case -/

/-- A text without underscores and in lower case. -/
def plain (w : List Char) : List Char := (w.filter (· ≠ '_')).map Char.toLower

theorem plain_append (v w : List Char) : plain (v ++ w) = plain v ++ plain w := by
  simp [plain]

theorem SignOf.plain_eq {s : List Char} {factor : Int} (h : SignOf s factor) : plain s = s := by
  cases h <;> rfl

/-- A base is announced in lower case as well. -/
theorem Announces.plain {mark : List Char} {base : Nat} {isDigit : Char → Bool}
    (h : Announces mark base isDigit) : Announces (plain mark) base isDigit := by
  cases h with
  | decimal => exact .decimal
  | marked hmarks hm =>
    cases hmarks <;> simp only [Bool.or_eq_true, decide_eq_true_eq] at hm <;>
      rcases hm with rfl | rfl
    · exact .marked .hexadecimal rfl
    · exact .marked .hexadecimal rfl
    · exact .marked .binary rfl
    · exact .marked .binary rfl
    · exact .marked .octal rfl
    · exact .marked .octal rfl

theorem Announces.of {mark : List Char} {base : Nat} {isDigit : Char → Bool}
    (h : Announces mark base isDigit) : Of base isDigit := by
  cases h with
  | marked hmarks => exact hmarks.of
  | decimal => exact of_decimal

/-- A digit is one of its base in lower case as well. -/
theorem Announces.isDigit_toLower {mark : List Char} {base : Nat} {isDigit : Char → Bool}
    (h : Announces mark base isDigit) {c : Char} (hc : isDigit c = true) :
    isDigit c.toLower = true := by
  have hhex := h.of.hex hc
  revert hc
  refine forall_isHexDigit hhex ?_
  cases h with
  | marked hmarks => cases hmarks <;> decide +kernel
  | decimal => decide +kernel

/-- Digits of either case have one value. -/
theorem digitValue_toLower {c : Char} (h : isHexDigit c = true) :
    digitValue c.toLower = digitValue c := by
  refine forall_isHexDigit h ?_
  decide +kernel

theorem mem_digits_of_all {isDigit : Char → Bool} {d : Char} {ds : List Char}
    (hd : isDigit d = true) (hds : ∀ c ∈ ds, isDigit c = true) : d :: ds ∈ digits isDigit := by
  rw [digits_eq]
  refine mem_one_mul.mpr ⟨d, ds, hd, ?_, rfl⟩
  induction ds with
  | nil => exact mem_digitsRest.mpr (.inl rfl)
  | cons c cs ih =>
    obtain ⟨hc, hcs⟩ := List.forall_mem_cons.mp hds
    exact mem_digitsRest.mpr (.inr ⟨c, cs, hc, ih hcs, .inl rfl⟩)

/-- **A number without underscores and in lower case has the same sign, base and digits.** -/
theorem Parts.plain {w run : List Char} {factor : Int} {base : Nat}
    (h : Parts w factor base run) : Parts (plain w) factor base (plain run) ∧
      ((Numeral.plain run).filter (· ≠ '_')).map digitValue =
        (run.filter (· ≠ '_')).map digitValue := by
  obtain ⟨hs, hmark, hrun⟩ := h
  rename_i s mark isDigit
  have hdigit : ∀ c ∈ run.filter (· ≠ '_'), isDigit c = true := by
    intro c hc
    obtain ⟨hc, hne⟩ := List.mem_filter.mp hc
    exact (digits_all hrun c hc).resolve_right (by simpa using hne)
  constructor
  · have hplain : Numeral.plain run ∈ digits isDigit := by
      rw [digits_eq] at hrun
      obtain ⟨d, v, hd, -, rfl⟩ := mem_one_mul.mp hrun
      have hne : d ≠ '_' := (isHexDigit_spec (hmark.of.hex hd)).2.2
      have hcons : Numeral.plain (d :: v) = d.toLower :: Numeral.plain v := by
        simp [Numeral.plain, hne]
      rw [hcons]
      refine mem_digits_of_all (hmark.isDigit_toLower hd) fun c hc => ?_
      obtain ⟨b, hb, rfl⟩ := List.mem_map.mp hc
      exact hmark.isDigit_toLower (hdigit b (((List.sublist_cons_self d v).filter _).subset hb))
    rw [plain_append, plain_append, hs.plain_eq]
    exact .intro hs hmark.plain hplain
  · have hkeep : (Numeral.plain run).filter (· ≠ '_') = Numeral.plain run := by
      refine List.filter_eq_self.mpr fun c hc => ?_
      obtain ⟨b, hb, rfl⟩ := List.mem_map.mp hc
      simpa using hmark.of.lower_ne (hdigit b hb)
    rw [hkeep, Numeral.plain, List.map_map]
    refine List.map_congr_left fun c hc => ?_
    exact digitValue_toLower (hmark.of.hex (hdigit c hc))

/-! ### Reading -/

/-- How a number is read, from its parts. -/
theorem Parts.read_eq {w run : List Char} {factor : Int} {base : Nat}
    (h : Parts w factor base run)
    (hmax : base = 10 → (run.filter (· ≠ '_')).length ≤ maxDigits) :
    read (String.ofList w) =
      .ok (factor * positional base ((run.filter (· ≠ '_')).map digitValue)) := by
  rw [(h.denotes hmax).read_eq, valueIn, ofDigits_eq_positional]

/-- **A number is read as its sign times the positional value of its digits.** Every text that the
grammar takes for a number, with no more decimal digits than are read, has a sign, a base and digits;
it is read as the factor of the sign times the sum of the digits, each times its power of the base.
Without underscores and in lower case it is read as the same integer. -/
theorem read_number_eq {w : List Char} (h : w ∈ Lexeme.number) (hshort : Short w) :
    (∃ factor base run, Parts w factor base run) ∧
      (∀ factor base run, Parts w factor base run → read (String.ofList w) =
        .ok (factor * positional base ((run.filter (· ≠ '_')).map digitValue))) ∧
      read (String.ofList (plain w)) = read (String.ofList w) := by
  refine ⟨exists_parts h, fun factor base run hparts => ?_, ?_⟩
  · exact hparts.read_eq (hparts.length_le hshort)
  · obtain ⟨factor, base, run, hparts⟩ := exists_parts h
    have hmax := hparts.length_le hshort
    obtain ⟨hplain, hdigits⟩ := hparts.plain
    have hlength := congrArg List.length hdigits
    rw [List.length_map, List.length_map] at hlength
    rw [hparts.read_eq hmax, hplain.read_eq (hlength ▸ hmax), hdigits]

/-- The digits of this number begin like a binary one. -/
theorem read_number_eq_of_hexadecimal : ∃ w : List Char, String.ofList w = "-0X0b_Ff" ∧
    w ∈ Lexeme.number ∧ Short w ∧ Parts w (-1) 16 ['0', 'b', '_', 'F', 'f'] ∧
      read "-0X0b_Ff" = .ok (-3071) ∧ read "-0x0bff" = .ok (-3071) := by
  have hrun : ['0', 'b', '_', 'F', 'f'] ∈ digits isHexDigit := by
    rw [digits_eq]
    have hrest : ['_', 'F', 'f'] ∈ digitsRest isHexDigit :=
      mem_digitsRest.mpr (.inr ⟨'F', ['f'], rfl,
        mem_digitsRest.mpr (.inr ⟨'f', [], rfl, mem_digitsRest.mpr (.inl rfl), .inl rfl⟩), .inr rfl⟩)
    exact mem_one_mul.mpr ⟨'0', _, rfl, mem_digitsRest.mpr (.inr ⟨'b', _, rfl, hrest, .inl rfl⟩), rfl⟩
  have hparts : Parts ['-', '0', 'X', '0', 'b', '_', 'F', 'f'] (-1) 16 ['0', 'b', '_', 'F', 'f'] :=
    .intro .minus (.marked .hexadecimal rfl) hrun
  have hnumber : ['-', '0', 'X', '0', 'b', '_', 'F', 'f'] ∈ Lexeme.number :=
    Language.mem_mul.mpr ⟨['-'], .inr ⟨'-', rfl, rfl⟩, _,
      .inl (.inl (.inl (mem_marked.mpr ⟨'X', _, rfl, hrun, rfl⟩))), rfl⟩
  have hshort : Short ['-', '0', 'X', '0', 'b', '_', 'F', 'f'] := fun _ =>
    (List.length_filter_le _ _).trans (by decide)
  obtain ⟨-, hread, hplain⟩ := read_number_eq hnumber hshort
  have hvalue : read "-0X0b_Ff" = .ok (-3071) := hread _ _ _ hparts
  exact ⟨_, rfl, hnumber, hshort, hparts, hvalue, hplain.trans hvalue⟩

end AluVM.Numeral
