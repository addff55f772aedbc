import AluVM.Proofs.Lexemes
import AluVM.Proofs.WellFormed

/-! # The values of numbers

What the text of a number denotes, said by its shape (`Denotes`): a sign, a mark of the base, and
digits whose value in the base counts, without the underscores between them. The reader, which
drops blanks, changes letters to lower case, splits off signs and marks and checks every digit
once more, comes to the same integer (`Denotes.read_eq`). Every number has such parts
(`exists_parts`), and only decimal ones with too many digits denote nothing (`exists_denotes`). -/

namespace AluVM.Numeral

open Syntax Syntax.Lexeme

/-! ### Digits -/

/-- The value of a hexadecimal digit in either case. -/
def digitValue (c : Char) : Nat := (Bytes.hexValue? c).getD 0

/-- The digits of a class are those of a base, and none is the letter that marks the base. -/
structure Of (base : Nat) (isDigit : Char → Bool) : Prop where
  hex {c : Char} (h : isDigit c = true) : isHexDigit c = true
  value {c : Char} (h : isDigit c = true) : digitValue c < base
  mark {c : Char} (h : isDigit c = true) : some c.toLower ≠ markOf base

theorem of_hexadecimal : Of 16 isHexDigit where
  hex h := h
  value h := forall_isHexDigit h (by decide +kernel)
  mark h := forall_isHexDigit h (by decide +kernel)

theorem of_binary : Of 2 isBinaryDigit := by
  have hcases : ∀ {c : Char}, isBinaryDigit c = true → c = '0' ∨ c = '1' := by
    intro c h
    simpa [isBinaryDigit] using h
  refine ⟨fun h => ?_, fun h => ?_, fun h => ?_⟩
  all_goals rcases hcases h with rfl | rfl <;> decide

theorem of_octal : Of 8 isOctalDigit := by
  have hhex : ∀ {c : Char}, isOctalDigit c = true → isHexDigit c = true := by
    intro c h
    simp only [isOctalDigit, isHexDigit, Char.isDigit, Bool.or_eq_true, Bool.and_eq_true,
      decide_eq_true_eq, Char.le_def, ge_iff_le, UInt32.le_iff_toNat_le] at h ⊢
    have h7 : '7'.val.toNat = 55 := rfl
    have h9 : '9'.val.toNat = 57 := rfl
    have h0 : '0'.val.toNat = 48 := rfl
    omega
  have hread : ∀ {c : Char}, isHexDigit c = true → isOctalDigit c = true →
      digitValue c < 8 ∧ some c.toLower ≠ markOf 8 := by
    intro c h
    refine forall_isHexDigit h ?_
    decide +kernel
  exact ⟨hhex, fun h => (hread (hhex h) h).1, fun h => (hread (hhex h) h).2⟩

theorem of_decimal : Of 10 Char.isDigit := by
  have hhex : ∀ {c : Char}, c.isDigit = true → isHexDigit c = true := by
    intro c h
    simp [isHexDigit, h]
  have hread : ∀ {c : Char}, isHexDigit c = true → c.isDigit = true → digitValue c < 10 := by
    intro c h
    refine forall_isHexDigit h ?_
    decide +kernel
  exact ⟨hhex, fun h => hread (hhex h) h, fun _ => Option.some_ne_none _⟩

/-- How a hexadecimal digit is read. -/
theorem hexDigit_read {c : Char} (h : isHexDigit c = true) :
    digit? c.toLower = some (digitValue c) ∧ isMargin c.toLower = false ∧
      Text.isBlank c = false ∧ c.toLower ≠ '-' ∧ c.toLower ≠ '+' ∧ c.toLower ≠ '_' := by
  refine forall_isHexDigit h ?_
  decide +kernel

theorem trim_eq_self {drop : Char → Bool} {cs : List Char} (h : ∀ c ∈ cs, drop c = false) :
    trim drop cs = cs := by
  have hdrop : ∀ ds : List Char, (∀ c ∈ ds, drop c = false) → ds.dropWhile drop = ds := by
    intro ds hds
    rcases ds with _ | ⟨d, ds⟩
    · rfl
    · exact List.dropWhile_cons_of_neg (by simp [hds d List.mem_cons_self])
  rw [trim, hdrop cs h, hdrop cs.reverse (by simpa using h), List.reverse_reverse]

theorem readIn_unsigned {base : Nat} {cs : List Char} {ds : List Nat}
    (htrim : trim isMargin cs = cs) (hsign : ∀ c v, cs = c :: v → c ≠ '-' ∧ c ≠ '+')
    (hmark : dropMark base cs = cs) (hdigits : digits? base cs = some ds) : readIn base cs =
      if base = 10 ∧ maxDigits < ds.length then .error .overlong
      else .ok (ofDigits base ds : Int) := by
  unfold readIn
  rw [htrim]
  rcases cs with _ | ⟨c, cs⟩
  · simp [hmark, hdigits, joinDigits_reverse]
  · obtain ⟨hminus, hplus⟩ := hsign c cs rfl
    simp [hminus, hplus, hmark, hdigits, joinDigits_reverse]

section Digits
variable {base : Nat} {isDigit : Char → Bool} (h : Of base isDigit) {run : List Char}
  (hrun : run ∈ digits isDigit)
include h

theorem Of.lower_ne {c : Char} (hc : isDigit c = true) : c.toLower ≠ '_' :=
  (hexDigit_read (h.hex hc)).2.2.2.2.2

/-- Underscores stand only between digits. -/
theorem Of.separated_rest {v : List Char} (hv : v ∈ digitsRest isDigit) {previous : Char}
    (hprevious : previous ≠ '_') : separated previous (v.map Char.toLower) = true := by
  obtain ⟨parts, rfl, hparts⟩ := Language.mem_kstar.mp hv
  clear hv
  induction parts generalizing previous with
  | nil => simpa [separated] using hprevious
  | cons part parts ih =>
    obtain ⟨hpart, hrest⟩ := List.forall_mem_cons.mp hparts
    rcases hpart with ⟨d, hd, rfl⟩ | hunder
    · simpa [separated, hprevious] using ih (h.lower_ne hd) hrest
    · obtain ⟨_, ⟨d, hd, rfl⟩, rfl⟩ := mem_fixed_mul.mp hunder
      have hlower : '_'.toLower = '_' := rfl
      simpa [separated, hprevious, hlower, h.lower_ne hd] using ih (h.lower_ne hd) hrest

include hrun

theorem Of.lowerChars : Text.lowerChars run = run.map Char.toLower := by
  rw [Text.lowerChars, List.map_eq_flatMap]
  refine List.flatMap_congr fun c hc => ?_
  rcases digits_all hrun c hc with hd | rfl
  · exact (isHexDigit_spec (h.hex hd)).1
  · rfl

theorem Of.digits?_eq : digits? base (run.map Char.toLower) =
    some ((run.filter (· ≠ '_')).map digitValue) := by
  have hlower : ∀ c ∈ run, decide (c.toLower ≠ '_') = decide (c ≠ '_') := by
    intro c hc
    rcases digits_all hrun c hc with hd | rfl
    · simp [h.lower_ne hd, (isHexDigit_spec (h.hex hd)).2.2]
    · rfl
  have hmap : ∀ cs : List Char, (∀ c ∈ cs, isDigit c = true) →
      (cs.map Char.toLower).mapM (digitIn? base) = some (cs.map digitValue) := by
    intro cs hcs
    induction cs with
    | nil => rfl
    | cons c cs ih =>
      obtain ⟨hc, hcs⟩ := List.forall_mem_cons.mp hcs
      have hread : digitIn? base c.toLower = some (digitValue c) := by
        simp [digitIn?, (hexDigit_read (h.hex hc)).1, h.value hc]
      simp [List.mapM_cons, hread, ih hcs]
  have hseparated : separated '_' (run.map Char.toLower) = true := by
    rw [digits_eq] at hrun
    obtain ⟨d, v, hd, hv, rfl⟩ := mem_one_mul.mp hrun
    simpa [separated, h.lower_ne hd] using h.separated_rest hv (h.lower_ne hd)
  have hfilter : run.filter ((fun c => decide (c ≠ '_')) ∘ Char.toLower) = run.filter (· ≠ '_') :=
    List.filter_congr hlower
  rw [digits?, if_pos hseparated, List.filter_map, hfilter]
  refine hmap _ fun c hc => ?_
  obtain ⟨hc, hne⟩ := List.mem_filter.mp hc
  exact (digits_all hrun c hc).resolve_right (by simpa using hne)

theorem Of.dropMark_eq : dropMark base (run.map Char.toLower) = run.map Char.toLower := by
  have hmark : ∀ c ∈ run.map Char.toLower, some c ≠ markOf base := by
    intro c hc
    obtain ⟨d, hd, rfl⟩ := List.mem_map.mp hc
    rcases digits_all hrun d hd with hd | rfl
    · exact h.mark hd
    · unfold markOf
      split_ifs <;> decide
  unfold dropMark
  split
  · rename_i zero letter rest heq
    rw [heq] at hmark
    rw [if_neg (by simp [hmark letter (by simp)])]
  · rfl

theorem Of.trim_eq : trim isMargin (run.map Char.toLower) = run.map Char.toLower := by
  refine trim_eq_self fun c hc => ?_
  obtain ⟨d, hd, rfl⟩ := List.mem_map.mp hc
  rcases digits_all hrun d hd with hd | rfl
  · exact (hexDigit_read (h.hex hd)).2.1
  · decide

/-- **Digits are read in their base**, too many decimal ones not at all. -/
theorem Of.readIn_eq : readIn base (run.map Char.toLower) =
    if base = 10 ∧ maxDigits < (run.filter (· ≠ '_')).length then .error .overlong
    else .ok (ofDigits base ((run.filter (· ≠ '_')).map digitValue) : Int) := by
  have hsign : ∀ c v, run.map Char.toLower = c :: v → c ≠ '-' ∧ c ≠ '+' := by
    intro c v heq
    have hrun := hrun
    rw [digits_eq] at hrun
    obtain ⟨d, w, hd, -, rfl⟩ := mem_one_mul.mp hrun
    obtain ⟨-, -, -, hminus, hplus, -⟩ := hexDigit_read (h.hex hd)
    obtain ⟨rfl, -⟩ := List.cons.inj heq
    exact ⟨hminus, hplus⟩
  have hread := readIn_unsigned (h.trim_eq hrun) hsign (h.dropMark_eq hrun) (h.digits?_eq hrun)
  rwa [List.length_map] at hread

end Digits

/-! ### Numbers -/

/-- The value of digits in a base; underscores between them mean nothing. -/
def valueIn (base : Nat) (run : List Char) : Nat :=
  ofDigits base ((run.filter (· ≠ '_')).map digitValue)

/-- The bases that have a mark, with the mark and the digits of each. -/
inductive Marks : (base : Nat) → (isMark isDigit : Char → Bool) → Prop where
  | hexadecimal : Marks 16 (fun m => m = 'x' || m = 'X') isHexDigit
  | binary : Marks 2 (fun m => m = 'b' || m = 'B') isBinaryDigit
  | octal : Marks 8 (fun m => m = 'o' || m = 'O') isOctalDigit

/-- **The number that a text without a sign denotes.** A decimal one with too many digits denotes
none. -/
inductive Magnitude : List Char → Nat → Prop where
  | marked {base : Nat} {isMark isDigit : Char → Bool} {m : Char} {run : List Char}
      (hmarks : Marks base isMark isDigit) (hm : isMark m = true) (hrun : run ∈ digits isDigit) :
      Magnitude ('0' :: m :: run) (valueIn base run)
  | decimal {run : List Char} (hrun : run ∈ Lexeme.decimal)
      (hmax : (run.filter (· ≠ '_')).length ≤ maxDigits) : Magnitude run (valueIn 10 run)

/-- **The integer that a text denotes.** -/
inductive Denotes : List Char → Int → Prop where
  | unsigned {w : List Char} {n : Nat} (h : Magnitude w n) : Denotes w n
  | plus {w : List Char} {n : Nat} (h : Magnitude w n) : Denotes ('+' :: w) n
  | minus {w : List Char} {n : Nat} (h : Magnitude w n) : Denotes ('-' :: w) (-n)

/-- Whether a text, if it is a decimal number, has no more digits than may be read. -/
def Short (w : List Char) : Prop :=
  w ∈ sign * Lexeme.decimal → (w.filter Char.isDigit).length ≤ maxDigits

theorem Marks.of {base : Nat} {isMark isDigit : Char → Bool} (h : Marks base isMark isDigit) :
    Of base isDigit := by
  cases h
  · exact of_hexadecimal
  · exact of_binary
  · exact of_octal

theorem Marks.ne_decimal {base : Nat} {isMark isDigit : Char → Bool}
    (h : Marks base isMark isDigit) : base ≠ 10 := by
  cases h <;> decide

/-- A mark of either case announces its base. -/
theorem Marks.splitBase_eq {base : Nat} {isMark isDigit : Char → Bool}
    (h : Marks base isMark isDigit) {m : Char} (hm : isMark m = true) (rest : List Char) :
    Text.isBlank m = false ∧
      ∃ l, Text.lowerChar m = [l] ∧ splitBase ('0' :: l :: rest) = (base, rest) := by
  cases h <;> simp only [Bool.or_eq_true, decide_eq_true_eq] at hm <;> rcases hm with rfl | rfl <;>
    exact ⟨by decide, _, rfl, rfl⟩

/-- How a text without a sign is read. -/
structure ReadAs (w : List Char) (result : Except NumberError Int) : Prop where
  blank : ∀ c ∈ w, Text.isBlank c = false
  head : ∃ c u, Text.lowerChars w = c :: u ∧ c ≠ '+' ∧ c ≠ '-'
  value : ∃ base rest, splitBase (Text.lowerChars w) = (base, rest) ∧ readIn base rest = result

theorem digits_notBlank {base : Nat} {isDigit : Char → Bool} (h : Of base isDigit)
    {run : List Char} (hrun : run ∈ digits isDigit) : ∀ c ∈ run, Text.isBlank c = false := by
  intro c hc
  rcases digits_all hrun c hc with hd | rfl
  · exact (hexDigit_read (h.hex hd)).2.2.1
  · decide

theorem readAs_marked {base : Nat} {isMark isDigit : Char → Bool} {m : Char} {run : List Char}
    (hmarks : Marks base isMark isDigit) (hm : isMark m = true) (hrun : run ∈ digits isDigit) :
    ReadAs ('0' :: m :: run) (.ok (valueIn base run)) := by
  obtain ⟨hblank, l, hl, hsplit⟩ := hmarks.splitBase_eq hm (run.map Char.toLower)
  have hlower : Text.lowerChars ('0' :: m :: run) = '0' :: l :: run.map Char.toLower := by
    have hrest := hmarks.of.lowerChars hrun
    have hzero : Text.lowerChar '0' = ['0'] := rfl
    simp only [Text.lowerChars, List.flatMap_cons, hl, hzero] at hrest ⊢
    rw [hrest]
    rfl
  have hread := hmarks.of.readIn_eq hrun
  rw [if_neg fun hlong => hmarks.ne_decimal hlong.1] at hread
  refine ⟨?_, ⟨'0', _, hlower, by decide, by decide⟩, base, _, hlower ▸ hsplit, hread⟩
  refine List.forall_mem_cons.mpr ⟨by decide, List.forall_mem_cons.mpr ⟨hblank, ?_⟩⟩
  exact digits_notBlank hmarks.of hrun

theorem splitBase_decimal {cs : List Char}
    (h : ∀ c ∈ cs, c ≠ 'x' ∧ c ≠ 'b' ∧ c ≠ 'o') : splitBase cs = (10, cs) := by
  unfold splitBase
  split
  · exact absurd rfl (h 'x' (by simp)).1
  · exact absurd rfl (h 'b' (by simp)).2.1
  · exact absurd rfl (h 'o' (by simp)).2.2
  · rfl

theorem readAs_decimal {run : List Char} (hrun : run ∈ Lexeme.decimal) : ReadAs run
    (if maxDigits < (run.filter (· ≠ '_')).length then .error .overlong
      else .ok (valueIn 10 run)) := by
  have hlower := of_decimal.lowerChars hrun
  have hletter : ∀ {c : Char}, isHexDigit c = true → c.isDigit = true →
      c.toLower ≠ 'x' ∧ c.toLower ≠ 'b' ∧ c.toLower ≠ 'o' := by
    intro c h
    refine forall_isHexDigit h ?_
    decide +kernel
  have hsplit : splitBase (run.map Char.toLower) = (10, run.map Char.toLower) := by
    refine splitBase_decimal fun c hc => ?_
    obtain ⟨d, hd, rfl⟩ := List.mem_map.mp hc
    rcases digits_all hrun d hd with hd | rfl
    · exact hletter (of_decimal.hex hd) hd
    · decide
  refine ⟨digits_notBlank of_decimal hrun, ?_, 10, run.map Char.toLower, hlower ▸ hsplit, ?_⟩
  · rw [hlower]
    rw [Lexeme.decimal, digits_eq] at hrun
    obtain ⟨d, v, hd, -, rfl⟩ := mem_one_mul.mp hrun
    obtain ⟨-, -, -, hminus, hplus, -⟩ := hexDigit_read (of_decimal.hex hd)
    exact ⟨_, _, rfl, hplus, hminus⟩
  · have hread := of_decimal.readIn_eq hrun
    simp only [true_and] at hread
    exact hread

theorem Magnitude.readAs {w : List Char} {n : Nat} (h : Magnitude w n) : ReadAs w (.ok n) := by
  cases h with
  | marked hmarks hm hrun => exact readAs_marked hmarks hm hrun
  | decimal hrun hmax =>
    have hread := readAs_decimal hrun
    rwa [if_neg (Nat.not_lt.mpr hmax)] at hread

section ReadAs
variable {w : List Char} {result : Except NumberError Int} (h : ReadAs w result)
include h

theorem ReadAs.read_unsigned : read (String.ofList w) = result := by
  obtain ⟨hblank, ⟨c, u, hlower, hplus, hminus⟩, base, rest, hsplit, hread⟩ := h
  have hstrip : Text.stripChars w = w := trim_eq_self hblank
  rw [hlower] at hsplit
  simp [read, hstrip, hlower, hplus, hminus, hsplit, hread]

theorem ReadAs.read_signed {s : Char} (hs : s = '+' ∨ s = '-') :
    read (String.ofList (s :: w)) = (fun v => if s = '-' then -v else v) <$> result := by
  obtain ⟨hblank, ⟨c, u, hlower, hplus, hminus⟩, base, rest, hsplit, hread⟩ := h
  have hsign : Text.isBlank s = false ∧ Text.lowerChar s = [s] := by
    rcases hs with rfl | rfl <;> exact ⟨by decide, rfl⟩
  have hstrip : Text.stripChars (s :: w) = s :: w :=
    trim_eq_self (List.forall_mem_cons.mpr ⟨hsign.1, hblank⟩)
  have hlower' : Text.lowerChars (s :: w) = s :: c :: u := by
    rw [Text.lowerChars, List.flatMap_cons, hsign.2, ← Text.lowerChars, hlower]
    rfl
  rw [hlower] at hsplit
  simp [read, hstrip, hlower', hplus, hminus, hsplit, hread, hs]

end ReadAs

/-- **A number is read as the integer that it denotes.** -/
theorem Denotes.read_eq {w : List Char} {v : Int} (h : Denotes w v) :
    read (String.ofList w) = .ok v := by
  cases h with
  | unsigned h => exact h.readAs.read_unsigned
  | plus h => exact h.readAs.read_signed (Or.inl rfl)
  | minus h => exact h.readAs.read_signed (Or.inr rfl)

/-- All that a decimal number has beside digits are underscores. -/
theorem filter_decimal {run : List Char} (h : run ∈ Lexeme.decimal) :
    run.filter (· ≠ '_') = run.filter Char.isDigit := by
  refine List.filter_congr fun c hc => ?_
  rcases digits_all h c hc with hd | rfl
  · have hne : c ≠ '_' := by
      rintro rfl
      cases hd
    simp [hd, hne]
  · rfl

/-! ### Parts -/

/-- A sign, and the factor that it stands for. -/
inductive SignOf : List Char → Int → Prop where
  | none : SignOf [] 1
  | plus : SignOf ['+'] 1
  | minus : SignOf ['-'] (-1)

/-- What announces a base, the base, and the class of its digits. Nothing announces ten. -/
inductive Announces : List Char → Nat → (Char → Bool) → Prop where
  | marked {base : Nat} {isMark isDigit : Char → Bool} {m : Char} (h : Marks base isMark isDigit)
      (hm : isMark m = true) : Announces ['0', m] base isDigit
  | decimal : Announces [] 10 Char.isDigit

/-- **The parts of a number**: the factor of its sign, its base, and its digits with the underscores
between them. -/
inductive Parts : List Char → Int → Nat → List Char → Prop where
  | intro {s mark run : List Char} {factor : Int} {base : Nat} {isDigit : Char → Bool}
      (hs : SignOf s factor) (hmark : Announces mark base isDigit) (hrun : run ∈ digits isDigit) :
      Parts (s ++ (mark ++ run)) factor base run

/-- Every number has parts. -/
theorem exists_parts {w : List Char} (h : w ∈ Lexeme.number) :
    ∃ factor base run, Parts w factor base run := by
  obtain ⟨s, hs, u, hu, rfl⟩ := Language.mem_mul.mp h
  have hsign : ∃ factor, SignOf s factor := by
    rcases hs with hs | ⟨c, hc, rfl⟩
    · rw [(Language.mem_one s).mp hs]
      exact ⟨1, .none⟩
    · simp only [Bool.or_eq_true, decide_eq_true_eq] at hc
      rcases hc with rfl | rfl
      · exact ⟨1, .plus⟩
      · exact ⟨-1, .minus⟩
  obtain ⟨factor, hfactor⟩ := hsign
  have hmarked : ∀ {base : Nat} {isMark isDigit : Char → Bool}, Marks base isMark isDigit →
      u ∈ marked isMark isDigit → ∃ factor base run, Parts (s ++ u) factor base run := by
    intro base isMark isDigit hmarks hu
    obtain ⟨m, run, hm, hrun, rfl⟩ := mem_marked.mp hu
    exact ⟨factor, base, run, .intro hfactor (.marked hmarks hm) hrun⟩
  rcases hu with ((hu | hu) | hu) | hu
  · exact hmarked .hexadecimal hu
  · exact hmarked .binary hu
  · exact hmarked .octal hu
  · exact ⟨factor, 10, u, .intro hfactor .decimal hu⟩

section Parts
variable {w run : List Char} {factor : Int} {base : Nat} (h : Parts w factor base run)
include h

/-- What a number denotes, from its parts. -/
theorem Parts.denotes (hmax : base = 10 → (run.filter (· ≠ '_')).length ≤ maxDigits) :
    Denotes w (factor * valueIn base run) := by
  obtain ⟨hs, hmark, hrun⟩ := h
  rename_i s mark isDigit
  have hmagnitude : Magnitude (mark ++ run) (valueIn base run) := by
    cases hmark with
    | marked hmarks hm => exact .marked hmarks hm hrun
    | decimal => exact .decimal hrun (hmax rfl)
  cases hs with
  | none => simpa using Denotes.unsigned hmagnitude
  | plus => simpa using Denotes.plus hmagnitude
  | minus => simpa using Denotes.minus hmagnitude

/-- A short number has not too many digits. -/
theorem Parts.length_le (hshort : Short w) :
    base = 10 → (run.filter (· ≠ '_')).length ≤ maxDigits := by
  rintro rfl
  obtain ⟨hs, hmark, hrun⟩ := h
  rename_i s mark isDigit
  cases hmark with
  | marked hmarks => exact absurd rfl hmarks.ne_decimal
  | decimal =>
    have hsign : s ∈ sign := by
      cases hs with
      | none => exact Or.inl rfl
      | plus => exact Or.inr ⟨'+', rfl, rfl⟩
      | minus => exact Or.inr ⟨'-', rfl, rfl⟩
    calc (run.filter (· ≠ '_')).length ≤ ((s ++ ([] ++ run)).filter Char.isDigit).length := by
          rw [filter_decimal hrun, List.nil_append, List.filter_append, List.length_append]
          omega
      _ ≤ maxDigits := hshort (Language.mem_mul.mpr ⟨s, hsign, run, hrun, rfl⟩)

end Parts

/-- **Every number denotes an integer**, unless it is decimal and has too many digits. -/
theorem exists_denotes {w : List Char} (h : w ∈ Lexeme.number) (hshort : Short w) :
    ∃ v, Denotes w v := by
  obtain ⟨factor, base, run, hparts⟩ := exists_parts h
  exact ⟨_, hparts.denotes (hparts.length_le hshort)⟩

/-- **A decimal number with too many digits is not read.** -/
theorem read_of_not_short {w : List Char} (h : ¬ Short w) :
    read (String.ofList w) = .error .overlong := by
  obtain ⟨hw, hlong⟩ := Classical.not_imp.mp h
  obtain ⟨s, hs, u, hu, rfl⟩ := Language.mem_mul.mp hw
  have hdigits : ((s ++ u).filter Char.isDigit).length = (u.filter (· ≠ '_')).length := by
    have hsign : s.filter Char.isDigit = [] := by
      rcases hs with hs | ⟨c, hc, rfl⟩
      · rw [(Language.mem_one s).mp hs]
        rfl
      · simp only [Bool.or_eq_true, decide_eq_true_eq] at hc
        rcases hc with rfl | rfl <;> rfl
    rw [List.filter_append, hsign, List.nil_append, filter_decimal hu]
  have hread := readAs_decimal hu
  rw [if_pos (by omega)] at hread
  rcases hs with hs | ⟨c, hc, rfl⟩
  · rw [(Language.mem_one s).mp hs]
    exact hread.read_unsigned
  · simp only [Bool.or_eq_true, decide_eq_true_eq] at hc
    exact hread.read_signed hc

end AluVM.Numeral
