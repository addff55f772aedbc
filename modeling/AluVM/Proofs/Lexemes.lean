import AluVM.Proofs.Words
import Mathlib.Computability.Language

/-! # The lexemes of the terminals

The texts of each class of words form a regular language over characters, and the recogniser of
the class finds the longest of its texts at the head of the remaining characters (`finds_match?`):
what it returns is in the language, and every other text of the language that stands there is a
part of it.

A number is the one case where the longest text is not found by reading on as long as possible: the
mark `0x` counts only if a digit follows it. -/

namespace AluVM.Syntax

open scoped Computability

/-! ### Languages -/

namespace Lexeme

/-- One character of a class. -/
def one (p : Char → Bool) : Language Char := {w | ∃ c, p c = true ∧ w = [c]}

/-- A fixed text. -/
def fixed (w : List Char) : Language Char := {w}

/-- One or more characters of a class. -/
def many (p : Char → Bool) : Language Char := one p * (one p)∗

/-- Letters, digits and underscores, not a digit first. -/
def name : Language Char := one startsName * (one continuesName)∗

/-- Digits with single underscores between them. -/
def digits (isDigit : Char → Bool) : Language Char :=
  many isDigit * (fixed ['_'] * many isDigit)∗

/-- A zero, a mark, and digits. -/
def marked (isMark isDigit : Char → Bool) : Language Char :=
  fixed ['0'] * one isMark * digits isDigit

/-- A decimal number without its sign. -/
def decimal : Language Char := digits Char.isDigit

/-- A number without its sign. -/
def unsigned : Language Char :=
  marked (fun m => m = 'x' || m = 'X') isHexDigit +
    marked (fun m => m = 'b' || m = 'B') isBinaryDigit +
    marked (fun m => m = 'o' || m = 'O') isOctalDigit + decimal

/-- A sign or nothing. -/
def sign : Language Char := 1 + one fun c => c = '+' || c = '-'

/-- A number. -/
def number : Language Char := sign * unsigned

/-- A character of a string, or a backslash and the character that it escapes. -/
def stringItem : Language Char :=
  fixed ['\\'] * one (fun c => c ≠ '\n') + one fun c => c ≠ '"' && c ≠ '\\' && c ≠ '\n'

/-- A string with its quotes. -/
def string : Language Char := fixed ['"'] * stringItem∗ * fixed ['"']

/-- The name of an algorithm, a colon and hexadecimal digits. -/
def libraryId : Language Char :=
  one Char.isLower * (one fun c => c.isLower || c.isDigit)∗ * fixed [':'] * many isHexDigit

/-- A line feed, which may have a carriage return before it. -/
def newline : Language Char := (1 + fixed ['\r']) * fixed ['\n']

/-- Blanks and tabs. -/
def blanks : Language Char := many fun c => c = ' ' || c = '\t'

/-- A comment, up to the end of its line. -/
def comment : Language Char :=
  (fixed [';'] + fixed ['/', '/'] + fixed ['#']) * (one fun c => c ≠ '\n')∗

/-- What stands between words and means nothing. -/
def ignored : Language Char := blanks + comment

end Lexeme

open Lexeme

/-- The texts of a class of words. -/
def Terminal.language : Terminal → Language Char
  | .keyword s => fixed s.keyword.toList
  | .newline => Lexeme.newline
  | .name => Lexeme.name
  | .number => Lexeme.number
  | .string => Lexeme.string
  | .libraryId => Lexeme.libraryId
  | .equals => fixed ['=']
  | .comma => fixed [',']
  | .colon => fixed [':']
  | .dot => fixed ['.']
  | .leftBracket => fixed ['[']
  | .rightBracket => fixed [']']
  | .endOfText => 0

/-! ### Membership -/

namespace Lexeme

theorem mem_fixed {v w : List Char} : v ∈ fixed w ↔ v = w := Iff.rfl

theorem mem_kstar_iff {l : Language Char} {w : List Char} :
    w ∈ l∗ ↔ w = [] ∨ ∃ a ∈ l, ∃ b ∈ l∗, a ++ b = w := by
  rw [← Language.one_add_self_mul_kstar_eq_kstar, Language.mem_add, Language.mem_one,
    Language.mem_mul, Language.one_add_self_mul_kstar_eq_kstar]

theorem mem_one_kstar {p : Char → Bool} {w : List Char} :
    w ∈ (one p)∗ ↔ ∀ c ∈ w, p c = true := by
  induction w with
  | nil => exact ⟨fun _ => by simp, fun _ => Language.nil_mem_kstar _⟩
  | cons c w ih =>
    rw [mem_kstar_iff, List.forall_mem_cons, ← ih]
    constructor
    · rintro (h | ⟨_, ⟨d, hd, rfl⟩, b, hb, heq⟩)
      · cases h
      · cases heq
        exact ⟨hd, hb⟩
    · rintro ⟨hc, hw⟩
      exact Or.inr ⟨[c], ⟨c, hc, rfl⟩, w, hw, rfl⟩

theorem mem_one_mul {p : Char → Bool} {l : Language Char} {w : List Char} :
    w ∈ one p * l ↔ ∃ c v, p c = true ∧ v ∈ l ∧ w = c :: v := by
  rw [Language.mem_mul]
  constructor
  · rintro ⟨_, ⟨c, hc, rfl⟩, v, hv, rfl⟩
    exact ⟨c, v, hc, hv, rfl⟩
  · rintro ⟨c, v, hc, hv, rfl⟩
    exact ⟨[c], ⟨c, hc, rfl⟩, v, hv, rfl⟩

theorem mem_fixed_mul {u w : List Char} {l : Language Char} :
    w ∈ fixed u * l ↔ ∃ v ∈ l, w = u ++ v := by
  rw [Language.mem_mul]
  constructor
  · rintro ⟨_, rfl, v, hv, rfl⟩
    exact ⟨v, hv, rfl⟩
  · rintro ⟨v, hv, rfl⟩
    exact ⟨u, rfl, v, hv, rfl⟩

theorem mem_many {p : Char → Bool} {w : List Char} :
    w ∈ many p ↔ w ≠ [] ∧ ∀ c ∈ w, p c = true := by
  rw [many, mem_one_mul]
  constructor
  · rintro ⟨c, v, hc, hv, rfl⟩
    exact ⟨by simp, List.forall_mem_cons.mpr ⟨hc, mem_one_kstar.mp hv⟩⟩
  · rintro ⟨hne, hall⟩
    obtain ⟨c, v, rfl⟩ := List.exists_cons_of_ne_nil hne
    obtain ⟨hc, hv⟩ := List.forall_mem_cons.mp hall
    exact ⟨c, v, hc, mem_one_kstar.mpr hv, rfl⟩

/-- A star over a sum, one summand at a time. -/
theorem kstar_add (a b : Language Char) : (a + b)∗ = a∗ * (b * a∗)∗ := by
  refine le_antisymm (kstar_le_of_mul_le_right ?_ ?_) ?_
  · calc (1 : Language Char) = 1 * 1 := (one_mul 1).symm
      _ ≤ a∗ * (b * a∗)∗ := by gcongr <;> exact one_le_kstar
  · rw [add_mul, ← mul_assoc, ← mul_assoc]
    refine add_le ?_ ?_
    · gcongr
      exact mul_kstar_le_kstar
    · calc b * a∗ * (b * a∗)∗ ≤ (b * a∗)∗ := mul_kstar_le_kstar
        _ = 1 * (b * a∗)∗ := (one_mul _).symm
        _ ≤ a∗ * (b * a∗)∗ := by gcongr; exact one_le_kstar
  · have ha : a∗ ≤ (a + b)∗ := kstar_mono le_self_add
    have hb : b ≤ (a + b)∗ := le_add_self.trans le_kstar
    have hba : (b * a∗)∗ ≤ (a + b)∗ := by
      rw [← kstar_idem (a + b)]
      refine kstar_mono ?_
      calc b * a∗ ≤ (a + b)∗ * (a + b)∗ := by gcongr
        _ = (a + b)∗ := kstar_mul_kstar _
    calc a∗ * (b * a∗)∗ ≤ (a + b)∗ * (a + b)∗ := by gcongr
      _ = (a + b)∗ := kstar_mul_kstar _

/-- What may follow the first digit of a number. -/
def digitsRest (isDigit : Char → Bool) : Language Char :=
  (one isDigit + fixed ['_'] * one isDigit)∗

theorem mem_digitsRest {isDigit : Char → Bool} {w : List Char} :
    w ∈ digitsRest isDigit ↔ w = [] ∨ ∃ d v, isDigit d = true ∧ v ∈ digitsRest isDigit ∧
      (w = d :: v ∨ w = '_' :: d :: v) := by
  rw [digitsRest, mem_kstar_iff]
  refine or_congr Iff.rfl ⟨?_, ?_⟩
  · rintro ⟨a, ha | ha, v, hv, rfl⟩
    · obtain ⟨d, hd, rfl⟩ := ha
      exact ⟨d, v, hd, hv, Or.inl rfl⟩
    · obtain ⟨_, ⟨d, hd, rfl⟩, rfl⟩ := mem_fixed_mul.mp ha
      exact ⟨d, v, hd, hv, Or.inr rfl⟩
  · rintro ⟨d, v, hd, hv, rfl | rfl⟩
    · exact ⟨[d], Or.inl ⟨d, hd, rfl⟩, v, hv, rfl⟩
    · exact ⟨['_', d], Or.inr (mem_fixed_mul.mpr ⟨[d], ⟨d, hd, rfl⟩, rfl⟩), v, hv, rfl⟩

theorem digits_eq (isDigit : Char → Bool) : digits isDigit = one isDigit * digitsRest isDigit := by
  rw [digits, digitsRest, kstar_add, many, mul_assoc, mul_assoc]

end Lexeme

/-! ### Longest lexemes -/

/-- **The recogniser finds the longest text of a language** at the head of the characters that are
left, and puts the characters of `done` in front of it. -/
structure FindsAfter (done : List Char) (l : Language Char) (m : List Char → Option Match) :
    Prop where
  sound {cs w rest : List Char} (h : m cs = some (w, rest)) :
    ∃ v ∈ l, w = done ++ v ∧ v ++ rest = cs
  longest {cs v : List Char} (hv : v ∈ l) (h : v <+: cs) :
    ∃ w rest, m cs = some (done ++ w, rest) ∧ v <+: w

/-- The recogniser finds the longest text of a language. -/
abbrev Finds : Language Char → (List Char → Option Match) → Prop := FindsAfter []

theorem Finds.mem {l : Language Char} {m : List Char → Option Match} (h : Finds l m)
    {cs w rest : List Char} (heq : m cs = some (w, rest)) : w ∈ l ∧ w ++ rest = cs := by
  obtain ⟨v, hv, hw, happ⟩ := h.sound heq
  rw [List.nil_append] at hw
  exact hw ▸ ⟨hv, happ⟩

theorem finds_word (w : List Char) : Finds (fixed w) (matchWord w) where
  sound {cs v rest} h := by
    unfold matchWord at h
    split_ifs at h with hw
    cases h
    obtain ⟨r, rfl⟩ := List.isPrefixOf_iff_prefix.mp hw
    exact ⟨w, rfl, rfl, by simp⟩
  longest {cs v} hv h := by
    rw [mem_fixed.mp hv] at h ⊢
    exact ⟨w, _, if_pos (List.isPrefixOf_iff_prefix.mpr h), List.prefix_rfl⟩

theorem finds_newline : Finds Lexeme.newline matchNewline where
  sound {cs w rest} h := by
    unfold matchNewline at h
    split at h <;> cases h
    · exact ⟨_, ⟨[], Or.inl rfl, ['\n'], rfl, rfl⟩, rfl, rfl⟩
    · exact ⟨_, ⟨['\r'], Or.inr rfl, ['\n'], rfl, rfl⟩, rfl, rfl⟩
  longest {cs v} hv h := by
    obtain ⟨rest, rfl⟩ := h
    obtain ⟨a, ha, b, hb, rfl⟩ := Language.mem_mul.mp hv
    rw [mem_fixed.mp hb]
    rcases ha with ha | ha
    · rw [(Language.mem_one a).mp ha]
      exact ⟨_, _, rfl, List.prefix_rfl⟩
    · rw [mem_fixed.mp ha]
      exact ⟨_, _, rfl, List.prefix_rfl⟩

theorem prefix_takeWhile {p : Char → Bool} {v cs : List Char} (hv : ∀ c ∈ v, p c = true)
    (h : v <+: cs) : v <+: cs.takeWhile p := by
  obtain ⟨rest, rfl⟩ := h
  rw [List.takeWhile_append_of_pos hv]
  exact List.prefix_append v _

theorem finds_name : Finds Lexeme.name matchName where
  sound {cs w rest} h := by
    unfold matchName at h
    split at h
    · rename_i c ds
      split_ifs at h with hc
      have hc' := continuesName_of_startsName hc
      rw [List.span_eq_takeWhile_dropWhile, List.takeWhile_cons_of_pos hc',
        List.dropWhile_cons_of_pos hc'] at h
      cases h
      refine ⟨_, mem_one_mul.mpr ⟨c, _, hc, mem_one_kstar.mpr fun d hd => ?_, rfl⟩, rfl, ?_⟩
      · exact List.mem_takeWhile_imp hd
      · rw [List.cons_append, List.takeWhile_append_dropWhile]
    · cases h
  longest {cs v} hv h := by
    obtain ⟨c, u, hc, hu, rfl⟩ := mem_one_mul.mp hv
    have hall : ∀ d ∈ c :: u, continuesName d = true :=
      List.forall_mem_cons.mpr ⟨continuesName_of_startsName hc, mem_one_kstar.mp hu⟩
    refine ⟨_, cs.dropWhile continuesName, ?_, prefix_takeWhile hall h⟩
    obtain ⟨rest, rfl⟩ := h
    rw [List.cons_append, matchName, if_pos hc, List.span_eq_takeWhile_dropWhile]
    rfl

/-! ### Numbers -/

section Digits
variable {isDigit : Char → Bool} (hunder : isDigit '_' = false)
include hunder

omit hunder in
/-- How digits and underscores can stand at the head of a text. -/
theorem digitsRest_cases {v cs : List Char} {c : Char} (hv : v ∈ digitsRest isDigit)
    (h : v <+: c :: cs) : v = [] ∨
      (isDigit c = true ∧ ∃ u ∈ digitsRest isDigit, v = c :: u ∧ u <+: cs) ∨
      (c = '_' ∧ ∃ d ds, cs = d :: ds ∧ isDigit d = true ∧
        ∃ u ∈ digitsRest isDigit, v = '_' :: d :: u ∧ u <+: ds) := by
  rcases mem_digitsRest.mp hv with rfl | ⟨d, u, hd, hu, rfl | rfl⟩
  · exact .inl rfl
  · obtain ⟨rfl, hpre⟩ := List.cons_prefix_cons.mp h
    exact .inr (.inl ⟨hd, u, hu, rfl, hpre⟩)
  · obtain ⟨rfl, rest, rfl⟩ := List.cons_prefix_cons.mp h
    exact .inr (.inr ⟨rfl, d, u ++ rest, rfl, hd, u, hu, rfl, List.prefix_append u rest⟩)

/-- The run of digits is the longest one: the cases are those of the reader. -/
theorem digitRun_spec (done cs : List Char) : ∃ run rest,
    digitRun isDigit done cs = (done.reverse ++ run, rest) ∧ run ∈ digitsRest isDigit ∧
      run ++ rest = cs ∧ ∀ v ∈ digitsRest isDigit, v <+: cs → v <+: run := by
  have hnil : ∀ done cs : List Char, (∀ v ∈ digitsRest isDigit, v <+: cs → v = []) →
      ∃ run rest, (done.reverse, cs) = (done.reverse ++ run, rest) ∧ run ∈ digitsRest isDigit ∧
        run ++ rest = cs ∧ ∀ v ∈ digitsRest isDigit, v <+: cs → v <+: run := by
    intro done cs hcs
    refine ⟨[], cs, by simp, Language.nil_mem_kstar _, rfl, fun v hv h => ?_⟩
    rw [hcs v hv h]
  fun_induction digitRun isDigit done cs with
  | case1 done => exact hnil done [] fun v _ h => List.prefix_nil.mp h
  | case2 done c cs hc ih =>
    obtain ⟨run, rest, heq, hrun, rfl, hlongest⟩ := ih
    refine ⟨c :: run, rest, by simp [heq], mem_digitsRest.mpr (.inr ⟨c, run, hc, hrun, .inl rfl⟩),
      rfl, fun v hv h => ?_⟩
    rcases digitsRest_cases hv h with rfl | ⟨-, u, hu, rfl, hpre⟩ | ⟨rfl, -⟩
    · exact List.nil_prefix
    · exact List.cons_prefix_cons.mpr ⟨rfl, hlongest u hu hpre⟩
    · simp [hunder] at hc
  | case3 done d ds hd _ ih =>
    obtain ⟨run, rest, heq, hrun, rfl, hlongest⟩ := ih
    refine ⟨'_' :: d :: run, rest, by simp [heq],
      mem_digitsRest.mpr (.inr ⟨d, run, hd, hrun, .inr rfl⟩), rfl, fun v hv h => ?_⟩
    rcases digitsRest_cases hv h with rfl | ⟨hc, -⟩ | ⟨-, _, _, heq', _, u, hu, rfl, hpre⟩
    · exact List.nil_prefix
    · simp [hunder] at hc
    · cases heq'
      exact List.cons_prefix_cons.mpr ⟨rfl, List.cons_prefix_cons.mpr ⟨rfl, hlongest u hu hpre⟩⟩
  | case4 done d ds hd _ =>
    refine hnil done _ fun v hv h => ?_
    rcases digitsRest_cases hv h with rfl | ⟨hc, -⟩ | ⟨-, _, _, heq, hd', -⟩
    · rfl
    · simp [hunder] at hc
    · cases heq
      exact absurd hd' hd
  | case5 done _ =>
    refine hnil done _ fun v hv h => ?_
    rcases digitsRest_cases hv h with rfl | ⟨hc, -⟩ | ⟨-, _, _, heq, -⟩
    · rfl
    · simp [hunder] at hc
    · cases heq
  | case6 done c cs hc hc' =>
    refine hnil done _ fun v hv h => ?_
    rcases digitsRest_cases hv h with rfl | ⟨hd, -⟩ | ⟨rfl, -⟩
    · rfl
    · exact absurd hd hc
    · exact absurd rfl hc'

theorem findsAfter_digits (mark : List Char) :
    FindsAfter mark.reverse (digits isDigit) (matchDigits isDigit mark) where
  sound {cs w rest} h := by
    unfold matchDigits at h
    split at h
    · rename_i c ds
      split_ifs at h with hc
      rw [digitRun.eq_def] at h
      simp only [hc, if_true] at h
      obtain ⟨run, rest', heq, hrun, happ, -⟩ := digitRun_spec hunder (c :: mark) ds
      rw [heq] at h
      cases h
      refine ⟨c :: run, ?_, by simp, by simp [happ]⟩
      rw [digits_eq]
      exact mem_one_mul.mpr ⟨c, run, hc, hrun, rfl⟩
    · cases h
  longest {cs v} hv h := by
    rw [digits_eq] at hv
    obtain ⟨c, u, hc, hu, rfl⟩ := mem_one_mul.mp hv
    obtain ⟨rest, rfl⟩ := h
    obtain ⟨run, rest', heq, -, -, hlongest⟩ := digitRun_spec hunder (c :: mark) (u ++ rest)
    refine ⟨c :: run, rest', ?_, ?_⟩
    · rw [List.cons_append, matchDigits, if_pos hc, digitRun.eq_def]
      simp [hc, heq]
    · rw [List.cons_prefix_cons]
      exact ⟨rfl, hlongest u hu (List.prefix_append u rest)⟩

end Digits

theorem mem_marked {isMark isDigit : Char → Bool} {w : List Char} :
    w ∈ marked isMark isDigit ↔
      ∃ m run, isMark m = true ∧ run ∈ digits isDigit ∧ w = '0' :: m :: run := by
  rw [marked, mul_assoc, mem_fixed_mul]
  constructor
  · rintro ⟨v, hv, rfl⟩
    obtain ⟨m, run, hm, hrun, rfl⟩ := mem_one_mul.mp hv
    exact ⟨m, run, hm, hrun, rfl⟩
  · rintro ⟨m, run, hm, hrun, rfl⟩
    exact ⟨m :: run, mem_one_mul.mpr ⟨m, run, hm, hrun, rfl⟩, rfl⟩

/-- Every character of digits is a digit or an underscore. -/
theorem digits_all {isDigit : Char → Bool} {w : List Char} (h : w ∈ digits isDigit) :
    ∀ c ∈ w, isDigit c = true ∨ c = '_' := by
  rw [digits_eq] at h
  obtain ⟨d, v, hd, hv, rfl⟩ := mem_one_mul.mp h
  obtain ⟨parts, rfl, hparts⟩ := Language.mem_kstar.mp hv
  refine List.forall_mem_cons.mpr ⟨.inl hd, fun c hc => ?_⟩
  obtain ⟨part, hpart, hc⟩ := List.mem_flatten.mp hc
  rcases hparts part hpart with ⟨e, he, rfl⟩ | hunder
  · exact .inl (List.mem_singleton.mp hc ▸ he)
  · obtain ⟨_, ⟨e, he, rfl⟩, rfl⟩ := mem_fixed_mul.mp hunder
    simp only [List.cons_append, List.nil_append, List.mem_cons, List.not_mem_nil, or_false] at hc
    rcases hc with rfl | rfl
    · exact .inr rfl
    · exact .inl he

/-- Recognises a number with a mark, after a sign. -/
def matchMarked (isMark isDigit : Char → Bool) (sign cs : List Char) : Option Match :=
  match cs with
  | '0' :: m :: rest => if isMark m then matchDigits isDigit (m :: '0' :: sign) rest else none
  | _ => none

theorem findsAfter_marked {isMark isDigit : Char → Bool} (hunder : isDigit '_' = false)
    (sign : List Char) :
    FindsAfter sign.reverse (marked isMark isDigit) (matchMarked isMark isDigit sign) where
  sound {cs w rest} h := by
    unfold matchMarked at h
    split at h
    · rename_i m ds
      split_ifs at h with hm
      obtain ⟨run, hrun, rfl, rfl⟩ := (findsAfter_digits hunder _).sound h
      exact ⟨'0' :: m :: run, mem_marked.mpr ⟨m, run, hm, hrun, rfl⟩, by simp, rfl⟩
    · cases h
  longest {cs v} hv h := by
    obtain ⟨m, run, hm, hrun, rfl⟩ := mem_marked.mp hv
    obtain ⟨rest, rfl⟩ := h
    obtain ⟨w, rest', heq, hpre⟩ := (findsAfter_digits hunder (m :: '0' :: sign)).longest hrun
      (List.prefix_append run rest)
    refine ⟨'0' :: m :: w, rest', ?_, by simpa using hpre⟩
    rw [List.cons_append, List.cons_append, matchMarked, if_pos hm, heq]
    simp

/-- The first recogniser goes first where its texts are the longer ones. -/
theorem FindsAfter.or {done : List Char} {l l' : Language Char} {m m' : List Char → Option Match}
    (h : FindsAfter done l m) (h' : FindsAfter done l' m')
    (hlonger : ∀ cs, ∀ w ∈ l, ∀ v ∈ l', w <+: cs → v <+: cs → v <+: w) :
    FindsAfter done (l + l') fun cs => (m cs).or (m' cs) where
  sound {cs w rest} heq := by
    rcases Option.or_eq_some_iff.mp heq with heq | ⟨-, heq⟩
    · obtain ⟨v, hv, hw⟩ := h.sound heq
      exact ⟨v, .inl hv, hw⟩
    · obtain ⟨v, hv, hw⟩ := h'.sound heq
      exact ⟨v, .inr hv, hw⟩
  longest {cs v} hv hpre := by
    rcases hv with hv | hv
    · obtain ⟨w, rest, heq, hw⟩ := h.longest hv hpre
      exact ⟨w, rest, by simp [heq], hw⟩
    · rcases hm : m cs with _ | ⟨w, rest⟩
      · obtain ⟨w, rest, heq, hw⟩ := h'.longest hv hpre
        exact ⟨w, rest, by simp [heq], hw⟩
      · obtain ⟨u, hu, rfl, rfl⟩ := h.sound hm
        exact ⟨u, rest, rfl, hlonger _ u hu v hv (List.prefix_append u rest) hpre⟩

theorem matchUnsigned_eq (sign cs : List Char) : matchUnsigned sign cs =
    (((matchMarked (fun m => m = 'x' || m = 'X') isHexDigit sign cs).or
      (matchMarked (fun m => m = 'b' || m = 'B') isBinaryDigit sign cs)).or
      (matchMarked (fun m => m = 'o' || m = 'O') isOctalDigit sign cs)).or
        (matchDigits Char.isDigit sign cs) := by
  unfold matchUnsigned matchMarked
  split
  · rename_i m rest
    simp only [Bool.or_eq_true, decide_eq_true_eq, Option.orElse_eq_or]
    by_cases hx : m = 'x' ∨ m = 'X'
    · rcases hx with rfl | rfl <;> simp
    · by_cases hb : m = 'b' ∨ m = 'B'
      · rcases hb with rfl | rfl <;> simp
      · by_cases ho : m = 'o' ∨ m = 'O' <;> simp [hx, hb, ho]
  · simp

/-- Numbers with different marks do not start alike. -/
theorem marked_disjoint {isMark isMark' isDigit isDigit' : Char → Bool}
    (hmark : ∀ m, isMark m = true → isMark' m = false) {cs w v : List Char}
    (hw : w ∈ marked isMark isDigit) (hv : v ∈ marked isMark' isDigit') (hwcs : w <+: cs) :
    ¬ v <+: cs := by
  intro hvcs
  obtain ⟨m, run, hm, -, rfl⟩ := mem_marked.mp hw
  obtain ⟨m', run', hm', -, rfl⟩ := mem_marked.mp hv
  obtain ⟨rest, rfl⟩ := hwcs
  have hmm : m' = m ∧ run' <+: run ++ rest := by simpa using hvcs
  rw [hmm.1, hmark m hm] at hm'
  cases hm'

/-- Of a number with a mark, the zero alone is a decimal number. -/
theorem decimal_of_marked {isMark isDigit : Char → Bool}
    (hmark : ∀ m, isMark m = true → m.isDigit = false ∧ m ≠ '_') {cs w v : List Char}
    (hw : w ∈ marked isMark isDigit) (hv : v ∈ decimal) (hwcs : w <+: cs) (hvcs : v <+: cs) :
    v <+: w := by
  obtain ⟨m, run, hm, -, rfl⟩ := mem_marked.mp hw
  refine List.prefix_of_prefix_length_le hvcs hwcs ?_
  by_contra! hlength
  -- A longer one has the mark as its second character.
  have hwv : '0' :: m :: run <+: v := List.prefix_of_prefix_length_le hwcs hvcs hlength.le
  have hmem : m ∈ v := hwv.subset (by simp)
  obtain ⟨hdigit, hunder⟩ := hmark m hm
  rcases digits_all hv m hmem with h | h
  · rw [hdigit] at h
    cases h
  · exact hunder h

theorem findsAfter_unsigned (sign : List Char) :
    FindsAfter sign.reverse unsigned (matchUnsigned sign) := by
  have hmark : ∀ {a b : Char}, a.isDigit = false ∧ a ≠ '_' → b.isDigit = false ∧ b ≠ '_' →
      ∀ m, (m = a || m = b) = true → m.isDigit = false ∧ m ≠ '_' := by
    intro a b ha hb m hm
    simp only [Bool.or_eq_true, decide_eq_true_eq] at hm
    rcases hm with rfl | rfl
    · exact ha
    · exact hb
  rw [funext (matchUnsigned_eq sign)]
  refine .or (.or (.or (findsAfter_marked (by decide) sign) (findsAfter_marked (by decide) sign) ?_)
    (findsAfter_marked (by decide) sign) ?_) (findsAfter_digits (by decide) sign) ?_
  · intro cs w hw v hv hwcs hvcs
    exact absurd hvcs (marked_disjoint (by grind) hw hv hwcs)
  · rintro cs w (hw | hw) v hv hwcs hvcs
    · exact absurd hvcs (marked_disjoint (by grind) hw hv hwcs)
    · exact absurd hvcs (marked_disjoint (by grind) hw hv hwcs)
  · rintro cs w ((hw | hw) | hw) v hv hwcs hvcs
    · exact decimal_of_marked (hmark (by decide) (by decide)) hw hv hwcs hvcs
    · exact decimal_of_marked (hmark (by decide) (by decide)) hw hv hwcs hvcs
    · exact decimal_of_marked (hmark (by decide) (by decide)) hw hv hwcs hvcs

theorem unsigned_head {w : List Char} (h : w ∈ unsigned) :
    ∃ c v, w = c :: v ∧ c.isDigit = true := by
  have hmarked : ∀ {isMark isDigit : Char → Bool}, w ∈ marked isMark isDigit →
      ∃ c v, w = c :: v ∧ c.isDigit = true := by
    intro isMark isDigit h
    obtain ⟨m, run, -, -, rfl⟩ := mem_marked.mp h
    exact ⟨'0', _, rfl, rfl⟩
  rcases h with ((h | h) | h) | h
  · exact hmarked h
  · exact hmarked h
  · exact hmarked h
  · rw [decimal, digits_eq] at h
    obtain ⟨c, v, hc, -, rfl⟩ := mem_one_mul.mp h
    exact ⟨c, v, rfl, hc⟩

theorem finds_number : Finds Lexeme.number matchNumber where
  sound {cs w rest} h := by
    unfold matchNumber at h
    split at h
    · rename_i c ds
      split_ifs at h with hc
      · obtain ⟨v, hv, rfl, rfl⟩ := (findsAfter_unsigned [c]).sound h
        exact ⟨_, ⟨[c], .inr ⟨c, hc, rfl⟩, v, hv, rfl⟩, rfl, rfl⟩
      · obtain ⟨v, hv, hw, happ⟩ := (findsAfter_unsigned []).sound h
        exact ⟨v, ⟨[], .inl rfl, v, hv, rfl⟩, hw, happ⟩
    · cases h
  longest {cs v} hv h := by
    obtain ⟨s, hs, u, hu, rfl⟩ := Language.mem_mul.mp hv
    obtain ⟨rest, rfl⟩ := h
    rcases hs with hs | ⟨c, hc, rfl⟩
    · rw [(Language.mem_one s).mp hs]
      obtain ⟨w, rest', heq, hpre⟩ :=
        (findsAfter_unsigned []).longest hu (List.prefix_append u rest)
      refine ⟨w, rest', ?_, hpre⟩
      obtain ⟨d, u, rfl, hd⟩ := unsigned_head hu
      have hsign : ¬ ((d = '+' || d = '-') = true) := by
        simp only [Bool.or_eq_true, decide_eq_true_eq]
        rintro (rfl | rfl) <;> cases hd
      exact (if_neg hsign).trans heq
    · obtain ⟨w, rest', heq, hpre⟩ :=
        (findsAfter_unsigned [c]).longest hu (List.prefix_append u rest)
      refine ⟨c :: w, rest', ?_, by simpa using hpre⟩
      exact (if_pos hc).trans heq

/-! ### Strings and library ids -/

theorem stringRest_quote (done rest : List Char) :
    stringRest done ('"' :: rest) = some (('"' :: done).reverse, rest) := by
  rw [stringRest.eq_def]
  simp

theorem stringRest_escaped (done rest : List Char) {c : Char} (hc : c ≠ '\n') :
    stringRest done ('\\' :: c :: rest) = stringRest (c :: '\\' :: done) rest := by
  rw [stringRest.eq_def]
  simp [hc]

theorem stringRest_plain (done rest : List Char) {c : Char}
    (hc : c ≠ '"' ∧ c ≠ '\\' ∧ c ≠ '\n') :
    stringRest done (c :: rest) = stringRest (c :: done) rest := by
  rw [stringRest.eq_def]
  simp [hc]

theorem stringRest_eq_some {done cs w rest : List Char} :
    stringRest done cs = some (w, rest) ↔
      ∃ body ∈ stringItem∗, cs = body ++ '"' :: rest ∧ w = done.reverse ++ body ++ ['"'] := by
  constructor
  · intro h
    fun_induction stringRest done cs with
    | case2 done cs =>
      cases h
      exact ⟨[], Language.nil_mem_kstar _, rfl, by simp⟩
    | case5 done c cs hc _ _ ih =>
      obtain ⟨body, hbody, rfl, rfl⟩ := ih h
      refine ⟨'\\' :: c :: body, mem_kstar_iff.mpr (.inr ⟨['\\', c], .inl ?_, body, hbody, rfl⟩),
        rfl, by simp⟩
      exact mem_fixed_mul.mpr ⟨[c], ⟨c, by simpa using hc, rfl⟩, rfl⟩
    | case7 done c cs hquote hfeed hslash ih =>
      obtain ⟨body, hbody, rfl, rfl⟩ := ih h
      refine ⟨c :: body, mem_kstar_iff.mpr (.inr ⟨[c], .inr ?_, body, hbody, rfl⟩), rfl, by simp⟩
      exact ⟨c, by simp [hquote, hfeed, hslash], rfl⟩
    | _ => cases h
  · rintro ⟨_, hbody, rfl, rfl⟩
    obtain ⟨items, rfl, hitems⟩ := Language.mem_kstar.mp hbody
    clear hbody
    induction items generalizing done with
    | nil => simpa using stringRest_quote done rest
    | cons item items ih =>
      obtain ⟨hitem, hrest⟩ := List.forall_mem_cons.mp hitems
      rcases hitem with hescaped | ⟨c, hc, rfl⟩
      · obtain ⟨_, ⟨c, hc, rfl⟩, rfl⟩ := mem_fixed_mul.mp hescaped
        simp only [List.flatten_cons, List.cons_append, List.nil_append]
        rw [stringRest_escaped _ _ (by simpa using hc), ih hrest]
        simp
      · simp only [List.flatten_cons, List.cons_append, List.nil_append]
        rw [stringRest_plain _ _ (by simpa [and_assoc] using hc), ih hrest]
        simp

theorem finds_string : Finds Lexeme.string matchString where
  sound {cs w rest} h := by
    unfold matchString at h
    split at h
    · obtain ⟨body, hbody, rfl, rfl⟩ := stringRest_eq_some.mp h
      refine ⟨_, ?_, rfl, by simp⟩
      rw [Lexeme.string, mul_assoc]
      exact mem_fixed_mul.mpr ⟨body ++ ['"'], ⟨body, hbody, ['"'], rfl, rfl⟩, by simp⟩
    · cases h
  longest {cs v} hv h := by
    rw [Lexeme.string, mul_assoc] at hv
    obtain ⟨_, ⟨body, hbody, _, rfl, rfl⟩, rfl⟩ := mem_fixed_mul.mp hv
    obtain ⟨rest, rfl⟩ := h
    refine ⟨_, rest, ?_, List.prefix_rfl⟩
    exact stringRest_eq_some.mpr ⟨body, hbody, by simp, by simp⟩

theorem mem_newline {w : List Char} : w ∈ Lexeme.newline ↔ w = ['\n'] ∨ w = ['\r', '\n'] := by
  constructor
  · intro h
    obtain ⟨a, ha | ha, b, hb, rfl⟩ := Language.mem_mul.mp h
    · rw [(Language.mem_one a).mp ha, mem_fixed.mp hb]
      exact .inl rfl
    · rw [mem_fixed.mp ha, mem_fixed.mp hb]
      exact .inr rfl
  · rintro (rfl | rfl)
    · exact Language.mem_mul.mpr ⟨[], .inl rfl, ['\n'], mem_fixed.mpr rfl, rfl⟩
    · exact Language.mem_mul.mpr ⟨['\r'], .inr rfl, ['\n'], mem_fixed.mpr rfl, rfl⟩

theorem mem_libraryId {w : List Char} : w ∈ Lexeme.libraryId ↔ ∃ algorithm run,
    (∃ c cs, algorithm = c :: cs ∧ c.isLower = true) ∧
      (∀ d ∈ algorithm, (d.isLower || d.isDigit) = true) ∧
      run ∈ many isHexDigit ∧ w = algorithm ++ ':' :: run := by
  rw [Lexeme.libraryId, mul_assoc, mul_assoc]
  constructor
  · intro h
    obtain ⟨c, v, hc, ⟨cs, hcs, u, hu, rfl⟩, rfl⟩ := mem_one_mul.mp h
    obtain ⟨run, hrun, rfl⟩ := mem_fixed_mul.mp hu
    exact ⟨c :: cs, run, ⟨c, cs, rfl, hc⟩,
      List.forall_mem_cons.mpr ⟨by simp [hc], mem_one_kstar.mp hcs⟩, hrun, rfl⟩
  · rintro ⟨_, run, ⟨c, cs, rfl, hc⟩, hall, hrun, rfl⟩
    exact mem_one_mul.mpr ⟨c, _, hc, ⟨cs, mem_one_kstar.mpr (List.forall_mem_cons.mp hall).2, _,
      mem_fixed_mul.mpr ⟨run, hrun, rfl⟩, rfl⟩, rfl⟩

theorem finds_libraryId : Finds Lexeme.libraryId matchLibraryId where
  sound {cs w rest} h := by
    unfold matchLibraryId at h
    split at h
    · rename_i c ds
      split_ifs at h with hc
      simp only [List.span_eq_takeWhile_dropWhile] at h
      split at h
      · rename_i d after hdrop
        split_ifs at h with hd
        cases h
        refine ⟨_, mem_libraryId.mpr ⟨_, _, ⟨c, _, List.takeWhile_cons_of_pos (by simp [hc]), hc⟩,
          fun e he => ?_, mem_many.mpr ⟨?_, fun e he => ?_⟩, rfl⟩, rfl, ?_⟩
        · exact List.mem_takeWhile_imp (p := fun d : Char => d.isLower || d.isDigit) he
        · simp [List.takeWhile_cons_of_pos hd]
        · exact List.mem_takeWhile_imp he
        · rw [List.append_assoc, List.cons_append, List.takeWhile_append_dropWhile, ← hdrop,
            List.takeWhile_append_dropWhile]
      · cases h
    · cases h
  longest {cs v} hv h := by
    obtain ⟨_, run, ⟨c, ds, rfl, hc⟩, hall, hrun, rfl⟩ := mem_libraryId.mp hv
    obtain ⟨hne, hhex⟩ := mem_many.mp hrun
    obtain ⟨d, run, rfl⟩ := List.exists_cons_of_ne_nil hne
    have hd := (List.forall_mem_cons.mp hhex).1
    obtain ⟨rest, rfl⟩ := h
    have hspan : (c :: ds ++ ':' :: d :: run ++ rest).span (fun e => e.isLower || e.isDigit) =
        (c :: ds, ':' :: d :: (run ++ rest)) := by
      rw [List.span_eq_takeWhile_dropWhile, List.append_assoc, List.takeWhile_append_of_pos hall,
        List.dropWhile_append_of_pos hall]
      simp
    refine ⟨c :: ds ++ ':' :: (d :: run ++ rest).takeWhile isHexDigit,
      (d :: run ++ rest).dropWhile isHexDigit, ?_, ?_⟩
    · rw [List.cons_append, List.cons_append] at hspan ⊢
      rw [matchLibraryId, if_pos hc, hspan]
      simp only [if_pos hd, List.span_eq_takeWhile_dropWhile]
      rfl
    · rw [List.prefix_append_right_inj, List.cons_prefix_cons]
      exact ⟨rfl, prefix_takeWhile hhex (List.prefix_append _ rest)⟩

/-- **The recogniser of every class finds the longest of its texts.** -/
theorem finds_match? (t : Terminal) : Finds t.language t.match? := by
  cases t with
  | keyword s => exact finds_word _
  | newline => exact finds_newline
  | name => exact finds_name
  | number => exact finds_number
  | string => exact finds_string
  | libraryId => exact finds_libraryId
  | endOfText => exact { sound := nofun, longest := nofun }
  | _ => exact finds_word _

end AluVM.Syntax
