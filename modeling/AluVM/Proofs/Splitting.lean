import AluVM.Proofs.Grammar
import AluVM.Proofs.Lexemes
import AluVM.Syntax.Scan

/-! # Splitting a text into words

The grammar steers how a text is split: at each place the longest text counts that is ignored or
that belongs to a class of words which the grammar allows next (`Splits`). The reader looks for more
classes than that, but of those that it looks for at most one has a word at any place
(`scans_unique`), so both come to the same words. What the reader drops (`Drops`) and what it does
with what is left (`Turn`) is said once, for all that is proved about its runs. A text splits in at
most one way (`Splits.unique`), and the reader finds the statements of a derivation of its words
exactly if there is one (`readStatements_eq_ok`). -/

namespace AluVM.Syntax

open Lexeme Grammar

/-! ### Words by longest match -/

/-- The words derive from the grammar. -/
def Derivable (ts : List Token) : Prop := ∃ parts, source.Derives ts parts

/-- The grammar allows a word of the class after the words that have been read. -/
def Allowed (done : List Token) (k : Terminal) : Prop :=
  ∃ t ts, t.terminal = k ∧ Derivable (done ++ t :: ts)

/-- What is looked for after the words that have been read. -/
def candidates (done : List Token) : Language Char :=
  {w | w ∈ ignored ∨ ∃ k, Allowed done k ∧ w ∈ k.language}

/-- The longest text of the language at the head of the characters. -/
def IsLongest (l : Language Char) (w cs : List Char) : Prop :=
  w ∈ l ∧ w <+: cs ∧ ∀ v ∈ l, v <+: cs → v.length ≤ w.length

/-- **A text, from a place on, is split into words by longest match**, after the words of `done`:
every word is the longest text of a class that the grammar allows there, and blanks, tabs and
comments are dropped. -/
inductive Splits : (done : List Token) → Position → List Char → List Token → Prop where
  | nil {done : List Token} {pos : Position} : Splits done pos [] []
  | skip {done ts : List Token} {pos : Position} {gap rest : List Char}
      (longest : IsLongest (candidates done) gap (gap ++ rest)) (hgap : gap ∈ ignored)
      (hrest : Splits done ⟨pos.line, pos.col + gap.length⟩ rest ts) :
      Splits done pos (gap ++ rest) ts
  | word {done ts : List Token} {pos : Position} {w rest : List Char} {k : Terminal}
      (longest : IsLongest (candidates done) w (w ++ rest)) (allowed : Allowed done k)
      (hw : w ∈ k.language)
      (hrest : Splits (done ++ [⟨k, String.ofList w, pos⟩]) (Position.after pos k w) rest ts) :
      Splits done pos (w ++ rest) (⟨k, String.ofList w, pos⟩ :: ts)

/-- **A text is split into words**, with an end for its last line. -/
def SplitsInto (text : String) (words : List Token) : Prop :=
  Splits [] ⟨1, 1⟩ (closeText text.toList) words

/-- Every word is a text of its class. -/
theorem Splits.mem_language {done ts : List Token} {pos : Position} {text : List Char}
    (h : Splits done pos text ts) : ∀ t ∈ ts, t.text.toList ∈ t.terminal.language := by
  induction h with
  | nil => simp
  | skip _ _ _ ih => exact ih
  | word _ _ hw _ ih => exact List.forall_mem_cons.mpr ⟨by simpa using hw, ih⟩

/-- Every word is a part of the text. -/
theorem Splits.infix {done ts : List Token} {pos : Position} {text : List Char}
    (h : Splits done pos text ts) : ∀ t ∈ ts, t.text.toList <:+: text := by
  induction h with
  | nil => simp
  | skip _ _ _ ih => exact fun t ht => (ih t ht).trans (List.suffix_append _ _).isInfix
  | word _ _ _ _ ih =>
    refine List.forall_mem_cons.mpr ⟨?_, fun t ht => (ih t ht).trans ?_⟩
    · rw [String.toList_ofList]
      exact (List.prefix_append _ _).isInfix
    · exact (List.suffix_append _ _).isInfix

theorem IsLongest.unique {l : Language Char} {w v cs : List Char} (hw : IsLongest l w cs)
    (hv : IsLongest l v cs) : w = v := by
  refine (List.prefix_of_prefix_length_le hw.2.1 hv.2.1 (hv.2.2 w hw.1 hw.2.1)).eq_of_length_le ?_
  exact hw.2.2 v hv.1 hv.2.1

/-! ### How words start -/

/-- The kinds of characters that words start with. -/
inductive Start where
  | letter
  | digit
  | point
  | feed
  | quote
  | mark (c : Char)
  | none
  deriving DecidableEq

/-- How a word starts with a character. -/
def startOf (c : Char) : Start :=
  if startsName c then .letter
  else if c.isDigit || c = '+' || c = '-' then .digit
  else if c = '.' then .point
  else if c = '\n' || c = '\r' then .feed
  else if c = '"' then .quote
  else if c ∈ ['=', ',', ':', '[', ']'] then .mark c
  else .none

/-- How the words of a class start. -/
def Terminal.start : Terminal → Start
  | .keyword _ | .dot => .point
  | .newline => .feed
  | .name | .libraryId => .letter
  | .number => .digit
  | .string => .quote
  | .equals => .mark '='
  | .comma => .mark ','
  | .colon => .mark ':'
  | .leftBracket => .mark '['
  | .rightBracket => .mark ']'
  | .endOfText => .none

theorem startOf_of_mem {k : Terminal} {w : List Char} (h : w ∈ k.language) :
    ∃ c v, w = c :: v ∧ startOf c = k.start ∧ k.start ≠ .none := by
  have hdigit : ∀ {c : Char}, (c.isDigit || c = '+' || c = '-') = true → startOf c = .digit := by
    intro c hc
    have hname : startsName c = false := by
      simp only [Bool.or_eq_true, decide_eq_true_eq] at hc
      rcases hc with (hc | rfl) | rfl
      · unfold startsName Char.isAlpha Char.isUpper Char.isLower
        simp only [Char.isDigit, Bool.or_eq_false_iff, Bool.and_eq_true, Bool.and_eq_false_iff,
          decide_eq_true_eq, decide_eq_false_iff_not, UInt32.le_iff_toNat_le, ge_iff_le] at hc ⊢
        have h9 : '9'.val.toNat = 57 := rfl
        have hA : 'A'.val.toNat = 65 := rfl
        have ha : 'a'.val.toNat = 97 := rfl
        refine ⟨⟨by omega, by omega⟩, ?_⟩
        rintro rfl
        revert hc
        decide
      · rfl
      · rfl
    rw [startOf, if_neg (by simp [hname]), if_pos hc]
  cases k with
  | keyword s =>
    rw [mem_fixed.mp h]
    cases s <;> exact ⟨_, _, rfl, rfl, by decide⟩
  | newline =>
    rcases mem_newline.mp h with rfl | rfl <;> exact ⟨_, _, rfl, rfl, by decide⟩
  | name =>
    obtain ⟨c, v, hc, -, rfl⟩ := mem_one_mul.mp h
    exact ⟨c, v, rfl, if_pos hc, by decide⟩
  | number =>
    obtain ⟨a, ha | ⟨c, hc, rfl⟩, u, hu, rfl⟩ := Language.mem_mul.mp h
    · rw [(Language.mem_one a).mp ha]
      obtain ⟨c, v, rfl, hc⟩ := unsigned_head hu
      exact ⟨c, v, rfl, hdigit (by simp [hc]), by decide⟩
    · exact ⟨c, u, rfl, hdigit (by simpa [or_assoc] using Or.inr (by simpa using hc)), by decide⟩
  | string =>
    rw [Terminal.language, Lexeme.string, mul_assoc] at h
    obtain ⟨v, -, rfl⟩ := mem_fixed_mul.mp h
    exact ⟨_, _, rfl, rfl, by decide⟩
  | libraryId =>
    obtain ⟨_, run, ⟨c, cs, rfl, hc⟩, -, -, rfl⟩ := mem_libraryId.mp h
    refine ⟨c, _, rfl, if_pos ?_, by decide⟩
    unfold startsName Char.isAlpha
    simp [hc]
  | endOfText => exact absurd h (Language.notMem_zero _)
  | _ =>
    rw [mem_fixed.mp h]
    exact ⟨_, _, rfl, rfl, by decide⟩

/-- Taking a word leaves less of a text. -/
theorem length_lt_of_word {k : Terminal} {w : List Char} (hw : w ∈ k.language) (after : List Char) :
    after.length < (w ++ after).length := by
  obtain ⟨c, v, rfl, -, -⟩ := startOf_of_mem hw
  rw [List.length_append, List.length_cons]
  omega

theorem startOf_of_ignored {w : List Char} (h : w ∈ ignored) :
    ∃ c v, w = c :: v ∧ startOf c = .none := by
  rcases h with h | h
  · obtain ⟨c, v, hc, -, rfl⟩ := mem_one_mul.mp h
    simp only [Bool.or_eq_true, decide_eq_true_eq] at hc
    rcases hc with rfl | rfl <;> exact ⟨_, v, rfl, rfl⟩
  · obtain ⟨a, ha, v, -, rfl⟩ := Language.mem_mul.mp h
    rcases ha with (ha | ha) | ha <;> rw [mem_fixed.mp ha] <;> exact ⟨_, _, rfl, rfl⟩

/-- What is ignored does not start like a word. -/
theorem not_prefix_of_ignored {k : Terminal} {v w cs : List Char} (hv : v ∈ ignored)
    (hw : w ∈ k.language) (hvcs : v <+: cs) : ¬ w <+: cs := by
  intro hwcs
  obtain ⟨c, v, rfl, hc⟩ := startOf_of_ignored hv
  obtain ⟨d, w, rfl, hd, hne⟩ := startOf_of_mem hw
  obtain ⟨rest, rfl⟩ := hvcs
  obtain ⟨rfl, -⟩ := List.cons_prefix_cons.mp hwcs
  exact hne (hd.symm.trans hc)

theorem section_eq_of_keywords {s s' : Section}
    (h : s.keyword.toList <+: s'.keyword.toList) : s = s' := by
  revert h
  cases s <;> cases s' <;> decide

/-- Of the classes that are looked for, only keywords start alike. -/
theorem scans_start (line : Line) : ∀ k ∈ line.scans, ∀ k' ∈ line.scans, k.start = k'.start →
    k = k' ∨ (k ∈ Terminal.keywords ∧ k' ∈ Terminal.keywords) := by
  cases line <;> simp only [Line.scans] <;> decide

/-- **At most one class that is looked for has a word here.** -/
theorem scans_unique {line : Line} {k k' : Terminal} {w w' cs : List Char} (hk : k ∈ line.scans)
    (hk' : k' ∈ line.scans) (hw : w ∈ k.language) (hw' : w' ∈ k'.language) (h : w <+: cs)
    (h' : w' <+: cs) : k = k' := by
  have hstart : k.start = k'.start := by
    obtain ⟨c, v, rfl, hc, -⟩ := startOf_of_mem hw
    obtain ⟨d, v', rfl, hd, -⟩ := startOf_of_mem hw'
    obtain ⟨rest, rfl⟩ := h
    obtain ⟨rfl, -⟩ := List.cons_prefix_cons.mp h'
    exact hc.symm.trans hd
  rcases scans_start line k hk k' hk' hstart with rfl | ⟨hkey, hkey'⟩
  · rfl
  · obtain ⟨s, -, rfl⟩ := List.mem_map.mp hkey
    obtain ⟨s', -, rfl⟩ := List.mem_map.mp hkey'
    rw [mem_fixed.mp hw] at h
    rw [mem_fixed.mp hw'] at h'
    rcases List.prefix_or_prefix_of_prefix h h' with h | h
    · rw [section_eq_of_keywords h]
    · rw [section_eq_of_keywords h]

/-! ### The scanner -/

/-- **The scanner finds the longest word of the class that has one.** -/
theorem scanWord_of_mem {line : Line} {k : Terminal} {w cs : List Char} (hk : k ∈ line.scans)
    (hw : w ∈ k.language) (h : w <+: cs) :
    ∃ v rest, scanWord line.scans cs = some (k, v, rest) ∧ w <+: v := by
  obtain ⟨v, rest, hmatch, hwv⟩ := (finds_match? k).longest hw h
  refine ⟨v, rest, ?_, hwv⟩
  rcases hscan : scanWord line.scans cs with _ | ⟨k', v', rest'⟩
  · have hnone := List.findSome?_eq_none_iff.mp hscan k hk
    rw [hmatch] at hnone
    cases hnone
  · obtain ⟨k'', hk'', hsome⟩ := List.exists_of_findSome?_eq_some hscan
    obtain ⟨m, hmatch', heq⟩ := Option.map_eq_some_iff.mp hsome
    cases heq
    obtain ⟨hu, rfl⟩ := (finds_match? k').mem hmatch'
    obtain rfl := scans_unique hk hk'' hw hu h (List.prefix_append v' rest')
    rw [hmatch] at hmatch'
    cases hmatch'
    rfl

theorem scanWord_sound {line : Line} {k : Terminal} {w rest cs : List Char}
    (h : scanWord line.scans cs = some (k, w, rest)) :
    k ∈ line.scans ∧ w ∈ k.language ∧ w ++ rest = cs ∧
      ∀ k' ∈ line.scans, ∀ v ∈ k'.language, v <+: cs → v.length ≤ w.length := by
  obtain ⟨k', hk, hsome⟩ := List.exists_of_findSome?_eq_some h
  obtain ⟨m, hmatch, heq⟩ := Option.map_eq_some_iff.mp hsome
  cases heq
  obtain ⟨hw, happ⟩ := (finds_match? k).mem hmatch
  refine ⟨hk, hw, happ, fun k' hk' v hv hvcs => ?_⟩
  obtain ⟨v', rest', hscan, hpre⟩ := scanWord_of_mem hk' hv hvcs
  rw [h] at hscan
  cases hscan
  exact hpre.length_le

/-- The scanner finds a word if no longer one of its class stands there. -/
theorem scanWord_of_longest {line : Line} {k : Terminal} {w rest : List Char} (hk : k ∈ line.scans)
    (hw : w ∈ k.language) (hlongest : ∀ v ∈ k.language, v <+: w ++ rest → v.length ≤ w.length) :
    scanWord line.scans (w ++ rest) = some (k, w, rest) := by
  obtain ⟨v, rest', hscan, hwv⟩ := scanWord_of_mem hk hw (List.prefix_append w rest)
  obtain ⟨-, hv, happ, -⟩ := scanWord_sound hscan
  obtain rfl : w = v := hwv.eq_of_length_le (hlongest v hv ⟨rest', happ⟩)
  obtain rfl := List.append_cancel_left happ
  exact hscan

/-! ### What is ignored -/

/-- Where the language has a text at the head of the characters, it has a longest one. -/
theorem exists_isLongest {l : Language Char} {v cs : List Char} (hv : v ∈ l) (h : v <+: cs) :
    ∃ w, IsLongest l w cs := by
  induction hn : cs.length - v.length using Nat.strong_induction_on generalizing v with
  | _ n ih =>
    by_cases hlongest : ∀ u ∈ l, u <+: cs → u.length ≤ v.length
    · exact ⟨v, hv, h, hlongest⟩
    · push Not at hlongest
      obtain ⟨u, hu, hucs, hlt⟩ := hlongest
      have hle := hucs.length_le
      exact ih _ (by omega) hu hucs rfl

theorem skip_blanks {gap : List Char} (h : ∀ c ∈ gap, (c = ' ' || c = '\t') = true) (col : Nat)
    (rest : List Char) : skip col (gap ++ rest) = skip (col + gap.length) rest := by
  induction gap generalizing col with
  | nil => rfl
  | cons c gap ih =>
    obtain ⟨hc, hgap⟩ := List.forall_mem_cons.mp h
    have hstep : skip col (c :: (gap ++ rest)) = skip (col + 1) (gap ++ rest) := by
      simp [skip, skipFrom, hc]
    rw [List.cons_append, hstep, ih hgap, List.length_cons, Nat.add_right_comm, Nat.add_assoc]

/-- The rest of a comment is dropped up to the end of its line. -/
theorem skipFrom_comment {body rest : List Char} (h : ∀ c ∈ body, c ≠ '\n')
    (hrest : rest = [] ∨ ∃ cs, rest = '\n' :: cs) (col : Nat) :
    skipFrom true col (body ++ rest) = (col + body.length, rest) := by
  induction body generalizing col with
  | nil => rcases hrest with rfl | ⟨cs, rfl⟩ <;> rfl
  | cons c body ih =>
    obtain ⟨hc, hbody⟩ := List.forall_mem_cons.mp h
    rw [List.cons_append, skipFrom, if_pos rfl, if_neg hc, ih hbody, List.length_cons]
    congr 1
    omega

theorem mem_comment {w : List Char} : w ∈ comment ↔
    ∃ mark ∈ [[';'], ['/', '/'], ['#']], ∃ body, (∀ c ∈ body, c ≠ '\n') ∧ w = mark ++ body := by
  have hmark : ∀ mark : List Char, mark ∈ fixed [';'] + fixed ['/', '/'] + fixed ['#'] ↔
      mark ∈ [[';'], ['/', '/'], ['#']] := by
    intro mark
    simp only [Language.mem_add, mem_fixed, List.mem_cons, List.not_mem_nil, or_false, or_assoc]
  rw [comment, Language.mem_mul]
  constructor
  · rintro ⟨mark, hm, body, hbody, rfl⟩
    exact ⟨mark, (hmark mark).mp hm, body, by simpa using mem_one_kstar.mp hbody, rfl⟩
  · rintro ⟨mark, hm, body, hbody, rfl⟩
    exact ⟨mark, (hmark mark).mpr hm, body, mem_one_kstar.mpr (by simpa using hbody), rfl⟩

theorem skip_comment {gap rest : List Char} (h : gap ∈ comment)
    (hlongest : ∀ v ∈ comment, v <+: gap ++ rest → v.length ≤ gap.length) (col : Nat) :
    skip col (gap ++ rest) = skip (col + gap.length) rest := by
  obtain ⟨mark, hmark, body, hbody, rfl⟩ := mem_comment.mp h
  -- A longest comment reaches to the end of its line.
  have hrest : rest = [] ∨ ∃ cs, rest = '\n' :: cs := by
    rcases rest with _ | ⟨c, cs⟩
    · exact .inl rfl
    · by_cases hc : c = '\n'
      · exact .inr ⟨cs, by rw [hc]⟩
      · have hmore : mark ++ (body ++ [c]) ∈ comment := by
          refine mem_comment.mpr ⟨mark, hmark, body ++ [c], ?_, rfl⟩
          simpa [or_imp, forall_and] using ⟨hbody, hc⟩
        have hle := hlongest _ hmore ⟨cs, by simp⟩
        simp only [List.length_append, List.length_singleton] at hle
        omega
  have hskip : ∀ col, skip col rest = (col, rest) := by
    intro col
    rcases hrest with rfl | ⟨cs, rfl⟩ <;> rfl
  have hslash : ∀ c ∈ '/' :: body, c ≠ '\n' := by
    simpa using hbody
  rw [hskip, List.append_assoc]
  simp only [List.mem_cons, List.not_mem_nil, or_false] at hmark
  rcases hmark with rfl | rfl | rfl
  · refine (skipFrom_comment hbody hrest (col + 1)).trans ?_
    congr 1
    simp only [List.length_append, List.length_singleton]
    omega
  · refine (skipFrom_comment hslash hrest (col + 1)).trans ?_
    congr 1
    simp only [List.length_append, List.length_cons, List.length_nil]
    omega
  · refine (skipFrom_comment hbody hrest (col + 1)).trans ?_
    congr 1
    simp only [List.length_append, List.length_singleton]
    omega

/-- Dropping the longest text that is ignored is a step of the scanner. -/
theorem skip_of_isLongest {gap rest : List Char} (h : IsLongest ignored gap (gap ++ rest))
    (col : Nat) : skip col (gap ++ rest) = skip (col + gap.length) rest := by
  obtain ⟨hgap | hgap, -, hlongest⟩ := h
  · exact skip_blanks (mem_many.mp hgap).2 col rest
  · exact skip_comment hgap (fun v hv => hlongest v (.inr hv)) col

theorem skip_of_not_ignored {cs : List Char} (h : ∀ v ∈ ignored, ¬ v <+: cs) (col : Nat) :
    skip col cs = (col, cs) := by
  rcases cs with _ | ⟨c, cs⟩
  · rfl
  · have hblank : ¬ ((c = ' ' || c = '\t') = true) := by
      intro hc
      exact h [c] (.inl (mem_many.mpr ⟨by simp, by simpa using hc⟩)) (by simp)
    have hmark : ¬ ((c = ';' || c = '#' || (c = '/' && cs.head? = some '/')) = true) := by
      intro hc
      have hcomment : ∀ mark ∈ [[';'], ['/', '/'], ['#']], ¬ mark <+: c :: cs := by
        intro mark hm
        exact h mark (.inr (mem_comment.mpr ⟨mark, hm, [], by simp, by simp⟩))
      simp only [Bool.or_eq_true, Bool.and_eq_true, decide_eq_true_eq] at hc
      rcases hc with (rfl | rfl) | ⟨rfl, hhead⟩
      · exact hcomment [';'] (by simp) (by simp)
      · exact hcomment ['#'] (by simp) (by simp)
      · obtain ⟨ds, rfl⟩ := List.head?_eq_some_iff.mp hhead
        exact hcomment ['/', '/'] (by simp) (by simp)
    rw [skip, skipFrom, if_neg (by simp), if_neg hblank, if_neg hmark]

/-- Texts that are ignored are dropped one after the other, the longest one each time, until none is
left at the head. -/
inductive Drops : Nat → List Char → Nat → List Char → Prop where
  | none {col : Nat} {text : List Char} (h : ∀ v ∈ ignored, ¬ v <+: text) : Drops col text col text
  | gap {col col' : Nat} {gap text rest : List Char} (longest : IsLongest ignored gap (gap ++ text))
      (h : Drops (col + gap.length) text col' rest) : Drops col (gap ++ text) col' rest

theorem drops_of_skip {col col' : Nat} {text rest : List Char} (h : skip col text = (col', rest)) :
    Drops col text col' rest := by
  induction hn : text.length using Nat.strong_induction_on generalizing col text with
  | _ n ih =>
    by_cases hignored : ∃ v ∈ ignored, v <+: text
    · obtain ⟨v, hv, hvtext⟩ := hignored
      obtain ⟨gap, hlongest⟩ := exists_isLongest hv hvtext
      obtain ⟨text, rfl⟩ := hlongest.2.1
      have hgap : 0 < gap.length := by
        obtain ⟨c, gap, rfl, -⟩ := startOf_of_ignored hlongest.1
        simp
      rw [List.length_append] at hn
      have hskip : skip (col + gap.length) text = (col', rest) := by
        rw [← h, skip_of_isLongest hlongest]
      exact .gap hlongest (ih text.length (by omega) hskip rfl)
    · push Not at hignored
      rw [skip_of_not_ignored hignored] at h
      cases h
      exact .none hignored

/-- The longest text that is ignored is the longest one that is looked for. -/
theorem IsLongest.candidates {gap text : List Char} (h : IsLongest ignored gap text)
    (done : List Token) : IsLongest (candidates done) gap text := by
  refine ⟨.inl h.1, h.2.1, ?_⟩
  rintro u (hu | ⟨k, -, hu⟩) hutext
  · exact h.2.2 u hu hutext
  · exact absurd hutext (not_prefix_of_ignored h.1 hu h.2.1)

/-- Blanks, tabs and comments can be dropped all at once. -/
theorem skip_spec (done : List Token) {pos : Position} {col : Nat} {text rest : List Char}
    (h : skip pos.col text = (col, rest)) : (∀ v ∈ ignored, ¬ v <+: rest) ∧
      rest.length ≤ text.length ∧
      ∀ ts, Splits done ⟨pos.line, col⟩ rest ts → Splits done pos text ts := by
  obtain ⟨line, start⟩ := pos
  have hdrops : Drops start text col rest := drops_of_skip h
  clear h
  induction hdrops with
  | none hignored => exact ⟨hignored, Nat.le_refl _, fun ts hts => hts⟩
  | gap longest _ ih =>
    obtain ⟨hrest, hlength, hsplits⟩ := ih
    refine ⟨hrest, ?_, fun ts hts => .skip (longest.candidates done) longest.1 (hsplits ts hts)⟩
    rw [List.length_append]
    omega

/-! ### Reading -/

/-- The state follows the words: what completes it is what completes them. -/
structure Follows (done : List Token) (s : State) : Prop where
  proper : Proper s
  derivable (ts : List Token) : Derivable (done ++ ts) ↔ ∃ sts, (rest s).Derives ts sts

theorem follows_start : Follows [] .start := by
  refine ⟨fun _ => rfl, fun ts => ?_⟩
  rw [List.nil_append, rest_start]
  constructor
  · rintro ⟨parts, h⟩
    exact ⟨_, Phrase.derives_map.mpr ⟨parts, h, rfl⟩⟩
  · rintro ⟨sts, h⟩
    obtain ⟨parts, h, -⟩ := Phrase.derives_map.mp h
    exact ⟨parts, h⟩

/-- The reader steps only with words that are looked for. -/
theorem mem_scans_of_step {s next : State} {t : Token} (h : s.step t = some next) :
    t.terminal ∈ s.line.scans := by
  obtain ⟨part, line⟩ := s
  unfold State.step at h
  split_ifs at h with hallows
  have hcases : t.terminal = .endOfText ∨ t.terminal ∈ line.scans := by
    cases line
    case first =>
      simp only [State.allows, Line.scans, List.mem_append, List.mem_cons] at hallows ⊢
      tauto
    case blank =>
      simp only [State.allows, Line.scans] at hallows ⊢
      split_ifs at hallows <;> simp only [List.mem_append, List.mem_cons] at hallows ⊢ <;> tauto
    all_goals
      simp only [State.allows, Line.scans, List.mem_cons, List.not_mem_nil, or_false] at hallows ⊢
      tauto
  rcases hcases with hend | hmem
  · have hextend : (⟨part, line⟩ : State).extend t = none := by
      cases line <;> simp [State.extend, hend]
    simp [hend, hextend] at h
  · exact hmem

theorem exists_step_of_terminal {s next : State} {t t' : Token} (ht : t.terminal = t'.terminal)
    (h : s.step t = some next) : ∃ next', s.step t' = some next' := by
  obtain ⟨part, line⟩ := s
  obtain ⟨k, text, pos⟩ := t
  obtain ⟨k', text', pos'⟩ := t'
  obtain rfl : k = k' := ht
  have hextend : ((⟨part, line⟩ : State).extend ⟨k, text, pos⟩).isSome =
      ((⟨part, line⟩ : State).extend ⟨k, text', pos'⟩).isSome := by
    cases line <;> cases k <;> simp [State.extend]
  unfold State.step at h ⊢
  split_ifs at h with hallows
  rw [if_pos hallows]
  cases k with
  | keyword | newline => exact ⟨_, rfl⟩
  | _ =>
    obtain ⟨line', hline, -⟩ := Option.map_eq_some_iff.mp h
    rw [hline] at hextend
    obtain ⟨line'', hline⟩ := Option.isSome_iff_exists.mp hextend.symm
    exact ⟨_, Option.map_eq_some_iff.mpr ⟨line'', hline, rfl⟩⟩

section Follows
variable {done : List Token} {s next : State} {t : Token} (h : Follows done s)
include h

theorem Follows.step (hstep : s.step t = some next) : Follows (done ++ [t]) next := by
  refine ⟨Proper.step hstep, fun ts => ?_⟩
  rw [List.append_assoc, List.singleton_append, h.derivable]
  constructor
  · rintro ⟨sts, hsts⟩
    obtain ⟨next', sts', hstep', hsts', -⟩ := (rest_cons h.proper).mp hsts
    rw [hstep] at hstep'
    cases hstep'
    exact ⟨sts', hsts'⟩
  · rintro ⟨sts, hsts⟩
    exact ⟨_, (rest_cons h.proper).mpr ⟨next, sts, hstep, hsts, rfl⟩⟩

/-- A word with which the reader steps is one that the grammar allows. -/
theorem Follows.allowed_of_step (hstep : s.step t = some next) : Allowed done t.terminal := by
  obtain ⟨ts, sts, hsts⟩ := productive_rest next
  exact ⟨t, ts, rfl,
    (h.derivable _).mpr ⟨_, (rest_cons h.proper).mpr ⟨next, sts, hstep, hsts, rfl⟩⟩⟩

/-- A word that the grammar allows is looked for. -/
theorem Follows.mem_scans {k : Terminal} (hk : Allowed done k) : k ∈ s.line.scans := by
  obtain ⟨t, ts, rfl, hderivable⟩ := hk
  obtain ⟨sts, hsts⟩ := (h.derivable _).mp hderivable
  obtain ⟨next, -, hstep, -, -⟩ := (rest_cons h.proper).mp hsts
  exact mem_scans_of_step hstep

/-- A word with which the reader steps is the longest text that is looked for. -/
theorem Follows.isLongest {k : Terminal} {w after : List Char}
    (hscan : scanWord s.scans (w ++ after) = some (k, w, after)) (hk : Allowed done k) :
    IsLongest (candidates done) w (w ++ after) := by
  obtain ⟨-, hw, -, hlongest⟩ := scanWord_sound hscan
  refine ⟨.inr ⟨k, hk, hw⟩, List.prefix_append w after, ?_⟩
  rintro v (hv | ⟨k', hk', hv⟩) hvcs
  · exact absurd (List.prefix_append w after) (not_prefix_of_ignored hv hw hvcs)
  · exact hlongest k' (h.mem_scans hk') v hv hvcs

/-- Whether the reader steps depends only on the class of the word. -/
theorem Follows.exists_step (hk : Allowed done t.terminal) : ∃ next, s.step t = some next := by
  obtain ⟨t', ts, hterminal, hderivable⟩ := hk
  obtain ⟨sts, hsts⟩ := (h.derivable _).mp hderivable
  obtain ⟨next, -, hstep, -, -⟩ := (rest_cons h.proper).mp hsts
  exact exists_step_of_terminal hterminal hstep

end Follows

/-- A text that starts with something ignored splits like the rest of it. -/
theorem Splits.of_skip {done ts : List Token} {pos : Position} {gap rest : List Char}
    (longest : IsLongest (candidates done) gap (gap ++ rest)) (hgap : gap ∈ ignored)
    (h : Splits done pos (gap ++ rest) ts) :
    Splits done ⟨pos.line, pos.col + gap.length⟩ rest ts := by
  generalize htext : gap ++ rest = text at h
  cases h with
  | nil =>
    obtain ⟨c, v, rfl, -⟩ := startOf_of_ignored hgap
    cases htext
  | @skip _ _ _ gap' rest' longest' hgap' hrest =>
    rw [htext] at longest
    obtain rfl := longest.unique longest'
    rwa [List.append_cancel_left htext]
  | @word _ ts _ w rest' k longest' _ hw _ =>
    have hpre : gap <+: w ++ rest' := ⟨rest, htext⟩
    exact absurd (List.prefix_append w rest') (not_prefix_of_ignored hgap hw hpre)

/-- The first word of a text is determined. -/
theorem Splits.of_word {done ts : List Token} {pos : Position} {w rest : List Char} {k : Terminal}
    {s : State} (hs : Follows done s) (longest : IsLongest (candidates done) w (w ++ rest))
    (allowed : Allowed done k) (hw : w ∈ k.language) (h : Splits done pos (w ++ rest) ts) :
    ∃ ts', ts = ⟨k, String.ofList w, pos⟩ :: ts' ∧
      Splits (done ++ [⟨k, String.ofList w, pos⟩]) (Position.after pos k w) rest ts' := by
  generalize htext : w ++ rest = text at h
  cases h with
  | nil =>
    obtain ⟨c, v, rfl, -, -⟩ := startOf_of_mem hw
    cases htext
  | @skip _ _ _ gap rest' _ hgap _ =>
    have hpre : w <+: gap ++ rest' := ⟨rest, htext⟩
    exact absurd hpre (not_prefix_of_ignored hgap hw (List.prefix_append gap rest'))
  | @word _ ts _ w' rest' k' longest' allowed' hw' hrest =>
    rw [htext] at longest
    obtain rfl := longest.unique longest'
    obtain rfl := List.append_cancel_left htext
    obtain rfl := scans_unique (hs.mem_scans allowed) (hs.mem_scans allowed') hw hw'
      (List.prefix_append w rest) (List.prefix_append w rest)
    exact ⟨ts, rfl, hrest⟩

/-- **A text splits in at most one way.** -/
theorem Splits.unique {done ts ts' : List Token} {pos : Position} {text : List Char} {s : State}
    (h : Splits done pos text ts) (hs : Follows done s) (h' : Splits done pos text ts') :
    ts = ts' := by
  induction h generalizing s ts' with
  | nil =>
    generalize htext : ([] : List Char) = text at h'
    cases h' with
    | nil => rfl
    | skip _ hgap _ =>
      obtain ⟨c, v, rfl, -⟩ := startOf_of_ignored hgap
      cases htext
    | word _ _ hw _ =>
      obtain ⟨c, v, rfl, -, -⟩ := startOf_of_mem hw
      cases htext
  | skip longest hgap _ ih => exact ih hs (h'.of_skip longest hgap)
  | @word done ts pos w rest k longest allowed hw _ ih =>
    obtain ⟨ts'', rfl, hrest⟩ := h'.of_word hs longest allowed hw
    obtain ⟨next, hstep⟩ : ∃ next, s.step ⟨k, String.ofList w, pos⟩ = some next :=
      hs.exists_step allowed
    rw [ih (hs.step hstep) hrest]

/-- The reader sees only what is left when blanks, tabs and comments are dropped. -/
theorem readFrom_skip {fuel : Nat} {s : State} {pos : Position} {col : Nat} {done : List Statement}
    {text text' : List Char} (h : skip pos.col text = skip col text') :
    readFrom (fuel + 1) s pos done text = readFrom (fuel + 1) s ⟨pos.line, col⟩ done text' := by
  simp only [readFrom, h]

theorem skip_word {k : Terminal} {w : List Char} (hw : w ∈ k.language) (col : Nat)
    (rest : List Char) : skip col (w ++ rest) = (col, w ++ rest) :=
  skip_of_not_ignored (fun _ hv hvw =>
    not_prefix_of_ignored hv hw hvw (List.prefix_append w rest)) col

/-- One step of the reader, at the first character of a word. -/
theorem readFrom_word {fuel : Nat} {s next : State} {pos : Position} {done : List Statement}
    {w rest : List Char} {k : Terminal} (hw : w ∈ k.language)
    (hscan : scanWord s.scans (w ++ rest) = some (k, w, rest))
    (hstep : s.step ⟨k, String.ofList w, pos⟩ = some next) :
    readFrom (fuel + 1) s pos done (w ++ rest) =
      readFrom fuel next (Position.after pos k w)
        ((if k = .newline then s.statement?.toList else []) ++ done) rest := by
  have hskip := skip_word hw pos.col rest
  obtain ⟨c, v, rfl, -, -⟩ := startOf_of_mem hw
  rw [List.cons_append] at hscan hskip ⊢
  simp only [readFrom, hskip, hscan]
  rw [hstep]

/-- A word ends at most one statement. -/
theorem reverse_statement? (s : State) (k : Terminal) :
    (if k = .newline then s.statement?.toList else []).reverse =
      if k = .newline then s.statement?.toList else [] := by
  split_ifs
  · cases s.statement? <;> rfl
  · rfl

/-- **What the reader does at a place where nothing is ignored**: it ends, it stops at an obstacle, or
it takes a word and reads on. -/
inductive Turn (fuel : Nat) (s : State) (pos : Position) (done : List Statement) :
    List Char → Except SyntaxFault (List Statement) → Prop where
  | ends (h : .endOfText ∈ s.allows) : Turn fuel s pos done [] (.ok done.reverse)
  | early (h : .endOfText ∉ s.allows) :
      Turn fuel s pos done [] (.error ⟨.endOfText, pos, s.allows⟩)
  | obstructed {c : Char} {cs : List Char} (hscan : scanWord s.scans (c :: cs) = none) :
      Turn fuel s pos done (c :: cs) (.error (obstructed s pos c cs))
  | refused {k : Terminal} {w after : List Char} (hw : w ∈ k.language)
      (hscan : scanWord s.scans (w ++ after) = some (k, w, after))
      (hstep : s.step ⟨k, String.ofList w, pos⟩ = none) :
      Turn fuel s pos done (w ++ after) (.error ⟨.ofWord k w, pos, s.allows⟩)
  | word {k : Terminal} {w after : List Char} {next : State} (hw : w ∈ k.language)
      (hscan : scanWord s.scans (w ++ after) = some (k, w, after))
      (hstep : s.step ⟨k, String.ofList w, pos⟩ = some next) :
      Turn fuel s pos done (w ++ after) (readFrom fuel next (Position.after pos k w)
        ((if k = .newline then s.statement?.toList else []) ++ done) after)

theorem turn_of_skip {pos : Position} {col : Nat} {text rest : List Char}
    (hskip : skip pos.col text = (col, rest)) (fuel : Nat) (s : State) (done : List Statement) :
    Turn fuel s ⟨pos.line, col⟩ done rest (readFrom (fuel + 1) s pos done text) := by
  rcases rest with _ | ⟨c, cs⟩
  · simp only [readFrom, hskip]
    split_ifs with hend
    · exact .ends hend
    · exact .early hend
  · rcases hscan : scanWord s.scans (c :: cs) with _ | ⟨k, w, after⟩
    · simp only [readFrom, hskip, hscan]
      exact .obstructed hscan
    · simp only [readFrom, hskip, hscan]
      obtain ⟨-, hw, happ, -⟩ := scanWord_sound hscan
      rw [← happ] at hscan ⊢
      rcases hstep : s.step ⟨k, String.ofList w, ⟨pos.line, col⟩⟩ with _ | next
      · exact .refused hw hscan hstep
      · exact .word hw hscan hstep

/-- **What the reader accepts splits into words that derive.** -/
theorem exists_splits {fuel : Nat} {s : State} {pos : Position} {done : List Statement}
    {text : List Char} {result : List Statement} {words : List Token} (hs : Follows words s)
    (hfuel : text.length < fuel) (h : readFrom fuel s pos done text = .ok result) :
    ∃ ts sts, Splits words pos text ts ∧ (rest s).Derives ts sts ∧
      result = done.reverse ++ sts := by
  induction fuel generalizing s pos done text words with
  | zero => exact absurd hfuel (Nat.not_lt_zero _)
  | succ fuel ih =>
    rcases hskip : skip pos.col text with ⟨col, text'⟩
    obtain ⟨-, hlength, hsplits⟩ := skip_spec words hskip
    have hturn := turn_of_skip hskip fuel s done
    generalize readFrom (fuel + 1) s pos done text = outcome at h hturn
    cases hturn with
    | ends hend =>
      cases h
      exact ⟨[], [], hsplits [] .nil, (nil_rest s []).mpr ⟨hend, rfl⟩, by simp⟩
    | early | obstructed | refused => cases h
    | @word k w after next hw hscan hstep =>
      have hafter : after.length < fuel := by
        have hless := length_lt_of_word hw after
        omega
      obtain ⟨ts, sts, hts, hsts, rfl⟩ := ih (hs.step hstep) hafter h
      have hallowed := hs.allowed_of_step hstep
      refine ⟨_ :: ts, _, hsplits _ (.word (hs.isLongest hscan hallowed) hallowed hw hts),
        (rest_cons hs.proper).mpr ⟨next, sts, hstep, hsts, rfl⟩, ?_⟩
      rw [List.reverse_append, reverse_statement?, List.append_assoc]

/-- **The reader accepts what splits into words that derive**, and finds their statements. -/
theorem readFrom_of_splits {pos : Position} {text : List Char} {words ts : List Token}
    (h : Splits words pos text ts) {fuel : Nat} (hfuel : text.length < fuel) {s : State}
    (hs : Follows words s) {sts done : List Statement} (hsts : (rest s).Derives ts sts) :
    readFrom fuel s pos done text = .ok (done.reverse ++ sts) := by
  induction h generalizing fuel s sts done with
  | nil =>
    obtain ⟨hend, rfl⟩ := (nil_rest s sts).mp hsts
    obtain ⟨fuel, rfl⟩ := Nat.exists_eq_add_one_of_ne_zero (Nat.ne_zero_of_lt hfuel)
    simp [readFrom, skip, skipFrom, hend]
  | @skip words ts pos gap after longest hgap hrest ih =>
    have hlongest : IsLongest ignored gap (gap ++ after) :=
      ⟨hgap, longest.2.1, fun v hv => longest.2.2 v (.inl hv)⟩
    obtain ⟨fuel, rfl⟩ := Nat.exists_eq_add_one_of_ne_zero (Nat.ne_zero_of_lt hfuel)
    rw [List.length_append] at hfuel
    rw [readFrom_skip (skip_of_isLongest hlongest pos.col)]
    exact ih (by omega) hs hsts
  | @word words ts pos w after k longest allowed hw hrest ih =>
    have hscan : scanWord s.scans (w ++ after) = some (k, w, after) :=
      scanWord_of_longest (hs.mem_scans allowed) hw
        fun v hv => longest.2.2 v (.inr ⟨k, allowed, hv⟩)
    obtain ⟨next, sts', hstep, hsts', rfl⟩ := (rest_cons hs.proper).mp hsts
    obtain ⟨fuel, rfl⟩ := Nat.exists_eq_add_one_of_ne_zero (Nat.ne_zero_of_lt hfuel)
    have hafter : after.length < fuel :=
      (length_lt_of_word hw after).trans_le (Nat.le_of_lt_succ hfuel)
    rw [readFrom_word hw hscan hstep, ih hafter (hs.step hstep) hsts']
    rw [List.reverse_append, reverse_statement?, List.append_assoc]

/-- **Reading is splitting and deriving**: the statements of a text are those of any derivation of
its words. -/
theorem readStatements_eq_ok {text : String} {sts : List Statement} :
    readStatements text = .ok sts ↔ ∃ ts parts, SplitsInto text ts ∧
      source.Derives ts parts ∧ sts = parts.flatMap Part.statements := by
  have hstart : ∀ ts sts, (rest .start).Derives ts sts ↔
      ∃ parts, source.Derives ts parts ∧ sts = parts.flatMap Part.statements := by
    intro ts sts
    rw [rest_start]
    exact Phrase.derives_map
  constructor
  · intro h
    obtain ⟨ts, sts', hts, hsts, hresult⟩ := exists_splits follows_start (Nat.lt_succ_self _) h
    obtain ⟨parts, hparts, rfl⟩ := (hstart ts sts').mp hsts
    exact ⟨ts, parts, hts, hparts, hresult⟩
  · rintro ⟨ts, parts, hts, hparts, rfl⟩
    exact readFrom_of_splits hts (Nat.lt_succ_self _) follows_start
      ((hstart ts _).mpr ⟨parts, hparts, rfl⟩)

end AluVM.Syntax
