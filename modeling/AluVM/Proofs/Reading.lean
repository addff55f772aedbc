import AluVM.Proofs.Meaning

/-! # Reading word by word

The reader goes over a text from state to state (`Goes`), one word or one blank at a time, as long
as every word ends where the text says. A name and a number end where a character follows that
neither can have (`Stops`); the other words are fixed ones.

Two facts about what is read: the decimal text of an integer denotes it (`denotes_decimal`), and
every instruction of a program comes from a line whose words are of the right classes
(`Comes`). -/

namespace AluVM

open Syntax Syntax.Lexeme

variable {names : CharacterNames}

/-! ### Decimal numerals -/

namespace Numeral

theorem digitValue_of_isDigit {c : Char} (h : c.isDigit = true) :
    digitValue c = c.toNat - '0'.toNat := by
  have hcond : ('0' ≤ c && c ≤ '9') = true := h
  rw [digitValue, Bytes.hexValue?, if_pos hcond]
  rfl

theorem filter_toDigits (n : Nat) : (Nat.toDigits 10 n).filter (· ≠ '_') = Nat.toDigits 10 n := by
  refine List.filter_eq_self.mpr fun c hc => ?_
  have hne : c ≠ '_' := by
    rintro rfl
    exact Nat.underscore_not_in_toDigits hc
  simpa using hne

theorem valueIn_toDigits (n : Nat) : valueIn 10 (Nat.toDigits 10 n) = n := by
  have hdigit : ∀ c ∈ Nat.toDigits 10 n, c.isDigit = true := fun c hc =>
    Nat.isDigit_of_mem_toDigits (by decide) (by decide) hc
  calc valueIn 10 (Nat.toDigits 10 n)
      = (Nat.toDigits 10 n).foldl (fun m c => 10 * m + digitValue c) 0 := by
        rw [valueIn, filter_toDigits, ofDigits, List.foldl_map]
    _ = (Nat.toDigits 10 n).foldl (fun m c => 10 * m + (c.toNat - '0'.toNat)) 0 := by
        refine List.foldl_ext _ _ _ fun m c hc => ?_
        rw [digitValue_of_isDigit (hdigit c hc)]
    _ = n := by rw [← Nat.ofDigitChars_eq_foldl, Nat.ofDigitChars_toDigits] <;> decide

theorem magnitude_toDigits {n : Nat} (h : n < firstOverlong) : Magnitude (Nat.toDigits 10 n) n := by
  have hrun : Nat.toDigits 10 n ∈ Lexeme.decimal := by
    refine Language.mem_mul.mpr ⟨_, mem_many.mpr ⟨Nat.toDigits_ne_nil, fun c hc => ?_⟩, [],
      Language.nil_mem_kstar _, List.append_nil _⟩
    exact Nat.isDigit_of_mem_toDigits (by decide) (by decide) hc
  have hmax : ((Nat.toDigits 10 n).filter (· ≠ '_')).length ≤ maxDigits := by
    have hlength : ∀ k, 0 < k → n < Nat.pow 10 k → (Nat.toDigits 10 n).length ≤ k :=
      fun k hk hlt => (Nat.length_toDigits_le_iff (by decide) hk).mpr hlt
    unfold firstOverlong at h
    rw [filter_toDigits]
    exact hlength maxDigits (by decide) h
  have hdecimal := Magnitude.decimal hrun hmax
  rwa [valueIn_toDigits] at hdecimal

theorem not_isOverlong {v : Int} (h : v.natAbs ≤ 2 ^ 256) : isOverlong v = false := by
  have hpow : ∀ k, 78 ≤ k → 10 ^ 78 ≤ Nat.pow 10 k := fun k hk =>
    Nat.pow_le_pow_right (by decide) hk
  have hle : 10 ^ 78 ≤ firstOverlong := by
    unfold firstOverlong
    exact hpow _ (by decide)
  have hlt : ¬ firstOverlong ≤ v.natAbs := by omega
  simpa [isOverlong] using hlt

/-- What fits a slot or a type of data has not too many digits. -/
theorem not_isOverlong_of_fits {v : Int} {bits : Nat} {signed : Bool}
    (h : Integer.fits v bits signed = true) (hbits : bits ≤ 256) : isOverlong v = false := by
  have hmod : ∀ n ≤ 256, Integer.modulus n ≤ 2 ^ 256 := fun n hn =>
    Nat.pow_le_pow_right (by decide) hn
  have hwhole := hmod bits hbits
  have hless := hmod (bits - 1) (by omega)
  refine not_isOverlong ?_
  cases signed with
  | false =>
    obtain ⟨hlow, hhigh⟩ := Integer.fits_unsigned.mp h
    omega
  | true =>
    obtain ⟨hlow, hhigh⟩ := Integer.fits_signed.mp h
    omega

/-- **The decimal text of an integer denotes it**, unless it has too many digits. -/
theorem denotes_decimal {v : Int} (h : isOverlong v = false) : Denotes (decimal v).toList v := by
  have hlt : v.natAbs < firstOverlong := by simpa [isOverlong] using h
  have htext : decimal v = if 0 ≤ v then v.toNat.repr else "-" ++ (-v).toNat.repr := Int.repr_eq_if
  rw [htext]
  split_ifs with hsign
  · have hnat : v.toNat < firstOverlong := by omega
    have hread := Denotes.unsigned (magnitude_toDigits hnat)
    rwa [Int.toNat_of_nonneg hsign, ← String.toList_ofList (l := Nat.toDigits 10 v.toNat),
      ← Nat.repr_eq_ofList_toDigits] at hread
  · have hnat : (-v).toNat < firstOverlong := by omega
    have hread := Denotes.minus (magnitude_toDigits hnat)
    rw [Int.toNat_of_nonneg (by omega), Int.neg_neg] at hread
    rw [String.toList_append, Nat.repr_eq_ofList_toDigits, String.toList_ofList,
      String.toList_ofList]
    exact hread

theorem Magnitude.mem_unsigned {w : List Char} {n : Nat} (h : Magnitude w n) :
    w ∈ Lexeme.unsigned := by
  cases h with
  | marked hmarks hm hrun =>
    have hmem := mem_marked.mpr ⟨_, _, hm, hrun, rfl⟩
    cases hmarks
    · exact .inl (.inl (.inl hmem))
    · exact .inl (.inl (.inr hmem))
    · exact .inl (.inr hmem)
  | decimal hrun _ => exact .inr hrun

/-- Only numbers denote integers. -/
theorem Denotes.mem_number {w : List Char} {v : Int} (h : Denotes w v) : w ∈ Lexeme.number := by
  cases h with
  | unsigned h => exact Language.mem_mul.mpr ⟨[], .inl rfl, _, h.mem_unsigned, rfl⟩
  | plus h => exact Language.mem_mul.mpr ⟨['+'], .inr ⟨'+', rfl, rfl⟩, _, h.mem_unsigned, rfl⟩
  | minus h => exact Language.mem_mul.mpr ⟨['-'], .inr ⟨'-', rfl, rfl⟩, _, h.mem_unsigned, rfl⟩

end Numeral

namespace Syntax

/-! ### From state to state -/

/-- **The reader goes over a text** from one state to another if `rest` follows, and finds the
statements of the lines that end in it. Fuel that is enough for all of it is enough for the
rest. -/
def Goes (s : State) (pos : Position) (text : List Char) (s' : State) (pos' : Position)
    (sts : List Statement) (rest : List Char) : Prop :=
  ∀ fuel done, (text ++ rest).length < fuel → ∃ fuel', rest.length < fuel' ∧
    readFrom fuel s pos done (text ++ rest) = readFrom fuel' s' pos' (sts.reverse ++ done) rest

section Goes
variable {s s' s'' next : State} {pos pos' pos'' : Position} {u v w rest : List Char}
  {sts sts' : List Statement} {k : Terminal}

theorem Goes.refl : Goes s pos [] s pos [] rest := fun fuel _ hfuel => ⟨fuel, hfuel, rfl⟩

theorem Goes.trans (h : Goes s pos u s' pos' sts (v ++ rest))
    (h' : Goes s' pos' v s'' pos'' sts' rest) :
    Goes s pos (u ++ v) s'' pos'' (sts ++ sts') rest := by
  intro fuel done hfuel
  rw [List.append_assoc] at hfuel ⊢
  obtain ⟨fuel', hfuel', heq⟩ := h fuel done hfuel
  obtain ⟨fuel'', hfuel'', heq'⟩ := h' fuel' (sts.reverse ++ done) hfuel'
  exact ⟨fuel'', hfuel'', by rw [heq, heq', List.reverse_append, List.append_assoc]⟩

/-- A part of a line, and what follows it. -/
theorem Goes.append (h : Goes s pos u s' pos' [] (v ++ rest))
    (h' : Goes s' pos' v s'' pos'' sts rest) : Goes s pos (u ++ v) s'' pos'' sts rest :=
  h.trans h'

/-- **One word**, if no longer one of its class stands there. -/
theorem goes_word (hw : w ∈ k.language)
    (hlongest : ∀ v ∈ k.language, v <+: w ++ rest → v.length ≤ w.length)
    (hstep : s.step ⟨k, String.ofList w, pos⟩ = some next) :
    Goes s pos w next (Position.after pos k w)
      (if k = .newline then s.statement?.toList else []) rest := by
  intro fuel done hfuel
  obtain ⟨fuel, rfl⟩ := Nat.exists_eq_add_one_of_ne_zero (Nat.ne_zero_of_lt hfuel)
  have hscan := scanWord_of_longest (mem_scans_of_step hstep) hw hlongest
  refine ⟨fuel, (length_lt_of_word hw rest).trans_le (Nat.le_of_lt_succ hfuel), ?_⟩
  rw [readFrom_word hw hscan hstep, reverse_statement?]

theorem goes_blank : Goes s pos [' '] s ⟨pos.line, pos.col + 1⟩ [] rest := by
  intro fuel done hfuel
  obtain ⟨fuel, rfl⟩ := Nat.exists_eq_add_one_of_ne_zero (Nat.ne_zero_of_lt hfuel)
  refine ⟨fuel + 1, ?_, readFrom_skip rfl⟩
  simp only [List.length_append, List.length_singleton] at hfuel
  omega

/-- A word of a class with one text only. -/
theorem goes_fixed (hk : k.language = fixed w) (hne : k ≠ .newline)
    (hstep : s.step ⟨k, String.ofList w, pos⟩ = some next) :
    Goes s pos w next (Position.after pos k w) [] rest := by
  have hlongest : ∀ v ∈ k.language, v <+: w ++ rest → v.length ≤ w.length := by
    intro v hv _
    rw [hk] at hv
    rw [mem_fixed.mp hv]
  have hgoes := goes_word (hk ▸ mem_fixed.mpr rfl) hlongest hstep
  rwa [if_neg hne] at hgoes

theorem longest_feed (rest : List Char) : ∀ v ∈ Terminal.newline.language,
    v <+: ['\n'] ++ rest → v.length ≤ ['\n'].length := by
  intro v hv hpre
  rcases mem_newline.mp hv with rfl | rfl
  · rfl
  · obtain ⟨h, -⟩ := List.cons_prefix_cons.mp hpre
    exact absurd h (by decide)

/-- The end of a line. -/
theorem goes_newline (hstep : s.step ⟨.newline, "\n", pos⟩ = some next) :
    Goes s pos ['\n'] next ⟨pos.line + 1, 1⟩ s.statement?.toList rest :=
  goes_word (mem_newline.mpr (.inl rfl)) (longest_feed rest) hstep

/-! ### Names and numbers -/

/-- The characters of names and numbers. -/
def isWordChar (c : Char) : Bool := continuesName c || c = '+' || c = '-'

/-- The text starts with a character that neither a name nor a number has. -/
def Stops (cs : List Char) : Prop := ∃ c rest, cs = c :: rest ∧ isWordChar c = false

theorem longest_of_stops {l : Language Char} (hall : ∀ v ∈ l, ∀ c ∈ v, isWordChar c = true)
    (hstops : Stops rest) : ∀ v ∈ l, v <+: w ++ rest → v.length ≤ w.length := by
  intro v hv hpre
  by_contra hlt
  obtain ⟨c, rest, rfl, hc⟩ := hstops
  obtain ⟨u, rfl⟩ : w <+: v :=
    List.prefix_of_prefix_length_le (List.prefix_append w _) hpre (by omega)
  rw [List.prefix_append_right_inj] at hpre
  rcases u with _ | ⟨d, u⟩
  · simp at hlt
  · obtain ⟨rfl, -⟩ := List.cons_prefix_cons.mp hpre
    have := hall _ hv d (by simp)
    rw [hc] at this
    cases this

theorem isWordChar_of_continuesName {c : Char} (h : continuesName c = true) :
    isWordChar c = true := by
  simp [isWordChar, h]

theorem isWordChar_of_mem_name (hw : w ∈ Lexeme.name) : ∀ c ∈ w, isWordChar c = true := by
  obtain ⟨c, v, hc, hv, rfl⟩ := mem_one_mul.mp hw
  refine List.forall_mem_cons.mpr ⟨?_, fun d hd => ?_⟩
  · exact isWordChar_of_continuesName (continuesName_of_startsName hc)
  · exact isWordChar_of_continuesName (mem_one_kstar.mp hv d hd)

theorem isWordChar_of_isHexDigit {c : Char} (h : isHexDigit c = true ∨ c = '_') :
    isWordChar c = true := by
  rcases h with h | rfl
  · refine forall_isHexDigit h ?_
    decide +kernel
  · rfl

theorem isWordChar_of_mem_number (hw : w ∈ Lexeme.number) : ∀ c ∈ w, isWordChar c = true := by
  have hdigits : ∀ {base : Nat} {isDigit : Char → Bool} {run : List Char},
      Numeral.Of base isDigit → run ∈ digits isDigit → ∀ c ∈ run, isWordChar c = true := by
    intro base isDigit run hof hrun c hc
    exact isWordChar_of_isHexDigit ((digits_all hrun c hc).imp_left hof.hex)
  have hmarked : ∀ {base : Nat} {isMark isDigit : Char → Bool} {u : List Char},
      Numeral.Marks base isMark isDigit → u ∈ marked isMark isDigit →
        ∀ c ∈ u, isWordChar c = true := by
    intro base isMark isDigit u hmarks hu
    obtain ⟨m, run, hm, hrun, rfl⟩ := mem_marked.mp hu
    have hmark : isWordChar m = true := by
      cases hmarks <;> simp only [Bool.or_eq_true, decide_eq_true_eq] at hm <;>
        rcases hm with rfl | rfl <;> rfl
    exact List.forall_mem_cons.mpr ⟨rfl, List.forall_mem_cons.mpr ⟨hmark, hdigits hmarks.of hrun⟩⟩
  obtain ⟨a, ha, u, hu, rfl⟩ := Language.mem_mul.mp hw
  have hsign : ∀ c ∈ a, isWordChar c = true := by
    rcases ha with ha | ⟨c, hc, rfl⟩
    · simp [(Language.mem_one a).mp ha]
    · simp only [Bool.or_eq_true, decide_eq_true_eq] at hc
      rcases hc with rfl | rfl <;> simp [isWordChar]
  have hbody : ∀ c ∈ u, isWordChar c = true := by
    rcases hu with ((hu | hu) | hu) | hu
    · exact hmarked .hexadecimal hu
    · exact hmarked .binary hu
    · exact hmarked .octal hu
    · exact hdigits Numeral.of_decimal hu
  intro c hc
  rcases List.mem_append.mp hc with hc | hc
  · exact hsign c hc
  · exact hbody c hc

/-- A name, as far as it goes. -/
theorem goes_name {name : String} (hname : IsName name) (hstops : Stops rest)
    (hstep : s.step ⟨.name, name, pos⟩ = some next) :
    Goes s pos name.toList next ⟨pos.line, pos.col + name.toList.length⟩ [] rest := by
  have hmem : name.toList ∈ Terminal.name.language := by
    obtain ⟨c, cs, hlist, hc, hcs⟩ := hname
    exact mem_one_mul.mpr ⟨c, cs, hc, mem_one_kstar.mpr hcs, hlist⟩
  rw [← String.ofList_toList (s := name)] at hstep
  exact goes_word hmem (longest_of_stops (fun v hv => isWordChar_of_mem_name hv) hstops) hstep

/-- A number, as far as it goes. -/
theorem goes_number {number : String} (hnumber : number.toList ∈ Lexeme.number)
    (hstops : Stops rest) (hstep : s.step ⟨.number, number, pos⟩ = some next) :
    Goes s pos number.toList next ⟨pos.line, pos.col + number.toList.length⟩ [] rest := by
  rw [← String.ofList_toList (s := number)] at hstep
  exact goes_word (k := .number) hnumber
    (longest_of_stops (fun v hv => isWordChar_of_mem_number hv) hstops) hstep

/-- **The statements of a text** that the reader goes over to the end of a line. -/
theorem readStatements_of_goes {text : String} {part : Option Section}
    (h : Goes .start ⟨1, 1⟩ (closeText text.toList) ⟨part, .blank⟩ pos sts []) :
    readStatements text = .ok sts := by
  obtain ⟨fuel, hfuel, heq⟩ := h _ [] (Nat.lt_succ_self _)
  obtain ⟨fuel, rfl⟩ := Nat.exists_eq_add_one_of_ne_zero (Nat.ne_zero_of_lt hfuel)
  rw [List.append_nil] at heq
  have hend : .endOfText ∈ (⟨part, .blank⟩ : State).allows := by
    simp only [State.allows]
    split_ifs <;> simp
  rw [readStatements, heq]
  simp [readFrom, skip, skipFrom, hend]

/-- The last line of a text needs no end if it has one. -/
theorem readStatements_of_goes_closed {text : String} {cs : List Char} {part : Option Section}
    (htext : text.toList = cs) (hlast : cs.getLast? = some '\n')
    (h : Goes .start ⟨1, 1⟩ cs ⟨part, .blank⟩ pos sts []) : readStatements text = .ok sts := by
  subst htext
  have hclose : closeText text.toList = text.toList := if_pos hlast
  rw [← hclose] at h
  exact readStatements_of_goes h

end Goes

/-! ### Lower case -/

/-- What holds of every character of names can be checked, since they are ASCII characters. -/
@[elab_as_elim]
theorem forall_continuesName {motive : Char → Prop} {c : Char} (h : continuesName c = true)
    (hall : ∀ n < 128, continuesName (Char.ofNat n) = true → motive (Char.ofNat n)) : motive c := by
  have hlt : c.toNat < 128 := by
    unfold continuesName Char.isAlphanum Char.isAlpha Char.isUpper Char.isLower Char.isDigit at h
    simp only [Bool.or_eq_true, Bool.and_eq_true, decide_eq_true_eq, ge_iff_le,
      UInt32.le_iff_toNat_le] at h
    have hvalue : c.toNat = c.val.toNat := rfl
    have hz : 'z'.val.toNat = 122 := rfl
    have hZ : 'Z'.val.toNat = 90 := rfl
    have h9 : '9'.val.toNat = 57 := rfl
    rcases h with ((h | h) | h) | rfl
    · omega
    · omega
    · omega
    · decide
  have hc := hall c.toNat hlt
  rw [Char.ofNat_toNat] at hc
  exact hc h

theorem lowerChar_of_continuesName {c : Char} (h : continuesName c = true) :
    ∃ d, Text.lowerChar c = [d] ∧ Text.lowerChar d = [d] ∧ Text.isBlank d = false := by
  have hlower : Text.lowerChar c = [c.toLower] ∧ Text.lowerChar c.toLower = [c.toLower] ∧
      Text.isBlank c.toLower = false := by
    refine forall_continuesName h ?_
    decide +kernel
  exact ⟨c.toLower, hlower⟩

/-- **A name in lower case stays as it is** when blanks around it are dropped and letters changed to
lower case. -/
theorem IsName.lower_strip {name : String} (h : IsName name) :
    Text.strip (Text.lower name) = Text.lower name ∧
      Text.lower (Text.lower name) = Text.lower name := by
  have hchars : ∀ d ∈ Text.lowerChars name.toList,
      Text.lowerChar d = [d] ∧ Text.isBlank d = false := by
    intro d hd
    obtain ⟨c, hc, hd⟩ := List.mem_flatMap.mp hd
    obtain ⟨e, he, hlower, hblank⟩ := lowerChar_of_continuesName (h.all c hc)
    rw [he, List.mem_singleton] at hd
    exact hd ▸ ⟨hlower, hblank⟩
  constructor
  · rw [Text.strip, Text.lower, String.toList_ofList]
    exact congrArg String.ofList (Numeral.trim_eq_self fun d hd => (hchars d hd).2)
  · have hself : Text.lowerChars (Text.lowerChars name.toList) = Text.lowerChars name.toList := by
      conv_rhs => rw [← List.flatMap_singleton' (Text.lowerChars name.toList)]
      exact List.flatMap_congr fun d hd => (hchars d hd).1
    rw [Text.lower, Text.lower, String.toList_ofList, hself]

/-! ### Where instructions come from -/

/-- The instruction comes from a line with words of the right classes. -/
def Instruction.Comes (i : Instruction) : Prop :=
  ∃ (label : Option Token) (mnemonic : Token) (arguments : List Argument),
    (Statement.instruction label mnemonic arguments).Typed ∧
      i.mnemonic = Text.lower mnemonic.text ∧ arguments.mapM Argument.operand = .ok i.operands

theorem Instruction.Comes.lower_mnemonic {i : Instruction} (h : i.Comes) :
    Text.lower i.mnemonic = i.mnemonic := by
  obtain ⟨label, mnemonic, arguments, htyped, heq, -⟩ := h
  rw [heq]
  exact htyped.2.1.isName.lower_strip.2

theorem Instruction.Comes.argument {i : Instruction} (h : i.Comes) {o : Operand}
    (ho : o ∈ i.operands) : ∃ a : Argument, a.Typed ∧ a.operand = .ok o := by
  obtain ⟨label, mnemonic, arguments, htyped, -, hoperands⟩ := h
  obtain ⟨a, ha, hao⟩ := Steps.exists_mem_left (Steps.mapM_eq_ok.mp hoperands) o ho
  exact ⟨a, htyped.2.2 a ha, hao⟩

/-- The node, if it is an instruction, comes from a line. -/
def Node.Comes (node : Node) : Prop := ∀ i, node = .instruction i → i.Comes

theorem nodes_come {st : Statement} {ns : List Node} (hst : st.Typed) (h : st.nodes = .ok ns) :
    ∀ n ∈ ns, n.Comes := by
  cases st with
  | label name =>
    cases h
    rintro n hn i rfl
    cases List.mem_singleton.mp hn
  | instruction label mnemonic arguments =>
    obtain ⟨operands, hops, h⟩ := Steps.bind_eq_ok.mp h
    cases h
    rintro n hn i rfl
    simp only [List.mem_append, List.mem_map, List.mem_singleton, Node.instruction.injEq] at hn
    rcases hn with ⟨l, -, hl⟩ | rfl
    · cases hl
    · exact ⟨label, mnemonic, arguments, hst, rfl, hops⟩
  | _ =>
    cases h
    simp

/-- The nodes of a tail come from lines, those of its routines too. -/
def TailComes (tail : Tail) : Prop :=
  (∀ n ∈ tail.1, n.Comes) ∧ ∀ r, .routine r ∈ tail.2 → ∀ n ∈ r.body, n.Comes

theorem item?_eq_routine {st : Statement} {r : Routine}
    (h : st.item? names = .ok (some (.routine r))) : r.body = [] := by
  cases st with
  | main | routine =>
    cases h
    rfl
  | constant | numbers =>
    obtain ⟨_, -, h⟩ := Steps.bind_eq_ok.mp h
    cases h
  | _ => cases h

theorem addStatement_comes {st : Statement} {tail tail' : Tail} (hst : st.Typed)
    (ht : TailComes tail) (h : addStatement names st tail = .ok tail') : TailComes tail' := by
  have hall := addStatement_forall (N := Node.Comes)
    (I := fun item => ∀ r, item = .routine r → ∀ n ∈ r.body, n.Comes) (fun _ => nodes_come hst)
    (fun item hitem ns hns r hr => ?_) ⟨ht.1, fun item hitem r hr => ht.2 r (hr ▸ hitem)⟩ h
  · exact ⟨hall.1, fun r hr => hall.2 _ hr r rfl⟩
  · cases item with
    | routine opened =>
      -- The line opens a routine without nodes, which takes those that wait.
      cases hr
      rw [item?_eq_routine hitem, List.append_nil]
      exact hns
    | _ => cases hr

/-- **Every instruction of a program comes from a line.** -/
theorem parse_comes {text : String} {file : Option String} {p : Program}
    (h : parse names text file = .ok p) {i : Instruction} (hi : i ∈ p.instructions) : i.Comes := by
  obtain ⟨sts, hsts, hitems, -, -⟩ := parse_eq_ok.mp h
  obtain ⟨tail, htail, heq⟩ := Steps.bind_eq_ok.mp hitems
  have hstep : ∀ st ∈ sts.reverse, ∀ tail tail', TailComes tail →
      addStatement names st tail = .ok tail' → TailComes tail' := fun st hst tail tail' =>
    addStatement_comes (readStatements_typed hsts st (List.mem_reverse.mp hst))
  have hall := (addAll_induction hstep ⟨by simp, by simp⟩ htail).2
  rw [Except.ok.inj heq] at hall
  obtain ⟨node, hnode, hinstruction⟩ := List.mem_filterMap.mp hi
  obtain ⟨r, hr, hbody⟩ := List.mem_flatMap.mp hnode
  obtain ⟨item, hitem, hroutine⟩ := List.mem_filterMap.mp hr
  cases item <;> cases hroutine
  cases node <;> cases hinstruction
  exact hall r hitem _ hbody i rfl

end Syntax

end AluVM
