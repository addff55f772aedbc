import AluVM.Proofs.CleanLayout

/-! # Accepted programs are the well-formed ones

Where the first pass finds no error, the symbols are those of the program (`Laid`), so a name means
in the second pass what its declaration says (`Laid.exists_classified_iff`), and an instruction is
accepted exactly if it is well-formed (`clean_gather_add`). Together with the first pass:
`ok_iff_wellFormed`. -/

namespace AluVM

/-- The set of a register that has been looked up. -/
def Syntax.Operand.set? : Operand → Option String
  | register set _ => some set
  | _ => none

namespace Analysis

open Syntax

variable {names : CharacterNames}

/-! ### One operand -/

theorem checkOperand_of_classified {s : Scope} {mnemonic : String} {slot : Slot}
    {operand meaning : Operand} (h : Classified s.symbols slot operand meaning) :
    s.checkOperand mnemonic operand slot = .ok meaning := by
  cases h with
  | @register banks sets token index set named bank allowed inside =>
    have hset : ¬ sets = [] → set.name ∈ sets := allowed.resolve_left
    simpa [Scope.checkOperand, Scope.checkRegister, RegisterSet.named, RegisterSet.checkIndex,
      named, bank, inside] using hset
  | literal fits => simp [Scope.checkOperand, Scope.checkImmediate, Scope.checkValue, fits]
  | @constant bits signed name symbol declared fits =>
    have hlookup : s.lookup name .constant = .ok symbol := lookup_eq_ok.mpr declared
    simp [Scope.checkOperand, Scope.checkImmediate, hlookup, bind, Except.bind, Scope.checkValue,
      fits]
  | @label name symbol declared =>
    have hlookup : s.lookup name .localLabel = .ok symbol := lookup_eq_ok.mpr declared
    simp [Scope.checkOperand, Scope.checkLabel, hlookup, bind, Except.bind, pure, Except.pure]
  | @datum name symbol declared =>
    have hlookup : s.lookup name .dataSymbol = .ok symbol := lookup_eq_ok.mpr declared
    simp [Scope.checkOperand, Scope.checkDatum, hlookup, bind, Except.bind, pure, Except.pure]
  | call => rfl

/-- Operands that are all classified are all accepted. -/
theorem checkOperands_of_classified {l : Layout} {i : Instruction} {pairs : List (Operand × Slot)}
    {meanings : List Operand} {s : Scope} (hs : s.Over l)
    (h : List.Forall₂ (fun pair meaning => Classified l.symbols pair.2 pair.1 meaning) pairs
      meanings) : (s.checkOperands i pairs).2 = meanings.map .ok := by
  induction h generalizing s with
  | nil => rfl
  | @cons pair meaning pairs meanings h _ ih =>
    have hfirst : s.checkOperand i.mnemonic pair.1 pair.2 = .ok _ :=
      checkOperand_of_classified (h.congr hs.get?)
    have hothers := ih (hs.addOperand i.pos pair.2 pair.1)
    simp only [Scope.checkOperands, hfirst, hothers, List.map_cons]

/-! ### What slots take -/

section Symbols
variable {p : Program} {l : Layout} (hl : l.Laid p (p.data.map measured))
include hl

theorem Layout.Laid.mem_symbols {s : Symbol} : s ∈ l.symbols.newestFirst ↔
    (∃ d ∈ p.constants, constantSymbol d = s) ∨
      (∃ q ∈ placements 0 (sized p), q.symbol = s) ∨ s ∈ marks 0 p.lines := by
  have hzip : p.data.zip (p.data.map measured) = sized p := List.map_prod_left_eq_zip.symm
  rw [← List.mem_reverse, ← SymbolTable.toList, hl.symbols, hzip]
  simp

theorem Layout.Laid.get?_const {name : String} {s : Symbol} :
    l.symbols.get? .const name = some s ↔
      ∃ d ∈ p.constants, d.name = name ∧ constantSymbol d = s := by
  rw [hl.distinct.get?_eq_some, hl.mem_symbols]
  constructor
  · rintro ⟨⟨d, hd, rfl⟩ | ⟨q, -, rfl⟩ | hmark, hspace, hname⟩
    · exact ⟨d, hd, hname, rfl⟩
    · cases hspace
    · rcases marks_kind hmark with hk | hk <;> rw [hk] at hspace <;> cases hspace
  · rintro ⟨d, hd, rfl, rfl⟩
    exact ⟨Or.inl ⟨d, hd, rfl⟩, rfl, rfl⟩

theorem Layout.Laid.get?_data {name : String} :
    (∃ s, l.symbols.get? .data name = some s) ↔ ∃ d ∈ p.data, d.name = name := by
  have hdecls : (placements 0 (sized p)).map (·.decl) = p.data := by
    rw [map_decl_placements, sized, List.map_map]
    exact List.map_id p.data
  simp only [hl.distinct.get?_eq_some, hl.mem_symbols]
  constructor
  · rintro ⟨s, ⟨d, -, rfl⟩ | ⟨q, hq, rfl⟩ | hmark, hspace, rfl⟩
    · cases hspace
    · refine ⟨q.decl, ?_, rfl⟩
      rw [← hdecls]
      exact List.mem_map.mpr ⟨q, hq, rfl⟩
    · rcases marks_kind hmark with hk | hk <;> rw [hk] at hspace <;> cases hspace
  · rintro ⟨d, hd, rfl⟩
    rw [← hdecls] at hd
    obtain ⟨q, hq, rfl⟩ := List.mem_map.mp hd
    exact ⟨q.symbol, Or.inr (Or.inl ⟨q, hq, rfl⟩), rfl, rfl⟩

theorem Layout.Laid.get?_code {name : String} :
    (∃ s, l.symbols.get? .code name = some s) ↔ name ∈ p.codeNames := by
  rw [Program.codeNames, ← map_name_marks 0, List.mem_map]
  simp only [hl.distinct.get?_eq_some, hl.mem_symbols]
  constructor
  · rintro ⟨s, ⟨d, -, rfl⟩ | ⟨q, -, rfl⟩ | hmark, hspace, hname⟩
    · cases hspace
    · cases hspace
    · exact ⟨s, hmark, hname⟩
  · rintro ⟨s, hmark, hname⟩
    refine ⟨s, Or.inr (Or.inr hmark), ?_, hname⟩
    rcases marks_kind hmark with hk | hk <;> rw [hk] <;> rfl

/-- **An operand means something in a slot** exactly if the slot takes it. -/
theorem Layout.Laid.exists_classified_iff {slot : Slot} {operand : Operand} :
    (∃ meaning, Classified l.symbols slot operand meaning) ↔ p.Fits slot operand := by
  constructor
  · rintro ⟨meaning, h⟩
    cases h with
    | register named bank allowed inside =>
      obtain ⟨hknown, hname⟩ := RegisterSet.named?_eq_some.mp named
      exact .register hknown hname bank allowed (by simpa [RegisterSet.hasIndex] using inside)
    | literal fits => exact .literal fits
    | constant declared fits =>
      obtain ⟨d, hd, rfl, rfl⟩ := hl.get?_const.mp declared
      exact .constant hd fits
    | label declared => exact .label (hl.get?_code.mp ⟨_, declared⟩)
    | datum declared =>
      obtain ⟨d, hd, rfl⟩ := hl.get?_data.mp ⟨_, declared⟩
      exact .datum hd
    | call => exact .call
  · intro h
    cases h with
    | register known named bank allowed inside =>
      refine ⟨_, .register (RegisterSet.named?_eq_some.mpr ⟨known, named⟩) bank allowed ?_⟩
      simpa [RegisterSet.hasIndex] using inside
    | literal fits => exact ⟨_, .literal fits⟩
    | constant declared fits =>
      exact ⟨_, .constant (hl.get?_const.mpr ⟨_, declared, rfl, rfl⟩) fits⟩
    | label declared =>
      obtain ⟨s, hs⟩ := hl.get?_code.mpr declared
      exact ⟨_, .label hs⟩
    | datum declared =>
      obtain ⟨s, hs⟩ := hl.get?_data.mpr ⟨_, declared, rfl⟩
      exact ⟨_, .datum hs⟩
    | call => exact ⟨_, .call⟩

end Symbols

/-! ### Registers of one set -/

theorem length_eraseDups_le_one {xs : List String} :
    xs.eraseDups.length ≤ 1 ↔ ∀ a ∈ xs, ∀ b ∈ xs, a = b := by
  rcases xs with _ | ⟨x, xs⟩
  · simp
  · rw [List.eraseDups_cons, List.length_cons]
    constructor
    · intro h
      have hothers : xs.filter (fun b => !b == x) = [] := by
        rcases hf : xs.filter (fun b => !b == x) with _ | ⟨y, ys⟩
        · rfl
        · rw [hf, List.eraseDups_cons, List.length_cons] at h
          omega
      have hall : ∀ a ∈ x :: xs, a = x := by
        simpa [List.filter_eq_nil_iff] using hothers
      exact fun a ha b hb => (hall a ha).trans (hall b hb).symm
    · intro h
      have hothers : xs.filter (fun b => !b == x) = [] := by
        rw [List.filter_eq_nil_iff]
        intro b hb
        simpa using h b (List.mem_cons_of_mem x hb) x List.mem_cons_self
      simp [hothers]

theorem setsOf_eq (operands : List Operand) :
    setsOf operands = (operands.filterMap Operand.set?).eraseDups.mergeSort (· ≤ ·) := by
  have hset : (fun | .register set _ => some set | _ => none : Operand → Option String) =
      Operand.set? := by
    funext operand
    cases operand <;> rfl
  rw [← hset]
  rfl

theorem setCauses_eq_nil {i : Instruction} {spec : Spec} {meanings : List Operand} :
    setCauses i spec meanings = [] ↔ (spec.sameSet = true →
      ∀ a ∈ meanings.filterMap Operand.set?, ∀ b ∈ meanings.filterMap Operand.set?, a = b) := by
  rw [setCauses, setsOf_eq, ← length_eraseDups_le_one, List.length_mergeSort]
  split_ifs with h
  · simpa using h
  · simpa using h

/-- What a register means is of the set that is named. -/
theorem Classified.set?_eq {t : SymbolTable} {slot : Slot} {operand meaning : Operand}
    (h : Classified t slot operand meaning) : meaning.set? = operand.setName? := by
  cases h with
  | register named _ _ _ =>
    obtain ⟨-, hname⟩ := RegisterSet.named?_eq_some.mp named
    exact congrArg some hname
  | _ => rfl

theorem filterMap_classified {t : SymbolTable} {pairs : List (Operand × Slot)}
    {meanings : List Operand}
    (h : List.Forall₂ (fun pair meaning => Classified t pair.2 pair.1 meaning) pairs meanings) :
    meanings.filterMap Operand.set? = (pairs.map Prod.fst).filterMap Operand.setName? := by
  induction h with
  | nil => simp
  | cons hc _ ih => rw [List.map_cons, List.filterMap_cons, List.filterMap_cons, ih, hc.set?_eq]

/-! ### Instructions -/

theorem extensionCauses_eq_nil {mask : Mask} {i : Instruction} {spec : Spec} :
    extensionCauses mask i spec = [] ↔ mask.has spec.extension = true := by
  unfold extensionCauses
  split_ifs with h <;> simp [h]

/-- **An instruction is accepted** exactly if it exists, its extension is there, its operands mean
something in its slots, and they go together. -/
theorem Progress.check_eq_nil_iff {l : Layout} {mask : Mask} {progress : Progress}
    {i : Instruction} (hp : progress.scope.Over l) :
    (check mask progress i).2 = [] ↔ ∃ spec, Spec.named? i.mnemonic = some spec ∧
      mask.has spec.extension = true ∧ i.operands.length = spec.slots.length ∧
      ∃ meanings, List.Forall₂ (fun pair meaning => Classified l.symbols pair.2 pair.1 meaning)
        (i.operands.zip spec.slots) meanings ∧ setCauses i spec meanings = [] := by
  rcases hspec : Spec.named? i.mnemonic with _ | spec
  · simp [check, hspec]
  simp only [Option.some_inj, exists_eq_left']
  by_cases hcount : i.operands.length = spec.slots.length
  · simp only [check, hspec, hcount, ne_eq, not_true, if_false, true_and, addSpec,
      ← extensionCauses_eq_nil (i := i)]
    constructor
    · intro h
      split_ifs at h with hbefore
      · rw [List.isEmpty_iff, List.append_eq_nil_iff] at hbefore
        exact ⟨hbefore.1, _, checkOperands_classified hp hbefore.2, h⟩
      · exact absurd h (by simpa using hbefore)
    · rintro ⟨hextension, meanings, hmeanings, hsets⟩
      have hcauses : (meanings.map Except.ok).filterMap causeOf? = [] := by
        rw [List.filterMap_eq_nil_iff, List.forall_mem_map]
        exact fun _ _ => rfl
      have hoperands : (meanings.map Except.ok).filterMap operandOf? = meanings := by
        rw [List.filterMap_map]
        exact List.filterMap_some
      rw [checkOperands_of_classified hp hmeanings, hextension, hcauses, hoperands]
      exact hsets
  · simp [check, hspec, hcount]

/-- The operands of an instruction, taken together with its template. -/
theorem forall₂_fits_iff {p : Program} {l : Layout} (hl : l.Laid p (p.data.map measured))
    {i : Instruction} {spec : Spec} :
    (i.operands.length = spec.slots.length ∧
      ∃ meanings, List.Forall₂ (fun pair meaning => Classified l.symbols pair.2 pair.1 meaning)
        (i.operands.zip spec.slots) meanings ∧ setCauses i spec meanings = []) ↔
    List.Forall₂ (fun operand slot => p.Fits slot operand) i.operands spec.slots ∧
      (spec.sameSet = true → ∀ a ∈ i.operands.filterMap Operand.setName?,
        ∀ b ∈ i.operands.filterMap Operand.setName?, a = b) := by
  rw [List.forall₂_iff_zip, and_assoc]
  refine and_congr_right fun hcount => ?_
  have hfirst : (i.operands.zip spec.slots).map Prod.fst = i.operands :=
    List.map_fst_zip hcount.le
  constructor
  · rintro ⟨meanings, hmeanings, hsets⟩
    rw [setCauses_eq_nil, filterMap_classified hmeanings, hfirst] at hsets
    refine ⟨fun {operand slot} hmem => ?_, hsets⟩
    obtain ⟨meaning, -, h⟩ := Steps.exists_mem_right hmeanings _ hmem
    exact hl.exists_classified_iff.mp ⟨meaning, h⟩
  · rintro ⟨hfits, hsets⟩
    obtain ⟨meanings, hmeanings⟩ : ∃ meanings, List.Forall₂
        (fun pair meaning => Classified l.symbols pair.2 pair.1 meaning)
        (i.operands.zip spec.slots) meanings :=
      Steps.exists_forall₂ fun pair hmem => hl.exists_classified_iff.mpr (hfits hmem)
    refine ⟨meanings, hmeanings, ?_⟩
    rw [setCauses_eq_nil, filterMap_classified hmeanings, hfirst]
    exact hsets

theorem Progress.add_eq (mask : Mask) (progress : Progress) (i : Instruction) :
    progress.add mask i = ({ (check mask progress i).1 with
        offset := (check mask progress i).1.offset + wordSize },
      (check mask progress i).2.map fun c => ⟨c, some i.pos⟩) := by
  unfold add
  generalize check mask progress i = next
  rfl

theorem Progress.clean_add_iff {mask : Mask} {progress : Progress} {i : Instruction} :
    Clean (progress.add mask i).2 ↔ (check mask progress i).2 = [] := by
  have herror : ∀ c ∈ (check mask progress i).2, c.severity = .error := check_error
  rw [add_eq]
  generalize check mask progress i = next at herror ⊢
  exact ⟨clean_map_error herror, fun h => by simp [h]⟩

theorem Progress.over_add {l : Layout} {mask : Mask} {progress : Progress}
    (h : progress.scope.Over l) (i : Instruction) : (progress.add mask i).1.scope.Over l := by
  have hcheck : (check mask progress i).1.scope.Over l := check_over h i
  rw [add_eq]
  generalize check mask progress i = next at hcheck ⊢
  exact hcheck

/-- The second pass keeps its scope over the layout, whatever it finds. -/
theorem Progress.over_gather {l : Layout} {mask : Mask} (is : List Instruction) :
    ∀ {progress : Progress}, progress.scope.Over l →
      (gather (Progress.add mask) progress is).1.scope.Over l := by
  induction is with
  | nil => exact id
  | cons i is ih =>
    intro progress h
    rw [gather_cons]
    exact ih (over_add h i)

/-- The start of the second pass. -/
def Layout.start (l : Layout) : Progress where
  scope := { symbols := l.symbols, libraries := l.libraries }

theorem Layout.over_start (l : Layout) : l.start.scope.Over l :=
  ⟨⟨[], by simp [Layout.start], by simp⟩, id, fun _ => Or.inl⟩

/-- **The second pass finds no error** exactly if the instructions are well-formed. -/
theorem clean_gather_add {p : Program} {extra : List String} {l : Layout}
    (hl : l.Laid p (p.data.map measured)) (hmask : ∀ e, l.mask.has e = true ↔
      e = .alu ∨ ∃ name ∈ p.asked extra, e.Named name) :
    Clean (gather (Progress.add l.mask) l.start p.instructions).2 ↔
      ∀ i ∈ p.instructions, i.WellFormed p extra := by
  have hstep : ∀ done i rest, p.instructions = done ++ i :: rest →
      Clean (gather (Progress.add l.mask) l.start done).2 →
      (Clean ((gather (Progress.add l.mask) l.start done).1.add l.mask i).2 ↔
        i.WellFormed p extra) := by
    intro done i rest _ _
    rw [Progress.clean_add_iff, Progress.check_eq_nil_iff (Progress.over_gather done l.over_start)]
    simp only [forall₂_fits_iff hl, hmask, Spec.named?_eq_some, and_assoc]
    rfl
  rw [clean_gather_iff hstep, forall_split_iff_forall_mem]

/-! ### The whole analysis -/

theorem Finding.isOverlong_of_not_isError {f : Finding} (h : f.isError = false) :
    f.isOverlong = false := by
  obtain ⟨cause, pos⟩ := f
  cases cause <;> simp [isError, Cause.severity, isOverlong, Cause.shown] at h ⊢

theorem clean_unusedFindings (p : Program) (libraries : LibraryTable) (used : List String) :
    Clean (unusedFindings p libraries used) := by
  intro f hf
  obtain ⟨⟨name, id⟩, -, hf⟩ := List.mem_filterMap.mp hf
  simp only at hf
  split_ifs at hf
  cases hf
  rfl

theorem Layout.has_ofProgram_mask (p : Program) (extra : List String)
    (sizes : List (Nat × List Cause)) (e : Extension) :
    (ofProgram p extra sizes).1.mask.has e = true ↔
      e = .alu ∨ ∃ name ∈ p.asked extra, e.Named name := by
  have hbase : Mask.base.has e = true ↔ e = .alu := by cases e <;> decide
  simp only [ofProgram, gather_addRoutine, mask_after_extensions]
  rw [has_gather_addExtension ⟨1, by decide, rfl⟩]
  simp [hbase, Program.asked, or_and_right, exists_or]

theorem reach_iff {p : Program} :
    (∀ done line rest, p.lines = done ++ line :: rest → ∀ name ∈ line.name?,
      wordSize * (wordsOf done).length ≤ maxOffset) ↔
    ∀ before kind name pos after, p.lines = before ++ .mark kind name pos :: after →
      wordSize * (wordsOf before).length ≤ maxOffset := by
  constructor
  · intro h before kind name pos after hsplit
    exact h before (.mark kind name pos) after hsplit name rfl
  · intro h done line rest hsplit name hname
    cases line with
    | mark kind name' pos => exact h done kind name' pos rest hsplit
    | _ => cases hname

/-- Everything that the analysis of a program of a source finds. -/
def found (p : Program) (extra : List String) : List Finding :=
  let (l, declared) := Layout.ofProgram p extra (p.data.map measured)
  let (progress, checked) := gather (Progress.add l.mask) l.start p.instructions
  declared ++ checked ++ unusedFindings p progress.scope.libraries progress.scope.used

section Gauged
variable {p : Program} (hp : ∀ d ∈ p.data, Gauged d)
include hp

theorem clean_found_iff {extra : List String} : Clean (found p extra) ↔ p.WellFormed extra := by
  have hzip : p.data.zip (p.data.map measured) = sized p := List.map_prod_left_eq_zip.symm
  have hnames : (sized p).map (·.1.name) = p.data.map (·.name) := by
    simp [sized, Function.comp_def]
  have hlimits : wordSize = 8 ∧ maxOffset = 65535 ∧ maxSegment = 65536 := ⟨rfl, rfl, rfl⟩
  have hroom := room_iff hp
  have hdeclarations : Clean (Layout.ofProgram p extra (p.data.map measured)).2 ↔ _ :=
    Layout.ofProgram_clean_iff
  rw [hzip, hnames, reach_iff] at hdeclarations
  simp only [hlimits] at hroom hdeclarations
  simp only [found, clean_append, clean_unusedFindings, and_true]
  constructor
  · rintro ⟨hdeclared, hchecked⟩
    rw [clean_gather_add (Layout.ofProgram_laid hdeclared) (Layout.has_ofProgram_mask p extra _)]
      at hchecked
    obtain ⟨extensions, ⟨libraries, ids⟩, constants, ⟨hsound, data, hstarts⟩, htotal,
      ⟨main, code, reach⟩, size⟩ := hdeclarations.mp hdeclared
    have room := hroom.mpr ⟨hsound, hstarts, htotal⟩
    exact { extensions, libraries, ids, constants, data, room, main, code, reach, size,
            instructions := hchecked }
  · intro h
    obtain ⟨hsound, hstarts, htotal⟩ := hroom.mp h.room
    have hdeclared := hdeclarations.mpr ⟨h.extensions, ⟨h.libraries, h.ids⟩, h.constants,
      ⟨hsound, h.data, hstarts⟩, htotal, ⟨h.main, h.code, h.reach⟩, h.size⟩
    refine ⟨hdeclared, ?_⟩
    rw [clean_gather_add (Layout.ofProgram_laid hdeclared) (Layout.has_ofProgram_mask p extra _)]
    exact h.instructions

/-- The analysis reports what it finds, unless a report shows a number with too many digits. -/
theorem ofProgram_cases (extra : List String) (file : Option String) :
    ((found p extra).any Finding.isOverlong = false ∧
      ∃ a, ofProgram p extra file = .ok a ∧ a.findings = found p extra) ∨
    ((found p extra).any Finding.isOverlong = true ∧
      ofProgram p extra file = .error .overlong) := by
  have hsizes : p.data.mapM datumSize = .ok (p.data.map measured) := by
    rw [Steps.mapM_eq_ok, List.forall₂_map_right_iff, List.forall₂_same]
    exact fun d hd => (hp d hd).spec.1
  unfold ofProgram found
  simp only [hsizes, bind, Except.bind, Layout.start]
  generalize Layout.ofProgram p extra (p.data.map measured) = l
  generalize gather (Progress.add l.1.mask) ⟨⟨l.1.symbols, l.1.libraries, []⟩, 0, []⟩
    p.instructions = run
  split_ifs with hlong
  · exact .inr ⟨hlong, rfl⟩
  · exact .inl ⟨Bool.eq_false_iff.mpr hlong, _, rfl, rfl⟩

/-- The analysis can always report that there is no error. -/
theorem ofProgram_found (extra : List String) (file : Option String) :
    (Clean (found p extra) → ∃ a, ofProgram p extra file = .ok a) ∧
      ∀ a, ofProgram p extra file = .ok a → a.findings = found p extra := by
  obtain ⟨-, a, ha, hfound⟩ | ⟨hlong, herror⟩ := ofProgram_cases hp extra file
  · refine ⟨fun _ => ⟨a, ha⟩, fun a' ha' => ?_⟩
    cases ha.symm.trans ha'
    exact hfound
  · refine ⟨fun hclean => ?_, fun a ha => ?_⟩
    · obtain ⟨f, hf, hfound⟩ := List.any_eq_true.mp hlong
      rw [Finding.isOverlong_of_not_isError (hclean f hf)] at hfound
      cases hfound
    · rw [herror] at ha
      cases ha

end Gauged

theorem gauged_of_parse {text : String} {file : Option String} {p : Program}
    (h : parse names text file = .ok p) : ∀ d ∈ p.data, Gauged d := fun _ hd =>
  gauged_of_plain ((parse_written h).data hd).2

theorem wellFormed_of_ok {text : String} {file file' : Option String} {p : Program}
    {extra : List String} {a : Analysis} (hparse : parse names text file = .ok p)
    (hanalysis : ofProgram p extra file' = .ok a) (hok : a.ok = true) : p.WellFormed extra := by
  have hgauged := gauged_of_parse hparse
  refine (clean_found_iff hgauged).mp ?_
  rw [← (ofProgram_found hgauged extra file').2 a hanalysis]
  exact ok_iff_clean.mp hok

/-- A well-formed program has an object. -/
theorem exists_object_of_wellFormed {text : String} {file : Option String} {p : Program}
    {extra : List String} (hparse : parse names text file = .ok p) (hp : p.WellFormed extra)
    (file' name : Option String) :
    ∃ a o, ofProgram p extra file' = .ok a ∧ a.ok = true ∧ a.encode name = .ok o := by
  have hgauged := gauged_of_parse hparse
  have hclean := (clean_found_iff hgauged).mpr hp
  obtain ⟨hreturns, hfindings⟩ := ofProgram_found hgauged extra file'
  obtain ⟨a, ha⟩ := hreturns hclean
  have hok : a.ok = true := ok_iff_clean.mpr (hfindings a ha ▸ hclean)
  obtain ⟨o, ho, -, -⟩ := exists_encode (parse_written hparse) (ofProgram_accepted ha hok) hok name
  exact ⟨a, o, ha, hok, ho⟩

/-- **The analysis accepts exactly the well-formed programs** of sources: on a well-formed program
it returns, and whenever it returns, the program is accepted if and only if it is well-formed. -/
theorem ok_iff_wellFormed {text : String} {file name : Option String} {p : Program}
    {extra : List String} (h : parse names text file = .ok p) :
    (p.WellFormed extra → ∃ a, ofProgram p extra name = .ok a) ∧
      ∀ a, ofProgram p extra name = .ok a → (a.ok = true ↔ p.WellFormed extra) := by
  have hgauged := gauged_of_parse h
  obtain ⟨hreturns, hfindings⟩ := ofProgram_found hgauged extra name
  refine ⟨fun hwf => hreturns ((clean_found_iff hgauged).mpr hwf), fun a ha => ?_⟩
  rw [ok_iff_clean, hfindings a ha, clean_found_iff hgauged]

/-- A program that computes a digest and asks for no extension itself. -/
def digestSource : String :=
  ".CONST\nTOP = 0x1F\n.DATA\nraw = bytes 0xDEAD_beef\n.MAIN\nloop: INC A16[3], TOP\n" ++
  "putd s16[0], raw\nsha256 s16[0], r256[1]\njif loop\n"

/-- Whether the program of a text is accepted, with extensions that are asked for in two ways. -/
def verdicts? (text : String) (extra extra' : List String) : Option (Bool × Bool) := do
  let p ← (parse nameless text none).toOption
  let a ← (ofProgram p extra none).toOption
  let b ← (ofProgram p extra' none).toOption
  return (a.ok, b.ok)

theorem stages_of_verdicts? {text : String} {extra extra' : List String} {x y : Bool}
    (h : verdicts? text extra extra' = some (x, y)) : ∃ p a b, parse nameless text none = .ok p ∧
      ofProgram p extra none = .ok a ∧ ofProgram p extra' none = .ok b ∧ a.ok = x ∧ b.ok = y := by
  unfold verdicts? at h
  rcases hp : parse nameless text none with e | p
  · simp [hp, Except.toOption] at h
  rcases ha : ofProgram p extra none with e | a
  · simp [hp, ha, Except.toOption] at h
  rcases hb : ofProgram p extra' none with e | b
  · simp [hp, ha, hb, Except.toOption] at h
  · exact ⟨p, a, b, rfl, ha, hb, by simpa [hp, ha, hb, Except.toOption] using h⟩

theorem digest_wellFormed : ∃ p, parse nameless digestSource none = .ok p ∧
    p.WellFormed [" bpdigest "] ∧ ¬ p.WellFormed [] := by
  obtain ⟨p, a, b, hp, ha, hb, hok, hno⟩ := stages_of_verdicts?
    (by decide +kernel : verdicts? digestSource [" bpdigest "] [] = some (true, false))
  refine ⟨p, hp, ((ok_iff_wellFormed hp).2 a ha).mp hok, fun hwf => ?_⟩
  rw [((ok_iff_wellFormed hp).2 b hb).mpr hwf] at hno
  cases hno

end Analysis

end AluVM
