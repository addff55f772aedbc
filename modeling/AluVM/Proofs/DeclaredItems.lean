import AluVM.Proofs.LongNumbers

/-! # The lines that declarations come from

Every declaration of a program is the one that some line of its source denotes
(`parse_declared`), and the words of the line are of the classes that the declaration needs. -/

namespace AluVM.Syntax

open Grammar

variable {names : CharacterNames}

theorem Token.Is.mem_language {k : Terminal} {t : Token} (h : t.Is k) :
    t.text.toList ∈ k.language := by
  obtain ⟨cs, rest, hmatch⟩ := h.lexeme
  exact ((finds_match? k).mem hmatch).1

/-- A number that is read is the one that the word denotes. -/
theorem Token.Is.denotes {t : Token} {i : Immediate} (h : t.Is .number)
    (hi : t.immediate = .ok i) : t.Denotes i := by
  have hshort := (Token.isRead_iff h.mem_language).mp ⟨i, hi⟩
  obtain ⟨v, hv⟩ := Numeral.exists_denotes h.mem_language hshort
  have hdenotes : t.Denotes ⟨v, t.text, 0⟩ := ⟨hv, rfl, rfl⟩
  cases hdenotes.immediate_eq.symm.trans hi
  exact hdenotes

/-- Where a line outside routines denotes an item, it declares it. -/
theorem item?_declares {st : Statement} {item : Item} (hst : st.Typed)
    (hliterals : badLiterals names [st] = []) (hitem : ∀ r, item ≠ .routine r)
    (h : st.item? names = .ok (some item)) : st.Declares names item := by
  cases st with
  | main keyword | routine name =>
    cases h
    exact absurd rfl (hitem _)
  | extension name =>
    cases h
    exact .extension
  | library name id =>
    cases h
    exact .library
  | constant name value =>
    obtain ⟨i, hi, h⟩ := Steps.bind_eq_ok.mp h
    cases h
    exact .constant (hst.2.denotes hi)
  | string name literal =>
    cases h
    rcases hdecode : Literal.decode names literal.text with e | bytes
    · simp [badLiterals, hdecode] at hliterals
    · have hbytes : literalBytes names literal = bytes := by simp [literalBytes, hdecode]
      rw [hbytes]
      exact .string hdecode
  | numbers name type values =>
    obtain ⟨is, his, h⟩ := Steps.bind_eq_ok.mp h
    cases h
    refine .numbers (Steps.forall₂_imp_mem (Steps.mapM_eq_ok.mp his) fun t ht i _ hi => ?_)
    exact (hst.2.2.2 t ht).denotes hi
  | label name | instruction behind mnemonic arguments => cases h

/-- Every item but a routine is left as its line gave it. -/
theorem exists_item? {sts : List Statement} {items : List Item} (h : itemsOf names sts = .ok items)
    {item : Item} (hmem : item ∈ items) (hitem : ∀ r, item ≠ .routine r) :
    ∃ st ∈ sts, st.item? names = .ok (some item) := by
  obtain ⟨tail, htail, h⟩ := Steps.bind_eq_ok.mp h
  cases h
  refine addAll_induction (P := fun tail => ∀ item ∈ tail.2, (∀ r, item ≠ .routine r) →
    ∃ st ∈ sts, st.item? names = .ok (some item)) ?_ (by simp) htail item hmem hitem
  intro st hst tail tail' ih hadd item hmem hitem
  obtain ⟨item?, hgives, hadd⟩ := Steps.bind_eq_ok.mp hadd
  rcases item? with _ | new
  · obtain ⟨nodes, -, hadd⟩ := Steps.bind_eq_ok.mp hadd
    cases hadd
    exact ih item hmem hitem
  · cases hadd
    rcases List.mem_cons.mp hmem with rfl | hmem
    · refine ⟨st, List.mem_reverse.mp hst, ?_⟩
      cases new with
      | routine r => exact absurd rfl (hitem _)
      | _ => exact hgives
    · exact ih item hmem hitem

/-- **Every declaration of a program is denoted by a line of its source.** -/
theorem parse_declared {text : String} {file : Option String} {p : Program}
    (h : parse names text file = .ok p) {item : Item} (hmem : item ∈ p.items)
    (hitem : ∀ r, item ≠ .routine r) :
    ∃ st : Statement, st.Typed ∧ st.Declares names item := by
  obtain ⟨sts, hsts, hitems, hliterals, -⟩ := parse_eq_ok.mp h
  obtain ⟨st, hst, hgives⟩ := exists_item? hitems hmem hitem
  have htyped := readStatements_typed hsts st hst
  exact ⟨st, htyped, item?_declares htyped (badLiterals_eq_nil.mp hliterals st hst) hitem hgives⟩

theorem parse_declared_data {text : String} {file : Option String} {p : Program}
    (h : parse names text file = .ok p) {d : DataDecl} (hd : d ∈ p.data) :
    ∃ st : Statement, st.Typed ∧ st.Declares names (.data d) := by
  obtain ⟨item, hitem, heq⟩ := List.mem_filterMap.mp hd
  cases item <;> cases heq
  exact parse_declared h hitem (by simp)

end AluVM.Syntax
