import AluVM.Proofs.Numerals
import AluVM.Proofs.Splitting
import AluVM.Syntax.Source

/-! # The program that a source denotes

What the words of a derivation denote is said rule by rule: numbers denote integers, operands are
registers, numbers, routines of libraries or symbols, a line of a declaration is an item, and the
lines below the start of a routine are its body. A text denotes a program exactly if it splits into
words that derive from the grammar, and the program is the one that the derivation denotes, as long
as every number and string has a value (`parse_iff_derivable`). All of this holds whatever characters
have names. -/

namespace AluVM.Syntax

open Grammar Phrase

variable {names : CharacterNames}

/-! ### Denotation -/

/-- The integer that a word denotes, with its text. -/
def Token.Denotes (t : Token) (i : Immediate) : Prop :=
  Numeral.Denotes t.text.toList i.value ∧ i.text = t.text ∧ i.width = 0

/-- **The operand that words denote**: a number, a symbol, a routine of a library, or a register,
whose set is in lower case. -/
inductive Argument.Denotes : Argument → Operand → Prop where
  | number {t : Token} {i : Immediate} (h : t.Denotes i) : Denotes (.number t) (.immediate i)
  | name {t : Token} : Denotes (.name t) (.symbol t.text)
  | member {library routine : Token} :
      Denotes (.member library routine) (.call library.text routine.text)
  | indexed {set index : Token} {i : Immediate} (h : index.Denotes i) :
      Denotes (.indexed set index) (.register (Text.lower set.text) i.value)

/-- The instruction that a mnemonic and operands denote. -/
inductive InstructionDenotes (mnemonic : Token) (arguments : List Argument) : Node → Prop where
  | intro {operands : List Operand} (h : List.Forall₂ Argument.Denotes arguments operands) :
      InstructionDenotes mnemonic arguments
        (.instruction ⟨Text.lower mnemonic.text, operands, mnemonic.pos⟩)

/-- **The nodes that a line of a routine denotes**: a label, an instruction, or both. -/
inductive Statement.Codes : Statement → List Node → Prop where
  | label {name : Token} : Codes (.label name) [.label name.text name.pos]
  | plain {mnemonic : Token} {arguments : List Argument} {node : Node}
      (h : InstructionDenotes mnemonic arguments node) :
      Codes (.instruction none mnemonic arguments) [node]
  | labelled {label mnemonic : Token} {arguments : List Argument} {node : Node}
      (h : InstructionDenotes mnemonic arguments node) :
      Codes (.instruction (some label) mnemonic arguments) [.label label.text label.pos, node]

/-- **The item that a declaration denotes**; the type of data is in lower case. -/
inductive Statement.Declares (names : CharacterNames) : Statement → Item → Prop where
  | extension {name : Token} : Declares names (.extension name) (.extension ⟨name.text, name.pos⟩)
  | library {name : Token} {id : Option Token} :
      Declares names (.library name id) (.library ⟨name.text, id.map (·.text), name.pos⟩)
  | constant {name value : Token} {i : Immediate} (h : value.Denotes i) :
      Declares names (.constant name value) (.constant ⟨name.text, i, name.pos⟩)
  | string {name literal : Token} {bytes : Bytes}
      (h : Literal.decode names literal.text = .ok bytes) :
      Declares names (.string name literal) (.data ⟨name.text, stringType, [.raw bytes], name.pos⟩)
  | numbers {name type : Token} {values : List Token} {is : List Immediate}
      (h : List.Forall₂ Token.Denotes values is) :
      Declares names (.numbers name type values)
        (.data ⟨name.text, Text.lower type.text, is.map .immediate, name.pos⟩)

/-- The routine that a line starts, with its body. -/
inductive Statement.Opens : Statement → List Node → Item → Prop where
  | main {keyword : Token} {body : List Node} :
      Opens (.main keyword) body (.routine ⟨none, body, keyword.pos⟩)
  | routine {name : Token} {body : List Node} :
      Opens (.routine name) body (.routine ⟨some name.text, body, name.pos⟩)

/-- **The items that a section denotes**: one for every declaration, or a routine whose body is the
sequence of the nodes of its lines. -/
inductive Part.Denotes (names : CharacterNames) : Part → List Item → Prop where
  | declarations {lines : List Statement} {items : List Item}
      (h : List.Forall₂ (Statement.Declares names) lines items) : Denotes names ⟨none, lines⟩ items
  | routine {opening : Statement} {lines : List Statement} {codes : List (List Node)} {item : Item}
      (hcodes : List.Forall₂ Statement.Codes lines codes)
      (hopens : opening.Opens codes.flatten item) : Denotes names ⟨some opening, lines⟩ [item]

/-- **The items that sections denote**, in the order of the source. -/
def Denote (names : CharacterNames) (parts : List Part) (items : List Item) : Prop :=
  ∃ groups, List.Forall₂ (Part.Denotes names) parts groups ∧ items = groups.flatten

/-! ### From a denotation to the program -/

theorem Token.Denotes.immediate_eq {t : Token} {i : Immediate} (h : t.Denotes i) :
    t.immediate = .ok i := by
  obtain ⟨hvalue, htext, hwidth⟩ := h
  have hread := hvalue.read_eq
  rw [String.ofList_toList] at hread
  obtain ⟨value, text, width⟩ := i
  simp only at hread htext hwidth
  rw [immediate, hread, htext, hwidth]
  rfl

theorem Argument.Denotes.operand_eq {a : Argument} {o : Operand} (h : a.Denotes o) :
    a.operand = .ok o := by
  cases h with
  | number h => exact congrArg (Operand.immediate <$> ·) h.immediate_eq
  | name | member => rfl
  | indexed h => exact Steps.bind_eq_ok.mpr ⟨_, h.immediate_eq, rfl⟩

theorem InstructionDenotes.nodes_eq {mnemonic : Token} {arguments : List Argument} {node : Node}
    (h : InstructionDenotes mnemonic arguments node) (label : Option Token) :
    (Statement.instruction label mnemonic arguments).nodes =
      .ok (label.toList.map (fun l => Node.label l.text l.pos) ++ [node]) := by
  obtain ⟨hoperands⟩ := h
  refine Steps.bind_eq_ok.mpr ⟨_, Steps.mapM_eq_ok.mpr ?_, rfl⟩
  exact hoperands.imp fun a o ho => ho.operand_eq

/-- A line of a routine waits for the start of its routine. -/
theorem Statement.Codes.addStatement_eq {s : Statement} {nodes : List Node} (h : s.Codes nodes)
    (tail : Tail) : addStatement names s tail = .ok (nodes ++ tail.1, tail.2) := by
  have hnodes : s.nodes = .ok nodes := by
    cases h with
    | label => rfl
    | plain h => exact h.nodes_eq none
    | @labelled label _ _ _ h => exact h.nodes_eq (some label)
  have hitem : s.item? names = .ok none := by
    cases h <;> rfl
  exact Steps.bind_eq_ok.mpr ⟨none, hitem, Steps.bind_eq_ok.mpr ⟨nodes, hnodes, rfl⟩⟩

/-- A declaration becomes an item. -/
theorem Statement.Declares.addStatement_eq {s : Statement} {item : Item} (h : s.Declares names item)
    (items : List Item) : addStatement names s ([], items) = .ok ([], item :: items) := by
  have hitem : s.item? names = .ok (some item) := by
    cases h with
    | extension | library => rfl
    | constant h => exact Steps.bind_eq_ok.mpr ⟨_, h.immediate_eq, rfl⟩
    | string h => simp [item?, literalBytes, h]
    | numbers h =>
      refine Steps.bind_eq_ok.mpr ⟨_, Steps.mapM_eq_ok.mpr ?_, rfl⟩
      exact h.imp fun t i hi => hi.immediate_eq
  have hprepend : item.prepend [] = item := by
    cases h <;> rfl
  refine Steps.bind_eq_ok.mpr ⟨some item, hitem, ?_⟩
  change Except.ok ([], item.prepend [] :: items) = _
  rw [hprepend]

/-- The start of a routine takes the nodes that wait for it. -/
theorem Statement.Opens.addStatement_eq {s : Statement} {body : List Node} {item : Item}
    (h : s.Opens body item) (items : List Item) :
    addStatement names s (body, items) = .ok ([], item :: items) := by
  cases h <;> simp [addStatement, item?, Item.prepend, bind, Except.bind, pure, Except.pure]

theorem addAll_append (ss us : List Statement) (tail : Tail) :
    addAll names (ss ++ us) tail = addAll names ss tail >>= addAll names us := by
  induction ss generalizing tail with
  | nil => rfl
  | cons s ss ih => simp [addAll, ih]

theorem addAll_reverse_cons (s : Statement) (ss : List Statement) (tail : Tail) :
    addAll names (s :: ss).reverse tail = addAll names ss.reverse tail >>= addStatement names s := by
  rw [List.reverse_cons, addAll_append]
  congr 1
  funext tail
  exact bind_pure (addStatement names s tail)

theorem addAll_codes {lines : List Statement} {codes : List (List Node)}
    (h : List.Forall₂ Statement.Codes lines codes) (items : List Item) :
    addAll names lines.reverse ([], items) = .ok (codes.flatten, items) := by
  induction h with
  | nil => rfl
  | cons hline _ ih =>
    rw [addAll_reverse_cons, ih]
    exact hline.addStatement_eq _

theorem addAll_declares {lines : List Statement} {group : List Item}
    (h : List.Forall₂ (Statement.Declares names) lines group) (items : List Item) :
    addAll names lines.reverse ([], items) = .ok ([], group ++ items) := by
  induction h with
  | nil => rfl
  | cons hline _ ih =>
    rw [addAll_reverse_cons, ih]
    exact hline.addStatement_eq _

/-- A section adds its items and leaves nothing that waits. -/
theorem Part.Denotes.addAll_eq {p : Part} {group : List Item} (h : p.Denotes names group)
    (items : List Item) :
    addAll names p.statements.reverse ([], items) = .ok ([], group ++ items) := by
  cases h with
  | declarations h => exact addAll_declares h items
  | routine hcodes hopens =>
    rw [Part.statements, Option.toList_some, List.singleton_append, addAll_reverse_cons,
      addAll_codes hcodes]
    exact hopens.addStatement_eq items

theorem Denote.itemsOf_eq {parts : List Part} {items : List Item} (h : Denote names parts items) :
    itemsOf names (parts.flatMap Part.statements) = .ok items := by
  obtain ⟨groups, hgroups, rfl⟩ := h
  have hall : addAll names (parts.flatMap Part.statements).reverse ([], []) =
      .ok ([], groups.flatten) := by
    induction hgroups with
    | nil => rfl
    | cons hpart _ ih =>
      rw [List.flatMap_cons, List.reverse_append, addAll_append, ih]
      exact hpart.addAll_eq _
  rw [itemsOf, hall]
  rfl

/-! ### Strings -/

theorem badLiterals_eq_nil {ss : List Statement} :
    badLiterals names ss = [] ↔ ∀ s ∈ ss, badLiterals names [s] = [] := by
  simp only [badLiterals, List.filterMap_eq_nil_iff, List.mem_singleton, forall_eq]

theorem Part.Denotes.badLiterals_eq {p : Part} {group : List Item} (h : p.Denotes names group) :
    badLiterals names p.statements = [] := by
  refine badLiterals_eq_nil.mpr fun s hs => ?_
  cases h with
  | declarations h =>
    obtain ⟨item, -, hitem⟩ := Steps.exists_mem_right h s hs
    cases hitem with
    | string h => simp [badLiterals, h]
    | _ => rfl
  | routine hcodes hopens =>
    rcases List.mem_cons.mp hs with rfl | hs
    · cases hopens <;> rfl
    · obtain ⟨nodes, -, hnodes⟩ := Steps.exists_mem_right hcodes s hs
      cases hnodes <;> rfl

/-- What denotes items has no string without a value. -/
theorem Denote.badLiterals_eq {parts : List Part} {items : List Item}
    (h : Denote names parts items) : badLiterals names (parts.flatMap Part.statements) = [] := by
  obtain ⟨groups, hgroups, -⟩ := h
  refine badLiterals_eq_nil.mpr fun s hs => ?_
  obtain ⟨p, hp, hs⟩ := List.mem_flatMap.mp hs
  obtain ⟨group, -, hgroup⟩ := Steps.exists_mem_right hgroups p hp
  exact badLiterals_eq_nil.mp hgroup.badLiterals_eq s hs

/-! ### Every derivation denotes items -/

/-- The word can be read: a decimal number has not too many digits, and a string has a value. -/
structure Token.Readable (names : CharacterNames) (t : Token) : Prop where
  number : t.terminal = .number → Numeral.Short t.text.toList
  string : t.terminal = .string → ∃ bytes, Literal.decode names t.text = .ok bytes

/-- The word has a value if words of its class have one. -/
structure Token.Valued (names : CharacterNames) (t : Token) : Prop where
  number : t.terminal = .number → ∃ i, t.Denotes i
  string : t.terminal = .string → ∃ bytes, Literal.decode names t.text = .ok bytes

theorem Token.Readable.valued {t : Token} (h : t.Readable names)
    (hlanguage : t.text.toList ∈ t.terminal.language) : t.Valued names := by
  refine ⟨fun hk => ?_, h.string⟩
  rw [hk] at hlanguage
  obtain ⟨v, hv⟩ := Numeral.exists_denotes hlanguage (h.number hk)
  exact ⟨⟨v, t.text, 0⟩, hv, rfl, rfl⟩

theorem gives_number : number.Gives (Token.Valued names) fun t => ∃ i, t.Denotes i :=
  fun ts t h hts => (gives_word .number ts t h hts).2.number (gives_word .number ts t h hts).1

theorem gives_commaList {α : Type} {p : Phrase α} {Q : α → Prop}
    (h : p.Gives (Token.Valued names) Q) : (commaList p).Gives (Token.Valued names) fun as => ∀ a ∈ as, Q a := by
  refine Gives.seq (h.map fun a ha as has => ?_) (gives_star h.seqRight)
  exact List.forall_mem_cons.mpr ⟨ha, has⟩

theorem gives_operand : operand.Gives (Token.Valued names) fun a => ∃ o, a.Denotes o := by
  have hregister : register.Gives (Token.Valued names) fun a => ∃ o, a.Denotes o := by
    refine Gives.seqLeft (Gives.seq (Gives.seqLeft ((gives_true _).map ?_)) gives_number)
    rintro set - index ⟨i, hi⟩
    exact ⟨_, .indexed hi⟩
  have hmember : member.Gives (Token.Valued names) fun a => ∃ o, a.Denotes o := by
    refine Gives.seq (Gives.seqLeft ((gives_true _).map ?_)) (gives_true _)
    exact fun library _ routine _ => ⟨_, .member⟩
  refine hregister.orElse (Gives.orElse ?_ (hmember.orElse ?_))
  · refine gives_number.map ?_
    rintro t ⟨i, hi⟩
    exact ⟨_, .number hi⟩
  · exact (gives_true _).map fun t _ => ⟨_, .name⟩

theorem gives_instruction :
    instruction.Gives (Token.Valued names) fun i => ∃ node, InstructionDenotes i.1 i.2 node := by
  have harguments : ((fun as => as.getD []) <$> optional (commaList operand)).Gives
      (Token.Valued names) fun as => ∀ a ∈ as, ∃ o, a.Denotes o := by
    refine (gives_commaList gives_operand).optional.map fun as? has => ?_
    rcases as? with _ | as
    · simp
    · exact has as rfl
  refine Gives.seq ((gives_true _).map fun mnemonic _ arguments hall => ?_) harguments
  obtain ⟨operands, hoperands⟩ := Steps.exists_forall₂ hall
  exact ⟨_, .intro hoperands⟩

theorem gives_code : code.Gives (Token.Valued names) fun s => ∃ nodes, s.Codes nodes := by
  refine Gives.orElse ?_ (Gives.orElse ?_ ?_)
  · exact (gives_true _).map fun name _ => ⟨_, .label⟩
  · refine gives_instruction.map ?_
    rintro i ⟨node, hnode⟩
    exact ⟨_, .plain hnode⟩
  · refine Gives.seq ((gives_true _).map ?_) gives_instruction
    rintro label - i ⟨node, hnode⟩
    exact ⟨_, .labelled hnode⟩

theorem gives_extension :
    extension.Gives (Token.Valued names) fun s => ∃ item, s.Declares names item :=
  (gives_true _).map fun _ _ => ⟨_, .extension⟩

theorem gives_library : library.Gives (Token.Valued names) fun s => ∃ item, s.Declares names item :=
  Gives.seq ((gives_true _).map fun _ _ _ _ => ⟨_, .library⟩) (gives_true _)

theorem gives_constant :
    constant.Gives (Token.Valued names) fun s => ∃ item, s.Declares names item := by
  refine Gives.seq (Gives.seqLeft ((gives_true _).map ?_)) gives_number
  rintro name - value ⟨i, hi⟩
  exact ⟨_, .constant hi⟩

theorem gives_data : data.Gives (Token.Valued names) fun s => ∃ item, s.Declares names item := by
  refine Gives.orElse ?_ ?_
  · refine Gives.seq (Gives.seqLeft ((gives_true _).map ?_)) (gives_word .string)
    rintro name - literal ⟨hterminal, hvalued⟩
    obtain ⟨bytes, hbytes⟩ := hvalued.string hterminal
    exact ⟨_, .string hbytes⟩
  · refine Gives.seq (Gives.seq (Gives.seqLeft ((gives_true _).map ?_)) (gives_true _))
      (gives_commaList gives_number)
    intro name _ type _ values hvalues
    obtain ⟨is, his⟩ := Steps.exists_forall₂ hvalues
    exact ⟨_, .numbers his⟩

theorem gives_lines {k : Section} {Q : Statement → Prop}
    (h : (line k).Gives (Token.Valued names) Q) : (lines k).Gives (Token.Valued names) fun ls => ∀ s ∈ ls, Q s :=
  Gives.seqRight (gives_star h.seqLeft)

theorem gives_part (k : Section) :
    (part k).Gives (Token.Valued names) fun p => ∃ group, p.Denotes names group := by
  have hdeclarations : ∀ k,
      (line k).Gives (Token.Valued names) (fun s => ∃ item, s.Declares names item) →
      ((fun ls => (⟨none, ls⟩ : Part)) <$> (word (.keyword k) *> lines k)).Gives
        (Token.Valued names) fun p => ∃ group, p.Denotes names group := by
    intro k hline
    refine (gives_lines hline).seqRight.map fun ls hls => ?_
    obtain ⟨items, hitems⟩ := Steps.exists_forall₂ hls
    exact ⟨items, .declarations hitems⟩
  have hroutine : ∀ {k : Section} {opening : Token → Statement} (p : Phrase Token),
      (∀ t body, ∃ item, (opening t).Opens body item) →
      (line k).Gives (Token.Valued names) (fun s => ∃ nodes, s.Codes nodes) →
      ((fun t ls => (⟨some (opening t), ls⟩ : Part)) <$> p <*> lines k).Gives (Token.Valued names)
        fun p => ∃ group, p.Denotes names group := by
    intro k opening p hopens hline
    refine Gives.seq ((gives_true p).map fun t _ ls hls => ?_) (gives_lines hline)
    obtain ⟨codes, hcodes⟩ := Steps.exists_forall₂ hls
    obtain ⟨item, hitem⟩ := hopens t codes.flatten
    exact ⟨[item], .routine hcodes hitem⟩
  cases k with
  | isae => exact hdeclarations .isae gives_extension
  | libs => exact hdeclarations .libs gives_library
  | const => exact hdeclarations .const gives_constant
  | data => exact hdeclarations .data gives_data
  | main => exact hroutine _ (fun t body => ⟨_, .main⟩) gives_code
  | routine => exact hroutine _ (fun t body => ⟨_, .routine⟩) gives_code

/-- **Every derivation from words with values denotes items.** -/
theorem gives_source :
    source.Gives (Token.Valued names) fun parts => ∃ items, Denote names parts items := by
  have hany : anyPart.Gives (Token.Valued names) fun p => ∃ group, p.Denotes names group :=
    (gives_part .isae).orElse ((gives_part .libs).orElse ((gives_part .const).orElse
      ((gives_part .data).orElse ((gives_part .main).orElse (gives_part .routine)))))
  intro ts parts h hts
  obtain ⟨groups, hgroups⟩ := Steps.exists_forall₂ (Gives.seqRight (gives_star hany) ts parts h hts)
  exact ⟨groups.flatten, groups, hgroups, rfl⟩

/-! ### Programs -/

theorem parse_eq_ok {text : String} {file : Option String} {p : Program} :
    parse names text file = .ok p ↔ ∃ ss, readStatements text = .ok ss ∧
      itemsOf names ss = .ok p.items ∧ badLiterals names ss = [] ∧ p.file = file := by
  unfold parse
  rcases readStatements text with e | ss
  · simp
  · rcases hitems : itemsOf names ss with e | items
    · simp [hitems]
    · rcases hliterals : badLiterals names ss with _ | ⟨e, es⟩
      · simp only [hitems, hliterals]
        constructor
        · intro h
          cases h
          exact ⟨ss, rfl, hitems, hliterals, rfl⟩
        · rintro ⟨_, hss, hitems', -, rfl⟩
          cases hss
          rw [Except.ok.inj (hitems.symm.trans hitems')]
      · simp [hitems, hliterals]

/-- A text denotes the program that its statements denote. -/
theorem Denote.parse_eq {text : String} {file : Option String} {parts : List Part}
    {items : List Item} (h : Denote names parts items)
    (hread : readStatements text = .ok (parts.flatMap Part.statements)) :
    parse names text file = .ok ⟨items, file⟩ :=
  parse_eq_ok.mpr ⟨_, hread, h.itemsOf_eq, h.badLiterals_eq, rfl⟩

/-- A text denotes the program of any derivation of its words. -/
theorem parse_of_denote {text : String} {file : Option String} {words : List Token}
    {parts : List Part} {items : List Item} (hwords : SplitsInto text words)
    (hparts : source.Derives words parts) (hitems : Denote names parts items) :
    parse names text file = .ok ⟨items, file⟩ :=
  hitems.parse_eq (readStatements_eq_ok.mpr ⟨words, parts, hwords, hparts, rfl⟩)

/-- **The grammar says which texts denote a program, and which one.** A text whose decimal numbers
have not too many digits and whose strings have values denotes a program exactly if it splits into
words that derive from the grammar. It splits in one way at most, and whatever the derivation, the
program is the one that the derivation denotes. -/
theorem parse_iff_derivable (names : CharacterNames) (text : String) (file : Option String)
    (hreadable : ∀ words, SplitsInto text words → ∀ t ∈ words, t.Readable names) :
    (∀ words words', SplitsInto text words → SplitsInto text words' → words = words') ∧
      ((∃ p, parse names text file = .ok p) ↔ ∃ words, SplitsInto text words ∧ Derivable words) ∧
      ∀ words parts, SplitsInto text words → source.Derives words parts →
        ∀ p, parse names text file = .ok p ↔ Denote names parts p.items ∧ p.file = file := by
  have hdenote : ∀ words parts, SplitsInto text words → source.Derives words parts →
      ∃ items, Denote names parts items := by
    intro words parts hwords hparts
    refine gives_source words parts hparts fun t ht => ?_
    exact (hreadable words hwords t ht).valued (hwords.mem_language t ht)
  refine ⟨fun words words' h h' => h.unique follows_start h', ⟨?_, ?_⟩, ?_⟩
  · rintro ⟨p, hp⟩
    obtain ⟨ss, hss, -⟩ := parse_eq_ok.mp hp
    obtain ⟨words, parts, hwords, hparts, -⟩ := readStatements_eq_ok.mp hss
    exact ⟨words, hwords, parts, hparts⟩
  · rintro ⟨words, hwords, parts, hparts⟩
    obtain ⟨items, hitems⟩ := hdenote words parts hwords hparts
    exact ⟨_, parse_of_denote hwords hparts hitems⟩
  · intro words parts hwords hparts p
    obtain ⟨items, hitems⟩ := hdenote words parts hwords hparts
    constructor
    · intro hp
      rw [parse_of_denote hwords hparts hitems] at hp
      cases hp
      exact ⟨hitems, rfl⟩
    · rintro ⟨hp, rfl⟩
      exact parse_of_denote hwords hparts hp

/-- One character has a name. -/
def bulletName : CharacterNames := fun name => if name = "BULLET" then some '•' else none

/-- A text with a string that names a character, a comment, a label and operands of every kind. -/
def greetingSource : String :=
  ".DATA\nhi = \"a\\N\x7bBULLET\x7d\\n\"\n.MAIN ; start\nl: PUT A8[1], -0x2a, m.r, l"

theorem greetingSource_readable (words : List Token) (hwords : SplitsInto greetingSource words) :
    ∀ t ∈ words, t.Readable bulletName := by
  intro t ht
  have hinfix := hwords.infix t ht
  refine ⟨fun _ _ => ?_, fun hk => ?_⟩
  · calc (t.text.toList.filter Char.isDigit).length ≤ t.text.toList.length :=
          List.length_filter_le _ _
      _ ≤ (closeText greetingSource.toList).length := hinfix.length_le
      _ ≤ Numeral.maxDigits := by decide +kernel
  · -- There are only two quotes, so the text has one part that can be a string.
    have hparts : ∀ u ∈ (closeText greetingSource.toList).tails, ∀ w ∈ u.inits, 2 ≤ w.length →
        w.head? = some '"' → w.getLast? = some '"' →
          (Literal.decode bulletName (String.ofList w)).isOk = true := by
      decide +kernel
    have hmem := hwords.mem_language t ht
    rw [hk, Terminal.language, Lexeme.string, mul_assoc] at hmem
    obtain ⟨v, hv, hw⟩ := Lexeme.mem_fixed_mul.mp hmem
    obtain ⟨body, -, quote, hquote, rfl⟩ := Language.mem_mul.mp hv
    rw [Lexeme.mem_fixed.mp hquote] at hw
    obtain ⟨u, hpre, hsuf⟩ := List.infix_iff_prefix_suffix.mp hinfix
    have hok := hparts u ((List.mem_tails _ _).mpr hsuf) _ ((List.mem_inits _ _).mpr hpre)
      (by simp [hw]) (by simp [hw]) (by rw [hw, ← List.append_assoc, List.getLast?_concat])
    rw [String.ofList_toList] at hok
    exact Steps.exists_of_isOk hok

theorem parse_iff_derivable_greeting : (∀ words, SplitsInto greetingSource words → ∀ t ∈ words,
    t.Readable bulletName) ∧
    ∃ words parts, SplitsInto greetingSource words ∧ source.Derives words parts ∧
      Denote bulletName parts [.data ⟨"hi", "str", [.raw [97, 226, 128, 162, 10]], ⟨2, 1⟩⟩,
        .routine ⟨none, [.label "l" ⟨4, 1⟩, .instruction ⟨"put", [.register "a8" 1,
          .immediate ⟨-42, "-0x2a", 0⟩, .call "m" "r", .symbol "l"], ⟨4, 4⟩⟩], ⟨3, 1⟩⟩] := by
  have hparse : parse bulletName greetingSource none =
      .ok ⟨[.data ⟨"hi", "str", [.raw [97, 226, 128, 162, 10]], ⟨2, 1⟩⟩,
        .routine ⟨none, [.label "l" ⟨4, 1⟩, .instruction ⟨"put", [.register "a8" 1,
          .immediate ⟨-42, "-0x2a", 0⟩, .call "m" "r", .symbol "l"], ⟨4, 4⟩⟩], ⟨3, 1⟩⟩], none⟩ := by
    decide +kernel
  obtain ⟨-, hiff, hdenote⟩ :=
    parse_iff_derivable bulletName greetingSource none greetingSource_readable
  obtain ⟨words, hwords, parts, hparts⟩ := hiff.mp ⟨_, hparse⟩
  exact ⟨greetingSource_readable, words, parts, hwords, hparts,
    ((hdenote words parts hwords hparts _).mp hparse).1⟩

end AluVM.Syntax
