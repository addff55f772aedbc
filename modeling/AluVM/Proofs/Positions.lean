import AluVM.Proofs.LongNumbers
import AluVM.Proofs.Reading

/-! # Places in a text

The place behind some characters is given by the characters alone: lines count line feeds, and
columns the characters behind the last of them (`Position.behind`). The reader counts along instead,
word by word. `Scanned` says how far a text is split, with the characters that are behind it, so that
every word carries the place behind the characters in front of it; what the grammar splits is split
in this way (`Splits.scanned`), so every word of a text stands at its place (`SplitsInto.standsAt`).
The items and nodes of a program take their places from words of the grammar's rules
(`heads_of_derives`), so they carry the places of their names (`Denote.placed`). -/

namespace AluVM

/-! ### Places -/

/-- **The place behind some characters**, in lines and columns that count from one. -/
def Position.behind (before : List Char) : Position :=
  ⟨1 + before.count '\n', 1 + (before.reverse.takeWhile (· ≠ '\n')).length⟩

theorem Position.behind_append {w : List Char} (h : '\n' ∉ w) (before : List Char) :
    behind (before ++ w) = ⟨(behind before).line, (behind before).col + w.length⟩ := by
  have hall : ∀ c ∈ w.reverse, decide (c ≠ '\n') = true := by
    intro c hc
    refine decide_eq_true ?_
    rintro rfl
    exact h (List.mem_reverse.mp hc)
  have hcol : (before ++ w).reverse.takeWhile (· ≠ '\n') =
      w.reverse ++ before.reverse.takeWhile (· ≠ '\n') := by
    rw [List.reverse_append, List.takeWhile_append_of_pos hall]
  rw [behind, behind, hcol, List.count_append, List.count_eq_zero_of_not_mem h, List.length_append,
    List.length_reverse]
  simp only [Position.mk.injEq]
  omega

theorem Position.behind_newline (before : List Char) :
    behind (before ++ ['\n']) = ⟨(behind before).line + 1, 1⟩ := by
  rw [behind, behind, List.count_append, List.reverse_append]
  rfl

namespace Syntax

open Lexeme Grammar Phrase
open scoped Computability

variable {names : CharacterNames}

/-! ### The characters of words -/

/-- The characters of words that are neither strings nor ends of lines. -/
def isPlain (c : Char) : Bool := isWordChar c || c ∈ ['.', ':', '=', ',', '[', ']']

theorem isPlain_of_isWordChar {c : Char} (h : isWordChar c = true) : isPlain c = true := by
  simp [isPlain, h]

theorem isPlain_of_mem {k : Terminal} (hnewline : k ≠ .newline) (hstring : k ≠ .string)
    {w : List Char} (hw : w ∈ k.language) : ∀ c ∈ w, isPlain c = true := by
  cases k with
  | keyword s =>
    rw [mem_fixed.mp hw]
    refine List.all_eq_true.mp ?_
    cases s <;> rfl
  | newline => exact absurd rfl hnewline
  | string => exact absurd rfl hstring
  | name => exact fun c hc => isPlain_of_isWordChar (isWordChar_of_mem_name hw c hc)
  | number => exact fun c hc => isPlain_of_isWordChar (isWordChar_of_mem_number hw c hc)
  | libraryId =>
    obtain ⟨algorithm, run, -, halgorithm, hrun, rfl⟩ := mem_libraryId.mp hw
    intro c hc
    rcases List.mem_append.mp hc with hc | hc
    · refine isPlain_of_isWordChar (isWordChar_of_continuesName ?_)
      have hlower := halgorithm c hc
      unfold continuesName Char.isAlphanum Char.isAlpha
      simp only [Bool.or_eq_true] at hlower ⊢
      tauto
    · rcases List.mem_cons.mp hc with rfl | hc
      · rfl
      · exact isPlain_of_isWordChar (isWordChar_of_isHexDigit (.inl ((mem_many.mp hrun).2 c hc)))
  | endOfText => exact absurd hw (Language.notMem_zero _)
  | _ =>
    rw [mem_fixed.mp hw]
    exact List.all_eq_true.mp rfl

/-- A string has a body between its quotes, without line feeds. -/
theorem mem_string {w : List Char} (hw : w ∈ Terminal.string.language) :
    ∃ body, w = '"' :: (body ++ ['"']) ∧ body ∈ stringItem∗ ∧ '\n' ∉ body := by
  rw [Terminal.language, Lexeme.string, mul_assoc] at hw
  obtain ⟨_, ⟨body, hbody, _, rfl, rfl⟩, rfl⟩ := mem_fixed_mul.mp hw
  refine ⟨body, rfl, hbody, ?_⟩
  obtain ⟨items, rfl, hitems⟩ := Language.mem_kstar.mp hbody
  intro hmem
  obtain ⟨item, hitem, hmem⟩ := List.mem_flatten.mp hmem
  rcases hitems item hitem with hescaped | ⟨c, hc, rfl⟩
  · obtain ⟨_, ⟨c, hc, rfl⟩, rfl⟩ := mem_fixed_mul.mp hescaped
    have hne : c ≠ '\n' := of_decide_eq_true hc
    simp [hne.symm] at hmem
  · obtain rfl := List.mem_singleton.mp hmem
    revert hc
    decide

/-- Only the end of a line has a line feed. -/
theorem newline_notMem {k : Terminal} (hk : k ≠ .newline) {w : List Char} (hw : w ∈ k.language) :
    '\n' ∉ w := by
  by_cases hstring : k = .string
  · subst hstring
    obtain ⟨body, rfl, -, hbody⟩ := mem_string hw
    simpa using hbody
  · intro hmem
    exact absurd (isPlain_of_mem hk hstring hw _ hmem) (by decide)

theorem newline_notMem_of_ignored {gap : List Char} (h : gap ∈ ignored) : '\n' ∉ gap := by
  rcases h with h | h
  · intro hmem
    exact absurd ((mem_many.mp h).2 _ hmem) (by decide)
  · obtain ⟨mark, hmark, body, hbody, rfl⟩ := mem_comment.mp h
    intro hmem
    have hmarks : ∀ mark ∈ [[';'], ['/', '/'], ['#']], '\n' ∉ mark := by decide
    rcases List.mem_append.mp hmem with hmem | hmem
    · exact hmarks mark hmark hmem
    · exact hbody _ hmem rfl

/-- The reader counts to the place behind a word. -/
theorem behind_word {k : Terminal} {w : List Char} (hw : w ∈ k.language) (before : List Char) :
    Position.behind (before ++ w) = Position.after (.behind before) k w := by
  by_cases hk : k = .newline
  · subst hk
    rw [Position.after, if_pos rfl]
    rcases mem_newline.mp hw with rfl | rfl
    · exact Position.behind_newline before
    · have hsplit : before ++ ['\r', '\n'] = (before ++ ['\r']) ++ ['\n'] := by simp
      rw [hsplit, Position.behind_newline, Position.behind_append (by decide)]
  · rw [Position.after, if_neg hk, Position.behind_append (newline_notMem hk hw)]

/-! ### How far a text is split -/

/-- **The first characters of a text are split into words**, `before` being these characters and
`rest` those that are left. Every word is the longest text of a class that the grammar allows, and it
carries the place behind the characters in front of it. -/
inductive Scanned (text : List Char) :
    (words : List Token) → (before rest : List Char) → Prop where
  | start : Scanned text [] [] text
  | skip {words : List Token} {before gap rest : List Char}
      (h : Scanned text words before (gap ++ rest))
      (longest : IsLongest (candidates words) gap (gap ++ rest)) (hgap : gap ∈ ignored) :
      Scanned text words (before ++ gap) rest
  | word {words : List Token} {before w rest : List Char} {k : Terminal}
      (h : Scanned text words before (w ++ rest))
      (longest : IsLongest (candidates words) w (w ++ rest)) (allowed : Allowed words k)
      (hw : w ∈ k.language) :
      Scanned text (words ++ [⟨k, String.ofList w, .behind before⟩]) (before ++ w) rest

theorem Scanned.append_eq {text before rest : List Char} {words : List Token}
    (h : Scanned text words before rest) : before ++ rest = text := by
  induction h with
  | start => rfl
  | skip _ _ _ ih | word _ _ _ _ ih => rw [List.append_assoc, ih]

/-- The text has the word at the place. -/
def StandsAt (text : List Char) (w : String) (pos : Position) : Prop :=
  ∃ before, before ++ w.toList <+: text ∧ pos = .behind before

/-- **Every word stands at its place.** -/
theorem Scanned.standsAt {text before rest : List Char} {words : List Token}
    (h : Scanned text words before rest) : ∀ t ∈ words, StandsAt text t.text t.pos := by
  induction h with
  | start => simp
  | skip _ _ _ ih => exact ih
  | @word words before w rest k h _ _ _ ih =>
    intro t ht
    rcases List.mem_append.mp ht with ht | ht
    · exact ih t ht
    · rw [List.mem_singleton.mp ht]
      refine ⟨before, ?_, rfl⟩
      rw [String.toList_ofList, ← h.append_eq, ← List.append_assoc]
      exact List.prefix_append _ rest

/-- What the grammar splits is split with the places behind the characters. -/
theorem Splits.scanned {done ts : List Token} {pos : Position} {rest : List Char}
    (h : Splits done pos rest ts) {text before : List Char} (hdone : Scanned text done before rest)
    (hpos : pos = .behind before) : Scanned text (done ++ ts) text [] := by
  induction h generalizing before with
  | nil =>
    have htext := hdone.append_eq
    rw [List.append_nil] at htext ⊢
    rwa [htext] at hdone
  | skip longest hgap _ ih =>
    refine ih (hdone.skip longest hgap) ?_
    rw [hpos, Position.behind_append (newline_notMem_of_ignored hgap)]
  | @word done ts pos w rest k longest allowed hw _ ih =>
    subst hpos
    rw [List.append_cons]
    exact ih (hdone.word longest allowed hw) (behind_word hw before).symm

theorem SplitsInto.scanned {text : String} {words : List Token} (h : SplitsInto text words) :
    Scanned (closeText text.toList) words (closeText text.toList) [] :=
  Splits.scanned h .start rfl

/-- What is skipped belongs to no word. -/
theorem scanned_of_skip {text before rest left : List Char} {words : List Token} {col col' : Nat}
    (h : Scanned text words before rest) (hskip : skip col rest = (col', left)) :
    ∃ gap, '\n' ∉ gap ∧ rest = gap ++ left ∧ col' = col + gap.length ∧
      Scanned text words (before ++ gap) left := by
  have hdrops := drops_of_skip hskip
  clear hskip
  induction hdrops generalizing before with
  | none => exact ⟨[], by simp, rfl, rfl, by rwa [List.append_nil]⟩
  | @gap col col' gap rest left longest _ ih =>
    obtain ⟨gap', hgap', rfl, rfl, hleft⟩ := ih (h.skip (longest.candidates words) longest.1)
    refine ⟨gap ++ gap', ?_, (List.append_assoc ..).symm, ?_, ?_⟩
    · have hgap := newline_notMem_of_ignored longest.1
      simp [hgap, hgap']
    · rw [List.length_append, Nat.add_assoc]
    · rwa [List.append_assoc] at hleft

/-- **What has been split is the start of the split of the text.** -/
theorem Scanned.splits {text before rest : List Char} {done words : List Token}
    (h : Scanned text done before rest) (hwords : Splits [] ⟨1, 1⟩ text words) :
    ∃ s ts, Follows done s ∧ words = done ++ ts ∧ Splits done (.behind before) rest ts := by
  induction h with
  | start => exact ⟨.start, words, follows_start, rfl, hwords⟩
  | @skip done before gap rest _ longest hgap ih =>
    obtain ⟨s, ts, hs, hts, hsplits⟩ := ih
    refine ⟨s, ts, hs, hts, ?_⟩
    rw [Position.behind_append (newline_notMem_of_ignored hgap)]
    exact hsplits.of_skip longest hgap
  | @word done before w rest k _ longest allowed hw ih =>
    obtain ⟨s, ts, hs, hts, hsplits⟩ := ih
    obtain ⟨ts', rfl, hrest⟩ := hsplits.of_word hs longest allowed hw
    obtain ⟨next, hstep⟩ : ∃ next, s.step ⟨k, String.ofList w, .behind before⟩ = some next :=
      hs.exists_step allowed
    refine ⟨next, ts', hs.step hstep, by rw [hts, List.append_cons], ?_⟩
    rwa [behind_word hw]

/-- The last line feed of a closed text belongs to no word but the end of a line. -/
theorem StandsAt.of_closeText {text : List Char} {w : String} {pos : Position}
    (h : StandsAt (closeText text) w pos) (hne : w.toList ≠ []) (hw : '\n' ∉ w.toList) :
    StandsAt text w pos := by
  obtain ⟨before, hpre, hpos⟩ := h
  refine ⟨before, ?_, hpos⟩
  unfold closeText at hpre
  split_ifs at hpre
  · exact hpre
  · rcases List.prefix_concat_iff.mp hpre with heq | hpre
    · have hlast : w.toList.getLast? = some '\n' := by
        have hlast := congrArg List.getLast? heq
        rwa [List.getLast?_append_of_ne_nil _ hne, List.getLast?_concat] at hlast
      exact absurd (List.mem_of_getLast? hlast) hw
    · exact hpre

/-! ### The words that give places -/

section Heads

variable {good : Token → Prop} {stands : String → Position → Prop}

/-- The words that give the item and the nodes of a line their places stand there. -/
def Statement.Heads (stands : String → Position → Prop) : Statement → Prop
  | main keyword => stands Section.main.keyword keyword.pos
  | routine name | extension name | library name _ | constant name _ | string name _
  | numbers name _ _ | label name => stands name.text name.pos
  | instruction behind mnemonic _ =>
    (∀ l ∈ behind, stands l.text l.pos) ∧ stands mnemonic.text mnemonic.pos

/-- The lines of a section take their places from their names. -/
theorem gives_line (hname : ∀ t : Token, t.terminal = .name ∧ good t → stands t.text t.pos)
    (k : Section) : (line k).Gives good (Statement.Heads stands) := by
  have hword : (word .name).Gives good fun t => stands t.text t.pos :=
    fun ts t h hts => hname t (gives_word .name ts t h hts)
  have hinstruction : instruction.Gives good fun i => stands i.1.text i.1.pos :=
    Gives.seq (hword.map fun mnemonic hmnemonic _ _ => hmnemonic) (gives_true _)
  have hcode : code.Gives good (Statement.Heads stands) := by
    refine Gives.orElse ?_ (Gives.orElse ?_ ?_)
    · exact hword.seqLeft.map fun name h => h
    · exact hinstruction.map fun i h => ⟨by simp, h⟩
    · exact Gives.seq (hword.seqLeft.map fun l hl i h => ⟨by simpa using hl, h⟩) hinstruction
  cases k with
  | isae => exact hword.map fun name h => h
  | libs => exact Gives.seq (hword.map fun name h _ _ => h) (gives_true _)
  | const => exact Gives.seq (Gives.seqLeft (hword.map fun name h _ _ => h)) (gives_true _)
  | data =>
    refine Gives.orElse ?_ ?_
    · exact Gives.seq (Gives.seqLeft (hword.map fun name h _ _ => h)) (gives_true _)
    · exact Gives.seq (Gives.seq (Gives.seqLeft (hword.map fun name h _ _ _ _ => h))
        (gives_true _)) (gives_true _)
  | main | routine => exact hcode

/-- Every statement of a source takes its places from words of the right classes. -/
theorem heads_of_derives (hname : ∀ t : Token, t.terminal = .name ∧ good t → stands t.text t.pos)
    (hmain : ∀ t : Token, t.terminal = .keyword .main ∧ good t →
      stands Section.main.keyword t.pos) :
    source.Gives good fun parts => ∀ st ∈ parts.flatMap Part.statements, st.Heads stands := by
  have hlines : ∀ k, (lines k).Gives good fun ls => ∀ st ∈ ls, st.Heads stands :=
    fun k => Gives.seqRight (gives_star (gives_line hname k).seqLeft)
  have hopening : ∀ {k : Section} {opening : Token → Statement} {p : Phrase Token},
      p.Gives good (fun t => (opening t).Heads stands) →
      ((fun t ls => (⟨some (opening t), ls⟩ : Part)) <$> p <*> lines k).Gives good
        fun p => ∀ st ∈ p.statements, st.Heads stands := by
    intro k opening p hp
    refine Gives.seq (hp.map fun t ht ls hls => ?_) (hlines k)
    exact List.forall_mem_cons.mpr ⟨ht, hls⟩
  have hpart : ∀ k, (part k).Gives good fun p => ∀ st ∈ p.statements, st.Heads stands := by
    intro k
    cases k with
    | main => exact hopening fun ts t h hts => hmain t (gives_word _ ts t h hts)
    | routine => exact hopening (Gives.seqRight fun ts t h hts => hname t (gives_word _ ts t h hts))
    | isae | libs | const | data => exact (hlines _).seqRight.map fun ls hls => hls
  intro words parts h hgood st hst
  have hparts := Gives.seqRight (gives_star ((hpart .isae).orElse ((hpart .libs).orElse
    ((hpart .const).orElse ((hpart .data).orElse ((hpart .main).orElse (hpart .routine)))))))
      words parts h hgood
  obtain ⟨p, hp, hst⟩ := List.mem_flatMap.mp hst
  exact hparts p hp st hst

/-! ### Places in programs -/

/-- The name of the node stands at its place; a mnemonic may have other letter case there. -/
def Node.Placed (stands : String → Position → Prop) : Node → Prop
  | label name pos => stands name pos
  | instruction i => ∃ word, Text.lower word = i.mnemonic ∧ stands word i.pos

/-- **The name of the item stands at its place**, or the keyword of the main routine, and so do the
names of the nodes of a routine. -/
def Item.Placed (stands : String → Position → Prop) : Item → Prop
  | extension d => stands d.name d.pos
  | library d => stands d.name d.pos
  | constant d => stands d.name d.pos
  | data d => stands d.name d.pos
  | routine r => stands (r.name.getD Section.main.keyword) r.pos ∧
    ∀ node ∈ r.body, node.Placed stands

theorem nodes_placed {st : Statement} {ns : List Node} (hst : st.Heads stands)
    (h : st.nodes = .ok ns) : ∀ n ∈ ns, n.Placed stands := by
  cases st with
  | label name =>
    cases h
    exact List.forall_mem_singleton.mpr hst
  | instruction behind mnemonic arguments =>
    obtain ⟨operands, -, h⟩ := Steps.bind_eq_ok.mp h
    cases h
    refine List.forall_mem_append.mpr ⟨?_, List.forall_mem_singleton.mpr ⟨_, rfl, hst.2⟩⟩
    intro n hn
    obtain ⟨l, hl, rfl⟩ := List.mem_map.mp hn
    exact hst.1 l (Option.mem_toList.mp hl)
  | _ =>
    cases h
    simp

theorem item?_placed {st : Statement} {item : Item} (hst : st.Heads stands)
    (h : st.item? names = .ok (some item)) {ns : List Node} (hns : ∀ n ∈ ns, n.Placed stands) :
    (item.prepend ns).Placed stands := by
  cases st with
  | main | routine =>
    cases h
    exact ⟨hst, by simpa [Item.prepend] using hns⟩
  | extension | library | string =>
    cases h
    exact hst
  | constant | numbers =>
    obtain ⟨_, -, h⟩ := Steps.bind_eq_ok.mp h
    cases h
    exact hst
  | label | instruction => cases h

theorem itemsOf_placed {sts : List Statement} {items : List Item}
    (hsts : ∀ st ∈ sts, st.Heads stands) (h : itemsOf names sts = .ok items) :
    ∀ item ∈ items, item.Placed stands := by
  obtain ⟨tail, htail, heq⟩ := Steps.bind_eq_ok.mp h
  cases heq
  have hstep : ∀ st ∈ sts.reverse, ∀ tail tail' : Tail,
      ((∀ n ∈ tail.1, n.Placed stands) ∧ ∀ item ∈ tail.2, item.Placed stands) →
      addStatement names st tail = .ok tail' →
      (∀ n ∈ tail'.1, n.Placed stands) ∧ ∀ item ∈ tail'.2, item.Placed stands := by
    intro st hst tail tail'
    have hheads := hsts st (List.mem_reverse.mp hst)
    exact addStatement_forall (fun _ => nodes_placed hheads)
      (fun _ hitem _ => item?_placed hheads hitem)
  exact (addAll_induction hstep ⟨by simp, by simp⟩ htail).2

end Heads

/-- **Every word of a text stands at its place**; the end of the last line may be missing. -/
theorem SplitsInto.standsAt {text : String} {words : List Token} (h : SplitsInto text words) :
    ∀ t ∈ words, t.terminal ≠ .newline → StandsAt text.toList t.text t.pos := by
  intro t ht hk
  have hlanguage := h.mem_language t ht
  obtain ⟨c, w, hw, -, -⟩ := startOf_of_mem hlanguage
  refine (h.scanned.standsAt t ht).of_closeText ?_ (newline_notMem hk hlanguage)
  simp [hw]

/-- The text has a word with this text at the place. -/
def IsWordAt (text : String) (words : List Token) (w : String) (pos : Position) : Prop :=
  (∃ k, ⟨k, w, pos⟩ ∈ words) ∧ StandsAt text.toList w pos

/-- **Every part of a program carries the place of its name.** -/
theorem Denote.placed {text : String} {words : List Token} {parts : List Part} {items : List Item}
    (hwords : SplitsInto text words) (hparts : source.Derives words parts)
    (h : Denote names parts items) : ∀ item ∈ items, item.Placed (IsWordAt text words) := by
  have hword : ∀ t ∈ words, t.terminal ≠ .newline → IsWordAt text words t.text t.pos :=
    fun t ht hk => ⟨⟨t.terminal, ht⟩, hwords.standsAt t ht hk⟩
  refine itemsOf_placed ?_ h.itemsOf_eq
  refine @heads_of_derives (· ∈ words) (IsWordAt text words) ?_ ?_ words parts hparts fun t ht => ht
  · rintro t ⟨hk, ht⟩
    exact hword t ht (by simp [hk])
  · rintro t ⟨hk, ht⟩
    have hlanguage := hwords.mem_language t ht
    rw [hk] at hlanguage
    have htext : t.text = Section.main.keyword := String.toList_inj.mp (mem_fixed.mp hlanguage)
    rw [← htext]
    exact hword t ht (by simp [hk])

end Syntax

end AluVM
