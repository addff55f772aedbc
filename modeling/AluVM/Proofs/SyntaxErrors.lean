import AluVM.Proofs.Positions

/-! # The first place where no source can go on

A text that the grammar does not derive has one report, at the first place where it cannot be the
start of a source. The reader is there with a prefix of some source (`Follows`, since every state can
be completed). Nothing that a source could have next stands there (`DeadEnd`), so no split of the text
goes further (`Scanned.le_of_deadEnd`, since a split advances in one way only). What does stand there
is a word that no source has after these words, or no word at all (`Stuck`); the reader looks for
words of all classes only to name it (`stuck_obstructed`). The end of the text is never the obstacle:
a closed text ends with an end of a line, behind which every section may end (`Closed`). -/

namespace AluVM.Syntax

open Lexeme Grammar

/-! ### The end of a split -/

/-- **No source goes on here**: no word of a class that the grammar allows after the words stands at
the head of the rest, and nothing that is ignored. -/
def DeadEnd (words : List Token) (rest : List Char) : Prop :=
  ∀ v ∈ candidates words, ¬ v <+: rest

/-- How far a text is split: the words, the characters that are behind them, and the rest. -/
structure Extent where
  words : List Token
  before : List Char
  rest : List Char

/-- One step of a split: something is ignored, or a word is taken. -/
inductive Advance : Extent → Extent → Prop where
  | skip {words : List Token} {before gap rest : List Char}
      (longest : IsLongest (candidates words) gap (gap ++ rest)) (hgap : gap ∈ ignored) :
      Advance ⟨words, before, gap ++ rest⟩ ⟨words, before ++ gap, rest⟩
  | word {words : List Token} {before w rest : List Char} {k : Terminal}
      (longest : IsLongest (candidates words) w (w ++ rest)) (allowed : Allowed words k)
      (hw : w ∈ k.language) :
      Advance ⟨words, before, w ++ rest⟩
        ⟨words ++ [⟨k, String.ofList w, .behind before⟩], before ++ w, rest⟩

/-- Words after which the grammar allows a word have a state. -/
theorem Allowed.exists_follows {words : List Token} {k : Terminal} (h : Allowed words k) :
    ∃ s, Follows words s := by
  obtain ⟨t, ts, -, h⟩ := h
  generalize t :: ts = more at h
  induction words using List.reverseRecOn generalizing more with
  | nil => exact ⟨.start, follows_start⟩
  | append_singleton words u ih =>
    rw [List.append_assoc] at h
    obtain ⟨s, hs⟩ := ih _ h
    obtain ⟨sts, hsts⟩ := (hs.derivable _).mp h
    obtain ⟨next, -, hstep, -, -⟩ := (rest_cons hs.proper).mp hsts
    exact ⟨next, hs.step hstep⟩

/-- **A split advances in one way only.** -/
theorem advance_rightUnique : Relator.RightUnique Advance := by
  rintro ⟨words, before, text⟩ x y hx hy
  generalize hplace : (⟨words, before, text⟩ : Extent) = place at hy
  cases hx with
  | @skip _ _ gap rest longest hgap =>
    cases hy with
    | @skip _ _ gap' rest' longest' hgap' =>
      obtain ⟨rfl, rfl, htext⟩ := Extent.mk.inj hplace
      rw [htext] at longest
      obtain rfl := longest.unique longest'
      rw [List.append_cancel_left htext]
    | @word _ _ w rest' k _ _ hw =>
      obtain ⟨-, -, htext⟩ := Extent.mk.inj hplace
      exact absurd ⟨rest', htext.symm⟩ (not_prefix_of_ignored hgap hw ⟨rest, rfl⟩)
  | @word _ _ w rest k longest allowed hw =>
    cases hy with
    | @skip _ _ gap rest' _ hgap =>
      obtain ⟨-, -, htext⟩ := Extent.mk.inj hplace
      exact absurd ⟨rest, htext⟩ (not_prefix_of_ignored hgap hw ⟨rest', rfl⟩)
    | @word _ _ w' rest' k' longest' allowed' hw' =>
      obtain ⟨rfl, rfl, htext⟩ := Extent.mk.inj hplace
      rw [htext] at longest
      obtain rfl := longest.unique longest'
      obtain ⟨s, hs⟩ := allowed.exists_follows
      have hk : k = k' := scans_unique (hs.mem_scans allowed) (hs.mem_scans allowed') hw hw'
        longest.2.1 longest.2.1
      rw [List.append_cancel_left htext, hk]

theorem DeadEnd.not_advance {words : List Token} {before rest : List Char} (h : DeadEnd words rest)
    {x : Extent} : ¬ Advance ⟨words, before, rest⟩ x := by
  intro hx
  cases hx with
  | skip longest _ | word longest _ _ => exact h _ longest.1 longest.2.1

theorem Scanned.advances {text before rest : List Char} {words : List Token}
    (h : Scanned text words before rest) :
    Relation.ReflTransGen Advance ⟨[], [], text⟩ ⟨words, before, rest⟩ := by
  induction h with
  | start => exact .refl
  | skip _ longest hgap ih => exact ih.tail (.skip longest hgap)
  | word _ longest allowed hw ih => exact ih.tail (.word longest allowed hw)

theorem prefix_of_advances {x y : Extent} (h : Relation.ReflTransGen Advance x y) :
    x.words <+: y.words ∧ x.before <+: y.before := by
  induction h with
  | refl => exact ⟨List.prefix_rfl, List.prefix_rfl⟩
  | tail _ hstep ih =>
    cases hstep with
    | skip => exact ⟨ih.1, ih.2.trans (List.prefix_append _ _)⟩
    | word => exact ⟨ih.1.trans (List.prefix_append _ _), ih.2.trans (List.prefix_append _ _)⟩

/-- **No split of the text goes further than a dead end.** -/
theorem Scanned.le_of_deadEnd {text before rest before' rest' : List Char}
    {words words' : List Token} (h : Scanned text words before rest) (hdead : DeadEnd words rest)
    (h' : Scanned text words' before' rest') : words' <+: words ∧ before' <+: before := by
  rcases Relation.ReflTransGen.total_of_right_unique advance_rightUnique h'.advances h.advances
    with hle | hle
  · exact prefix_of_advances hle
  · rcases hle.cases_head with heq | ⟨x, hx, -⟩
    · obtain ⟨rfl, rfl, -⟩ := Extent.mk.inj heq
      exact ⟨List.prefix_rfl, List.prefix_rfl⟩
    · exact absurd hx hdead.not_advance

/-! ### The obstacle -/

/-- **The word that is taken at a place** in a state of the reader: the longest one of a class that
it looks for, or if none of these has a word here, of the first of all classes that has one. -/
inductive Takes (s : State) (rest : List Char) (k : Terminal) (w : List Char) : Prop where
  | sought (hk : k ∈ s.scans) (longest : IsLongest k.language w rest)
  | other {earlier later : List Terminal} (hall : Terminal.all = earlier ++ k :: later)
      (unsought : ∀ k' ∈ s.scans ++ earlier, ∀ v ∈ k'.language, ¬ v <+: rest)
      (longest : IsLongest k.language w rest)

/-- **What stands at a place where no source can go on** after some words: the word that is taken
there, which no source has after these words, or a character at which no word starts. -/
inductive Stuck (words : List Token) (pos : Position) (rest : List Char) : Obstacle → Prop where
  | word {s : State} {k : Terminal} {w : List Char} (dead : DeadEnd words rest)
      (reached : words.foldlM State.step .start = some s) (taken : Takes s rest k w)
      (h : ∀ more, ¬ Derivable (words ++ ⟨k, String.ofList w, pos⟩ :: more)) :
      Stuck words pos rest (.ofWord k w)
  | character {c : Char} {cs : List Char} (dead : DeadEnd words rest) (hrest : rest = c :: cs)
      (h : ∀ k : Terminal, ∀ w ∈ k.language, ¬ w <+: rest) : Stuck words pos rest (.character c)

theorem Stuck.deadEnd {words : List Token} {pos : Position} {rest : List Char} {obstacle : Obstacle}
    (h : Stuck words pos rest obstacle) : DeadEnd words rest := by
  cases h with
  | word dead | character dead => exact dead

section Reader

variable {text before rest : List Char} {words : List Token} {s : State} {pos : Position}

/-- The words that the reader has taken start some source. -/
theorem Follows.exists_derivable (hs : Follows words s) : ∃ more, Derivable (words ++ more) := by
  obtain ⟨ts, sts, hsts⟩ := productive_rest s
  exact ⟨ts, (hs.derivable ts).mpr ⟨sts, hsts⟩⟩

theorem Follows.not_derivable {t : Token} (hs : Follows words s) (hstep : s.step t = none) :
    ∀ more, ¬ Derivable (words ++ t :: more) := by
  intro more h
  obtain ⟨sts, hsts⟩ := (hs.derivable _).mp h
  obtain ⟨next, -, hnext, -, -⟩ := (rest_cons hs.proper).mp hsts
  rw [hstep] at hnext
  cases hnext

theorem Terminal.mem_all (k : Terminal) : k ∈ Terminal.all := by
  cases k with
  | keyword s => cases s <;> decide
  | _ => decide

/-- The longest word of a class is the one that is found. -/
theorem isLongest_of_match? {k : Terminal} {w after : List Char}
    (h : k.match? rest = some (w, after)) : IsLongest k.language w rest := by
  obtain ⟨hw, happ⟩ := (finds_match? k).mem h
  refine ⟨hw, ⟨after, happ⟩, fun v hv hpre => ?_⟩
  obtain ⟨w', after', h', hvw⟩ := (finds_match? k).longest hv hpre
  rw [h] at h'
  cases h'
  exact hvw.length_le

theorem not_prefix_of_match? {k : Terminal} (h : k.match? rest = none) :
    ∀ v ∈ k.language, ¬ v <+: rest := by
  intro v hv hpre
  obtain ⟨w, after, hmatch, -⟩ := (finds_match? k).longest hv hpre
  rw [h] at hmatch
  cases hmatch

theorem not_prefix_of_scanWord {classes : List Terminal} (h : scanWord classes rest = none) :
    ∀ k ∈ classes, ∀ v ∈ k.language, ¬ v <+: rest := by
  intro k hk
  have hnone := List.findSome?_eq_none_iff.mp h k hk
  exact not_prefix_of_match? (Option.map_eq_none_iff.mp hnone)

/-- Where none of the classes that are looked for has a word, no source goes on. -/
theorem Follows.deadEnd_of_unsought (hs : Follows words s) (hignored : ∀ v ∈ ignored, ¬ v <+: rest)
    (h : ∀ k ∈ s.scans, ∀ v ∈ k.language, ¬ v <+: rest) : DeadEnd words rest := by
  rintro v (hv | ⟨k, hk, hv⟩)
  · exact hignored v hv
  · exact h k (hs.mem_scans hk) v hv

/-- Where the only class that has a word is not allowed, no source goes on. -/
theorem Follows.deadEnd_of_refused {k : Terminal} {w : List Char} (hs : Follows words s)
    (hk : k ∈ s.scans) (hw : w ∈ k.language) (hpre : w <+: rest)
    (hstep : s.step ⟨k, String.ofList w, pos⟩ = none) : DeadEnd words rest := by
  rintro v (hv | ⟨k', hk', hv⟩) hvrest
  · exact not_prefix_of_ignored hv hw hvrest hpre
  · obtain rfl := scans_unique (hs.mem_scans hk') hk hv hw hvrest hpre
    obtain ⟨next, hnext⟩ := hs.exists_step (t := ⟨k', String.ofList w, pos⟩) hk'
    rw [hstep] at hnext
    cases hnext

theorem obstructed_pos (s : State) (pos : Position) (c : Char) (cs : List Char) :
    (obstructed s pos c cs).pos = pos := by
  unfold obstructed
  rcases scanWord Terminal.all (c :: cs) with _ | ⟨k, w, after⟩ <;> rfl

/-- Where none of the words that are looked for stands, the reader is stuck. -/
theorem stuck_obstructed {c : Char} {cs : List Char} (hs : Follows words s)
    (hreached : words.foldlM State.step .start = some s)
    (hignored : ∀ v ∈ ignored, ¬ v <+: c :: cs) (hscan : scanWord s.scans (c :: cs) = none) :
    Stuck words pos (c :: cs) (obstructed s pos c cs).obstacle := by
  have hunsought := not_prefix_of_scanWord hscan
  have hdead := hs.deadEnd_of_unsought hignored hunsought
  unfold obstructed
  rcases hall : scanWord Terminal.all (c :: cs) with _ | ⟨k, w, after⟩
  · exact .character hdead rfl fun k => not_prefix_of_scanWord hall k (Terminal.mem_all k)
  · obtain ⟨earlier, k', later, hsplit, hsome, hnone⟩ := List.findSome?_eq_some_iff.mp hall
    obtain ⟨m, hmatch, heq⟩ := Option.map_eq_some_iff.mp hsome
    cases heq
    have hlongest := isLongest_of_match? hmatch
    refine .word hdead hreached (.other hsplit ?_ hlongest) fun more hderivable => ?_
    · intro k' hk'
      rcases List.mem_append.mp hk' with hk' | hk'
      · exact hunsought k' hk'
      · exact not_prefix_of_match? (Option.map_eq_none_iff.mp (hnone k' hk'))
    · exact hdead w (.inr ⟨k, ⟨_, more, rfl, hderivable⟩, hlongest.1⟩) hlongest.2.1

/-- The text that is left ends with a line feed, or it has ended where a source may end. -/
def Closed (s : State) (rest : List Char) : Prop :=
  rest.getLast? = some '\n' ∨ (rest = [] ∧ .endOfText ∈ s.allows)

/-- Nothing that is skipped has a line feed. -/
theorem Closed.of_gap {gap left : List Char} (h : Closed s (gap ++ left)) (hgap : '\n' ∉ gap) :
    Closed s left := by
  rcases h with hlast | ⟨hnil, hend⟩
  · rcases left with _ | ⟨d, left⟩
    · rw [List.append_nil] at hlast
      exact absurd (List.mem_of_getLast? hlast) hgap
    · rw [List.getLast?_append_of_ne_nil gap (List.cons_ne_nil d left)] at hlast
      exact .inl hlast
  · exact .inr ⟨(List.append_eq_nil_iff.mp hnil).2, hend⟩

/-- What is left behind a word is closed again: the last word is the end of a line. -/
theorem Closed.step {k : Terminal} {w after : List Char} {next : State}
    (h : Closed s (w ++ after)) (hw : w ∈ k.language)
    (hstep : s.step ⟨k, String.ofList w, pos⟩ = some next) : Closed next after := by
  obtain ⟨c, v, hcv, -, -⟩ := startOf_of_mem hw
  have hlast : (w ++ after).getLast? = some '\n' := by
    rcases h with h | ⟨h, -⟩
    · exact h
    · rw [hcv] at h
      cases h
  rcases after with _ | ⟨d, after⟩
  · rw [List.append_nil] at hlast
    have hk : k = .newline := by
      by_contra hk
      exact newline_notMem hk hw (List.mem_of_getLast? hlast)
    subst hk
    unfold State.step at hstep
    split_ifs at hstep
    cases hstep
    refine .inr ⟨rfl, ?_⟩
    simp only [State.allows]
    split_ifs <;> simp
  · rw [List.getLast?_append_of_ne_nil w (List.cons_ne_nil d after)] at hlast
    exact .inl hlast

/-- **The reader stops at the first place where no source can go on.** The induction is on the fuel:
every word that is taken keeps the words a start of some source. -/
theorem stuck_of_error {fuel : Nat} {done : List Statement} {e : SyntaxFault}
    (hs : Follows words s) (hreached : words.foldlM State.step .start = some s)
    (hscanned : Scanned text words before rest) (hpos : pos = .behind before)
    (hclosed : Closed s rest) (hfuel : rest.length < fuel)
    (h : readFrom fuel s pos done rest = .error e) :
    ∃ words before rest, Scanned text words before rest ∧ (∃ more, Derivable (words ++ more)) ∧
      e.pos = .behind before ∧ Stuck words (.behind before) rest e.obstacle := by
  induction fuel generalizing s pos done words before rest with
  | zero => exact absurd hfuel (Nat.not_lt_zero _)
  | succ fuel ih =>
    rcases hskip : skip pos.col rest with ⟨col, left⟩
    have hignored := (skip_spec words hskip).1
    obtain ⟨gap, hgap, rfl, rfl, hleft⟩ := scanned_of_skip hscanned hskip
    have hplace : (⟨pos.line, pos.col + gap.length⟩ : Position) = .behind (before ++ gap) := by
      rw [hpos, Position.behind_append hgap]
    have hturn := turn_of_skip hskip fuel s done
    rw [hplace] at hturn
    generalize readFrom (fuel + 1) s pos done (gap ++ left) = outcome at h hturn
    have hclosed := hclosed.of_gap hgap
    cases hturn with
    | ends => cases h
    | early hend =>
      rcases hclosed with hlast | ⟨-, hallows⟩
      · cases hlast
      · exact absurd hallows hend
    | obstructed hscan =>
      cases h
      exact ⟨words, _, _, hleft, hs.exists_derivable, obstructed_pos ..,
        stuck_obstructed hs hreached hignored hscan⟩
    | @refused k w after hw hscan hstep =>
      cases h
      obtain ⟨hk, -, -, hlongest⟩ := scanWord_sound hscan
      have hpre := List.prefix_append w after
      exact ⟨words, _, _, hleft, hs.exists_derivable, rfl,
        .word (hs.deadEnd_of_refused hk hw hpre hstep) hreached
          (.sought hk ⟨hw, hpre, hlongest k hk⟩) (hs.not_derivable hstep)⟩
    | @word k w after next hw hscan hstep =>
      have hallowed := hs.allowed_of_step hstep
      have hlength : after.length < fuel := by
        have hless := length_lt_of_word hw after
        rw [List.length_append] at hfuel
        omega
      have hnext : List.foldlM State.step .start
          (words ++ [⟨k, String.ofList w, .behind (before ++ gap)⟩]) = some next := by
        simp [List.foldlM_append, hreached, hstep]
      exact ih (hs.step hstep) hnext (hleft.word (hs.isLongest hscan hallowed) hallowed hw)
        (behind_word hw _).symm (hclosed.step hw hstep) hlength h

end Reader

theorem getLast?_closeText (text : List Char) : (closeText text).getLast? = some '\n' := by
  unfold closeText
  split_ifs with h
  · exact h
  · exact List.getLast?_concat

/-- **A text that the grammar does not derive has one report, at the first impossible place.** It is an
error of the parser. Its line and column are those behind some characters of the closed text that are
split into words which some source starts with, and no split of the text goes further. Nothing that a
source could have next stands there, but the word that the reader takes there, which no source has
after these words, or a character at which no word starts; the report names it. -/
theorem syntax_error_at_first_impossible_place (names : CharacterNames) (text : String)
    (file : Option String) (h : ¬ ∃ words, SplitsInto text words ∧ Derivable words) :
    ∃ e d, parse names text file = .error e ∧ e.diagnostics file = [d] ∧ d.severity = .error ∧
      d.stage = .parse ∧ d.file = file ∧ ∃ words before rest obstacle,
        before ++ rest = closeText text.toList ∧
        Scanned (closeText text.toList) words before rest ∧
        (∀ words' before' rest', Scanned (closeText text.toList) words' before' rest' →
          words' <+: words ∧ before' <+: before) ∧
        (d.line = some ((Position.behind before).line : Int) ∧
          d.col = some ((Position.behind before).col : Int)) ∧
        (∃ more, Derivable (words ++ more)) ∧
        Stuck words (.behind before) rest obstacle ∧ d.message = obstacle.message := by
  rcases hread : readStatements text with e | sts
  · have hparse : parse names text file = .error (.fault e) := by
      rw [parse, hread]
    have hclosed : Closed .start (closeText text.toList) := .inl (getLast?_closeText _)
    obtain ⟨words, before, rest, hscanned, hmore, hpos, hstuck⟩ :=
      stuck_of_error follows_start rfl .start rfl hclosed (Nat.lt_succ_self _) hread
    refine ⟨_, e.diagnostic file, hparse, rfl, rfl, rfl, rfl, words, before, rest, e.obstacle,
      hscanned.append_eq, hscanned, fun _ _ _ => hscanned.le_of_deadEnd hstuck.deadEnd, ?_, hmore,
      hstuck, rfl⟩
    rw [← hpos]
    exact ⟨rfl, rfl⟩
  · obtain ⟨words, parts, hwords, hparts, -⟩ := readStatements_eq_ok.mp hread
    exact absurd ⟨words, hwords, parts, hparts⟩ h

/-- A text with a line that ends behind a comma, after a comment. -/
def cutSource : String := ".MAIN ; start\n put 1, // two"

theorem cutSource_not_derivable : ¬ ∃ words, SplitsInto cutSource words ∧ Derivable words := by
  rintro ⟨words, hwords, parts, hparts⟩
  have hok := readStatements_eq_ok.mpr ⟨words, parts, hwords, hparts, rfl⟩
  have herror : (readStatements cutSource).isOk = false := by decide +kernel
  rw [hok] at herror
  cases herror

theorem syntax_error_at_first_impossible_place_cut :
    (¬ ∃ words, SplitsInto cutSource words ∧ Derivable words) ∧ ∃ words before rest obstacle,
      Scanned (closeText cutSource.toList) words before rest ∧ .behind before = (⟨2, 15⟩ : Position) ∧
      (∃ more, Derivable (words ++ more)) ∧ Stuck words ⟨2, 15⟩ rest obstacle ∧
      obstacle.message = "Token inesperado fin de línea" := by
  refine ⟨cutSource_not_derivable, ?_⟩
  obtain ⟨e, d, hparse, hd, -, -, -, words, before, rest, obstacle, -, hscanned, -, ⟨hline, hcol⟩,
    hmore, hstuck, hmessage⟩ :=
      syntax_error_at_first_impossible_place nameless cutSource none cutSource_not_derivable
  have hcut : parse nameless cutSource none =
      .error (.fault ⟨.newline, ⟨2, 15⟩, [.name, .number]⟩) := by decide +kernel
  rw [hcut] at hparse
  cases hparse
  cases hd
  have hplace : Position.behind before = ⟨2, 15⟩ := by
    have hline' : (2 : Int) = (Position.behind before).line := Option.some.inj hline
    have hcol' : (15 : Int) = (Position.behind before).col := Option.some.inj hcol
    have hboth : (Position.behind before).line = 2 ∧ (Position.behind before).col = 15 := by omega
    rw [← hboth.1, ← hboth.2]
  rw [hplace] at hstuck
  exact ⟨words, before, rest, obstacle, hscanned, hplace, hmore, hstuck, hmessage.symm⟩

end AluVM.Syntax
