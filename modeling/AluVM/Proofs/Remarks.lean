import AluVM.Proofs.Positions

/-! # Remarks at the ends of lines

A comment that is put at the end of a line changes nothing that the reader finds. Two runs are
compared, over a text and over the same text with the comment in it: they take the same words up to
the end of the line (`readFrom_word_remark`, by `word_within` and `longest_remark`), then both take
the end of the line, from whatever columns (`Ending.readFrom_eq`), and from there on they are the same
run. The carriage return of an end of line may belong to a comment, and the comment may be put into
an older one. -/

namespace AluVM.Syntax

open Lexeme Grammar
open scoped Computability

variable {names : CharacterNames}

/-! ### Ends of lines -/

/-- **A line ends between two parts of a text** with the given words: what follows is its line feed or
the end of the text, unless a carriage return in front of it is the start of the end of the line, or
it is such a carriage return. One that belongs to a comment may be on either side. -/
def EndsLine (words : List Token) (front rest : List Char) : Prop :=
  ((rest = [] ∨ ∃ more, rest = '\n' :: more) ∧
      ∀ shorter, front = shorter ++ ['\r'] → ⟨.newline, "\r\n", .behind shorter⟩ ∉ words) ∨
    rest = ['\r'] ∨ ∃ more, rest = '\r' :: '\n' :: more

/-- What follows a line in a closed text, what follows it with a comment at its end, and what is left
of that behind the comment. Only a line at the end of the text needs an end then. -/
inductive Ending : (rest remarked left : List Char) → Prop where
  | feed (more : List Char) : Ending ('\n' :: more) ('\n' :: more) ('\n' :: more)
  | returnFeed (more : List Char) :
      Ending ('\r' :: '\n' :: more) ('\r' :: '\n' :: more) ('\n' :: more)
  | close : Ending [] ['\n'] ['\n']

section Words

variable {k : Terminal} {w v r x c : List Char}

theorem getLast?_ne_return (hw : w ∈ k.language) : w.getLast? ≠ some '\r' := by
  intro hlast
  have hmem := List.mem_of_getLast? hlast
  by_cases hnewline : k = .newline
  · subst hnewline
    rcases mem_newline.mp hw with rfl | rfl <;> cases hlast
  · by_cases hstring : k = .string
    · subst hstring
      obtain ⟨body, rfl, -, -⟩ := mem_string hw
      rw [← List.cons_append, List.getLast?_concat] at hlast
      cases hlast
    · exact absurd (isPlain_of_mem hnewline hstring hw _ hmem) (by decide)

/-- A word that starts in front of a line feed and has it is the end of a line. -/
theorem eq_newline_of_append {q : List Char} (hr : r ≠ []) (hw : r ++ q ∈ k.language)
    (hq : '\n' ∈ q) : r = ['\r'] ∧ q = ['\n'] := by
  by_cases hk : k = .newline
  · subst hk
    obtain ⟨d, r, rfl⟩ := List.exists_cons_of_ne_nil hr
    rcases mem_newline.mp hw with heq | heq
    · obtain ⟨-, hnil⟩ := List.cons.inj heq
      rw [(List.append_eq_nil_iff.mp hnil).2] at hq
      cases hq
    · obtain ⟨rfl, htail⟩ := List.cons.inj heq
      rcases List.append_eq_singleton_iff.mp htail with ⟨rfl, rfl⟩ | ⟨-, rfl⟩
      · exact ⟨rfl, rfl⟩
      · cases hq
  · exact absurd (List.mem_append_right r hq) (newline_notMem hk hw)

/-- **A word that starts in a line lies in it**, if it is not the end of the line. -/
theorem word_within {remarked left : List Char} (hx : Ending x remarked left) (hr : r ≠ [])
    (hcut : x.head? = some '\n' → r = ['\r'] → w ≠ ['\r', '\n']) (hw : w ∈ k.language)
    (h : w <+: r ++ x) : w <+: r := by
  rcases List.prefix_or_prefix_of_prefix h (List.prefix_append r x) with hwr | ⟨q, rfl⟩
  · exact hwr
  rw [List.prefix_append_right_inj] at h
  rcases q with _ | ⟨d, q⟩
  · rw [List.append_nil]
  exfalso
  cases hx with
  | feed more =>
    obtain ⟨rfl, -⟩ := List.cons_prefix_cons.mp h
    obtain ⟨rfl, hq⟩ := eq_newline_of_append hr hw List.mem_cons_self
    exact hcut rfl rfl (by rw [hq]; rfl)
  | returnFeed more =>
    obtain ⟨rfl, hq⟩ := List.cons_prefix_cons.mp h
    rcases q with _ | ⟨d, q⟩
    · exact getLast?_ne_return hw List.getLast?_concat
    · obtain ⟨rfl, -⟩ := List.cons_prefix_cons.mp hq
      have hfeed := (eq_newline_of_append hr hw (by simp)).2
      cases hfeed
  | close => cases List.prefix_nil.mp h

/-- A string ends at its first quote that nothing escapes. -/
theorem matchString_append (hw : w ∈ Terminal.string.language) (rest : List Char) :
    matchString (w ++ rest) = some (w, rest) := by
  obtain ⟨body, rfl, hbody, -⟩ := mem_string hw
  exact stringRest_eq_some.mpr ⟨body, hbody, by simp, by simp⟩

theorem string_unique {cs : List Char} (hw : w ∈ Terminal.string.language)
    (hv : v ∈ Terminal.string.language) (hwcs : w <+: cs) (hvcs : v <+: cs) : w = v := by
  obtain ⟨rest, rfl⟩ := hwcs
  obtain ⟨rest', heq⟩ := hvcs
  have hmatch := matchString_append hw rest
  rw [← heq, matchString_append hv rest'] at hmatch
  cases hmatch
  rfl

theorem comment_cons (hc : c ∈ comment) : ∃ d body, c = d :: body ∧ d ∈ [';', '/', '#'] := by
  obtain ⟨mark, hmark, body, -, rfl⟩ := mem_comment.mp hc
  simp only [List.mem_cons, List.not_mem_nil, or_false] at hmark
  rcases hmark with rfl | rfl | rfl
  · exact ⟨';', body, rfl, by decide⟩
  · exact ⟨'/', '/' :: body, rfl, by decide⟩
  · exact ⟨'#', body, rfl, by decide⟩

/-- Of all words, only strings have the characters that comments start with. -/
theorem eq_string_of_mark {d : Char} (hd : d ∈ [';', '/', '#']) (hw : w ∈ k.language)
    (hmem : d ∈ w) : k = .string := by
  by_contra hstring
  obtain ⟨hfeed, hreturn, hplain⟩ : d ∉ ['\n'] ∧ d ∉ ['\r', '\n'] ∧ isPlain d = false := by
    simp only [List.mem_cons, List.not_mem_nil, or_false] at hd
    rcases hd with rfl | rfl | rfl <;> decide
  by_cases hnewline : k = .newline
  · subst hnewline
    rcases mem_newline.mp hw with rfl | rfl
    · exact hfeed hmem
    · exact hreturn hmem
  · rw [isPlain_of_mem hnewline hstring hw d hmem] at hplain
    cases hplain

/-- **A comment behind a line makes none of its words longer.** -/
theorem longest_remark (hc : c ∈ comment) (hw : w ∈ k.language)
    (hlongest : ∀ v ∈ k.language, v <+: w ++ r → v.length ≤ w.length) (y : List Char) :
    ∀ v ∈ k.language, v <+: w ++ (r ++ (c ++ y)) → v.length ≤ w.length := by
  intro v hv hpre
  rw [← List.append_assoc] at hpre
  rcases List.prefix_or_prefix_of_prefix hpre (List.prefix_append (w ++ r) (c ++ y)) with
    hvr | ⟨q, rfl⟩
  · exact hlongest v hv hvr
  rw [List.prefix_append_right_inj] at hpre
  rcases q with _ | ⟨d, q⟩
  · rw [List.append_nil] at hv ⊢
    exact hlongest _ hv List.prefix_rfl
  -- The longer word has the first character of the comment, so both are strings.
  obtain ⟨d, body, rfl, hd⟩ := comment_cons hc
  obtain ⟨rfl, -⟩ := List.cons_prefix_cons.mp hpre
  obtain rfl := eq_string_of_mark hd hv (by simp)
  rw [List.append_assoc] at hv ⊢
  rw [string_unique hv hw List.prefix_rfl (List.prefix_append w _)]

end Words

/-! ### What is skipped -/

/-- What skipping does with the characters of a line does not depend on what follows them: it goes
over all of them, or it stops at one. Only a slash may be half of the mark of a comment. -/
inductive Skips (inComment : Bool) (r : List Char) : Prop where
  | all (still : Bool)
      (h : ∀ col x, skipFrom inComment col (r ++ x) = skipFrom still (col + r.length) x)
  | upTo (gap : List Char) (d : Char) (r' : List Char) (hr : r = gap ++ d :: r')
      (h : ∀ col x, (d = '/' → x.head? ≠ some '/') →
        skipFrom inComment col (r ++ x) = (col + gap.length, d :: r' ++ x))

/-- One character that is skipped. -/
theorem Skips.cons {inComment next : Bool} {c : Char} {r : List Char} (hr : Skips next r)
    (h : ∀ col x, skipFrom inComment col (c :: (r ++ x)) = skipFrom next (col + 1) (r ++ x)) :
    Skips inComment (c :: r) := by
  cases hr with
  | all still hall =>
    refine .all still fun col x => ?_
    rw [List.cons_append, h, hall, List.length_cons, Nat.add_right_comm, Nat.add_assoc]
  | upTo gap d r' hr hstop =>
    refine .upTo (c :: gap) d r' (by rw [hr, List.cons_append]) fun col x hx => ?_
    rw [List.cons_append, h, hstop _ _ hx, List.length_cons, Nat.add_right_comm, Nat.add_assoc]

theorem skips (inComment : Bool) (r : List Char) : Skips inComment r := by
  induction r generalizing inComment with
  | nil => exact .all inComment fun _ _ => rfl
  | cons c r ih =>
    have hstop : (∀ col x, (c = '/' → x.head? ≠ some '/') →
        skipFrom inComment col (c :: (r ++ x)) = (col, c :: (r ++ x))) →
        Skips inComment (c :: r) := fun h => .upTo [] c r rfl h
    cases inComment with
    | true =>
      by_cases hc : c = '\n'
      · refine hstop fun col x _ => ?_
        rw [skipFrom, if_pos rfl, if_pos hc]
      · refine (ih true).cons fun col x => ?_
        rw [skipFrom, if_pos rfl, if_neg hc]
    | false =>
      by_cases hblank : (c = ' ' || c = '\t') = true
      · refine (ih false).cons fun col x => ?_
        rw [skipFrom, if_neg (by decide), if_pos hblank]
      by_cases hmark : c = ';' ∨ c = '#' ∨ (c = '/' ∧ r.head? = some '/')
      · refine (ih true).cons fun col x => ?_
        have hcond : (c = ';' || c = '#' || (c = '/' && (r ++ x).head? = some '/')) = true := by
          rcases hmark with rfl | rfl | ⟨rfl, hslash⟩
          · rfl
          · rfl
          · rw [List.head?_append, hslash]
            rfl
        rw [skipFrom, if_neg (by decide), if_neg hblank, if_pos hcond]
      · refine hstop fun col x hx => ?_
        have hcond : ¬ (c = ';' || c = '#' || (c = '/' && (r ++ x).head? = some '/')) = true := by
          simp only [Bool.or_eq_true, Bool.and_eq_true, decide_eq_true_eq]
          rintro ((hc | hc) | ⟨hc, hslash⟩)
          · exact hmark (.inl hc)
          · exact hmark (.inr (.inl hc))
          · rcases r with _ | ⟨e, r⟩
            · exact hx hc hslash
            · exact hmark (.inr (.inr ⟨hc, hslash⟩))
        rw [skipFrom, if_neg (by decide), if_neg hblank, if_neg hcond]

section Ending

variable {x y z c : List Char}

theorem Ending.head?_ne_slash (h : Ending x y z) : x.head? ≠ some '/' := by
  cases h <;> simp

/-- What follows a line is left as it is, or without the carriage return that a comment has taken. -/
theorem Ending.skipFrom_eq (h : Ending x y z) (inComment : Bool) (col : Nat) :
    ∃ col' x' y', skipFrom inComment col x = skip col' x' ∧ Ending x' y' z ∧
      x'.length ≤ x.length := by
  cases h with
  | feed more =>
    refine ⟨col, _, _, ?_, .feed more, Nat.le_refl _⟩
    cases inComment <;> rfl
  | returnFeed more =>
    cases inComment with
    | false => exact ⟨col, _, _, rfl, .returnFeed more, Nat.le_refl _⟩
    | true => exact ⟨col + 1, _, _, rfl, .feed more, Nat.le_succ _⟩
  | close =>
    refine ⟨col, _, _, ?_, .close, Nat.le_refl _⟩
    cases inComment <;> rfl

/-- A comment behind a line is skipped up to the line feed. -/
theorem Ending.skipFrom_remark (h : Ending x y z) (hc : c ∈ comment) (inComment : Bool)
    (col : Nat) : ∃ col', skipFrom inComment col (c ++ y) = skip col' z := by
  obtain ⟨gap, more, hgap, rfl, rfl⟩ : ∃ gap more, '\n' ∉ gap ∧ z = '\n' :: more ∧ y = gap ++ z := by
    cases h with
    | feed more => exact ⟨[], more, by simp, rfl, rfl⟩
    | returnFeed more => exact ⟨['\r'], more, by decide, rfl, rfl⟩
    | close => exact ⟨[], [], by simp, rfl, rfl⟩
  have hremark : c ++ gap ∈ comment := by
    obtain ⟨mark, hmark, body, hbody, rfl⟩ := mem_comment.mp hc
    refine mem_comment.mpr ⟨mark, hmark, body ++ gap, ?_, List.append_assoc ..⟩
    refine List.forall_mem_append.mpr ⟨hbody, ?_⟩
    rintro d hd rfl
    exact hgap hd
  have hfeed : ∀ v ∈ comment, '\n' ∉ v := fun v hv => newline_notMem_of_ignored (.inr hv)
  refine ⟨col + (c ++ gap).length, ?_⟩
  rw [← List.append_assoc]
  cases inComment with
  | true =>
    refine skipFrom_comment ?_ (.inr ⟨more, rfl⟩) col
    rintro d hd rfl
    exact hfeed _ hremark hd
  | false =>
    refine skip_comment hremark (fun v hv hpre => ?_) col
    rcases List.prefix_or_prefix_of_prefix hpre (List.prefix_append (c ++ gap) _) with h | ⟨q, rfl⟩
    · exact h.length_le
    · rw [List.prefix_append_right_inj] at hpre
      rcases q with _ | ⟨d, q⟩
      · rw [List.append_nil]
      · obtain ⟨rfl, -⟩ := List.cons_prefix_cons.mp hpre
        exact absurd (List.mem_append_right _ List.mem_cons_self) (hfeed _ hv)

end Ending

/-! ### Two runs -/

section Runs

variable {fuel fuel' col col' line : Nat} {s : State} {done result : List Statement}
  {words : List Token} {x y z c : List Char}

/-- Fuel that is enough gives what other fuel gives. -/
theorem readFrom_of_fuel {pos : Position} {text : List Char} (hs : Follows words s)
    (hfuel : text.length < fuel) (hfuel' : text.length < fuel')
    (h : readFrom fuel s pos done text = .ok result) :
    readFrom fuel' s pos done text = .ok result := by
  obtain ⟨ts, sts, hts, hsts, rfl⟩ := exists_splits hs hfuel h
  exact readFrom_of_splits hts hfuel' hs hsts

theorem start_eq_feed {k : Terminal} (h : k.start = .feed) : k = .newline := by
  cases k <;> first | rfl | cases h

/-- The end of a line is the same step whatever stands for it. -/
theorem step_newline {next : State} {t t' : Token} (ht : t.terminal = .newline)
    (ht' : t'.terminal = .newline) (h : s.step t = some next) : s.step t' = some next := by
  unfold State.step at h ⊢
  rw [ht] at h
  rw [ht']
  exact h

/-- **From the end of a line on, two runs are the same**, whatever the line ends with and wherever it
ends. -/
theorem readFrom_break {n more : List Char} (hn : n ∈ Terminal.newline.language)
    (hs : Follows words s) (hfuel : (n ++ more).length < fuel) (hfuel' : more.length + 1 < fuel')
    (h : readFrom fuel s ⟨line, col⟩ done (n ++ more) = .ok result) :
    readFrom fuel' s ⟨line, col'⟩ done ('\n' :: more) = .ok result := by
  obtain ⟨fuel, rfl⟩ := Nat.exists_eq_add_one_of_ne_zero (Nat.ne_zero_of_lt hfuel)
  obtain ⟨fuel', rfl⟩ := Nat.exists_eq_add_one_of_ne_zero (Nat.ne_zero_of_lt hfuel')
  have hskip : skip (⟨line, col⟩ : Position).col (n ++ more) = (col, n ++ more) :=
    skip_word hn col more
  have hturn := turn_of_skip hskip fuel s done
  generalize readFrom (fuel + 1) s ⟨line, col⟩ done (n ++ more) = outcome at h hturn
  generalize htext : n ++ more = text at hturn
  obtain ⟨d, n', hdn, hd, -⟩ := startOf_of_mem hn
  cases hturn with
  | ends =>
    rw [hdn] at htext
    cases htext
  | early | obstructed | refused => cases h
  | @word k w after next hw hscan hstep =>
    -- The word that is taken is the end of the line.
    obtain ⟨c, w', rfl, hc, -⟩ := startOf_of_mem hw
    have hcd : d = c := by
      rw [hdn] at htext
      exact (List.cons.inj htext).1
    obtain rfl : k = .newline := start_eq_feed (hc.symm.trans (hcd ▸ hd))
    have hafter : more = after := by
      rcases mem_newline.mp hn with rfl | rfl <;> rcases mem_newline.mp hw with heq | heq <;>
        rw [heq] at htext <;> cases htext <;> rfl
    subst hafter
    have hscan' : scanWord s.scans (['\n'] ++ more) = some (.newline, ['\n'], more) :=
      scanWord_of_longest (mem_scans_of_step hstep) (mem_newline.mpr (.inl rfl))
        (longest_feed more)
    have hstep' : s.step ⟨.newline, String.ofList ['\n'], ⟨line, col'⟩⟩ = some next :=
      step_newline rfl rfl hstep
    have hlength : more.length < fuel :=
      (length_lt_of_word hn more).trans_le (Nat.le_of_lt_succ hfuel)
    calc readFrom (fuel' + 1) s ⟨line, col'⟩ done (['\n'] ++ more)
        = readFrom fuel' next ⟨line + 1, 1⟩ (s.statement?.toList ++ done) more :=
          readFrom_word (mem_newline.mpr (.inl rfl)) hscan' hstep'
      _ = .ok result := readFrom_of_fuel (hs.step hstep) hlength (by omega) h

theorem line_of_endOfText (h : .endOfText ∈ s.allows) : s.line = .first ∨ s.line = .blank := by
  obtain ⟨part, line⟩ := s
  cases line <;> simp [State.allows, Line.scans] at h ⊢

theorem readFrom_nil (hfuel : 0 < fuel) (pos : Position) :
    readFrom fuel s pos done [] = .ok result ↔ .endOfText ∈ s.allows ∧ result = done.reverse := by
  obtain ⟨fuel, rfl⟩ := Nat.exists_eq_add_one_of_ne_zero (Nat.ne_zero_of_lt hfuel)
  by_cases hend : .endOfText ∈ s.allows
  · simp [readFrom, skip, skipFrom, hend, eq_comm]
  · simp [readFrom, skip, skipFrom, hend]

/-- A text may have one more line without words at its end. -/
theorem readFrom_close {pos pos' : Position} (hfuel : 0 < fuel) (hfuel' : 1 < fuel')
    (h : readFrom fuel s pos done [] = .ok result) :
    readFrom fuel' s pos' done ['\n'] = .ok result := by
  obtain ⟨hend, rfl⟩ := (readFrom_nil hfuel pos).mp h
  have hline := line_of_endOfText hend
  obtain ⟨part, line⟩ := s
  have hstep : (⟨part, line⟩ : State).step ⟨.newline, "\n", pos'⟩ = some ⟨part, .blank⟩ := by
    have hallows : .newline ∈ (⟨part, line⟩ : State).allows := by
      rcases hline with rfl | rfl
      · simp [State.allows]
      · simp only [State.allows]
        split_ifs <;> simp
    rw [State.step, if_pos hallows]
  have hnone : (⟨part, line⟩ : State).statement? = none := by
    rcases hline with rfl | rfl <;> rfl
  have hend' : .endOfText ∈ (⟨part, .blank⟩ : State).allows := by
    simp only [State.allows]
    split_ifs <;> simp
  have hgoes : Goes _ pos' ['\n'] ⟨part, .blank⟩ _ _ [] := goes_newline hstep
  obtain ⟨fuel'', hfuel'', heq⟩ := hgoes fuel' done hfuel'
  rw [hnone] at heq
  exact heq.trans ((readFrom_nil hfuel'' _).mpr ⟨hend', rfl⟩)

/-- Where a line ends, a run goes on in the same way if only the line feed is left of its end. -/
theorem Ending.readFrom_eq (hx : Ending x y z) (hs : Follows words s) (hfuel : x.length < fuel)
    (hfuel' : z.length < fuel') (h : readFrom fuel s ⟨line, col⟩ done x = .ok result) :
    readFrom fuel' s ⟨line, col'⟩ done z = .ok result := by
  cases hx with
  | feed more => exact readFrom_break (n := ['\n']) (mem_newline.mpr (.inl rfl)) hs hfuel hfuel' h
  | returnFeed more =>
    exact readFrom_break (n := ['\r', '\n']) (mem_newline.mpr (.inr rfl)) hs hfuel hfuel' h
  | close => exact readFrom_close hfuel hfuel' h

theorem Ending.length_le (hx : Ending x y z) : z.length ≤ y.length := by
  cases hx <;> simp

/-- **Both runs take the same word of a line**: the first one, if skipping stops in front of it. -/
theorem readFrom_word_remark (hx : Ending x y z) (hc : c ∈ comment) {pos : Position}
    {text before gap r : List Char} {d : Char} (hs : Follows words s)
    (hscanned : Scanned text words before (d :: r ++ x))
    (hpos : (⟨pos.line, pos.col + gap.length⟩ : Position) = .behind before)
    (hcut : x.head? = some '\n' → d :: r = ['\r'] → ∀ words more, ¬ Scanned text
      (words ++ [⟨.newline, "\r\n", .behind before⟩]) (before ++ ['\r', '\n']) more)
    (hstop : ∀ rest, (d = '/' → rest.head? ≠ some '/') →
      skip pos.col (gap ++ d :: r ++ rest) = (pos.col + gap.length, d :: r ++ rest))
    (h : readFrom (fuel + 1) s pos done (gap ++ d :: r ++ x) = .ok result) :
    ∃ k w r' next done', d :: r = w ++ r' ∧ r'.length ≤ r.length ∧
      s.step ⟨k, String.ofList w, .behind before⟩ = some next ∧
      Scanned text (words ++ [⟨k, String.ofList w, .behind before⟩]) (before ++ w) (r' ++ x) ∧
      readFrom fuel next (.behind (before ++ w)) done' (r' ++ x) = .ok result ∧
      ∀ fuel', readFrom (fuel' + 1) s pos done (gap ++ d :: r ++ (c ++ y)) =
        readFrom fuel' next (.behind (before ++ w)) done' (r' ++ (c ++ y)) := by
  have hturn := turn_of_skip (hstop x fun _ => hx.head?_ne_slash) fuel s done
  rw [hpos] at hturn
  generalize readFrom (fuel + 1) s pos done (gap ++ d :: r ++ x) = outcome at h hturn
  generalize htext : d :: r ++ x = rest at hscanned hturn
  cases hturn with
  | ends => cases htext
  | early | obstructed | refused => cases h
  | @word k w after next hw hscan hstep =>
    have hallowed := hs.allowed_of_step hstep
    have hnext := hscanned.word (hs.isLongest hscan hallowed) hallowed hw
    obtain ⟨r', hr'⟩ : w <+: d :: r := by
      refine word_within hx (List.cons_ne_nil d r) ?_ hw ⟨after, htext.symm⟩
      rintro hfeed hreturn rfl
      obtain ⟨e, v, hev, he, -⟩ := startOf_of_mem hw
      cases hev
      obtain rfl := start_eq_feed he.symm
      exact hcut hfeed hreturn words after hnext
    rw [← hr', List.append_assoc] at htext
    obtain rfl := List.append_cancel_left htext
    have hd : d ≠ '/' := by
      obtain ⟨e, v, rfl, he, hne⟩ := startOf_of_mem hw
      rintro rfl
      rw [(List.cons.inj hr').1] at he
      exact hne he.symm
    have hskip : skip pos.col (gap ++ d :: r ++ (c ++ y)) =
        skip (pos.col + gap.length) (w ++ (r' ++ (c ++ y))) := by
      rw [skip_word hw, ← List.append_assoc w, hr']
      exact hstop (c ++ y) fun heq => absurd heq hd
    obtain ⟨hk, -, -, hlongest⟩ := scanWord_sound hscan
    have hscan' : scanWord s.scans (w ++ (r' ++ (c ++ y))) = some (k, w, r' ++ (c ++ y)) := by
      refine scanWord_of_longest hk hw (longest_remark hc hw (fun v hv hpre => ?_) y)
      refine hlongest k hk v hv (hpre.trans ?_)
      rw [← List.append_assoc]
      exact List.prefix_append (w ++ r') x
    rw [← behind_word hw] at h
    refine ⟨k, w, r', next, _, hr'.symm, ?_, hstep, hnext, h, fun fuel' => ?_⟩
    · have hless := length_lt_of_word hw r'
      rw [hr'] at hless
      exact Nat.le_of_lt_succ hless
    · rw [readFrom_skip hskip, hpos, readFrom_word hw hscan' hstep, behind_word hw]

/-- **A comment at the end of a line changes nothing.** The two runs take the same words in the line,
by induction on the fuel of the first; where the line ends, they become the same run. -/
theorem readFrom_remark (hx : Ending x y z) (hc : c ∈ comment) {pos : Position}
    {text front before r : List Char} (hs : Follows words s) (hfront : before ++ r = front)
    (hscanned : Scanned text words before (r ++ x)) (hpos : pos = .behind before)
    (hcut : x.head? = some '\n' → ∀ shorter, front = shorter ++ ['\r'] → ∀ words more,
      ¬ Scanned text (words ++ [⟨.newline, "\r\n", .behind shorter⟩]) (shorter ++ ['\r', '\n']) more)
    (hfuel : (r ++ x).length < fuel) (hfuel' : (r ++ (c ++ y)).length < fuel')
    (h : readFrom fuel s pos done (r ++ x) = .ok result) :
    readFrom fuel' s pos done (r ++ (c ++ y)) = .ok result := by
  induction fuel generalizing fuel' s pos done before r words with
  | zero => exact absurd hfuel (Nat.not_lt_zero _)
  | succ fuel ih =>
    obtain ⟨fuel', rfl⟩ := Nat.exists_eq_add_one_of_ne_zero (Nat.ne_zero_of_lt hfuel')
    simp only [List.length_append] at hfuel hfuel'
    cases skips false r with
    | all still hall =>
      obtain ⟨col, x', y', hskip, hx', hle⟩ := hx.skipFrom_eq still (pos.col + r.length)
      obtain ⟨col', hskip'⟩ := hx.skipFrom_remark hc still (pos.col + r.length)
      have hleft := hx.length_le
      rw [readFrom_skip ((hall pos.col x).trans hskip)] at h
      rw [readFrom_skip ((hall pos.col (c ++ y)).trans hskip')]
      exact hx'.readFrom_eq hs (by omega) (by omega) h
    | upTo gap d r' hr hstop =>
      subst hr
      obtain ⟨gap', hgap, heq, -, hleft⟩ :=
        scanned_of_skip hscanned (hstop pos.col x fun _ => hx.head?_ne_slash)
      rw [List.append_assoc] at heq
      obtain rfl : gap = gap' := List.append_cancel_right heq
      have hplace : (⟨pos.line, pos.col + gap.length⟩ : Position) = .behind (before ++ gap) := by
        rw [hpos, Position.behind_append hgap]
      have hcut' : x.head? = some '\n' → d :: r' = ['\r'] → ∀ words more, ¬ Scanned text
          (words ++ [⟨.newline, "\r\n", .behind (before ++ gap)⟩]) (before ++ gap ++ ['\r', '\n'])
            more := by
        intro hfeed hreturn
        refine hcut hfeed (before ++ gap) ?_
        rw [← hfront, hreturn, List.append_assoc]
      obtain ⟨k, w, r, next, done', hw, hle, hstep, hnext, h, hread⟩ :=
        readFrom_word_remark hx hc hs hleft hplace hcut' (hstop pos.col) h
      simp only [List.length_append, List.length_cons] at hfuel hfuel'
      rw [hread]
      refine ih (hs.step hstep) ?_ hnext rfl ?_ ?_ h
      · rw [← hfront, hw, List.append_assoc, List.append_assoc]
      · rw [List.length_append]
        omega
      · simp only [List.length_append]
        omega

end Runs

/-! ### Texts -/

theorem closeText_append {front rest : List Char} (h : rest ≠ []) :
    closeText (front ++ rest) = front ++ closeText rest := by
  unfold closeText
  rw [List.getLast?_append_of_ne_nil front h]
  split_ifs
  · rfl
  · rw [List.append_assoc]

theorem closeText_eq (text : List Char) : ∃ feed, closeText text = text ++ feed := by
  unfold closeText
  split_ifs
  · exact ⟨[], (List.append_nil text).symm⟩
  · exact ⟨['\n'], rfl⟩

theorem closeText_comment {c : List Char} (hc : c ∈ comment) : closeText c = c ++ ['\n'] := by
  refine if_neg fun hlast => ?_
  exact newline_notMem_of_ignored (.inr hc) (List.mem_of_getLast? hlast)

theorem closeText_remark (front c : List Char) {rest x : List Char} (h : rest ≠ [])
    (hx : closeText rest = x) : closeText (front ++ rest) = front ++ x ∧
      closeText (front ++ c ++ rest) = front ++ (c ++ x) := by
  rw [closeText_append h, closeText_append h, hx, List.append_assoc]
  exact ⟨rfl, rfl⟩

/-- What follows the end of a line when the last line has an end. -/
theorem EndsLine.ending {words : List Token} {front rest c : List Char}
    (h : EndsLine words front rest) (hc : c ∈ comment) :
    ∃ x y z, Ending x y z ∧ closeText (front ++ rest) = front ++ x ∧
      closeText (front ++ c ++ rest) = front ++ (c ++ y) ∧ (x.head? = some '\n' →
        ∀ shorter, front = shorter ++ ['\r'] → ⟨.newline, "\r\n", .behind shorter⟩ ∉ words) := by
  have hne : c ≠ [] := by
    obtain ⟨d, body, rfl, -⟩ := comment_cons hc
    exact List.cons_ne_nil d body
  rcases h with ⟨rfl | ⟨more, rfl⟩, hreturn⟩ | rfl | ⟨more, rfl⟩
  · have hclose : closeText (front ++ c ++ []) = front ++ (c ++ ['\n']) := by
      rw [List.append_nil, closeText_append hne, closeText_comment hc]
    rw [List.append_nil]
    by_cases hlast : front.getLast? = some '\n'
    · refine ⟨[], _, _, .close, ?_, hclose, by simp⟩
      rw [List.append_nil]
      exact if_pos hlast
    · exact ⟨['\n'], _, _, .feed [], if_neg hlast, hclose, fun _ => hreturn⟩
  · obtain ⟨feed, hfeed⟩ := closeText_eq ('\n' :: more)
    obtain ⟨hclose, hclose'⟩ := closeText_remark front c (List.cons_ne_nil _ _) hfeed
    exact ⟨_, _, _, .feed (more ++ feed), hclose, hclose', fun _ => hreturn⟩
  · obtain ⟨hclose, hclose'⟩ := closeText_remark front c (List.cons_ne_nil '\r' []) rfl
    exact ⟨_, _, _, .returnFeed [], hclose, hclose', by simp⟩
  · obtain ⟨feed, hfeed⟩ := closeText_eq ('\r' :: '\n' :: more)
    obtain ⟨hclose, hclose'⟩ := closeText_remark front c (List.cons_ne_nil _ _) hfeed
    exact ⟨_, _, _, .returnFeed (more ++ feed), hclose, hclose', by simp⟩

/-- **A comment at the end of a line leaves the program as it is.** -/
theorem parse_remark {words : List Token} {front rest c : List Char}
    (hwords : SplitsInto (String.ofList (front ++ rest)) words) (h : EndsLine words front rest)
    (hc : c ∈ comment) {file : Option String} {p : Program}
    (hp : parse names (String.ofList (front ++ rest)) file = .ok p) :
    parse names (String.ofList (front ++ c ++ rest)) file = .ok p := by
  obtain ⟨sts, hsts, hitems, hliterals, hfile⟩ := parse_eq_ok.mp hp
  obtain ⟨x, y, z, hx, hclose, hclose', hreturn⟩ := h.ending hc
  refine parse_eq_ok.mpr ⟨sts, ?_, hitems, hliterals, hfile⟩
  simp only [readStatements, SplitsInto, String.toList_ofList] at hsts hwords ⊢
  rw [hclose] at hsts hwords
  rw [hclose']
  refine readFrom_remark hx hc follows_start (List.nil_append front) .start rfl ?_
    (Nat.lt_succ_self _) (Nat.lt_succ_self _) hsts
  intro hfeed shorter hfront done more hscanned
  -- The words up to there are among those of the text.
  obtain ⟨-, ts, -, rfl, -⟩ := hscanned.splits hwords
  exact hreturn hfeed shorter hfront (by simp)

/-- **Places are true, and comments are silent.** A program that a text denotes is what a derivation
of its words denotes, so every label, instruction, declaration and routine carries the place of its
own word: of its name, or of the keyword for the main routine. Every word but the end of a line stands
at its place in the text, so the text has each name there; mnemonics are in lower case. The text
denotes the same program, places included, if a comment is put at the end of any of its lines. -/
theorem places_and_remarks (names : CharacterNames) (text : String) (file : Option String)
    (p : Program) (h : parse names text file = .ok p) :
    ∃ words parts, SplitsInto text words ∧ source.Derives words parts ∧
      Denote names parts p.items ∧
      (∀ t ∈ words, t.terminal ≠ .newline → StandsAt text.toList t.text t.pos) ∧
      (∀ item ∈ p.items, item.Placed (IsWordAt text words)) ∧
      ∀ front rest remark, text.toList = front ++ rest → EndsLine words front rest →
        (∃ mark ∈ [[';'], ['/', '/'], ['#']], mark <+: remark) → '\n' ∉ remark →
          parse names (String.ofList (front ++ remark ++ rest)) file = .ok p := by
  obtain ⟨words, parts, hwords, hparts, hdenote⟩ := denote_of_parse h
  refine ⟨words, parts, hwords, hparts, hdenote, hwords.standsAt, hdenote.placed hwords hparts,
    fun front rest remark htext hends hmark hremark => ?_⟩
  obtain ⟨mark, hmark, body, rfl⟩ := hmark
  have hcomment : mark ++ body ∈ comment := by
    refine mem_comment.mpr ⟨mark, hmark, body, ?_, rfl⟩
    rintro d hd rfl
    exact hremark (List.mem_append_right mark hd)
  rw [← String.ofList_toList (s := text), htext] at h hwords
  exact parse_remark hwords hends hcomment h

/-- A text with the mark of a comment in a string, an older comment, and lines that end with a
carriage return. -/
def notedFront : List Char := ".DATA\nd = \"a;b\" // old".toList

/-- What follows its second line: two instructions of one name among it. -/
def notedRest : List Char := "\r\n.MAIN\r\n l: PUT 1\n  put 1".toList

/-- The program that it denotes. -/
def notedProgram : Program :=
  ⟨[.data ⟨"d", "str", [.raw [97, 59, 98]], ⟨2, 1⟩⟩, .routine ⟨none, [.label "l" ⟨4, 2⟩,
    .instruction ⟨"put", [.immediate ⟨1, "1", 0⟩], ⟨4, 5⟩⟩,
    .instruction ⟨"put", [.immediate ⟨1, "1", 0⟩], ⟨5, 3⟩⟩], ⟨3, 1⟩⟩], none⟩

theorem places_and_remarks_noted :
    parse nameless (String.ofList (notedFront ++ notedRest)) none = .ok notedProgram ∧
      ∃ words parts, SplitsInto (String.ofList (notedFront ++ notedRest)) words ∧
        source.Derives words parts ∧ Denote nameless parts notedProgram.items ∧
        (∀ item ∈ notedProgram.items,
          item.Placed (IsWordAt (String.ofList (notedFront ++ notedRest)) words)) ∧
        EndsLine words notedFront notedRest ∧
        parse nameless (String.ofList (notedFront ++ "# new".toList ++ notedRest)) none =
          .ok notedProgram := by
  have hparse : parse nameless (String.ofList (notedFront ++ notedRest)) none =
      .ok notedProgram := by
    decide +kernel
  obtain ⟨words, parts, hwords, hparts, hdenote, -, hplaced, hremark⟩ :=
    places_and_remarks nameless _ none notedProgram hparse
  have hends : EndsLine words notedFront notedRest :=
    .inr (.inr ⟨".MAIN\r\n l: PUT 1\n  put 1".toList, by decide⟩)
  refine ⟨hparse, words, parts, hwords, hparts, hdenote, hplaced, hends,
    hremark notedFront notedRest "# new".toList String.toList_ofList hends ?_ ?_⟩
  · exact ⟨['#'], by decide, by decide⟩
  · decide

end AluVM.Syntax
