import AluVM.Proofs.LibraryFiles
import Mathlib.Algebra.BigOperators.Group.List.Basic
import Mathlib.Data.List.Flatten

/-! # No file starts another one

A reader takes its bytes from the front and asks for a number of them at a time. So bytes behind
those that it has make no difference to what it does, unless it runs out of them: `Steady`. A
section is taken as a whole and read by a reader of its own, which does not see what is behind the
section; a reader of a file is therefore steady whatever its sections hold, and whatever counts
stand in them.

A file is read to its end. If it is cut short, the reader runs out of bytes, as it would stop too
early in the whole file otherwise; if it is continued, the reader stops where it stopped before, and
what follows is left over. Both are reported as such (`Steady.readAll_short`,
`Steady.readAll_long`). What a library file is read as is then checked against its id, and that
check fails for no reason but the ones that are reported (`Library.verify_yields`). -/

namespace AluVM

namespace Wire

variable {α β : Type}

/-! ### Steady readers -/

/-- The result of a reader that ran out of bytes. -/
def RunsOut (what : String) (result : Except FormatError α) : Prop :=
  ∃ pos missing, result = .error (.truncated what pos missing)

/-- **More bytes make no difference** to the reader, unless it runs out of those that it has. -/
def Steady (r : Read α) : Prop := ∀ what pos bytes more,
  RunsOut what (outcome r (.before what pos bytes)).1 ∨
    ∃ result pos' rest, outcome r (.before what pos bytes) = (result, .before what pos' rest) ∧
      outcome r (.before what pos (bytes ++ more)) = (result, .before what pos' (rest ++ more))

namespace Steady

theorem pure (a : α) : Steady (Pure.pure a) :=
  fun _ pos bytes _ => Or.inr ⟨.ok a, pos, bytes, rfl, rfl⟩

theorem throw (e : FormatError) : Steady (MonadExcept.throw e : Read α) :=
  fun _ pos bytes _ => Or.inr ⟨.error e, pos, bytes, rfl, rfl⟩

theorem bind {r : Read α} {f : α → Read β} (h : Steady r) (hf : ∀ a, Steady (f a)) :
    Steady (r >>= f) := by
  intro what pos bytes more
  rw [outcome_bind, outcome_bind]
  rcases h what pos bytes more with ⟨at', missing, hout⟩ | ⟨e | a, pos', rest, hr, hr'⟩
  · left
    refine ⟨at', missing, ?_⟩
    rcases hr : outcome r (.before what pos bytes) with ⟨e | a, s⟩
    · rw [hr] at hout
      exact congrArg Except.error (Except.error.inj hout)
    · rw [hr] at hout
      cases hout
  · right
    rw [hr, hr']
    exact ⟨.error e, pos', rest, rfl, rfl⟩
  · rw [hr, hr']
    exact hf a what pos' rest more

/-- A reader that looks at nothing but what it reads. -/
theorem ofGet {k : Reader → Read α} (hwhat : ∀ s t : Reader, s.what = t.what → k s = k t)
    (h : ∀ s, Steady (k s)) : Steady (get >>= k) := by
  intro what pos bytes more
  rw [outcome_bind, outcome_bind, outcome_get, outcome_get]
  dsimp only
  rw [hwhat (.before what pos (bytes ++ more)) (.before what pos bytes) rfl]
  exact h _ what pos bytes more

theorem take (n : Nat) : Steady (take n) := by
  intro what pos bytes more
  rcases Nat.lt_or_ge bytes.length n with hshort | henough
  · left
    have hcond : (Reader.before what pos bytes).size < (Reader.before what pos bytes).pos + n := by
      simp only [Reader.before]
      omega
    unfold Wire.take
    rw [outcome_bind, outcome_get]
    simp only [if_pos hcond]
    exact ⟨_, _, rfl⟩
  · right
    have hmore : n ≤ (bytes ++ more).length := by
      rw [List.length_append]
      omega
    refine ⟨_, _, _, outcome_take henough what pos, ?_⟩
    rw [outcome_take hmore, List.take_append_of_le_length henough,
      List.drop_append_of_le_length henough]

theorem readNumber (n : Nat) : Steady (readNumber n) := (take n).bind fun _ => pure _

theorem blob : Steady blob := (readNumber 4).bind take

/-- A section, whatever is in it. -/
theorem inside (r : Read α) : Steady (inside r) := by
  have hsubsection : Steady subsection := blob.bind fun body =>
    ofGet (fun s t hwhat => by rw [hwhat]) fun s => pure _
  refine hsubsection.bind fun inner => ?_
  rcases (r.run inner).1 with e | a
  · exact throw e
  · exact pure a

theorem check {c : Prop} [Decidable c] (e : FormatError) {k : Unit → Read α}
    (h : Steady (k ())) : Steady (if c then MonadExcept.throw e >>= k else k ()) := by
  split_ifs
  · exact (throw e).bind fun _ => h
  · exact h

theorem readHeader (magic : Bytes) (version : Nat) : Steady (readHeader magic version) := by
  refine (take headerSize).bind fun bytes =>
    ofGet (fun s t hwhat => by simp only [hwhat]) fun s => ?_
  exact check _ (check _ (pure _))

/-! ### Whole files -/

variable {r : Read α} {what : String} {bytes : Bytes}

theorem readAll_eq (what : String) (r : Read α) (bytes : Bytes) :
    readAll what r bytes = (outcome (whole r) (.before what 0 bytes)).1 := by
  rw [← Reader.ofBytes_eq]
  rfl

/-- What comes of reading to the end, by where the reader stops. -/
theorem readAll_of_outcome {result : Except FormatError α} {pos : Nat} {rest : Bytes}
    (h : outcome r (.before what 0 bytes) = (result, .before what pos rest)) :
    readAll what r bytes =
      result.bind fun a => if rest = [] then .ok a else .error (.trailing what rest.length) := by
  rw [readAll_eq, whole, outcome_bind, h]
  rcases result with e | a
  · rfl
  · dsimp only
    rw [outcome_bind, expectEnd, outcome_bind, outcome_get]
    have hend : pos = pos + rest.length ↔ rest = [] := by
      rw [← List.length_eq_zero_iff]
      omega
    by_cases hrest : rest = []
    · have hcond : ¬ (Reader.before what pos rest).pos ≠ (Reader.before what pos rest).size :=
        not_not.mpr (hend.mpr hrest)
      simp only [if_neg hcond, Except.bind, if_pos hrest]
      rfl
    · have hcond : (Reader.before what pos rest).pos ≠ (Reader.before what pos rest).size :=
        fun heq => hrest (hend.mp heq)
      have hleft : (Reader.before what pos rest).size - (Reader.before what pos rest).pos =
          rest.length := Nat.add_sub_cancel_left pos rest.length
      simp only [if_pos hcond, Except.bind, if_neg hrest, hleft]
      rfl

theorem readAll_of_runsOut (h : RunsOut what (outcome r (.before what 0 bytes)).1) :
    RunsOut what (readAll what r bytes) := by
  obtain ⟨pos, missing, hout⟩ := h
  refine ⟨pos, missing, ?_⟩
  rw [readAll_eq, whole, outcome_bind]
  rcases hr : outcome r (.before what 0 bytes) with ⟨e | a, s⟩
  · rw [hr] at hout
    exact congrArg Except.error (Except.error.inj hout)
  · rw [hr] at hout
    cases hout

/-- A file that is cut short is reported as such. -/
theorem readAll_short (h : Steady r) {short more : Bytes} {a : α}
    (hok : readAll what r (short ++ more) = .ok a) (hmore : more ≠ []) :
    RunsOut what (readAll what r short) := by
  rcases h what 0 short more with hout | ⟨result, pos, rest, -, hlong⟩
  · exact readAll_of_runsOut hout
  · -- The reader would stop before the end of the whole file.
    rw [readAll_of_outcome hlong] at hok
    obtain ⟨a', -, hend⟩ := Steps.bind_eq_ok.mp hok
    rw [if_neg (by simp [hmore])] at hend
    cases hend

/-- What is left behind the end of a file is reported. -/
theorem readAll_long (h : Steady r) {more : Bytes} {a : α} (hok : readAll what r bytes = .ok a)
    (hmore : more ≠ []) :
    readAll what r (bytes ++ more) = .error (.trailing what more.length) := by
  rcases h what 0 bytes more with hout | ⟨result, pos, rest, hshort, hlong⟩
  · obtain ⟨pos, missing, hout⟩ := readAll_of_runsOut hout
    rw [hok] at hout
    cases hout
  · rw [readAll_of_outcome hshort] at hok
    obtain ⟨a', rfl, hend⟩ := Steps.bind_eq_ok.mp hok
    split_ifs at hend with hrest
    rw [readAll_of_outcome hlong, hrest, List.nil_append]
    exact if_neg hmore

end Steady

end Wire

/-! ### The id of what was read -/

/-- The characters of an id around blanks, up to the colon and behind it. -/
theorem ContentId.split?_eq_some {text algorithm : String} {digest : Bytes}
    (h : split? text = some (algorithm, digest)) : ∃ digits : List Char,
      Text.stripChars text.toList = algorithm.toList ++ ':' :: digits ∧
        digits.length = 2 * digestSize := by
  simp only [split?] at h
  split_ifs at h with hcond
  simp only [Bool.and_eq_true, decide_eq_true_eq] at hcond
  obtain ⟨⟨-, hlength⟩, -⟩ := hcond
  obtain ⟨digest', -, heq⟩ := Option.map_eq_some_iff.mp h
  cases heq
  rcases hrest : (Text.stripChars text.toList).dropWhile (· ≠ ':') with _ | ⟨c, digits⟩
  · rw [hrest] at hlength
    cases hlength
  · have hcolon : c = ':' := by
      have hhead := List.head?_dropWhile_not (fun d => decide (d ≠ ':'))
        (Text.stripChars text.toList)
      simpa only [hrest, List.head?_cons, decide_eq_false_iff_not, not_not] using hhead
    subst hcolon
    rw [hrest] at hlength
    refine ⟨digits, ?_, hlength⟩
    rw [String.toList_ofList, ← hrest, List.takeWhile_append_dropWhile]

theorem Text.stripChars_sublist (cs : List Char) : (stripChars cs).Sublist cs := by
  refine (List.reverse_sublist.mpr (List.dropWhile_sublist _)).trans ?_
  rw [List.reverse_reverse]
  exact List.dropWhile_sublist _

/-- The normal form of an id takes no more bytes than the id. -/
theorem ContentId.length_normalize {id normal : String} (h : normalize id = .ok normal) :
    (Bytes.ofText normal).length ≤ (Bytes.ofText id).length := by
  have hbytes : ∀ s : String, (Bytes.ofText s).length = (s.toList.map Char.utf8Size).sum := by
    intro s
    simp [Bytes.ofText, List.length_flatMap]
  unfold normalize at h
  split at h
  · rename_i algorithm digest hsplit
    obtain ⟨digits, hcs, hdigits⟩ := split?_eq_some hsplit
    have hhex : ((Bytes.toHex digest).toList.map Char.utf8Size).sum = 2 * digestSize := by
      have hone : ∀ c ∈ digest.flatMap Bytes.hexOfByte, c.utf8Size = 1 := by
        intro c hc
        obtain ⟨n, hn, rfl⟩ := Bytes.mem_flatMap_hexOfByte hc
        clear hc
        revert n
        decide
      rw [Bytes.toHex, String.toList_ofList, List.map_congr_left hone, List.map_const',
        List.sum_replicate_nat, Bytes.length_flatMap_hexOfByte, length_of_split? hsplit,
        Nat.mul_one]
    have hdigits : 2 * digestSize ≤ (digits.map Char.utf8Size).sum := by
      rw [← hdigits, ← List.length_map Char.utf8Size]
      refine List.length_le_sum_of_one_le _ fun size hsize => ?_
      obtain ⟨c, -, rfl⟩ := List.mem_map.mp hsize
      exact c.utf8Size_pos
    have hstrip : ((Text.stripChars id.toList).map Char.utf8Size).sum ≤
        (id.toList.map Char.utf8Size).sum := by
      have hsub := (Text.stripChars_sublist id.toList).flatMap String.utf8EncodeChar
      simpa [List.length_flatMap] using hsub.length_le
    rw [hcs, List.map_append, List.map_cons, List.sum_append, List.sum_cons] at hstrip
    rw [← Except.ok.inj h, hbytes, hbytes, String.toList_append, String.toList_append,
      List.map_append, List.map_append, List.sum_append, List.sum_append, hhex]
    have hcolon : ((":" : String).toList.map Char.utf8Size).sum = (':' : Char).utf8Size := rfl
    omega
  · cases h

namespace Library

open Wire

/-- The failures of a check of an id that are reported. -/
def Unreadable (e : Failure) : Prop := ∃ fault, contentFault? e = some fault

theorem idFields_yields {ids : List String} (h : ∀ id ∈ ids, (Bytes.ofText id).length < 2 ^ 16) :
    Steps.Yields (fun _ => True) Unreadable (idFields ids) := by
  refine (Steps.Yields.mapM fun id hid => ?_).bind fun _ _ => trivial
  rcases hnormal : ContentId.normalize id with e | normal
  · exact ⟨.id e, rfl⟩
  · have hlength := (ContentId.length_normalize hnormal).trans_lt (h id hid)
    dsimp only
    rw [Field.encode, counted_eq_ok hlength]
    trivial

theorem canonicalBytes_yields {mask : Mask} {code data : Bytes} {ids : List String}
    (hcode : code.length < 2 ^ 32) (hdata : data.length < 2 ^ 32) (hlength : ids.length < 2 ^ 16)
    (hids : ∀ id ∈ ids, (Bytes.ofText id).length < 2 ^ 16) :
    Steps.Yields (fun _ => True) Unreadable (canonicalBytes mask code data ids) := by
  unfold canonicalBytes
  rcases hmanifest : mask.manifest with e | line
  · exact ⟨.extension e, rfl⟩
  · obtain ⟨names, hnames, -⟩ := Steps.map_eq_ok.mp hmanifest
    obtain ⟨names, -, hline, hshort⟩ := (Mask.known_of_names hnames).names_ok
    rw [hmanifest] at hline
    obtain rfl := Except.ok.inj hline
    have htext : counted 2 (Bytes.ofText (" ".intercalate names)) = .ok _ := counted_eq_ok hshort
    have hcode : counted 4 code = .ok _ := counted_eq_ok hcode
    have hdata : counted 4 data = .ok _ := counted_eq_ok hdata
    have hcount : number 2 ids.length = .ok _ := number_eq_ok hlength
    simp only [encodeAll, encodeFrom, Field.encode, htext, hcode, hdata, hcount]
    exact (idFields_yields hids).bind fun _ _ => trivial

/-- **The check of an id** that follows reading fails only for reasons that are reported. -/
theorem verify_yields {what : String} {raw : Bytes} {l : Library}
    (h : readAll what read raw = .ok l) : Steps.Yields (fun _ => True) Unreadable l.verify := by
  obtain ⟨-, ⟨-, extra, places, -, rfl⟩, hraw⟩ := spells_read.readAll_eq_ok.mp h
  have hblob : ∀ bytes, Field.blob bytes ∈ l.fieldsWith extra places → bytes.length < 2 ^ 32 := by
    intro bytes hmem
    obtain ⟨x, hx⟩ := encode_of_mem hraw _ hmem
    exact (counted_eq_ok_iff.mp hx).1
  have hcode : l.code.length < 2 ^ 32 := hblob _ (by simp [fieldsWith, leadFields])
  have hdata : l.data.length < 2 ^ 32 := hblob _ (by simp [fieldsWith, leadFields])
  obtain ⟨part, hpart⟩ := encode_of_mem hraw
    (.nested (.u16 l.libraries.length :: l.libraries.map .text)) (by simp [fieldsWith, leadFields])
  obtain ⟨body, hbody, -⟩ := encode_nested.mp hpart
  have hlength : l.libraries.length < 2 ^ 16 := by
    obtain ⟨x, hx⟩ := encode_of_mem hbody _ List.mem_cons_self
    obtain ⟨n, hn, hlt, -⟩ := number_eq_ok_iff.mp hx
    omega
  have hids : ∀ id ∈ l.libraries, (Bytes.ofText id).length < 2 ^ 16 := by
    intro id hid
    obtain ⟨x, hx⟩ := encode_of_mem hbody (.text id)
      (List.mem_cons_of_mem _ (List.mem_map_of_mem hid))
    exact (counted_eq_ok_iff.mp hx).1
  unfold verify
  rcases ContentId.strategyOf l.id with e | s
  · exact ⟨.id e, rfl⟩
  · refine (canonicalBytes_yields hcode hdata hlength hids).bind fun content _ => ?_
    unfold idOf
    rcases s.contentId content with e | id
    · exact ⟨.id e, rfl⟩
    · trivial

theorem steady_read : Steady read :=
  (Steady.readHeader magic version).bind fun _ => (Steady.inside _).bind fun _ =>
    Steady.blob.bind fun _ => Steady.blob.bind fun _ => (Steady.inside _).bind fun _ =>
      (Steady.inside _).bind fun _ => (Steady.inside _).bind fun _ => Steady.pure _

theorem ofBytes_of_error {raw : Bytes} {e : FormatError}
    (h : readAll formatName read raw = .error e) : ofBytes raw = .error (.format e) := by
  rw [ofBytes, h]
  rfl

theorem ofBytes_of_read {raw : Bytes} {l : Library} (h : readAll formatName read raw = .ok l) :
    ofBytes raw = l.checkId := by
  rw [ofBytes, h]
  rfl

/-- **Reading a library fails with nothing but an error of the format**: what else a check of an id
may fail with does not happen to a library that was read. -/
theorem ofBytes_eq_error {raw : Bytes} {e : Failure} (h : ofBytes raw = .error e) :
    ∃ f, e = .format f := by
  rcases hread : readAll formatName read raw with f | l
  · rw [ofBytes_of_error hread] at h
    exact ⟨f, (Except.error.inj h).symm⟩
  · rw [ofBytes_of_read hread, checkId] at h
    have hyields := verify_yields hread
    rcases hverify : l.verify with e' | same
    · rw [hverify] at h hyields
      obtain ⟨fault, hfault⟩ := hyields
      simp only [hfault] at h
      exact ⟨_, (Except.error.inj h).symm⟩
    · rw [hverify] at h
      cases same
      · exact ⟨_, (Except.error.inj h).symm⟩
      · cases h

end Library

namespace Object

open Wire

theorem steady_read : Steady read :=
  (Steady.readHeader magic version).bind fun _ => (Steady.inside _).bind fun _ =>
    Steady.blob.bind fun _ => Steady.blob.bind fun _ => (Steady.inside _).bind fun _ =>
      (Steady.inside _).bind fun _ => (Steady.inside _).bind fun _ =>
        (Steady.inside _).bind fun _ => (Steady.inside _).bind fun _ => Steady.pure _

end Object

/-! ### Files -/

/-- **The bytes end where the reader does**: without their end it runs out of them, and what is
put behind it is left over. Errors of the format may come wrapped. -/
structure Wire.Closed {ε α : Type} (wrap : FormatError → ε) (what : String)
    (f : Bytes → Except ε α) (raw : Bytes) : Prop where
  short : ∀ start, start <+: raw → start ≠ raw →
    ∃ pos missing, f start = .error (wrap (.truncated what pos missing))
  long : ∀ more, more ≠ [] → f (raw ++ more) = .error (wrap (.trailing what more.length))

/-- **Every file is read or refused, and no file starts another one.** A reader fails with nothing
but an error of the format; for a library that includes the check of its id, which comes to an
answer or fails for a reason that the error gives. A file that is read is refused without its end,
as it is cut short, and with more behind it, as there are bytes left. -/
theorem ofBytes_checked_and_closed (raw : Bytes) :
    (∀ l, Wire.readAll Library.formatName Library.read raw = .ok l →
      (∃ same, l.verify = .ok same) ∨ ∃ e fault, l.verify = .error e ∧
        Library.contentFault? e = some fault ∧
        Library.ofBytes raw = .error (.format (.unreadableId l.id fault))) ∧
    (∀ e, Library.ofBytes raw = .error e → ∃ f, e = .format f) ∧
    (∀ o, Object.ofBytes raw = .ok o → Wire.Closed id Object.formatName Object.ofBytes raw) ∧
    ∀ l, Library.ofBytes raw = .ok l →
      Wire.Closed Failure.format Library.formatName Library.ofBytes raw := by
  refine ⟨fun l hread => ?_, fun e => Library.ofBytes_eq_error, fun o hread => ⟨?_, ?_⟩,
    fun l hfile => ?_⟩
  · have hyields := Library.verify_yields hread
    rcases hverify : l.verify with e | same
    · rw [hverify] at hyields
      obtain ⟨fault, hfault⟩ := hyields
      refine Or.inr ⟨e, fault, rfl, hfault, ?_⟩
      rw [Library.ofBytes_of_read hread]
      simp only [Library.checkId, hverify, hfault]
    · exact Or.inl ⟨same, rfl⟩
  · rintro start ⟨more, rfl⟩ hne
    exact Object.steady_read.readAll_short hread fun hmore => hne (by simp [hmore])
  · intro more hmore
    exact Object.steady_read.readAll_long hread hmore
  · obtain ⟨l', hread, -⟩ := Steps.bind_eq_ok.mp hfile
    have hread := Steps.mapError_ok_iff.mp hread
    refine ⟨?_, fun more hmore => ?_⟩
    · rintro start ⟨more, rfl⟩ hne
      obtain ⟨pos, missing, hout⟩ :=
        Library.steady_read.readAll_short hread fun hmore => hne (by simp [hmore])
      exact ⟨pos, missing, Library.ofBytes_of_error hout⟩
    · exact Library.ofBytes_of_error (Library.steady_read.readAll_long hread hmore)

theorem padded_and_doubled_closed :
    (∃ o, Object.ofBytes Object.padded = .ok o ∧
      (∃ pos missing, Object.ofBytes (Object.padded.take 20) =
        .error (.truncated Object.formatName pos missing)) ∧
      Object.ofBytes (Object.padded ++ Object.padded) = .error (.trailing Object.formatName 62)) ∧
    ∃ raw, Library.ofBytes raw = .ok .doubled ∧
      (∃ same, Library.doubled.verify = .ok same) ∧
      (∃ pos missing, Library.ofBytes [] =
        .error (.format (.truncated Library.formatName pos missing))) ∧
      Library.ofBytes (raw ++ [0]) = .error (.format (.trailing Library.formatName 1)) := by
  obtain ⟨o, ho⟩ := Steps.exists_of_isOk
    (by decide +kernel : (Object.ofBytes Object.padded).isOk = true)
  obtain ⟨raw, hraw, -⟩ := Library.exists_doubled_file
  have hobject := (ofBytes_checked_and_closed Object.padded).2.2.1 o ho
  have hlibrary := (ofBytes_checked_and_closed raw).2.2.2 _ hraw
  obtain ⟨l, hread, hcheck⟩ := Steps.bind_eq_ok.mp hraw
  have hread := Steps.mapError_ok_iff.mp hread
  obtain ⟨hverify, rfl⟩ := Library.checkId_eq_ok.mp hcheck
  have hchecked := (ofBytes_checked_and_closed raw).1 _ hread
  refine ⟨⟨o, ho, ?_, ?_⟩, raw, hraw, ?_, ?_, ?_⟩
  · exact hobject.short _ (List.take_prefix ..) (by decide)
  · exact hobject.long _ (by decide)
  · rcases hchecked with hsame | ⟨e, -, herror, -⟩
    · exact hsame
    · rw [hverify] at herror
      cases herror
  · refine hlibrary.short [] List.nil_prefix fun hempty => ?_
    rw [← hempty] at hraw
    exact absurd hraw (by decide +kernel)
  · exact hlibrary.long [0] (by decide)

end AluVM
