import AluVM.Proofs.Fields
import Mathlib.Data.List.Nodup

/-! # Calls on a link job

A link job is changed in place, by calls that may come in any order and with any arguments. A call
does what the linker's own step does, or it fails and changes nothing (`Does`, `does_call`).

`Later j k` is what holds between a moment of a job and a later one: the code keeps its size and its
first byte, the table of libraries grows at its end, and the state moves forward. One call is a step
of that kind (`later_call`), and so is any number of calls (`later_after`). Together with the table,
which stays free of duplicates (`Tidy.after`), this gives `kept_by_calls`. -/

namespace AluVM

/-! ### The order of the states -/

namespace JobState

/-- The states of a job that does not fail, in the order of the work. -/
def order : List JobState := [unlinked, partiallyResolved, resolved, addressed]

/-- **A job may get from a state to another one**: it stays where it is, it goes forward in the
order, or it fails before it is over. -/
def Reaches (s t : JobState) : Prop :=
  t = s ∨ [s, t].Sublist order ∨ (s ≠ addressed ∧ t = failed)

instance (s t : JobState) : Decidable (s.Reaches t) := by
  unfold Reaches
  infer_instance

theorem reaches_of_rank {s t : JobState} (hs : ¬ s.isFinal = true) (h : ¬ t.rank ≤ s.rank) :
    s.Reaches t := by
  cases s <;> cases t <;> revert hs h <;> decide

theorem Reaches.trans {s t u : JobState} (hst : s.Reaches t) (htu : t.Reaches u) :
    s.Reaches u := by
  cases s <;> cases t <;> cases u <;> revert hst htu <;> decide

/-- A job that is over stays as it is. -/
theorem Reaches.eq_of_final {s t : JobState} (h : s.Reaches t) (hs : s = addressed ∨ s = failed) :
    t = s := by
  cases s <;> cases t <;> revert h hs <;> decide

end JobState

namespace Job

/-! ### What a call does -/

theorem toList_splice (code : Array UInt8) (first last : Nat) (bytes : Bytes) :
    (splice code first last bytes).toList =
      code.toList.take first ++ bytes ++ code.toList.drop last := by
  have hdrop : (code.toList.drop last).take (code.size - last) = code.toList.drop last :=
    List.take_of_length_le (by simp)
  simp [splice, hdrop]

/-- If as many bytes are put in as are taken out, all others stay in their places. -/
theorem splice_eq_overwrite {code : Array UInt8} {first : Nat} {bytes : Bytes}
    (h : first + bytes.length ≤ code.size) :
    splice code first (first + bytes.length) bytes = overwrite code first bytes := by
  have hfirst : (code.toList.take first).length = first := by
    rw [List.length_take, Array.length_toList]
    omega
  refine Array.ext_getElem? fun i => ?_
  rw [getElem?_overwrite, ← Array.getElem?_toList, toList_splice, List.append_assoc]
  rcases Nat.lt_or_ge i first with hi | hi
  · rw [if_neg (by omega), List.getElem?_append_left (by omega), List.getElem?_take_of_lt hi,
      Array.getElem?_toList]
  · rw [List.getElem?_append_right (by omega), hfirst]
    rcases Nat.lt_or_ge i (first + bytes.length) with hlast | hlast
    · rw [if_pos ⟨hi, hlast, by omega⟩, List.getElem?_append_left (by omega)]
    · rw [if_neg (by omega), List.getElem?_append_right (by omega), List.getElem?_drop,
        Array.getElem?_toList]
      congr 1
      omega

/-- **What a call does to a job**: the linker's own step, or nothing if that fails. -/
inductive Does (j : Job) : Call → Except CallError (Option Nat) → Job → Prop where
  | advance {new : JobState} {k : Job} (h : j.advance new = .ok k) :
      Does j (.advance new) (.ok none) k
  | patch {offset : Int} {target : String} {bytes : Bytes} {k : Job}
      (h : j.patch offset target bytes = .ok k) : Does j (.patch offset target bytes) (.ok none) k
  | libraryIndex {id : String} {index : Nat} {k : Job}
      (h : j.libraryIndex id = .ok (index, k)) : Does j (.libraryIndex id) (.ok (some index)) k
  | notAdvance {new : JobState} {e : JobError} (h : j.advance new = .error e) :
      Does j (.advance new) (.error (.order e)) j
  | notPatch {offset : Int} {target : String} {bytes : Bytes} {e : Failure}
      (h : j.patch offset target bytes = .error e) :
      Does j (.patch offset target bytes) (.error (.failure e)) j
  | notLibraryIndex {id : String} {e : LinkError} (h : j.libraryIndex id = .error e) :
      Does j (.libraryIndex id) (.error (.failure (.link e))) j

theorem call_advance (j : Job) (new : JobState) : j.call (.advance new) =
    if j.state.isFinal = true then (.error (.order (.finished j.object.name j.state)), j)
    else if new.rank ≤ j.state.rank then
      (.error (.order (.backwards j.object.name j.state new)), j)
    else (.ok none, { j with state := new }) := by
  show ((ite _ _ _ : Work Unit) >>= fun _ => pure none : Work (Option Nat)).run j = _
  split_ifs <;> rfl

theorem call_patch (j : Job) (offset : Int) (target : String) (bytes : Bytes) :
    j.call (.patch offset target bytes) =
      if (offset < 1 || (j.code.size : Int) < offset + bytes.length) = true then
        (.error (.failure (.internal (.fieldOutside j.object.name target offset))), j)
      else (.ok none, { j with
        code := splice j.code offset.toNat (offset + bytes.length).toNat bytes }) := by
  show ((ite _ _ _ : Work Unit) >>= fun _ => pure none : Work (Option Nat)).run j = _
  split_ifs <;> rfl

theorem call_libraryIndex (j : Job) (id : String) : j.call (.libraryIndex id) =
    if id ∉ j.libraries then
      if maxLibraries ≤ j.libraries.length then
        (.error (.failure (.link (.tooManyLibraries j.object.name maxLibraries))), j)
      else (.ok (some ((j.libraries ++ [id]).idxOf id)), { j with libraries := j.libraries ++ [id] })
    else (.ok (some (j.libraries.idxOf id)), j) := by
  show ((ite _ _ _ : Work Nat) >>= fun index => pure (some index) : Work (Option Nat)).run j = _
  split_ifs <;> rfl

/-- **A call does the linker's own step or nothing.** -/
theorem does_call (j : Job) (c : Call) : Does j c (j.call c).1 (j.call c).2 := by
  cases c with
  | advance new =>
    rw [call_advance]
    split_ifs with hfinal hrank
    · exact .notAdvance (if_pos hfinal)
    · exact .notAdvance ((if_neg hfinal).trans (if_pos hrank))
    · exact .advance ((if_neg hfinal).trans (if_neg hrank))
  | patch offset target bytes =>
    rw [call_patch]
    split_ifs with h
    · exact .notPatch (if_pos h)
    · refine .patch ((if_neg h).trans ?_)
      simp only [Bool.or_eq_true, decide_eq_true_eq] at h
      obtain ⟨place, rfl⟩ : ∃ place : Nat, offset = place := ⟨offset.toNat, by omega⟩
      have hlast : ((place : Int) + bytes.length).toNat = place + bytes.length := by omega
      rw [hlast, Int.toNat_natCast, splice_eq_overwrite (by omega)]
  | libraryIndex id =>
    rw [call_libraryIndex]
    by_cases hmem : id ∈ j.libraries
    · obtain ⟨index, hindex⟩ := Option.isSome_iff_exists.mp (List.isSome_idxOf?.mpr hmem)
      have hplace : j.libraries.idxOf id = index := by
        rw [List.idxOf_eq_getD_idxOf?, hindex, Option.getD_some]
      rw [if_neg (not_not.mpr hmem), hplace]
      refine .libraryIndex ?_
      rw [Job.libraryIndex, hindex]
    · have hnone := List.idxOf?_eq_none_iff.mpr hmem
      rw [if_pos hmem]
      split_ifs with hfull
      · refine .notLibraryIndex ?_
        rw [Job.libraryIndex, hnone]
        exact if_pos hfull
      · have hplace : (j.libraries ++ [id]).idxOf id = j.libraries.length := by
          simp [List.idxOf_append_of_notMem hmem]
        rw [hplace]
        refine .libraryIndex ?_
        rw [Job.libraryIndex, hnone]
        exact if_neg hfull

/-! ### From one moment to a later one -/

/-- The job after calls, whatever they come to. -/
def after (j : Job) (cs : List Call) : Job := cs.foldl (fun j c => (j.call c).2) j

/-- **What holds between a moment of a job and a later one.** -/
structure Later (j k : Job) : Prop where
  object : k.object = j.object
  size : k.code.size = j.code.size
  opcode : k.code[0]? = j.code[0]?
  libraries : j.libraries <+: k.libraries
  calls : k.calls = j.calls
  state : j.state.Reaches k.state

theorem Later.refl (j : Job) : Later j j := ⟨rfl, rfl, rfl, List.prefix_rfl, rfl, .inl rfl⟩

theorem Later.trans {j k l : Job} (h : Later j k) (h' : Later k l) : Later j l where
  object := h'.object.trans h.object
  size := h'.size.trans h.size
  opcode := h'.opcode.trans h.opcode
  libraries := h.libraries.trans h'.libraries
  calls := h'.calls.trans h.calls
  state := h.state.trans h'.state

/-- The table of libraries has no duplicates, and every place in it is a byte. -/
structure Tidy (j : Job) : Prop where
  nodup : j.libraries.Nodup
  length_le : j.libraries.length ≤ maxLibraries

theorem later_call (j : Job) (c : Call) : Later j (j.call c).2 := by
  have hdoes := does_call j c
  generalize (j.call c).1 = answer, (j.call c).2 = k at hdoes
  cases hdoes with
  | advance h =>
    unfold Job.advance at h
    split_ifs at h with hfinal hrank
    cases h
    exact ⟨rfl, rfl, rfl, List.prefix_rfl, rfl, JobState.reaches_of_rank hfinal hrank⟩
  | @patch offset target bytes _ h =>
    obtain ⟨hplace, -, rfl⟩ := patch_eq_ok.mp h
    refine ⟨rfl, size_overwrite _ _ _, ?_, List.prefix_rfl, rfl, .inl rfl⟩
    -- A field starts behind the opcode.
    have hbehind : ¬ offset.toNat ≤ 0 := by omega
    rw [getElem?_overwrite, if_neg fun hfield => hbehind hfield.1]
  | libraryIndex h =>
    obtain ⟨-, hgrow, hk, -, -⟩ := libraryIndex_eq_ok h
    rw [hk]
    exact ⟨rfl, rfl, rfl, hgrow, rfl, .inl rfl⟩
  | notAdvance | notPatch | notLibraryIndex => exact Later.refl j

theorem later_after (j : Job) (cs : List Call) : Later j (j.after cs) := by
  induction cs generalizing j with
  | nil => exact Later.refl j
  | cons c cs ih => exact (later_call j c).trans (ih _)

theorem Tidy.call {j : Job} (h : j.Tidy) (c : Call) : (j.call c).2.Tidy := by
  have hdoes := does_call j c
  generalize (j.call c).1 = answer, (j.call c).2 = k at hdoes
  cases hdoes with
  | advance hstep =>
    unfold Job.advance at hstep
    split_ifs at hstep
    cases hstep
    exact ⟨h.nodup, h.length_le⟩
  | patch hstep =>
    obtain ⟨-, -, rfl⟩ := patch_eq_ok.mp hstep
    exact ⟨h.nodup, h.length_le⟩
  | libraryIndex hstep =>
    obtain ⟨-, -, -, hlength, -⟩ := libraryIndex_eq_ok hstep
    refine ⟨?_, hlength h.length_le⟩
    unfold Job.libraryIndex at hstep
    split at hstep
    · cases hstep
      exact h.nodup
    · rename_i hnone
      split_ifs at hstep
      cases hstep
      have hnew := List.idxOf?_eq_none_iff.mp hnone
      exact h.nodup.append (List.nodup_singleton _) (by simpa using hnew)
  | notAdvance | notPatch | notLibraryIndex => exact h

theorem Tidy.after {j : Job} (h : j.Tidy) (cs : List Call) : (j.after cs).Tidy := by
  induction cs generalizing j with
  | nil => exact h
  | cons c cs ih => exact ih (h.call c)

theorem tidy_start (o : Object) : (start o).Tidy := ⟨List.nodup_nil, Nat.zero_le _⟩

/-! ### Places in the table -/

/-- A library that is in the table has its place there. -/
theorem call_libraryIndex_of_mem {j : Job} {id : String} (h : id ∈ j.libraries) :
    j.call (.libraryIndex id) = (.ok (some (j.libraries.idxOf id)), j) := by
  rw [call_libraryIndex, if_neg (not_not.mpr h)]

theorem call_libraryIndex_eq_ok {j k : Job} {id : String} {index : Nat}
    (h : j.call (.libraryIndex id) = (.ok (some index), k)) :
    id ∈ k.libraries ∧ index = k.libraries.idxOf id := by
  rw [call_libraryIndex] at h
  by_cases hmem : id ∈ j.libraries
  · rw [if_neg (not_not.mpr hmem)] at h
    cases h
    exact ⟨hmem, rfl⟩
  · rw [if_pos hmem] at h
    split_ifs at h
    · cases h
    · cases h
      exact ⟨List.mem_append_right _ (List.mem_singleton_self id), rfl⟩

/-- **The place of a library stays the same** through any calls. -/
theorem same_place {j k : Job} {id : String} {index : Nat}
    (h : j.call (.libraryIndex id) = (.ok (some index), k)) (cs : List Call) :
    (k.after cs).call (.libraryIndex id) = (.ok (some index), k.after cs) := by
  obtain ⟨hmem, rfl⟩ := call_libraryIndex_eq_ok h
  obtain ⟨more, hmore⟩ := (later_after k cs).libraries
  have hmem' : id ∈ (k.after cs).libraries := hmore ▸ List.mem_append_left more hmem
  rw [call_libraryIndex_of_mem hmem', ← hmore, List.idxOf_append_of_mem hmem]

/-- **What calls keep.** Whatever is called on the job of an object, in whatever order: between any
two moments the code keeps its size and its first byte, the table of libraries only grows at its end,
and the state only moves forward and never leaves the ends of the work. At every moment the table has
no duplicates and at most 256 entries; the place that a library has in it is below 256 and the one
that it has at all later moments; and a call that fails leaves the job as it was. -/
theorem kept_by_calls (o : Object) (before more : List Call) :
    let j := (start o).after before
    let k := j.after more
    (k.code.size = j.code.size ∧ k.code[0]? = j.code[0]?) ∧
      (j.libraries.Nodup ∧ j.libraries.length ≤ 256 ∧ j.libraries <+: k.libraries) ∧
      (∀ id index j', j.call (.libraryIndex id) = (.ok (some index), j') → index < 256 ∧
        (j'.after more).call (.libraryIndex id) = (.ok (some index), j'.after more)) ∧
      (j.state.Reaches k.state ∧
        (j.state = .addressed ∨ j.state = .failed → k.state = j.state)) ∧
      ∀ c e j', j.call c = (.error e, j') → j' = j := by
  intro j k
  have htidy : j.Tidy := (tidy_start o).after before
  have hlater : Later j k := later_after j more
  refine ⟨⟨hlater.size, hlater.opcode⟩, ⟨htidy.nodup, htidy.length_le, hlater.libraries⟩, ?_,
    ⟨hlater.state, hlater.state.eq_of_final⟩, ?_⟩
  · intro id index j' h
    refine ⟨?_, same_place h more⟩
    obtain ⟨hmem, rfl⟩ := call_libraryIndex_eq_ok h
    have hj' : (j.call (.libraryIndex id)).2 = j' := congrArg Prod.snd h
    have htidy' : j'.Tidy := hj' ▸ htidy.call _
    exact Nat.lt_of_lt_of_le (List.idxOf_lt_length_of_mem hmem) htidy'.length_le
  · intro c e j' h
    have hdoes : Does j c (.error e) j' := by
      have hcall := does_call j c
      rwa [h] at hcall
    cases hdoes <;> rfl

/-- An object of one word. -/
def oneWord : Object := { name := "m", mask := 1, code := [5, 0, 0, 0, 0, 0, 0, 0], data := [] }

/-- A library, a field, a field that goes too far, and a move. -/
def earlyCalls : List Call :=
  [.libraryIndex "x", .patch 1 "t" [7, 8], .patch 7 "t" [1, 2], .advance .resolved]

/-- Another library, a move back, the end, and the first library again. -/
def lateCalls : List Call :=
  [.libraryIndex "z", .advance .unlinked, .advance .failed, .libraryIndex "x"]

theorem kept_by_calls_of_oneWord : ∃ j',
    ((start oneWord).after earlyCalls).call (.libraryIndex "y") = (.ok (some 1), j') ∧
      (j'.after lateCalls).call (.libraryIndex "y") = (.ok (some 1), j'.after lateCalls) ∧
      (((start oneWord).after earlyCalls).call (.patch 0 "t" [1])).2 =
        (start oneWord).after earlyCalls := by
  obtain ⟨-, -, hplace, -, hfailed⟩ := kept_by_calls oneWord earlyCalls lateCalls
  have hcall : ((start oneWord).after earlyCalls).call (.libraryIndex "y") =
      (.ok (some 1), (((start oneWord).after earlyCalls).call (.libraryIndex "y")).2) := by
    decide +kernel
  have hpatch : ((start oneWord).after earlyCalls).call (.patch 0 "t" [1]) =
      (.error (.failure (.internal (.fieldOutside "m" "t" 0))),
        (((start oneWord).after earlyCalls).call (.patch 0 "t" [1])).2) := by
    decide +kernel
  exact ⟨_, hcall, (hplace _ _ _ hcall).2, hfailed _ _ _ hpatch⟩

end Job

end AluVM
