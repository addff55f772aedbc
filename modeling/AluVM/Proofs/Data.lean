import AluVM.Object.Encode
import AluVM.Proofs.Operands
import AluVM.Proofs.Packing
import AluVM.Proofs.Words

/-! # Data in the room that was measured for them

The first pass measures a declaration of data, and the encoder writes it later. A declaration of a
source in which nothing is wrong is written (`datumBytes_of_measured`), and its bytes take exactly
the room that was measured. -/

namespace AluVM

namespace Analysis

open Syntax (Operand DataDecl Immediate stringType)

/-! ### What is wrong with data -/

theorem datumSize_error {d : DataDecl} {size : Nat} {causes : List Cause}
    (h : datumSize d = .ok (size, causes)) : ∀ c ∈ causes, c.severity = .error := by
  unfold datumSize at h
  split_ifs at h
  · split at h <;> cases h <;> simp [Cause.severity]
  · obtain ⟨blobs, -, h⟩ := Steps.bind_eq_ok.mp h
    cases h
    intro c hc
    obtain ⟨⟨value, blob⟩, -, hcause⟩ := List.mem_filterMap.mp hc
    simp only [blobCause?] at hcause
    split_ifs at hcause
    cases hcause
    rfl
  · split at h <;> cases h
    · intro c hc
      obtain ⟨value, -, hcause⟩ := List.mem_filterMap.mp hc
      unfold valueCause? at hcause
      split at hcause
      · split_ifs at hcause
        cases hcause
        rfl
      · cases hcause
    · simp [Cause.severity]

theorem Accepted.datumSize_eq {p : Syntax.Program} {a : Analysis} (h : Accepted p a) {d : DataDecl}
    (hd : d ∈ p.data) : datumSize d = .ok ((measured d).1, []) := by
  have hsize := h.measures d hd
  rcases hm : measured d with ⟨size, causes⟩
  rw [hm] at hsize
  have hnil : causes = [] := by
    refine List.eq_nil_iff_forall_not_mem.mpr fun c hc => ?_
    have hsound := h.measures_sound d hd c
    rw [hm] at hsound
    exact hsound hc (datumSize_error hsize c hc)
  rw [hsize, hnil]

/-! ### Writing data -/

theorem filterMap_of_mapM {α β : Type} {f : α → Option β} : ∀ {xs : List α} {ys : List β},
    xs.mapM f = some ys → xs.filterMap f = ys
  | [], ys, h => by cases h; rfl
  | x :: xs, ys, h => by
    rw [List.mapM_cons] at h
    obtain ⟨y, hy, h⟩ := Option.bind_eq_some_iff.mp h
    obtain ⟨ys', hys, h⟩ := Option.bind_eq_some_iff.mp h
    cases h
    rw [List.filterMap_cons_some hy, filterMap_of_mapM hys]

theorem stringBytes_of_measured {d : DataDecl} {size : Nat} (hstring : d.type = stringType)
    (h : datumSize d = .ok (size, [])) (file : Option String) :
    ∃ bytes, datumBytes d file = .ok bytes ∧ bytes.length = size := by
  simp only [datumSize, hstring, if_true] at h
  split at h
  · rename_i strings hstrings
    cases h
    refine ⟨strings.flatten, ?_, rfl⟩
    simp [datumBytes, hstring, filterMap_of_mapM hstrings]
  · cases h

theorem mapM_digitBytes {numbers : List Immediate} {blobs : List (Option Bytes)}
    (h : (numbers.map Operand.immediate).mapM blobOf = .ok blobs) :
    (numbers.map Operand.immediate).mapM digitBytes = .ok blobs := by
  rw [Steps.mapM_eq_ok, List.forall₂_map_left_iff] at h ⊢
  exact h.imp fun i blob hb => Steps.mapError_ok_iff.mpr hb

theorem mapM_id_of_no_cause {d : DataDecl} :
    ∀ {values : List Operand} {blobs : List (Option Bytes)}, values.length = blobs.length →
    (values.zip blobs).filterMap (fun (v, b) => blobCause? d v b) = [] →
    ∃ found : List Bytes, blobs.mapM id = some found ∧
      found.flatten = blobs.flatMap fun b => b.getD []
  | [], [], _, _ => ⟨[], rfl, rfl⟩
  | v :: values, b :: blobs, hlen, h => by
    rcases b with _ | bytes
    · simp [blobCause?] at h
    · simp only [List.zip_cons_cons, List.filterMap_cons, blobCause?] at h
      obtain ⟨found, hfound, hflat⟩ := mapM_id_of_no_cause (Nat.succ.inj hlen) h
      refine ⟨bytes :: found, ?_, ?_⟩
      · simp [List.mapM_cons, hfound]
      · simp [hflat]

theorem digitBytes_of_measured {d : DataDecl} {size : Nat} (hblob : d.type = blobType)
    {numbers : List Immediate} (hplain : d.values = numbers.map .immediate)
    (h : datumSize d = .ok (size, [])) (file : Option String) :
    ∃ bytes, datumBytes d file = .ok bytes ∧ bytes.length = size := by
  have hno : blobType ≠ stringType := by decide
  simp only [datumSize, hblob, if_neg hno, if_true] at h
  obtain ⟨blobs, hblobs, h⟩ := Steps.bind_eq_ok.mp h
  have hlen : d.values.length = blobs.length := (Steps.mapM_eq_ok.mp hblobs).length_eq
  obtain ⟨hsize, hcauses⟩ := Prod.mk.inj (Except.ok.inj h)
  obtain ⟨found, hfound, hflat⟩ := mapM_id_of_no_cause hlen hcauses
  refine ⟨found.flatten, ?_, (congrArg List.length hflat).trans hsize⟩
  rw [hplain] at hblobs
  simp only [datumBytes, hblob, if_neg hno, if_true, hplain, mapM_digitBytes hblobs]
  simp only [bind, Except.bind, hfound]
  rfl

theorem numericType?_width {type : String} {width : Nat} {signed : Bool}
    (h : numericType? type = some (width, signed)) : width ≠ 0 := by
  have hall : ∀ x ∈ numericTypes, x.2.1 ≠ 0 := by decide
  obtain ⟨l₁, l₂, hmem, -⟩ := List.lookup_eq_some_iff.mp h
  exact hall (type, width, signed) (by rw [hmem]; simp)

theorem mapM_numberBytes {d : DataDecl} {width : Nat} {signed : Bool} (hwidth : width ≠ 0)
    (file : Option String) : ∀ {numbers : List Immediate},
    (numbers.map Operand.immediate).filterMap (valueCause? d width signed) = [] →
    ∃ fields, (numbers.map Operand.immediate).mapM (numberBytes d file width signed) = .ok fields ∧
      fields.flatten.length = width * numbers.length
  | [], _ => ⟨[], rfl, rfl⟩
  | i :: numbers, h => by
    have hfits : Integer.fits i.value (8 * width) signed = true := by
      by_contra hno
      simp [valueCause?, hno] at h
    simp only [List.map_cons, List.filterMap_cons, valueCause?, hfits, if_true] at h
    obtain ⟨fields, hfields, hlen⟩ := mapM_numberBytes hwidth file h
    have hfield : numberBytes d file width signed (.immediate i) =
        .ok (Bytes.ofNat width (Integer.residue i.value (8 * width))) := by
      simp [numberBytes, hfits, Integer.pack_of_fits hwidth hfits, Except.mapError]
    refine ⟨Bytes.ofNat width (Integer.residue i.value (8 * width)) :: fields, ?_, ?_⟩
    · rw [List.map_cons, Steps.mapM_eq_ok]
      exact .cons hfield (Steps.mapM_eq_ok.mp hfields)
    · simp [hlen, Nat.mul_add, Nat.add_comm]

theorem numberBytes_of_measured {d : DataDecl} {size : Nat} (hno : d.type ≠ stringType)
    (hno' : d.type ≠ blobType) {numbers : List Immediate}
    (hplain : d.values = numbers.map .immediate)
    (h : datumSize d = .ok (size, [])) (file : Option String) :
    ∃ bytes, datumBytes d file = .ok bytes ∧ bytes.length = size := by
  simp only [datumSize, if_neg hno, if_neg hno'] at h
  split at h
  · rename_i width signed htype
    obtain ⟨hsize, hcauses⟩ := Prod.mk.inj (Except.ok.inj h)
    rw [hplain] at hsize hcauses
    obtain ⟨fields, hfields, hlen⟩ := mapM_numberBytes (numericType?_width htype) file hcauses
    refine ⟨fields.flatten, ?_, by rw [hlen, ← hsize, List.length_map]⟩
    simp only [datumBytes, if_neg hno, if_neg hno', htype, hplain, hfields]
    rfl
  · cases h

/-- **A declaration of a source in which nothing is wrong is written**, and it takes the room that
was measured. -/
theorem datumBytes_of_measured {d : DataDecl} {size : Nat} (hplain : d.Plain)
    (h : datumSize d = .ok (size, [])) (file : Option String) :
    ∃ bytes, datumBytes d file = .ok bytes ∧ bytes.length = size := by
  rcases hplain with ⟨hstring, -⟩ | ⟨numbers, hnumbers, -⟩
  · exact stringBytes_of_measured hstring h file
  · by_cases hstring : d.type = stringType
    · exact stringBytes_of_measured hstring h file
    · by_cases hblob : d.type = blobType
      · exact digitBytes_of_measured hblob hnumbers h file
      · exact numberBytes_of_measured hstring hblob hnumbers h file

theorem encodeDatum_of_measured {d : DataDecl} {size : Nat} (hplain : d.Plain)
    (h : datumSize d = .ok (size, [])) (file : Option String) :
    ∃ bytes, encodeDatum d size file = .ok bytes ∧ bytes.length = size := by
  obtain ⟨bytes, hbytes, hlen⟩ := datumBytes_of_measured hplain h file
  refine ⟨bytes, ?_, hlen⟩
  simp [encodeDatum, hbytes, hlen, bind, Except.bind, pure, Except.pure]

end Analysis

end AluVM
