import AluVM.Link.Merge
import AluVM.Proofs.Outcomes
import Mathlib.Data.List.Nodup

/-! # What merged objects are made of

Merging adds objects to a state one by one. Every object becomes a `Part`: it has a number, and
the code and data of the objects before it are the bases that it is moved by. The result is
described by its parts (`Merged`): code and data are those of the objects one behind the other,
and exports, symbols and relocations are those of the parts in order. `mergeAll_merged` proves
this by an induction along the objects, whose invariant `State.Of` is the same statement about
the state. -/

namespace AluVM.Merge

/-! ### Parts -/

/-- An object with its number and the sizes of what lies before it. -/
structure Part where
  object : Object
  count : Nat
  codeBase : Nat
  dataBase : Nat

/-- The bytes of code of objects. -/
def codeSize (objects : List Object) : Nat := (objects.map (·.code.length)).sum

/-- The bytes of data of objects. -/
def dataSize (objects : List Object) : Nat := (objects.map (·.data.length)).sum

/-- The parts that objects become behind others. -/
def partsFrom (count codeBase dataBase : Nat) : List Object → List Part
  | [] => []
  | o :: os => ⟨o, count, codeBase, dataBase⟩ ::
      partsFrom (count + 1) (codeBase + o.code.length) (dataBase + o.data.length) os

/-- The parts that objects become. -/
def parts (objects : List Object) : List Part := partsFrom 0 0 0 objects

namespace Part

/-- The exports of a part. -/
def exports (q : Part) : List ObjectSymbol := q.object.exports.map (rebase q.codeBase q.dataBase)

/-- The other symbols of a part. -/
def symbols (q : Part) : List ObjectSymbol :=
  q.object.symbols.map (hide q.count q.codeBase q.dataBase)

/-- The relocations of a part. -/
def relocations (q : Part) : List Relocation :=
  q.object.relocations.map (move q.object q.count q.codeBase)

/-- The entry of a part. -/
def entry? (q : Part) : Option Int := q.object.entry.map (· + (q.codeBase : Int))

end Part

theorem partsFrom_append : ∀ (xs ys : List Object) (n c d : Nat), partsFrom n c d (xs ++ ys) =
    partsFrom n c d xs ++ partsFrom (n + xs.length) (c + codeSize xs) (d + dataSize xs) ys
  | [], _, _, _, _ => rfl
  | x :: xs, ys, n, c, d => by
    have hcode : codeSize (x :: xs) = x.code.length + codeSize xs := rfl
    have hdata : dataSize (x :: xs) = x.data.length + dataSize xs := rfl
    simp only [List.cons_append, partsFrom, partsFrom_append xs ys, List.length_cons, hcode, hdata]
    congr 3 <;> omega

theorem parts_append (xs ys : List Object) :
    parts (xs ++ ys) = parts xs ++ partsFrom xs.length (codeSize xs) (dataSize xs) ys := by
  rw [parts, partsFrom_append]
  simp [parts]

theorem mem_partsFrom : ∀ {xs : List Object} {n c d : Nat} {q : Part}, q ∈ partsFrom n c d xs →
    ∃ before after, xs = before ++ q.object :: after ∧ q.count = n + before.length ∧
      q.codeBase = c + codeSize before ∧ q.dataBase = d + dataSize before
  | x :: xs, n, c, d, q, h => by
    rcases List.mem_cons.mp h with rfl | h
    · exact ⟨[], xs, rfl, rfl, rfl, rfl⟩
    · obtain ⟨before, after, rfl, hcount, hcode, hdata⟩ := mem_partsFrom h
      refine ⟨x :: before, after, rfl, ?_, ?_, ?_⟩
      · rw [hcount, List.length_cons]
        omega
      · rw [hcode, codeSize, codeSize, List.map_cons, List.sum_cons]
        omega
      · rw [hdata, dataSize, dataSize, List.map_cons, List.sum_cons]
        omega

/-- **A part** is an object with what lies before it. -/
theorem mem_parts {objects : List Object} {q : Part} : q ∈ parts objects ↔
    ∃ before after, objects = before ++ q.object :: after ∧ q.count = before.length ∧
      q.codeBase = codeSize before ∧ q.dataBase = dataSize before := by
  constructor
  · intro h
    simpa using mem_partsFrom h
  · rintro ⟨before, after, rfl, hcount, hcode, hdata⟩
    rw [parts_append, ← hcount, ← hcode, ← hdata]
    exact List.mem_append_right _ List.mem_cons_self

theorem mem_of_mem_parts {objects : List Object} {q : Part} (h : q ∈ parts objects) :
    q.object ∈ objects := by
  obtain ⟨before, after, rfl, -⟩ := mem_parts.mp h
  simp

theorem exists_part {objects : List Object} {o : Object} (h : o ∈ objects) :
    ∃ q ∈ parts objects, q.object = o := by
  obtain ⟨before, after, rfl⟩ := List.append_of_mem h
  exact ⟨⟨o, before.length, codeSize before, dataSize before⟩,
    mem_parts.mpr ⟨before, after, rfl, rfl, rfl, rfl⟩, rfl⟩

/-- The code and the data of a part are among those of all objects. -/
theorem length_le_of_mem_parts {objects : List Object} {q : Part} (hq : q ∈ parts objects) :
    q.codeBase + q.object.code.length ≤ (objects.flatMap (·.code)).length ∧
      q.dataBase + q.object.data.length ≤ (objects.flatMap (·.data)).length := by
  obtain ⟨before, after, hobjects, -, hcode, hdata⟩ := mem_parts.mp hq
  constructor
  · rw [List.length_flatMap, hobjects, hcode, codeSize]
    simp
  · rw [List.length_flatMap, hobjects, hdata, dataSize]
    simp

/-- The first part lies before the second one. -/
def Part.Before (q q' : Part) : Prop :=
  q.count < q'.count ∧ q.codeBase + q.object.code.length ≤ q'.codeBase

theorem partsFrom_pairwise : ∀ (xs : List Object) (n c d : Nat),
    (partsFrom n c d xs).Pairwise Part.Before
  | [], _, _, _ => .nil
  | x :: xs, n, c, d => by
    refine List.pairwise_cons.mpr ⟨fun q hq => ?_, partsFrom_pairwise xs _ _ _⟩
    obtain ⟨before, -, -, hcount, hcode, -⟩ := mem_partsFrom hq
    simp only [Part.Before]
    omega

/-- A part is known by its number. -/
theorem eq_of_count {objects : List Object} {q q' : Part} (hq : q ∈ parts objects)
    (hq' : q' ∈ parts objects) (h : q.count = q'.count) : q = q' := by
  by_contra hne
  have hpairwise : (parts objects).Pairwise fun q q' => q.count ≠ q'.count :=
    (partsFrom_pairwise objects 0 0 0).imp fun hb => Nat.ne_of_lt hb.1
  have : Std.Symm fun q q' : Part => q.count ≠ q'.count := ⟨fun _ _ => Ne.symm⟩
  exact hpairwise.forall hq hq' hne h

/-! ### The state of merging -/

/-- The names of the exports are those that have owners, each once. -/
structure Owned (st : State) : Prop where
  owners : st.owners.map (·.1) = st.exports.map (·.name)
  nodup : (st.exports.map (·.name)).Nodup

theorem addExports_eq_ok {object : String} {c d : Nat} {st st' : State} {xs : List ObjectSymbol}
    (hst : Owned st) (h : xs.foldlM (addExport object c d) st = .ok st') :
    Owned st' ∧ ∃ owners, st' = { st with
      exports := (xs.map (rebase c d)).reverse ++ st.exports, owners } := by
  refine Steps.foldlM_induction (fun done t => Owned t ∧ ∃ owners, t = { st with
    exports := (done.map (rebase c d)).reverse ++ st.exports, owners })
    ⟨hst, st.owners, rfl⟩ ?_ h
  rintro done x rest t t' - ⟨ht, owners, rfl⟩ hstep
  unfold addExport at hstep
  split at hstep
  · cases hstep
  · rename_i hnone
    cases hstep
    refine ⟨⟨?_, ?_⟩, (x.name, object) :: owners, by simp⟩
    · simp only [List.map_cons, ht.owners]
      rfl
    · rw [List.map_cons, List.nodup_cons]
      refine ⟨?_, ht.nodup⟩
      rw [← ht.owners]
      intro hmem
      obtain ⟨⟨name, owner⟩, hpair, hname⟩ := List.mem_map.mp hmem
      have := List.lookup_eq_none_iff.mp hnone _ hpair
      simp only [bne_iff_ne] at this
      exact this hname.symm

theorem addEntry_eq_ok {o : Object} {c : Nat} {st st' : State} (h : addEntry o c st = .ok st') :
    ∃ entry, st' = { st with entry } ∧
      entry.toList.map (·.1) =
        st.entry.toList.map (·.1) ++ (o.entry.map (· + (c : Int))).toList := by
  unfold addEntry at h
  split at h
  · rename_i hnone
    cases h
    exact ⟨st.entry, rfl, by simp [hnone]⟩
  · cases h
  · rename_i e hsome hnone
    cases h
    exact ⟨_, rfl, by simp [hsome, hnone]⟩

/-- The ids of libraries come from the objects. -/
theorem addLibrary_ids {P : String → Prop} {d d' : Dict (Option String)} {ref : LibraryRef}
    (hd : ∀ x ∈ d, ∀ id ∈ x.2, P id) (href : ∀ id ∈ ref.id, P id)
    (h : addLibrary d ref = .ok d') : ∀ x ∈ d', ∀ id ∈ x.2, P id := by
  have hput : ∀ value : Option String, (∀ id ∈ value, P id) →
      ∀ x ∈ d.put ref.name value, ∀ id ∈ x.2, P id := by
    intro value hvalue x hx
    rcases Dict.mem_put hx with rfl | hx
    · exact hvalue
    · exact hd x hx
  have hfirst : ∀ first, (d.get? ref.name).join = some first → P first := by
    intro first hget
    rcases hd' : d.get? ref.name with _ | value
    · simp [hd'] at hget
    · rw [hd', Option.join_some] at hget
      exact hd _ (Dict.mem_of_get? hd') first hget
  unfold addLibrary at h
  split at h
  · rename_i first second hget hid
    obtain ⟨_, -, h⟩ := Steps.bind_eq_ok.mp h
    obtain ⟨_, -, h⟩ := Steps.bind_eq_ok.mp h
    split_ifs at h
    · cases h
    · cases h
      exact hput _ (by simpa using hfirst first hget)
  · rename_i first hget hid
    cases h
    exact hput _ (by simpa using hfirst first hget)
  · cases h
    exact hput _ href

/-- **The state after some objects.** -/
structure State.Of (done : List Object) (st : State) : Prop where
  owned : Owned st
  count : st.count = done.length
  code : st.code = done.flatMap (·.code)
  data : st.data = done.flatMap (·.data)
  mask : st.mask = done.foldl (fun mask o => mask.union o.mask) 0
  entry : st.entry.toList.map (·.1) = (parts done).filterMap Part.entry?
  exports : st.exports.reverse = (parts done).flatMap Part.exports
  symbols : st.symbols.reverse = (parts done).flatMap Part.symbols
  relocations : st.relocations.reverse = (parts done).flatMap Part.relocations
  libraries : ∀ x ∈ st.libraries, ∀ id ∈ x.2, ∃ o ∈ done, ∃ ref ∈ o.libraries, ref.id = some id

theorem State.of_nil : State.Of [] {} :=
  ⟨⟨rfl, List.nodup_nil⟩, rfl, rfl, rfl, rfl, rfl, rfl, rfl, rfl, by simp⟩

/-- The part that the next object becomes. -/
theorem parts_concat (done : List Object) (o : Object) :
    parts (done ++ [o]) = parts done ++ [⟨o, done.length, codeSize done, dataSize done⟩] :=
  parts_append done [o]

/-- **One object more.** -/
theorem addObject_of {done : List Object} {o : Object} {st st' : State} (hst : st.Of done)
    (h : addObject st o = .ok st') : st'.Of (done ++ [o]) := by
  obtain ⟨st1, h1, h⟩ := Steps.bind_eq_ok.mp h
  obtain ⟨st2, h2, h⟩ := Steps.bind_eq_ok.mp h
  obtain ⟨libraries, h3, h⟩ := Steps.bind_eq_ok.mp h
  obtain ⟨howned, owners, rfl⟩ := addExports_eq_ok hst.owned (Steps.mapError_ok_iff.mp h1)
  obtain ⟨entry, rfl, hentry⟩ := addEntry_eq_ok (Steps.mapError_ok_iff.mp h2)
  cases h
  have hcode : st.code.length = codeSize done := by rw [hst.code, List.length_flatMap]; rfl
  have hdata : st.data.length = dataSize done := by rw [hst.data, List.length_flatMap]; rfl
  refine ⟨⟨howned.owners, howned.nodup⟩, ?_, ?_, ?_, ?_, ?_, ?_, ?_, ?_, ?_⟩
  · simp [hst.count]
  · simp [hst.code]
  · simp [hst.data]
  · simp [hst.mask]
  · simp only [hentry, hst.entry, parts_concat, List.filterMap_append, hcode]
    rcases ho : o.entry <;> simp [Part.entry?, ho]
  · simp [parts_concat, ← hst.exports, hcode, hdata, Part.exports]
  · simp [parts_concat, ← hst.symbols, hcode, hdata, hst.count, Part.symbols]
  · simp [parts_concat, ← hst.relocations, hcode, hst.count, Part.relocations]
  · refine Steps.foldlM_induction (fun _ d => ∀ x ∈ d, ∀ id ∈ x.2,
      ∃ o' ∈ done ++ [o], ∃ ref ∈ o'.libraries, ref.id = some id) ?_ ?_ h3
    · intro x hx id hid
      obtain ⟨o', ho', ref, href, hrid⟩ := hst.libraries x hx id hid
      exact ⟨o', List.mem_append_left _ ho', ref, href, hrid⟩
    · intro before ref after d d' hsplit hd hstep
      refine addLibrary_ids hd (fun id hid => ?_) hstep
      exact ⟨o, by simp, ref, by rw [hsplit]; simp, hid⟩

/-- **All objects.** -/
theorem State.of_foldlM {objects : List Object} {st : State}
    (h : objects.foldlM addObject {} = .ok st) : st.Of objects :=
  Steps.foldlM_induction (fun done t => State.Of done t) State.of_nil
    (fun _ _ _ _ _ _ ht hstep => addObject_of ht hstep) h

/-- **What merged objects are made of.** -/
structure Merged (objects : List Object) (m : Object) : Prop where
  code : m.code = objects.flatMap (·.code)
  data : m.data = objects.flatMap (·.data)
  mask : m.mask = objects.foldl (fun mask o => mask.union o.mask) 0
  entry : m.entry.toList = (parts objects).filterMap Part.entry?
  exports : m.exports = (parts objects).flatMap Part.exports
  nodup : (m.exports.map (·.name)).Nodup
  symbols : m.symbols = (parts objects).flatMap Part.symbols
  relocations : m.relocations = Analysis.sortRelocations ((parts objects).flatMap Part.relocations)
  libraries : ∀ ref ∈ m.libraries, ∀ id ∈ ref.id,
    ∃ o ∈ objects, ∃ ref' ∈ o.libraries, ref'.id = some id
  length_code : m.code.length ≤ maxSegment
  length_data : m.data.length ≤ maxSegment
  reach : ∀ x ∈ m.exports ++ m.symbols, x.value ≤ maxOffset

theorem checkSizes_eq_ok {st : State} : checkSizes st = .ok () ↔
    st.code.length ≤ maxSegment ∧ st.data.length ≤ maxSegment ∧
      ∀ x ∈ st.exports.reverse ++ st.symbols.reverse, x.value ≤ maxOffset := by
  have hreach : (st.exports.reverse ++ st.symbols.reverse).find?
      (fun x => (maxOffset : Int) < x.value) = none ↔
      ∀ x ∈ st.exports.reverse ++ st.symbols.reverse, x.value ≤ maxOffset := by
    rw [List.find?_eq_none]
    refine forall₂_congr fun x _ => ?_
    rw [decide_eq_true_eq, Int.not_lt]
  unfold checkSizes
  rw [← hreach]
  split_ifs with hsize
  · simp only [Bool.or_eq_true, decide_eq_true_eq] at hsize
    refine ⟨(fun h => by cases h), fun h => ?_⟩
    omega
  · simp only [Bool.or_eq_true, decide_eq_true_eq, not_or, Nat.not_lt] at hsize
    split
    · rename_i x hx
      refine ⟨(fun h => by cases h), fun h => ?_⟩
      cases hx.symm.trans h.2.2
    · rename_i hnone
      exact ⟨fun _ => ⟨hsize.1, hsize.2, hnone⟩, fun _ => rfl⟩

theorem mergeAll_merged {first : Object} {others : List Object} {name : Option String}
    {m : Object} (h : mergeAll first others name = .ok m) : Merged (first :: others) m := by
  obtain ⟨st, hst, h⟩ := Steps.bind_eq_ok.mp h
  obtain ⟨_, hsizes, h⟩ := Steps.bind_eq_ok.mp h
  cases h
  have hof := State.of_foldlM hst
  obtain ⟨hcode, hdata, hreach⟩ := checkSizes_eq_ok.mp hsizes
  refine ⟨hof.code, hof.data, hof.mask, ?_, hof.exports, ?_, hof.symbols, ?_, ?_, hcode, hdata,
    hreach⟩
  · rw [← hof.entry, State.object, Option.toList_map]
  · rw [State.object, List.map_reverse, List.nodup_reverse]
    exact hof.owned.nodup
  · rw [← hof.relocations]
    rfl
  · intro ref href id hid
    obtain ⟨x, hx, rfl⟩ := List.mem_map.mp href
    exact hof.libraries x hx id hid

/-- Merging leaves a single object without a new name as it is. -/
theorem mergeObjects_cases {objects : List Object} {name : Option String} {m : Object}
    (h : mergeObjects objects name = .ok m) :
    (objects = [m] ∧ name = none) ∨ (¬ (objects.length = 1 ∧ name = none) ∧ Merged objects m) := by
  unfold mergeObjects at h
  split at h
  · cases h
  · cases h
    exact Or.inl ⟨rfl, rfl⟩
  · rename_i hnot
    refine Or.inr ⟨?_, mergeAll_merged h⟩
    rintro ⟨hlen, rfl⟩
    exact hnot rfl (List.length_eq_zero_iff.mp (Nat.succ.inj hlen))

end AluVM.Merge
