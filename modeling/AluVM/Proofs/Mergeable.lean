import AluVM.Proofs.MergedObjects

/-! # When objects can be merged

Merging looks at each object in turn: its exports and its entry must be new, and what it fixes a
local name to must agree with what was fixed before. Afterwards the sizes are checked. So there are
few ways to fail, and together they are the negation of `Mergeable`, a condition on the objects as a
whole.

The tables that merging keeps are described by the objects that are done: the owners by
`exportedNames`, the ids by the references of all objects (`Pinned`), of which the first id of a
name wins (`pinned`). `addLibrary_pinned` and `addObject_outcome` are the steps, each with what it
may fail with (`Stops`), and `addObjects_outcome` is the run. -/

namespace AluVM.Merge

open Analysis Steps

/-! ### Ids of local names -/

/-- The first id that references fix a local name to. -/
def pinned (refs : List LibraryRef) (name : String) : Option String :=
  refs.findSome? fun ref => if ref.name = name then ref.id else none

/-- Two ids that are fixed for one local name have the same normal form. -/
def PinsAgree (refs : List LibraryRef) : Prop :=
  ∀ ref ∈ refs, ∀ ref' ∈ refs, ref.name = ref'.name → ∀ id ∈ ref.id, ∀ id' ∈ ref'.id,
    ContentId.normalize id = ContentId.normalize id'

section Pins
variable {refs refs' : List LibraryRef} {ref : LibraryRef} {name id : String}

theorem pinned_append (refs refs' : List LibraryRef) (name : String) :
    pinned (refs ++ refs') name = (pinned refs name).or (pinned refs' name) :=
  List.findSome?_append

theorem pinned_singleton (ref : LibraryRef) (name : String) :
    pinned [ref] name = if ref.name = name then ref.id else none := by
  simp [pinned]

theorem mem_of_pinned (h : pinned refs name = some id) :
    ∃ ref ∈ refs, ref.name = name ∧ ref.id = some id := by
  obtain ⟨ref, href, hid⟩ := List.exists_of_findSome?_eq_some h
  split_ifs at hid with hname
  exact ⟨ref, href, hname, hid⟩

theorem id_of_not_pinned (h : pinned refs name = none) (href : ref ∈ refs)
    (hname : ref.name = name) : ref.id = none := by
  simpa [hname] using List.findSome?_eq_none_iff.mp h ref href

/-- An id has the normal form of the first id of its name. -/
theorem PinsAgree.exists_pinned (h : PinsAgree refs) (href : ref ∈ refs) (hid : id ∈ ref.id) :
    ∃ first ∈ pinned refs ref.name, ContentId.normalize id = ContentId.normalize first := by
  rcases hfirst : pinned refs ref.name with _ | first
  · rw [id_of_not_pinned hfirst href rfl] at hid
    cases hid
  · obtain ⟨ref', href', hname, hid'⟩ := mem_of_pinned hfirst
    exact ⟨first, rfl, h ref href ref' href' hname.symm id hid first hid'⟩

theorem PinsAgree.mono (h : PinsAgree refs') (hsub : refs ⊆ refs') : PinsAgree refs :=
  fun ref href ref' href' => h ref (hsub href) ref' (hsub href')

/-- References agree with others if they agree among themselves and the first ids of each name
do. -/
theorem pinsAgree_append : PinsAgree (refs ++ refs') ↔ PinsAgree refs ∧ PinsAgree refs' ∧
    ∀ name, ∀ first ∈ pinned refs name, ∀ second ∈ pinned refs' name,
      ContentId.normalize first = ContentId.normalize second := by
  constructor
  · intro h
    refine ⟨h.mono (List.subset_append_left _ _), h.mono (List.subset_append_right _ _), ?_⟩
    intro name first hfirst second hsecond
    obtain ⟨ref, href, hname, hid⟩ := mem_of_pinned hfirst
    obtain ⟨ref', href', hname', hid'⟩ := mem_of_pinned hsecond
    exact h ref (List.mem_append_left _ href) ref' (List.mem_append_right _ href')
      (hname.trans hname'.symm) first hid second hid'
  · rintro ⟨h, h', hcross⟩
    -- An id of a name has the normal form of the first one of its own list.
    have hmixed : ∀ ref ∈ refs, ∀ ref' ∈ refs', ref.name = ref'.name → ∀ id ∈ ref.id,
        ∀ id' ∈ ref'.id, ContentId.normalize id = ContentId.normalize id' := by
      intro ref href ref' href' hname id hid id' hid'
      obtain ⟨first, hfirst, hsame⟩ := h.exists_pinned href hid
      obtain ⟨second, hsecond, hsame'⟩ := h'.exists_pinned href' hid'
      rw [hsame, hsame', hcross ref.name first hfirst second (hname ▸ hsecond)]
    intro r hr r' hr' hname id hid id' hid'
    rcases List.mem_append.mp hr with hr | hr <;> rcases List.mem_append.mp hr' with hr' | hr'
    · exact h r hr r' hr' hname id hid id' hid'
    · exact hmixed r hr r' hr' hname id hid id' hid'
    · exact (hmixed r' hr' r hr hname.symm id' hid' id hid).symm
    · exact h' r hr r' hr' hname id hid id' hid'

/-- One reference more agrees with the others if it agrees with the first id of its name. -/
theorem pinsAgree_concat : PinsAgree (refs ++ [ref]) ↔ PinsAgree refs ∧
    ∀ first ∈ pinned refs ref.name, ∀ second ∈ ref.id,
      ContentId.normalize first = ContentId.normalize second := by
  have hone : PinsAgree [ref] := by
    intro r hr r' hr' _ id hid id' hid'
    cases List.mem_singleton.mp hr
    cases List.mem_singleton.mp hr'
    rw [Option.mem_unique hid hid']
  rw [pinsAgree_append]
  refine and_congr_right fun _ => ⟨fun h => ?_, fun h => ⟨hone, fun name first hfirst => ?_⟩⟩
  · simpa [pinned_singleton] using h.2 ref.name
  · rw [pinned_singleton]
    split_ifs with hname
    · subst hname
      exact h first hfirst
    · simp

/-- All ids of references are ids. -/
def IdsOnly (refs : List LibraryRef) : Prop := ∀ ref ∈ refs, ∀ id ∈ ref.id, ContentId.isId id = true

/-- **The ids that were fixed so far**, by the references that are done. -/
structure Pinned (refs : List LibraryRef) (d : Dict (Option String)) : Prop where
  get : ∀ name, (d.get? name).join = pinned refs name
  keys : (d.map (·.1)).Nodup
  agree : PinsAgree refs

theorem Pinned.nil : Pinned [] [] := ⟨fun _ => rfl, .nil, by simp [PinsAgree]⟩

/-- A reference is added, or its id differs from the one that was fixed before. -/
theorem addLibrary_outcome {d : Dict (Option String)}
    (hfirst : ∀ id ∈ (d.get? ref.name).join, ContentId.isId id = true)
    (hsecond : ∀ id ∈ ref.id, ContentId.isId id = true) :
    Yields (fun d' => d' = d.put ref.name ((d.get? ref.name).join.or ref.id) ∧
        ∀ first ∈ (d.get? ref.name).join, ∀ second ∈ ref.id,
          ContentId.normalize first = ContentId.normalize second)
      (fun _ => ∃ first ∈ (d.get? ref.name).join, ∃ second ∈ ref.id,
        ContentId.normalize first ≠ ContentId.normalize second) (addLibrary d ref) := by
  unfold addLibrary
  split
  · rename_i first second hget hid
    obtain ⟨normal, hnormal⟩ := ContentId.normalize_of_isId (hfirst first hget)
    obtain ⟨normal', hnormal'⟩ := ContentId.normalize_of_isId (hsecond second hid)
    simp only [hget, hid, hnormal, hnormal', Except.mapError, bind, Except.bind, ne_eq]
    split_ifs with hsame
    · refine ⟨rfl, ?_⟩
      rintro _ ⟨⟩ _ ⟨⟩
      rw [hnormal, hnormal', hsame]
    · exact ⟨first, rfl, second, rfl, by simpa [hnormal, hnormal'] using hsame⟩
  · rename_i first hget hid
    exact ⟨by rw [hget]; rfl, fun _ _ _ h => by rw [hid] at h; cases h⟩
  · rename_i hget
    exact ⟨by rw [hget]; rfl, fun _ h => by rw [hget] at h; cases h⟩

/-- **One reference more.** -/
theorem addLibrary_pinned {d : Dict (Option String)} (hd : Pinned refs d)
    (hids : IdsOnly (refs ++ [ref])) : Yields (Pinned (refs ++ [ref]))
      (fun _ => ¬ PinsAgree (refs ++ [ref])) (addLibrary d ref) := by
  have hfirst : ∀ id ∈ (d.get? ref.name).join, ContentId.isId id = true := by
    intro id hid
    rw [hd.get] at hid
    obtain ⟨ref', href', -, hid'⟩ := mem_of_pinned hid
    exact hids ref' (List.mem_append_left _ href') id hid'
  refine (addLibrary_outcome hfirst (hids ref (by simp))).imp ?_ ?_
  · rintro _ ⟨rfl, hsame⟩
    rw [hd.get] at hsame ⊢
    refine ⟨fun name => ?_, Dict.nodup_put hd.keys, pinsAgree_concat.mpr ⟨hd.agree, hsame⟩⟩
    rw [Dict.get?_put_eq, pinned_append, pinned_singleton]
    by_cases hname : name = ref.name
    · rw [if_pos hname, if_pos hname.symm, hname]
      rfl
    · rw [if_neg hname, if_neg (Ne.symm hname), hd.get, Option.or_none]
  · rintro _ ⟨first, hfirst, second, hsecond, hne⟩ hagree
    rw [hd.get] at hfirst
    exact hne ((pinsAgree_concat.mp hagree).2 first hfirst second hsecond)

theorem addLibraries_pinned {d : Dict (Option String)} (hd : Pinned refs d)
    (hids : IdsOnly (refs ++ refs')) : Yields (Pinned (refs ++ refs'))
      (fun _ => ¬ PinsAgree (refs ++ refs')) (refs'.foldlM addLibrary d) := by
  refine Yields.foldlM_induction (fun done d => Pinned (refs ++ done) d) (by simpa using hd) ?_
  intro done ref rest d hsplit hd
  have hsub : refs ++ done ++ [ref] ⊆ refs ++ refs' := by
    rw [hsplit]
    intro x hx
    simp only [List.mem_append, List.mem_cons, List.not_mem_nil, or_false] at hx ⊢
    tauto
  rw [← List.append_assoc]
  refine (addLibrary_pinned hd fun r hr => hids r (hsub hr)).imp (fun _ h => h) ?_
  exact fun _ hnot hagree => hnot (hagree.mono hsub)

end Pins

/-! ### Exports and entries -/

/-- The names that objects export. -/
def exportedNames (objects : List Object) : List String :=
  objects.flatMap fun o => o.exports.map (·.name)

/-- The entries of objects. -/
def entries (objects : List Object) : List Int := objects.filterMap (·.entry)

/-- The references of objects to libraries. -/
def references (objects : List Object) : List LibraryRef := objects.flatMap (·.libraries)

/-- A name that is exported twice, or the name for entries if there are two. -/
inductive Duplicate (objects : List Object) : String → Prop where
  | exported {name : String} (h : 2 ≤ (exportedNames objects).count name) : Duplicate objects name
  | entry (h : 2 ≤ (entries objects).length) : Duplicate objects ".MAIN"

/-- **Why the objects cannot be put together**: a name is there twice, or ids differ. -/
def Stops (objects : List Object) (e : Failure) : Prop :=
  (∃ name owners, Duplicate objects name ∧ e = .link (.duplicateExport name owners)) ∨
    ¬ PinsAgree (references objects)

section Exports
variable {objects done rest : List Object} {o : Object} {st : State}

theorem Duplicate.append {name : String} (h : Duplicate done name) :
    Duplicate (done ++ rest) name := by
  cases h with
  | exported h =>
    refine .exported (h.trans ?_)
    rw [exportedNames, exportedNames, List.flatMap_append, List.count_append]
    exact Nat.le_add_right _ _
  | entry h =>
    refine .entry (h.trans ?_)
    rw [entries, entries, List.filterMap_append, List.length_append]
    exact Nat.le_add_right _ _

theorem Stops.append {e : Failure} (h : Stops done e) : Stops (done ++ rest) e := by
  rcases h with ⟨name, owners, hduplicate, rfl⟩ | hpins
  · exact Or.inl ⟨name, owners, hduplicate.append, rfl⟩
  · refine Or.inr fun hagree => hpins (hagree.mono ?_)
    rw [references, references, List.flatMap_append]
    exact List.subset_append_left _ _

theorem map_object_partsFrom : ∀ (xs : List Object) (n c d : Nat),
    (partsFrom n c d xs).map (·.object) = xs
  | [], _, _, _ => rfl
  | x :: xs, n, c, d => by rw [partsFrom, List.map_cons, map_object_partsFrom xs]

theorem map_object_parts (objects : List Object) : (parts objects).map (·.object) = objects :=
  map_object_partsFrom objects 0 0 0

/-- Moving an object does not change what it exports. -/
theorem exportedNames_eq (objects : List Object) :
    exportedNames objects = ((parts objects).flatMap Part.exports).map (·.name) := by
  have hpart : ∀ q : Part, q.exports.map (·.name) = q.object.exports.map (·.name) := by
    intro q
    rw [Part.exports, List.map_map]
    rfl
  calc exportedNames objects
      = ((parts objects).map (·.object)).flatMap fun o => o.exports.map (·.name) := by
        rw [map_object_parts, exportedNames]
    _ = (parts objects).flatMap fun q => q.exports.map (·.name) := by
        rw [List.flatMap_map]
        exact List.flatMap_congr fun q _ => (hpart q).symm
    _ = ((parts objects).flatMap Part.exports).map (·.name) := by rw [List.map_flatMap]

theorem length_entries (objects : List Object) :
    (entries objects).length = ((parts objects).filterMap Part.entry?).length := by
  have hcount : ∀ q : Part, q.entry?.isSome = q.object.entry.isSome := by
    intro q
    rw [Part.entry?, Option.isSome_map]
  calc (entries objects).length
      = ((parts objects).map (·.object)).countP fun o => o.entry.isSome := by
        rw [map_object_parts, entries, List.length_filterMap_eq_countP]
    _ = (parts objects).countP fun q => q.entry?.isSome := by
        rw [List.countP_map]
        simp only [hcount]
        rfl
    _ = ((parts objects).filterMap Part.entry?).length := by
        rw [List.length_filterMap_eq_countP]

theorem State.Of.names (h : st.Of done) :
    (st.exports.map (·.name)).reverse = exportedNames done := by
  rw [← List.map_reverse, h.exports, exportedNames_eq]

theorem State.Of.length_entry (h : st.Of done) :
    st.entry.toList.length = (entries done).length := by
  rw [length_entries, ← h.entry, List.length_map]

/-- Exports are added, or one of them is there already. -/
theorem addExports_outcome {object : String} {c d : Nat} {xs : List ObjectSymbol} (hst : Owned st) :
    Yields (fun st' => Owned st' ∧ ∃ owners, st' = { st with
        exports := (xs.map (rebase c d)).reverse ++ st.exports, owners })
      (fun e => ∃ name owners, e = .duplicateExport name owners ∧
        2 ≤ ((st.exports.map (·.name)).reverse ++ xs.map (·.name)).count name)
      (xs.foldlM (addExport object c d) st) := by
  refine Yields.of_ok (P := fun _ => True) ?_ fun _ => addExports_eq_ok hst
  refine (Yields.foldlM_induction (fun done t => Owned t ∧
    t.exports.map (·.name) = (done.map (·.name)).reverse ++ st.exports.map (·.name))
    ⟨hst, rfl⟩ ?_).imp (fun _ _ => trivial) fun _ he => he
  rintro done x rest t hsplit ⟨ht, hnames⟩
  have hstep : Yields (fun _ => True) (fun e => ∃ owners, e = .duplicateExport x.name owners ∧
      x.name ∈ t.exports.map (·.name)) (addExport object c d t x) := by
    unfold addExport
    split
    · rename_i owner howner
      refine ⟨_, rfl, ?_⟩
      rw [← ht.owners]
      exact List.mem_map.mpr ⟨_, Dict.mem_of_get? howner, rfl⟩
    · trivial
  refine (hstep.of_ok (Q := fun t' => Owned t' ∧ t'.exports.map (·.name) =
    ((done ++ [x]).map (·.name)).reverse ++ st.exports.map (·.name)) ?_).imp (fun _ h => h) ?_
  · intro t' ht'
    have hone : [x].foldlM (addExport object c d) t = .ok t' := by simpa using ht'
    obtain ⟨howned, owners, rfl⟩ := addExports_eq_ok ht hone
    refine ⟨howned, ?_⟩
    simp [hnames, rebase]
  · rintro _ ⟨owners, rfl, hmem⟩
    refine ⟨x.name, owners, rfl, ?_⟩
    have hone : 1 ≤ ((st.exports.map (·.name)).reverse ++ done.map (·.name)).count x.name := by
      rw [List.one_le_count_iff]
      rw [hnames] at hmem
      simpa [or_comm] using hmem
    rw [hsplit, List.map_append, List.map_cons, ← List.append_assoc, List.count_append,
      List.count_cons_self]
    omega

/-- An entry is added, or there is one already. -/
theorem addEntry_outcome {c : Nat} :
    Yields (fun st' => ∃ entry, st' = { st with entry })
      (fun e => ∃ owners, e = .duplicateExport ".MAIN" owners ∧
        2 ≤ st.entry.toList.length + o.entry.toList.length) (addEntry o c st) := by
  unfold addEntry
  split
  · exact ⟨st.entry, rfl⟩
  · rename_i e _ owner hfirst hsecond
    exact ⟨_, rfl, by simp [*]⟩
  · exact ⟨_, rfl⟩

/-- **One object more**, or what is in its way. -/
theorem addObject_outcome (hst : st.Of done) (hpins : Pinned (references done) st.libraries)
    (hids : IdsOnly (references (done ++ [o]))) :
    Yields (fun st' => st'.Of (done ++ [o]) ∧ Pinned (references (done ++ [o])) st'.libraries)
      (Stops (done ++ [o])) (addObject st o) := by
  have hrefs : references (done ++ [o]) = references done ++ o.libraries := by
    simp [references]
  have houtcome : Yields (fun st' => Pinned (references (done ++ [o])) st'.libraries)
      (Stops (done ++ [o])) (addObject st o) := by
    refine (Yields.mapError ((addExports_outcome hst.owned).imp (fun _ h => h) ?_)).bind ?_
    · rintro _ ⟨name, owners, rfl, hcount⟩
      refine Or.inl ⟨name, owners, .exported ?_, rfl⟩
      rw [hst.names] at hcount
      simpa [exportedNames] using hcount
    · rintro _ ⟨-, owners, rfl⟩
      refine (Yields.mapError (addEntry_outcome.imp (fun _ h => h) ?_)).bind ?_
      · rintro _ ⟨owners, rfl, hlength⟩
        refine Or.inl ⟨_, owners, .entry ?_, rfl⟩
        rw [show State.entry _ = st.entry from rfl, hst.length_entry] at hlength
        rcases ho : o.entry with _ | e <;> simp_all [entries]
      · rintro _ ⟨entry, rfl⟩
        rw [hrefs] at hids ⊢
        refine ((addLibraries_pinned hpins hids).imp (fun _ h => h) ?_).bind fun _ h => h
        intro _ hnot
        exact Or.inr (hrefs ▸ hnot)
  refine houtcome.of_ok fun st' h => ⟨addObject_of hst h, ?_⟩
  rw [h] at houtcome
  exact houtcome

/-- **All objects**, or what is in their way. -/
theorem addObjects_outcome (hids : IdsOnly (references objects)) :
    Yields (fun st => st.Of objects ∧ Pinned (references objects) st.libraries) (Stops objects)
      (objects.foldlM addObject {}) := by
  refine Yields.foldlM_induction (fun done (st : State) => st.Of done ∧
    Pinned (references done) st.libraries) ⟨State.of_nil, .nil⟩ ?_
  rintro done o rest st hsplit ⟨hst, hpins⟩
  have hobjects : objects = (done ++ [o]) ++ rest := by simp [hsplit]
  refine (addObject_outcome hst hpins ?_).imp (fun _ h => h) fun e he => hobjects ▸ he.append
  intro ref href
  refine hids ref ?_
  rw [hobjects, references, List.flatMap_append]
  exact List.mem_append_left _ href

end Exports

/-! ### Merging -/

/-- **Objects that can be merged**: no name is exported twice, there is at most one entry, the ids
of local names agree, code and data fit their segments, and every symbol stays in reach when it is
moved with its object. -/
structure Mergeable (objects : List Object) : Prop where
  exports : (exportedNames objects).Nodup
  entry : (entries objects).length ≤ 1
  pins : PinsAgree (references objects)
  code : codeSize objects ≤ maxSegment
  data : dataSize objects ≤ maxSegment
  reach : ∀ q ∈ parts objects, ∀ x ∈ q.object.exports ++ q.object.symbols,
    (rebase q.codeBase q.dataBase x).value ≤ maxOffset

section Merge
variable {objects : List Object} {first : Object} {others : List Object} {name : Option String}
  {st : State}

theorem exists_duplicate_iff : (∃ n, Duplicate objects n) ↔
    ¬ (exportedNames objects).Nodup ∨ 2 ≤ (entries objects).length := by
  rw [List.nodup_iff_count_le_one]
  push Not
  constructor
  · rintro ⟨n, hcount | hlength⟩
    · exact Or.inl ⟨n, hcount⟩
    · exact Or.inr hlength
  · rintro (⟨n, hcount⟩ | hlength)
    · exact ⟨n, .exported hcount⟩
    · exact ⟨_, .entry hlength⟩

theorem State.Of.nodup_names (h : st.Of objects) : (exportedNames objects).Nodup := by
  rw [← h.names, List.nodup_reverse]
  exact h.owned.nodup

theorem State.Of.length_entries_le (h : st.Of objects) : (entries objects).length ≤ 1 := by
  rw [← h.length_entry]
  exact Option.length_toList_le

theorem State.Of.checkSizes_eq_ok (h : st.Of objects) : checkSizes st = .ok () ↔
    codeSize objects ≤ maxSegment ∧ dataSize objects ≤ maxSegment ∧
      ∀ q ∈ parts objects, ∀ x ∈ q.object.exports ++ q.object.symbols,
        (rebase q.codeBase q.dataBase x).value ≤ maxOffset := by
  have hcode : st.code.length = codeSize objects := by rw [h.code, List.length_flatMap]; rfl
  have hdata : st.data.length = dataSize objects := by rw [h.data, List.length_flatMap]; rfl
  have hreach : (∀ x ∈ st.exports.reverse ++ st.symbols.reverse, x.value ≤ maxOffset) ↔
      ∀ q ∈ parts objects, ∀ x ∈ q.object.exports ++ q.object.symbols,
        (rebase q.codeBase q.dataBase x).value ≤ maxOffset := by
    rw [h.exports, h.symbols]
    simp only [List.forall_mem_append, List.forall_mem_flatMap, Part.exports, Part.symbols,
      List.forall_mem_map, forall_and, hide]
  rw [Merge.checkSizes_eq_ok, hcode, hdata, hreach]

/-- **Merging succeeds exactly for objects that can be merged.** -/
theorem mergeAll_isOk_iff (hids : IdsOnly (references (first :: others))) :
    (∃ m, mergeAll first others name = .ok m) ↔ Mergeable (first :: others) := by
  have houtcome := addObjects_outcome hids
  constructor
  · rintro ⟨m, h⟩
    obtain ⟨st, hst, h⟩ := bind_eq_ok.mp h
    obtain ⟨⟨⟩, hsizes, -⟩ := bind_eq_ok.mp h
    rw [hst] at houtcome
    obtain ⟨hof, hpins⟩ := houtcome
    obtain ⟨hcode, hdata, hreach⟩ := hof.checkSizes_eq_ok.mp hsizes
    exact ⟨hof.nodup_names, hof.length_entries_le, hpins.agree, hcode, hdata, hreach⟩
  · intro h
    rcases hst : (first :: others).foldlM addObject {} with e | st
    · rw [hst] at houtcome
      rcases houtcome with ⟨n, -, hduplicate, -⟩ | hpins
      · rcases exists_duplicate_iff.mp ⟨n, hduplicate⟩ with hnames | hlength
        · exact absurd h.exports hnames
        · exact absurd h.entry (Nat.not_le.mpr hlength)
      · exact absurd h.pins hpins
    · rw [hst] at houtcome
      have hsizes := houtcome.1.checkSizes_eq_ok.mpr ⟨h.code, h.data, h.reach⟩
      exact ⟨_, bind_eq_ok.mpr ⟨st, hst, bind_eq_ok.mpr ⟨(), hsizes, rfl⟩⟩⟩

/-- The local names of merged objects are fixed to the first ids of the objects. -/
theorem mergeAll_pinned (hids : IdsOnly (references (first :: others))) {m : Object}
    (h : mergeAll first others name = .ok m) : m.name = mergedName first name ∧
      ∃ d, Pinned (references (first :: others)) d ∧
        m.libraries = d.map fun x => { name := x.1, id := x.2 } := by
  obtain ⟨st, hst, h⟩ := bind_eq_ok.mp h
  obtain ⟨_, -, h⟩ := bind_eq_ok.mp h
  have houtcome := addObjects_outcome hids
  rw [hst] at houtcome
  cases h
  exact ⟨rfl, st.libraries, houtcome.2, rfl⟩

/-- A name that is there twice is reported if nothing is wrong with the ids. -/
theorem mergeAll_duplicate (hids : IdsOnly (references (first :: others)))
    (hpins : PinsAgree (references (first :: others)))
    (h : ¬ (exportedNames (first :: others)).Nodup ∨ 2 ≤ (entries (first :: others)).length) :
    ∃ n owners, Duplicate (first :: others) n ∧
      mergeAll first others name = .error (.link (.duplicateExport n owners)) := by
  have houtcome := addObjects_outcome hids
  rcases hst : (first :: others).foldlM addObject {} with e | st
  · rw [hst] at houtcome
    rcases houtcome with ⟨n, owners, hduplicate, rfl⟩ | hconflict
    · refine ⟨n, owners, hduplicate, ?_⟩
      rw [mergeAll, hst]
      rfl
    · exact absurd hpins hconflict
  · rw [hst] at houtcome
    rcases h with hnames | hlength
    · exact absurd houtcome.1.nodup_names hnames
    · exact absurd houtcome.1.length_entries_le (Nat.not_le.mpr hlength)

theorem idsOnly_of_sources (h : ∀ o ∈ objects, FromSource o) : IdsOnly (references objects) := by
  intro ref href
  obtain ⟨o, ho, href⟩ := List.mem_flatMap.mp href
  obtain ⟨p, a, hassembled⟩ := (h o ho).assembled
  exact hassembled.wellFormed.pins ref href

theorem mergeObjects_eq_mergeAll (h : 2 ≤ (first :: others).length ∨ name.isSome = true) :
    mergeObjects (first :: others) name = mergeAll first others name := by
  rcases others with _ | ⟨o, others⟩
  · rcases name with _ | n
    · simp at h
    · rfl
  · rfl

end Merge

/-- **Merging fails exactly when it must.** Objects of accepted programs, several of them or with a
new name, are merged if and only if they can be. If the ids of local names agree, but a name is
exported twice or there are two entries, then this is reported. -/
theorem mergeObjects_ok_iff_mergeable {objects : List Object} {name : Option String}
    (hne : objects ≠ []) (hsources : ∀ o ∈ objects, FromSource o)
    (hseveral : 2 ≤ objects.length ∨ name.isSome = true) :
    ((∃ m, mergeObjects objects name = .ok m) ↔ Mergeable objects) ∧
    (PinsAgree (references objects) →
      ¬ (exportedNames objects).Nodup ∨ 2 ≤ (entries objects).length →
      ∃ n owners, Duplicate objects n ∧
        mergeObjects objects name = .error (.link (.duplicateExport n owners))) := by
  obtain ⟨first, others, rfl⟩ := List.exists_cons_of_ne_nil hne
  have hids := idsOnly_of_sources hsources
  rw [mergeObjects_eq_mergeAll hseveral]
  exact ⟨mergeAll_isOk_iff hids, mergeAll_duplicate hids⟩

theorem mergeObjects_ok_iff_of_head_and_tail : ∃ x y z, objectOf? headSource = some x ∧
    objectOf? tailSource = some y ∧ objectOf? plainSource = some z ∧ Mergeable [x, y] ∧
    ¬ Mergeable [z, y, z] ∧ ∃ n owners, Duplicate [z, y, z] n ∧
      mergeObjects [z, y, z] = .error (.link (.duplicateExport n owners)) := by
  obtain ⟨x, y, merged, hx, hy, hmerge, -⟩ := head_tail_merged
  have hplain : ((objectOf? plainSource).filter fun z =>
      z.exports.map (·.name) = ["bar"] && z.libraries.isEmpty).isSome := by decide +kernel
  have htail : (objectOf? tailSource).all fun y => y.libraries.isEmpty := by decide +kernel
  obtain ⟨z, hz⟩ := Option.isSome_iff_exists.mp hplain
  obtain ⟨hz, hbar⟩ := Option.filter_eq_some_iff.mp hz
  simp only [Bool.and_eq_true, decide_eq_true_eq, List.isEmpty_iff] at hbar
  have hlibraries : y.libraries = [] := by simpa [hy] using htail
  have htwice : ¬ (exportedNames [z, y, z]).Nodup := by simp [exportedNames, hbar.1]
  have hsources : ∀ o ∈ [z, y, z], FromSource o := by
    have hz := fromSource_of_objectOf? hz
    simp only [List.forall_mem_cons]
    exact ⟨hz, fromSource_of_objectOf? hy, hz, by simp⟩
  have hpins : PinsAgree (references [z, y, z]) := by
    simp [references, hbar.2, hlibraries, PinsAgree]
  obtain ⟨-, hduplicate⟩ := mergeObjects_ok_iff_mergeable (by simp) hsources (Or.inl (by simp))
  exact ⟨x, y, z, hx, hy, hz,
    (mergeObjects_ok_iff_mergeable (by simp) (fromSource_pair hx hy) (Or.inl (by simp))).1.mp
      ⟨merged, hmerge⟩,
    fun h => htwice h.exports, hduplicate hpins (Or.inl htwice)⟩

end AluVM.Merge
