import AluVM.Proofs.Demands
import AluVM.Proofs.Mergeable

/-! # Merging in groups

Objects may be merged all at once, or first in two groups and then once more. The second way gives
local symbols two numbers and moves them in two steps, and it checks the groups before the whole.
The libraries are the same nevertheless, or both ways fail.

What a list of objects comes to when it is merged is read off its parts, without the names of local
symbols. `SameParts` says that two lists come to the same. It is a congruence for `++`
(`SameParts.append`), and a list comes to the same as the one object that it is merged to
(`Grouped.sameParts`). From there both halves follow: of lists that come to the same, one can be
merged if and only if the other can (`SameParts.mergeable_iff`), and the linker cannot tell the
results apart (`SameParts.alike`).

The step that needs an argument is `Merged.demand_move`: a field of a merged object finds what it
found in its own object, where the symbols that are not exported come first (`scope`). -/

namespace AluVM.Merge

open Analysis Steps

/-! ### Parts behind other objects -/

/-- The part behind other objects. -/
def Part.shift (before : List Object) (q : Part) : Part where
  object := q.object
  count := before.length + q.count
  codeBase := codeSize before + q.codeBase
  dataBase := dataSize before + q.dataBase

theorem partsFrom_shift (before : List Object) : ∀ (xs : List Object) (n c d : Nat),
    partsFrom (before.length + n) (codeSize before + c) (dataSize before + d) xs =
      (partsFrom n c d xs).map (Part.shift before)
  | [], _, _, _ => rfl
  | x :: xs, n, c, d => by
    simp only [partsFrom, List.map_cons, ← partsFrom_shift before xs, Nat.add_assoc]
    rfl

theorem parts_append_shift (xs ys : List Object) :
    parts (xs ++ ys) = parts xs ++ (parts ys).map (Part.shift xs) := by
  rw [parts_append]
  exact congrArg (parts xs ++ ·) (partsFrom_shift xs ys 0 0 0)

/-- What is read off the parts of objects behind others is moved. -/
theorem flatMap_parts_append {β : Type} {f : Part → List β} {g : β → β} {xs : List Object}
    (h : ∀ q, f (q.shift xs) = (f q).map g) (ys : List Object) :
    (parts (xs ++ ys)).flatMap f = (parts xs).flatMap f ++ ((parts ys).flatMap f).map g := by
  rw [parts_append_shift, List.flatMap_append, List.flatMap_map, List.map_flatMap]
  simp only [h]

/-! ### What the fields of a part ask for -/

/-- The symbols among which a field of a merged object is looked up: those that its object does not
export, if one of them has the name, and else the exports. -/
def scope (o : Object) (name : String) : List ObjectSymbol :=
  if o.symbols.any (·.name = name) then o.symbols else o.exports

/-- What a field asks for once its object is merged with others. -/
def settled (o : Object) (r : Relocation) : Demand := r.demand (scope o r.target)

/-- The demand moved with its object. -/
def moved (codeBase dataBase : Nat) (d : Demand) : Demand :=
  { d with
    offset := d.offset + codeBase
    value := d.value.map
      (· + ((if d.kind = .dataAddress then dataBase else codeBase : Nat) : Int)) }

/-- What the fields of a part ask for. -/
def Part.demands (q : Part) : List Demand :=
  q.object.relocations.map fun r => moved q.codeBase q.dataBase (settled q.object r)

/-- The symbol without its name. -/
def nameless (x : ObjectSymbol) : ObjectSymbol := { x with name := "" }

/-- The entry of a part, if it has one. -/
def Part.entries (q : Part) : List Int := q.entry?.toList

/-- The symbols that a part does not export, without their names. -/
def Part.places (q : Part) : List ObjectSymbol := q.symbols.map nameless

theorem rebase_rebase (c d c' d' : Nat) (x : ObjectSymbol) :
    rebase c d (rebase c' d' x) = rebase (c + c') (d + d') x := by
  unfold rebase
  dsimp only
  congr 1
  split_ifs <;> push_cast <;> omega

theorem rebase_zero (x : ObjectSymbol) : rebase 0 0 x = x := by
  simp [rebase]

theorem moved_moved (c d c' d' : Nat) (x : Demand) :
    moved c d (moved c' d' x) = moved (c + c') (d + d') x := by
  unfold moved
  dsimp only
  rw [Option.map_map]
  congr 1
  · push_cast
    omega
  · congr 1
    funext v
    simp only [Function.comp_apply]
    split_ifs <;> push_cast <;> omega

theorem moved_zero (x : Demand) : moved 0 0 x = x := by
  unfold moved
  simp

section Shift
variable (before : List Object) (q : Part)

theorem exports_shift : (q.shift before).exports =
    q.exports.map (rebase (codeSize before) (dataSize before)) := by
  rw [Part.exports, Part.exports, List.map_map]
  exact List.map_congr_left fun x _ => (rebase_rebase _ _ _ _ x).symm

theorem places_shift : (q.shift before).places =
    q.places.map (rebase (codeSize before) (dataSize before)) := by
  rw [Part.places, Part.places, Part.symbols, Part.symbols, List.map_map, List.map_map,
    List.map_map]
  exact List.map_congr_left fun x _ => congrArg nameless (rebase_rebase _ _ _ _ x).symm

theorem entries_shift : (q.shift before).entries =
    q.entries.map (· + (codeSize before : Int)) := by
  rw [Part.entries, Part.entries, Part.entry?, Part.entry?, ← Option.toList_map, Option.map_map]
  congr 2
  funext v
  simp only [Part.shift, Function.comp_apply]
  push_cast
  omega

theorem demands_shift : (q.shift before).demands =
    q.demands.map (moved (codeSize before) (dataSize before)) := by
  rw [Part.demands, Part.demands, List.map_map]
  exact List.map_congr_left fun r _ => (moved_moved _ _ _ _ _).symm

end Shift

theorem filterMap_entry (objects : List Object) :
    (parts objects).filterMap Part.entry? = (parts objects).flatMap Part.entries :=
  List.filterMap_eq_flatMap_toList _ _

/-! ### Fields of merged objects -/

section Fields
variable {objects : List Object} {m : Object} {q : Part} {r : Relocation}

/-- The first match in the one block that has a match. -/
theorem find?_flatMap_of_unique {α β : Type} {f : α → List β} {p : β → Bool} {xs : List α} {a : α}
    (ha : a ∈ xs) (h : ∀ b ∈ xs, ∀ y ∈ f b, p y = true → b = a) :
    (xs.flatMap f).find? p = (f a).find? p := by
  obtain ⟨before, after, rfl, hbefore⟩ := List.eq_append_cons_of_mem ha
  have hnone : (before.flatMap f).find? p = none := by
    rw [List.find?_eq_none]
    intro y hy hp
    obtain ⟨b, hb, hy⟩ := List.mem_flatMap.mp hy
    exact hbefore (h b (List.mem_append_left _ hb) y hy hp ▸ hb)
  rw [List.flatMap_append, List.find?_append, hnone, Option.none_or, List.flatMap_cons,
    List.find?_append]
  rcases hfound : (f a).find? p with _ | y
  · rw [Option.none_or, List.find?_eq_none]
    intro y hy hp
    obtain ⟨b, hb, hy⟩ := List.mem_flatMap.mp hy
    have hba : b = a := h b (by simp [hb]) y hy hp
    exact List.find?_eq_none.mp hfound y (hba ▸ hy) hp
  · rfl

/-- A symbol that keeps its kind and is moved is found with its value moved. -/
theorem find?_value_moved {g : ObjectSymbol → ObjectSymbol} {name name' : String} {c d : Nat}
    (kind : RelocationKind) (hname : ∀ x, (g x).name = name' ↔ x.name = name)
    (hkind : ∀ x, (g x).kind = x.kind) (hvalue : ∀ x, (g x).value = (rebase c d x).value)
    (xs : List ObjectSymbol) :
    ((xs.map g).find? fun x => x.name = name' && x.kind ∈ kind.symbolKinds).map (·.value) =
      ((xs.find? fun x => x.name = name && x.kind ∈ kind.symbolKinds).map (·.value)).map
        (· + ((if kind = .dataAddress then d else c : Nat) : Int)) := by
  have hsame : (fun x : ObjectSymbol => decide (x.name = name') &&
      decide (x.kind ∈ kind.symbolKinds)) ∘ g =
      fun x => decide (x.name = name) && decide (x.kind ∈ kind.symbolKinds) := by
    funext x
    simp only [Function.comp_apply, hname, hkind]
  rw [List.find?_map, hsame]
  generalize hfound : (xs.find? fun x => x.name = name && x.kind ∈ kind.symbolKinds) = found
  rcases found with _ | x
  · rfl
  · have hx := List.find?_some hfound
    simp only [Bool.and_eq_true, decide_eq_true_eq] at hx
    have hbase : x.kind = .dataSymbol ↔ kind = .dataAddress := by
      have hmem := hx.2
      cases kind <;> simp [RelocationKind.symbolKinds] at hmem ⊢
      · rcases hmem with hmem | hmem <;> simp [hmem]
      · exact hmem
    simp only [Option.map_some, hvalue, rebase, hbase]

/-- A name with a number is found in the part of that number. -/
theorem Merged.find?_local (h : Merged objects m)
    (hexports : ∀ o ∈ objects, ∀ x ∈ o.exports, '@' ∉ x.name.toList) (hq : q ∈ parts objects)
    (name : String) (kinds : List SymbolKind) :
    ((m.exports ++ m.symbols).find? fun x => x.name = localName q.count name && x.kind ∈ kinds) =
      q.symbols.find? fun x => x.name = localName q.count name && x.kind ∈ kinds := by
  have hnone : (m.exports.find? fun x =>
      x.name = localName q.count name && x.kind ∈ kinds) = none := by
    rw [List.find?_eq_none]
    intro x hx hp
    simp only [Bool.and_eq_true, decide_eq_true_eq] at hp
    obtain ⟨q', hq', y, hy, rfl⟩ := h.mem_exports.mp hx
    refine hexports _ (mem_of_mem_parts hq') y hy ?_
    rw [show y.name = localName q.count name from hp.1]
    exact at_mem_localName q.count name
  rw [List.find?_append, hnone, Option.none_or, h.symbols]
  refine find?_flatMap_of_unique hq fun q' hq' y hy hp => ?_
  simp only [Bool.and_eq_true, decide_eq_true_eq] at hp
  obtain ⟨z, -, rfl⟩ := List.mem_map.mp hy
  exact eq_of_count hq' hq (localName_inj hp.1).1

/-- A name is exported by one part only. -/
theorem Merged.part_of_export (h : Merged objects m) {q' : Part} (hq : q ∈ parts objects)
    (hq' : q' ∈ parts objects) {x y : ObjectSymbol} (hx : x ∈ q.object.exports)
    (hy : y ∈ q'.object.exports) (hname : x.name = y.name) : q = q' := by
  have hnodup : ((parts objects).flatMap fun q => q.exports.map (·.name)).Nodup := by
    have hnodup := h.nodup
    rwa [h.exports, List.map_flatMap] at hnodup
  have hdisjoint : (parts objects).Pairwise fun q q' =>
      List.Disjoint (q.exports.map (·.name)) (q'.exports.map (·.name)) :=
    (List.nodup_flatMap.mp hnodup).2
  have hmem : ∀ {q : Part} {x : ObjectSymbol}, x ∈ q.object.exports →
      x.name ∈ q.exports.map (·.name) := by
    intro q x hx
    exact List.mem_map.mpr ⟨rebase q.codeBase q.dataBase x, List.mem_map.mpr ⟨x, hx, rfl⟩, rfl⟩
  by_contra hne
  have : Std.Symm fun q q' : Part =>
      List.Disjoint (q.exports.map (·.name)) (q'.exports.map (·.name)) :=
    ⟨fun _ _ hd _ ha ha' => hd ha' ha⟩
  exact hdisjoint.forall hq hq' hne (hmem hx) (hname ▸ hmem hy)

/-- An exported name is found in the part that exports it. -/
theorem Merged.find?_export (h : Merged objects m)
    (hexports : ∀ o ∈ objects, ∀ x ∈ o.exports, '@' ∉ x.name.toList) (hq : q ∈ parts objects)
    {x : ObjectSymbol} (hx : x ∈ q.object.exports) (kinds : List SymbolKind) :
    ((m.exports ++ m.symbols).find? fun y => y.name = x.name && y.kind ∈ kinds) =
      q.exports.find? fun y => y.name = x.name && y.kind ∈ kinds := by
  have hnone : (m.symbols.find? fun y => y.name = x.name && y.kind ∈ kinds) = none := by
    rw [List.find?_eq_none]
    intro y hy hp
    simp only [Bool.and_eq_true, decide_eq_true_eq] at hp
    exact hexports _ (mem_of_mem_parts hq) x hx (hp.1 ▸ h.at_of_symbols hy)
  rw [List.find?_append, hnone, Option.or_none, h.exports]
  refine find?_flatMap_of_unique hq fun q' hq' y hy hp => ?_
  simp only [Bool.and_eq_true, decide_eq_true_eq] at hp
  obtain ⟨z, hz, rfl⟩ := List.mem_map.mp hy
  exact h.part_of_export hq' hq hz hx hp.1

theorem Merged.value_of_symbol (h : Merged objects m)
    (hexports : ∀ o ∈ objects, ∀ x ∈ o.exports, '@' ∉ x.name.toList) (hq : q ∈ parts objects)
    (hcall : r.kind ≠ .externalCall) (hlocal : ∃ x ∈ q.object.symbols, x.name = r.target) :
    (m.demand (move q.object q.count q.codeBase r)).value =
      (moved q.codeBase q.dataBase (settled q.object r)).value := by
  have hscope : scope q.object r.target = q.object.symbols := by
    rw [scope, if_pos (by simpa using hlocal)]
  have hkind : (move q.object q.count q.codeBase r).kind = r.kind := rfl
  have hname : (move q.object q.count q.codeBase r).target = localName q.count r.target :=
    retarget_of_symbol hcall hlocal
  rw [Object.demand, settled, hscope]
  simp only [Relocation.demand, moved, hname, hkind]
  rw [h.find?_local hexports hq, Part.symbols]
  refine find?_value_moved (g := hide q.count q.codeBase q.dataBase) r.kind (fun x => ?_)
    (fun _ => rfl) (fun _ => rfl) _
  exact ⟨fun hx => (localName_inj hx).2, fun hx => congrArg (localName q.count) hx⟩

theorem Merged.value_of_export (h : Merged objects m)
    (hexports : ∀ o ∈ objects, ∀ x ∈ o.exports, '@' ∉ x.name.toList) (hq : q ∈ parts objects)
    (hlocal : ¬ ∃ x ∈ q.object.symbols, x.name = r.target)
    (hexport : ∃ x ∈ q.object.exports, x.name = r.target) :
    (m.demand (move q.object q.count q.codeBase r)).value =
      (moved q.codeBase q.dataBase (settled q.object r)).value := by
  have hscope : scope q.object r.target = q.object.exports := by
    rw [scope, if_neg (by simpa using hlocal)]
  have hkind : (move q.object q.count q.codeBase r).kind = r.kind := rfl
  have hname : (move q.object q.count q.codeBase r).target = r.target :=
    retarget_of_no_symbol hlocal
  obtain ⟨x, hx, hxname⟩ := hexport
  rw [Object.demand, settled, hscope]
  simp only [Relocation.demand, moved, hname, hkind, ← hxname]
  rw [h.find?_export hexports hq hx, Part.exports]
  exact find?_value_moved (g := rebase q.codeBase q.dataBase) r.kind (fun _ => Iff.rfl)
    (fun _ => rfl) (fun _ => rfl) _

/-- **A field of a merged object asks for what it asks for in its own object**, moved with the
object. -/
theorem Merged.demand_move (h : Merged objects m)
    (hexports : ∀ o ∈ objects, ∀ x ∈ o.exports, '@' ∉ x.name.toList) (hq : q ∈ parts objects)
    (htarget : r.kind ≠ .externalCall →
      ∃ x ∈ q.object.exports ++ q.object.symbols, x.name = r.target) :
    m.demand (move q.object q.count q.codeBase r) =
      moved q.codeBase q.dataBase (settled q.object r) := by
  have hkind : (move q.object q.count q.codeBase r).kind = r.kind := rfl
  by_cases hcall : r.kind = .externalCall
  · -- A call keeps its target, and no symbol answers to it.
    have hname : (move q.object q.count q.codeBase r).target = r.target := retarget_of_call hcall
    have hnone : ∀ (xs : List ObjectSymbol) (name : String),
        (xs.find? fun x => x.name = name && x.kind ∈ r.kind.symbolKinds) = none := by
      intro xs name
      simp [hcall, RelocationKind.symbolKinds]
    simp only [Object.demand, settled, Relocation.demand, moved, hkind, hname, hnone]
    rfl
  · refine Demand.ext rfl rfl ?_ (by simp [Object.demand, settled, Relocation.demand, moved, hkind,
      hcall])
    by_cases hlocal : ∃ x ∈ q.object.symbols, x.name = r.target
    · exact h.value_of_symbol hexports hq hcall hlocal
    · obtain ⟨x, hx, hxname⟩ := htarget hcall
      rcases List.mem_append.mp hx with hx | hx
      · exact h.value_of_export hexports hq hlocal ⟨x, hx, hxname⟩
      · exact absurd ⟨x, hx, hxname⟩ hlocal

/-- If no symbol has the name of an export, a field asks for the same before and after merging. -/
theorem settled_eq_demand {o : Object} (h : ∀ x ∈ o.exports, ∀ y ∈ o.symbols, x.name ≠ y.name)
    (r : Relocation) : settled o r = o.demand r := by
  have hfound : (scope o r.target).find?
      (fun x => x.name = r.target && x.kind ∈ r.kind.symbolKinds) =
      (o.exports ++ o.symbols).find?
        fun x => x.name = r.target && x.kind ∈ r.kind.symbolKinds := by
    rw [List.find?_append, scope]
    split_ifs with hlocal
    · obtain ⟨y, hy, hyname⟩ := List.any_eq_true.mp hlocal
      have hnone : (o.exports.find? fun x =>
          x.name = r.target && x.kind ∈ r.kind.symbolKinds) = none := by
        rw [List.find?_eq_none]
        intro x hx hp
        simp only [Bool.and_eq_true, decide_eq_true_eq] at hp hyname
        exact h x hx y hy (hp.1.trans hyname.symm)
      rw [hnone, Option.none_or]
    · have hnone : (o.symbols.find? fun x =>
          x.name = r.target && x.kind ∈ r.kind.symbolKinds) = none := by
        rw [List.find?_eq_none]
        intro x hx hp
        simp only [Bool.and_eq_true, decide_eq_true_eq] at hp
        exact hlocal (List.any_eq_true.mpr ⟨x, hx, decide_eq_true hp.1⟩)
      rw [hnone, Option.or_none]
  exact Demand.ext rfl rfl (congrArg (Option.map ObjectSymbol.value) hfound) rfl

end Fields

/-! ### Objects that can be merged and merged again -/

/-- An object as assembling and merging leave it: its fields stand in order and ask for symbols that
are there, its exports have no number, its extensions are known, and what it fixes for a library is
an id. -/
structure Tidy (o : Object) : Prop where
  mask : o.mask.Known
  ids : IdsOnly o.libraries
  inOrder : InOrder o
  exports : ∀ x ∈ o.exports, '@' ∉ x.name.toList
  targets : ∀ r ∈ o.relocations, r.kind ≠ .externalCall →
    ∃ x ∈ o.exports ++ o.symbols, x.name = r.target

theorem tidy_of_source {o : Object} (h : FromSource o) : Tidy o := by
  obtain ⟨p, a, hassembled⟩ := h.assembled
  refine ⟨hassembled.wellFormed.mask, hassembled.wellFormed.pins, inOrder_of_source h, ?_, ?_⟩
  · exact fun x hx => (hassembled.isName (List.mem_append_left _ hx)).not_at
  · intro r hr hcall
    rcases hassembled.exists_target hr with ⟨-, x, hx, hname, -⟩ | ⟨-, x, hx, hname, -⟩ | ⟨hk, -⟩
    · exact ⟨x, hx, hname⟩
    · exact ⟨x, hx, hname⟩
    · exact absurd hk hcall

/-- The references that a table of ids stands for. -/
def refsOf (d : Dict (Option String)) : List LibraryRef := d.map fun x => { name := x.1, id := x.2 }

/-- **Tidy objects and what they are merged to**, with its name and its references. -/
structure Grouped (objects : List Object) (m : Object) : Prop extends Merged objects m where
  tidy : ∀ o ∈ objects, Tidy o
  name : objects.head?.map (·.name) = some m.name
  pins : ∃ d, Pinned (references objects) d ∧ m.libraries = refsOf d

section Grouped
variable {objects : List Object} {m : Object}

theorem idsOnly_of_tidy (h : ∀ o ∈ objects, Tidy o) : IdsOnly (references objects) := by
  intro ref href
  obtain ⟨o, ho, href⟩ := List.mem_flatMap.mp href
  exact (h o ho).ids ref href

theorem grouped_of_merge (htidy : ∀ o ∈ objects, Tidy o) (hseveral : 2 ≤ objects.length)
    (h : mergeObjects objects = .ok m) : Grouped objects m := by
  rcases objects with _ | ⟨first, others⟩
  · simp at hseveral
  · rw [mergeObjects_eq_mergeAll (Or.inl hseveral)] at h
    obtain ⟨hname, hpins⟩ := mergeAll_pinned (idsOnly_of_tidy htidy) h
    exact ⟨mergeAll_merged h, htidy, by rw [hname]; rfl, hpins⟩

theorem Grouped.exports_not_at (h : Grouped objects m) :
    ∀ o ∈ objects, ∀ x ∈ o.exports, '@' ∉ x.name.toList :=
  fun o ho => (h.tidy o ho).exports

theorem Grouped.relocations_eq (h : Grouped objects m) :
    m.relocations = (parts objects).flatMap Part.relocations :=
  h.toMerged.relocations_eq fun o ho => (h.tidy o ho).inOrder

/-- **What the fields of merged objects ask for.** -/
theorem Grouped.demands (h : Grouped objects m) :
    m.relocations.map m.demand = (parts objects).flatMap Part.demands := by
  rw [h.relocations_eq, List.map_flatMap]
  refine List.flatMap_congr fun q hq => ?_
  rw [Part.relocations, List.map_map]
  refine List.map_congr_left fun r hr => ?_
  exact h.demand_move h.exports_not_at hq ((h.tidy _ (mem_of_mem_parts hq)).targets r hr)

/-- Merged objects are tidy again. -/
theorem Grouped.tidy_merged (h : Grouped objects m) : Tidy m where
  mask := by
    rw [h.mask]
    exact (foldl_union_spec 0 objects 0 ⟨0, by decide, rfl⟩ fun o ho => (h.tidy o ho).mask).1
  ids ref href id hid := by
    obtain ⟨o, ho, ref', href', hid'⟩ := h.libraries ref href id hid
    exact (h.tidy o ho).ids ref' href' id hid'
  inOrder := h.toMerged.inOrder fun o ho => (h.tidy o ho).inOrder
  exports x hx := by
    obtain ⟨q, hq, y, hy, rfl⟩ := h.mem_exports.mp hx
    exact h.exports_not_at _ (mem_of_mem_parts hq) y hy
  targets r hr hcall := by
    rw [h.relocations_eq] at hr
    obtain ⟨q, hq, hr⟩ := List.mem_flatMap.mp hr
    obtain ⟨s, hs, rfl⟩ := List.mem_map.mp hr
    by_cases hlocal : ∃ y ∈ q.object.symbols, y.name = s.target
    · obtain ⟨y, hy, hyname⟩ := hlocal
      refine ⟨hide q.count q.codeBase q.dataBase y, List.mem_append_right _
        (h.mem_symbols.mpr ⟨q, hq, y, hy, rfl⟩), ?_⟩
      exact (congrArg (localName q.count) hyname).trans
        (retarget_of_symbol (r := s) hcall ⟨y, hy, hyname⟩).symm
    · obtain ⟨y, hy, hyname⟩ := (h.tidy _ (mem_of_mem_parts hq)).targets s hs hcall
      rcases List.mem_append.mp hy with hy | hy
      · refine ⟨rebase q.codeBase q.dataBase y, List.mem_append_left _
          (h.mem_exports.mpr ⟨q, hq, y, hy, rfl⟩), ?_⟩
        exact hyname.trans (retarget_of_no_symbol hlocal).symm
      · exact absurd ⟨y, hy, hyname⟩ hlocal

end Grouped

/-! ### References -/

section References
variable {refs : List LibraryRef} {d : Dict (Option String)}

theorem find?_refsOf (d : Dict (Option String)) (name : String) :
    ((refsOf d).find? (·.name = name)).bind (·.id) = (d.get? name).join := by
  induction d with
  | nil => rfl
  | cons x d ih =>
    obtain ⟨k, v⟩ := x
    rw [Dict.get?, List.lookup_cons, refsOf, List.map_cons, List.find?_cons]
    by_cases hk : k = name
    · simp [hk]
    · have hne : (name == k) = false := by simpa using Ne.symm hk
      rw [hne, decide_eq_false hk]
      exact ih

theorem pinned_refsOf (hkeys : (d.map (·.1)).Nodup) (name : String) :
    pinned (refsOf d) name = (d.get? name).join := by
  induction d with
  | nil => rfl
  | cons x d ih =>
    obtain ⟨k, v⟩ := x
    obtain ⟨hnew, hkeys⟩ := List.nodup_cons.mp hkeys
    rw [show refsOf ((k, v) :: d) = [⟨k, v⟩] ++ refsOf d from rfl, pinned_append, pinned_singleton,
      ih hkeys, Dict.get?, Dict.get?, List.lookup_cons]
    by_cases hk : k = name
    · have hnone : d.lookup name = none := by
        rw [List.lookup_eq_none_iff]
        intro y hy
        rw [bne_iff_ne, ne_eq]
        intro heq
        exact hnew (List.mem_map.mpr ⟨y, hy, (hk.trans heq).symm⟩)
      simp [hk, hnone]
    · have hne : (name == k) = false := by simpa using Ne.symm hk
      rw [if_neg hk, hne, Option.none_or]

theorem pinsAgree_refsOf (hkeys : (d.map (·.1)).Nodup) : PinsAgree (refsOf d) := by
  intro ref href ref' href' hname id hid id' hid'
  obtain ⟨x, hx, rfl⟩ := List.mem_map.mp href
  obtain ⟨x', hx', rfl⟩ := List.mem_map.mp href'
  cases List.inj_on_of_nodup_map hkeys hx hx' hname
  rw [Option.mem_unique hid hid']

end References

/-! ### Extensions -/

section Extensions

theorem union_assoc {a b c : Mask} (ha : a.Known) (hb : b.Known) (hc : c.Known) :
    (a.union b).union c = a.union (b.union c) := by
  obtain ⟨a, -, rfl⟩ := ha
  obtain ⟨b, -, rfl⟩ := hb
  obtain ⟨c, -, rfl⟩ := hc
  exact congrArg Int.ofNat (Nat.or_assoc a b c)

theorem zero_union {a : Mask} (ha : a.Known) : Mask.union 0 a = a := by
  obtain ⟨a, -, rfl⟩ := ha
  exact congrArg Int.ofNat (Nat.zero_or a)

theorem foldl_union : ∀ {os : List Object} {mask : Mask}, mask.Known → (∀ o ∈ os, o.mask.Known) →
    os.foldl (fun mask o => mask.union o.mask) mask =
      mask.union (os.foldl (fun mask o => mask.union o.mask) 0)
  | [], mask, hmask, _ => by
    obtain ⟨n, -, rfl⟩ := hmask
    exact congrArg Int.ofNat (Nat.or_zero n).symm
  | o :: os, mask, hmask, hos => by
    have ho := hos o List.mem_cons_self
    have hothers : ∀ o' ∈ os, o'.mask.Known := fun o' ho' => hos o' (List.mem_cons_of_mem o ho')
    have hrest := (foldl_union_spec 0 os 0 ⟨0, by decide, rfl⟩ hothers).1
    rw [List.foldl_cons, List.foldl_cons, foldl_union (hmask.union ho) hothers, zero_union ho,
      foldl_union ho hothers, union_assoc hmask ho hrest]

end Extensions

/-! ### Lists of objects that come to the same -/

/-- **Two lists of objects come to the same when they are merged**, the names of local symbols
aside. -/
structure SameParts (xs ys : List Object) : Prop where
  name : xs.head?.map (·.name) = ys.head?.map (·.name)
  mask : ∀ mask : Mask, mask.Known →
    xs.foldl (fun mask o => mask.union o.mask) mask =
      ys.foldl (fun mask o => mask.union o.mask) mask ∧
    (ys.foldl (fun mask o => mask.union o.mask) mask).Known
  code : xs.flatMap (·.code) = ys.flatMap (·.code)
  data : xs.flatMap (·.data) = ys.flatMap (·.data)
  entries : (parts xs).flatMap Part.entries = (parts ys).flatMap Part.entries
  exports : (parts xs).flatMap Part.exports = (parts ys).flatMap Part.exports
  places : (parts xs).flatMap Part.places = (parts ys).flatMap Part.places
  pins : ∀ name, pinned (references xs) name = pinned (references ys) name
  agree : PinsAgree (references xs) ↔ PinsAgree (references ys)
  demands : (parts xs).flatMap Part.demands = (parts ys).flatMap Part.demands

section SameParts
variable {xs xs' ys ys' objects : List Object} {m n : Object}

theorem codeSize_eq (objects : List Object) :
    codeSize objects = (objects.flatMap (·.code)).length := by
  rw [List.length_flatMap]
  rfl

theorem dataSize_eq (objects : List Object) :
    dataSize objects = (objects.flatMap (·.data)).length := by
  rw [List.length_flatMap]
  rfl

theorem SameParts.refl (h : ∀ o ∈ xs, Tidy o) : SameParts xs xs where
  name := rfl
  mask mask hmask := ⟨rfl, (foldl_union_spec 0 xs mask hmask fun o ho => (h o ho).mask).1⟩
  code := rfl
  data := rfl
  entries := rfl
  exports := rfl
  places := rfl
  pins _ := rfl
  agree := Iff.rfl
  demands := rfl

/-- **Coming to the same is a congruence.** What stands behind a list is moved by its sizes, which
are the same. -/
theorem SameParts.append (h : SameParts xs xs') (h' : SameParts ys ys') :
    SameParts (xs ++ ys) (xs' ++ ys') := by
  have hcode : codeSize xs = codeSize xs' := by rw [codeSize_eq, codeSize_eq, h.code]
  have hdata : dataSize xs = dataSize xs' := by rw [dataSize_eq, dataSize_eq, h.data]
  have hrefs : ∀ xs ys : List Object, references (xs ++ ys) = references xs ++ references ys :=
    fun xs ys => List.flatMap_append
  refine ⟨?_, fun mask hmask => ?_, ?_, ?_, ?_, ?_, ?_, fun name => ?_, ?_, ?_⟩
  · rw [List.head?_append, List.head?_append, Option.map_or, Option.map_or, h.name, h'.name]
  · rw [List.foldl_append, List.foldl_append, (h.mask mask hmask).1]
    exact h'.mask _ (h.mask mask hmask).2
  · rw [List.flatMap_append, List.flatMap_append, h.code, h'.code]
  · rw [List.flatMap_append, List.flatMap_append, h.data, h'.data]
  · rw [flatMap_parts_append (entries_shift xs), flatMap_parts_append (entries_shift xs'),
      h.entries, h'.entries, hcode]
  · rw [flatMap_parts_append (exports_shift xs), flatMap_parts_append (exports_shift xs'),
      h.exports, h'.exports, hcode, hdata]
  · rw [flatMap_parts_append (places_shift xs), flatMap_parts_append (places_shift xs'), h.places,
      h'.places, hcode, hdata]
  · rw [hrefs, hrefs, pinned_append, pinned_append, h.pins, h'.pins]
  · simp only [hrefs, pinsAgree_append, h.agree, h'.agree, h.pins, h'.pins]
  · rw [flatMap_parts_append (demands_shift xs), flatMap_parts_append (demands_shift xs'),
      h.demands, h'.demands, hcode, hdata]

theorem flatMap_parts_singleton {β : Type} (f : Part → List β) (o : Object) :
    (parts [o]).flatMap f = f ⟨o, 0, 0, 0⟩ := List.append_nil _

/-- No symbol of a merged object has the name of an export, as one has a number and the other has
none. -/
theorem Grouped.settled_eq_demand (h : Grouped objects m) (r : Relocation) :
    settled m r = m.demand r := by
  refine Merge.settled_eq_demand (fun x hx y hy hname => ?_) r
  exact h.tidy_merged.exports x hx (hname ▸ h.at_of_symbols hy)

/-- **Objects come to the same as the object that they are merged to.** -/
theorem Grouped.sameParts (h : Grouped objects m) : SameParts objects [m] := by
  obtain ⟨d, hpinned, hlibraries⟩ := h.pins
  have hrefs : references [m] = refsOf d := by
    rw [← hlibraries]
    exact List.append_nil _
  refine ⟨h.name, fun mask hmask => ?_, ?_, ?_, ?_, ?_, ?_, fun name => ?_, ?_, ?_⟩
  · rw [foldl_union hmask fun o ho => (h.tidy o ho).mask, ← h.mask]
    exact ⟨rfl, hmask.union h.tidy_merged.mask⟩
  · rw [← h.code]
    exact (List.append_nil _).symm
  · rw [← h.data]
    exact (List.append_nil _).symm
  · rw [← filterMap_entry, ← h.entry, flatMap_parts_singleton, Part.entries, Part.entry?]
    simp
  · rw [← h.exports, flatMap_parts_singleton, Part.exports]
    exact (List.map_id'' rebase_zero m.exports).symm
  · rw [flatMap_parts_singleton]
    show (parts objects).flatMap (fun q => q.symbols.map nameless) = _
    rw [← List.map_flatMap, ← h.symbols, Part.places, Part.symbols, List.map_map]
    refine List.map_congr_left fun x _ => ?_
    show nameless x = nameless (rebase 0 0 x)
    rw [rebase_zero]
  · rw [hrefs, pinned_refsOf hpinned.keys, hpinned.get]
  · rw [hrefs]
    exact iff_of_true hpinned.agree (pinsAgree_refsOf hpinned.keys)
  · rw [← h.demands, flatMap_parts_singleton, Part.demands]
    refine List.map_congr_left fun r _ => ?_
    rw [moved_zero, h.settled_eq_demand]

/-- Whether objects can be merged, read off their parts. -/
theorem mergeable_iff : Mergeable objects ↔
    (((parts objects).flatMap Part.exports).map (·.name)).Nodup ∧
    ((parts objects).flatMap Part.entries).length ≤ 1 ∧
    PinsAgree (references objects) ∧ (objects.flatMap (·.code)).length ≤ maxSegment ∧
    (objects.flatMap (·.data)).length ≤ maxSegment ∧
    (∀ x ∈ (parts objects).flatMap Part.exports, x.value ≤ maxOffset) ∧
    ∀ x ∈ (parts objects).flatMap Part.places, x.value ≤ maxOffset := by
  have hreach : (∀ q ∈ parts objects, ∀ x ∈ q.object.exports ++ q.object.symbols,
      (rebase q.codeBase q.dataBase x).value ≤ maxOffset) ↔
      (∀ x ∈ (parts objects).flatMap Part.exports, x.value ≤ maxOffset) ∧
      ∀ x ∈ (parts objects).flatMap Part.places, x.value ≤ maxOffset := by
    simp only [List.forall_mem_append, List.forall_mem_flatMap, Part.exports, Part.places,
      Part.symbols, List.forall_mem_map, forall_and]
    rfl
  rw [← exportedNames_eq, ← filterMap_entry, ← length_entries, ← codeSize_eq,
    ← dataSize_eq, ← hreach]
  constructor
  · exact fun h => ⟨h.exports, h.entry, h.pins, h.code, h.data, h.reach⟩
  · rintro ⟨hexports, hentry, hpins, hcode, hdata, hreach⟩
    exact ⟨hexports, hentry, hpins, hcode, hdata, hreach⟩

theorem SameParts.mergeable_iff (h : SameParts xs ys) : Mergeable xs ↔ Mergeable ys := by
  rw [Merge.mergeable_iff, Merge.mergeable_iff, h.exports, h.entries, h.agree, h.code, h.data,
    h.places]

theorem Grouped.libraryId? (h : Grouped objects m) (name : String) :
    m.libraryId? name = pinned (references objects) name := by
  obtain ⟨d, hpinned, hlibraries⟩ := h.pins
  rw [Object.libraryId?, hlibraries, find?_refsOf, hpinned.get]

/-- **The linker cannot tell apart** what lists that come to the same are merged to. -/
theorem SameParts.alike (h : SameParts xs ys) (hm : Grouped xs m) (hn : Grouped ys n) :
    Alike m n ∧ n.exports = m.exports := by
  have hentry : n.entry = m.entry := by
    have hlist : n.entry.toList = m.entry.toList := by
      rw [hn.entry, hm.entry, filterMap_entry, filterMap_entry, h.entries]
    rw [← Option.head?_toList (o := n.entry), hlist, Option.head?_toList]
  refine ⟨⟨?_, ?_, ?_, ?_, hentry, fun name => ?_, ?_⟩, ?_⟩
  · exact Option.some.inj (hn.name.symm.trans (h.name.symm.trans hm.name))
  · rw [hn.mask, hm.mask, (h.mask 0 ⟨0, by decide, rfl⟩).1]
  · rw [hn.code, hm.code, h.code]
  · rw [hn.data, hm.data, h.data]
  · rw [hn.libraryId?, hm.libraryId?, h.pins]
  · rw [hn.demands, hm.demands, h.demands]
  · rw [hn.exports, hm.exports, h.exports]

end SameParts

/-! ### Groups -/

section Groups
variable {xs ys : List Object} {x y : Object}

/-- Of objects that can be merged both groups can be: what is behind the first group is moved, which
changes no name and makes no value smaller. -/
theorem Mergeable.groups (h : Mergeable (xs ++ ys)) : Mergeable xs ∧ Mergeable ys := by
  have hnames : ∀ zs : List ObjectSymbol,
      (zs.map (rebase (codeSize xs) (dataSize xs))).map (·.name) = zs.map (·.name) := by
    intro zs
    rw [List.map_map]
    rfl
  have hlow : ∀ z : ObjectSymbol, (rebase (codeSize xs) (dataSize xs) z).value ≤ maxOffset →
      z.value ≤ maxOffset := by
    intro z hz
    simp only [rebase] at hz
    omega
  rw [mergeable_iff, flatMap_parts_append (exports_shift xs),
    flatMap_parts_append (entries_shift xs), flatMap_parts_append (places_shift xs), references,
    List.flatMap_append, List.flatMap_append, List.flatMap_append, List.map_append, hnames,
    List.nodup_append] at h
  simp only [List.length_append, List.length_map, List.forall_mem_append, List.forall_mem_map] at h
  obtain ⟨hexports, hentry, hpins, hcode, hdata, hreach, hplaces⟩ := h
  have hagree := pinsAgree_append.mp hpins
  rw [mergeable_iff, mergeable_iff]
  refine ⟨⟨hexports.1, by omega, hagree.1, by omega, by omega, hreach.1, hplaces.1⟩,
    ⟨hexports.2.1, by omega, hagree.2.1, by omega, by omega, ?_, ?_⟩⟩
  · exact fun z hz => hlow z (hreach.2 z hz)
  · exact fun z hz => hlow z (hplaces.2 z hz)

/-- A group that can be merged is merged. -/
theorem exists_group (hne : xs ≠ []) (htidy : ∀ o ∈ xs, Tidy o) (h : Mergeable xs) :
    ∃ x, mergeObjects xs = .ok x := by
  rcases xs with _ | ⟨first, _ | ⟨second, others⟩⟩
  · exact absurd rfl hne
  · exact ⟨first, rfl⟩
  · exact (mergeAll_isOk_iff (idsOnly_of_tidy htidy)).mpr h

/-- A group comes to the same as what it is merged to, also if it is a single object. -/
theorem sameParts_of_merge (htidy : ∀ o ∈ xs, Tidy o) (h : mergeObjects xs = .ok x) :
    SameParts xs [x] ∧ Tidy x := by
  rcases xs with _ | ⟨first, _ | ⟨second, others⟩⟩
  · cases h
  · cases h
    exact ⟨.refl htidy, htidy x List.mem_cons_self⟩
  · have hgrouped := grouped_of_merge htidy (by simp) h
    exact ⟨hgrouped.sameParts, hgrouped.tidy_merged⟩

theorem mergeable_of_merge (htidy : ∀ o ∈ xs, Tidy o) (hseveral : 2 ≤ xs.length)
    (h : mergeObjects xs = .ok x) : Mergeable xs := by
  rcases xs with _ | ⟨first, others⟩
  · simp at hseveral
  · rw [mergeObjects_eq_mergeAll (Or.inl hseveral)] at h
    exact (mergeAll_isOk_iff (idsOnly_of_tidy htidy)).mp ⟨x, h⟩

/-- **Both ways of merging** give objects that the linker cannot tell apart, or both fail. -/
theorem merge_regrouped (hxs : xs ≠ []) (hys : ys ≠ []) (htidy : ∀ o ∈ xs ++ ys, Tidy o) :
    Both (fun m n => Alike m n ∧ n.exports = m.exports) (mergeObjects (xs ++ ys))
      (do
        let x ← mergeObjects xs
        let y ← mergeObjects ys
        mergeObjects [x, y]) := by
  have hxtidy : ∀ o ∈ xs, Tidy o := fun o ho => htidy o (List.mem_append_left _ ho)
  have hytidy : ∀ o ∈ ys, Tidy o := fun o ho => htidy o (List.mem_append_right _ ho)
  have hseveral : 2 ≤ (xs ++ ys).length := by
    have hx := List.length_pos_iff.mpr hxs
    have hy := List.length_pos_iff.mpr hys
    rw [List.length_append]
    omega
  -- What the groups are merged to comes to the same as all objects.
  have hpair : ∀ {x y}, mergeObjects xs = .ok x → mergeObjects ys = .ok y →
      SameParts (xs ++ ys) [x, y] ∧ ∀ o ∈ [x, y], Tidy o := by
    intro x y hx hy
    obtain ⟨hxsame, hx⟩ := sameParts_of_merge hxtidy hx
    obtain ⟨hysame, hy⟩ := sameParts_of_merge hytidy hy
    refine ⟨hxsame.append hysame, ?_⟩
    simp only [List.forall_mem_cons]
    exact ⟨hx, hy, by simp⟩
  by_cases hmergeable : Mergeable (xs ++ ys)
  · obtain ⟨hxmergeable, hymergeable⟩ := hmergeable.groups
    obtain ⟨x, hx⟩ := exists_group hxs hxtidy hxmergeable
    obtain ⟨y, hy⟩ := exists_group hys hytidy hymergeable
    obtain ⟨hsame, hxy⟩ := hpair hx hy
    obtain ⟨m, hm⟩ := exists_group (by simp [hxs]) htidy hmergeable
    obtain ⟨n, hn⟩ := exists_group (by simp) hxy (hsame.mergeable_iff.mp hmergeable)
    rw [hm, hx, hy]
    show Both _ _ (mergeObjects [x, y])
    rw [hn]
    exact both_ok (hsame.alike (grouped_of_merge htidy hseveral hm)
      (grouped_of_merge hxy (by simp) hn))
  · -- Had the groups been merged with each other, all objects could have been merged.
    rcases hm : mergeObjects (xs ++ ys) with e | m
    · rcases hn : (do
          let x ← mergeObjects xs
          let y ← mergeObjects ys
          mergeObjects [x, y] : Except Failure Object) with e' | n
      · exact both_error e e'
      · obtain ⟨x, hx, hn⟩ := bind_eq_ok.mp hn
        obtain ⟨y, hy, hn⟩ := bind_eq_ok.mp hn
        obtain ⟨hsame, hxy⟩ := hpair hx hy
        exact absurd (hsame.mergeable_iff.mpr (mergeable_of_merge hxy (by simp) hn)) hmergeable
    · exact absurd (mergeable_of_merge htidy hseveral hm) hmergeable

end Groups

/-- **Merging in groups.** Objects of accepted programs that are merged and linked give the same
library as two groups of them that are merged, merged with each other and linked, or both ways
fail. -/
theorem link_regrouped {xs ys : List Object} (hxs : xs ≠ []) (hys : ys ≠ [])
    (hsources : ∀ o ∈ xs ++ ys, FromSource o) (env : Environment) (s : ContentId.Strategy) :
    Both Eq (mergeObjects (xs ++ ys) >>= fun m => linkObject m env s)
      (do
        let x ← mergeObjects xs
        let y ← mergeObjects ys
        let m ← mergeObjects [x, y]
        linkObject m env s) := by
  have hmerge := merge_regrouped hxs hys fun o ho => tidy_of_source (hsources o ho)
  have hlink : Both Eq (mergeObjects (xs ++ ys) >>= fun m => linkObject m env s)
      ((do
        let x ← mergeObjects xs
        let y ← mergeObjects ys
        mergeObjects [x, y]) >>= fun m => linkObject m env s) := by
    refine hmerge.bind fun m n hmn => (linkObject_alike hmn.1 env s).imp fun l l' hl => ?_
    rw [hl.2, hmn.2, ← hl.1]
  simpa only [bind_assoc] using hlink

theorem link_regrouped_of_three : ∃ x y z lib, objectOf? headSource = some x ∧
    objectOf? tailSource = some y ∧ objectOf? plainSource = some z ∧
    (mergeObjects [x, y, z] >>= fun m => linkObject m {} .sha256) = .ok lib ∧
    (do
      let m ← mergeObjects [y, z]
      let m ← mergeObjects [x, m]
      linkObject m {} .sha256) = .ok lib := by
  obtain ⟨x, y, -, hx, hy, -, hcalls, hfree⟩ := head_tail_merged
  have hthree : ((objectOf? headSource).bind fun x => (objectOf? tailSource).bind fun y =>
      (objectOf? plainSource).bind fun z => (mergeObjects [x, y, z]).toOption).isSome := by
    decide +kernel
  rw [hx, hy, Option.bind_some, Option.bind_some] at hthree
  obtain ⟨m, hthree⟩ := Option.isSome_iff_exists.mp hthree
  obtain ⟨z, hz, hthree⟩ := Option.bind_eq_some_iff.mp hthree
  have hmerge : mergeObjects [x, y, z] = .ok m := by
    rcases hmerge : mergeObjects [x, y, z] with e | m'
    · simp [hmerge, Except.toOption] at hthree
    · simpa [hmerge, Except.toOption] using hthree
  -- The third object has no fields.
  have hplain : z.relocations = [] := by
    have hempty : (objectOf? plainSource).all fun z => z.relocations.isEmpty := by decide +kernel
    simpa [hz] using hempty
  have hsources : ∀ o ∈ [x, y, z], FromSource o := by
    simp only [List.forall_mem_cons]
    exact ⟨fromSource_of_objectOf? hx, fromSource_of_objectOf? hy, fromSource_of_objectOf? hz,
      by simp⟩
  obtain ⟨lib, hlink⟩ : ∃ lib, linkObject m {} .sha256 = .ok lib := by
    rcases mergeObjects_cases hmerge with ⟨⟨⟩, -⟩ | ⟨-, hmerged⟩
    refine MergedSources.exists_link ⟨hmerged, hsources⟩ List.mem_cons_self
      (fun o ho => (hsources o ho).diff_full) ?_ ?_
    · simpa [hplain, or_imp, forall_and] using hcalls
    · simpa [hplain, or_imp, forall_and] using hfree
  have hall : (mergeObjects [x, y, z] >>= fun m => linkObject m {} .sha256) = .ok lib := by
    rw [hmerge]
    exact hlink
  refine ⟨x, y, z, lib, hx, hy, hz, hall, ?_⟩
  rcases link_regrouped (by simp : [x] ≠ []) (by simp : [y, z] ≠ []) hsources {} .sha256 with
    ⟨l, l', hl, hl', rfl⟩ | ⟨e, e', he, -⟩
  · cases hall.symm.trans hl
    exact hl'
  · cases hall.symm.trans he

end AluVM.Merge
