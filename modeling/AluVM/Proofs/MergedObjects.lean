import AluVM.Proofs.Merging
import AluVM.Proofs.Resolution

/-! # Names and fields of merged objects

Merging renames the symbols that an object does not export and the targets of its relocations
alike. Whether a field still finds what it found before depends on the names only:

* a datum is always found (`MergedSources.lookup?_datum`);
* a label or routine is found (`MergedSources.lookup?_label`), unless the object exports it and
  has a datum of the same name. Then the field follows the datum to its new name, where there is no
  label (`MergedSources.lookup?_shadowed`).

So merged objects are in order (`MergedSources.wellFormed`), and several of them can be linked if
and only if no field is `Shadowed`. In the linked code every field holds what it asks for in its
own object, moved with the object (`Rebased`). -/

namespace AluVM.Merge

open Analysis Syntax

/-- The field asks for a routine that its object exports, and a datum of the object has the same
name. -/
def Shadowed (o : Object) (r : Relocation) : Prop :=
  r.kind = .localOffset ∧ (∃ x ∈ o.exports, x.name = r.target) ∧ ∃ y ∈ o.symbols, y.name = r.target

/-! ### Names with a number -/

theorem toList_localName (count : Nat) (name : String) :
    (localName count name).toList = name.toList ++ '@' :: Nat.toDigits 10 count := by
  simp [localName, String.toList_append, toString, Nat.repr]

theorem at_mem_localName (count : Nat) (name : String) : '@' ∈ (localName count name).toList := by
  rw [toList_localName]
  simp

/-- The number stands behind the last mark of a name. -/
theorem localName_inj {i j : Nat} {m n : String} (h : localName i m = localName j n) :
    i = j ∧ m = n := by
  have hlist := congrArg (fun name => name.toList.reverse) h
  simp only [toList_localName, List.reverse_append, List.reverse_cons, List.append_assoc,
    List.cons_append, List.nil_append] at hlist
  have htake : ∀ (k : Nat) (cs : List Char),
      ((Nat.toDigits 10 k).reverse ++ '@' :: cs).takeWhile (· ≠ '@') =
        (Nat.toDigits 10 k).reverse := by
    intro k cs
    have hall : ∀ c ∈ (Nat.toDigits 10 k).reverse, decide (c ≠ '@') = true := by
      intro c hc
      have hdigit := Nat.isDigit_of_mem_toDigits (by decide) (by decide) (List.mem_reverse.mp hc)
      refine decide_eq_true fun heq => ?_
      rw [heq] at hdigit
      exact absurd hdigit (by decide)
    rw [List.takeWhile_append_of_pos hall]
    simp
  have hdigits : (Nat.toDigits 10 i).reverse = (Nat.toDigits 10 j).reverse := by
    rw [← htake i m.toList.reverse, hlist, htake]
  rw [hdigits] at hlist
  have hname := (List.cons.inj (List.append_cancel_left hlist)).2
  refine ⟨?_, String.toList_injective (List.reverse_injective hname)⟩
  rw [← Nat.ofDigitChars_toDigits (n := i) (by decide : 1 < 10) (by decide),
    List.reverse_injective hdigits, Nat.ofDigitChars_toDigits (by decide) (by decide)]

/-! ### Symbols -/

/-- Objects of accepted programs and what they are merged to. -/
structure MergedSources (objects : List Object) (m : Object) : Prop extends Merged objects m where
  sources : ∀ o ∈ objects, FromSource o

section Symbols
variable {objects : List Object} {m : Object}

theorem MergedSources.assembled (h : MergedSources objects m) {q : Part} (hq : q ∈ parts objects) :
    ∃ p a, Assembled p a q.object :=
  (h.sources q.object (mem_of_mem_parts hq)).assembled

theorem Merged.mem_exports (h : Merged objects m) {x : ObjectSymbol} : x ∈ m.exports ↔
    ∃ q ∈ parts objects, ∃ y ∈ q.object.exports, rebase q.codeBase q.dataBase y = x := by
  simp [h.exports, Part.exports]

theorem Merged.mem_symbols (h : Merged objects m) {x : ObjectSymbol} : x ∈ m.symbols ↔
    ∃ q ∈ parts objects, ∃ y ∈ q.object.symbols, hide q.count q.codeBase q.dataBase y = x := by
  simp [h.symbols, Part.symbols]

/-- An exported name has no number. -/
theorem MergedSources.not_at_of_exports (h : MergedSources objects m) {x : ObjectSymbol}
    (hx : x ∈ m.exports) : '@' ∉ x.name.toList := by
  obtain ⟨q, hq, y, hy, rfl⟩ := h.mem_exports.mp hx
  obtain ⟨p, a, hpart⟩ := h.assembled hq
  exact (hpart.isName (List.mem_append_left _ hy)).not_at

theorem Merged.at_of_symbols (h : Merged objects m) {x : ObjectSymbol} (hx : x ∈ m.symbols) :
    '@' ∈ x.name.toList := by
  obtain ⟨q, hq, y, hy, rfl⟩ := h.mem_symbols.mp hx
  exact at_mem_localName q.count y.name

/-- A name with a number belongs to the part of that number. -/
theorem MergedSources.of_localName (h : MergedSources objects m) {q : Part}
    (hq : q ∈ parts objects) {name : String} {x : ObjectSymbol} (hx : x ∈ m.exports ++ m.symbols)
    (hxname : x.name = localName q.count name) :
    ∃ y ∈ q.object.symbols, y.name = name ∧ hide q.count q.codeBase q.dataBase y = x := by
  rcases List.mem_append.mp hx with hx | hx
  · exact absurd (hxname ▸ at_mem_localName q.count name) (h.not_at_of_exports hx)
  · obtain ⟨q', hq', y, hy, rfl⟩ := h.mem_symbols.mp hx
    obtain ⟨hcount, rfl⟩ := localName_inj hxname
    cases eq_of_count hq' hq hcount
    exact ⟨y, hy, rfl, rfl⟩

/-- An export is found under its name. -/
theorem MergedSources.lookup?_export (h : MergedSources objects m) {q : Part}
    (hq : q ∈ parts objects) {x : ObjectSymbol} (hx : x ∈ q.object.exports)
    {kinds : List SymbolKind} (hkind : x.kind ∈ kinds) :
    m.lookup? x.name kinds = some (rebase q.codeBase q.dataBase x) := by
  have hmem : rebase q.codeBase q.dataBase x ∈ m.exports := h.mem_exports.mpr ⟨q, hq, x, hx, rfl⟩
  refine lookup?_of_unique (x := rebase q.codeBase q.dataBase x) (List.mem_append_left _ hmem) hkind
    fun y hy hname _ => ?_
  rcases List.mem_append.mp hy with hy | hy
  · exact List.inj_on_of_nodup_map h.nodup hy hmem hname
  · exact absurd (hname ▸ h.at_of_symbols hy) (h.not_at_of_exports hmem)

/-- Another symbol is found under its name with the number of its part. -/
theorem MergedSources.lookup?_symbol (h : MergedSources objects m) {q : Part}
    (hq : q ∈ parts objects) {x : ObjectSymbol} (hx : x ∈ q.object.symbols)
    {kinds : List SymbolKind} (hkind : x.kind ∈ kinds)
    (hspace : ∀ k ∈ kinds, k.space = x.kind.space) :
    m.lookup? (localName q.count x.name) kinds =
      some (hide q.count q.codeBase q.dataBase x) := by
  obtain ⟨p, a, hpart⟩ := h.assembled hq
  have hxall := List.mem_append_right q.object.exports hx
  have hmem : hide q.count q.codeBase q.dataBase x ∈ m.symbols :=
    h.mem_symbols.mpr ⟨q, hq, x, hx, rfl⟩
  refine lookup?_of_unique (x := hide q.count q.codeBase q.dataBase x)
    (List.mem_append_right _ hmem) hkind fun y hy hname hykind => ?_
  obtain ⟨z, hz, hzname, rfl⟩ := h.of_localName hq hy hname
  rw [hpart.eq_of_name (List.mem_append_right _ hz) hxall (hspace _ hykind) hzname]

theorem rebase_value_of_code {c d : Nat} {x : ObjectSymbol} (h : x.kind.space = .code) :
    (rebase c d x).value = x.value + c := by
  have hne : x.kind ≠ .dataSymbol := fun hk => by simp [hk, SymbolKind.space] at h
  simp [rebase, hne]

theorem rebase_value_of_data {c d : Nat} {x : ObjectSymbol} (h : x.kind.space = .data) :
    (rebase c d x).value = x.value + d := by
  simp [rebase, List.mem_singleton.mp (kind_of_space_data h)]

end Symbols

/-! ### Targets -/

section Targets
variable {objects : List Object} {m : Object} {q : Part} {r : Relocation}

theorem retarget_of_symbol {o : Object} {count : Nat} (hkind : r.kind ≠ .externalCall)
    (h : ∃ x ∈ o.symbols, x.name = r.target) : retarget o count r = localName count r.target := by
  have hany : o.symbols.any (·.name = r.target) = true := by simpa using h
  simp [retarget, hkind, hany]

theorem retarget_of_no_symbol {o : Object} {count : Nat}
    (h : ¬ ∃ x ∈ o.symbols, x.name = r.target) :
    retarget o count r = r.target := by
  have hany : o.symbols.any (·.name = r.target) = false := by simpa using h
  simp [retarget, hany]

theorem retarget_of_call {o : Object} {count : Nat} (hkind : r.kind = .externalCall) :
    retarget o count r = r.target := by
  simp [retarget, hkind]

/-- **A label or routine is found** behind the code of the objects before its own. -/
theorem MergedSources.lookup?_label (h : MergedSources objects m) (hq : q ∈ parts objects)
    (hr : r ∈ q.object.relocations) (hkind : r.kind = .localOffset)
    (hfree : ¬ Shadowed q.object r) :
    ∃ x y, q.object.lookup? r.target [.localLabel, .exportedLabel] = some x ∧
      m.lookup? (retarget q.object q.count r) [.localLabel, .exportedLabel] = some y ∧
      y.value = x.value + q.codeBase := by
  obtain ⟨p, a, hpart⟩ := h.assembled hq
  rcases hpart.exists_target hr with ⟨-, x, hx, hname, hspace⟩ | ⟨hk, -⟩ | ⟨hk, -⟩
  · refine ⟨x, ?_⟩
    have hown := hpart.lookup?_label hx hspace
    have hxkind := kind_of_space_code hspace
    have hcode : ∀ k ∈ [SymbolKind.localLabel, .exportedLabel], k.space = x.kind.space := by
      rw [hspace]
      decide
    rcases List.mem_append.mp hx with hexport | hsymbol
    · have hno : ¬ ∃ y ∈ q.object.symbols, y.name = r.target := fun hy =>
        hfree ⟨hkind, ⟨x, hexport, hname⟩, hy⟩
      rw [retarget_of_no_symbol hno, ← hname]
      exact ⟨_, hown, h.lookup?_export hq hexport hxkind, rebase_value_of_code hspace⟩
    · rw [retarget_of_symbol (by simp [hkind]) ⟨x, hsymbol, hname⟩, ← hname]
      exact ⟨_, hown, h.lookup?_symbol hq hsymbol hxkind hcode, rebase_value_of_code hspace⟩
  · cases hk.symm.trans hkind
  · cases hk.symm.trans hkind

/-- **A shadowed routine is not found.** -/
theorem MergedSources.lookup?_shadowed (h : MergedSources objects m) (hq : q ∈ parts objects)
    (hshadow : Shadowed q.object r) :
    m.lookup? (retarget q.object q.count r) [.localLabel, .exportedLabel] = none := by
  obtain ⟨p, a, hpart⟩ := h.assembled hq
  obtain ⟨hkind, ⟨x, hx, hxname⟩, hy⟩ := hshadow
  have hxall := List.mem_append_left q.object.symbols hx
  rw [retarget_of_symbol (by simp [hkind]) hy]
  rcases hfound : m.lookup? (localName q.count r.target) [.localLabel, .exportedLabel] with _ | z
  · rfl
  · obtain ⟨hz, hzname, hzkind⟩ := lookup?_eq_some hfound
    obtain ⟨y, hy, hyname, rfl⟩ := h.of_localName hq hz hzname
    -- a label that is not exported would be the same symbol as the routine
    have hyall := List.mem_append_right q.object.exports hy
    obtain ⟨s, -, hsx, rfl⟩ := hpart.encoded.mem_exports.mp hx
    obtain ⟨t, -, hty, rfl⟩ := hpart.encoded.mem_symbols.mp hy
    have hspace : s.kind.space = t.kind.space := by
      rcases hty with hty | hty
      · rw [hsx, hty]
        rfl
      · simp [hide, rebase, hty] at hzkind
    have hsame := hpart.eq_of_name hxall hyall hspace (hxname.trans hyname.symm)
    have hkinds : s.kind = t.kind := congrArg ObjectSymbol.kind hsame
    rw [← hkinds, hsx] at hty
    simp at hty

/-- **A datum is found** behind the data of the objects before its own. -/
theorem MergedSources.lookup?_datum (h : MergedSources objects m) (hq : q ∈ parts objects)
    (hr : r ∈ q.object.relocations) (hkind : r.kind = .dataAddress) :
    ∃ x y, q.object.lookup? r.target [.dataSymbol] = some x ∧
      m.lookup? (retarget q.object q.count r) [.dataSymbol] = some y ∧
      y.value = x.value + q.dataBase := by
  obtain ⟨p, a, hpart⟩ := h.assembled hq
  rcases hpart.exists_target hr with ⟨hk, -⟩ | ⟨-, x, hx, hname, hspace⟩ | ⟨hk, -⟩
  · cases hk.symm.trans hkind
  · have hsymbol : x ∈ q.object.symbols := by
      rcases List.mem_append.mp hx with hx | hx
      · obtain ⟨s, -, hs, rfl⟩ := hpart.encoded.mem_exports.mp hx
        simp [hs, SymbolKind.space] at hspace
      · exact hx
    have hdata : ∀ k ∈ [SymbolKind.dataSymbol], k.space = x.kind.space := by
      rw [hspace]
      decide
    rw [retarget_of_symbol (by simp [hkind]) ⟨x, hsymbol, hname⟩, ← hname]
    exact ⟨x, _, hpart.lookup?_datum hx hspace,
      h.lookup?_symbol hq hsymbol (kind_of_space_data hspace) hdata, rebase_value_of_data hspace⟩
  · cases hk.symm.trans hkind

end Targets

/-! ### Places -/

section Places
variable {objects : List Object} {m : Object} {q q' : Part}

/-- The code of a part within that of the merged object. -/
theorem Merged.getElem?_code (h : Merged objects m) (hq : q ∈ parts objects) {i : Nat}
    (hi : i < q.object.code.length) : m.code[q.codeBase + i]? = q.object.code[i]? := by
  obtain ⟨before, after, hobjects, -, hbase, -⟩ := mem_parts.mp hq
  have hlen : (before.flatMap (·.code)).length = q.codeBase := by
    rw [hbase, List.length_flatMap]
    rfl
  rw [h.code, hobjects, List.flatMap_append, List.flatMap_cons,
    List.getElem?_append_right (by omega), hlen, Nat.add_sub_cancel_left,
    List.getElem?_append_left hi]

theorem Merged.length_le (h : Merged objects m) (hq : q ∈ parts objects) :
    q.codeBase + q.object.code.length ≤ m.code.length ∧
      q.dataBase + q.object.data.length ≤ m.data.length := by
  rw [h.code, h.data]
  exact length_le_of_mem_parts hq

/-- The code of different parts is apart. -/
theorem parts_apart (hq : q ∈ parts objects) (hq' : q' ∈ parts objects) : q = q' ∨
    q.codeBase + q.object.code.length ≤ q'.codeBase ∨
    q'.codeBase + q'.object.code.length ≤ q.codeBase := by
  by_cases heq : q = q'
  · exact Or.inl heq
  · have hpairwise : (parts objects).Pairwise fun q q' => q.Before q' ∨ q'.Before q :=
      (partsFrom_pairwise objects 0 0 0).imp Or.inl
    have : Std.Symm fun q q' : Part => q.Before q' ∨ q'.Before q := ⟨fun _ _ => Or.symm⟩
    exact Or.inr ((hpairwise.forall hq hq' heq).imp (·.2) (·.2))

theorem move_before {o : Object} {count base : Nat} {r r' : Relocation} (h : r.Before r') :
    (move o count base r).Before (move o count base r') := by
  simp only [Relocation.Before, move] at h ⊢
  omega

/-- The fields of an object stand one behind the other in its code. -/
structure InOrder (o : Object) : Prop where
  ascending : o.relocations.Pairwise Relocation.Before
  inside : ∀ r ∈ o.relocations, 1 ≤ r.offset ∧ r.offset + r.kind.width ≤ o.code.length

theorem inOrder_of_source {o : Object} (h : FromSource o) : InOrder o := by
  obtain ⟨p, a, hassembled⟩ := h.assembled
  exact ⟨hassembled.relocations_pairwise, fun _ hr => hassembled.inside hr⟩

/-- The relocations of the parts are in order. -/
theorem parts_relocations_pairwise (h : ∀ o ∈ objects, InOrder o) :
    ((parts objects).flatMap Part.relocations).Pairwise Relocation.Before := by
  refine List.pairwise_flatMap.mpr ⟨fun q hq => ?_, ?_⟩
  · exact List.pairwise_map.mpr ((h _ (mem_of_mem_parts hq)).ascending.imp move_before)
  · refine List.Pairwise.imp_of_mem ?_ (partsFrom_pairwise objects 0 0 0)
    intro q q' hq hq' hbefore r hr r' hr'
    obtain ⟨s, hs, rfl⟩ := List.mem_map.mp hr
    obtain ⟨s', hs', rfl⟩ := List.mem_map.mp hr'
    have hend := ((h _ (mem_of_mem_parts hq)).inside s hs).2
    have hstart := ((h _ (mem_of_mem_parts hq')).inside s' hs').1
    have hbase := hbefore.2
    simp only [Relocation.Before, move]
    omega

theorem Merged.relocations_eq (h : Merged objects m) (horder : ∀ o ∈ objects, InOrder o) :
    m.relocations = (parts objects).flatMap Part.relocations :=
  h.relocations.trans (sortRelocations_eq (parts_relocations_pairwise horder))

/-- Merged objects in order are an object in order. -/
theorem Merged.inOrder (h : Merged objects m) (horder : ∀ o ∈ objects, InOrder o) : InOrder m := by
  have hrelocations := h.relocations_eq horder
  refine ⟨hrelocations ▸ parts_relocations_pairwise horder, fun r hr => ?_⟩
  rw [hrelocations] at hr
  obtain ⟨q, hq, hr⟩ := List.mem_flatMap.mp hr
  obtain ⟨s, hs, rfl⟩ := List.mem_map.mp hr
  have hinside := (horder _ (mem_of_mem_parts hq)).inside s hs
  have hlen := (h.length_le hq).1
  simp only [move]
  omega

theorem MergedSources.inOrder (h : MergedSources objects m) : ∀ o ∈ objects, InOrder o :=
  fun o ho => inOrder_of_source (h.sources o ho)

theorem MergedSources.relocations_pairwise (h : MergedSources objects m) :
    ((parts objects).flatMap Part.relocations).Pairwise Relocation.Before :=
  parts_relocations_pairwise h.inOrder

theorem MergedSources.relocations_eq (h : MergedSources objects m) :
    m.relocations = (parts objects).flatMap Part.relocations :=
  h.toMerged.relocations_eq h.inOrder

theorem MergedSources.mem_relocations (h : MergedSources objects m) {r : Relocation} :
    r ∈ m.relocations ↔ ∃ q ∈ parts objects, ∃ s ∈ q.object.relocations,
      move q.object q.count q.codeBase s = r := by
  simp [h.relocations_eq, Part.relocations]

/-- A place of a part is in a field of the merged object only if it is in a field of the part. -/
theorem MergedSources.covers_of_covers (h : MergedSources objects m) (hq : q ∈ parts objects)
    {i : Nat} (hi : i < q.object.code.length) {r : Relocation} (hr : r ∈ m.relocations)
    (hcovers : r.Covers (q.codeBase + i)) : ∃ s ∈ q.object.relocations, s.Covers i := by
  obtain ⟨q', hq', s, hs, rfl⟩ := h.mem_relocations.mp hr
  obtain ⟨p, a, hpart⟩ := h.assembled hq'
  have hinside := hpart.inside hs
  simp only [Relocation.Covers, move] at hcovers
  rcases parts_apart hq hq' with rfl | hapart
  · refine ⟨s, hs, ?_⟩
    simp only [Relocation.Covers]
    omega
  · omega

end Places

/-! ### Merged objects in order -/

section Order
variable {objects : List Object} {m : Object}

/-- The extensions of merged objects are known, and supported where those of the objects are. -/
theorem foldl_union_spec (e : Mask) : ∀ (os : List Object) (mask : Mask), mask.Known →
    (∀ o ∈ os, o.mask.Known) → (os.foldl (fun mask o => mask.union o.mask) mask).Known ∧
      (mask.diff e = 0 → (∀ o ∈ os, o.mask.diff e = 0) →
        (os.foldl (fun mask o => mask.union o.mask) mask).diff e = 0)
  | [], _, hmask, _ => ⟨hmask, fun h _ => h⟩
  | o :: os, mask, hmask, hos => by
    have ho := hos o List.mem_cons_self
    obtain ⟨hknown, hdiff⟩ := foldl_union_spec e os (mask.union o.mask) (hmask.union ho)
      fun o' ho' => hos o' (List.mem_cons_of_mem o ho')
    refine ⟨hknown, fun h h' => hdiff (hmask.union_diff ho h (h' o List.mem_cons_self)) ?_⟩
    exact fun o' ho' => h' o' (List.mem_cons_of_mem o ho')

theorem MergedSources.mask_spec (h : MergedSources objects m) (e : Mask) :
    m.mask.Known ∧ ((∀ o ∈ objects, o.mask.diff e = 0) → m.mask.diff e = 0) := by
  have hknown : ∀ o ∈ objects, o.mask.Known := by
    intro o ho
    obtain ⟨p, a, hpart⟩ := (h.sources o ho).assembled
    exact hpart.wellFormed.mask
  obtain ⟨hk, hdiff⟩ := foldl_union_spec e objects 0 ⟨0, by decide, rfl⟩ hknown
  rw [h.mask]
  exact ⟨hk, hdiff (Mask.zero_diff e)⟩

/-- **Objects of accepted programs are merged to an object in order.** -/
theorem MergedSources.wellFormed (h : MergedSources objects m) : m.WellFormed where
  mask := (h.mask_spec 0).1
  length_code := h.length_code
  length_data := h.length_data
  inside := (h.toMerged.inOrder h.inOrder).inside
  reach x hx := by
    refine ⟨?_, h.reach x hx⟩
    have hlow : ∀ {c d : Nat} {y : ObjectSymbol}, 0 ≤ y.value → 0 ≤ (rebase c d y).value := by
      intro c d y hy
      simp only [rebase]
      omega
    rcases List.mem_append.mp hx with hx | hx
    · obtain ⟨q, hq, y, hy, rfl⟩ := h.mem_exports.mp hx
      obtain ⟨p, a, hpart⟩ := h.assembled hq
      exact hlow (hpart.reach (List.mem_append_left _ hy)).1
    · obtain ⟨q, hq, y, hy, rfl⟩ := h.mem_symbols.mp hx
      obtain ⟨p, a, hpart⟩ := h.assembled hq
      exact hlow (hpart.reach (List.mem_append_right _ hy)).1
  datum r hr hkind := by
    obtain ⟨q, hq, s, hs, rfl⟩ := h.mem_relocations.mp hr
    obtain ⟨p, a, hpart⟩ := h.assembled hq
    obtain ⟨x, y, hx, hy, hvalue⟩ := h.lookup?_datum hq hs hkind
    obtain ⟨x', hx', hend⟩ := hpart.wellFormed.datum s hs hkind
    cases hx.symm.trans hx'
    have hlen := (h.length_le hq).2
    exact ⟨y, hy, by omega⟩
  call r hr hkind := by
    obtain ⟨q, hq, s, hs, rfl⟩ := h.mem_relocations.mp hr
    obtain ⟨p, a, hpart⟩ := h.assembled hq
    simp only [move, retarget_of_call (show s.kind = .externalCall from hkind)]
    exact hpart.wellFormed.call s hs hkind
  pins ref href id hid := by
    obtain ⟨o, ho, ref', href', hrid⟩ := h.libraries ref href id hid
    obtain ⟨p, a, hpart⟩ := (h.sources o ho).assembled
    exact hpart.wellFormed.pins ref' href' id hrid

end Order

/-! ### Linking merged objects -/

section Link
variable {objects : List Object} {m : Object} {env : Environment} {s : ContentId.Strategy}

/-- Merged objects without calls are linked, or a field is shadowed and its label is missing. -/
theorem MergedSources.link_yields (h : MergedSources objects m) (hs : s ∈ ContentId.Strategy.known)
    (hmask : ∀ o ∈ objects, o.mask.diff env.mask = 0)
    (hcalls : ∀ o ∈ objects, ∀ r ∈ o.relocations, r.kind ≠ .externalCall) :
    Steps.Yields (fun _ => True)
      (fun e => (∃ o ∈ objects, ∃ r ∈ o.relocations, Shadowed o r) ∧
        ∃ target, e = .internal (.unresolvedLabel m.name target)) (linkObject m env s) := by
  have hsupported := (h.mask_spec env.mask).2 hmask
  refine (link_yields_of_no_call h.wellFormed hs (supports_eq_ok.mpr hsupported) ?_ ?_).imp
    (fun _ _ => trivial) fun _ he => he
  · intro r hr hkind
    obtain ⟨q, hq, r', hr', rfl⟩ := h.mem_relocations.mp hr
    exact hcalls q.object (mem_of_mem_parts hq) r' hr' hkind
  · intro r hr hkind hnone
    obtain ⟨q, hq, r', hr', rfl⟩ := h.mem_relocations.mp hr
    refine ⟨⟨q.object, mem_of_mem_parts hq, r', hr', ?_⟩, _, rfl⟩
    by_contra hfree
    obtain ⟨x, y, -, hy, -⟩ := h.lookup?_label hq hr' hkind hfree
    cases hnone.symm.trans hy

theorem MergedSources.exists_link (h : MergedSources objects m)
    (hs : s ∈ ContentId.Strategy.known) (hmask : ∀ o ∈ objects, o.mask.diff env.mask = 0)
    (hcalls : ∀ o ∈ objects, ∀ r ∈ o.relocations, r.kind ≠ .externalCall)
    (hfree : ∀ o ∈ objects, ∀ r ∈ o.relocations, ¬ Shadowed o r) :
    ∃ lib, linkObject m env s = .ok lib := by
  have hyields := h.link_yields hs hmask hcalls
  rcases hlink : linkObject m env s with e | lib
  · rw [hlink] at hyields
    obtain ⟨⟨o, ho, r, hr, hshadow⟩, -⟩ := hyields
    exact absurd hshadow (hfree o ho r hr)
  · exact ⟨lib, rfl⟩

theorem MergedSources.linked (h : MergedSources objects m) {lib : Library}
    (hlink : linkObject m env s = .ok lib) : Linked env s m lib := by
  refine linkObject_linked ?_ hlink
  rw [h.relocations_eq]
  exact h.relocations_pairwise

theorem MergedSources.not_shadowed (h : MergedSources objects m) {lib : Library}
    (hlink : linkObject m env s = .ok lib) {o : Object} (ho : o ∈ objects) {r : Relocation}
    (hr : r ∈ o.relocations) : ¬ Shadowed o r := by
  intro hshadow
  obtain ⟨q, hq, rfl⟩ := exists_part ho
  have hnone := h.lookup?_shadowed hq hshadow
  have hholds := (h.linked hlink).fields _ (h.mem_relocations.mpr ⟨q, hq, r, hr, rfl⟩)
  generalize slice lib.code _ _ = field at hholds
  cases hholds with
  | label kind found => cases hnone.symm.trans found
  | datum kind => cases kind.symm.trans hshadow.1
  | call kind => cases kind.symm.trans hshadow.1

theorem not_shadowed_of_names {o : Object} {r : Relocation}
    (h : o.exports.all fun x => o.symbols.all fun y => x.name ≠ y.name) : ¬ Shadowed o r := by
  rintro ⟨-, ⟨x, hx, hxname⟩, y, hy, hyname⟩
  have hne := List.all_eq_true.mp (List.all_eq_true.mp h x hx) y hy
  exact of_decide_eq_true hne (hxname.trans hyname.symm)

/-- The merged object of two texts. -/
theorem exists_merge {first second : String}
    (h : ((objectOf? first).bind fun x => (objectOf? second).bind fun y =>
      (mergeObjects [x, y]).toOption).isSome) :
    ∃ x y merged, objectOf? first = some x ∧ objectOf? second = some y ∧
      mergeObjects [x, y] none = .ok merged := by
  obtain ⟨merged, h⟩ := Option.isSome_iff_exists.mp h
  obtain ⟨x, hx, h⟩ := Option.bind_eq_some_iff.mp h
  obtain ⟨y, hy, h⟩ := Option.bind_eq_some_iff.mp h
  refine ⟨x, y, merged, hx, hy, ?_⟩
  rcases hmerge : mergeObjects [x, y] none with e | merged'
  · simp [hmerge, Except.toOption] at h
  · simpa [hmerge, Except.toOption] using h

theorem fromSource_pair {first second : String} {x y : Object} (hx : objectOf? first = some x)
    (hy : objectOf? second = some y) : ∀ o ∈ [x, y], FromSource o := by
  simp only [List.forall_mem_cons]
  exact ⟨fromSource_of_objectOf? hx, fromSource_of_objectOf? hy, by simp⟩

end Link

/-- **When merged objects can be linked.** Objects of accepted programs without calls, merged, are
linked in an environment that supports their extensions if and only if there is one object that
keeps its name, or no field asks for an exported routine of an object that has a datum of the same
name. In the other case the label of such a field is missing. -/
theorem merge_links_iff {objects : List Object} {name : Option String} {merged : Object}
    {env : Environment} {s : ContentId.Strategy} (hsources : ∀ o ∈ objects, FromSource o)
    (hcalls : ∀ o ∈ objects, ∀ r ∈ o.relocations, r.kind ≠ .externalCall)
    (hmask : ∀ o ∈ objects, o.mask.diff env.mask = 0) (hs : s ∈ ContentId.Strategy.known)
    (hmerge : mergeObjects objects name = .ok merged) :
    ((∃ lib, linkObject merged env s = .ok lib) ↔ (objects.length = 1 ∧ name = none) ∨
      ∀ o ∈ objects, ∀ r ∈ o.relocations, ¬ Shadowed o r) ∧
    ∀ e, linkObject merged env s = .error e →
      ∃ target, e = .internal (.unresolvedLabel merged.name target) := by
  rcases mergeObjects_cases hmerge with ⟨rfl, rfl⟩ | ⟨hseveral, hmerged⟩
  · obtain ⟨p, a, hpart⟩ := (hsources merged List.mem_cons_self).assembled
    obtain ⟨lib, hlib⟩ := hpart.exists_link hs (hmask merged List.mem_cons_self)
      (hcalls merged List.mem_cons_self)
    refine ⟨⟨fun _ => Or.inl ⟨rfl, rfl⟩, fun _ => ⟨lib, hlib⟩⟩, fun e he => ?_⟩
    cases he.symm.trans hlib
  · have h : MergedSources objects merged := ⟨hmerged, hsources⟩
    have hyields := h.link_yields hs hmask hcalls
    rcases hlink : linkObject merged env s with e | lib
    · rw [hlink] at hyields
      obtain ⟨⟨o, ho, r, hr, hshadow⟩, htarget⟩ := hyields
      refine ⟨⟨?_, ?_⟩, ?_⟩
      · rintro ⟨lib, ⟨⟩⟩
      · rintro (hsingle | hfree)
        · exact absurd hsingle hseveral
        · exact absurd hshadow (hfree o ho r hr)
      · rintro e' ⟨⟩
        exact htarget
    · refine ⟨⟨fun _ => Or.inr fun o ho r hr => ?_, fun _ => ⟨lib, rfl⟩⟩, ?_⟩
      · exact h.not_shadowed hlink ho hr
      · rintro e ⟨⟩

/-- An object with a jump ahead, data and an entry. -/
def headSource : String :=
  ".DATA\nmsg = \"ab\"\n.MAIN\njmp end\nputd s16[0], msg\nend: ret\n"

/-- An object with a jump back to a routine, and data of the same name as those of the first. -/
def tailSource : String := ".DATA\nmsg = u16 7\n.ROUTINE go\nputd s16[1], msg\njmp go\n"

/-- The two objects can be merged and linked. -/
theorem head_tail_merged : ∃ x y merged, objectOf? headSource = some x ∧
    objectOf? tailSource = some y ∧ mergeObjects [x, y] none = .ok merged ∧
    (∀ o ∈ [x, y], ∀ r ∈ o.relocations, r.kind ≠ .externalCall) ∧
    ∀ o ∈ [x, y], ∀ r ∈ o.relocations, ¬ Shadowed o r := by
  obtain ⟨x, y, merged, hx, hy, hmerge⟩ := exists_merge (by decide +kernel :
    ((objectOf? headSource).bind fun x => (objectOf? tailSource).bind fun y =>
      (mergeObjects [x, y]).toOption).isSome)
  have hnames : ∀ text ∈ [headSource, tailSource], (objectOf? text).all fun o =>
      o.exports.all fun e => o.symbols.all fun t => e.name ≠ t.name := by decide +kernel
  refine ⟨x, y, merged, hx, hy, hmerge, ?_, ?_⟩ <;> simp only [List.forall_mem_cons]
  · exact ⟨no_call_of_objectOf? hx (by decide +kernel), no_call_of_objectOf? hy (by decide +kernel),
      by simp⟩
  · refine ⟨fun r _ => not_shadowed_of_names ?_, fun r _ => not_shadowed_of_names ?_, by simp⟩
    · simpa [hx] using hnames headSource (by simp)
    · simpa [hy] using hnames tailSource (by simp)

theorem merge_links_of_head_and_tail : ∃ x y merged, objectOf? headSource = some x ∧
    objectOf? tailSource = some y ∧ mergeObjects [x, y] none = .ok merged ∧
    ∃ lib, linkObject merged {} .sha256 = .ok lib := by
  obtain ⟨x, y, merged, hx, hy, hmerge, hcalls, hfree⟩ := head_tail_merged
  have hsources := fromSource_pair hx hy
  exact ⟨x, y, merged, hx, hy, hmerge, (merge_links_iff hsources hcalls
    (fun o ho => (hsources o ho).diff_full) List.mem_cons_self hmerge).1.mpr (Or.inr hfree)⟩

/-- An object whose routine and datum have one name. -/
def shadowSource : String := ".DATA\nfoo = u8 1\n.ROUTINE foo\njmp foo\n"

/-- An object with nothing to fill. -/
def plainSource : String := ".ROUTINE bar\nnop\n"

/-- Merged, these two objects cannot be linked, although each of them is in order. -/
theorem merge_of_shadow_fails : ∃ x y merged, objectOf? shadowSource = some x ∧
    objectOf? plainSource = some y ∧ mergeObjects [x, y] none = .ok merged ∧
    (∀ o ∈ [x, y], FromSource o ∧ (∀ r ∈ o.relocations, r.kind ≠ .externalCall) ∧
      o.mask.diff ({} : Environment).mask = 0) ∧
    ∀ lib, linkObject merged {} .sha256 ≠ .ok lib := by
  obtain ⟨x, y, merged, hx, hy, hmerge⟩ := exists_merge (by decide +kernel :
    ((objectOf? shadowSource).bind fun x => (objectOf? plainSource).bind fun y =>
      (mergeObjects [x, y]).toOption).isSome)
  have hsources := fromSource_pair hx hy
  have hcalls : ∀ o ∈ [x, y], ∀ r ∈ o.relocations, r.kind ≠ .externalCall := by
    simp only [List.forall_mem_cons]
    exact ⟨no_call_of_objectOf? hx (by decide +kernel),
      no_call_of_objectOf? hy (by decide +kernel), by simp⟩
  refine ⟨x, y, merged, hx, hy, hmerge,
    fun o ho => ⟨hsources o ho, hcalls o ho, (hsources o ho).diff_full⟩, fun lib hlib => ?_⟩
  rcases mergeObjects_cases hmerge with ⟨⟨⟩, -⟩ | ⟨-, hmerged⟩
  obtain ⟨p, a, hparse, hanalysis, hok, hencode⟩ := stages_of_objectOf? hx
  have hfield : ((parse nameless shadowSource none).toOption.bind fun p =>
      (ofProgram p [] none).toOption).all fun a =>
        ⟨1, .localOffset, "foo"⟩ ∈ (a.code.flatMap Placed.cells).filterMap Cell.relocation? := by
    decide +kernel
  have hnames : (objectOf? shadowSource).all fun o =>
      o.exports.map (·.name) = ["foo"] ∧ o.symbols.map (·.name) = ["foo"] := by decide +kernel
  have hfield : (⟨1, .localOffset, "foo"⟩ : Relocation) ∈ x.relocations := by
    rw [(assembled_of_encode hparse hanalysis hok hencode).encoded.relocations]
    simpa [hparse, hanalysis, Except.toOption] using hfield
  have hnames : x.exports.map (·.name) = ["foo"] ∧ x.symbols.map (·.name) = ["foo"] := by
    simpa [hx] using hnames
  refine MergedSources.not_shadowed ⟨hmerged, hsources⟩ hlib List.mem_cons_self hfield ⟨rfl, ?_, ?_⟩
  · simpa using (by rw [hnames.1]; simp : "foo" ∈ x.exports.map (·.name))
  · simpa using (by rw [hnames.2]; simp : "foo" ∈ x.symbols.map (·.name))

/-! ### The code of merged objects -/

/-- **What the field of a part holds** in the library of merged objects: what it asks for in its
own object, moved with the object, or the library that the merged object calls. -/
inductive Rebased (env : Environment) (s : ContentId.Strategy) (merged : Object) (lib : Library)
    (q : Part) (r : Relocation) : Bytes → Prop where
  | label {x : ObjectSymbol} (kind : r.kind = .localOffset)
      (found : q.object.lookup? r.target [.localLabel, .exportedLabel] = some x)
      (low : 0 ≤ x.value) (high : x.value + q.codeBase ≤ maxOffset) :
      Rebased env s merged lib q r (Bytes.ofNat 2 (x.value + q.codeBase).toNat)
  | datum {x : ObjectSymbol} (kind : r.kind = .dataAddress)
      (found : q.object.lookup? r.target [.dataSymbol] = some x)
      (low : 0 ≤ x.value) (high : x.value + q.dataBase ≤ maxOffset) :
      Rebased env s merged lib q r (Bytes.ofNat 2 (x.value + q.dataBase).toNat)
  | call {name routine id : String} {l : Library} {offset : Int} {index : Nat}
      (kind : r.kind = .externalCall)
      (divided : Linker.splitTarget? r.target = some (name, routine))
      (resolved : resolution? env s merged name = some l)
      (exported : exportOffset? l.exports routine = some offset)
      (low : 0 ≤ offset) (high : offset ≤ maxOffset)
      (listed : lib.libraries[index]? = some id) (normal : ContentId.normalize l.id = .ok id)
      (small : index < Job.maxLibraries) :
      Rebased env s merged lib q r (UInt8.ofNat index :: Bytes.ofNat 2 offset.toNat)

section Code
variable {objects : List Object} {m : Object} {env : Environment} {s : ContentId.Strategy}
  {lib : Library} {q : Part} {r : Relocation}

theorem MergedSources.rebased (h : MergedSources objects m) (hlink : linkObject m env s = .ok lib)
    (hq : q ∈ parts objects) (hr : r ∈ q.object.relocations) :
    Rebased env s m lib q r (slice lib.code (q.codeBase + r.offset.toNat) r.kind.width) := by
  obtain ⟨p, a, hpart⟩ := h.assembled hq
  have hholds := (h.linked hlink).fields _ (h.mem_relocations.mpr ⟨q, hq, r, hr, rfl⟩)
  have hplace :
      (move q.object q.count q.codeBase r).offset.toNat = q.codeBase + r.offset.toNat := by
    have := (hpart.inside hr).1
    simp only [move]
    omega
  rw [hplace] at hholds
  change Holds env s m lib _ (slice lib.code _ r.kind.width) at hholds
  generalize slice lib.code _ _ = field at hholds ⊢
  cases hholds with
  | @label y kind found low high =>
    obtain ⟨x, y', hx, hy, hvalue⟩ := h.lookup?_label hq hr kind
      (h.not_shadowed hlink (mem_of_mem_parts hq) hr)
    cases found.symm.trans hy
    rw [hvalue] at high ⊢
    exact .label kind hx (hpart.reach (lookup?_eq_some hx).1).1 high
  | @datum y kind found low high =>
    obtain ⟨x, y', hx, hy, hvalue⟩ := h.lookup?_datum hq hr kind
    cases found.symm.trans hy
    rw [hvalue] at high ⊢
    exact .datum kind hx (hpart.reach (lookup?_eq_some hx).1).1 high
  | call kind divided resolved exported low high listed normal small =>
    rw [show (move q.object q.count q.codeBase r).target = r.target from
      retarget_of_call kind] at divided
    exact .call kind divided resolved exported low high listed normal small

theorem MergedSources.exports_eq (h : MergedSources objects m) : m.exports =
    (parts objects).flatMap fun q => q.object.exports.map fun x =>
      { x with value := x.value + q.codeBase } := by
  rw [h.exports]
  refine List.flatMap_congr fun q hq => List.map_congr_left fun x hx => ?_
  obtain ⟨p, a, hpart⟩ := h.assembled hq
  obtain ⟨y, -, hy, rfl⟩ := hpart.encoded.mem_exports.mp hx
  simp [rebase, hy]

end Code

/-- **Merging rebases.** In the library of several merged objects, data and exports are those of
the objects in order, the entry is that of the only object that has one, and the code of every
object is as it was outside its fields. A field holds what it asks for in its own object, moved
with the object. -/
theorem merged_library_rebased {objects : List Object} {name : Option String} {merged : Object}
    {env : Environment} {s : ContentId.Strategy} {lib : Library}
    (hsources : ∀ o ∈ objects, FromSource o) (hseveral : 2 ≤ objects.length)
    (hmerge : mergeObjects objects name = .ok merged)
    (hlink : linkObject merged env s = .ok lib) :
    lib.data = objects.flatMap (·.data) ∧
    (lib.exports = (parts objects).flatMap fun q => q.object.exports.map fun x =>
      { x with value := x.value + q.codeBase }) ∧
    (lib.entry.toList = (parts objects).filterMap fun q =>
      q.object.entry.map (· + (q.codeBase : Int))) ∧
    lib.code.length = codeSize objects ∧
    ∀ q ∈ parts objects,
      (∀ i < q.object.code.length, (∀ r ∈ q.object.relocations, ¬ r.Covers i) →
        lib.code[q.codeBase + i]? = q.object.code[i]?) ∧
      ∀ r ∈ q.object.relocations, Rebased env s merged lib q r
        (slice lib.code (q.codeBase + r.offset.toNat) r.kind.width) := by
  rcases mergeObjects_cases hmerge with ⟨rfl, -⟩ | ⟨-, hmerged⟩
  · simp at hseveral
  · have h : MergedSources objects merged := ⟨hmerged, hsources⟩
    have hlinked := h.linked hlink
    refine ⟨hlinked.data.trans h.data, hlinked.exports.trans h.exports_eq, ?_, ?_,
      fun q hq => ⟨?_, ?_⟩⟩
    · rw [hlinked.entry, h.entry]
      rfl
    · rw [hlinked.length_code, h.code, List.length_flatMap]
      rfl
    · intro i hi hfree
      rw [← h.getElem?_code hq hi]
      refine hlinked.outside _ fun r hr hcovers => ?_
      obtain ⟨r', hr', hcovers'⟩ := h.covers_of_covers hq hi hr hcovers
      exact hfree r' hr' hcovers'
    · exact fun r hr => h.rebased hlink hq hr

theorem merged_library_of_head_and_tail : ∃ x y merged lib, objectOf? headSource = some x ∧
    objectOf? tailSource = some y ∧ mergeObjects [x, y] none = .ok merged ∧
    linkObject merged {} .sha256 = .ok lib ∧ lib.data = x.data ++ y.data ∧
    (∀ i < y.code.length, (∀ r ∈ y.relocations, ¬ r.Covers i) →
      lib.code[x.code.length + i]? = y.code[i]?) ∧
    ∀ r ∈ y.relocations, Rebased {} .sha256 merged lib ⟨y, 1, x.code.length, x.data.length⟩ r
      (slice lib.code (x.code.length + r.offset.toNat) r.kind.width) := by
  obtain ⟨x, y, merged, hx, hy, hmerge, hcalls, hfree⟩ := head_tail_merged
  have hsources := fromSource_pair hx hy
  rcases mergeObjects_cases hmerge with ⟨⟨⟩, -⟩ | ⟨-, hmerged⟩
  have hyields : Steps.Yields _ _ (linkObject merged {} .sha256) :=
    MergedSources.link_yields ⟨hmerged, hsources⟩ List.mem_cons_self
      (fun o ho => (hsources o ho).diff_full) hcalls
  rcases hlink : linkObject merged {} .sha256 with e | lib
  · rw [hlink] at hyields
    obtain ⟨⟨o, ho, r, hr, hshadow⟩, -⟩ := hyields
    exact absurd hshadow (hfree o ho r hr)
  · obtain ⟨hdata, -, -, -, hcode⟩ := merged_library_rebased hsources (by simp) hmerge hlink
    have hparts : parts [x, y] = [⟨x, 0, 0, 0⟩, ⟨y, 1, x.code.length, x.data.length⟩] := by
      simp [parts, partsFrom]
    obtain ⟨houtside, hfields⟩ := hcode ⟨y, 1, x.code.length, x.data.length⟩ (by simp [hparts])
    exact ⟨x, y, merged, lib, hx, hy, hmerge, hlink, by simpa using hdata, houtside, hfields⟩

end AluVM.Merge
