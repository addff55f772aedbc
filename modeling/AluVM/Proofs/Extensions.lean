import AluVM.Proofs.CallTable
import AluVM.Proofs.Gaps
import Mathlib.Data.Int.Bitwise

/-! # The extensions of linked code

Code declares its extensions in a mask, and every word of it starts with the opcode of an
instruction whose extension is declared (`Mask.Declares`). The analysis checks this for one
program (`Assembled.declares`). Merged objects have the extensions of all their parts, and a word
of the merged code is a word of one part (`MergedSources.declares`). The linker fills fields, which
leave the opcodes alone, and it refuses an object with extensions that the environment does not
support. So no library runs an extension that was not declared and supported. -/

namespace AluVM

open Analysis Merge

/-! ### Masks -/

namespace Mask

/-- Every word of the code starts with the opcode of an instruction of a declared extension. -/
def Declares (mask : Mask) (code : Bytes) : Prop :=
  ∀ k, wordSize * k < code.length → ∃ spec ∈ Spec.all,
    code[wordSize * k]? = some spec.opcode ∧ mask.has spec.extension = true

/-- A mask without bits outside another one has only bits of that one. -/
theorem testBit_of_diff {m n : Mask} (h : m.diff n = 0) {i : Nat} (hm : Int.testBit m i = true) :
    Int.testBit n i = true := by
  rcases m with a | a <;> rcases n with b | b
  · have hand : a &&& b = a := natDiff_eq_zero.mp (Int.ofNat.inj h)
    have hbit := congrArg (Nat.testBit · i) hand
    simp only [Nat.testBit_and, Int.testBit] at hbit hm ⊢
    simpa [hm] using hbit
  · have hand : a &&& b = 0 := Int.ofNat.inj h
    have hbit := congrArg (Nat.testBit · i) hand
    simp only [Nat.testBit_and, Nat.zero_testBit, Int.testBit] at hbit hm ⊢
    simpa [hm] using hbit
  · cases h
  · have hand : b &&& a = b := natDiff_eq_zero.mp (Int.ofNat.inj h)
    have hbit := congrArg (Nat.testBit · i) hand
    simp only [Nat.testBit_and, Int.testBit, Bool.not_eq_true'] at hbit hm ⊢
    simpa [hm] using hbit.symm

theorem Known.has_union {m n : Mask} (hm : m.Known) (hn : n.Known) (e : Extension) :
    (m.union n).has e = (m.has e || n.has e) := by
  have hall : ∀ a < 2 ^ 4, ∀ b < 2 ^ 4, (Mask.union (.ofNat a) (.ofNat b)).has e =
      (Mask.has (.ofNat a) e || Mask.has (.ofNat b) e) := by
    cases e <;> decide
  obtain ⟨a, ha, rfl⟩ := hm
  obtain ⟨b, hb, rfl⟩ := hn
  exact hall a ha b hb

end Mask

/-! ### Assembled objects -/

/-- **The words of a program are of declared extensions.** -/
theorem Analysis.Assembled.declares {p : Syntax.Program} {a : Analysis} {o : Object}
    (h : Assembled p a o) : o.mask.Declares o.code := by
  intro k hk
  rw [h.encoded.length_code] at hk
  have hlength : p.instructions.length = a.code.length := by
    simpa using h.accepted.code.length_eq
  have hlt : k < p.instructions.length := by
    rw [hlength]
    exact Nat.lt_of_mul_lt_mul_left hk
  obtain ⟨q, hq, hsound⟩ := h.accepted.sound_at (List.getElem?_eq_getElem hlt)
  have hopcode := (h.encoded.word_pieces hq hsound).1
  refine ⟨q.spec, Spec.mem_all_of_named? hsound.spec, ?_, ?_⟩
  · have hbyte := getElem?_slice o.code (wordSize * k) 1 0
    rw [hopcode] at hbyte
    simpa using hbyte.symm
  · rw [h.encoded.mask]
    exact hsound.extension

/-! ### Merged objects -/

namespace Merge

/-- Every place of merged code is a place of one part. -/
theorem exists_partsFrom {i : Nat} : ∀ {objects : List Object} {n c d : Nat}, c ≤ i →
    i < c + codeSize objects →
    ∃ q ∈ partsFrom n c d objects, q.codeBase ≤ i ∧ i < q.codeBase + q.object.code.length
  | [], n, c, d, hlow, hhigh => by
    simp only [codeSize, List.map_nil, List.sum_nil] at hhigh
    omega
  | o :: os, n, c, d, hlow, hhigh => by
    by_cases hhere : i < c + o.code.length
    · exact ⟨⟨o, n, c, d⟩, List.mem_cons_self, hlow, hhere⟩
    · have hrest : i < c + o.code.length + codeSize os := by
        simp only [codeSize, List.map_cons, List.sum_cons] at hhigh ⊢
        omega
      obtain ⟨q, hq, hin⟩ := exists_partsFrom (n := n + 1) (d := d + o.data.length)
        (by omega) hrest
      exact ⟨q, List.mem_cons_of_mem _ hq, hin⟩

theorem Merged.exists_part_at {objects : List Object} {m : Object} (h : Merged objects m) {i : Nat}
    (hi : i < m.code.length) :
    ∃ q ∈ parts objects, q.codeBase ≤ i ∧ i < q.codeBase + q.object.code.length := by
  rw [h.code, List.length_flatMap] at hi
  exact exists_partsFrom (Nat.zero_le i) (by simpa [codeSize] using hi)

/-- The union has the extensions of all its members. -/
theorem has_foldl_union {e : Extension} : ∀ (os : List Object) (mask : Mask), mask.Known →
    (∀ o ∈ os, o.mask.Known) → (mask.has e = true ∨ ∃ o ∈ os, o.mask.has e = true) →
    (os.foldl (fun mask o => mask.union o.mask) mask).has e = true
  | [], mask, _, _, h => by simpa using h
  | o :: os, mask, hmask, hos, h => by
    have ho := hos o List.mem_cons_self
    refine has_foldl_union os (mask.union o.mask) (hmask.union ho)
      (fun o' ho' => hos o' (List.mem_cons_of_mem o ho')) ?_
    rw [hmask.has_union ho, Bool.or_eq_true]
    rcases h with h | ⟨o', ho', h⟩
    · exact Or.inl (Or.inl h)
    · rcases List.mem_cons.mp ho' with rfl | ho'
      · exact Or.inl (Or.inr h)
      · exact Or.inr ⟨o', ho', h⟩

section Merged
variable {objects : List Object} {m : Object}

theorem MergedSources.has_of_part (h : MergedSources objects m) {o : Object} (ho : o ∈ objects)
    {e : Extension} (hhas : o.mask.has e = true) : m.mask.has e = true := by
  rw [h.mask]
  refine has_foldl_union objects 0 ⟨0, by decide, rfl⟩ (fun o' ho' => ?_) (Or.inr ⟨o, ho, hhas⟩)
  obtain ⟨p, a, hpart⟩ := (h.sources o' ho').assembled
  exact hpart.wellFormed.mask

/-- **The words of merged code are of declared extensions**: each is a word of one part. -/
theorem MergedSources.declares (h : MergedSources objects m) : m.mask.Declares m.code := by
  intro k hk
  obtain ⟨q, hq, hlow, hhigh⟩ := h.exists_part_at hk
  obtain ⟨p, a, hpart⟩ := h.assembled hq
  -- parts start at words, so the place is the start of a word of the part
  obtain ⟨base, hbase⟩ := h.dvd_codeBase hq
  have hle : base ≤ k := by
    rw [hbase] at hlow
    exact Nat.le_of_mul_le_mul_left hlow (by decide)
  obtain ⟨j, rfl⟩ := Nat.exists_eq_add_of_le hle
  rw [Nat.mul_add, ← hbase] at hhigh ⊢
  have hj : wordSize * j < q.object.code.length := by omega
  obtain ⟨spec, hspec, hopcode, hhas⟩ := hpart.declares j hj
  refine ⟨spec, hspec, ?_, h.has_of_part (mem_of_mem_parts hq) hhas⟩
  rw [h.getElem?_code hq hj]
  exact hopcode

end Merged

theorem declares_of_merge {objects : List Object} {name : Option String} {m : Object}
    (hsources : ∀ o ∈ objects, FromSource o) (hmerge : mergeObjects objects name = .ok m) :
    m.mask.Declares m.code := by
  rcases mergeObjects_cases hmerge with ⟨rfl, -⟩ | ⟨-, hmerged⟩
  · obtain ⟨p, a, hpart⟩ := (hsources m List.mem_cons_self).assembled
    exact hpart.declares
  · exact MergedSources.declares ⟨hmerged, hsources⟩

end Merge

/-! ### Linking -/

/-- **No library runs an undeclared extension.** Whatever objects are merged and linked against,
every word of the library starts with the opcode of an instruction whose extension the library
declares, and the environment supports all extensions that it declares. -/
theorem linked_extensions_declared {objects : List Object} {name : Option String} {m : Object}
    {env : Environment} {s : ContentId.Strategy} {lib : Library}
    (hsources : ∀ o ∈ objects, FromSource o) (hmerge : mergeObjects objects name = .ok m)
    (hlink : linkObject m env s = .ok lib) :
    (∀ k, wordSize * k < lib.code.length → ∃ spec ∈ Spec.all,
      lib.code[wordSize * k]? = some spec.opcode ∧ lib.mask.has spec.extension = true) ∧
    ∀ i, Int.testBit lib.mask i = true → Int.testBit env.mask i = true := by
  have hgapped := gapped_of_merge hsources hmerge
  have hlinked := hgapped.linked hlink
  obtain ⟨hsupported, -⟩ := exists_lists hlink
  rw [(keeps_of_linkObject hlink).1]
  refine ⟨fun k hk => ?_, fun i hi => Mask.testBit_of_diff hsupported hi⟩
  rw [hlinked.length_code] at hk
  rw [hlinked.outside (wordSize * k) fun r hr => hgapped.not_covers hr k]
  exact declares_of_merge hsources hmerge k hk

/-- A routine that computes a digest. -/
def hashSource : String := ".ISAE\nBPDIGEST\n.ROUTINE hash\nsha256 s16[0], r256[1]\nret\n"

/-- A routine of the base instruction set. -/
def loopSource : String := ".ROUTINE loop\nnop\njmp loop\n"

theorem linked_extensions_of_hash_and_loop : ∃ x y merged lib, objectOf? hashSource = some x ∧
    objectOf? loopSource = some y ∧ mergeObjects [x, y] none = .ok merged ∧
    linkObject merged { mask := 3 } .sha256 = .ok lib ∧ lib.mask = 3 ∧ lib.code.length = 32 ∧
    (∀ k, wordSize * k < lib.code.length → ∃ spec ∈ Spec.all,
      lib.code[wordSize * k]? = some spec.opcode ∧ lib.mask.has spec.extension = true) ∧
    ∀ i, Int.testBit lib.mask i = true → Int.testBit 3 i = true := by
  have hrun : ((objectOf? hashSource).bind fun x => (objectOf? loopSource).bind fun y =>
      (mergeObjects [x, y]).toOption.bind fun m =>
        (linkObject m { mask := 3 } .sha256).toOption.filter fun lib =>
          lib.mask = 3 && lib.code.length = 32).isSome := by decide +kernel
  obtain ⟨lib, hrun⟩ := Option.isSome_iff_exists.mp hrun
  obtain ⟨x, hx, hrun⟩ := Option.bind_eq_some_iff.mp hrun
  obtain ⟨y, hy, hrun⟩ := Option.bind_eq_some_iff.mp hrun
  obtain ⟨merged, hmerge, hrun⟩ := Option.bind_eq_some_iff.mp hrun
  obtain ⟨hlink, hlib⟩ := Option.filter_eq_some_iff.mp hrun
  simp only [Bool.and_eq_true, decide_eq_true_eq] at hlib
  have hmerge := Steps.toOption_eq_some.mp hmerge
  have hlink := Steps.toOption_eq_some.mp hlink
  obtain ⟨hwords, hbits⟩ := linked_extensions_declared (fromSource_pair hx hy) hmerge hlink
  exact ⟨x, y, merged, lib, hx, hy, hmerge, hlink, hlib.1, hlib.2, hwords, hbits⟩

end AluVM
