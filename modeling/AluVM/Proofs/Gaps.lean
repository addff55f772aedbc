import AluVM.Proofs.Assembler
import AluVM.Proofs.MergedObjects
import Mathlib.Algebra.BigOperators.Ring.List

/-! # Code with gaps

The code of an object is whole words, and its relocations are gaps in them (`Object.Gapped`): a
field lies behind the opcode of one word, the fields come in the order of the code, no two of them
meet, and all of them are zero until the object is linked. An assembled object has this form
(`Assembled.gapped`). Merging moves every object by whole words, so merged objects have it as well
(`MergedSources.gapped`). It is what makes the order of the three rounds of the linker irrelevant:
a round fills fields that no other round sees, and nothing else. -/

namespace AluVM

open Analysis Merge

/-- The field lies in word `k` of the code, behind its opcode. -/
def Relocation.InWord (r : Relocation) (k : Nat) : Prop :=
  ((wordSize * k : Nat) : Int) < r.offset ∧
    r.offset + r.kind.width ≤ ((wordSize * k + wordSize : Nat) : Int)

/-- **Code with gaps**: whole words, whose fields lie each in one of them and are apart and zero. -/
structure Object.Gapped (o : Object) : Prop where
  words : wordSize ∣ o.code.length
  ascending : o.relocations.Pairwise fun r s => r.offset < s.offset
  apart : o.relocations.Pairwise Relocation.Apart
  inWord : ∀ r ∈ o.relocations, ∃ k, r.InWord k ∧ wordSize * k + wordSize ≤ o.code.length
  zero : ∀ r ∈ o.relocations, ∀ i, r.Covers i → o.code[i]? = some 0

theorem Relocation.Before.lt {r s : Relocation} (h : r.Before s) : r.offset < s.offset := by
  have hwidth := r.kind.width_pos
  unfold Before at h
  omega

/-- No field reaches the opcode of a word. -/
theorem Relocation.InWord.not_covers {r : Relocation} {j : Nat} (h : r.InWord j) (k : Nat) :
    ¬ r.Covers (wordSize * k) := by
  intro hcovers
  simp only [InWord, Covers, wordSize] at h hcovers
  omega

theorem Object.Gapped.not_covers {o : Object} (h : o.Gapped) {r : Relocation}
    (hr : r ∈ o.relocations) (k : Nat) : ¬ r.Covers (wordSize * k) := by
  obtain ⟨j, hj, -⟩ := h.inWord r hr
  exact hj.not_covers k

/-! ### Assembled objects -/

namespace Analysis

section Assembled
variable {p : Syntax.Program} {a : Analysis} {o : Object}

/-- The cell of a field: a cell of a word that holds a name. -/
theorem Assembled.exists_word (h : Assembled p a o) {r : Relocation} (hr : r ∈ o.relocations) :
    ∃ k q i, ∃ c ∈ q.cells, a.code[k]? = some q ∧ Sound a.symbols a.mask (wordSize * k) i q ∧
      c.relocation? = some r := by
  rw [h.encoded.relocations] at hr
  obtain ⟨c, hc, hrc⟩ := List.mem_filterMap.mp hr
  obtain ⟨q, hq, hc⟩ := List.mem_flatMap.mp hc
  obtain ⟨k, i, hk, -, hsound⟩ := h.accepted.sound_of_mem hq
  exact ⟨k, q, i, c, hc, hk, hsound, hrc⟩

theorem Assembled.inWord (h : Assembled p a o) {r : Relocation} (hr : r ∈ o.relocations) :
    ∃ k, r.InWord k ∧ wordSize * k + wordSize ≤ o.code.length := by
  obtain ⟨k, q, i, c, hc, hk, hsound, hrc⟩ := h.exists_word hr
  have hcell := hsound.mem_cells hc
  have hplace := relocation?_place hrc
  have hlt : k < a.code.length := (List.getElem?_eq_some_iff.mp hk).1
  refine ⟨k, ?_, ?_⟩
  · unfold Relocation.InWord
    omega
  · rw [h.encoded.length_code]
    exact Nat.mul_le_mul_left wordSize hlt

/-- A field is zero before it is filled. -/
theorem Assembled.zero (h : Assembled p a o) {r : Relocation} (hr : r ∈ o.relocations) {i : Nat}
    (hcovers : r.Covers i) : o.code[i]? = some 0 := by
  obtain ⟨k, q, instruction, c, hc, hk, hsound, hrc⟩ := h.exists_word hr
  obtain ⟨⟨kind, target⟩, hname, -⟩ := Option.map_eq_some_iff.mp hrc
  -- the encoder leaves the cell of a name zero
  have hcell := (h.encoded.word_pieces hk hsound).2.1 c hc
  rw [nameField_eq q a.file hname] at hcell
  have hzero : slice o.code c.place c.slot.size = List.replicate c.slot.size 0 :=
    (Except.ok.inj hcell).symm
  have hplace := relocation?_place hrc
  unfold Relocation.Covers at hcovers
  have hlow : c.place ≤ i := by omega
  have hhigh : i - c.place < c.slot.size := by omega
  have hbyte := getElem?_slice o.code c.place c.slot.size (i - c.place)
  rw [if_pos hhigh, Nat.add_sub_cancel' hlow, hzero, List.getElem?_replicate, if_pos hhigh] at hbyte
  exact hbyte.symm

/-- **Assembled code has gaps**, one for each name that it uses. -/
theorem Assembled.gapped (h : Assembled p a o) : o.Gapped where
  words := ⟨a.code.length, h.encoded.length_code⟩
  ascending := h.relocations_pairwise.imp Relocation.Before.lt
  apart := h.relocations_pairwise.imp Relocation.Before.apart
  inWord _ hr := h.inWord hr
  zero _ hr _ hcovers := h.zero hr hcovers

end Assembled

end Analysis

/-! ### Merged objects -/

namespace Merge

theorem dvd_codeSize {objects : List Object} (h : ∀ o ∈ objects, wordSize ∣ o.code.length) :
    wordSize ∣ codeSize objects := by
  refine List.dvd_sum fun n hn => ?_
  obtain ⟨o, ho, rfl⟩ := List.mem_map.mp hn
  exact h o ho

section Merged
variable {objects : List Object} {m : Object} {q : Part}

theorem MergedSources.words (h : MergedSources objects m) {o : Object} (ho : o ∈ objects) :
    wordSize ∣ o.code.length := by
  obtain ⟨p, a, hpart⟩ := (h.sources o ho).assembled
  exact hpart.gapped.words

/-- Every object is moved by whole words. -/
theorem MergedSources.dvd_codeBase (h : MergedSources objects m) (hq : q ∈ parts objects) :
    wordSize ∣ q.codeBase := by
  obtain ⟨before, after, hobjects, -, hbase, -⟩ := mem_parts.mp hq
  rw [hbase]
  refine dvd_codeSize fun o ho => h.words ?_
  rw [hobjects]
  exact List.mem_append_left _ ho

theorem inWord_move {r : Relocation} {k : Nat} (h : r.InWord k) (o : Object) (count base : Nat) :
    (move o count (wordSize * base) r).InWord (base + k) := by
  simp only [Relocation.InWord, move, wordSize] at h ⊢
  omega

/-- **Merged code has gaps**: those of the objects, moved with them. -/
theorem MergedSources.gapped (h : MergedSources objects m) : m.Gapped where
  words := by
    rw [h.code, List.length_flatMap]
    exact dvd_codeSize fun o ho => h.words ho
  ascending := by
    rw [h.relocations_eq]
    exact h.relocations_pairwise.imp Relocation.Before.lt
  apart := by
    rw [h.relocations_eq]
    exact h.relocations_pairwise.imp Relocation.Before.apart
  inWord r hr := by
    obtain ⟨q, hq, s, hs, rfl⟩ := h.mem_relocations.mp hr
    obtain ⟨p, a, hpart⟩ := h.assembled hq
    obtain ⟨k, hk, hend⟩ := hpart.inWord hs
    obtain ⟨base, hbase⟩ := h.dvd_codeBase hq
    have hlength := (h.length_le hq).1
    refine ⟨base + k, ?_, ?_⟩
    · rw [hbase]
      exact inWord_move hk q.object q.count base
    · rw [Nat.mul_add]
      omega
  zero r hr i hcovers := by
    obtain ⟨q, hq, s, hs, rfl⟩ := h.mem_relocations.mp hr
    obtain ⟨p, a, hpart⟩ := h.assembled hq
    have hinside := hpart.inside hs
    simp only [Relocation.Covers, move] at hcovers
    -- the place is one of the part, and the field covers it there
    obtain ⟨j, rfl⟩ : ∃ j, i = q.codeBase + j := ⟨i - q.codeBase, by omega⟩
    have hj : j < q.object.code.length := by omega
    rw [h.getElem?_code hq hj]
    refine hpart.zero hs ?_
    unfold Relocation.Covers
    omega

end Merged

end Merge

/-! ### Linking -/

/-- A field ends before the next one starts. -/
theorem Object.Gapped.before {o : Object} (h : o.Gapped) :
    o.relocations.Pairwise Relocation.Before := by
  refine List.Pairwise.imp_of_mem ?_ (h.ascending.and h.apart)
  rintro r s - hs ⟨hlt, hapart⟩
  obtain ⟨k, hword, -⟩ := h.inWord s hs
  have hwidth := s.kind.width_pos
  unfold Relocation.InWord at hword
  -- the second field covers its own offset, so the first one does not
  have hcovers : s.Covers s.offset.toNat := by
    unfold Relocation.Covers
    omega
  have hfree : ¬ r.Covers s.offset.toNat := fun hr => hapart _ hr hcovers
  unfold Relocation.Covers at hfree
  unfold Relocation.Before
  omega

theorem Object.Gapped.linked {o : Object} (h : o.Gapped) {env : Environment}
    {s : ContentId.Strategy} {lib : Library} (hlink : linkObject o env s = .ok lib) :
    Linked env s o lib :=
  linkObject_linked h.before hlink

theorem gapped_of_merge {objects : List Object} {name : Option String} {m : Object}
    (hsources : ∀ o ∈ objects, FromSource o) (hmerge : mergeObjects objects name = .ok m) :
    m.Gapped := by
  rcases mergeObjects_cases hmerge with ⟨rfl, -⟩ | ⟨-, hmerged⟩
  · obtain ⟨p, a, hpart⟩ := (hsources m List.mem_cons_self).assembled
    exact hpart.gapped
  · exact MergedSources.gapped ⟨hmerged, hsources⟩

/-- **Relocations are gaps, and linking fills nothing else.** The fields of an object that is
assembled, or merged from assembled objects, each lie in one word behind its opcode; they are in
ascending order, apart, and zero. Whatever the object is linked against, the library has code of
the same size, which is that of the object outside the fields, and the same data. -/
theorem gapped_and_filled {o : Object}
    (h : FromSource o ∨ ∃ objects name, (∀ x ∈ objects, FromSource x) ∧
      mergeObjects objects name = .ok o) :
    o.Gapped ∧ ∀ (env : Environment) (s : ContentId.Strategy) (lib : Library),
      linkObject o env s = .ok lib → lib.code.length = o.code.length ∧ lib.data = o.data ∧
        ∀ i, (∀ r ∈ o.relocations, ¬ r.Covers i) → lib.code[i]? = o.code[i]? := by
  have hgapped : o.Gapped := by
    rcases h with ho | ⟨objects, name, hsources, hmerge⟩
    · obtain ⟨p, a, hpart⟩ := ho.assembled
      exact hpart.gapped
    · exact gapped_of_merge hsources hmerge
  refine ⟨hgapped, fun env s lib hlink => ?_⟩
  have hlinked := hgapped.linked hlink
  exact ⟨hlinked.length_code, hlinked.data, hlinked.outside⟩

/-- The objects of `head_tail_merged` are linked to a library. -/
theorem head_tail_linked : ∃ x y merged lib, objectOf? headSource = some x ∧
    objectOf? tailSource = some y ∧ mergeObjects [x, y] none = .ok merged ∧
    linkObject merged {} .sha256 = .ok lib := by
  obtain ⟨x, y, merged, hx, hy, hmerge, hcalls, hfree⟩ := head_tail_merged
  have hsources := fromSource_pair hx hy
  rcases mergeObjects_cases hmerge with ⟨⟨⟩, -⟩ | ⟨-, hmerged⟩
  obtain ⟨lib, hlink⟩ : ∃ lib, linkObject merged {} .sha256 = .ok lib :=
    MergedSources.exists_link ⟨hmerged, hsources⟩ List.mem_cons_self
      (fun o ho => (hsources o ho).diff_full) hcalls hfree
  exact ⟨x, y, merged, lib, hx, hy, hmerge, hlink⟩

theorem gapped_and_filled_of_head_and_tail : ∃ x y merged lib, objectOf? headSource = some x ∧
    objectOf? tailSource = some y ∧ mergeObjects [x, y] none = .ok merged ∧
    linkObject merged {} .sha256 = .ok lib ∧ merged.Gapped ∧
    lib.code.length = merged.code.length ∧ lib.data = merged.data ∧
    ∀ i, (∀ r ∈ merged.relocations, ¬ r.Covers i) → lib.code[i]? = merged.code[i]? := by
  obtain ⟨x, y, merged, lib, hx, hy, hmerge, hlink⟩ := head_tail_linked
  obtain ⟨hgapped, hframe⟩ :=
    gapped_and_filled (Or.inr ⟨[x, y], none, fromSource_pair hx hy, hmerge⟩)
  exact ⟨x, y, merged, lib, hx, hy, hmerge, hlink, hgapped, hframe {} .sha256 lib hlink⟩

end AluVM
