import AluVM.Proofs.CallTable

/-! # What the linker sees of an object

A field asks for the value of a symbol or for a routine of a library. The linker looks at the value,
not at the name under which it is found, so that names are no part of a `Demand`. Two objects are
`Alike` if they have the same code and data and make the same demands at the same places, and then
they link alike: to libraries that differ at most in their exports, or both fail
(`linkObject_alike`). -/

namespace AluVM

open Steps (Both both_ok both_error both_same)

/-! ### Demands -/

/-- The symbols that a field may ask for. -/
def RelocationKind.symbolKinds : RelocationKind → List SymbolKind
  | localOffset => [.localLabel, .exportedLabel]
  | externalCall => []
  | dataAddress => [.dataSymbol]

/-- What a field asks for: the value of its symbol, if there is such a symbol, or the target of a
call. -/
@[ext]
structure Demand where
  offset : Int
  kind : RelocationKind
  value : Option Int
  target : Option String

/-- What a field asks for if these are the symbols. -/
def Relocation.demand (symbols : List ObjectSymbol) (r : Relocation) : Demand where
  offset := r.offset
  kind := r.kind
  value := (symbols.find? fun x => x.name = r.target && x.kind ∈ r.kind.symbolKinds).map (·.value)
  target := if r.kind = .externalCall then some r.target else none

/-- What a field of an object asks for. -/
def Object.demand (o : Object) (r : Relocation) : Demand := r.demand (o.exports ++ o.symbols)

/-- **Objects that the linker cannot tell apart**, except by their exports. -/
structure Alike (o o' : Object) : Prop where
  name : o'.name = o.name
  mask : o'.mask = o.mask
  code : o'.code = o.code
  data : o'.data = o.data
  entry : o'.entry = o.entry
  pins : ∀ name, o'.libraryId? name = o.libraryId? name
  demands : o'.relocations.map o'.demand = o.relocations.map o.demand

section Demands
variable {o o' : Object} {r r' : Relocation}

theorem Object.lookup?_value (o : Object) (r : Relocation) (h : r.kind.symbolKinds ≠ []) :
    (o.lookup? r.target r.kind.symbolKinds).map (·.value) = (o.demand r).value := by
  have hempty : r.kind.symbolKinds.isEmpty = false := List.isEmpty_eq_false_iff.mpr h
  simp only [Object.lookup?, Object.demand, Relocation.demand, hempty, Bool.false_or]

/-- Where the demands are the same, both symbols are missing, or they have the same value. -/
theorem symbolValue_both (h : o'.demand r' = o.demand r) (hkinds : r.kind.symbolKinds ≠ [])
    (missing missing' : EncodeCause) :
    Both Eq (o.symbolValue r.kind.symbolKinds missing r.target)
      (o'.symbolValue r.kind.symbolKinds missing' r'.target) := by
  have hkind : r'.kind = r.kind := congrArg Demand.kind h
  have hvalue := congrArg Demand.value h
  rw [← o.lookup?_value r hkinds, ← o'.lookup?_value r' (hkind ▸ hkinds), hkind] at hvalue
  unfold Object.symbolValue
  rcases hx : o.lookup? r.target r.kind.symbolKinds with _ | x <;>
    rcases hx' : o'.lookup? r'.target r.kind.symbolKinds with _ | x' <;>
    rw [hx, hx'] at hvalue
  · exact both_error _ _
  · cases hvalue
  · cases hvalue
  · exact both_ok (Option.some.inj hvalue).symm

theorem Object.map_relocationsOf (o : Object) (kind : RelocationKind) :
    (o.relocationsOf kind).map o.demand =
      ((o.relocations.map o.demand).filter (·.kind = kind)).mergeSort
        fun d d' => d.offset ≤ d'.offset := by
  rw [Object.relocationsOf, List.filter_map]
  exact List.map_mergeSort fun _ _ _ _ => rfl

/-- The fields of one kind, in the order of the linker, pair by pair. -/
theorem Alike.relocationsOf (h : Alike o o') (kind : RelocationKind) :
    List.Forall₂ (fun r r' => r.kind = kind ∧ o'.demand r' = o.demand r) (o.relocationsOf kind)
      (o'.relocationsOf kind) := by
  have hmap : (o'.relocationsOf kind).map o'.demand = (o.relocationsOf kind).map o.demand := by
    rw [o.map_relocationsOf, o'.map_relocationsOf, h.demands]
  have hpairs : List.Forall₂ (fun r r' => o'.demand r' = o.demand r) (o.relocationsOf kind)
      (o'.relocationsOf kind) := by
    have hsame : List.Forall₂ Eq ((o'.relocationsOf kind).map o'.demand)
        ((o.relocationsOf kind).map o.demand) := by
      rw [List.forall₂_eq_eq_eq]
      exact hmap
    rw [List.forall₂_map_left_iff, List.forall₂_map_right_iff] at hsame
    exact hsame.flip
  refine Steps.forall₂_imp_mem hpairs fun r hr r' _ hdemand => ⟨?_, hdemand⟩
  exact (Linker.mem_relocationsOf.mp hr).2

end Demands

/-! ### Linking -/

section Link
variable {o o' : Object} {r r' : Relocation} {j j' : Job}

/-- The jobs of linking two objects, at one point. -/
structure AlikeJobs (o o' : Object) (j j' : Job) : Prop where
  object : j.object = o
  job : j' = { j with object := o' }

theorem AlikeJobs.patch (hj : AlikeJobs o o' j j') (offset : Int) (target target' : String)
    (bytes : Bytes) :
    Both (AlikeJobs o o') (j.patch offset target bytes) (j'.patch offset target' bytes) := by
  have hcode : j'.code = j.code := by rw [hj.job]
  unfold Job.patch
  rw [hcode]
  split_ifs
  · exact both_error _ _
  · exact both_ok ⟨hj.object, by rw [hj.job]⟩

theorem offsetField_both (object object' target target' : String) (value : Int) :
    Both Eq (Job.offsetField object target value) (Job.offsetField object' target' value) := by
  unfold Job.offsetField
  split_ifs
  · exact both_ok rfl
  · exact both_error _ _

/-- A value is written to both fields, or to none. -/
theorem AlikeJobs.resolve {value : Object → String → Except Failure Int}
    (hj : AlikeJobs o o' j j') (hdemand : o'.demand r' = o.demand r)
    (hvalue : Both Eq (value o r.target) (value o' r'.target)) :
    Both (AlikeJobs o o') (j.resolve value r) (j'.resolve value r') := by
  have hobject' : j'.object = o' := by rw [hj.job]
  have hoffset : r'.offset = r.offset := congrArg Demand.offset hdemand
  unfold Job.resolve
  rw [hj.object, hobject', hoffset]
  refine hvalue.bind fun v v' hv => ?_
  rw [hv]
  refine (offsetField_both _ _ _ _ _).bind fun field field' hfield => ?_
  rw [hfield]
  exact hj.patch _ _ _ _

theorem labelValue_both (hkind : r.kind = .localOffset) (hdemand : o'.demand r' = o.demand r) :
    Both Eq (o.labelValue r.target) (o'.labelValue r'.target) := by
  have hboth := symbolValue_both hdemand (by rw [hkind]; exact List.cons_ne_nil _ _)
  rw [hkind] at hboth
  exact hboth _ _

theorem datumValue_both (hdata : o'.data = o.data) (hkind : r.kind = .dataAddress)
    (hdemand : o'.demand r' = o.demand r) :
    Both Eq (o.datumValue r.target) (o'.datumValue r'.target) := by
  have hboth := symbolValue_both hdemand (by rw [hkind]; exact List.cons_ne_nil _ _)
  rw [hkind] at hboth
  unfold Object.datumValue
  rw [hdata]
  refine (hboth _ _).bind fun v v' hv => ?_
  rw [hv]
  split_ifs
  · exact both_error _ _
  · exact both_ok rfl

theorem AlikeJobs.resolveCall (hj : AlikeJobs o o' j j') (r : Relocation) (id : String)
    (routine : Int) : Both (fun x x' => AlikeJobs o o' x.2 x'.2) (j.resolveCall r id routine)
      (j'.resolveCall r id routine) := by
  have hindex : Both (fun x x' => x'.1 = x.1 ∧ AlikeJobs o o' x.2 x'.2)
      ((j.libraryIndex id).mapError Failure.link) ((j'.libraryIndex id).mapError Failure.link) := by
    have hlibraries : j'.libraries = j.libraries := by rw [hj.job]
    unfold Job.libraryIndex
    rw [hlibraries]
    rcases j.libraries.idxOf? id with _ | index
    · dsimp only
      split_ifs
      · exact both_error _ _
      · exact both_ok ⟨rfl, hj.object, by rw [hj.job]⟩
    · exact both_ok ⟨rfl, hj⟩
  refine hindex.bind fun x x' hx => ?_
  refine (offsetField_both _ _ _ _ _).bind fun field field' hfield => ?_
  rw [hx.1, hfield]
  refine (hx.2.patch _ _ _ _).bind fun k k' hk => ?_
  exact both_ok ⟨hk.object, by rw [hk.job]⟩

theorem libraryFor_congr {env : Environment} {f : String → Except Failure Library} {name : String}
    (h : o'.libraryId? name = o.libraryId? name) (target : String) :
    Linker.libraryFor env f o' name target = Linker.libraryFor env f o name target := by
  rw [Linker.libraryFor, Linker.libraryFor, h]

theorem AlikeJobs.fillCall (hj : AlikeJobs o o' j j') (env : Environment)
    (f : String → Except Failure Library)
    (hpins : ∀ name, o'.libraryId? name = o.libraryId? name) (hkind : r.kind = .externalCall)
    (hdemand : o'.demand r' = o.demand r) :
    Both (AlikeJobs o o') (Linker.fillCall env f j r) (Linker.fillCall env f j' r') := by
  -- A call has its target in its demand, so it is the same call.
  have hsame : r' = r := by
    have hoffset : r'.offset = r.offset := congrArg Demand.offset hdemand
    have hkind' : r'.kind = r.kind := congrArg Demand.kind hdemand
    have htarget := congrArg Demand.target hdemand
    simp only [Object.demand, Relocation.demand, hkind', hkind, if_true, Option.some.injEq]
      at htarget
    obtain ⟨offset, kind, target⟩ := r
    obtain ⟨offset', kind', target'⟩ := r'
    simp only at hoffset hkind' htarget
    rw [hoffset, hkind', htarget]
  have hobject' : j'.object = o' := by rw [hj.job]
  rw [hsame]
  unfold Linker.fillCall
  rw [hj.object, hobject']
  rcases Linker.splitTarget? r.target with _ | ⟨name, routine⟩
  · exact both_error _ _
  · dsimp only
    rw [libraryFor_congr (hpins name)]
    refine (both_same _).bind fun l l' hl => ?_
    subst hl
    rcases exportOffset? l.exports routine with _ | offset
    · exact both_error _ _
    · exact (hj.resolveCall r l.id offset).bind fun x x' hx => both_ok hx

/-- What holds of the fields one by one holds of all fields of a kind. -/
theorem Alike.round (h : Alike o o') (kind : RelocationKind)
    (step : Job → Relocation → Except Failure Job)
    (hstep : ∀ r r', r.kind = kind ∧ o'.demand r' = o.demand r → ∀ j j', AlikeJobs o o' j j' →
      Both (AlikeJobs o o') (step j r) (step j' r')) (hj : AlikeJobs o o' j j') :
    Both (AlikeJobs o o') ((j.object.relocationsOf kind).foldlM step j)
      ((j'.object.relocationsOf kind).foldlM step j') := by
  have hobject' : j'.object = o' := by rw [hj.job]
  rw [hj.object, hobject']
  exact Both.foldlM (h.relocationsOf kind) hstep hj

theorem Alike.library (h : Alike o o') (s : ContentId.Strategy) (hj : AlikeJobs o o' j j') :
    Both (fun l l' => l.exports = o.exports ∧ l' = { l with exports := o'.exports }) (j.library s)
      (j'.library s) := by
  obtain ⟨rfl, rfl⟩ := hj
  unfold Job.library Library.build
  simp only [h.name, h.mask, h.data, h.entry]
  refine (both_same _).bind fun ids ids' hids => ?_
  subst hids
  refine (both_same _).bind fun content content' hcontent => ?_
  subst hcontent
  refine (both_same _).bind fun id id' hid => ?_
  subst hid
  exact both_ok ⟨rfl, rfl⟩

/-- **Objects that are alike link alike**: to libraries that differ at most in the exports, or both
fail. -/
theorem linkObject_alike (h : Alike o o') (env : Environment) (s : ContentId.Strategy) :
    Both (fun l l' => l.exports = o.exports ∧ l' = { l with exports := o'.exports })
      (linkObject o env s) (linkObject o' env s) := by
  have hstart : AlikeJobs o o' (Job.start o) (Job.start o') :=
    ⟨rfl, by rw [Job.start, Job.start, h.code]⟩
  rw [linkObject_eq, linkObject_eq]
  unfold Linker.linkFrom
  rw [h.mask, h.name]
  refine (both_same _).bind fun _ _ _ => ?_
  refine (h.round _ (Job.resolve Object.labelValue) ?_ hstart).bind fun j j' hj => ?_
  · exact fun r r' hr j j' hj => hj.resolve hr.2 (labelValue_both hr.1 hr.2)
  refine (h.round _ (Linker.fillCall env _) ?_ hj).bind fun j j' hj => ?_
  · exact fun r r' hr j j' hj => hj.fillCall env _ h.pins hr.1 hr.2
  refine (h.round _ (Job.resolve Object.datumValue) ?_ hj).bind fun j j' hj => ?_
  · exact fun r r' hr j j' hj => hj.resolve hr.2 (datumValue_both h.data hr.1 hr.2)
  exact h.library s hj

end Link

end AluVM
