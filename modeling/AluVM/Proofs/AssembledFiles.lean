import AluVM.Command.Assemble
import AluVM.Proofs.CallTable
import AluVM.Proofs.CleanLayout
import AluVM.Proofs.FileLinking
import AluVM.Proofs.ObjectFiles
import AluVM.Proofs.Objects
import AluVM.Proofs.Runs

/-! # The objects that the assembler leaves

The assembler writes each object to the file of its name in one directory. An object that was
assembled survives its file (`plain_of_ofText`), and its name is that of the source without
directories and suffix, so it names a file of that directory (`noSlash_defaultName`). Files of
different names or suffixes are different (`place_file_unique`), so of the objects of one name the
last is left (`objects_left_by_assembler`), and sources of one name in different directories lose
objects (`same_name_overwritten`). -/

namespace AluVM

open Steps

variable {names : Syntax.CharacterNames}

/-! ### Assembled objects survive their files -/

namespace Analysis

open Syntax

/-- The entry lies in the code so far. -/
theorem Layout.entry_le_of_gather {l : Layout} (ls : List CodeLine)
    (h : ∀ e ∈ l.entry, e ≤ l.codeSize) :
    ∀ e ∈ (gather addLine l ls).1.entry, e ≤ (gather addLine l ls).1.codeSize := by
  induction ls generalizing l with
  | nil => exact h
  | cons line ls ih =>
    rw [gather_cons]
    refine ih ?_
    cases line with
    | entry pos =>
      unfold addLine
      split_ifs
      · exact h
      · simp
    | mark kind name pos => simpa [addLine] using h
    | word i =>
      intro e he
      have hle := h e he
      show e ≤ l.codeSize + wordSize
      omega

theorem entry_le_codeSize {p : Program} {extra : List String} {file : Option String}
    {a : Analysis} (h : ofProgram p extra file = .ok a) : ∀ e ∈ a.entry, e ≤ a.codeSize := by
  obtain ⟨sizes, -, h⟩ := bind_eq_ok.mp h
  have hlayout : ∀ e ∈ (Layout.ofProgram p extra sizes).1.entry,
      e ≤ (Layout.ofProgram p extra sizes).1.codeSize := by
    simp only [Layout.ofProgram, Layout.gather_addRoutine]
    refine Layout.entry_le_of_gather _ ?_
    rw [(Layout.start_of_code ..).1]
    simp
  simp only at h
  split_ifs at h
  · cases h
  · cases h
    exact hlayout

theorem entry_of_encode {a : Analysis} {name : Option String} {o : Object}
    (h : a.encode name = .ok o) : o.entry = a.entry.map Int.ofNat := by
  obtain ⟨-, room, words, blocks, -, -, -, -, rfl⟩ := encode_eq_ok.mp h
  unfold ofParts
  rcases a.entry with _ | e
  · rfl
  · rfl

theorem isId_ne_empty {id : String} (h : ContentId.isId id = true) : id ≠ "" := by
  rintro rfl
  exact absurd h (by decide +kernel)

/-- **An assembled object is read from its file as it is**: its entry lies in its code, and the
ids of its libraries are ids. -/
theorem plain_of_ofText {text : String} {file : Option String} {extra : List String}
    {assembly : Assembly} {o : Object} (h : Assembly.ofText names text file extra = .ok assembly)
    (ho : assembly.object = some o) : o.Plain := by
  obtain ⟨p, a, hparse, hanalysis, hok, hencode⟩ := stages_of_ofText h ho
  have hassembled := assembled_of_encode hparse hanalysis hok hencode
  refine ⟨fun hentry => ?_, fun l hl => ?_⟩
  · rw [entry_of_encode hencode] at hentry
    obtain ⟨e, he, heq⟩ := Option.map_eq_some_iff.mp hentry
    have heq : (e : Int) = (Wire.noEntry : Int) := heq
    have hle := entry_le_codeSize hanalysis e he
    have hsize := hassembled.accepted.codeSize_le
    have hbound : maxSegment = 65536 := rfl
    have hmark : Wire.noEntry = 4294967295 := rfl
    omega
  · rw [hassembled.encoded.libraries] at hl
    obtain ⟨x, hx, rfl⟩ := List.mem_map.mp hl
    intro hid
    exact isId_ne_empty (hassembled.accepted.pins x hx "" hid) rfl

theorem name_of_ofText {text source : String} {extra : List String} {assembly : Assembly}
    {o : Object} (h : Assembly.ofText names text (some source) extra = .ok assembly)
    (ho : assembly.object = some o) : o.name = defaultName (some source) := by
  obtain ⟨p, a, -, hanalysis, -, hencode⟩ := stages_of_ofText h ho
  have hfile : a.file = some source := by
    obtain ⟨sizes, -, hanalysis⟩ := bind_eq_ok.mp hanalysis
    simp only at hanalysis
    split_ifs at hanalysis
    · cases hanalysis
    · cases hanalysis
      rfl
  obtain ⟨-, room, words, blocks, -, -, -, -, rfl⟩ := encode_eq_ok.mp hencode
  show (none.getD (defaultName a.file)) = _
  rw [hfile]
  rfl

end Analysis

/-! ### The names of the files -/

namespace Path

theorem noSlash_of_mem_pieces {piece cs : List Char} {part : String} (hpiece : '/' ∉ piece)
    (h : part ∈ pieces piece cs) : '/' ∉ part.toList := by
  fun_induction pieces piece cs with
  | case1 piece =>
    rw [List.mem_singleton.mp h]
    simpa using hpiece
  | case2 piece cs ih =>
    rcases List.mem_cons.mp h with rfl | h
    · simpa using hpiece
    · exact ih (by simp) h
  | case3 piece c cs hc ih =>
    refine ih ?_ h
    simp [hpiece, Ne.symm hc]

/-- A stem is empty or the start of a piece of the text. -/
theorem stem_ofText (text : String) : (ofText text).stem = "" ∨
    ∃ part ∈ pieces [] text.toList, (ofText text).stem.toList <+: part.toList := by
  have hstem : (ofText text).stem.toList <+: (ofText text).name.toList := by
    unfold stem
    simp only
    split_ifs
    · exact List.prefix_rfl
    · rw [String.toList_ofList]
      exact List.take_prefix ..
  rcases hlast : (ofText text).parts.getLast? with _ | part
  · rw [name, hlast] at hstem
    exact .inl (String.toList_eq_nil_iff.mp (List.prefix_nil.mp hstem))
  · rw [name, hlast] at hstem
    exact .inr ⟨part, (List.mem_filter.mp (List.mem_of_getLast? hlast)).1, hstem⟩

theorem noSlash_stem (text : String) : '/' ∉ (ofText text).stem.toList := by
  rcases stem_ofText text with hempty | ⟨part, hpart, hstem⟩
  · simp [hempty]
  · exact fun h => noSlash_of_mem_pieces (by simp) hpart (hstem.subset h)

/-- A name with a suffix of three characters at least is the name of a file. -/
theorem isName_append {stem suffix : String} (hstem : '/' ∉ stem.toList)
    (hsuffix : '/' ∉ suffix.toList) (hlength : 3 ≤ suffix.length) : IsName (stem ++ suffix) := by
  have hlong : 3 ≤ (stem ++ suffix).length := by
    rw [String.length_append]
    omega
  refine ⟨by simp [hstem, hsuffix], ?_, ?_, ?_⟩
  all_goals
    intro heq
    rw [heq] at hlong
    revert hlong
    decide

end Path

theorem Analysis.noSlash_defaultName (source : String) :
    '/' ∉ (defaultName (some source)).toList := by
  unfold defaultName
  simp only
  split_ifs
  · decide
  · exact Path.noSlash_stem source

/-! ### What the assembler writes -/

theorem Object.dump_eq_ok {o : Object} {lines : List String} (h : o.dump = .ok lines) :
    ∃ rest, lines = ("módulo:   " ++ o.name) :: rest := by
  obtain ⟨manifest, -, h⟩ := bind_eq_ok.mp h
  obtain ⟨code, -, h⟩ := bind_eq_ok.mp h
  cases h
  exact ⟨_, rfl⟩

namespace AssembleRequest

open Tool

variable {r : AssembleRequest} {w w' : Console × FileTree}

/-- What the text of a source in a tree comes to, with the extensions of a request. -/
def Reads (names : Syntax.CharacterNames) (r : AssembleRequest) (t : FileTree) (source : String)
    (assembly : Assembly) : Prop :=
  ∃ content chars, t.read (Path.ofText source).render = .ok content ∧
    Bytes.decodeChars content = .ok chars ∧
    Assembly.ofText names (String.ofList (Text.unifyNewlines chars)) (some source) r.extensions =
      .ok assembly

/-- The text of a source in a tree is assembled without errors to an object. -/
def Assembles (names : Syntax.CharacterNames) (r : AssembleRequest) (t : FileTree)
    (source : String) (o : Object) : Prop :=
  ∃ assembly, r.Reads names t source assembly ∧ Diagnostic.anyError assembly.reports = false ∧
    assembly.object = some o

/-- The code of an object in hexadecimal, if it is asked for. -/
def hexWrites (r : AssembleRequest) (o : Object) : List (String × Bytes) :=
  if r.hex then [(r.file o.name ".hex", textOf (hexLines o.code))] else []

/-- The writes of an object. -/
def objectWrites (r : AssembleRequest) (o : Object) : List (String × Bytes) :=
  [(r.file o.name ".ao", o.file)] ++ r.hexWrites o

/-- The write of a library. -/
def libraryWrite (r : AssembleRequest) (l : Library) : String × Bytes :=
  (r.file l.name ".alu", l.file)

theorem need_does (option : String) : Does (r.need option) (fun _ => True) [] := by
  unfold need
  split_ifs
  · exact Does.throw _
  · exact Does.pure trivial

theorem assembleFile_ends {source : String} {assembly : Assembly}
    (h : Ends (r.assembleFile names source) w assembly w') :
    r.Reads names w.2 source assembly ∧ w'.2 = w.2 := by
  obtain ⟨cs, w1, hread, hrest⟩ := ends_bind.mp h
  obtain ⟨⟨content, chars, hcontent, hchars, rfl⟩, rfl⟩ := ends_readText hread
  simp only at hrest
  split_ifs at hrest
  · obtain ⟨_, _, hthrow, -⟩ := ends_bind.mp hrest
    exact absurd hthrow not_ends_throw
  · obtain ⟨assembly', w2, hlift, hlogged⟩ := ends_bind.mp hrest
    obtain ⟨htext, rfl⟩ := ends_lift.mp hlift
    obtain ⟨_, w3, hlog, hpure⟩ := ends_bind.mp hlogged
    obtain ⟨rfl, rfl⟩ := ends_pure.mp hpure
    exact ⟨⟨content, chars, hcontent, hchars, htext⟩, ((Does.forM_still Does.log _).keeps hlog).2⟩

theorem assembleAll_ends {as : List Assembly} (h : Ends (r.assembleAll names) w (some as) w') :
    List.Forall₂ (r.Reads names w.2) r.sources as ∧ w'.2 = w.2 := by
  rcases ends_tryCatch.mp h with h | ⟨e, w1, -, h⟩
  · obtain ⟨as', w1, has, h⟩ := ends_bind.mp h
    obtain ⟨heq, rfl⟩ := ends_pure.mp h
    cases heq
    exact ends_mapM (R := r.Reads names) (fun _ _ _ _ => assembleFile_ends) has
  · -- the handler reports the error or fails with it
    split at h
    · obtain ⟨_, _, -, h⟩ := ends_bind.mp h
      cases (ends_pure.mp h).1
    · obtain ⟨_, _, -, h⟩ := ends_bind.mp h
      cases (ends_pure.mp h).1
    · obtain ⟨_, _, hthrow, -⟩ := ends_bind.mp h
      exact absurd hthrow not_ends_throw

theorem objects?_eq_some : ∀ {as : List Assembly} {os : List Object}, objects? as = some os →
    List.Forall₂ (fun a o => Diagnostic.anyError a.reports = false ∧ a.object = some o) as os
  | [], os, h => by
    cases h
    exact .nil
  | a :: as, os, h => by
    rw [objects?, List.mapM_cons] at h
    obtain ⟨o, ho, h⟩ := Option.bind_eq_some_iff.mp h
    obtain ⟨os', hos', h⟩ := Option.bind_eq_some_iff.mp h
    cases h
    split_ifs at ho with herror
    exact .cons ⟨by simpa using herror, ho⟩ (objects?_eq_some hos')

theorem writeObject_does (o : Object) : Does (r.writeObject o)
    (fun dump => o.toBytes = .ok o.file ∧ ∃ rest, dump = ("módulo:   " ++ o.name) :: rest)
    (r.objectWrites o) := by
  -- behind the files come the dump and, on request, a listing
  have hlast : ∀ raw, o.toBytes = .ok raw → Does (do
      let dump ← Tool.lift o.dump
      if r.disassemble then Tool.printAll (← Tool.lift o.disassemble)
      return dump ++ [""])
      (fun dump => o.toBytes = .ok o.file ∧ ∃ rest, dump = ("módulo:   " ++ o.name) :: rest) [] := by
    intro raw hraw
    refine Does.next (Does.lift fun lines hlines => Object.dump_eq_ok hlines) fun lines hlines => ?_
    obtain ⟨rest, rfl⟩ := hlines
    have hpure : Does (pure ((("módulo:   " ++ o.name) :: rest) ++ [""]))
        (fun dump => o.toBytes = .ok o.file ∧ ∃ rest, dump = ("módulo:   " ++ o.name) :: rest) [] :=
      Does.pure ⟨by rw [Object.file_of_toBytes hraw, hraw], rest ++ [""], rfl⟩
    split_ifs
    · refine Does.next (Does.lift fun _ _ => trivial) fun _ _ => ?_
      exact Does.next (Does.print _) fun _ _ => hpure
    · exact hpure
  unfold writeObject objectWrites
  refine Does.next (Does.lift fun raw hraw => hraw) fun raw hraw => ?_
  rw [← Object.file_of_toBytes hraw]
  refine Does.bind (Does.write _ _) fun _ _ => ?_
  unfold hexWrites
  by_cases hhex : r.hex = true
  · rw [if_pos hhex, if_pos hhex]
    exact Does.last (Does.writeLines _ _) fun _ _ => hlast raw hraw
  · rw [if_neg hhex, if_neg hhex]
    exact hlast raw hraw

theorem writeLibrary_does (l : Library) :
    Does (r.writeLibrary l) (fun _ => True) [r.libraryWrite l] := by
  unfold writeLibrary libraryWrite
  refine Does.next (Does.lift fun raw hraw => hraw) fun raw hraw => ?_
  rw [Library.file_of_toBytes hraw]
  refine Does.last (Does.write _ _) fun _ _ => ?_
  refine Does.next (Does.lift fun _ _ => trivial) fun lines _ => ?_
  split_ifs
  · refine Does.next (Does.lift fun _ _ => trivial) fun _ _ => ?_
    exact Does.next (Does.print _) fun _ _ => Does.pure trivial
  · exact Does.pure trivial

theorem linkAlone_does (o : Object) :
    Does (r.linkAlone o) (fun l? => ∀ l ∈ l?, l.name = o.name) [] := by
  refine Does.next (need_does _) fun _ _ => ?_
  rcases hrun : (Linker.link o).run { env := {}, strategy := r.strategy } with ⟨result, linker⟩
  have hlink : linkObject o {} r.strategy = result := by rw [linkObject, hrun]
  refine Does.next (Does.forM_still (fun event => Does.log _) _) fun _ _ => ?_
  rcases result with e | l
  · rcases hd : e.diagnostic? with _ | d
    · simp only [hd]
      exact Does.throw e
    · simp only [hd]
      exact Does.next (Does.complain _) fun _ _ => Does.pure fun l hl => by cases hl
  · refine Does.pure fun l' hl' => ?_
    rw [← Option.some.inj hl']
    exact (keeps_of_linkObject hlink).2.1

theorem linkAll_does (os : List Object) :
    Does (r.linkAll os) (fun found => ∀ l ∈ found.1, ∃ o ∈ os, l.name = o.name) [] := by
  unfold linkAll
  split_ifs
  · have hall : Does (os.mapM r.linkAlone) _ (os.flatMap fun _ => []) :=
      Does.mapM linkAlone_does os
    rw [List.flatMap_eq_nil_iff.mpr fun _ _ => rfl] at hall
    refine hall.next fun ls hls => Does.pure fun l hl => ?_
    obtain ⟨found, hfound, hl⟩ := List.mem_filterMap.mp hl
    obtain ⟨o, ho, hname⟩ := exists_mem_left hls found hfound
    exact ⟨o, ho, hname l hl⟩
  · exact Does.pure (by simp)

theorem writeObjects_ends {os : List Object} {lines : List String}
    (h : Ends (r.writeObjects os) w lines w') :
    (∀ o ∈ os, o.toBytes = .ok o.file) ∧
      (∀ o os', os = o :: os' → ∃ rest, lines = ("módulo:   " ++ o.name) :: rest) ∧
      ∃ t : FileTree, t.writeAll (os.flatMap r.objectWrites) = .ok w'.2 := by
  obtain ⟨_, w1, -, hwrites⟩ := ends_bind.mp h
  obtain ⟨dumps, w2, hdumps, hlines⟩ := ends_bind.mp hwrites
  obtain ⟨rfl, rfl⟩ := ends_pure.mp hlines
  obtain ⟨hall, hwrites⟩ := Does.mapM writeObject_does os _ _ _ hdumps
  refine ⟨fun o ho => ?_, fun o os' hos => ?_, _, hwrites⟩
  · obtain ⟨dump, -, hfile, -⟩ := exists_mem_right hall o ho
    exact hfile
  · subst hos
    obtain ⟨dump, dumps', ⟨-, rest, rfl⟩, -, rfl⟩ := List.forall₂_cons_left_iff.mp hall
    exact ⟨rest ++ dumps'.flatten, rfl⟩

theorem writeLibraries_ends {ls : List Library} {lines : List String} {u : Unit}
    (h : Ends (r.writeLibraries ls lines) w u w') : ∃ more, w.2.writeAll
      (ls.map r.libraryWrite ++
        (dumpFile? r.dump).toList.map fun path => (path, textOf (lines ++ more))) = .ok w'.2 := by
  obtain ⟨dumps, w1, hdumps, hdeliver⟩ := ends_bind.mp h
  obtain ⟨-, hwrites⟩ := Does.mapM writeLibrary_does ls w dumps w1 hdumps
  obtain ⟨-, hdump⟩ := Does.deliver _ _ w1 u w' hdeliver
  refine ⟨dumps.flatten, foldlM_append_eq_ok.mpr ⟨w1.2, ?_, hdump⟩⟩
  rwa [List.map_eq_flatMap]

/-- **What the assembler writes**: the objects one after the other, then the libraries, then the
dump. -/
theorem emit_ends {os : List Object} {code : Nat} (h : Ends (r.emit os) w code w')
    (hcode : code ≠ 2) : ∃ (t : FileTree) (ls : List Library) (lines : List String),
      (∀ o ∈ os, o.toBytes = .ok o.file) ∧
      (∀ l ∈ ls, ∃ o ∈ os, l.name = o.name) ∧
      (∀ o os', os = o :: os' → ∃ rest, lines = ("módulo:   " ++ o.name) :: rest) ∧
      t.writeAll ((os.flatMap r.objectWrites ++ ls.map r.libraryWrite) ++
        (dumpFile? r.dump).toList.map fun path => (path, textOf lines)) = .ok w'.2 := by
  obtain ⟨_, w1, -, h1⟩ := ends_bind.mp h
  obtain ⟨written, w2, hobjects, h2⟩ := ends_bind.mp h1
  rcases written with _ | lines
  · exact absurd (ends_pure.mp h2).1 hcode
  · obtain ⟨hfiles, hlines, t, hwrites⟩ := writeObjects_ends (ends_writing hobjects)
    obtain ⟨_, w3, hlogs, h3⟩ := ends_bind.mp h2
    have htree3 := ((Does.forM_still (fun o => Does.log _) os).keeps hlogs).2
    obtain ⟨found, w4, hlink, h4⟩ := ends_bind.mp h3
    obtain ⟨hnames, htree4⟩ := (linkAll_does os).keeps hlink
    obtain ⟨written, w5, hlibraries, h5⟩ := ends_bind.mp h4
    rcases written with _ | _
    · exact absurd (ends_pure.mp h5).1 hcode
    · obtain ⟨more, hmore⟩ := writeLibraries_ends (ends_writing hlibraries)
      obtain ⟨_, w6, hprints, h6⟩ := ends_bind.mp h5
      have htree6 := ((Does.forM_still (fun l => Does.print _) found.1).keeps hprints).2
      obtain ⟨_, w7, hprint, h7⟩ := ends_bind.mp h6
      have htree7 := ((Does.print _).keeps hprint).2
      obtain ⟨-, rfl⟩ := ends_pure.mp h7
      refine ⟨t, found.1, lines ++ more, hfiles, hnames, fun o os' hos => ?_, ?_⟩
      · obtain ⟨rest, rfl⟩ := hlines o os' hos
        exact ⟨rest ++ more, rfl⟩
      · rw [List.append_assoc]
        refine foldlM_append_eq_ok.mpr ⟨w2.2, hwrites, ?_⟩
        rw [htree7, htree6, ← htree3, ← htree4]
        exact hmore

/-- A run with code 0 assembled all sources and wrote what they give. -/
theorem perform_ends (h : Ends (r.perform names) w 0 w') : ∃ os w1,
    List.Forall₂ (r.Assembles names w.2) r.sources os ∧ Ends (r.emit os) w1 0 w' := by
  obtain ⟨_, w1, hneed, h1⟩ := ends_bind.mp h
  have htree1 := ((need_does "-j").keeps hneed).2
  obtain ⟨assembled, w2, hall, h2⟩ := ends_bind.mp h1
  rcases assembled with _ | as
  · cases (ends_pure.mp h2).1
  · obtain ⟨hreads, -⟩ := assembleAll_ends hall
    obtain ⟨_, w3, -, h3⟩ := ends_bind.mp h2
    rcases hobjects : objects? as with _ | os
    · rw [hobjects] at h3
      cases (ends_pure.mp h3).1
    · rw [hobjects] at h3
      rw [htree1] at hreads
      refine ⟨os, w3, forall₂_comp.mpr ⟨as, hreads, objects?_eq_some hobjects⟩, h3⟩

/-! ### What is left -/

theorem output_of_arguments {texts : List String} (h : ofArguments texts = .ok r) :
    ∃ text, r.output = Path.ofText text := by
  obtain ⟨arguments, -, h⟩ := bind_eq_ok.mp h
  cases h
  exact ⟨_, rfl⟩

/-- The suffixes of the files that are written. -/
def suffixes : List String := [".ao", ".hex", ".alu"]

theorem isName_of_suffix {name suffix : String} (hname : '/' ∉ name.toList)
    (hsuffix : suffix ∈ suffixes) : Path.IsName (name ++ suffix) := by
  have hgood : ∀ ending ∈ suffixes, '/' ∉ ending.toList ∧ 3 ≤ ending.length := by decide
  exact Path.isName_append hname (hgood suffix hsuffix).1 (hgood suffix hsuffix).2

theorem suffix_unique {name name' suffix suffix' : String} (hsuffix : suffix ∈ suffixes)
    (hsuffix' : suffix' ∈ suffixes) (h : name ++ suffix = name' ++ suffix') :
    name = name' ∧ suffix = suffix' := by
  have hends : ∀ ending ∈ suffixes, ending.toList ≠ [] ∧ ∀ ending' ∈ suffixes,
      ending.toList.getLast? = ending'.toList.getLast? → ending = ending' := by decide
  have hlist : name.toList ++ suffix.toList = name'.toList ++ suffix'.toList := by
    rw [← String.toList_append, ← String.toList_append, h]
  have hlast := congrArg List.getLast? hlist
  rw [List.getLast?_append_of_ne_nil _ (hends suffix hsuffix).1,
    List.getLast?_append_of_ne_nil _ (hends suffix' hsuffix').1] at hlast
  obtain rfl := (hends suffix hsuffix).2 suffix' hsuffix' hlast
  exact ⟨String.toList_inj.mp (List.append_cancel_right hlist), rfl⟩

section Left
variable {t : FileTree} {text : String} (houtput : r.output = Path.ofText text)
include houtput

/-- **Files of different names or suffixes are different.** -/
theorem place_file_unique {name name' suffix suffix' : String} (hname : '/' ∉ name.toList)
    (hname' : '/' ∉ name'.toList) (hsuffix : suffix ∈ suffixes) (hsuffix' : suffix' ∈ suffixes)
    (hplace : (t.place? (r.file name suffix)).isSome)
    (heq : t.place? (r.file name suffix) = t.place? (r.file name' suffix')) :
    name = name' ∧ suffix = suffix' := by
  obtain ⟨d, hd⟩ := t.place_of_name text
  have hfile : ∀ stem : String, '/' ∉ stem.toList → ∀ ending ∈ suffixes, ∀ q,
      t.place? (r.file stem ending) = some q → q = d ++ [stem ++ ending] := by
    intro stem hstem ending hending q hq
    have hstemName := isName_of_suffix hstem hending
    rw [file, houtput, Path.ofText_name hstemName] at hq
    exact hd _ q hstemName hq
  obtain ⟨q, hq⟩ := Option.isSome_iff_exists.mp hplace
  have h1 := hfile name hname suffix hsuffix q hq
  have h2 := hfile name' hname' suffix' hsuffix' q (heq ▸ hq)
  rw [h1] at h2
  refine suffix_unique hsuffix hsuffix' ?_
  simpa using h2

/-- The last of the objects of a name counts. -/
theorem lastAt_objectWrites {os : List Object} {name : String} (hname : '/' ∉ name.toList)
    (hnames : ∀ o ∈ os, '/' ∉ o.name.toList)
    (hplace : (t.place? (r.file name ".ao")).isSome) :
    t.lastAt (os.flatMap r.objectWrites) (r.file name ".ao") =
      (os.reverse.find? fun o => o.name = name).map fun o => (r.file o.name ".ao", o.file) := by
  refine FileTree.lastAt_flatMap fun o ho => ?_
  have hhex : t.lastAt (r.hexWrites o) (r.file name ".ao") = none := by
    refine FileTree.lastAt_eq_none fun w hw heq => ?_
    unfold hexWrites at hw
    split_ifs at hw
    · simp only [List.mem_singleton.mp hw] at heq
      have hunique := place_file_unique houtput hname (hnames o ho) (by decide) (by decide) hplace
        heq.symm
      exact absurd hunique.2 (by decide)
    · simp at hw
  rw [objectWrites, FileTree.lastAt_append, hhex, Option.none_or, FileTree.lastAt_singleton]
  by_cases heq : o.name = name
  · simp [heq]
  · have hne : t.place? (r.file o.name ".ao") ≠ t.place? (r.file name ".ao") := fun hsame =>
      heq (place_file_unique houtput hname (hnames o ho) (by decide) (by decide) hplace
        hsame.symm).1.symm
    simp [heq, hne]

theorem lastAt_libraryWrites {ls : List Library} {name : String} (hname : '/' ∉ name.toList)
    (hnames : ∀ l ∈ ls, '/' ∉ l.name.toList)
    (hplace : (t.place? (r.file name ".ao")).isSome) :
    t.lastAt (ls.map r.libraryWrite) (r.file name ".ao") = none := by
  apply FileTree.lastAt_eq_none
  intro w hw heq
  obtain ⟨l, hl, rfl⟩ := List.mem_map.mp hw
  simp only [libraryWrite] at heq
  have hunique := place_file_unique houtput hname (hnames l hl) (by decide) (by decide) hplace
    heq.symm
  exact absurd hunique.2 (by decide)

end Left

end AssembleRequest

/-- A dump is not the file of an object. -/
theorem Object.not_ofBytes_textOf {name : String} {lines : List String} {o : Object} :
    ofBytes (Tool.textOf (("módulo:   " ++ name) :: lines)) ≠ .ok o := by
  intro h
  obtain ⟨-, extra, hraw⟩ := ofBytes_eq_ok.mp h
  have hmark : some (65 : UInt8) = some 109 :=
    (Wire.head?_of_header rfl hraw).symm.trans (Tool.head?_textOf rfl name lines)
  exact absurd hmark (by decide)

namespace AssembleRequest

variable {r : AssembleRequest} {t t' : FileTree}

theorem Assembles.noSlash {source : String} {o : Object} (h : r.Assembles names t source o) :
    '/' ∉ o.name.toList := by
  obtain ⟨assembly, ⟨content, chars, -, -, htext⟩, -, hobject⟩ := h
  rw [Analysis.name_of_ofText htext hobject]
  exact Analysis.noSlash_defaultName source

theorem Assembles.plain {source : String} {o : Object} (h : r.Assembles names t source o) :
    o.Plain := by
  obtain ⟨assembly, ⟨content, chars, -, -, htext⟩, -, hobject⟩ := h
  exact Analysis.plain_of_ofText htext hobject

/-- After the writes of a run the file of an object holds what was written to it last: the last
object of its name, or the dump. -/
theorem ofBytes_iff_last {text : String} (houtput : r.output = Path.ofText text)
    {os : List Object} {ls : List Library} {lines : List String}
    (hnames : ∀ o ∈ os, '/' ∉ o.name.toList) (hlibnames : ∀ l ∈ ls, '/' ∉ l.name.toList)
    (hread : ∀ o ∈ os, Object.ofBytes o.file = .ok o)
    (hlines : ∀ o os', os = o :: os' → ∃ rest, lines = ("módulo:   " ++ o.name) :: rest)
    (hwrites : t.writeAll ((os.flatMap r.objectWrites ++ ls.map r.libraryWrite) ++
      (Tool.dumpFile? r.dump).toList.map fun path => (path, Tool.textOf lines)) = .ok t')
    {o : Object} (ho : o ∈ os) :
    (∃ raw, t'.read (r.file o.name ".ao") = .ok raw ∧ Object.ofBytes raw = .ok o) ↔
      (os.reverse.find? fun x => x.name = o.name) = some o ∧
        ∀ path ∈ Tool.dumpFile? r.dump, t'.place? path ≠ t'.place? (r.file o.name ".ao") := by
  have hmem : (r.file o.name ".ao", o.file) ∈
      os.flatMap r.objectWrites ++ ls.map r.libraryWrite :=
    List.mem_append_left _ (List.mem_flatMap.mpr ⟨o, ho, by simp [objectWrites]⟩)
  obtain ⟨hplace, hleft⟩ := Tool.read_of_writes_and_dump hwrites hmem
  simp only at hplace hleft
  rcases hleft with ⟨path, hpath, hsame, hcontent⟩ | ⟨hapart, last, hlast, hcontent⟩
  · -- the dump stands over the object
    obtain ⟨first, others, hos⟩ := List.exists_cons_of_ne_nil (List.ne_nil_of_mem ho)
    obtain ⟨rest, hrest⟩ := hlines first others hos
    rw [hcontent, hrest]
    constructor
    · rintro ⟨raw, hraw, hof⟩
      rw [← Except.ok.inj hraw] at hof
      exact absurd hof Object.not_ofBytes_textOf
    · rintro ⟨-, hno⟩
      exact absurd hsame (hno path hpath)
  · rw [FileTree.lastAt_append, lastAt_libraryWrites houtput (hnames o ho) hlibnames hplace,
      Option.none_or, lastAt_objectWrites houtput (hnames o ho) hnames hplace] at hlast
    obtain ⟨x, hx, rfl⟩ := Option.map_eq_some_iff.mp hlast
    have hxmem : x ∈ os := List.mem_reverse.mp (List.mem_of_find?_eq_some hx)
    rw [hx, hcontent]
    constructor
    · rintro ⟨raw, hraw, hof⟩
      rw [← Except.ok.inj hraw, hread x hxmem] at hof
      exact ⟨congrArg some (Except.ok.inj hof), hapart⟩
    · rintro ⟨hxo, -⟩
      rw [Option.some.inj hxo]
      exact ⟨o.file, rfl, hread o ho⟩

end AssembleRequest

/-- **The objects that the assembler leaves.** If it ends with code 0, each source was assembled
without errors. The file of an object holds it afterwards exactly if it is the last of the objects
with its name, and the dump was not written over it. -/
theorem objects_left_by_assembler {names : Syntax.CharacterNames} {texts : List String}
    {t t' : FileTree} {out err : String}
    (h : (assembleCommand names texts : StateM FileTree Outcome).run t = (.finished 0 out err, t')) :
    ∃ r os, AssembleRequest.ofArguments texts = .ok r ∧
      List.Forall₂ (r.Assembles names t) r.sources os ∧
      ∀ o ∈ os,
        (∃ raw, t'.read (r.file o.name ".ao") = .ok raw ∧ Object.ofBytes raw = .ok o) ↔
        (os.reverse.find? fun x => x.name = o.name) = some o ∧
          ∀ path ∈ Tool.dumpFile? r.dump, t'.place? path ≠ t'.place? (r.file o.name ".ao") := by
  unfold assembleCommand at h
  rcases hr : AssembleRequest.ofArguments texts with stop | r
  · rw [hr] at h
    cases h
  · rw [hr] at h
    obtain ⟨c, hends, -, -⟩ := Tool.ends_of_outcome h
    obtain ⟨os, w, hassembled, hemit⟩ := AssembleRequest.perform_ends hends
    obtain ⟨t1, ls, lines, hfiles, hlibraries, hlines, hwrites⟩ :=
      AssembleRequest.emit_ends hemit (by decide)
    obtain ⟨text, houtput⟩ := AssembleRequest.output_of_arguments hr
    have hnames : ∀ x ∈ os, '/' ∉ x.name.toList := by
      intro x hx
      obtain ⟨source, -, hsource⟩ := exists_mem_left hassembled x hx
      exact hsource.noSlash
    have hlibnames : ∀ l ∈ ls, '/' ∉ l.name.toList := by
      intro l hl
      obtain ⟨x, hx, hname⟩ := hlibraries l hl
      rw [hname]
      exact hnames x hx
    have hread : ∀ x ∈ os, Object.ofBytes x.file = .ok x := by
      intro x hx
      obtain ⟨source, -, hsource⟩ := exists_mem_left hassembled x hx
      exact Object.ofBytes_eq_ok.mpr ⟨hsource.plain, [], Object.toBytes_eq_ok.mp (hfiles x hx)⟩
    exact ⟨r, os, rfl, hassembled, fun o ho =>
      AssembleRequest.ofBytes_iff_last houtput hnames hlibnames hread hlines hwrites ho⟩

/-- A tree with texts below its working directory. -/
def FileTree.ofTexts (texts : List (String × String)) : FileTree :=
  texts.foldl (fun t x => t.plant x.1 (.file (Bytes.ofText x.2))) (.empty ["work"])

/-- Three sources, two of which have one name in different directories. -/
def FileTree.threeSources : FileTree :=
  .ofTexts [("a/x.aluasm", ".ROUTINE f\nnop\n"), ("b/x.aluasm", ".ROUTINE g\nret\n"),
    ("y.aluasm", ".ROUTINE h\nnop\n")]

theorem objects_left_of_three_sources : ∃ t',
    (assembleCommand Syntax.nameless ["a/x.aluasm", "b/x.aluasm", "y.aluasm", "--hex"] :
      StateM FileTree Outcome).run .threeSources =
        (.finished 0 "OK: 3 módulo(s) → build/objects\n" "", t') ∧
    ∃ r os, AssembleRequest.ofArguments ["a/x.aluasm", "b/x.aluasm", "y.aluasm", "--hex"] = .ok r ∧
      List.Forall₂ (r.Assembles Syntax.nameless .threeSources) r.sources os ∧
      ∀ o ∈ os,
        (∃ raw, t'.read (r.file o.name ".ao") = .ok raw ∧ Object.ofBytes raw = .ok o) ↔
        (os.reverse.find? fun x => x.name = o.name) = some o ∧
          ∀ path ∈ Tool.dumpFile? r.dump, t'.place? path ≠ t'.place? (r.file o.name ".ao") := by
  have hfirst :
      ((assembleCommand Syntax.nameless ["a/x.aluasm", "b/x.aluasm", "y.aluasm", "--hex"] :
        StateM FileTree Outcome).run .threeSources).1 =
        .finished 0 "OK: 3 módulo(s) → build/objects\n" "" := by decide +kernel
  rcases hrun : (assembleCommand Syntax.nameless ["a/x.aluasm", "b/x.aluasm", "y.aluasm", "--hex"] :
    StateM FileTree Outcome).run .threeSources with ⟨outcome, t'⟩
  rw [hrun] at hfirst
  obtain rfl : outcome = _ := hfirst
  exact ⟨t', rfl, objects_left_by_assembler hrun⟩

/-- The object of a text under a path, if it has no errors. -/
def objectAt? (text path : String) : Option Object :=
  (Assembly.ofText Syntax.nameless text (some path)).toOption.bind (·.object)

/-- **Sources of one name lose an object.** Two sources in different directories are assembled and
both count as written, but only the object of the second one is left. -/
theorem same_name_overwritten : ∃ x y t' raw,
    objectAt? ".ROUTINE f\nnop\n" "a/x.aluasm" = some x ∧
    objectAt? ".ROUTINE g\nret\n" "b/x.aluasm" = some y ∧ x ≠ y ∧
    (assembleCommand Syntax.nameless ["a/x.aluasm", "b/x.aluasm"] :
      StateM FileTree Outcome).run .threeSources =
        (.finished 0 "OK: 2 módulo(s) → build/objects\n" "", t') ∧
    t'.read "build/objects/x.ao" = .ok raw ∧ Object.ofBytes raw = .ok y := by
  have hends : ((assembleCommand Syntax.nameless ["a/x.aluasm", "b/x.aluasm"] :
      StateM FileTree Outcome).run .threeSources).1 =
        .finished 0 "OK: 2 módulo(s) → build/objects\n" "" ∧
      (((assembleCommand Syntax.nameless ["a/x.aluasm", "b/x.aluasm"] :
        StateM FileTree Outcome).run .threeSources).2.read "build/objects/x.ao").toOption =
        (objectAt? ".ROUTINE g\nret\n" "b/x.aluasm").map Object.file := by decide +kernel
  have hsecond : ((objectAt? ".ROUTINE g\nret\n" "b/x.aluasm").filter fun y =>
      objectAt? ".ROUTINE f\nnop\n" "a/x.aluasm" ≠ some y &&
        (Object.ofBytes y.file).toOption = some y).isSome := by decide +kernel
  obtain ⟨x, hx⟩ := Option.isSome_iff_exists.mp
    (by decide +kernel : (objectAt? ".ROUTINE f\nnop\n" "a/x.aluasm").isSome)
  obtain ⟨y, hsecond⟩ := Option.isSome_iff_exists.mp hsecond
  obtain ⟨hy, hgood⟩ := Option.filter_eq_some_iff.mp hsecond
  simp only [hx, Bool.and_eq_true, decide_eq_true_eq] at hgood
  rcases hrun : (assembleCommand Syntax.nameless ["a/x.aluasm", "b/x.aluasm"] :
    StateM FileTree Outcome).run .threeSources with ⟨outcome, t'⟩
  rw [hrun] at hends
  obtain ⟨hfirst, hleft⟩ := hends
  obtain rfl : outcome = _ := hfirst
  rw [hy] at hleft
  exact ⟨x, y, t', y.file, hx, hy, fun heq => hgood.1 (congrArg some heq), rfl,
    toOption_eq_some.mp hleft, toOption_eq_some.mp hgood.2⟩

end AluVM
