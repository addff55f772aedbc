import AluVM.Command.Link
import AluVM.Proofs.FileLinking
import AluVM.Proofs.LinkedFiles
import AluVM.Proofs.Runs

/-! # The libraries that the linker leaves

The linker writes its library, then those that were linked on the way into the same directory, then
the dump. Whatever it links has the id of its content (`gather_gives`), so each file is read as the
library that was written to it, but for an entry that files have no room for (`Library.filed`). The
paths are not compared, though: what is left at a path is what was written there last
(`libraries_left_by_linker`). -/

namespace AluVM

open Steps

/-! ### Libraries in their files -/

namespace Library

variable {l : Library} {raw : Bytes}

/-- The library that the file of a library holds: the entry with the number that stands for none
is none. -/
def filed (l : Library) : Library :=
  { l with entry := l.entry.filter (· ≠ (Wire.noEntry : Int)) }

theorem toBytes_filed (l : Library) : l.filed.toBytes = l.toBytes := by
  have hentry : l.filed.entry.getD (Wire.noEntry : Int) = l.entry.getD (Wire.noEntry : Int) := by
    unfold filed
    rcases l.entry with _ | e
    · rfl
    · by_cases he : e = (Wire.noEntry : Int)
      · simp [Option.filter_some, he]
      · simp [Option.filter_some, he]
  simp only [toBytes, Wire.header, hentry]
  rfl

/-- A library with the id of its content is read from its file. -/
theorem ofBytes_eq_filed (hverify : l.verify = .ok true) (h : l.toBytes = .ok raw) :
    ofBytes raw = .ok l.filed := by
  have hentry : l.filed.entry ≠ some (Wire.noEntry : Int) := by
    intro hsome
    have hkept := (Option.filter_eq_some_iff.mp hsome).2
    simp at hkept
  have hfiled : l.filed.toBytes = .ok raw := l.toBytes_filed.trans h
  exact ofBytes_of_toBytes hverify hentry hfiled

theorem dump_eq_ok {lines : List String} (h : l.dump = .ok lines) :
    ∃ rest, lines = ("id:       " ++ l.id) :: rest := by
  obtain ⟨code, -, h⟩ := bind_eq_ok.mp h
  cases h
  exact ⟨_, rfl⟩

/-- A dump is not the file of a library. -/
theorem not_ofBytes_textOf {id : String} {lines : List String} :
    ofBytes (Tool.textOf (("id:       " ++ id) :: lines)) ≠ .ok l := by
  intro h
  obtain ⟨-, -, extra, places, -, hraw⟩ := ofBytes_eq_ok.mp h
  rw [fieldsWith, leadFields, List.append_assoc] at hraw
  have hmark : some (65 : UInt8) = some 105 :=
    (Wire.head?_of_header rfl hraw).symm.trans (Tool.head?_textOf rfl id lines)
  exact absurd hmark (by decide)

end Library

/-! ### What is linked -/

namespace Tool

theorem resultOn_of_ends {α : Type} {x : Tool (StateM FileTree) α} {w w' : Console × FileTree}
    {a : α} (h : Ends x w a w') : resultOn x w.1 w.2 = .ok a := by
  rw [resultOn, show (x.run w.1).run w.2 = _ from h]

end Tool

namespace LinkRequest

open Tool

variable {r : LinkRequest} {w w' : Console × FileTree} {lib : Library} {inline : Dict Library}

/-- The library and those that were linked on the way have the ids of their contents. -/
def Verified (found : Library × Dict Library) : Prop :=
  found.1.verify = .ok true ∧ ∀ x ∈ found.2, x.2.verify = .ok true

theorem linkThem_gives (c : Manifest) (os : List Object) (e : Environment) :
    Gives Verified (r.linkThem c os e) := by
  refine (Gives.lift fun s hs => hs).bind fun s hs => ?_
  have hknown : s ∈ ContentId.Strategy.known :=
    ContentId.Strategy.mem_known_of_named (mapError_ok_iff.mp (mapError_ok_iff.mp hs))
  rcases hrun : linkObjects os e s r.name with ⟨result, linker⟩
  refine (Gives.any _).bind fun _ _ => (Gives.lift fun l hl => hl).bind fun l hl => ?_
  refine Gives.pure ⟨?_, fun x hx => ?_⟩
  · have hfst : result = _ := (congrArg Prod.fst hrun).symm.trans (linkObjects_fst os e s r.name)
    obtain ⟨m, -, hlink⟩ := bind_eq_ok.mp (hfst.symm.trans hl)
    exact (Library.Addressed.linked hknown hlink).verify
  · have hmem : x ∈ (linkObjects os e s r.name).2.linked := by rwa [hrun]
    obtain ⟨o, -, hlink⟩ := linkObject_of_mem_linked hmem
    exact (Library.Addressed.linked hknown hlink).verify

/-- **Whatever is gathered has the id of its content**, whatever the files hold. -/
theorem gather_gives (r : LinkRequest) :
    Gives (fun found? => ∀ found ∈ found?, Verified found) r.gather := by
  have hrest : ∀ c : Manifest, Gives (fun found? => ∀ found ∈ found?, Verified found) (do
      let paths ← r.findObjects
      if paths.isEmpty then return none
      let os ← paths.mapM readObject
      let e ← c.environment
      return some (← r.linkThem c os e)) := by
    intro c
    refine (Gives.any _).bind fun paths _ => ?_
    split_ifs
    · exact Gives.pure (by simp)
    · refine (Gives.any _).bind fun os _ => (Gives.any _).bind fun e _ => ?_
      refine (linkThem_gives c os e).bind fun found hfound => Gives.pure fun found' hfound' => ?_
      rwa [← Option.some.inj hfound']
  unfold gather
  rcases r.manifest with _ | path
  · exact (Gives.any _).bind fun c _ => hrest c
  · exact (Gives.any _).bind fun c _ => hrest c

/-! ### What is written -/

/-- A library with its path, and behind it those that were linked on the way with theirs, which
start at the directory of the first. -/
def outputs (out : Path) (lib : Library) (inline : Dict Library) : List (String × Library) :=
  [(out.render, lib)] ++
    inline.map fun x => ((out.parent.join (Path.ofText (x.1 ++ ".alu"))).render, x.2)

theorem writeInline_does (directory : Path) (name : String) (l : Library) :
    Does (writeInline directory name l) (fun _ => l.toBytes = .ok l.file)
      [((directory.join (Path.ofText (name ++ ".alu"))).render, l.file)] := by
  refine Does.next (Does.lift fun raw hraw => hraw) fun raw hraw => ?_
  rw [Library.file_of_toBytes hraw]
  refine Does.last (Does.write _ _) fun _ _ => ?_
  exact (Does.log _).imp fun _ _ => hraw

/-- The libraries are written one after the other. -/
theorem writeOutputs_does (out : Path) (lib : Library) (inline : Dict Library) : Does (do
    Tool.write out.render (← Tool.lift lib.toBytes)
    inline.forM fun (name, l) => writeInline (m := StateM FileTree) out.parent name l)
    (fun _ => ∀ x ∈ outputs out lib inline, x.2.toBytes = .ok x.2.file)
    ((outputs out lib inline).map fun x => (x.1, x.2.file)) := by
  have hinline := Does.forM (fun x : String × Library => writeInline_does out.parent x.1 x.2) inline
  rw [← List.map_eq_flatMap] at hinline
  simp only [outputs, List.map_append, List.map_map, Function.comp_def, List.map_cons, List.map_nil]
  refine Does.next (Does.lift fun raw hraw => hraw) fun raw hraw => ?_
  rw [← Library.file_of_toBytes hraw]
  refine Does.bind (Does.write _ _) fun _ _ => ?_
  refine hinline.imp fun _ hfiles x hx => ?_
  rcases List.mem_append.mp hx with hx | hx
  · rw [List.mem_singleton.mp hx, Library.file_of_toBytes hraw, hraw]
  · obtain ⟨y, hy, rfl⟩ := List.mem_map.mp hx
    exact hfiles y hy

/-- **What the linker writes**: its library, the libraries that were linked on the way, and the
dump. -/
theorem write_ends {u : Unit} (h : Ends (r.write lib inline) w u w') :
    (∀ x ∈ outputs (r.target lib) lib inline, x.2.toBytes = .ok x.2.file) ∧
      ∃ (t : FileTree) (lines : List String),
        t.writeAll ((outputs (r.target lib) lib inline).map (fun x => (x.1, x.2.file)) ++
          (dumpFile? r.dump).toList.map fun path =>
            (path, textOf (("id:       " ++ lib.id) :: lines))) = .ok w'.2 := by
  unfold write at h
  generalize r.target lib = out at h ⊢
  obtain ⟨_, w1, -, h1⟩ := ends_bind.mp h
  obtain ⟨raw, w2, hlift, h2⟩ := ends_bind.mp h1
  obtain ⟨_, w3, hmain, h3⟩ := ends_bind.mp h2
  obtain ⟨_, w4, hinline, h4⟩ := ends_bind.mp h3
  obtain ⟨hfiles, hwrites⟩ := writeOutputs_does out lib inline w1 () w4
    (ends_bind.mpr ⟨raw, w2, hlift, ends_bind.mpr ⟨(), w3, hmain, hinline⟩⟩)
  refine ⟨hfiles, w1.2, ?_⟩
  split_ifs at h4 with hdump
  · obtain ⟨lines, w5, hdumped, h5⟩ := ends_bind.mp h4
    obtain ⟨hlines, rfl⟩ := ends_lift.mp hdumped
    obtain ⟨rest, rfl⟩ := Library.dump_eq_ok hlines
    exact ⟨rest, foldlM_append_eq_ok.mpr ⟨w5.2, hwrites, (Does.deliver _ _ w5 u w' h5).2⟩⟩
  · have hnone : dumpFile? r.dump = none := by
      rw [Option.isSome_iff_exists, not_exists] at hdump
      refine Option.eq_none_iff_forall_ne_some.mpr fun path hpath => hdump path ?_
      obtain ⟨hsome, hfile⟩ := Option.filter_eq_some_iff.mp hpath
      exact Option.filter_eq_some_iff.mpr ⟨hsome, (Bool.and_eq_true_iff.mp hfile).2⟩
    obtain ⟨-, rfl⟩ := ends_pure.mp h4
    exact ⟨[], by rwa [hnone, Option.toList_none, List.map_nil, List.append_nil]⟩

/-- What went wrong is never reported with code 0. -/
theorem refuse_ends {α : Type} {e : Failure} {result : Except Nat α}
    (h : Ends (refuse e) w result w') : ∃ code, code ≠ 0 ∧ result = .error code := by
  unfold refuse at h
  split at h
  · obtain ⟨_, _, -, h⟩ := ends_bind.mp h
    exact ⟨1, by decide, (ends_pure.mp h).1⟩
  · obtain ⟨_, _, -, h⟩ := ends_bind.mp h
    exact ⟨2, by decide, (ends_pure.mp h).1⟩
  · exact absurd h not_ends_throw

theorem linked_ends {result : Except Nat (Library × Dict Library)} (h : Ends r.linked w result w') :
    (∃ code, code ≠ 0 ∧ result = .error code) ∨
      ∃ found, result = .ok found ∧ Ends r.gather w (some found) w' := by
  rcases ends_tryCatch.mp h with h | ⟨e, w1, -, h⟩
  · obtain ⟨found?, w1, hgather, h1⟩ := ends_bind.mp h
    rcases found? with _ | found
    · obtain ⟨_, _, -, h2⟩ := ends_bind.mp h1
      exact .inl ⟨1, by decide, (ends_pure.mp h2).1⟩
    · obtain ⟨rfl, rfl⟩ := ends_pure.mp h1
      exact .inr ⟨found, rfl, hgather⟩
  · exact .inl (refuse_ends h)

/-- A run with code 0 linked the objects, wrote what they give and printed the id. -/
theorem perform_ends (h : Ends r.perform w 0 w') : ∃ lib inline w1 w2,
    Ends r.gather w (some (lib, inline)) w1 ∧ Ends (r.write lib inline) w1 () w2 ∧
      w'.2 = w2.2 ∧ w'.1.out = w2.1.out ++ ("OK: " ++ lib.name ++ " → " ++ (r.target lib).render) ++
        "\n" ++ lib.id ++ "\n" := by
  obtain ⟨result, w1, hlinked, h1⟩ := ends_bind.mp h
  rcases linked_ends hlinked with ⟨code, hcode, rfl⟩ | ⟨⟨lib, inline⟩, rfl, hgather⟩
  · exact absurd (ends_pure.mp h1).1.symm hcode
  · obtain ⟨written, w2, hwrite, h2⟩ := ends_bind.mp h1
    rcases written with _ | _
    · cases (ends_pure.mp h2).1
    · obtain ⟨_, w3, hprint, h3⟩ := ends_bind.mp h2
      obtain ⟨_, w4, hid, h4⟩ := ends_bind.mp h3
      obtain ⟨-, rfl⟩ := ends_pure.mp h4
      refine ⟨lib, inline, w1, w2, hgather, ends_writing hwrite, ?_⟩
      rw [ends_print.mp hid, ends_print.mp hprint]
      exact ⟨rfl, rfl⟩

/-! ### What is left -/

/-- After the writes of a run the file of a library holds what was written to it last: the last
library with a path to it, or the dump. -/
theorem ofBytes_iff_last {t t' : FileTree} {outs : List (String × Library)} {lines : List String}
    (hverify : ∀ x ∈ outs, x.2.verify = .ok true)
    (hfiles : ∀ x ∈ outs, x.2.toBytes = .ok x.2.file)
    (hwrites : t.writeAll (outs.map (fun x => (x.1, x.2.file)) ++
      (dumpFile? r.dump).toList.map fun path =>
        (path, textOf (("id:       " ++ lib.id) :: lines))) = .ok t')
    {x : String × Library} (hx : x ∈ outs) :
    (∃ raw, t'.read x.1 = .ok raw ∧ Library.ofBytes raw = .ok x.2) ↔
      (∃ y, t'.lastAt outs x.1 = some y ∧ y.2.filed = x.2) ∧
        ∀ path ∈ dumpFile? r.dump, t'.place? path ≠ t'.place? x.1 := by
  obtain ⟨-, hleft⟩ := read_of_writes_and_dump hwrites
    (List.mem_map_of_mem (f := fun x => (x.1, x.2.file)) hx)
  simp only at hleft
  rcases hleft with ⟨path, hpath, hsame, hcontent⟩ | ⟨hapart, last, hlast, hcontent⟩
  · -- the dump stands over the library
    rw [hcontent]
    constructor
    · rintro ⟨raw, hraw, hof⟩
      rw [← Except.ok.inj hraw] at hof
      exact absurd hof Library.not_ofBytes_textOf
    · rintro ⟨-, hno⟩
      exact absurd hsame (hno path hpath)
  · rw [FileTree.lastAt_map Library.file] at hlast
    obtain ⟨y, hy, rfl⟩ := Option.map_eq_some_iff.mp hlast
    have hymem : y ∈ outs := List.mem_reverse.mp (List.mem_of_find?_eq_some hy)
    have hread : Library.ofBytes y.2.file = .ok y.2.filed :=
      Library.ofBytes_eq_filed (hverify y hymem) (hfiles y hymem)
    rw [hcontent, hy]
    constructor
    · rintro ⟨raw, hraw, hof⟩
      rw [← Except.ok.inj hraw, hread] at hof
      exact ⟨⟨y, rfl, Except.ok.inj hof⟩, hapart⟩
    · rintro ⟨⟨y', hy', hfiled⟩, -⟩
      rw [← Option.some.inj hy'] at hfiled
      exact ⟨y.2.file, rfl, hfiled ▸ hread⟩

end LinkRequest

/-- **The libraries that the linker leaves.** If it ends with code 0, it linked its objects and
printed the id of their library. Afterwards the path of that library, or of one that was linked on
the way, leads to a file that holds it exactly if the last of the libraries written to that file
is read as it, and the dump was not written over it. -/
theorem libraries_left_by_linker {texts : List String} {t t' : FileTree} {out err : String}
    (h : (linkCommand texts : StateM FileTree Outcome).run t = (.finished 0 out err, t')) :
    ∃ r lib inline, LinkRequest.ofArguments texts = .ok r ∧
      Tool.resultOn r.gather { verbosity := r.verbosity } t = .ok (some (lib, inline)) ∧
      (∃ dumped, out = dumped ++ ("OK: " ++ lib.name ++ " → " ++ (r.target lib).render) ++
        "\n" ++ lib.id ++ "\n") ∧
      ∀ x ∈ LinkRequest.outputs (r.target lib) lib inline,
        (∃ raw, t'.read x.1 = .ok raw ∧ Library.ofBytes raw = .ok x.2) ↔
        (∃ y, t'.lastAt (LinkRequest.outputs (r.target lib) lib inline) x.1 = some y ∧
          y.2.filed = x.2) ∧
          ∀ path ∈ Tool.dumpFile? r.dump, t'.place? path ≠ t'.place? x.1 := by
  unfold linkCommand at h
  rcases hr : LinkRequest.ofArguments texts with stop | r
  · rw [hr] at h
    cases h
  · rw [hr] at h
    obtain ⟨c, hends, rfl, -⟩ := Tool.ends_of_outcome h
    obtain ⟨lib, inline, w1, w2, hgather, hwrite, htree, hout⟩ := LinkRequest.perform_ends hends
    have hresult := Tool.resultOn_of_ends hgather
    obtain ⟨hmain, hothers⟩ := r.gather_gives _ _ _ hresult _ rfl
    have hverify : ∀ x ∈ LinkRequest.outputs (r.target lib) lib inline,
        x.2.verify = .ok true := by
      intro x hx
      rcases List.mem_append.mp hx with hx | hx
      · rw [List.mem_singleton.mp hx]
        exact hmain
      · obtain ⟨y, hy, rfl⟩ := List.mem_map.mp hx
        exact hothers y hy
    obtain ⟨hfiles, t1, lines, hwrites⟩ := LinkRequest.write_ends hwrite
    rw [← htree] at hwrites
    exact ⟨r, lib, inline, rfl, hresult, ⟨w2.1.out, hout⟩, fun x hx =>
      LinkRequest.ofBytes_iff_last hverify hfiles hwrites hx⟩

/-- An object that calls a routine of another one. -/
def Object.user : Object where
  name := "main"
  mask := 1
  code := [5, 0, 0, 0, 0, 0, 0, 0, 1, 0, 0, 0, 0, 0, 0, 0]
  data := []
  imports := [⟨"std.hash", .exportedLabel⟩]
  libraries := [⟨"std", none⟩]
  relocations := [⟨1, .externalCall, "std.hash"⟩]
  entry := some 0

/-- The object with that routine. -/
def Object.used : Object where
  name := "std"
  mask := 1
  code := [7, 0, 0, 0, 0, 0, 0, 0]
  data := []
  exports := [⟨"hash", .exportedLabel, 0⟩]

/-- A tree with both objects and a manifest that names the second one. -/
def FileTree.userAndUsed : FileTree :=
  (((FileTree.empty ["work"]).plant "objs/main.ao" (.file Object.user.file)).plant "std.ao"
    (.file Object.used.file)).plant "link.json"
    (.file (Bytes.ofText "\x7b\"modules\": \x7b\"std\": \"std.ao\"\x7d\x7d"))

theorem libraries_left_of_user_and_used : ∃ t' out,
    (linkCommand ["objs/main.ao", "-m", "link.json", "-o", "out/main.alu"] :
      StateM FileTree Outcome).run .userAndUsed = (.finished 0 out "", t') ∧
    ∃ r lib inline,
      LinkRequest.ofArguments ["objs/main.ao", "-m", "link.json", "-o", "out/main.alu"] = .ok r ∧
      Tool.resultOn r.gather { verbosity := r.verbosity } .userAndUsed =
        .ok (some (lib, inline)) ∧
      (∃ dumped, out = dumped ++ ("OK: " ++ lib.name ++ " → " ++ (r.target lib).render) ++
        "\n" ++ lib.id ++ "\n") ∧
      ∀ x ∈ LinkRequest.outputs (r.target lib) lib inline,
        (∃ raw, t'.read x.1 = .ok raw ∧ Library.ofBytes raw = .ok x.2) ↔
        (∃ y, t'.lastAt (LinkRequest.outputs (r.target lib) lib inline) x.1 = some y ∧
          y.2.filed = x.2) ∧
          ∀ path ∈ Tool.dumpFile? r.dump, t'.place? path ≠ t'.place? x.1 := by
  have hfirst : ((linkCommand ["objs/main.ao", "-m", "link.json", "-o", "out/main.alu"] :
      StateM FileTree Outcome).run .userAndUsed).1 = .finished 0 ("OK: main → out/main.alu\n" ++
        "sha256:4fed24a2adf74c6a71f1a9bc481204a75ab253a0b03c0b266e43026eb90ad2e4\n") "" := by
    decide +kernel
  rcases hrun : (linkCommand ["objs/main.ao", "-m", "link.json", "-o", "out/main.alu"] :
    StateM FileTree Outcome).run .userAndUsed with ⟨outcome, t'⟩
  rw [hrun] at hfirst
  obtain rfl : outcome = _ := hfirst
  exact ⟨t', _, rfl, libraries_left_by_linker hrun⟩

/-- **A dependency can take the place of the library.** If the output has the name under which a
manifest knows an object, the library of that object is written over the one whose id is printed. -/
theorem dependency_overwrites_library : ∃ t' raw lib,
    (linkCommand ["objs/main.ao", "-m", "link.json", "-o", "out/std.alu"] :
      StateM FileTree Outcome).run .userAndUsed = (.finished 0 ("OK: main → out/std.alu\n" ++
        "sha256:4fed24a2adf74c6a71f1a9bc481204a75ab253a0b03c0b266e43026eb90ad2e4\n") "", t') ∧
    t'.read "out/std.alu" = .ok raw ∧ Library.ofBytes raw = .ok lib ∧
    lib.id = "sha256:296095d21e8acdf3567e733895fe96b8493f4466c4de4ffbd8de489a1adb0839" := by
  have hends : ((linkCommand ["objs/main.ao", "-m", "link.json", "-o", "out/std.alu"] :
      StateM FileTree Outcome).run .userAndUsed).1 = .finished 0 ("OK: main → out/std.alu\n" ++
        "sha256:4fed24a2adf74c6a71f1a9bc481204a75ab253a0b03c0b266e43026eb90ad2e4\n") "" ∧
      ((((linkCommand ["objs/main.ao", "-m", "link.json", "-o", "out/std.alu"] :
        StateM FileTree Outcome).run .userAndUsed).2.read "out/std.alu").toOption.bind fun raw =>
          (Library.ofBytes raw).toOption).map (·.id) =
        some "sha256:296095d21e8acdf3567e733895fe96b8493f4466c4de4ffbd8de489a1adb0839" := by
    decide +kernel
  rcases hrun : (linkCommand ["objs/main.ao", "-m", "link.json", "-o", "out/std.alu"] :
    StateM FileTree Outcome).run .userAndUsed with ⟨outcome, t'⟩
  rw [hrun] at hends
  obtain ⟨hfirst, hleft⟩ := hends
  obtain rfl : outcome = _ := hfirst
  obtain ⟨lib, hlib, hid⟩ := Option.map_eq_some_iff.mp hleft
  obtain ⟨raw, hraw, hof⟩ := Option.bind_eq_some_iff.mp hlib
  exact ⟨t', raw, lib, rfl, toOption_eq_some.mp hraw, toOption_eq_some.mp hof, hid⟩

end AluVM
