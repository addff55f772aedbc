import AluVM.Command.Console
import AluVM.Proofs.Writes

/-! # Runs of tools

How the work of a tool ends on a tree of files. `Ends` says that the work comes to a result, and
what the console and the tree are then; its lemmas take a run apart into the runs of its steps.
`Does` is what is left of this for work that changes the tree only by writing files: a property of
the result, and the writes in order. -/

namespace AluVM

open Steps

theorem FileTree.change_of_ok {op : FileTree → Except FileFault FileTree} {t t' : FileTree}
    (h : op t = .ok t') : (change op).run t = (.ok (), t') := by
  simp only [change, StateT.run_bind, StateT.run_get, pure_bind, h, StateT.run_set]
  rfl

theorem FileTree.change_of_error {op : FileTree → Except FileFault FileTree} {t : FileTree}
    {fault : FileFault} (h : op t = .error fault) : (change op).run t = (.error fault, t) := by
  simp only [change, StateT.run_bind, StateT.run_get, pure_bind, h]
  rfl

namespace Tool

variable {α β : Type} {x : Tool (StateM FileTree) α} {w w' w'' : Console × FileTree} {a : α}

/-- The work ends with a result and leaves the console and the tree. -/
def Ends (x : Tool (StateM FileTree) α) (w : Console × FileTree) (a : α)
    (w' : Console × FileTree) : Prop :=
  (x.run w.1).run w.2 = ((.ok a, w'.1), w'.2)

/-- The work fails and leaves the console and the tree. -/
def Fails (x : Tool (StateM FileTree) α) (w : Console × FileTree) (e : Failure)
    (w' : Console × FileTree) : Prop :=
  (x.run w.1).run w.2 = ((.error e, w'.1), w'.2)

/-! ### Steps of a run -/

theorem ends_pure {b : α} : Ends (pure a : Tool (StateM FileTree) α) w b w' ↔ b = a ∧ w' = w := by
  show ((Except.ok a, w.1), w.2) = ((Except.ok b, w'.1), w'.2) ↔ _
  grind

theorem not_ends_throw {e : Failure} : ¬Ends (throw e : Tool (StateM FileTree) α) w a w' := by
  intro h
  have h : ((Except.error e, w.1), w.2) = ((Except.ok a, w'.1), w'.2) := h
  simp at h

theorem ends_bind {f : α → Tool (StateM FileTree) β} {b : β} :
    Ends (x >>= f) w b w'' ↔ ∃ a w', Ends x w a w' ∧ Ends (f a) w' b w'' := by
  rcases hrun : x w.1 w.2 with ⟨⟨r, c⟩, t⟩
  have hx : (x.run w.1).run w.2 = ((r, c), t) := hrun
  have hbind : ((x >>= f).run w.1).run w.2 = ExceptT.bindCont f r c t := by
    show ExceptT.bind x f w.1 w.2 = _
    simp only [ExceptT.bind, ExceptT.mk, bind, StateT.bind, hrun]
  unfold Ends
  rw [hbind, hx]
  rcases r with e | a
  · constructor
    · intro h
      cases h
    · rintro ⟨a, w', h, -⟩
      cases h
  · constructor
    · intro h
      exact ⟨a, (c, t), rfl, h⟩
    · rintro ⟨a', w', h, h'⟩
      cases h
      exact h'

theorem ends_lift {r : Except Failure α} :
    Ends (Tool.lift r) w a w' ↔ r = .ok a ∧ w' = w := by
  rcases r with e | b
  · simp only [Tool.lift, reduceCtorEq, false_and, iff_false]
    exact not_ends_throw
  · rw [Tool.lift, ends_pure, Except.ok.injEq, eq_comm]

theorem ends_tryCatch {handler : Failure → Tool (StateM FileTree) α} :
    Ends (tryCatch x handler) w a w'' ↔
      Ends x w a w'' ∨ ∃ e w', Fails x w e w' ∧ Ends (handler e) w' a w'' := by
  have htry : ((tryCatch x handler).run w.1).run w.2 = ExceptT.tryCatch x handler w.1 w.2 := rfl
  unfold Ends Fails
  rw [htry]
  rcases hrun : x w.1 w.2 with ⟨⟨r, c⟩, t⟩
  have hx : (x.run w.1).run w.2 = ((r, c), t) := hrun
  rw [hx]
  rcases r with e | b
  · have hcatch : ExceptT.tryCatch x handler w.1 w.2 = ((handler e).run c).run t := by
      simp only [ExceptT.tryCatch, ExceptT.mk, bind, StateT.bind, hrun]
      rfl
    rw [hcatch]
    constructor
    · intro h
      exact .inr ⟨e, (c, t), rfl, h⟩
    · rintro (h | ⟨e', w', h, h'⟩)
      · cases h
      · cases h
        exact h'
  · have hcatch : ExceptT.tryCatch x handler w.1 w.2 = ((.ok b, c), t) := by
      simp only [ExceptT.tryCatch, ExceptT.mk, bind, StateT.bind, hrun]
      rfl
    rw [hcatch]
    constructor
    · intro h
      exact .inl h
    · rintro (h | ⟨e', w', h, h'⟩)
      · exact h
      · cases h

theorem ends_print {line : String} {u : Unit} : Ends (print line) w u w' ↔
    w' = ({ w.1 with out := w.1.out ++ line ++ "\n" }, w.2) := by
  show ((Except.ok (), { w.1 with out := w.1.out ++ line ++ "\n" }), w.2) =
    ((Except.ok u, w'.1), w'.2) ↔ _
  grind

/-- The error stream and the log do not touch the files. -/
theorem ends_complain {line : String} {u : Unit} : Ends (complain line) w u w' ↔
    w' = ({ w.1 with err := w.1.err ++ line ++ "\n" }, w.2) := by
  show ((Except.ok (), { w.1 with err := w.1.err ++ line ++ "\n" }), w.2) =
    ((Except.ok u, w'.1), w'.2) ↔ _
  grind

theorem ends_get {c : Console} : Ends (get : Tool (StateM FileTree) Console) w c w' ↔
    c = w.1 ∧ w' = w := by
  show ((Except.ok w.1, w.1), w.2) = ((Except.ok c, w'.1), w'.2) ↔ _
  grind

/-! ### File operations -/

theorem ends_op {op : StateM FileTree α} :
    Ends (liftM op : Tool (StateM FileTree) α) w a w' ↔ op.run w.2 = (a, w'.2) ∧ w'.1 = w.1 := by
  rcases hop : op w.2 with ⟨b, t⟩
  have hrun : op.run w.2 = (b, t) := hop
  have hlift : ((liftM op : Tool (StateM FileTree) α).run w.1).run w.2 = ((.ok b, w.1), t) := by
    show ((fun r : Except Failure α × FileTree => ((r.1, w.1), r.2))
      ((fun r : α × FileTree => (Except.ok r.1, r.2)) (op w.2))) = _
    rw [hop]
  rw [Ends, hlift, hrun]
  grind

theorem ends_onPath {path : String} {op : StateM FileTree (Except FileError α)}
    (h : Ends (onPath path op) w a w') : op.run w.2 = (.ok a, w'.2) ∧ w'.1 = w.1 := by
  unfold onPath at h
  simp only at h
  split_ifs at h
  · obtain ⟨_, _, hthrow, -⟩ := ends_bind.mp h
    exact absurd hthrow not_ends_throw
  · obtain ⟨r, w1, hop, h⟩ := ends_bind.mp h
    obtain ⟨hop, hw1⟩ := ends_op.mp hop
    rcases r with e | b
    · exact absurd h not_ends_throw
    · obtain ⟨rfl, rfl⟩ := ends_pure.mp h
      exact ⟨hop, hw1⟩

theorem ends_read {path : String} {content : Bytes} (h : Ends (read path) w content w') :
    w.2.read path = .ok content ∧ w' = w := by
  obtain ⟨hop, hconsole⟩ := ends_onPath h
  have hrun : (Files.atPath path (w.2.read path), w.2) = (Except.ok content, w'.2) := hop
  obtain ⟨hread, htree⟩ := Prod.mk.inj hrun
  exact ⟨mapError_ok_iff.mp hread, Prod.ext hconsole htree.symm⟩

/-- A text that was read is that of a file, decoded and with its line breaks unified. -/
theorem ends_readText {path : String} {cs : List Char} (h : Ends (readText path) w cs w') :
    (∃ content chars, w.2.read path = .ok content ∧ Bytes.decodeChars content = .ok chars ∧
      cs = Text.unifyNewlines chars) ∧ w' = w := by
  obtain ⟨content, w1, hread, hrest⟩ := ends_bind.mp h
  obtain ⟨hread, hw⟩ := ends_read hread
  rcases hdecode : Bytes.decodeChars content with e | chars
  · rw [hdecode] at hrest
    exact absurd hrest not_ends_throw
  · rw [hdecode] at hrest
    obtain ⟨hcs, hw'⟩ := ends_pure.mp hrest
    exact ⟨⟨content, chars, hread, hdecode, hcs⟩, hw'.trans hw⟩

theorem ends_write {path : String} {content : Bytes} {u : Unit}
    (h : Ends (write path content) w u w') :
    w.2.write path content = .ok w'.2 ∧ w'.1 = w.1 := by
  obtain ⟨hop, hconsole⟩ := ends_onPath h
  refine ⟨?_, hconsole⟩
  have hrun : (fun r : Except FileFault Unit × FileTree => (Files.atPath path r.1, r.2))
      ((FileTree.change (·.write path content)).run w.2) = (Except.ok u, w'.2) := hop
  rcases hwrite : w.2.write path content with fault | t
  · rw [FileTree.change_of_error hwrite] at hrun
    simp [Files.atPath, Except.mapError] at hrun
  · rw [FileTree.change_of_ok hwrite] at hrun
    have htree : t = w'.2 := (Prod.mk.inj hrun).2
    rw [htree]

theorem ends_writing (h : Ends (writing x) w (some a) w') : Ends x w a w' := by
  rcases ends_tryCatch.mp h with h | ⟨e, w1, -, h⟩
  · obtain ⟨b, w1, hx, h⟩ := ends_bind.mp h
    obtain ⟨hab, rfl⟩ := ends_pure.mp h
    cases hab
    exact hx
  · -- the handler reports the error or fails with it
    split at h
    · obtain ⟨_, _, -, h⟩ := ends_bind.mp h
      cases (ends_pure.mp h).1
    · exact absurd h not_ends_throw

/-- A tool that finished with a code did its work to the end. -/
theorem ends_of_outcome {verbosity code : Nat} {work : Tool (StateM FileTree) Nat}
    {out err : String} {t t' : FileTree}
    (h : (outcome verbosity work).run t = (.finished code out err, t')) :
    ∃ c, Ends work ({ verbosity }, t) code (c, t') ∧ out = c.out ∧ err = c.err := by
  rcases hrun : (work.run { verbosity : Console }).run t with ⟨⟨r, c⟩, s⟩
  rw [outcome, StateT.run_bind, hrun] at h
  rcases r with e | b
  · cases h
  · cases h
    exact ⟨c, hrun, rfl, rfl⟩

/-! ### Work that writes files -/

/-- Whatever the work comes to has a property, and the work changes the tree by writing the given
contents in order. -/
def Does (x : Tool (StateM FileTree) α) (P : α → Prop) (ws : List (String × Bytes)) : Prop :=
  ∀ w a w', Ends x w a w' → P a ∧ w.2.writeAll ws = .ok w'.2

section Does
variable {P : α → Prop} {Q : β → Prop} {us vs : List (String × Bytes)}

theorem Does.imp {P' : α → Prop} (h : Does x P us) (himp : ∀ a, P a → P' a) : Does x P' us :=
  fun w a w' hx => ⟨himp a (h w a w' hx).1, (h w a w' hx).2⟩

theorem Does.pure (h : P a) : Does (Pure.pure a) P [] := by
  intro w b w' hb
  obtain ⟨rfl, rfl⟩ := ends_pure.mp hb
  exact ⟨h, rfl⟩

theorem Does.throw (e : Failure) : Does (throw e) P us :=
  fun _ _ _ h => absurd h not_ends_throw

theorem Does.lift {r : Except Failure α} (h : ∀ a, r = .ok a → P a) : Does (Tool.lift r) P [] := by
  intro w a w' ha
  obtain ⟨hr, rfl⟩ := ends_lift.mp ha
  exact ⟨h a hr, rfl⟩

theorem Does.bind {f : α → Tool (StateM FileTree) β} (hx : Does x P us)
    (hf : ∀ a, P a → Does (f a) Q vs) : Does (x >>= f) Q (us ++ vs) := by
  intro w b w'' h
  obtain ⟨a, w', ha, hb⟩ := ends_bind.mp h
  obtain ⟨hP, hus⟩ := hx w a w' ha
  obtain ⟨hQ, hvs⟩ := hf a hP w' b w'' hb
  exact ⟨hQ, foldlM_append_eq_ok.mpr ⟨w'.2, hus, hvs⟩⟩

/-- A step that writes nothing. -/
theorem Does.next {f : α → Tool (StateM FileTree) β} (hx : Does x P [])
    (hf : ∀ a, P a → Does (f a) Q vs) : Does (x >>= f) Q vs :=
  hx.bind hf

/-- Steps behind the writes that write nothing more. -/
theorem Does.last {f : α → Tool (StateM FileTree) β} (hx : Does x P us)
    (hf : ∀ a, P a → Does (f a) Q []) : Does (x >>= f) Q us := by
  rw [← List.append_nil us]
  exact hx.bind hf

theorem Does.mapM {f : α → Tool (StateM FileTree) β} {R : α → β → Prop}
    {ws : α → List (String × Bytes)} (h : ∀ x, Does (f x) (R x) (ws x)) :
    ∀ xs : List α, Does (xs.mapM f) (List.Forall₂ R xs) (xs.flatMap ws)
  | [] => by
    rw [List.mapM_nil]
    exact Does.pure .nil
  | x :: xs => by
    rw [List.mapM_cons, List.flatMap_cons]
    refine (h x).bind fun y hy => ?_
    exact (Does.mapM h xs).last fun ys hys => Does.pure (.cons hy hys)

theorem Does.forM {f : α → Tool (StateM FileTree) Unit} {R : α → Prop}
    {ws : α → List (String × Bytes)} (h : ∀ x, Does (f x) (fun _ => R x) (ws x)) :
    ∀ xs : List α, Does (xs.forM f) (fun _ => ∀ x ∈ xs, R x) (xs.flatMap ws)
  | [] => Does.pure (by simp)
  | x :: xs => by
    rw [List.flatMap_cons]
    refine (h x).bind fun _ hx => ?_
    exact (Does.forM h xs).imp fun _ hxs => List.forall_mem_cons.mpr ⟨hx, hxs⟩

theorem Does.print (line : String) : Does (Tool.print line) (fun _ => True) [] := by
  intro w a w' h
  rw [ends_print.mp h]
  exact ⟨trivial, rfl⟩

theorem Does.complain (line : String) : Does (Tool.complain line) (fun _ => True) [] := by
  intro w a w' h
  rw [ends_complain.mp h]
  exact ⟨trivial, rfl⟩

theorem Does.log (line : LogLine) : Does (Tool.log line) (fun _ => True) [] := by
  intro w a w' h
  obtain ⟨c, w1, hget, h⟩ := ends_bind.mp h
  obtain ⟨rfl, rfl⟩ := ends_get.mp hget
  split_ifs at h
  · exact Does.complain _ w1 a w' h
  · exact Does.pure (P := fun _ => True) trivial w1 a w' h

theorem Does.write (path : String) (content : Bytes) :
    Does (Tool.write path content) (fun _ => True) [(path, content)] := by
  intro w a w' h
  refine ⟨trivial, ?_⟩
  rw [FileTree.writeAll, List.foldlM_cons, (ends_write h).1]
  rfl

/-- Work that writes nothing leaves the tree. -/
theorem Does.keeps (h : Does x P []) (hx : Ends x w a w') : P a ∧ w'.2 = w.2 := by
  obtain ⟨hP, hwrites⟩ := h w a w' hx
  exact ⟨hP, (Except.ok.inj hwrites).symm⟩

theorem Does.forM_still {f : α → Tool (StateM FileTree) Unit}
    (h : ∀ x, Does (f x) (fun _ => True) []) (xs : List α) :
    Does (xs.forM f) (fun _ => True) [] := by
  have hall : Does (xs.forM f) _ (xs.flatMap fun _ => []) := Does.forM h xs
  rw [List.flatMap_eq_nil_iff.mpr fun _ _ => rfl] at hall
  exact hall.imp fun _ _ => trivial

end Does

/-- Work on one thing after the other that only reads: each result comes from the same tree. -/
theorem ends_mapM {f : α → Tool (StateM FileTree) β} {R : FileTree → α → β → Prop}
    (h : ∀ x w y w', Ends (f x) w y w' → R w.2 x y ∧ w'.2 = w.2) :
    ∀ {xs : List α} {w w' : Console × FileTree} {ys : List β}, Ends (xs.mapM f) w ys w' →
      List.Forall₂ (R w.2) xs ys ∧ w'.2 = w.2
  | [], w, w', ys, hxs => by
    rw [List.mapM_nil] at hxs
    obtain ⟨rfl, rfl⟩ := ends_pure.mp hxs
    exact ⟨.nil, rfl⟩
  | x :: xs, w, w', ys, hxs => by
    rw [List.mapM_cons] at hxs
    obtain ⟨y, w1, hy, hxs⟩ := ends_bind.mp hxs
    obtain ⟨zs, w2, hzs, hxs⟩ := ends_bind.mp hxs
    obtain ⟨rfl, rfl⟩ := ends_pure.mp hxs
    obtain ⟨hR, htree⟩ := h x w y w1 hy
    obtain ⟨hrest, htree'⟩ := ends_mapM h hzs
    rw [htree] at hrest htree'
    exact ⟨.cons hR hrest, htree'⟩

/-! ### Lines of text -/

/-- The content of a file of lines. -/
def textOf (lines : List String) : Bytes := Bytes.ofText (String.join (lines.map (· ++ "\n")))

theorem textOf_cons (line : String) (lines : List String) :
    textOf (line :: lines) = Bytes.ofText line ++ (10 :: textOf lines) := by
  have htext : (String.join ((line :: lines).map (· ++ "\n"))).toList =
      line.toList ++ ('\n' :: (String.join (lines.map (· ++ "\n"))).toList) := by
    simp [String.join_cons]
  rw [textOf, Bytes.ofText, htext, List.flatMap_append]
  rfl

/-- A file of lines starts with the first byte of its first line. -/
theorem head?_textOf {label : String} {first : UInt8}
    (hfirst : (Bytes.ofText label).head? = some first) (rest : String) (lines : List String) :
    (textOf ((label ++ rest) :: lines)).head? = some first := by
  rw [textOf_cons, Bytes.ofText, String.toList_append, List.flatMap_append, List.append_assoc,
    List.head?_append]
  exact congrArg (Option.or · _) hfirst

theorem Does.writeLines (path : String) (lines : List String) :
    Does (Tool.writeLines path lines) (fun _ => True) [(path, textOf lines)] :=
  Does.write path (textOf lines)

/-- The file of a dump: neither a dash nor an empty name is one. -/
def dumpFile? (target : Option String) : Option String :=
  target.filter fun path => path ≠ "-" && !path.isEmpty

theorem Does.deliver (target : Option String) (lines : List String) :
    Does (Tool.deliver target lines) (fun _ => True)
      ((dumpFile? target).toList.map fun path => (path, textOf lines)) := by
  unfold Tool.deliver
  rcases target with _ | path
  · exact Does.pure trivial
  · by_cases hdash : path = "-"
    · have hfile : dumpFile? (some path) = none := by simp [dumpFile?, hdash]
      rw [hfile]
      simp only [hdash, if_true]
      exact Does.print _
    · by_cases hempty : path.isEmpty = true
      · have hfile : dumpFile? (some path) = none := by
          simp [dumpFile?, String.isEmpty_iff.mp hempty]
        rw [hfile]
        simp only [hdash, hempty, if_true, if_false]
        exact Does.pure trivial
      · have hfile : dumpFile? (some path) = some path := by
          simpa [dumpFile?, hdash] using hempty
        rw [hfile]
        simp only [hdash, hempty, if_false]
        exact Does.writeLines path lines

/-- The dump is written last to its own file, and to no other. -/
theorem lastAt_dump {t : FileTree} {target : Option String} {content : Bytes} {path file : String}
    (hfile : file ∈ dumpFile? target) (h : t.place? file = t.place? path) :
    t.lastAt ((dumpFile? target).toList.map fun p => (p, content)) path = some (file, content) := by
  rw [Option.mem_def.mp hfile]
  show t.lastAt [(file, content)] path = _
  rw [FileTree.lastAt_singleton, if_pos h]

theorem lastAt_dump_eq_none {t : FileTree} {target : Option String} {content : Bytes}
    {path : String} (h : ∀ file ∈ dumpFile? target, t.place? file ≠ t.place? path) :
    t.lastAt ((dumpFile? target).toList.map fun p => (p, content)) path = none := by
  refine FileTree.lastAt_eq_none fun w hw => ?_
  obtain ⟨file, hfile, rfl⟩ := List.mem_map.mp hw
  exact h file (Option.mem_toList.mp hfile)

/-- **A file that was written before the dump** holds the last content that was written to it, or
the dump if that leads to the same file. -/
theorem read_of_writes_and_dump {t t' : FileTree} {ws : List (String × Bytes)}
    {target : Option String} {content : Bytes}
    (h : t.writeAll (ws ++ (dumpFile? target).toList.map fun path => (path, content)) = .ok t')
    {w : String × Bytes} (hw : w ∈ ws) : (t'.place? w.1).isSome ∧
      ((∃ file ∈ dumpFile? target, t'.place? file = t'.place? w.1 ∧ t'.read w.1 = .ok content) ∨
        (∀ file ∈ dumpFile? target, t'.place? file ≠ t'.place? w.1) ∧
          ∃ last, t'.lastAt ws w.1 = some last ∧ t'.read w.1 = .ok last.2) := by
  obtain ⟨p, last, htarget, hlast⟩ := FileTree.target_of_writeAll h w (List.mem_append_left _ hw)
  rw [FileTree.lastAt_append] at hlast
  have hread := FileTree.read_of_target htarget
  refine ⟨by rw [FileTree.place?_of_target htarget]; rfl, ?_⟩
  by_cases hdump : ∃ file ∈ dumpFile? target, t'.place? file = t'.place? w.1
  · obtain ⟨file, hfile, hsame⟩ := hdump
    rw [lastAt_dump hfile hsame, Option.some_or] at hlast
    rw [← Option.some.inj hlast] at hread
    exact .inl ⟨file, hfile, hsame, hread⟩
  · have hapart : ∀ file ∈ dumpFile? target, t'.place? file ≠ t'.place? w.1 :=
      fun file hfile hsame => hdump ⟨file, hfile, hsame⟩
    rw [lastAt_dump_eq_none hapart, Option.none_or] at hlast
    exact .inr ⟨hapart, last, hlast, hread⟩

end Tool

end AluVM
