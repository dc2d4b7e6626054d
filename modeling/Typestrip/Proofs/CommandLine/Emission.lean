import Mathlib.Data.List.Nodup
import Typestrip.CommandLine.Runner
import Typestrip.Proofs.Files.Stores

/-!
# Emission

What a run writes. The search for a clash and the writing go through the units one after the other, and
both look at `Runner.claims`, the files of the units: the search stops at the first file that is claimed
twice, and where it does not stop every file is claimed by one unit only. Then no output is lost, since
different files of the directory for outputs are at different places, so what is written at one of them
is still there after the rest.

`Runner.emit_all_or_nothing` puts this together.
-/

namespace Typestrip.CommandLine

open Files

namespace Runner

variable {r : Runner} {codes : List (String × String)} {claimed before : List (String × String)}
  {path path' name code first second first' second' : String}

/-- The files for outputs, with the names of their units, in the order of the units. -/
def claims (r : Runner) (codes : List (String × String)) : List (String × String) :=
  codes.filterMap fun unit => (r.outputPath? unit.1).map (·, unit.1)

/-- The files for outputs. -/
def outputPaths (r : Runner) (codes : List (String × String)) : List String :=
  codes.filterMap fun unit => r.outputPath? unit.1

/-- The outputs that belong into no file. -/
def unfiled (r : Runner) (codes : List (String × String)) : List String :=
  (codes.filter fun unit => (r.outputPath? unit.1).isNone).map (·.2)

theorem map_fst_claims (r : Runner) (codes : List (String × String)) :
    (r.claims codes).map (·.1) = r.outputPaths codes := by
  rw [claims, outputPaths, List.map_filterMap]
  exact congrArg (codes.filterMap ·) (funext fun unit => by simp [Option.map_map, Function.comp_def])

theorem claims_cons_none (h : r.outputPath? name = none) :
    r.claims ((name, code) :: codes) = r.claims codes :=
  List.filterMap_cons_none (by rw [h, Option.map_none])

theorem claims_cons_some (h : r.outputPath? name = some path) :
    r.claims ((name, code) :: codes) = (path, name) :: r.claims codes :=
  List.filterMap_cons_some (by rw [h, Option.map_some])

theorem outputPaths_cons_none (h : r.outputPath? name = none) :
    r.outputPaths ((name, code) :: codes) = r.outputPaths codes :=
  List.filterMap_cons_none h

theorem outputPaths_cons_some (h : r.outputPath? name = some path) :
    r.outputPaths ((name, code) :: codes) = path :: r.outputPaths codes :=
  List.filterMap_cons_some h

/-! ## Clashes -/

/-- The unit `second` is the first whose file belongs to a unit before it, which is `first`. -/
def Collides (claimed : List (String × String)) (path first second : String) : Prop :=
  ∃ before after, claimed = before ++ (path, second) :: after ∧
    (before.map (·.1)).Nodup ∧ (path, first) ∈ before

theorem Collides.not_nodup (h : Collides claimed path first second) :
    ¬ (claimed.map (·.1)).Nodup := by
  obtain ⟨before, after, rfl, -, hfirst⟩ := h
  intro hnodup
  rw [List.map_append, List.map_cons] at hnodup
  exact List.disjoint_of_nodup_append hnodup (List.mem_map.mpr ⟨_, hfirst, rfl⟩) List.mem_cons_self

/-- A beginning without a file that is claimed twice does not reach beyond a clash. -/
theorem eq_of_collision {after before' after' : List (String × String)}
    (h : before ++ (path, second) :: after = before' ++ (path', second') :: after')
    (hfirst : (path, first) ∈ before) (hnodup' : (before'.map (·.1)).Nodup)
    (hlength : before.length ≤ before'.length) : before = before' := by
  obtain ⟨more, rfl, hmore⟩ | ⟨more, rfl, hmore⟩ := List.append_eq_append_iff.mp h
  · cases more with
    | nil => exact (List.append_nil before).symm
    | cons claim more =>
      obtain ⟨rfl, -⟩ := List.cons.inj hmore
      rw [List.map_append, List.map_cons] at hnodup'
      exact absurd List.mem_cons_self
        (List.disjoint_of_nodup_append hnodup' (List.mem_map.mpr ⟨_, hfirst, rfl⟩))
  · rw [List.length_append] at hlength
    obtain rfl := List.length_eq_zero_iff.mp (by omega : more.length = 0)
    exact List.append_nil before'

/-- There is one first clash at most. -/
theorem Collides.unique (h : Collides claimed path first second)
    (h' : Collides claimed path' first' second') :
    path = path' ∧ first = first' ∧ second = second' := by
  obtain ⟨before, after, rfl, hnodup, hfirst⟩ := h
  obtain ⟨before', after', heq, hnodup', hfirst'⟩ := h'
  have hbefore : before = before' := by
    rcases Nat.le_total before.length before'.length with hlength | hlength
    · exact eq_of_collision heq hfirst hnodup' hlength
    · exact (eq_of_collision heq.symm hfirst' hnodup hlength).symm
  subst hbefore
  obtain ⟨rfl, rfl⟩ := Prod.mk.inj (List.cons.inj (List.append_cancel_left heq)).1
  have hsame := List.inj_on_of_nodup_map hnodup hfirst hfirst' rfl
  exact ⟨rfl, (Prod.mk.inj hsame).2, rfl⟩

theorem mem_of_lookup {entries : List (String × String)} (h : entries.lookup path = some name) :
    (path, name) ∈ entries := by
  induction entries with
  | nil => cases h
  | cons entry entries ih =>
    obtain ⟨key, value⟩ := entry
    by_cases hkey : path = key
    · subst hkey
      rw [List.lookup_cons_self] at h
      obtain rfl := Option.some.inj h
      exact List.mem_cons_self
    · rw [List.lookup_cons, beq_false_of_ne hkey] at h
      exact List.mem_cons_of_mem _ (ih h)

theorem not_mem_of_lookup {entries : List (String × String)} (h : entries.lookup path = none) :
    path ∉ entries.map (·.1) := by
  rw [List.lookup_eq_none_iff] at h
  intro hmem
  obtain ⟨entry, hentry, rfl⟩ := List.mem_map.mp hmem
  exact absurd (h entry hentry) (by simp)

/-- The search for a clash finds the first one, if there is one. `before` are the files of the units
before. -/
theorem clash?_spec (r : Runner) (before : List (String × String))
    (hnodup : (before.map (·.1)).Nodup) (codes : List (String × String)) :
    (r.clash? before codes = none ∧ ((before.reverse ++ r.claims codes).map (·.1)).Nodup) ∨
      ∃ path first second, r.clash? before codes = some (.outputClash path first second) ∧
        Collides (before.reverse ++ r.claims codes) path first second := by
  induction codes generalizing before with
  | nil =>
    refine .inl ⟨rfl, ?_⟩
    rw [claims, List.filterMap_nil, List.append_nil, List.map_reverse]
    exact List.nodup_reverse.mpr hnodup
  | cons unit codes ih =>
    obtain ⟨name, code⟩ := unit
    cases hpath : r.outputPath? name with
    | none =>
      rw [clash?, hpath, claims_cons_none hpath]
      exact ih before hnodup
    | some path =>
      rw [clash?, hpath, claims_cons_some hpath]
      cases hlookup : before.lookup path with
      | some first =>
        refine .inr ⟨path, first, name, by simp only [hlookup], before.reverse, r.claims codes, rfl,
          ?_, List.mem_reverse.mpr (mem_of_lookup hlookup)⟩
        rw [List.map_reverse]
        exact List.nodup_reverse.mpr hnodup
      | none =>
        have hnodup' : (((path, name) :: before).map (·.1)).Nodup :=
          List.nodup_cons.mpr ⟨not_mem_of_lookup hlookup, hnodup⟩
        have hih := ih ((path, name) :: before) hnodup'
        rw [List.reverse_cons, List.append_assoc, List.singleton_append] at hih
        simpa only [hlookup] using hih

/-! ## Files of outputs -/

theorem exists_of_outputPath (h : r.outputPath? name = some path) :
    ∃ directory stem, r.outDir = some directory ∧ '/' ∉ stem.toList ∧
      path = Path.join directory (stem ++ ".js") := by
  obtain ⟨directory, hdirectory, h⟩ := Option.bind_eq_some_iff.mp h
  split at h
  · cases h
  · obtain ⟨stem, hstem, h⟩ := Option.bind_eq_some_iff.mp h
    exact ⟨directory, stem, hdirectory, Path.not_mem_stem hstem, (Option.some.inj h).symm⟩

theorem isName_js (stem : String) : FileStore.IsName (stem ++ ".js") := by
  have hlength : 3 ≤ (stem ++ ".js").length := by
    rw [String.length_append]
    exact Nat.le_add_left 3 stem.length
  refine ⟨?_, ?_, ?_⟩ <;>
  · intro h
    rw [h] at hlength
    exact absurd hlength (by decide)

/-- Different files of outputs are at different places. -/
theorem outputPath_inj {name' : String} {s : FileStore} {l : Location}
    (h : r.outputPath? name = some path) (h' : r.outputPath? name' = some path')
    (hl : s.locate path = .ok l) (hl' : s.locate path' = .ok l) : path = path' := by
  obtain ⟨directory, stem, hdirectory, hstem, rfl⟩ := exists_of_outputPath h
  obtain ⟨directory', stem', hdirectory', hstem', rfl⟩ := exists_of_outputPath h'
  obtain rfl := Option.some.inj (hdirectory.symm.trans hdirectory')
  have hslash : ∀ stem : String, '/' ∉ stem.toList → '/' ∉ (stem ++ ".js").toList := by
    intro stem hstem
    rw [String.toList_append, List.mem_append, not_or]
    exact ⟨hstem, by decide⟩
  have hlast := FileStore.getLast?_locate (isName_js stem) (hslash stem hstem) hl
  have hlast' := FileStore.getLast?_locate (isName_js stem') (hslash stem' hstem') hl'
  rw [Option.some.inj (hlast.symm.trans hlast')]

/-! ## Writing -/

variable {s t : Session} {files : FileStore}

/-- The outputs of units have been written between two sessions. -/
structure Emitted (r : Runner) (codes : List (String × String)) (s t : Session) : Prop where
  /-- A file for an output holds it. -/
  written : ∀ name code path, (name, code) ∈ codes → r.outputPath? name = some path →
    t.files.read path = .ok (Utf8.encode code)
  /-- The other outputs stand behind what has been printed before, in the order of the units. -/
  printed : t.output = s.output ++ String.join (r.unfiled codes)
  /-- No other file has changed. -/
  spared : s.files.Spares t.files fun l => ∃ path ∈ r.outputPaths codes, t.files.locate path = .ok l
  input : t.input = s.input
  messages : t.messages = s.messages

namespace Emitted

theorem nil (r : Runner) (s : Session) : r.Emitted [] s s where
  written := nofun
  printed := (String.append_empty ..).symm
  spared := .refl s.files _
  input := rfl
  messages := rfl

theorem cons_printed (hpath : r.outputPath? name = none)
    (h : r.Emitted codes { s with output := s.output ++ code } t) :
    r.Emitted ((name, code) :: codes) s t where
  written := by
    intro name' code' path hmem hpath'
    rcases List.mem_cons.mp hmem with heq | hmem
    · obtain ⟨rfl, rfl⟩ := Prod.mk.inj heq
      rw [hpath] at hpath'
      cases hpath'
    · exact h.written name' code' path hmem hpath'
  printed := by
    have hunfiled : r.unfiled ((name, code) :: codes) = code :: r.unfiled codes := by
      rw [unfiled, List.filter_cons_of_pos (by rw [hpath]; rfl), List.map_cons, unfiled]
    rw [h.printed, hunfiled, String.join_cons, String.append_assoc]
  spared := by
    rw [outputPaths_cons_none hpath]
    exact h.spared
  input := h.input
  messages := h.messages

/-- What is written to a file stays there if no other unit has the same file. -/
theorem cons_written (hpath : r.outputPath? name = some path) (hfree : path ∉ r.outputPaths codes)
    (hread : files.read path = .ok (Utf8.encode code))
    (hspares : s.files.Spares files fun l => files.locate path = .ok l)
    (h : r.Emitted codes { s with files } t) : r.Emitted ((name, code) :: codes) s t where
  written := by
    intro name' code' path' hmem hpath'
    rcases List.mem_cons.mp hmem with heq | hmem
    · obtain ⟨rfl, rfl⟩ := Prod.mk.inj heq
      obtain rfl := Option.some.inj (hpath.symm.trans hpath')
      refine h.spared.read hread ?_
      rintro l hl ⟨path', hmem, hl'⟩
      obtain ⟨unit, hunit, hpath'⟩ := List.mem_filterMap.mp hmem
      rw [outputPath_inj hpath hpath' hl hl'] at hfree
      exact hfree hmem
    · exact h.written name' code' path' hmem hpath'
  printed := by
    have hunfiled : r.unfiled ((name, code) :: codes) = r.unfiled codes := by
      rw [unfiled, List.filter_cons_of_neg (by rw [hpath]; nofun), unfiled]
    rw [h.printed, hunfiled]
  spared := by
    rw [outputPaths_cons_some hpath]
    refine .trans (hspares.mono fun l hl => ?_) (h.spared.mono fun l hl => ?_)
    · exact ⟨path, List.mem_cons_self, h.spared.locate hl⟩
    · obtain ⟨path', hmem, hl⟩ := hl
      exact ⟨path', List.mem_cons_of_mem path hmem, hl⟩
  input := h.input
  messages := h.messages

end Emitted

theorem pure_apply {α : Type} (a : α) (s : Session) : (pure a : StateM Session α) s = (a, s) := rfl

theorem bind_apply {α β : Type} (x : StateM Session α) (f : α → StateM Session β) (s : Session) :
    (x >>= f) s = f (x s).1 (x s).2 := rfl

/-- Making directories fails, or else all files are as they were. -/
theorem createDirectories_spec (path : String) (s : Session) (touched : Location → Prop) :
    (∃ cause, Session.system.createDirectories path s = (.error cause, s)) ∨
      ∃ files, Session.system.createDirectories path s = (.ok ⟨⟩, { s with files }) ∧
        s.files.Spares files touched := by
  dsimp only [Session.system, Session.change]
  cases hfiles : s.files.createDirectories path with
  | error cause => exact .inl ⟨cause, rfl⟩
  | ok files => exact .inr ⟨files, rfl, .of_createDirectories hfiles⟩

/-- Writing a file fails, or else the file holds the text and all others are as they were. -/
theorem system_writeFile_spec (path code : String) (s : Session) :
    (∃ cause, Session.system.writeFile path code s = (.error cause, s)) ∨
      ∃ files, Session.system.writeFile path code s = (.ok ⟨⟩, { s with files }) ∧
        files.read path = .ok (Utf8.encode code) ∧
        s.files.Spares files fun l => files.locate path = .ok l := by
  dsimp only [Session.system, Session.change]
  cases hfiles : s.files.write path (Utf8.encode code) with
  | error cause => exact .inl ⟨cause, rfl⟩
  | ok files => exact .inr ⟨files, rfl, FileStore.read_of_write hfiles⟩

theorem writeFile_spec (path code : String) (s : Session) :
    (∃ cause t, writeFile Session.system path code s = (.error (.write path cause), t)) ∨
      ∃ files, writeFile Session.system path code s = (.ok ⟨⟩, { s with files }) ∧
        files.read path = .ok (Utf8.encode code) ∧
        s.files.Spares files fun l => files.locate path = .ok l := by
  cases hparent : Path.parent? path with
  | none =>
    obtain ⟨cause, hwrite⟩ | ⟨files, hwrite, hfiles⟩ := system_writeFile_spec path code s
    · refine .inl ⟨cause, s, ?_⟩
      simp only [writeFile, hparent, bind_apply, pure_apply, hwrite]
      rfl
    · refine .inr ⟨files, ?_, hfiles⟩
      simp only [writeFile, hparent, bind_apply, pure_apply, hwrite]
      rfl
  | some parent =>
    obtain ⟨cause, hmade⟩ | ⟨above, hmade, habove⟩ := createDirectories_spec parent s fun _ => False
    · refine .inl ⟨cause, s, ?_⟩
      simp only [writeFile, hparent, bind_apply, pure_apply, hmade]
    · obtain ⟨cause, hwrite⟩ | ⟨files, hwrite, hread, hspares⟩ :=
        system_writeFile_spec path code { s with files := above }
      · refine .inl ⟨cause, { s with files := above }, ?_⟩
        simp only [writeFile, hparent, bind_apply, pure_apply, hmade, hwrite]
        rfl
      · refine .inr ⟨files, ?_, hread, .trans (habove.mono fun _ h => h.elim) hspares⟩
        simp only [writeFile, hparent, bind_apply, pure_apply, hmade, hwrite]
        rfl

/-- The outputs of units are all written, unless a file could not be. -/
theorem emitCodes_spec (hnodup : (r.outputPaths codes).Nodup) (s : Session) :
    (∃ path cause t, r.emitCodes Session.system codes s = (.error (.write path cause), t)) ∨
      ∃ t, r.emitCodes Session.system codes s = (.ok ⟨⟩, t) ∧ r.Emitted codes s t := by
  induction codes generalizing s with
  | nil => exact .inr ⟨s, rfl, .nil r s⟩
  | cons unit codes ih =>
    obtain ⟨name, code⟩ := unit
    cases hpath : r.outputPath? name with
    | none =>
      have hstep : r.emitCodes Session.system ((name, code) :: codes) s =
          r.emitCodes Session.system codes { s with output := s.output ++ code } := by
        rw [emitCodes, hpath]
        rfl
      rw [outputPaths_cons_none hpath] at hnodup
      rw [hstep]
      obtain herror | ⟨t, ht, hemitted⟩ := ih hnodup { s with output := s.output ++ code }
      · exact .inl herror
      · exact .inr ⟨t, ht, hemitted.cons_printed hpath⟩
    | some path =>
      rw [outputPaths_cons_some hpath] at hnodup
      obtain ⟨hfree, hnodup'⟩ := List.nodup_cons.mp hnodup
      obtain ⟨cause, t, hwrite⟩ | ⟨files, hwrite, hread, hspares⟩ := writeFile_spec path code s
      · refine .inl ⟨path, cause, t, ?_⟩
        simp only [emitCodes, hpath, bind_apply, pure_apply, hwrite]
      · have hstep : r.emitCodes Session.system ((name, code) :: codes) s =
            r.emitCodes Session.system codes { s with files } := by
          simp only [emitCodes, hpath, bind_apply, hwrite]
        rw [hstep]
        obtain herror | ⟨t, ht, hemitted⟩ := ih hnodup' { s with files }
        · exact .inl herror
        · exact .inr ⟨t, ht, hemitted.cons_written hpath hfree hread hspares⟩

/-- Either two outputs belong into the same file, or everything is written.

In the first case the error names the first unit whose file belongs to a unit before it, together with
that unit, and nothing is changed. In the second case every file for an output holds the output of its
unit, the outputs without a file are printed in the order of their units, and no other file is
changed. -/
theorem emit_all_or_nothing {report : Report} {result : Except RunError PUnit}
    (hcheck : r.check = false) (h : r.emit Session.system report s = (result, t))
    (hwritten : ∀ path cause, result ≠ .error (.write path cause)) :
    (∀ path first second, result = .error (.outputClash path first second) ↔
      Collides (r.claims report.codes) path first second) ∧
    (¬ (r.outputPaths report.codes).Nodup →
      (∃ path first second, result = .error (.outputClash path first second)) ∧ t = s) ∧
    ((r.outputPaths report.codes).Nodup → result = .ok ⟨⟩ ∧ r.Emitted report.codes s t) := by
  have hclash := r.clash?_spec [] List.nodup_nil report.codes
  rw [List.reverse_nil, List.nil_append, map_fst_claims] at hclash
  rw [emit, if_neg (by simp [hcheck])] at h
  obtain ⟨hnone, hnodup⟩ | ⟨path, first, second, hsome, hcollides⟩ := hclash
  · simp only [hnone] at h
    obtain ⟨path, cause, t', herror⟩ | ⟨t', hok, hemitted⟩ := emitCodes_spec hnodup s
    · rw [herror] at h
      exact absurd (Prod.mk.inj h).1.symm (hwritten path cause)
    · rw [hok] at h
      obtain ⟨rfl, rfl⟩ := Prod.mk.inj h
      refine ⟨fun path first second => ⟨nofun, fun hcollides => ?_⟩,
        fun hnot => absurd hnodup hnot, fun _ => ⟨rfl, hemitted⟩⟩
      rw [← map_fst_claims] at hnodup
      exact absurd hnodup hcollides.not_nodup
  · simp only [hsome] at h
    obtain ⟨rfl, rfl⟩ := Prod.mk.inj h
    refine ⟨fun path' first' second' => ⟨fun heq => ?_, fun hcollides' => ?_⟩,
      fun _ => ⟨⟨path, first, second, rfl⟩, rfl⟩, fun hnodup => ?_⟩
    · obtain ⟨rfl, rfl, rfl⟩ := RunError.outputClash.inj (Except.error.inj heq)
      exact hcollides
    · obtain ⟨rfl, rfl, rfl⟩ := hcollides.unique hcollides'
      rfl
    · rw [← map_fst_claims] at hnodup
      exact absurd hnodup hcollides.not_nodup

/-- Files, one of them with an error, the input, and a name without a stem. -/
def mixedReport : Report :=
  ⟨[("a/x.ts", ⟨false, some "let a = 1;\n", none⟩), ("b/x.ts", ⟨true, none, none⟩),
    (inputName, ⟨false, some "f();\n", none⟩), ("b/y.ts", ⟨false, some "let b = 2;\n", none⟩),
    ("..", ⟨false, some "g();\n", none⟩)]⟩

/-- Files of one name in two directories. -/
def twinReport : Report :=
  ⟨[("b/y.ts", ⟨false, some "let b = 2;\n", none⟩), ("a/x.ts", ⟨false, some "let a = 1;\n", none⟩),
    ("b/x.ts", ⟨false, some "let c = 3;\n", none⟩)]⟩

theorem exists_of_fst {α β : Type} {x : α × β} {a : α} (h : x.1 = a) : ∃ b, x = (a, b) :=
  ⟨x.2, Prod.ext h rfl⟩

/-- The outputs of the first report are written, and those of the second clash. -/
theorem emit_all_or_nothing_mixed :
    (∃ t, Runner.emit ⟨{}, some "out", false⟩ Session.system mixedReport ⟨.fresh "work", [], "", ""⟩ =
        (.ok ⟨⟩, t) ∧
      Emitted ⟨{}, some "out", false⟩ mixedReport.codes ⟨.fresh "work", [], "", ""⟩ t) ∧
    ∃ t, Runner.emit ⟨{}, some "out", false⟩ Session.system twinReport ⟨.fresh "work", [], "", ""⟩ =
        (.error (.outputClash "out/x.js" "a/x.ts" "b/x.ts"), t) ∧
      t = ⟨.fresh "work", [], "", ""⟩ := by
  constructor
  · obtain ⟨t, ht⟩ : ∃ t, Runner.emit ⟨{}, some "out", false⟩ Session.system mixedReport
        ⟨.fresh "work", [], "", ""⟩ = (.ok ⟨⟩, t) := exists_of_fst (by decide +kernel)
    have hnodup : (outputPaths ⟨{}, some "out", false⟩ mixedReport.codes).Nodup := by decide +kernel
    exact ⟨t, ht, ((emit_all_or_nothing rfl ht nofun).2.2 hnodup).2⟩
  · obtain ⟨t, ht⟩ : ∃ t, Runner.emit ⟨{}, some "out", false⟩ Session.system twinReport
        ⟨.fresh "work", [], "", ""⟩ = (.error (.outputClash "out/x.js" "a/x.ts" "b/x.ts"), t) :=
      exists_of_fst (by decide +kernel)
    have hnot : ¬ (outputPaths ⟨{}, some "out", false⟩ twinReport.codes).Nodup := by decide +kernel
    exact ⟨t, ht, ((emit_all_or_nothing rfl ht nofun).2.1 hnot).2⟩

end Runner

end Typestrip.CommandLine
