import Typestrip.CommandLine.Runner
import Typestrip.Proofs.TypeScript.Batch

/-!
# Runs

The report of a run lists the names of the units and what the transpiler makes of each of them, in the
order of the units. Whether they went through a pool, and through how large a one, does not show
(`Runner.transformUnits_eq`, `Runner.runFiles_eq`).

`pools_agree_with_transform` puts this together with what is true of the pool itself.
-/

namespace Typestrip.CommandLine

open Files Rpc TypeScript

variable {t : Transpiler}

/-- The report on units that are transformed one by one. -/
def Report.ofUnits (t : Transpiler) (units : List SourceUnit) : Report :=
  ⟨units.map fun u => (u.name, t.output u)⟩

namespace Runner

/-- Whether units go through a pool makes no difference. -/
theorem transformUnits_eq {units : List SourceUnit} (r : Runner)
    (ht : Transpiler.ofSettings r.settings = .ok t) (hfew : units.length < 2 ^ 64) :
    r.transformUnits units = .ok (Report.ofUnits t units) := by
  have hzip : (units.map (·.name)).zip (units.map t.output) =
      units.map fun u => (u.name, t.output u) := List.zip_map' ..
  unfold transformUnits
  by_cases hpool : 1 < units.length ∧ 1 < r.settings.poolSize.getD 1
  · have hsize : 0 < min (r.settings.poolSize.getD 1) units.length := by omega
    have ht' : Transpiler.ofSettings (r.settings.withPoolSize
        (min (r.settings.poolSize.getD 1) units.length)) = .ok t :=
      (Transpiler.ofSettings_poolSize ..).trans ht
    obtain ⟨b, hstart, hready⟩ := Batch.exists_ready_start ht' hsize
    have houtputs : (b.compile units).1 = units.map t.output :=
      (hready.compile (by rwa [Nat.zero_add])).1
    rw [if_pos hpool]
    simp only [hstart]
    show Except.ok (Report.mk ((units.map (·.name)).zip (b.compile units).1)) = _
    rw [houtputs, hzip]
    rfl
  · rw [if_neg hpool, ht]
    exact congrArg (fun outputs => Except.ok (Report.mk outputs)) hzip

variable {m : Type → Type} [Monad m]

/-- Transforms source files one by one, each as soon as it has been read. -/
def transformFiles (t : Transpiler) (sys : System m) :
    List String → m (Except RunError (List (String × Output)))
  | [] => return .ok []
  | path :: rest => do
    match ← sys.readText path with
    | .error e => return .error (.read path e)
    | .ok source =>
      return (← transformFiles t sys rest).map ((path, t.transform source.toList) :: ·)

variable [LawfulMonad m] {sys : System m} {paths : List String}

/-- What is made of the units that are read has to be looked at only for units that bear the names of
the paths. -/
theorem map_readUnits_congr {α : Type} {f g : Except RunError (List SourceUnit) → α}
    (herror : ∀ e, f (.error e) = g (.error e))
    (hok : ∀ units, units.map (·.name) = paths → f (.ok units) = g (.ok units)) :
    f <$> readUnits sys paths = g <$> readUnits sys paths := by
  induction paths generalizing f g with
  | nil => rw [readUnits, map_pure, map_pure, hok [] rfl]
  | cons path rest ih =>
    rw [readUnits, map_bind, map_bind]
    refine bind_congr fun text => ?_
    cases text with
    | error e => simp only [map_pure, herror]
    | ok source =>
      simp only [bind_pure_comp, Functor.map_map]
      refine ih (f := fun r => f (r.map (⟨path, source⟩ :: ·)))
        (g := fun r => g (r.map (⟨path, source⟩ :: ·))) herror fun units hunits => hok _ ?_
      rw [List.map_cons, hunits]

/-- Files that are transformed one by one might as well all be read first. -/
theorem transformFiles_eq (t : Transpiler) (sys : System m) (paths : List String) :
    transformFiles t sys paths =
      (fun r => r.map fun units => (Report.ofUnits t units).outputs) <$> readUnits sys paths := by
  induction paths with
  | nil =>
    rw [transformFiles, readUnits, map_pure]
    rfl
  | cons path rest ih =>
    rw [transformFiles, readUnits, map_bind]
    refine bind_congr fun text => ?_
    cases text with
    | error e =>
      simp only [map_pure]
      rfl
    | ok source =>
      simp only [bind_pure_comp, Functor.map_map, ih]
      refine congrArg (· <$> readUnits sys rest) (funext fun r => ?_)
      cases r <;> rfl

/-- A run on files is what comes of transforming them one by one. -/
theorem runFiles_eq (r : Runner) (ht : Transpiler.ofSettings r.settings = .ok t)
    (hfew : paths.length < 2 ^ 64) :
    r.runFiles sys paths = (fun r => r.map Report.mk) <$> transformFiles t sys paths := by
  rw [transformFiles_eq, Functor.map_map, runFiles, bind_pure_comp]
  refine map_readUnits_congr (fun e => rfl) fun units hunits => ?_
  have hlength : units.length < 2 ^ 64 := by
    rwa [← hunits, List.length_map] at hfew
  simp only [bind, Except.bind, Except.map, r.transformUnits_eq ht hlength]

end Runner

/-! ## Pools and single sources -/

/-- What a pool makes of units is what the transpiler makes of each of them, in their order.

A pool of at least one worker gets there whatever the order in which its threads go on. Whoever uses it
alone comes to an end. Others may use the pool too, as long as no slot has had so many calls that
their numbers, which have 64 bits, begin again. `Batch.compile` on a pool that has just been started,
or that has compiled other batches before, is such a course of events.

The report of a runner has the names of the units and these outputs, and a run on files gives what
comes of reading and transforming them one by one, for any number of workers. -/
theorem pools_agree_with_transform (s : Settings) (units : List SourceUnit)
    (hfew : units.length < 2 ^ 64) :
    ∃ t, Transpiler.ofSettings s = .ok t ∧
      (0 < s.poolSize.getD 1 →
        (∀ c, Relation.ReflTransGen Crew.Step (Batch.crew t (s.poolSize.getD 1) units) c →
          Batch.Collects t units c) ∧
        Acc (fun c' c => c.Step c') (Batch.crew t (s.poolSize.getD 1) units) ∧
        (∀ c, (Batch.crew t (s.poolSize.getD 1) units).Run c → c.Small →
          Batch.Collects t units c) ∧
        ∃ b, Batch.start s = .ok b ∧ ∀ before : List (List SourceUnit),
          (before.map List.length).sum + units.length < 2 ^ 64 →
            ((before.foldl (fun b us => (b.compile us).2) b).compile units).1 =
              units.map t.output) ∧
      ∀ (poolSize : Option Nat) (outDir : Option String) (check : Bool),
        (Runner.mk { s with poolSize } outDir check).transformUnits units =
          .ok (Report.ofUnits t units) ∧
        ∀ {m : Type → Type} [Monad m] [LawfulMonad m] (sys : System m) (paths : List String),
          paths.length < 2 ^ 64 →
            (Runner.mk { s with poolSize } outDir check).runFiles sys paths =
              (fun outputs => outputs.map Report.mk) <$> Runner.transformFiles t sys paths := by
  obtain ⟨parsers, hparsers⟩ := Transpiler.exists_ofSettings
  have ht := hparsers s
  generalize Transpiler.mk parsers (Transpiler.optionsOf s) = t at ht
  refine ⟨t, ht, fun hsize => ⟨?_, Crew.wellFounded_step.apply _, ?_, ?_⟩, ?_⟩
  · exact fun c h => .of_steps h hsize hfew
  · exact fun c h hsmall => .of_run h hsize hsmall
  · obtain ⟨b, hstart, hready⟩ := Batch.exists_ready_start ht hsize
    refine ⟨b, hstart, fun before hbefore => ?_⟩
    rw [← Nat.zero_add (List.sum _)] at hbefore
    exact ((hready.compileAll (by omega)).compile hbefore).1
  · intro poolSize outDir check
    have ht' := (Transpiler.ofSettings_poolSize s poolSize).trans ht
    refine ⟨Runner.transformUnits_eq _ ht' hfew, fun sys paths hpaths => ?_⟩
    exact Runner.runFiles_eq _ ht' hpaths

/-- Two workers and three units, one of them empty and one unfinished, and a run of four workers on two
files. -/
theorem pools_agree_with_transform_three :
    ∃ t, Transpiler.ofSettings { poolSize := some 2 } = .ok t ∧
      (∃ b, Batch.start { poolSize := some 2 } = .ok b ∧
        (b.compile [⟨"a.ts", "let a: number = 1;"⟩, ⟨"b.ts", ""⟩, ⟨"c.ts", "let ("⟩]).1 =
          [t.transform "let a: number = 1;".toList, t.transform [], t.transform "let (".toList]) ∧
      (Runner.runFiles ⟨{ poolSize := some 4 }, none, false⟩ Session.system ["b.ts", "a.ts"]
        { files := ⟨[(["a.ts"], .file [48]), (["b.ts"], .file [])], []⟩ }).1 =
          .ok ⟨[("b.ts", t.transform []), ("a.ts", t.transform ['0'])]⟩ := by
  obtain ⟨t, ht, hpool, hrunner⟩ := pools_agree_with_transform { poolSize := some 2 }
    [⟨"a.ts", "let a: number = 1;"⟩, ⟨"b.ts", ""⟩, ⟨"c.ts", "let ("⟩] (by decide)
  obtain ⟨-, -, -, b, hstart, hcompile⟩ := hpool (by decide)
  obtain ⟨-, hfiles⟩ := hrunner (some 4) none false
  refine ⟨t, ht, ⟨b, hstart, hcompile [] (by decide)⟩, ?_⟩
  have hrun := hfiles Session.system ["b.ts", "a.ts"] (by decide)
  rw [hrun]
  rfl

end Typestrip.CommandLine
